/-
Runs of one tiler: no damage is lost.

A run adds and deletes rectangles, clears and iterates.  Whatever the tile size and the
rounding, the next iteration returns every pixel that was added and not taken away since
(`run_emits`), provided that no turn of an addition splits a rectangle in three: the worklist
of `rect_list_add_split_fuzzy` can come back to a state it was in (`damage_not_delivered`).
-/
import Efl.Lib.Runs
import Efl.Eina.Tiler.Proper

namespace Eina.Tiler

open Cover Runs Outcome

/-! ### The machine -/

inductive Op where
  | rectAdd (r : Rectangle)
  | rectDel (r : Rectangle)
  | clear
  | iterate

/-- A pixel the operation takes away. -/
def Op.Takes (p : Int × Int) : Op → Prop
  | .rectDel r => p ∈ r.pixels
  | .clear => True
  | _ => False

/-- One operation: the tiler afterwards, and the rectangles an iteration returns. -/
def step (turns : Nat) (t : Tiler) : Op → Outcome (Tiler × List Rectangle)
  | .rectAdd r => do
    let (t, _) ← rectAdd turns t r
    return (t, [])
  | .rectDel r => .returns (rectDel t r, [])
  | .clear => .returns (clear t, [])
  | .iterate => do
    let t ← iteratorNew turns t
    return (t, iterated t)

/-- The operation returns. -/
def Step (t : Tiler) (op : Op) (t' : Tiler) (out : List Rectangle) : Prop :=
  ∃ turns, step turns t op = .returns (t', out)

/-- A tiler without rectangles: any area, tile size and rounding, and not strict. -/
def start (w h tileW tileH : Int) (rounding : Bool) : Tiler :=
  ⟨tileW, tileH, forget ⟨0, 0, 0, 0⟩, forget ⟨0, 0, 0, 0⟩, ⟨0, 0, w, h⟩, [], false, rounding, false⟩

theorem new_eq {w h : Int} (hw : 0 < w) (hh : 0 < h) : new w h = some (start w h 32 32 true) := by
  unfold new
  rw [if_neg (by omega)]
  rfl

theorem start_sound (w h tileW tileH : Int) (rounding : Bool) :
    Sound (start w h tileW tileH rounding) :=
  sound_of_invalid allOk_nil rfl (isValid_forget _)

/-! ### One step -/

variable {t t' : Tiler} {op : Op} {out : List Rectangle} {p : Int × Int} {ops : List Op}
  {outs : List (List Rectangle)}

/-- What an operation that returns has done. -/
structure Goes (t : Tiler) (op : Op) (t' : Tiler) (out : List Rectangle) : Prop where
  sound : Sound t'
  area : t'.area = t.area
  kept : ∀ p ∈ covered t, ¬op.Takes p → p ∈ covered t'
  added : ∀ r, op = .rectAdd r → r.pixels ∩ t.area.pixels ⊆ covered t'
  returned : op = .iterate → covered t ∩ t.area.pixels ⊆ cover Rectangle.pixels out

theorem step_goes (hs : Sound t) (turns : Nat) (op : Op) :
    (step turns t op = .running ∧ ∃ r, op = .rectAdd r ∧ rectAdd turns t r = .running) ∨
      ∃ t' out, step turns t op = .returns (t', out) ∧ Goes t op t' out := by
  cases op with
  | rectAdd r =>
    rcases rectAdd_adds hs turns r with h | ⟨t', b, h, hadds⟩
    · exact .inl ⟨by simp only [step, h, running_bind], r, rfl, h⟩
    refine .inr ⟨t', [], by simp only [step, h, returns_bind, pure_eq],
      hadds.sound, hadds.area, fun p hp _ => hadds.kept hp, ?_, by simp⟩
    intro r' hr'
    obtain rfl := Op.rectAdd.inj hr'
    exact hadds.added
  | rectDel r =>
    obtain ⟨hsound, harea, hkept⟩ := rectDel_sound hs r
    exact .inr ⟨_, [], rfl, hsound, harea, hkept, by simp, by simp⟩
  | clear =>
    refine .inr ⟨_, [], rfl, clear_sound hs, rfl, ?_, by simp, by simp⟩
    intro p _ hp
    exact absurd trivial hp
  | iterate =>
    obtain ⟨ys, m, h, hsound, hcovered⟩ := iteratorNew_sound hs turns
    refine .inr ⟨_, _, by simp only [step, h]; rfl, hsound, rfl,
      fun p hp _ => hcovered hp, by simp, ?_⟩
    rintro - p ⟨hp, harea⟩
    exact mem_iterated hsound.ok (hcovered hp) harea

theorem goes_of_step (hs : Sound t) (h : Step t op t' out) : Goes t op t' out := by
  obtain ⟨turns, h⟩ := h
  rcases step_goes hs turns op with ⟨hrun, -⟩ | ⟨t1, out1, h1, hgoes⟩
  · rw [hrun] at h
    simp at h
  rw [h1] at h
  obtain ⟨⟩ := h
  exact hgoes

theorem rectAdd_mono (t : Tiler) (r : Rectangle) : Outcome.Mono fun turns => rectAdd turns t r := by
  unfold rectAdd
  split
  · exact mono_const _
  split
  · exact mono_const _
  split
  · exact mono_const _
  split
  · exact mono_const _
  · refine Outcome.Mono.bind ?_ fun _ => mono_const _
    exact (addSplitFuzzyAndMerge_mono _ _ _ _).bind fun _ => mono_const _

theorem iteratorNew_mono (t : Tiler) : Outcome.Mono fun turns => iteratorNew turns t := by
  unfold iteratorNew
  split
  · refine Outcome.Mono.bind ?_ fun _ => mono_const _
    split
    · exact Outcome.Mono.foldlM (fun _ _ => addSplitFuzzyAndMerge_mono _ _ _ _) _ _
    · exact mono_const _
  · exact mono_const _

theorem step_mono (t : Tiler) (op : Op) : Outcome.Mono fun turns => step turns t op := by
  cases op with
  | rectAdd r => exact (rectAdd_mono t r).bind fun _ => mono_const _
  | rectDel r => exact mono_const _
  | clear => exact mono_const _
  | iterate => exact (iteratorNew_mono t).bind fun _ => mono_const _

theorem step_unique (t : Tiler) (op : Op) (t1 : Tiler) (out1 : List Rectangle) (t2 : Tiler)
    (out2 : List Rectangle) (h1 : Step t op t1 out1) (h2 : Step t op t2 out2) :
    t1 = t2 ∧ out1 = out2 := by
  obtain ⟨n, hn⟩ := h1
  obtain ⟨m, hm⟩ := h2
  have hsame := (step_mono t op).unique (n := n) (m := m) (by simp [hn]) (by simp [hm])
  simp only [hn, hm, Outcome.returns.injEq, Prod.mk.injEq] at hsame
  exact hsame

/-! ### Runs -/

theorem traces_sound (hs : Sound t)
    (h : Traces Step t ops t' outs) : Sound t' ∧ t'.area = t.area := by
  refine traces_invariant (I := fun t1 => Sound t1 ∧ t1.area = t.area) ?_ ops t t' outs
    ⟨hs, rfl⟩ h
  intro t1 op t2 out h1 h2
  have hgoes := goes_of_step h1.1 h2
  exact ⟨hgoes.sound, hgoes.area.trans h1.2⟩

theorem traces_kept : ∀ {t t' : Tiler} {outs : List (List Rectangle)}, Sound t →
    Traces Step t ops t' outs → (∀ op ∈ ops, ¬op.Takes p) → p ∈ covered t → p ∈ covered t' := by
  induction ops with
  | nil =>
    intro t t' outs _ h _ hp
    rw [h.1]
    exact hp
  | cons op ops ih =>
    intro t t' outs hs h htakes hp
    obtain ⟨t1, out, outs', hstep, -, hrest⟩ := h
    have hgoes := goes_of_step hs hstep
    refine ih hgoes.sound hrest (fun op' hop' => htakes op' (List.mem_cons_of_mem _ hop')) ?_
    exact hgoes.kept p hp (htakes op List.mem_cons_self)

/--
A pixel of the area that lies in a rectangle added after the last `clear`, and in no
rectangle deleted after that addition.
-/
def Pending (area : Rectangle) (ops : List Op) (p : Int × Int) : Prop :=
  p ∈ area.pixels ∧ ∃ before r after, ops = before ++ .rectAdd r :: after ∧ p ∈ r.pixels ∧
    ∀ op ∈ after, ¬op.Takes p

theorem covered_of_pending (hs : Sound t)
    (h : Traces Step t ops t' outs) (hp : Pending t.area ops p) : p ∈ covered t' := by
  obtain ⟨harea, before, r, after, rfl, hr, hafter⟩ := hp
  obtain ⟨t1, outs1, outs2, h1, ⟨t2, out, outs3, hadd, -, h2⟩, -⟩ := traces_append.mp h
  obtain ⟨hsound1, harea1⟩ := traces_sound hs h1
  have hgoes := goes_of_step hsound1 hadd
  refine traces_kept hgoes.sound h2 hafter ?_
  exact hgoes.added r rfl ⟨hr, by rw [harea1]; exact harea⟩

/-- The run returns, and so does the next iteration, with every pending pixel. -/
structure Delivers (t : Tiler) (ops : List Op) : Prop where
  returned : ∃ t1 outs t2 rects, Traces Step t ops t1 outs ∧ Step t1 .iterate t2 rects ∧
    ∀ p, Pending t.area ops p → p ∈ cover Rectangle.pixels rects
  neverAborts : ∀ before op after t1 outs turns, ops = before ++ op :: after →
    Traces Step t before t1 outs → step turns t1 op ≠ .aborts

/-- No turn of an addition splits a rectangle in three for no more than twice the tile area. -/
def Op.Uncut (t : Tiler) : Op → Prop
  | .rectAdd r => ∀ tmp, r.intersection t.area = (tmp, true) → tmp ≠ t.lastAdd → AddsUncut t tmp
  | _ => True

theorem step_proper (ht : Proper t) (h : Step t op t' out) : Proper t' := by
  obtain ⟨turns, h⟩ := h
  cases op with
  | rectAdd r =>
    obtain ⟨⟨t1, b⟩, hadd, h⟩ := bind_eq_returns.mp h
    obtain ⟨⟩ := h
    exact rectAdd_proper ht hadd
  | rectDel r =>
    obtain ⟨⟩ := h
    exact rectDel_proper r ht
  | clear =>
    obtain ⟨⟩ := h
    exact ht.of_frame (List.forall_mem_nil _) ⟨rfl, rfl, rfl⟩
  | iterate =>
    obtain ⟨t1, hnew, h⟩ := bind_eq_returns.mp h
    obtain ⟨⟩ := h
    exact (iteratorNew_proper ht hnew).1

theorem step_returns (hs : Sound t) (ht : Proper t) (hcut : op.Uncut t) :
    ∃ t' out, Step t op t' out := by
  cases op with
  | rectAdd r =>
    obtain ⟨turns, t', b, hadd⟩ := rectAdd_ends ht hcut
    exact ⟨t', [], turns, by rw [step, hadd]; rfl⟩
  | rectDel r => exact ⟨_, _, 0, rfl⟩
  | clear => exact ⟨_, _, 0, rfl⟩
  | iterate =>
    obtain ⟨ys, m, h, -⟩ := iteratorNew_sound hs 0
    exact ⟨_, _, 0, by rw [step, h]; rfl⟩

/--
**No damage is lost**: in every run whose additions split no rectangle in three, the next iteration
returns every pixel that was added and not taken away since; and `abort` is never called.
-/
theorem run_emits {w h tileW tileH : Int} (hw : 0 < w) (hh : 0 < h) (htw : 0 < tileW)
    (hth : 0 < tileH) (rounding : Bool) (ops : List Op)
    (hok : EachStep Step Op.Uncut (start w h tileW tileH rounding) ops) :
    Delivers (start w h tileW tileH rounding) ops := by
  have hs := start_sound w h tileW tileH rounding
  refine ⟨?_, ?_⟩
  · obtain ⟨t1, outs, hrun, -⟩ := traces_exists_of (I := fun t => Sound t ∧ Proper t)
      (by
        rintro t op ⟨hs, ht⟩ hcut
        obtain ⟨t', out, hstep⟩ := step_returns hs ht hcut
        exact ⟨t', out, hstep, (goes_of_step hs hstep).sound, step_proper ht hstep⟩)
      ops _ hok ⟨hs, List.forall_mem_nil _, rfl, rfl, hw, hh, htw, hth⟩
    obtain ⟨hsound, harea⟩ := traces_sound hs hrun
    rcases step_goes hsound 0 .iterate with ⟨-, r, hr, -⟩ | ⟨t2, rects, hiter, hgoes⟩
    · simp at hr
    refine ⟨t1, outs, t2, rects, hrun, ⟨0, hiter⟩, ?_⟩
    intro p hp
    refine hgoes.returned rfl ⟨covered_of_pending hs hrun hp, ?_⟩
    rw [harea]
    exact hp.1
  · intro before op after t1 outs turns _ htraces
    obtain ⟨hsound, -⟩ := traces_sound hs htraces
    rcases step_goes hsound turns op with ⟨hrun, -⟩ | ⟨t2, out, hret, -⟩
    · simp [hrun]
    · simp [hret]

/-- The operation splits nothing in three, and an addition is at its end in `n` turns. -/
def Op.uncutIn (n : Nat) (t : Tiler) : Op → Bool
  | .rectAdd r => uncutWithin (t.tileW * t.tileH) n
      ⟨t.rects, [addRect t (r.intersection t.area).1], t.rects.length⟩
  | _ => true

def uncutRun (n : Nat) : Tiler → List Op → Bool
  | _, [] => true
  | t, op :: ops =>
    op.uncutIn n t &&
      match step n t op with
      | .returns (t', _) => uncutRun n t' ops
      | _ => false

theorem eachStep_of_uncutRun {n : Nat} (ops : List Op) :
    ∀ t : Tiler, uncutRun n t ops = true → EachStep Step Op.Uncut t ops := by
  induction ops with
  | nil => exact fun _ _ => eachStep_nil
  | cons op ops ih =>
    intro t h
    unfold uncutRun at h
    obtain ⟨hcut, hrest⟩ := Bool.and_eq_true_iff.mp h
    split at hrest
    · rename_i t' out hstep
      refine eachStep_cons_of step_unique ?_ ⟨n, hstep⟩ (ih t' hrest)
      cases op with
      | rectAdd r =>
        intro tmp hinter _
        rw [Op.uncutIn, hinter] at hcut
        exact addsUncut_of_within hcut
      | rectDel r => trivial
      | clear => trivial
      | iterate => trivial
    · cases hrest

/-- The second rectangle is cut in two, and the third is merged with what a deletion left. -/
theorem run_emits_cut : Delivers (start 512 512 1 1 false)
    [.rectAdd ⟨0, 0, 15, 15⟩, .rectAdd ⟨8, 8, 15, 15⟩, .rectDel ⟨4, 4, 8, 8⟩, .iterate,
      .rectAdd ⟨0, 4, 40, 11⟩] :=
  run_emits (by decide) (by decide) (by decide) (by decide) false _
    (eachStep_of_uncutRun (n := 20) _ _ (by decide))

/-! ### An addition that never returns

The third rectangle is cut along the first two, the pieces to its left and right are merged
again with the ones below, and after eight turns the whole rectangle is back in the
worklist.
-/

def threeAdds : List Op :=
  [.rectAdd ⟨256, 64, 159, 159⟩, .rectAdd ⟨160, 0, 159, 63⟩, .rectAdd ⟨0, 32, 479, 63⟩]

/-- The tiler before the third addition. -/
def twoAdded : Tiler :=
  { start 512 512 32 32 true with
    lastAdd := ⟨160, 0, 159, 63⟩
    rects := [Rect.init 128 32 80 80, Rect.init 80 0 80 32] }

theorem traces_twoAdded :
    Traces Step (start 512 512 32 32 true) (threeAdds.take 2) twoAdded [[], []] := by
  refine ⟨_, [], [[]], ⟨9, rfl⟩, rfl, twoAdded, [], [], ⟨9, ?_⟩, rfl, rfl, rfl⟩
  decide

theorem rectAdd_twoAdded (turns : Nat) : rectAdd turns twoAdded ⟨0, 32, 479, 63⟩ = .running := by
  have hloop := addLoop_running (e := 1024) (k := 7)
    (w := ⟨twoAdded.rects, [Rect.init 0 16 240 32], 2⟩) (by decide) turns
  have hadd : splitterRectAdd turns
      { twoAdded with lastAdd := ⟨0, 32, 479, 63⟩, lastDel := forget twoAdded.lastDel }
      ⟨0, 32, 479, 63⟩ = .running := by
    have hsplit : addSplitFuzzy turns twoAdded.rects (Rect.init 0 16 240 32) 1024 = .running := by
      exact hloop
    have hmerge : addSplitFuzzyAndMerge turns twoAdded.rects (Rect.init 0 16 240 32) 1024 1024
        = .running := by
      unfold addSplitFuzzyAndMerge
      rw [hsplit]
      rfl
    exact congrArg (· >>= _) hmerge
  exact congrArg (· >>= _) hadd

/-- The damage of three additions to a tiler of 512 by 512 pixels is never returned. -/
theorem damage_not_delivered : ¬Delivers (start 512 512 32 32 true) threeAdds := by
  intro hdelivers
  obtain ⟨t2, outs2, -, -, hrun, -⟩ := hdelivers.returned
  obtain ⟨t1, outs1, -, h1, ⟨t3, out, -, ⟨turns, hadd⟩, -, -⟩, -⟩ :=
    traces_append.mp (show Traces Step _ (threeAdds.take 2 ++ threeAdds.drop 2) t2 outs2 from hrun)
  obtain ⟨rfl, -⟩ := traces_unique step_unique _ _ _ _ _ _ traces_twoAdded h1
  simp [step, rectAdd_twoAdded] at hadd

end Eina.Tiler
