/-
Runs of several tilers: when what `last.add` remembers is covered.

`eina_tiler_rect_add` returns at once when the rectangle is the one it added last.  The
operations of one tiler forget that rectangle when they take something away;
`eina_tiler_tile_size_set` drops the list and forgets nothing, `eina_tiler_subtract` deletes
and forgets nothing, and `eina_tiler_union` remembers what the iterator left behind, which
need not be a rectangle that was added.  `Harmless` says when none of this happens.
-/
import Efl.Eina.Tiler.Run

namespace Eina.Tiler

open Cover Runs List Function Outcome Rectangle

/-- What `last.add` remembers is covered. -/
def Cached (t : Tiler) : Prop := t.lastAdd.isValid = true → t.lastAdd.pixels ⊆ covered t

/-! ### The machine -/

/-- The operations on a store of tilers; two tilers of one operation are different ones. -/
inductive StoreOp where
  | rectAdd (i : Nat) (r : Rectangle)
  | rectDel (i : Nat) (r : Rectangle)
  | clear (i : Nat)
  | tileSizeSet (i : Nat) (w h : Int)
  | union (dst src : Nat) (h : dst ≠ src)
  | subtract (dst src : Nat) (h : dst ≠ src)

def storeStep (turns : Nat) (s : Nat → Tiler) : StoreOp → Outcome ((Nat → Tiler) × Bool)
  | .rectAdd i r => do
    let (t, b) ← rectAdd turns (s i) r
    return (update s i t, b)
  | .rectDel i r => .returns (update s i (rectDel (s i) r), true)
  | .clear i => .returns (update s i (clear (s i)), true)
  | .tileSizeSet i w h => .returns (update s i (tileSizeSet (s i) w h), true)
  | .union dst src _ => do
    let (d, e, b) ← union turns (s dst) (s src)
    return (update (update s src e) dst d, b)
  | .subtract dst src _ => do
    let (d, e, b) ← subtract turns (s dst) (s src)
    return (update (update s src e) dst d, b)

/-- The operation returns. -/
def StoreStep (s : Nat → Tiler) (op : StoreOp) (s' : Nat → Tiler) (b : Bool) : Prop :=
  ∃ turns, storeStep turns s op = .returns (s', b)

/--
The operations that leave the cache right: both tilers have the same rounding, the tile
size does not change while a rectangle is remembered, nothing of the remembered rectangle
is subtracted, and the last rectangle of the list that is added in a union is one that the
iterator returns.
-/
def Harmless (s : Nat → Tiler) : StoreOp → Prop
  | .tileSizeSet i w h =>
    w ≤ 0 ∨ h ≤ 0 ∨ ((s i).tileW = w ∧ (s i).tileH = h) ∨ (s i).lastAdd.isValid = false
  | .union dst src _ => (s dst).rounding = (s src).rounding ∧
      ∀ turns t cur, iteratorNew turns (s src) = .returns t → t.rects.getLast? = some cur →
        (iterRect t cur).2 = true
  | .subtract dst src _ => (s dst).rounding = (s src).rounding ∧
      ((s dst).lastAdd.isValid = true →
        ∀ turns t, iteratorNew turns (s src) = .returns t → ∀ r ∈ iterated t,
          ∀ p ∈ (s dst).lastAdd.pixels,
            cell (s dst).rounding p ∉ (delRect (s dst) (shrink t r)).cells)
  | _ => True

/-! ### Adding and deleting the rectangles of another tiler -/

variable {t dst src : Tiler} {cur : Rect} {r : Rectangle} {p : Int × Int}

theorem iterRect_mem (hmem : cur ∈ src.rects) (h : (iterRect src cur).2 = true) :
    (iterRect src cur).1 ∈ iterated src :=
  mem_filterMap.mpr ⟨cur, hmem, if_pos h⟩

theorem iterated_even (hx : src.area.x = 0) (hy : src.area.y = 0) (hround : src.rounding = true)
    (hr : r ∈ iterated src) : r.x % 2 = 0 ∧ r.y % 2 = 0 := by
  obtain ⟨cur, -, hcur⟩ := mem_filterMap.mp hr
  split at hcur
  · rename_i hret
    obtain rfl := Option.some.inj hcur
    simp only [iterRect, hround, if_true, Bool.and_eq_true, intersection_eq] at hret ⊢
    split at hret
    · rename_i hall
      rw [if_pos hall]
      simp only [Rectangle.common]
      omega
    · exact absurd hret.1 (by simp)
  · simp at hcur

theorem mem_addRect_shrink (hx : src.area.x = 0) (hy : src.area.y = 0)
    (hround : dst.rounding = src.rounding) (hr : r ∈ iterated src) (hp : p ∈ r.pixels) :
    cell dst.rounding p ∈ (addRect dst (shrink src r)).cells := by
  by_cases h : src.rounding = true
  · obtain ⟨hex, hey⟩ := iterated_even hx hy h hr
    simp only [mem_pixels] at hp
    simp only [cell, addRect, shrink, hround, h, if_true, Rect.mem_cells, Rect.init]
    omega
  · have hshrink : shrink src r = r := by
      unfold shrink
      rw [if_neg h]
    rw [hshrink]
    exact mem_addRect hp

variable {turns : Nat} {w h : Int} (rs : List Rectangle)

theorem foldlM_splitterRectAdd {src : Tiler} :
    ∀ {dst dst' : Tiler}, AllOk dst.rects →
      rs.foldlM (fun dst r => splitterRectAdd turns dst (shrink src r)) dst = .returns dst' →
      ∃ ys, dst' = { dst with rects := ys } ∧ AllOk ys ∧ covered dst ⊆ covered dst' ∧
        ∀ r ∈ rs, ∀ p, cell dst.rounding p ∈ (addRect dst (shrink src r)).cells →
          p ∈ covered dst' := by
  induction rs with
  | nil =>
    intro dst dst' hok h
    simp only [foldlM_nil, pure_eq, Outcome.returns.injEq] at h
    subst h
    exact ⟨dst.rects, rfl, hok, subset_rfl, by simp⟩
  | cons r rs ih =>
    intro dst dst' hok h
    rw [foldlM_cons] at h
    obtain ⟨dst1, h1, h2⟩ := bind_eq_returns.mp h
    rcases splitterRectAdd_keeps hok turns (shrink src r) with hrun | ⟨zs, hret, hkeeps⟩
    · rw [hrun] at h1
      simp at h1
    rw [hret] at h1
    obtain rfl := Outcome.returns.inj h1
    obtain ⟨hold, -⟩ := covered_of_keeps hkeeps
    obtain ⟨ys, rfl, hys, hcovered, hadded⟩ := ih hkeeps.ok h2
    refine ⟨ys, rfl, hys, hold.trans hcovered, ?_⟩
    intro r' hr' p hp
    rcases mem_cons.mp hr' with rfl | hr'
    · apply hcovered
      apply hkeeps.cells
      simp only [mem_cover_cons]
      exact .inl hp
    · exact hadded r' hr' p hp

theorem foldlM_splitterRectDel {src : Tiler} :
    ∀ {dst dst' : Tiler}, AllOk dst.rects →
      rs.foldlM (fun dst r => Outcome.returns (splitterRectDel dst (shrink src r))) dst
        = .returns dst' →
      AllOk dst'.rects ∧ dst'.area = dst.area ∧ dst'.rounding = dst.rounding ∧
        dst'.strict = dst.strict ∧ dst'.lastAdd = dst.lastAdd ∧
        ∀ p ∈ covered dst, (∀ r ∈ rs, cell dst.rounding p ∉ (delRect dst (shrink src r)).cells) →
          p ∈ covered dst' := by
  induction rs with
  | nil =>
    intro dst dst' hok h
    simp only [foldlM_nil, pure_eq, Outcome.returns.injEq] at h
    subst h
    exact ⟨hok, rfl, rfl, rfl, rfl, fun p hp _ => hp⟩
  | cons r rs ih =>
    intro dst dst' hok h
    obtain ⟨harea, hround, hstrict, hadd⟩ := splitterRectDel_fields dst (shrink src r)
    obtain ⟨h1, h2, h3, h4, h5, h6⟩ := ih (splitterRectDel_ok hok (shrink src r)) h
    refine ⟨h1, h2.trans harea, h3.trans hround, h4.trans hstrict, h5.trans hadd, ?_⟩
    intro p hp hout
    have hrect (r' : Rectangle) :
        delRect (splitterRectDel dst (shrink src r)) r' = delRect dst r' := by
      unfold delRect
      rw [hround]
    apply h6 p (mem_splitterRectDel hok hp (hout r mem_cons_self))
    intro r' hr'
    rw [hround, hrect]
    exact hout r' (mem_cons_of_mem _ hr')

/-! ### One step -/

/-- A sound tiler whose area begins at the origin. -/
structure Placed (t : Tiler) : Prop extends Sound t where
  left : t.area.x = 0
  top : t.area.y = 0

theorem tileSizeSet_placed (ht : Placed t)
    (hok : w ≤ 0 ∨ h ≤ 0 ∨ (t.tileW = w ∧ t.tileH = h) ∨ t.lastAdd.isValid = false) :
    Placed (tileSizeSet t w h) := by
  unfold tileSizeSet
  split
  · exact ht
  split
  · exact ht
  · have hinvalid : t.lastAdd.isValid = false := by tauto
    exact ⟨sound_of_invalid allOk_nil ht.lenient hinvalid, ht.left, ht.top⟩

theorem iteratorNew_placed {t' : Tiler} (ht : Placed t) (h : iteratorNew turns t = .returns t') :
    Placed t' ∧ t'.rounding = t.rounding := by
  obtain ⟨ys, m, hret, hsound, -⟩ := iteratorNew_sound ht.toSound turns
  rw [hret] at h
  obtain rfl := Outcome.returns.inj h
  exact ⟨⟨hsound, ht.left, ht.top⟩, rfl⟩

variable {d e : Tiler} {b : Bool} (s : Nat → Tiler)

theorem forEach_returns {f : Tiler → Rectangle → Outcome Tiler} {rect : Option Rectangle}
    (h : forEach turns f dst src = .returns (d, e, rect)) :
    iteratorNew turns src = .returns e ∧
      ((rect = none ∧ d = dst) ∨ (rect = iterRest e ∧ e.rects ≠ [] ∧
        (iterated e).foldlM (fun dst r => f dst (shrink e r)) dst = .returns d)) := by
  obtain ⟨e', he, h⟩ := bind_eq_returns.mp h
  split at h
  · obtain ⟨⟩ := h
    exact ⟨he, .inl ⟨rfl, rfl⟩⟩
  rename_i hne
  obtain ⟨d', hd, h⟩ := bind_eq_returns.mp h
  split at h
  · simp at h
  · obtain ⟨⟩ := h
    exact ⟨he, .inr ⟨rfl, hne, hd⟩⟩

theorem union_placed (hdst : Placed dst) (hsrc : Placed src)
    (hround : dst.rounding = src.rounding)
    (hlast : ∀ turns t cur, iteratorNew turns src = .returns t → t.rects.getLast? = some cur →
      (iterRect t cur).2 = true)
    (h : union turns dst src = .returns (d, e, b)) : Placed d ∧ Placed e := by
  unfold union at h
  split at h
  · obtain ⟨⟩ := h
    exact ⟨hdst, hsrc⟩
  obtain ⟨⟨d1, e1, rect⟩, hfor, h⟩ := bind_eq_returns.mp h
  obtain ⟨hnew, hcases⟩ := forEach_returns hfor
  obtain ⟨he, hround'⟩ := iteratorNew_placed hsrc hnew
  rcases hcases with ⟨rfl, rfl⟩ | ⟨rfl, hne, hfold⟩
  · obtain ⟨⟩ := h
    exact ⟨⟨⟨hdst.ok, hdst.lenient, hdst.cached⟩, hdst.left, hdst.top⟩, he⟩
  obtain ⟨cur, hcur⟩ : ∃ cur, e1.rects.getLast? = some cur :=
    ⟨_, getLast?_eq_some_getLast hne⟩
  have hret := hlast turns e1 cur hnew hcur
  simp only [iterRest, hcur] at h
  obtain ⟨rfl, rfl, -⟩ := h
  obtain ⟨ys, rfl, hys, -, hadded⟩ := foldlM_splitterRectAdd _ (by exact hdst.ok) hfold
  have hmem := iterRect_mem (mem_of_getLast? hcur) hret
  refine ⟨⟨⟨hys, hdst.lenient, ?_⟩, hdst.left, hdst.top⟩, he⟩
  intro _ p hp
  exact hadded _ hmem p (mem_addRect_shrink he.left he.top (hround.trans hround'.symm) hmem hp)

theorem subtract_placed (hdst : Placed dst) (hsrc : Placed src)
    (hapart : dst.lastAdd.isValid = true → ∀ turns t, iteratorNew turns src = .returns t →
      ∀ r ∈ iterated t, ∀ p ∈ dst.lastAdd.pixels, cell dst.rounding p ∉
      (delRect dst (shrink t r)).cells)
    (h : subtract turns dst src = .returns (d, e, b)) : Placed d ∧ Placed e := by
  unfold subtract at h
  split at h
  · obtain ⟨⟩ := h
    exact ⟨hdst, hsrc⟩
  obtain ⟨⟨d1, e1, rect⟩, hfor, hend⟩ := bind_eq_returns.mp h
  obtain ⟨hnew, hcases⟩ := forEach_returns hfor
  obtain ⟨he, -⟩ := iteratorNew_placed hsrc hnew
  rcases hcases with ⟨rfl, rfl⟩ | ⟨rfl, hne, hfold⟩
  · obtain ⟨⟩ := hend
    exact ⟨hdst, he⟩
  obtain ⟨cur, hcur⟩ : ∃ cur, e1.rects.getLast? = some cur :=
    ⟨_, getLast?_eq_some_getLast hne⟩
  simp only [iterRest, hcur, Option.map_some, pure_eq, Outcome.returns.injEq,
    Prod.mk.injEq] at hend
  obtain ⟨rfl, rfl, -⟩ := hend
  obtain ⟨hok, harea, hround, hstrict, hadd, hkept⟩ :=
    foldlM_splitterRectDel _ hdst.ok hfold
  refine ⟨⟨⟨hok, hstrict.trans hdst.lenient, ?_⟩, ?_, ?_⟩, he⟩
  · intro hvalid p hp
    simp only [hadd] at hvalid hp
    exact hkept p (hdst.cached hvalid hp) fun r hr => hapart hvalid turns e1 hnew r hr p hp
  · simp only [harea, hdst.left]
  · simp only [harea, hdst.top]

theorem placed_update {s : Nat → Tiler} {i : Nat} (hs : ∀ i, Placed (s i)) (ht : Placed t) :
    ∀ j, Placed (update s i t j) := by
  intro j
  by_cases h : j = i
  · subst h
    rw [update_self]
    exact ht
  · rw [update_of_ne h]
    exact hs j

/-- A step that does no harm keeps what every tiler owes its last addition. -/
theorem storeStep_placed (op : StoreOp) (s' : Nat → Tiler) (b : Bool)
    (hs : ∀ i, Placed (s i)) (hok : Harmless s op) (h : StoreStep s op s' b) :
    ∀ i, Placed (s' i) := by
  obtain ⟨turns, h⟩ := h
  cases op with
  | rectAdd i r =>
    obtain ⟨⟨t, b'⟩, hadd, h⟩ := bind_eq_returns.mp h
    obtain ⟨⟩ := h
    rcases rectAdd_adds (hs i).toSound turns r with hrun | ⟨t', b', hret, hadds⟩
    · rw [hrun] at hadd
      simp at hadd
    rw [hret] at hadd
    obtain ⟨⟩ := hadd
    apply placed_update hs
    exact ⟨hadds.sound, by rw [hadds.area]; exact (hs i).left,
      by rw [hadds.area]; exact (hs i).top⟩
  | rectDel i r =>
    obtain ⟨⟩ := h
    obtain ⟨hsound, harea, -⟩ := rectDel_sound (hs i).toSound r
    apply placed_update hs
    exact ⟨hsound, by rw [harea]; exact (hs i).left, by rw [harea]; exact (hs i).top⟩
  | clear i =>
    obtain ⟨⟩ := h
    apply placed_update hs
    exact ⟨clear_sound (hs i).toSound, (hs i).left, (hs i).top⟩
  | tileSizeSet i w h' =>
    obtain ⟨⟩ := h
    apply placed_update hs
    exact tileSizeSet_placed (hs i) hok
  | union dst src hne =>
    obtain ⟨⟨d, e, b'⟩, hunion, h⟩ := bind_eq_returns.mp h
    obtain ⟨⟩ := h
    obtain ⟨hd, he⟩ := union_placed (hs dst) (hs src) hok.1 hok.2 hunion
    exact placed_update (placed_update hs he) hd
  | subtract dst src hne =>
    obtain ⟨⟨d, e, b'⟩, hsub, h⟩ := bind_eq_returns.mp h
    obtain ⟨⟩ := h
    obtain ⟨hd, he⟩ := subtract_placed (hs dst) (hs src) hok.2 hsub
    exact placed_update (placed_update hs he) hd

/-! ### More turns -/

theorem forEach_mono {f : Nat → Tiler → Rectangle → Outcome Tiler}
    (hf : ∀ dst r, Mono fun turns => f turns dst r) (dst src : Tiler) :
    Mono fun turns => forEach turns (f turns) dst src := by
  refine (iteratorNew_mono src).bind fun src => ?_
  split
  · exact mono_const _
  · exact (Mono.foldlM (fun dst r => hf dst (shrink src r)) _ _).bind fun _ => mono_const _

theorem union_mono (dst src : Tiler) : Mono fun turns => union turns dst src := by
  unfold union
  split
  · exact mono_const _
  · refine (forEach_mono (fun dst r => ?_) _ _).bind fun _ => mono_const _
    exact (addSplitFuzzyAndMerge_mono _ _ _ _).bind fun _ => mono_const _

theorem subtract_mono (dst src : Tiler) : Mono fun turns => subtract turns dst src := by
  unfold subtract
  split
  · exact mono_const _
  · refine (forEach_mono (f := fun _ dst r => .returns (splitterRectDel dst r))
      (fun _ _ => mono_const _) dst src).bind fun _ => mono_const _

theorem storeStep_mono (s : Nat → Tiler) (op : StoreOp) :
    Mono fun turns => storeStep turns s op := by
  cases op with
  | rectAdd i r => exact (rectAdd_mono _ _).bind fun _ => mono_const _
  | rectDel i r => exact mono_const _
  | clear i => exact mono_const _
  | tileSizeSet i w h => exact mono_const _
  | union dst src hne => exact (union_mono _ _).bind fun _ => mono_const _
  | subtract dst src hne => exact (subtract_mono _ _).bind fun _ => mono_const _

theorem storeStep_unique (s : Nat → Tiler) (op : StoreOp) (s1 : Nat → Tiler) (b1 : Bool)
    (s2 : Nat → Tiler) (b2 : Bool) (h1 : StoreStep s op s1 b1) (h2 : StoreStep s op s2 b2) :
    s1 = s2 ∧ b1 = b2 := by
  obtain ⟨n, hn⟩ := h1
  obtain ⟨m, hm⟩ := h2
  have hsame := (storeStep_mono s op).unique (n := n) (m := m) (by simp [hn]) (by simp [hm])
  simp only [hn, hm, Outcome.returns.injEq, Prod.mk.injEq] at hsame
  exact hsame

/-! ### Runs -/

theorem new_placed (hnew : new w h = some t) : Placed t := by
  unfold new at hnew
  split at hnew
  · simp at hnew
  · obtain rfl := Option.some.inj hnew
    exact ⟨sound_of_invalid allOk_nil rfl (isValid_forget _), rfl, rfl⟩

theorem rectAdd_same (ht : Cached t) {tmp : Rectangle}
    (hinter : r.intersection t.area = (tmp, true))
    (hsame : tmp = t.lastAdd) (turns : Nat) :
    rectAdd turns t r = .returns (t, true) ∧ r.pixels ∩ t.area.pixels ⊆ covered t := by
  have hpos := intersection_pos hinter
  have hmem := mem_intersection hinter
  constructor
  · have hr : ¬(r.w ≤ 0 ∨ r.h ≤ 0) := by
      intro hempty
      have hvalid : r.isValid = false := by
        simp only [Rectangle.isValid, decide_eq_false_iff_not]
        omega
      rw [intersection_eq, hvalid] at hinter
      simp at hinter
    unfold rectAdd
    rw [if_neg hr, hinter]
    simp only [if_neg (show ¬(tmp.w ≤ 0 ∨ tmp.h ≤ 0) by omega), if_pos hsame]
  · intro p hp
    apply ht
    · rw [← hsame, isValid_iff]
      exact hpos
    · rw [← hsame, hmem]
      exact hp

/--
**The cache is sound**: in every run of harmless operations, what `last.add` of a tiler
remembers is covered, so that the early return of an addition of the same rectangle leaves
nothing uncovered that the addition has to cover.
-/
theorem run_cached (hnew : ∀ i, ∃ w h, new w h = some (s i)) (ops : List StoreOp)
    (s' : Nat → Tiler) (outs : List Bool) (hok : EachStep StoreStep Harmless s ops)
    (hrun : Traces StoreStep s ops s' outs) (i : Nat) :
    Cached (s' i) ∧
      ∀ (r tmp : Rectangle) (turns : Nat), r.intersection (s' i).area = (tmp, true) →
        tmp = (s' i).lastAdd → rectAdd turns (s' i) r = .returns (s' i, true) ∧
          r.pixels ∩ (s' i).area.pixels ⊆ covered (s' i) := by
  have hstart : ∀ i, Placed (s i) := by
    intro i
    obtain ⟨w, h, hnew⟩ := hnew i
    exact new_placed hnew
  have hplaced := traces_invariant_of storeStep_placed ops s s'
    outs hok hstart hrun
  refine ⟨(hplaced i).cached, ?_⟩
  intro r tmp turns hinter hsame
  exact rectAdd_same (hplaced i).cached hinter hsame turns

/-! ### Runs of one tiler of 512 by 512 pixels -/

def newTilers : Nat → Tiler := fun _ => start 512 512 32 32 true

theorem newTilers_new (i : Nat) : ∃ w h, new w h = some (newTilers i) :=
  ⟨512, 512, new_eq (by decide) (by decide)⟩

/-- The store after the operation, when that returns within so many turns. -/
def storeAfter (turns : Nat) (s : Nat → Tiler) (op : StoreOp) : Nat → Tiler :=
  match storeStep turns s op with
  | .returns (s', _) => s'
  | _ => s

def answers (turns : Nat) (s : Nat → Tiler) (op : StoreOp) : Option Bool :=
  match storeStep turns s op with
  | .returns (_, b) => some b
  | _ => none

theorem storeStep_of_answers {s : Nat → Tiler} {op : StoreOp} (h : answers turns s op = some b) :
    StoreStep s op (storeAfter turns s op) b := by
  refine ⟨turns, ?_⟩
  unfold answers at h
  unfold storeAfter
  split at h
  · rename_i s' b' hstep
    obtain rfl := Option.some.inj h
    rw [hstep]
  · cases h

theorem harmless_cons (turns : Nat) {op : StoreOp} {ops : List StoreOp} {s s' : Nat → Tiler}
    {outs : List Bool}
    (hop : Harmless s op) (hanswers : answers turns s op = some b)
    (hrest : EachStep StoreStep Harmless (storeAfter turns s op) ops ∧
      Traces StoreStep (storeAfter turns s op) ops s' outs) :
    EachStep StoreStep Harmless s (op :: ops) ∧ Traces StoreStep s (op :: ops) s' (b :: outs) := by
  have hstep := storeStep_of_answers hanswers
  exact ⟨eachStep_cons_of storeStep_unique hop hstep hrest.1, _, b, outs, hstep, rfl, hrest.2⟩

/-- A rectangle is deleted, those of a tiler are added, and those of another are subtracted. -/
def mixed : List StoreOp :=
  [.tileSizeSet 0 16 16, .rectAdd 0 ⟨0, 0, 10, 10⟩, .rectDel 0 ⟨8, 8, 10, 10⟩,
    .rectAdd 1 ⟨4, 4, 10, 10⟩, .union 0 1 (by decide), .rectAdd 2 ⟨100, 100, 10, 10⟩,
    .subtract 0 2 (by decide)]

def mixedAfter (n : Nat) : Nat → Tiler := (mixed.take n).foldl (storeAfter 9) newTilers

theorem iteratorNew_clean {t : Tiler} (h : t.needMerge = false) (turns : Nat) :
    iteratorNew turns t = .returns t := by
  unfold iteratorNew
  rw [if_neg (by simp [h])]

theorem mixed_harmless : EachStep StoreStep Harmless newTilers mixed ∧
    Traces StoreStep newTilers mixed (mixedAfter 7) (replicate 7 true) := by
  refine harmless_cons 9 (.inr (.inr (.inr rfl))) rfl ?_
  refine harmless_cons 9 trivial rfl ?_
  refine harmless_cons 9 trivial rfl ?_
  refine harmless_cons 9 trivial rfl ?_
  refine harmless_cons 9 ⟨rfl, fun n t cur hnew hcur => ?_⟩ (by decide) ?_
  · change iteratorNew n (mixedAfter 4 1) = _ at hnew
    rw [iteratorNew_clean (by decide)] at hnew
    obtain rfl := returns.inj hnew
    have hlast : (mixedAfter 4 1).rects.getLast? = some (Rect.init 2 2 6 6) := by decide
    obtain rfl := Option.some.inj (hlast.symm.trans hcur)
    decide
  refine harmless_cons 9 trivial (by decide) ?_
  refine harmless_cons 9 ⟨by decide, fun _ n t hnew r hr p hp => ?_⟩ (by decide)
    ⟨eachStep_nil, rfl, rfl⟩
  change iteratorNew n (mixedAfter 6 2) = _ at hnew
  change p ∈ (mixedAfter 6 0).lastAdd.pixels at hp
  change cell (mixedAfter 6 0).rounding p ∉ (delRect (mixedAfter 6 0) (shrink t r)).cells
  rw [iteratorNew_clean (by decide)] at hnew
  obtain rfl := returns.inj hnew
  have hiterated : iterated (mixedAfter 6 2) = [⟨100, 100, 12, 12⟩] := by decide
  have hlast : (mixedAfter 6 0).lastAdd = ⟨4, 4, 12, 12⟩ := by decide
  have hround : (mixedAfter 6 0).rounding = true := by decide
  have hround2 : (mixedAfter 6 2).rounding = true := by decide
  obtain rfl := mem_singleton.mp (hiterated ▸ hr)
  rw [hlast] at hp
  simp only [mem_pixels] at hp
  simp only [cell, delRect, shrink, hround, hround2, if_true, Rect.mem_cells, Rect.init]
  omega

/-- After the run the rectangle that is remembered is covered, and is not added again. -/
theorem run_cached_mixed : EachStep StoreStep Harmless newTilers mixed ∧
    Traces StoreStep newTilers mixed (mixedAfter 7) (replicate 7 true) ∧
      (mixedAfter 7 0).lastAdd = ⟨4, 4, 12, 12⟩ ∧ Cached (mixedAfter 7 0) ∧
        rectAdd 0 (mixedAfter 7 0) ⟨4, 4, 12, 12⟩ = .returns (mixedAfter 7 0, true) := by
  obtain ⟨hok, hrun⟩ := mixed_harmless
  obtain ⟨hcached, hearly⟩ :=
    run_cached newTilers newTilers_new mixed (mixedAfter 7) (replicate 7 true) hok hrun 0
  exact ⟨hok, hrun, by decide, hcached, (hearly _ ⟨4, 4, 12, 12⟩ 0 (by decide) (by decide)).1⟩

def addOne : StoreOp := .rectAdd 0 ⟨0, 0, 10, 10⟩

/-- The store after `addOne`. -/
def oneAdded : Nat → Tiler :=
  update newTilers 0
    { newTilers 0 with lastAdd := ⟨0, 0, 10, 10⟩, rects := [Rect.init 0 0 6 6] }

/-- Setting the tile size after an addition drops the rectangle, which stays remembered. -/
theorem tileSizeSet_not_cached : ∃ s outs,
    Traces StoreStep newTilers [addOne, .tileSizeSet 0 16 16] s outs ∧ ¬Cached (s 0) := by
  refine ⟨_, _, ⟨oneAdded, true, _, ⟨0, rfl⟩, rfl, _, true, _, ⟨0, rfl⟩, rfl, rfl, rfl⟩, ?_⟩
  intro hcached
  have hlast : ((0, 0) : Int × Int) ∈ Rectangle.pixels ⟨0, 0, 10, 10⟩ := by simp
  have hmem := hcached (by decide) hlast
  simp [covered, tileSizeSet, oneAdded, newTilers, start] at hmem

end Eina.Tiler
