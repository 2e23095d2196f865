/-
What holds of every tiler, and when an addition to it ends.

The area begins at the origin and no rectangle of the list lies beyond it on the left or above, so
that `addSplitFuzzy_returns` applies to what a tiler hands to the splitter.
-/
import Efl.Eina.Tiler.AddEnds
import Efl.Eina.Tiler.Sound

namespace Eina.Tiler

open Cover List Rectangle

/-- What holds of every tiler: its area begins at the origin. -/
structure Proper (t : Tiler) : Prop where
  past : ∀ r ∈ t.rects, r.Past 0 0
  left : t.area.x = 0
  top : t.area.y = 0
  wide : 0 < t.area.w
  tall : 0 < t.area.h
  tileWide : 0 < t.tileW
  tileTall : 0 < t.tileH

variable {t t' : Tiler} {turns : Nat} {r tmp : Rectangle} {b : Bool}

theorem Proper.ok (ht : Proper t) : AllOk t.rects := fun r hr => (ht.past r hr).toOk

theorem Proper.error_nonneg (ht : Proper t) : 0 ≤ t.tileW * t.tileH :=
  mul_nonneg ht.tileWide.le ht.tileTall.le

/-- The two have the same area and tiles. -/
def SameFrame (t t' : Tiler) : Prop :=
  t'.area = t.area ∧ t'.tileW = t.tileW ∧ t'.tileH = t.tileH

theorem Proper.of_frame (ht : Proper t) (hpast : ∀ r ∈ t'.rects, r.Past 0 0)
    (hframe : SameFrame t t') : Proper t' := by
  obtain ⟨harea, hwide, htall⟩ := hframe
  obtain ⟨-, hleft, htop, h1, h2, h3, h4⟩ := ht
  rw [← harea] at hleft htop h1 h2
  exact ⟨hpast, hleft, htop, h1, h2, hwide ▸ h3, htall ▸ h4⟩

theorem new_proper {w h : Int} (hnew : new w h = some t) :
    Proper t ∧ t.rects = [] ∧ t.rounding = true ∧ t.needMerge = false ∧ t.area = ⟨0, 0, w, h⟩ := by
  unfold new at hnew
  split at hnew
  · simp at hnew
  · obtain rfl := Option.some.inj hnew
    exact ⟨⟨forall_mem_nil _, rfl, rfl, by dsimp only; omega, by dsimp only; omega,
      (by decide : (0 : Int) < 32), (by decide : (0 : Int) < 32)⟩, rfl, rfl, rfl, rfl⟩

/-! ### Adding -/

theorem past_addRect (hx : 0 ≤ r.x) (hy : 0 ≤ r.y) (hw : 0 ≤ r.w) (hh : 0 ≤ r.h) :
    (addRect t r).Past 0 0 := by
  refine ⟨ok_addRect t r, ?_, ?_, ?_, ?_⟩ <;> unfold addRect <;> split <;>
    simp only [Rect.init] <;> omega

theorem intersection_nonneg (ht : Proper t) (h : r.intersection t.area = (tmp, true)) :
    0 ≤ tmp.x ∧ 0 ≤ tmp.y ∧ 0 < tmp.w ∧ 0 < tmp.h := by
  have hpos := intersection_pos h
  have hin := ((mem_intersection h (tmp.x, tmp.y)).mp (by
    rw [mem_pixels]
    omega)).2
  have hleft := ht.left
  have htop := ht.top
  rw [mem_pixels] at hin
  omega

theorem splitterRectAdd_returns (hok : AllOk t.rects)
    (h : splitterRectAdd turns t r = .returns t') :
    ∃ ys, t' = { t with rects := ys } ∧
      Keeps (t.tileW * t.tileH) (addRect t r :: t.rects) ys := by
  rcases splitterRectAdd_keeps hok turns r with hrun | ⟨ys, hret, hkeeps⟩
  · rw [hrun] at h
    simp at h
  · rw [hret] at h
    exact ⟨ys, (Outcome.returns.inj h).symm, hkeeps⟩

theorem splitterRectAdd_proper (ht : Proper t) (hpast : (addRect t r).Past 0 0)
    (h : splitterRectAdd turns t r = .returns t') : Proper t' := by
  obtain ⟨ys, rfl, hkeeps⟩ := splitterRectAdd_returns ht.ok h
  exact ht.of_frame (hkeeps.past ht.error_nonneg 0 0
    (forall_mem_cons.mpr ⟨hpast, ht.past⟩)) ⟨rfl, rfl, rfl⟩

/-- An addition keeps the tiler proper. -/
theorem rectAdd_proper (ht : Proper t) (h : rectAdd turns t r = .returns (t', b)) : Proper t' := by
  have hsame : ∀ {b' : Bool}, Outcome.returns (t, b') = .returns (t', b) → Proper t' := by
    intro b' heq
    obtain ⟨rfl, -⟩ := Prod.mk.inj (Outcome.returns.inj heq)
    exact ht
  unfold rectAdd at h
  split at h
  · exact hsame h
  split at h
  · exact hsame h
  rename_i tmp hinter
  split at h
  · exact hsame h
  split at h
  · exact hsame h
  obtain ⟨t1, hadd, h⟩ := Outcome.bind_eq_returns.mp h
  obtain ⟨rfl, -⟩ := Prod.mk.inj (Outcome.returns.inj h)
  obtain ⟨hx, hy, hw, hh⟩ := intersection_nonneg ht hinter
  exact splitterRectAdd_proper (t := { t with lastAdd := tmp, lastDel := forget t.lastDel })
    (ht.of_frame (by exact ht.past) ⟨rfl, rfl, rfl⟩) (past_addRect hx hy hw.le hh.le) hadd

/-- No turn of the addition splits a rectangle in three for no more than twice the tile area. -/
def AddsUncut (t : Tiler) (r : Rectangle) : Prop :=
  Uncut (t.tileW * t.tileH) t.rects (addRect t r)

theorem addsUncut_of_within {n : Nat} (h : uncutWithin (t.tileW * t.tileH) n
    ⟨t.rects, [addRect t r], t.rects.length⟩ = true) : AddsUncut t r :=
  uncut_of_within h

/-- **An addition ends** unless one of its turns splits a rectangle in three. -/
theorem splitterRectAdd_ends (ht : Proper t) (hpast : (addRect t r).Past 0 0)
    (hcut : AddsUncut t r) : ∃ turns t', splitterRectAdd turns t r = .returns t' := by
  obtain ⟨turns, ys, n, hadd⟩ := addSplitFuzzy_returns ht.error_nonneg ht.past hpast hcut
  rcases addSplitFuzzy_keeps ht.ok (ok_addRect t r) turns with hrun | ⟨ys, n, hret, hkeeps⟩
  · rw [hadd] at hrun
    cases hrun
  obtain ⟨zs, hzs, -⟩ := addSplitFuzzyAndMerge_returns (t.tileW * t.tileH) hret hkeeps
  exact ⟨turns, { t with rects := zs }, by rw [splitterRectAdd, hzs]; rfl⟩

theorem rectAdd_ends (ht : Proper t) (hcut : ∀ tmp, r.intersection t.area = (tmp, true) →
    tmp ≠ t.lastAdd → AddsUncut t tmp) : ∃ turns t' b, rectAdd turns t r = .returns (t', b) := by
  unfold rectAdd
  split
  · exact ⟨0, t, false, rfl⟩
  split
  · exact ⟨0, t, false, rfl⟩
  rename_i tmp hinter
  split
  · exact ⟨0, t, false, rfl⟩
  split
  · exact ⟨0, t, true, rfl⟩
  rename_i hnew
  obtain ⟨hx, hy, hw, hh⟩ := intersection_nonneg ht hinter
  obtain ⟨turns, t', hadd⟩ := splitterRectAdd_ends
    (t := { t with lastAdd := tmp, lastDel := forget t.lastDel })
    (ht.of_frame (by exact ht.past) ⟨rfl, rfl, rfl⟩) (past_addRect hx hy hw.le hh.le)
    (hcut tmp hinter hnew)
  exact ⟨turns, t', true, by rw [hadd]; rfl⟩

/-- The same of additions one after the other. -/
def EachUncut : Tiler → List Rectangle → Prop
  | _, [] => True
  | t, r :: rs => AddsUncut t r ∧ ∀ turns t', splitterRectAdd turns t r = .returns t' →
      EachUncut t' rs

/-- What the tiler remembers is nothing to an addition. -/
theorem EachUncut.remember (last : Rectangle) (rs : List Rectangle) :
    ∀ {t : Tiler}, EachUncut t rs → EachUncut { t with lastAdd := last } rs := by
  induction rs with
  | nil => exact fun _ => trivial
  | cons r rs ih =>
    intro t h
    refine ⟨h.1, fun turns t' hadd => ?_⟩
    obtain ⟨ys, hys, hret⟩ := Outcome.bind_eq_returns.mp hadd
    obtain rfl := Outcome.returns.inj hret
    exact ih (h.2 turns { t with rects := ys } (Outcome.bind_eq_returns.mpr ⟨ys, hys, rfl⟩))

theorem splitterRectAdd_mono (t : Tiler) (r : Rectangle) :
    Outcome.Mono fun turns => splitterRectAdd turns t r :=
  (addSplitFuzzyAndMerge_mono _ _ _ _).bind fun _ => Outcome.mono_const _

theorem foldlM_splitterRectAdd_proper (rs : List Rectangle) : ∀ {t t' : Tiler}, Proper t →
    (∀ r ∈ rs, 0 ≤ r.x ∧ 0 ≤ r.y ∧ 0 ≤ r.w ∧ 0 ≤ r.h) →
      rs.foldlM (fun t r => splitterRectAdd turns t r) t = .returns t' → Proper t' := by
  induction rs with
  | nil =>
    intro t t' ht _ h
    obtain rfl := Outcome.returns.inj h
    exact ht
  | cons r rs ih =>
    intro t t' ht hrs h
    obtain ⟨⟨hx, hy, hw, hh⟩, hrs⟩ := forall_mem_cons.mp hrs
    rw [foldlM_cons] at h
    obtain ⟨t1, hadd, h⟩ := Outcome.bind_eq_returns.mp h
    exact ih (splitterRectAdd_proper ht (past_addRect hx hy hw hh) hadd) hrs h

/-- **Additions come to their ends** when each of them does. -/
theorem foldlM_splitterRectAdd_ends (rs : List Rectangle) : ∀ {t : Tiler}, Proper t →
    (∀ r ∈ rs, 0 ≤ r.x ∧ 0 ≤ r.y ∧ 0 ≤ r.w ∧ 0 ≤ r.h) → EachUncut t rs →
      ∃ turns t', rs.foldlM (fun t r => splitterRectAdd turns t r) t = .returns t' := by
  induction rs with
  | nil => exact fun _ _ _ => ⟨0, _, rfl⟩
  | cons r rs ih =>
    intro t ht hrs hcut
    obtain ⟨⟨hx, hy, hw, hh⟩, hrs⟩ := forall_mem_cons.mp hrs
    have hpast := past_addRect (t := t) hx hy hw hh
    obtain ⟨n, t1, hadd⟩ := splitterRectAdd_ends ht hpast hcut.1
    obtain ⟨m, t', hrest⟩ := ih (splitterRectAdd_proper ht hpast hadd) hrs (hcut.2 n t1 hadd)
    refine ⟨max n m, t', ?_⟩
    rw [foldlM_cons, (splitterRectAdd_mono t r).returns_of_le (le_max_left n m) hadd]
    exact (Outcome.Mono.foldlM (fun t r => splitterRectAdd_mono t r) rs t1).returns_of_le
      (le_max_right n m) hrest

/-- The additions split nothing in three, and each is at its end in `n` turns. -/
def eachUncutIn (n : Nat) : Tiler → List Rectangle → Bool
  | _, [] => true
  | t, r :: rs =>
    uncutWithin (t.tileW * t.tileH) n ⟨t.rects, [addRect t r], t.rects.length⟩ &&
      match splitterRectAdd n t r with
      | .returns t' => eachUncutIn n t' rs
      | _ => false

theorem eachUncut_of_in {n : Nat} (rs : List Rectangle) :
    ∀ {t : Tiler}, eachUncutIn n t rs = true → EachUncut t rs := by
  induction rs with
  | nil => exact fun _ => trivial
  | cons r rs ih =>
    intro t h
    obtain ⟨hcut, hrest⟩ := Bool.and_eq_true_iff.mp h
    refine ⟨addsUncut_of_within hcut, fun turns t' hadd => ?_⟩
    split at hrest
    · rename_i t1 hadd1
      have hsame := (splitterRectAdd_mono t r).unique (n := n) (m := turns) (by simp [hadd1])
        (by simp [hadd])
      simp only [hadd, hadd1, Outcome.returns.injEq] at hsame
      exact ih (hsame ▸ hrest)
    · cases hrest

/-! ### Deleting and iterating -/

theorem past_delSplitStrict {rects : List Rect} {delR : Rect} (hrects : ∀ r ∈ rects, r.Past 0 0)
    (hdel : delR.Past 0 0) : ∀ r ∈ delSplitStrict rects delR, r.Past 0 0 := by
  intro x hx
  rcases mem_append.mp hx with hx | hx
  · exact hrects x (mem_filter.mp hx).1
  obtain ⟨current, hin, hx⟩ := mem_flatMap.mp hx
  obtain ⟨hin, hmeet⟩ := mem_filter.mp hin
  have hmeet := (Bool.and_eq_true_iff.mp hmeet).1
  rw [Bool.not_eq_true', decide_eq_false_iff_not, not_or, not_le, not_le] at hmeet
  exact past_split hdel (hrects current hin) hmeet.2.le hx

theorem splitterRectDel_proper (ht : Proper t) (hx : 0 ≤ r.x) (hy : 0 ≤ r.y) :
    Proper (splitterRectDel t r) := by
  unfold splitterRectDel
  split
  · exact ht
  split
  · exact ht
  rename_i hsize
  refine ht.of_frame (past_delSplitStrict ht.past ?_) ⟨rfl, rfl, rfl⟩
  have hok : (delRect t r).Ok := by
    unfold delRect
    split <;> exact Rect.ok_init _ _ _ _
  refine ⟨hok, by omega, by omega, ?_, ?_⟩ <;> unfold delRect <;> split <;>
    simp only [Rect.init] <;> omega

theorem rectDel_proper (r : Rectangle) (ht : Proper t) : Proper (rectDel t r) := by
  unfold rectDel
  split
  · exact ht
  split
  · exact ht
  rename_i tmp hinter
  split
  · exact ht
  split
  · exact ht
  obtain ⟨hx, hy, -⟩ := intersection_nonneg ht hinter
  exact splitterRectDel_proper (ht.of_frame (by exact ht.past) ⟨rfl, rfl, rfl⟩) hx hy

theorem past_roundUp {x : Rect} (ht : Proper t) (hx : x.Past 0 0) : (roundUp t x).Past 0 0 := by
  obtain ⟨-, hwidth, hheight, hleft, htop⟩ := hx
  have hw := ht.tileWide
  have hh := ht.tileTall
  have hmono : ∀ {s a b : Int}, 0 < s → 0 ≤ a → a ≤ b → 0 ≤ s * a.tdiv s ∧
      s * a.tdiv s ≤ s * b.tdiv s := by
    intro s a b hs ha hab
    rw [Int.tdiv_eq_ediv_of_nonneg ha, Int.tdiv_eq_ediv_of_nonneg (ha.trans hab)]
    exact ⟨mul_nonneg hs.le (Int.ediv_nonneg ha hs.le),
      mul_le_mul_of_nonneg_left (Int.ediv_le_ediv hs hab) hs.le⟩
  obtain ⟨hx1, hx2⟩ := hmono (b := x.left + x.width + t.tileW - 1) hw hleft (by omega)
  obtain ⟨hy1, hy2⟩ := hmono (b := x.top + x.height + t.tileH - 1) hh htop (by omega)
  exact ⟨Rect.ok_init _ _ _ _, by simp only [roundUp, Rect.init]; omega,
    by simp only [roundUp, Rect.init]; omega, hx1, hy1⟩

theorem past_rounded (ht : Proper t) (rs : List Rect) : ∀ {rects rects' : List Rect},
    (∀ r ∈ rs, r.Past 0 0) → (∀ r ∈ rects, r.Past 0 0) →
      rs.foldlM (fun rects r => addSplitFuzzyAndMerge turns rects (roundUp t r)
        (t.tileW * t.tileH) (t.tileW * t.tileH)) rects = .returns rects' →
      ∀ r ∈ rects', r.Past 0 0 := by
  induction rs with
  | nil =>
    intro rects rects' _ hrects h
    simp only [foldlM_nil, Outcome.pure_eq, Outcome.returns.injEq] at h
    exact h ▸ hrects
  | cons r rs ih =>
    intro rects rects' hrs hrects h
    rw [forall_mem_cons] at hrs
    rw [foldlM_cons] at h
    obtain ⟨rects1, h1, h2⟩ := Outcome.bind_eq_returns.mp h
    have hround := past_roundUp ht hrs.1
    rcases addSplitFuzzyAndMerge_keeps (t.tileW * t.tileH) (t.tileW * t.tileH)
      (fun x hx => (hrects x hx).toOk) hround.toOk turns with hrun | ⟨ys, hret, hkeeps⟩
    · rw [hrun] at h1
      simp at h1
    rw [hret] at h1
    obtain rfl := Outcome.returns.inj h1
    exact ih hrs.2 (hkeeps.past ht.error_nonneg 0 0 (forall_mem_cons.mpr ⟨hround, hrects⟩)) h2

/-- A pending merge keeps the tiler proper. -/
theorem iteratorNew_proper (ht : Proper t) (hnew : iteratorNew turns t = .returns t') :
    Proper t' ∧ t'.area = t.area ∧ t'.rounding = t.rounding ∧ t'.needMerge = false := by
  unfold iteratorNew at hnew
  split at hnew
  · obtain ⟨toMerge, hround, hnew⟩ := Outcome.bind_eq_returns.mp hnew
    obtain ⟨rects, hmerge, hnew⟩ := Outcome.bind_eq_returns.mp hnew
    obtain rfl := Outcome.returns.inj hnew
    have hpast : ∀ r ∈ toMerge, r.Past 0 0 := by
      split at hround
      · exact past_rounded ht _ ht.past (forall_mem_nil _) hround
      · obtain rfl := Outcome.returns.inj hround
        exact ht.past
    obtain ⟨ys, hys, hkeeps⟩ := @mergeRects_keeps 0 [] toMerge (t.tileW * t.tileH)
      fun r hr => (hpast r hr).toOk
    rw [hys] at hmerge
    obtain rfl := Outcome.returns.inj hmerge
    exact ⟨ht.of_frame (hkeeps.past le_rfl 0 0 hpast) ⟨rfl, rfl, rfl⟩, rfl, rfl, rfl⟩
  · rename_i hneed
    obtain rfl := Outcome.returns.inj hnew
    exact ⟨ht, rfl, rfl, by simpa using hneed⟩

end Eina.Tiler
