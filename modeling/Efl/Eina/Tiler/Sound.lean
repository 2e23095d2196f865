/-
What one operation of a tiler keeps.

`Sound` is the invariant: the rectangles are well formed, and the rectangle that was added
last, as long as it is remembered, is covered.  The second part is what makes it right to
return at once when it is added again.
-/
import Efl.Eina.Tiler.Basic

namespace Eina.Tiler

open Cover Rectangle

/-- What holds of every tiler the operations make out of a new one. -/
structure Sound (t : Tiler) : Prop where
  ok : AllOk t.rects
  lenient : t.strict = false
  /-- What `last.add` remembers is covered. -/
  cached : t.lastAdd.isValid = true → t.lastAdd.pixels ⊆ covered t

variable {t : Tiler} {r : Rectangle} {p : Int × Int}

@[simp] theorem isValid_forget (r : Rectangle) : (forget r).isValid = false := by
  simp [forget, Rectangle.isValid]

theorem sound_of_invalid (hok : AllOk t.rects) (hlenient : t.strict = false)
    (h : t.lastAdd.isValid = false) : Sound t := by
  refine ⟨hok, hlenient, ?_⟩
  intro hvalid
  rw [h] at hvalid
  simp at hvalid

/-! ### Adding -/

theorem splitterRectAdd_keeps (hok : AllOk t.rects) (turns : Nat) (r : Rectangle) :
    splitterRectAdd turns t r = .running ∨
      ∃ ys, splitterRectAdd turns t r = .returns { t with rects := ys } ∧
        Keeps (t.tileW * t.tileH) (addRect t r :: t.rects) ys := by
  unfold splitterRectAdd
  rcases addSplitFuzzyAndMerge_keeps (t.tileW * t.tileH) (t.tileW * t.tileH) hok
    (ok_addRect t r) turns with h | ⟨ys, h, hkeeps⟩
  · exact .inl (by rw [h]; rfl)
  · exact .inr ⟨ys, by rw [h]; rfl, hkeeps⟩

theorem covered_of_keeps {ys : List Rect}
    (h : Keeps (t.tileW * t.tileH) (addRect t r :: t.rects) ys) :
    covered t ⊆ covered { t with rects := ys } ∧ r.pixels ⊆ covered { t with rects := ys } := by
  constructor
  · intro p hp
    apply h.cells
    simp only [mem_cover_cons]
    exact .inr hp
  · intro p hp
    apply h.cells
    simp only [mem_cover_cons]
    exact .inl (mem_addRect hp)

/-- What an addition makes of a tiler. -/
structure Adds (t : Tiler) (r : Rectangle) (t' : Tiler) : Prop where
  sound : Sound t'
  area : t'.area = t.area
  rounding : t'.rounding = t.rounding
  kept : covered t ⊆ covered t'
  added : r.pixels ∩ t.area.pixels ⊆ covered t'

theorem rectAdd_adds (hs : Sound t) (turns : Nat) (r : Rectangle) :
    rectAdd turns t r = .running ∨
      ∃ t' b, rectAdd turns t r = .returns (t', b) ∧ Adds t r t' := by
  unfold rectAdd
  split
  · refine .inr ⟨t, false, rfl, hs, rfl, rfl, subset_rfl, ?_⟩
    rintro p ⟨hr, -⟩
    simp only [mem_pixels] at hr
    omega
  split
  · rename_i hinter
    refine .inr ⟨t, false, rfl, hs, rfl, rfl, subset_rfl, ?_⟩
    rintro p ⟨hr, harea⟩
    rw [intersection_of_mem hr harea] at hinter
    simp at hinter
  · rename_i tmp hinter
    have hmem := mem_intersection hinter
    have hpos := intersection_pos hinter
    rw [if_neg (by omega)]
    split
    · -- the same rectangle again: it is covered already
      rename_i hsame
      refine .inr ⟨t, true, rfl, hs, rfl, rfl, subset_rfl, ?_⟩
      intro p hp
      have hvalid : t.lastAdd.isValid = true := by
        rw [← hsame, isValid_iff]
        exact hpos
      apply hs.cached hvalid
      rw [← hsame, hmem]
      exact hp
    · rcases splitterRectAdd_keeps (t := { t with lastAdd := tmp, lastDel := forget t.lastDel })
        hs.ok turns tmp with h | ⟨ys, h, hkeeps⟩
      · exact .inl (by rw [h]; rfl)
      obtain ⟨hold, hnew⟩ := covered_of_keeps hkeeps
      refine .inr ⟨{ t with lastAdd := tmp, lastDel := forget t.lastDel, rects := ys }, true,
        by rw [h]; rfl, ⟨hkeeps.ok, hs.lenient, fun _ => hnew⟩, rfl, rfl, hold, ?_⟩
      intro p hp
      exact hnew ((hmem p).mpr hp)

/-! ### Deleting -/

theorem splitterRectDel_ok (hok : AllOk t.rects) (r : Rectangle) :
    AllOk (splitterRectDel t r).rects := by
  unfold splitterRectDel
  split
  · exact hok
  split
  · exact hok
  · exact delSplitStrict_ok hok

theorem splitterRectDel_fields (t : Tiler) (r : Rectangle) :
    (splitterRectDel t r).area = t.area ∧ (splitterRectDel t r).rounding = t.rounding ∧
      (splitterRectDel t r).strict = t.strict ∧ (splitterRectDel t r).lastAdd = t.lastAdd := by
  unfold splitterRectDel
  split
  · exact ⟨rfl, rfl, rfl, rfl⟩
  split
  · exact ⟨rfl, rfl, rfl, rfl⟩
  · exact ⟨rfl, rfl, rfl, rfl⟩

theorem mem_splitterRectDel (hok : AllOk t.rects) (hp : p ∈ covered t)
    (hout : cell t.rounding p ∉ (delRect t r).cells) : p ∈ covered (splitterRectDel t r) := by
  unfold splitterRectDel
  split
  · exact hp
  split
  · exact hp
  · exact mem_delSplitStrict hok hp hout

theorem rectDel_sound (hs : Sound t) (r : Rectangle) :
    Sound (rectDel t r) ∧ (rectDel t r).area = t.area ∧
      ∀ p ∈ covered t, p ∉ r.pixels → p ∈ covered (rectDel t r) := by
  unfold rectDel
  split
  · exact ⟨hs, rfl, fun p hp _ => hp⟩
  split
  · exact ⟨hs, rfl, fun p hp _ => hp⟩
  rename_i tmp hinter
  split
  · exact ⟨hs, rfl, fun p hp _ => hp⟩
  split
  · exact ⟨hs, rfl, fun p hp _ => hp⟩
  obtain ⟨harea, -, hstrict, hadd⟩ :=
    splitterRectDel_fields { t with lastDel := tmp, lastAdd := forget t.lastAdd } tmp
  refine ⟨sound_of_invalid ?_ (hstrict.trans hs.lenient) ?_, harea, ?_⟩
  · apply splitterRectDel_ok
    exact hs.ok
  · rw [hadd]
    exact isValid_forget _
  · intro p hp hout
    refine mem_splitterRectDel hs.ok hp ?_
    intro hcell
    exact hout ((mem_intersection hinter p).mp (mem_of_delRect hcell)).1

theorem clear_sound (hs : Sound t) : Sound (clear t) :=
  sound_of_invalid allOk_nil hs.lenient (isValid_forget _)

/-! ### Iteration -/

theorem iteratorNew_keeps (hok : AllOk t.rects) (hlenient : t.strict = false) (turns : Nat) :
    ∃ ys m, iteratorNew turns t = .returns { t with rects := ys, needMerge := m } ∧
      Keeps (t.tileW * t.tileH) t.rects ys := by
  unfold iteratorNew
  split
  · obtain ⟨ys, h, hkeeps⟩ := mergeRects_keeps [] t.rects (t.tileW * t.tileH) hok
    refine ⟨ys, false, ?_, hkeeps⟩
    simp only [hlenient, Bool.false_eq_true, if_false, Outcome.returns_bind, h]
    rfl
  · exact ⟨t.rects, t.needMerge, rfl, keeps_refl hok⟩

theorem iteratorNew_sound (hs : Sound t) (turns : Nat) :
    ∃ ys m, iteratorNew turns t = .returns { t with rects := ys, needMerge := m } ∧
      Sound { t with rects := ys, needMerge := m } ∧
      covered t ⊆ covered { t with rects := ys, needMerge := m } := by
  obtain ⟨ys, m, h, hkeeps⟩ := iteratorNew_keeps hs.ok hs.lenient turns
  have hcovered : covered t ⊆ covered { t with rects := ys, needMerge := m } := by
    intro p hp
    exact hkeeps.cells hp
  refine ⟨ys, m, h, ⟨hkeeps.ok, hs.lenient, ?_⟩, hcovered⟩
  intro hvalid
  exact (hs.cached hvalid).trans hcovered

end Eina.Tiler
