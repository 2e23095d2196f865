/-
`Eina_Rectangle` and the inline functions of `eina_inline_rectangle.x`, over integers
without bound.

A rectangle covers the pixels from its corner up to, but not including, the opposite
edges.
-/
import Mathlib.Data.Set.Basic

namespace Eina

/-- `Eina_Rectangle` -/
structure Rectangle where
  x : Int
  y : Int
  w : Int
  h : Int
  deriving DecidableEq

namespace Rectangle

/-- The pixels of a rectangle. -/
def pixels (r : Rectangle) : Set (Int × Int) :=
  {p | r.x ≤ p.1 ∧ p.1 < r.x + r.w ∧ r.y ≤ p.2 ∧ p.2 < r.y + r.h}

variable {r : Rectangle} {p : Int × Int} {r1 r2 : Rectangle} {c1 l1 c2 l2 : Int}

@[simp] theorem mem_pixels :
    p ∈ r.pixels ↔ r.x ≤ p.1 ∧ p.1 < r.x + r.w ∧ r.y ≤ p.2 ∧ p.2 < r.y + r.h := Iff.rfl

/-- `eina_rectangle_is_valid` -/
def isValid (r : Rectangle) : Bool := decide (0 < r.w ∧ 0 < r.h)

@[simp] theorem isValid_iff : r.isValid = true ↔ 0 < r.w ∧ 0 < r.h := by
  simp [isValid]

/-- `eina_spans_intersect` -/
def spansIntersect (c1 l1 c2 l2 : Int) : Bool := !decide (c2 + l2 ≤ c1 ∨ c1 + l1 ≤ c2)

theorem spansIntersect_iff :
    spansIntersect c1 l1 c2 l2 = true ↔ c1 < c2 + l2 ∧ c2 < c1 + l1 := by
  simp [spansIntersect]

/-- `eina_rectangles_intersect` -/
def intersects (r1 r2 : Rectangle) : Bool :=
  spansIntersect r1.x r1.w r2.x r2.w && spansIntersect r1.y r1.h r2.y r2.h

theorem intersects_iff :
    r1.intersects r2 = true ↔ (r1.x < r2.x + r2.w ∧ r2.x < r1.x + r1.w) ∧
      r1.y < r2.y + r2.h ∧ r2.y < r1.y + r1.h := by
  rw [intersects, Bool.and_eq_true, spansIntersect_iff, spansIntersect_iff]

/-- The cut of one axis in `eina_rectangle_intersection`: the corner and the extent. -/
def clip (c1 l1 c2 l2 : Int) : Int × Int :=
  let (c, l) := if c1 < c2 then (c2, max (l1 + (c1 - c2)) 0) else (c1, l1)
  (c, if c2 + l2 < c + l then c2 + l2 - c else l)

/-- `eina_rectangle_intersection`: the rectangle `dst` points to afterwards, and the answer. -/
def intersection (dst src : Rectangle) : Rectangle × Bool :=
  if dst.isValid && src.isValid && dst.intersects src then
    let (x, w) := clip dst.x dst.w src.x src.w
    let (y, h) := clip dst.y dst.h src.y src.h
    (⟨x, y, w, h⟩, !decide (w = 0 ∨ h = 0))
  else (dst, false)

theorem clip_eq (h : c1 < c2 + l2 ∧ c2 < c1 + l1) :
    clip c1 l1 c2 l2 = (max c1 c2, min (c1 + l1) (c2 + l2) - max c1 c2) := by
  unfold clip
  by_cases hc : c1 < c2
  · simp only [if_pos hc]
    split <;> simp only [Prod.mk.injEq] <;> omega
  · simp only [if_neg hc]
    split <;> simp only [Prod.mk.injEq] <;> omega

/-- The common part of two rectangles. -/
def common (r1 r2 : Rectangle) : Rectangle :=
  ⟨max r1.x r2.x, max r1.y r2.y, min (r1.x + r1.w) (r2.x + r2.w) - max r1.x r2.x,
    min (r1.y + r1.h) (r2.y + r2.h) - max r1.y r2.y⟩

theorem mem_common :
    p ∈ (common r1 r2).pixels ↔ p ∈ r1.pixels ∧ p ∈ r2.pixels := by
  simp only [common, mem_pixels]
  omega

theorem intersection_eq (dst src : Rectangle) : dst.intersection src =
    if dst.isValid && src.isValid && dst.intersects src then (common dst src, true)
    else (dst, false) := by
  unfold intersection
  split
  · rename_i hall
    simp only [Bool.and_eq_true, isValid_iff, intersects_iff] at hall
    rw [clip_eq hall.2.1, clip_eq hall.2.2]
    simp only [common, Prod.mk.injEq, true_and]
    simp only [Bool.not_eq_true', decide_eq_false_iff_not]
    omega
  · rfl

variable {dst src : Rectangle}

theorem mem_intersection (h : dst.intersection src = (r, true)) (p : Int × Int) :
    p ∈ r.pixels ↔ p ∈ dst.pixels ∧ p ∈ src.pixels := by
  rw [intersection_eq] at h
  split at h
  · obtain rfl := congrArg Prod.fst h
    exact mem_common
  · simp at h

theorem intersection_of_mem (hd : p ∈ dst.pixels) (hs : p ∈ src.pixels) :
    dst.intersection src = (common dst src, true) := by
  simp only [mem_pixels] at hd hs
  rw [intersection_eq, if_pos]
  simp only [Bool.and_eq_true, isValid_iff, intersects_iff]
  omega

theorem intersection_pos (h : dst.intersection src = (r, true)) :
    0 < r.w ∧ 0 < r.h := by
  rw [intersection_eq] at h
  split at h
  · rename_i hall
    simp only [Bool.and_eq_true, isValid_iff, intersects_iff] at hall
    obtain rfl := congrArg Prod.fst h
    simp only [common]
    omega
  · simp at h

end Rectangle

end Eina
