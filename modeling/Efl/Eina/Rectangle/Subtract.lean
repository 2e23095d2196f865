/-
`eina_rectangle_subtract`: what of a rectangle lies outside another one.

The part above the common part is cut off first, then the part below it, then the parts on its left
and on its right; what is left over each time is cut again.
-/
import Efl.Lib.Partition
import Efl.Eina.Rectangle.Basic

namespace Eina.Rectangle

open Cover Option

variable {thiz other common : Rectangle} {p : Int × Int}

/-! ### Cuts

A cut gives the slice and the leftover; where it fails, nothing is written.
-/

/-- `eina_rectangle_max_x` -/
def maxX (thiz : Rectangle) : Int := thiz.x + thiz.w

/-- `eina_rectangle_max_y` -/
def maxY (thiz : Rectangle) : Int := thiz.y + thiz.h

/-- `eina_rectangle_x_cut` -/
def xCut (thiz : Rectangle) (amount : Int) : Option (Rectangle × Rectangle) :=
  if thiz.w < amount then none
  else
    some (⟨thiz.x, thiz.y, amount, thiz.h⟩, ⟨thiz.x + amount, thiz.y, thiz.w - amount, thiz.h⟩)

/-- `eina_rectangle_y_cut` -/
def yCut (thiz : Rectangle) (amount : Int) : Option (Rectangle × Rectangle) :=
  if thiz.h < amount then none
  else
    some (⟨thiz.x, thiz.y, thiz.w, amount⟩, ⟨thiz.x, thiz.y + amount, thiz.w, thiz.h - amount⟩)

/-- `eina_rectangle_width_cut` -/
def widthCut (thiz : Rectangle) (amount : Int) : Option (Rectangle × Rectangle) :=
  if thiz.w - amount < 0 then none
  else
    some (⟨thiz.x + (thiz.w - amount), thiz.y, amount, thiz.h⟩,
      ⟨thiz.x, thiz.y, thiz.w - amount, thiz.h⟩)

/-- `eina_rectangle_height_cut` -/
def heightCut (thiz : Rectangle) (amount : Int) : Option (Rectangle × Rectangle) :=
  if thiz.h - amount < 0 then none
  else
    some (⟨thiz.x, thiz.y + (thiz.h - amount), thiz.w, amount⟩,
      ⟨thiz.x, thiz.y, thiz.w, thiz.h - amount⟩)

/-! ### The subtraction -/

/-- `EINA_RECTANGLE_INIT`, and what `out` is filled with at first. -/
def zero : Rectangle := ⟨0, 0, 0, 0⟩

/-- The rectangles of `out`. -/
structure Pieces where
  out0 : Rectangle
  out1 : Rectangle
  out2 : Rectangle
  out3 : Rectangle
  deriving DecidableEq

def Pieces.toList (out : Pieces) : List Rectangle := [out.out0, out.out1, out.out2, out.out3]

/-- The second to the fourth cut: what is left over of `leftover`, and the piece that is cut off. -/
def cutAt (leftover intersection : Rectangle) (amount : Rectangle → Int)
    (cut : Rectangle → Int → Option (Rectangle × Rectangle)) : Rectangle × Rectangle :=
  match leftover.intersection intersection with
  | (tmp, true) => (cut leftover (amount tmp)).getD (leftover, zero)
  | (_, false) => (leftover, zero)

/-- `eina_rectangle_subtract`, which leaves `out` alone for an invalid rectangle. -/
def subtract (thiz other : Rectangle) : Option Pieces :=
  if thiz.isValid then
    match thiz.intersection other with
    | (_, false) => some ⟨thiz, zero, zero, zero⟩
    | (intersection, true) =>
      -- cut in height
      let (leftover, out0) :=
        (thiz.heightCut (min (thiz.h - (intersection.y - thiz.y)) thiz.h)).getD (zero, zero)
      -- cut in y
      let (leftover, out1) := cutAt leftover intersection
        (fun tmp => min (leftover.h - (leftover.maxY - tmp.maxY)) leftover.h) yCut
      -- cut in width
      let (leftover, out2) := cutAt leftover intersection
        (fun tmp => min (leftover.w - (tmp.x - leftover.x)) leftover.w) widthCut
      -- cut in x
      let (_, out3) := cutAt leftover intersection
        (fun tmp => min (leftover.w - (leftover.maxX - tmp.maxX)) leftover.w) xCut
      some ⟨out0, out1, out2, out3⟩
  else none

/-- One rectangle lies inside the other one, edge by edge. -/
structure Inside (inner outer : Rectangle) : Prop where
  left : outer.x ≤ inner.x
  right : inner.x + inner.w ≤ outer.x + outer.w
  top : outer.y ≤ inner.y
  bottom : inner.y + inner.h ≤ outer.y + outer.h
  pos : 0 < inner.w ∧ 0 < inner.h

theorem inside_mk {x y w k : Int} (hleft : x ≤ common.x)
    (hright : common.x + common.w ≤ x + w) (htop : y ≤ common.y)
    (hbottom : common.y + common.h ≤ y + k) (hpos : 0 < common.w ∧ 0 < common.h) :
    Inside common ⟨x, y, w, k⟩ := ⟨hleft, hright, htop, hbottom, hpos⟩

theorem Inside.intersection_eq (h : Inside common thiz) :
    thiz.intersection common = (common, true) := by
  obtain ⟨h1, h2, h3, h4, h5⟩ := h
  have hall : (thiz.isValid && common.isValid && thiz.intersects common) = true := by
    simp only [Bool.and_eq_true, isValid_iff, intersects_iff]
    omega
  rw [Rectangle.intersection_eq, if_pos hall]
  obtain ⟨x, y, w, k⟩ := common
  simp only [Rectangle.common, Prod.mk.injEq, and_true, mk.injEq] at *
  omega

theorem intersection_inside (hinter : thiz.intersection other = (common, true)) :
    Inside common thiz ∧ Inside common other := by
  have hpos := intersection_pos hinter
  rw [Rectangle.intersection_eq] at hinter
  split at hinter
  · obtain rfl := congrArg Prod.fst hinter
    simp only [Rectangle.common] at hpos ⊢
    constructor
    · constructor <;> simp only <;> omega
    · constructor <;> simp only <;> omega
  · simp at hinter

/-- The pieces around the common part. -/
def around (thiz common : Rectangle) : Pieces where
  out0 := ⟨thiz.x, thiz.y, thiz.w, common.y - thiz.y⟩
  out1 := ⟨thiz.x, common.y + common.h, thiz.w, thiz.y + thiz.h - (common.y + common.h)⟩
  out2 := ⟨thiz.x, common.y, common.x - thiz.x, common.h⟩
  out3 := ⟨common.x + common.w, common.y, thiz.x + thiz.w - (common.x + common.w), common.h⟩

theorem cutAt_eq (h : Inside common thiz) (amount : Rectangle → Int)
    (cut : Rectangle → Int → Option (Rectangle × Rectangle)) :
    cutAt thiz common amount cut = (cut thiz (amount common)).getD (thiz, zero) := by
  unfold cutAt
  rw [h.intersection_eq]

theorem subtract_eq (hvalid : thiz.isValid = true)
    (hinter : thiz.intersection other = (common, true)) :
    thiz.subtract other = some (around thiz common) := by
  obtain ⟨⟨h1, h2, h3, h4, h5⟩, -⟩ := intersection_inside hinter
  -- above the common part
  have hamount0 : min (thiz.h - (common.y - thiz.y)) thiz.h = thiz.y + thiz.h - common.y := by
    omega
  have hcut0 : thiz.heightCut (thiz.y + thiz.h - common.y) =
      some (⟨thiz.x, common.y, thiz.w, thiz.y + thiz.h - common.y⟩, (around thiz common).out0) := by
    unfold heightCut
    rw [if_neg (by omega)]
    simp only [around, some.injEq, Prod.mk.injEq, mk.injEq, true_and, and_true]
    omega
  -- below it
  generalize hrest0 :
    (⟨thiz.x, common.y, thiz.w, thiz.y + thiz.h - common.y⟩ : Rectangle) = rest0 at hcut0
  have hcut1 : cutAt rest0 common
      (fun tmp => min (rest0.h - (rest0.maxY - tmp.maxY)) rest0.h) yCut =
      (⟨thiz.x, common.y, thiz.w, common.h⟩, (around thiz common).out1) := by
    have hinside : Inside common rest0 := by
      subst hrest0
      exact inside_mk (by omega) (by omega) (by omega) (by omega) h5
    rw [cutAt_eq hinside]
    subst hrest0
    dsimp only [maxY, yCut]
    rw [if_neg (by omega)]
    simp only [around, getD_some, Prod.mk.injEq, mk.injEq, true_and]
    omega
  -- on its left
  generalize hrest1 : (⟨thiz.x, common.y, thiz.w, common.h⟩ : Rectangle) = rest1 at hcut1
  have hcut2 : cutAt rest1 common (fun tmp => min (rest1.w - (tmp.x - rest1.x)) rest1.w) widthCut =
      (⟨common.x, common.y, thiz.x + thiz.w - common.x, common.h⟩, (around thiz common).out2) := by
    have hinside : Inside common rest1 := by
      subst hrest1
      exact inside_mk (by omega) (by omega) (by omega) (by omega) h5
    rw [cutAt_eq hinside]
    subst hrest1
    dsimp only [widthCut]
    rw [if_neg (by omega)]
    simp only [around, getD_some, Prod.mk.injEq, mk.injEq, true_and, and_true]
    omega
  -- on its right
  generalize hrest2 :
    (⟨common.x, common.y, thiz.x + thiz.w - common.x, common.h⟩ : Rectangle) = rest2 at hcut2
  have hcut3 : (cutAt rest2 common
      (fun tmp => min (rest2.w - (rest2.maxX - tmp.maxX)) rest2.w) xCut).2 =
      (around thiz common).out3 := by
    have hinside : Inside common rest2 := by
      subst hrest2
      exact inside_mk (by omega) (by omega) (by omega) (by omega) h5
    rw [cutAt_eq hinside]
    subst hrest2
    dsimp only [maxX, xCut]
    rw [if_neg (by omega)]
    simp only [around, getD_some, mk.injEq, true_and, and_true]
    omega
  unfold subtract
  rw [if_pos hvalid, hinter]
  dsimp only
  rw [hamount0, hcut0]
  dsimp only [getD_some]
  rw [hcut1]
  rw [hcut2]
  rw [hcut3]

theorem around_tiles (hinter : thiz.intersection other = (common, true)) :
    (∀ r ∈ (around thiz common).toList, 0 ≤ r.w ∧ 0 ≤ r.h) ∧
      (around thiz common).toList.Pairwise (fun r r' => Disjoint r.pixels r'.pixels) ∧
      cover pixels (around thiz common).toList = thiz.pixels \ other.pixels := by
  obtain ⟨⟨h1, h2, h3, h4, h5⟩, -⟩ := intersection_inside hinter
  have hcommon := mem_intersection hinter
  refine ⟨?_, ?_, ?_⟩
  · intro r hr
    simp only [Pieces.toList, around, List.mem_cons, List.not_mem_nil, or_false] at hr
    rcases hr with rfl | rfl | rfl | rfl <;> dsimp only <;> omega
  · simp only [Pieces.toList, around, List.pairwise_cons, List.mem_cons, List.not_mem_nil, or_false,
      forall_eq_or_imp, forall_eq, Set.disjoint_left, mem_pixels]
    refine ⟨⟨?_, ?_, ?_⟩, ⟨?_, ?_⟩, ?_, ?_⟩
    all_goals first | (intro p hp hp'; omega) | simp
  · ext p
    rw [Set.mem_sdiff]
    have hp := hcommon p
    simp only [Pieces.toList, around, mem_cover_cons, mem_cover_nil, mem_pixels, or_false] at hp ⊢
    constructor
    · omega
    · omega

end Eina.Rectangle

open Eina.Rectangle

/-- **Subtraction**: the pieces of a valid rectangle are disjoint, and together they are exactly the
pixels that are not in the other rectangle. -/
theorem Eina.Rectangle.subtract_tiles (thiz other : Eina.Rectangle) (hvalid : thiz.isValid = true) :
    ∃ out, thiz.subtract other = some out ∧ (∀ r ∈ out.toList, 0 ≤ r.w ∧ 0 ≤ r.h) ∧
      out.toList.Pairwise (fun r r' => Disjoint r.pixels r'.pixels) ∧
      Cover.cover pixels out.toList = thiz.pixels \ other.pixels := by
  cases hinter : thiz.intersection other with
  | mk common meets =>
  cases meets with
  | true => exact ⟨_, subtract_eq hvalid hinter, around_tiles hinter⟩
  | false =>
    -- no pixel is in both, and the rectangle is left whole
    refine ⟨⟨thiz, zero, zero, zero⟩, ?_, ?_, ?_, ?_⟩
    · unfold subtract
      rw [if_pos hvalid, hinter]
    · have hpos := isValid_iff.mp hvalid
      intro r hr
      simp only [Pieces.toList, List.mem_cons, List.not_mem_nil, or_false] at hr
      rcases hr with rfl | rfl | rfl | rfl
      · omega
      all_goals exact ⟨le_refl 0, le_refl 0⟩
    · have hnone (p : Int × Int) : p ∉ zero.pixels := by
        simp only [zero, mem_pixels]
        omega
      simp only [Pieces.toList, List.pairwise_cons, List.mem_cons, List.not_mem_nil,
        forall_eq_or_imp, Set.disjoint_left]
      simp [hnone]
    · have hnone (p : Int × Int) : p ∉ zero.pixels := by
        simp only [zero, mem_pixels]
        omega
      ext p
      simp only [Pieces.toList, Cover.mem_cover_cons, Cover.mem_cover_nil, hnone, or_false]
      refine ⟨fun hp => ⟨hp, fun hother => ?_⟩, And.left⟩
      rw [intersection_of_mem hp hother] at hinter
      simp at hinter

theorem Eina.Rectangle.subtract_tiles_corner : ∃ out,
    (⟨0, 0, 4, 4⟩ : Eina.Rectangle).subtract ⟨2, 2, 4, 4⟩ = some out ∧
      (∀ r ∈ out.toList, 0 ≤ r.w ∧ 0 ≤ r.h) ∧
      out.toList.Pairwise (fun r r' => Disjoint r.pixels r'.pixels) ∧
      Cover.cover pixels out.toList =
        (⟨0, 0, 4, 4⟩ : Eina.Rectangle).pixels \ (⟨2, 2, 4, 4⟩ : Eina.Rectangle).pixels :=
  subtract_tiles _ _ (by decide)
