/-
`Eina_Tiler`: the operations of `eina_tiler.c` on top of the splitter.

With rounding on, the splitter works on cells of two by two pixels: an added rectangle is
made larger to whole cells and a deleted one smaller.  `x >>= 1` is the division by two that
rounds down.  The iterator is used to its end at once, so it is the list of the rectangles
it returns, and what it leaves in `it->r`.
-/
import Efl.Eina.Rectangle.Basic
import Efl.Eina.Tiler.Coverage

namespace Eina

open Cover Rectangle

/-- `Eina_Tiler` -/
structure Tiler where
  tileW : Int
  tileH : Int
  lastAdd : Rectangle
  lastDel : Rectangle
  area : Rectangle
  /-- `splitter.rects` -/
  rects : List Tiler.Rect
  /-- `splitter.need_merge` -/
  needMerge : Bool
  rounding : Bool
  strict : Bool
  deriving DecidableEq

namespace Tiler

/-- What `w = h = -1` makes of a rectangle. -/
def forget (r : Rectangle) : Rectangle := { r with w := -1, h := -1 }

/-- `eina_tiler_new` -/
def new (w h : Int) : Option Tiler :=
  if w ≤ 0 ∨ h ≤ 0 then none
  else some ⟨32, 32, forget ⟨0, 0, 0, 0⟩, forget ⟨0, 0, 0, 0⟩, ⟨0, 0, w, h⟩, [], false, true, false⟩

/-- `eina_tiler_tile_size_set` -/
def tileSizeSet (t : Tiler) (w h : Int) : Tiler :=
  if w ≤ 0 ∨ h ≤ 0 then t
  else if t.tileW = w ∧ t.tileH = h then t
  else
    { t with
      rounding := if w = 1 ∨ h = 1 then false else t.rounding
      tileW := w
      tileH := h
      rects := [] }

/-! ### The splitter -/

/-- The rectangle `_splitter_rect_add` hands to the splitter. -/
def addRect (t : Tiler) (r : Rectangle) : Rect :=
  if t.rounding then Rect.init (r.x / 2) (r.y / 2) ((r.w + 2) / 2) ((r.h + 2) / 2)
  else Rect.init r.x r.y r.w r.h

/-- `_splitter_rect_add` -/
def splitterRectAdd (turns : Nat) (t : Tiler) (r : Rectangle) : Outcome Tiler := do
  let rects ← addSplitFuzzyAndMerge turns t.rects (addRect t r) (t.tileW * t.tileH)
    (t.tileW * t.tileH)
  return { t with rects := rects }

/-- The rectangle `_splitter_rect_del` hands to the splitter. -/
def delRect (t : Tiler) (r : Rectangle) : Rect :=
  if t.rounding then Rect.init ((r.x + 1) / 2) ((r.y + 1) / 2) ((r.w - 1) / 2) ((r.h - 1) / 2)
  else Rect.init r.x r.y r.w r.h

/-- `_splitter_rect_del` -/
def splitterRectDel (t : Tiler) (r : Rectangle) : Tiler :=
  if t.rects = [] then t
  else if (delRect t r).width ≤ 0 ∨ (delRect t r).height ≤ 0 then t
  else { t with rects := delSplitStrict t.rects (delRect t r), needMerge := true }

/-! ### Adding and deleting -/

/-- `eina_tiler_rect_add` -/
def rectAdd (turns : Nat) (t : Tiler) (r : Rectangle) : Outcome (Tiler × Bool) :=
  if r.w ≤ 0 ∨ r.h ≤ 0 then .returns (t, false)
  else
    match r.intersection t.area with
    | (_, false) => .returns (t, false)
    | (tmp, true) =>
      if tmp.w ≤ 0 ∨ tmp.h ≤ 0 then .returns (t, false)
      else if tmp = t.lastAdd then .returns (t, true)
      else do
        return (← splitterRectAdd turns { t with lastAdd := tmp, lastDel := forget t.lastDel } tmp,
          true)

/-- `eina_tiler_rect_del` -/
def rectDel (t : Tiler) (r : Rectangle) : Tiler :=
  if r.w ≤ 0 ∨ r.h ≤ 0 then t
  else
    match r.intersection t.area with
    | (_, false) => t
    | (tmp, true) =>
      if tmp.w ≤ 0 ∨ tmp.h ≤ 0 then t
      else if tmp = t.lastDel then t
      else splitterRectDel { t with lastDel := tmp, lastAdd := forget t.lastAdd } tmp

/-- `eina_tiler_clear` -/
def clear (t : Tiler) : Tiler :=
  { t with
    rects := []
    needMerge := false
    lastAdd := forget t.lastAdd
    lastDel := forget t.lastDel }

/-! ### Iteration -/

/-- A rectangle rounded up to whole tiles, as the iterator does it in strict mode. -/
def roundUp (t : Tiler) (r : Rect) : Rect :=
  let x1 := t.tileW * r.left.tdiv t.tileW
  let y1 := t.tileH * r.top.tdiv t.tileH
  let x2 := t.tileW * (r.left + r.width + t.tileW - 1).tdiv t.tileW
  let y2 := t.tileH * (r.top + r.height + t.tileH - 1).tdiv t.tileH
  Rect.init x1 y1 (x2 - x1) (y2 - y1)

/-- `eina_tiler_iterator_new`: what it makes of the tiler. -/
def iteratorNew (turns : Nat) (t : Tiler) : Outcome Tiler :=
  if t.needMerge then do
    let e := t.tileW * t.tileH
    let toMerge ← (if t.strict then
        t.rects.foldlM (fun rects r => addSplitFuzzyAndMerge turns rects (roundUp t r) e e) []
      else .returns t.rects)
    let rects ← mergeRects [] toMerge e
    return { t with rects := rects, needMerge := false }
  else .returns t

/-- `it->r` when `_iterator_next` is at a rectangle of the list, and whether it is returned. -/
def iterRect (t : Tiler) (cur : Rect) : Rectangle × Bool :=
  let r : Rectangle :=
    if t.rounding then ⟨cur.left * 2, cur.top * 2, cur.width * 2, cur.height * 2⟩
    else ⟨cur.left, cur.top, cur.width, cur.height⟩
  let (r, meets) := r.intersection t.area
  (r, meets && !decide (r.w ≤ 0 ∨ r.h ≤ 0))

/-- The rectangles an iteration returns. -/
def iterated (t : Tiler) : List Rectangle :=
  t.rects.filterMap fun cur => if (iterRect t cur).2 then some (iterRect t cur).1 else none

/-- What an iteration of a tiler with rectangles leaves in `it->r`. -/
def iterRest (t : Tiler) : Option Rectangle := t.rects.getLast?.map fun cur => (iterRect t cur).1

/-! ### Two tilers -/

/-- The rectangle `eina_tiler_union` and `eina_tiler_subtract` hand on. -/
def shrink (src : Tiler) (r : Rectangle) : Rectangle :=
  if src.rounding then { r with w := r.w - 1, h := r.h - 1 } else r

/--
The part `eina_tiler_union` and `eina_tiler_subtract` have in common, for two different
tilers: `dst` and `src` afterwards, and what `rect` points to.  Where no rectangle was
returned, `rect` is read without a value.
-/
def forEach (turns : Nat) (f : Tiler → Rectangle → Outcome Tiler) (dst src : Tiler) :
    Outcome (Tiler × Tiler × Option Rectangle) := do
  let src ← iteratorNew turns src
  if src.rects = [] then return (dst, src, none)
  else
    let dst ← (iterated src).foldlM (fun dst r => f dst (shrink src r)) dst
    if iterated src = [] then .undefined
    else return (dst, src, iterRest src)

/-- `eina_tiler_union` -/
def union (turns : Nat) (dst src : Tiler) : Outcome (Tiler × Tiler × Bool) :=
  if src.area.w ≤ 0 ∨ src.area.h ≤ 0 then .returns (dst, src, false)
  else do
    let area := { dst.area with w := max src.area.w dst.area.w, h := max src.area.h dst.area.h }
    match ← forEach turns (splitterRectAdd turns) { dst with area := area } src with
    | (dst, src, none) => return (dst, src, false)
    | (dst, src, some rect) => return ({ dst with lastAdd := rect }, src, true)

/-- `eina_tiler_subtract` -/
def subtract (turns : Nat) (dst src : Tiler) : Outcome (Tiler × Tiler × Bool) :=
  if src.area.w ≤ 0 ∨ src.area.h ≤ 0 then .returns (dst, src, false)
  else do
    match ← forEach turns (fun dst r => .returns (splitterRectDel dst r)) dst src with
    | (dst, src, none) => return (dst, src, false)
    | (dst, src, some rect) => return ({ dst with lastDel := rect }, src, true)

/-! ### Pixels and cells -/

/-- The cell of the splitter a pixel is in. -/
def cell (rounding : Bool) (p : Int × Int) : Int × Int :=
  if rounding then (p.1 / 2, p.2 / 2) else p

/-- The pixels whose cells the list covers. -/
def covered (t : Tiler) : Set (Int × Int) :=
  {p | cell t.rounding p ∈ cover Rect.cells t.rects}

theorem ok_addRect (t : Tiler) (r : Rectangle) : (addRect t r).Ok := by
  unfold addRect
  split
  · exact Rect.ok_init _ _ _ _
  · exact Rect.ok_init _ _ _ _

variable {p : Int × Int} {t : Tiler} {r : Rectangle}

theorem mem_addRect (hp : p ∈ r.pixels) :
    cell t.rounding p ∈ (addRect t r).cells := by
  simp only [Rectangle.mem_pixels] at hp
  unfold cell addRect
  split
  · simp only [Rect.mem_cells, Rect.init]
    omega
  · simp only [Rect.mem_cells, Rect.init]
    omega

theorem mem_of_delRect
    (hp : cell t.rounding p ∈ (delRect t r).cells) : p ∈ r.pixels := by
  unfold cell delRect at hp
  simp only [Rectangle.mem_pixels]
  split at hp
  · simp only [Rect.mem_cells, Rect.init] at hp
    omega
  · simp only [Rect.mem_cells, Rect.init] at hp
    omega

/-- **The iteration returns every covered pixel of the area.** -/
theorem mem_iterated (hok : AllOk t.rects) (hp : p ∈ covered t)
    (harea : p ∈ t.area.pixels) : p ∈ cover Rectangle.pixels (iterated t) := by
  obtain ⟨cur, hmem, hcell⟩ := hp
  have hright := (hok cur hmem).right
  have hbottom := (hok cur hmem).bottom
  let big : Rectangle :=
    if t.rounding then ⟨cur.left * 2, cur.top * 2, cur.width * 2, cur.height * 2⟩
    else ⟨cur.left, cur.top, cur.width, cur.height⟩
  have hbig : p ∈ big.pixels := by
    unfold big
    unfold cell at hcell
    split
    · rename_i hround
      rw [if_pos hround] at hcell
      simp only [Rectangle.mem_pixels, Rect.mem_cells] at *
      omega
    · rename_i hround
      rw [if_neg hround] at hcell
      simp only [Rectangle.mem_pixels, Rect.mem_cells] at *
      omega
  have hinter := intersection_of_mem hbig harea
  have hpos := intersection_pos hinter
  have hiter : iterRect t cur = (Rectangle.common big t.area, true) := by
    unfold iterRect
    simp only [show (if t.rounding then _ else _ : Rectangle) = big from rfl, hinter]
    simp only [Bool.true_and, Prod.mk.injEq, true_and, Bool.not_eq_true',
      decide_eq_false_iff_not]
    omega
  refine ⟨Rectangle.common big t.area, ?_, mem_common.mpr ⟨hbig, harea⟩⟩
  exact List.mem_filterMap.mpr ⟨cur, hmem, by rw [hiter]; rfl⟩

end Tiler

end Eina
