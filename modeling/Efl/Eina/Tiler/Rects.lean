/-
The splitter of `eina_tiler.c`: lists of rectangles, over integers without bound.

A `list_t` is the list of its rectangles.  `rect_list_add_split_fuzzy` keeps a worklist
(`dirty`); one turn of its loop takes a rectangle from it and goes over the list (`scan`).
The pointer `old_last` it returns is the number of nodes up to the one it points to.
-/
import Efl.Lib.Cover
import Efl.Lib.Outcome
import Mathlib.Tactic.Ring

namespace Eina.Tiler

open Cover

/-- `rect_t` -/
structure Rect where
  right : Int
  bottom : Int
  left : Int
  top : Int
  width : Int
  height : Int
  area : Int
  deriving DecidableEq

namespace Rect

/-- `rect_init` -/
def init (x y w h : Int) : Rect := ⟨x + w, y + h, x, y, w, h, w * h⟩

/-- The cells of a rectangle. -/
def cells (r : Rect) : Set (Int × Int) :=
  {p | r.left ≤ p.1 ∧ p.1 < r.right ∧ r.top ≤ p.2 ∧ p.2 < r.bottom}

@[simp] theorem mem_cells {r : Rect} {p : Int × Int} :
    p ∈ r.cells ↔ r.left ≤ p.1 ∧ p.1 < r.right ∧ r.top ≤ p.2 ∧ p.2 < r.bottom := Iff.rfl

/-- The redundant fields agree. -/
structure Ok (r : Rect) : Prop where
  right : r.right = r.left + r.width
  bottom : r.bottom = r.top + r.height
  area : r.area = r.width * r.height

theorem ok_init (x y w h : Int) : (init x y w h).Ok := ⟨rfl, rfl, rfl⟩

/-- No extent is negative, and nothing is left of `x` or above `y`. -/
structure Past (x y : Int) (r : Rect) : Prop extends r.Ok where
  width_nonneg : 0 ≤ r.width
  height_nonneg : 0 ≤ r.height
  left_le : x ≤ r.left
  top_le : y ≤ r.top

end Rect

/-! ### Two rectangles -/

/-- `_calc_intra_rect_area`: width and height of the common part. -/
def calcIntraRectArea (a b : Rect) : Int × Int :=
  (min a.right b.right - max a.left b.left, min a.bottom b.bottom - max a.top b.top)

/-- `_calc_outer_rect_area`: the bounding box. -/
def calcOuterRectArea (a b : Rect) : Rect :=
  let left := min a.left b.left
  let right := max a.right b.right
  let top := min a.top b.top
  let bottom := max a.bottom b.bottom
  ⟨right, bottom, left, top, right - left, bottom - top, (right - left) * (bottom - top)⟩

/-- `_calc_intra_outer_rect_area`: the common part and the bounding box. -/
def calcIntraOuterRectArea (a b : Rect) : Rect × Rect :=
  let left := max a.left b.left
  let right := min a.right b.right
  let top := max a.top b.top
  let bottom := min a.bottom b.bottom
  let width := right - left
  let height := bottom - top
  (⟨right, bottom, left, top, width, height, if 0 < width ∧ 0 < height then width * height else 0⟩,
    calcOuterRectArea a b)

/-- The rows of `b` above and below `a`, and what is left of `b`. -/
def splitRows (a b : Rect) : List Rect × Rect :=
  let h1 := a.top - b.top
  let h2 := b.bottom - a.bottom
  let above := if 0 < h1 then [Rect.init b.left b.top b.width h1] else []
  let b := if 0 < h1 then { b with height := b.height - h1, top := a.top } else b
  let below := if 0 < h2 then [Rect.init b.left a.bottom b.width h2] else []
  let b := if 0 < h2 then { b with height := b.height - h2 } else b
  (above ++ below, b)

/-- The columns of `b` left and right of `a`. -/
def splitColumns (a b : Rect) : List Rect :=
  let w1 := a.left - b.left
  let w2 := b.right - a.right
  (if 0 < w1 then [Rect.init b.left b.top w1 b.height] else []) ++
    if 0 < w2 then [Rect.init a.right b.top w2 b.height] else []

/-- `_split_strict`: the pieces of `r` outside `current`. -/
def splitStrict (current r : Rect) : List Rect :=
  (splitRows current r).1 ++ splitColumns current (splitRows current r).2

inductive Action where
  | none
  | split
  | merge
  deriving DecidableEq

/-- `_split_fuzzy`: the pieces appended to the worklist, `b` afterwards and the action. -/
def splitFuzzy (a b : Rect) : List Rect × Rect × Action :=
  let (rows, b) := splitRows a b
  if (0 < a.left - b.left ∨ 0 < b.right - a.right) ∧ a.height = b.height then (rows, b, .merge)
  else
    let pieces := rows ++ splitColumns a b
    (pieces, b, if pieces = [] then .none else .split)

/-! ### Lists of rectangles -/

/-- `rect_list_del_split_strict`; the pieces go behind the rectangles that stay. -/
def delSplitStrict (rects : List Rect) (delR : Rect) : List Rect :=
  let stays (current : Rect) : Bool :=
    decide ((calcIntraRectArea delR current).1 ≤ 0 ∨ (calcIntraRectArea delR current).2 ≤ 0)
  let inside (current : Rect) : Bool :=
    decide (calcIntraRectArea delR current = (current.width, current.height))
  rects.filter stays ++
    (rects.filter fun current => !stays current && !inside current).flatMap (splitStrict delR)

/-- The first rectangle of `rects` that is merged with `r1`: the others, and the merged one. -/
def mergeInto (acceptedError : Int) (r1 : Rect) : List Rect → Option (List Rect × Rect)
  | [] => none
  | r2 :: rects =>
    let outer := calcOuterRectArea r1 r2
    if outer.area - (r1.area + r2.area) ≤ acceptedError then some (rects, outer)
    else (mergeInto acceptedError r1 rects).map fun p => (r2 :: p.1, p.2)

/-- The loop of `rect_list_merge_rects`. -/
def mergeLoop (acceptedError : Int) : Nat → List Rect → List Rect → Outcome (List Rect)
  | _, rects, [] => .returns rects
  | 0, _, _ :: _ => .running
  | fuel + 1, rects, r1 :: toMerge =>
    match mergeInto acceptedError r1 rects with
    | some (rects, outer) => mergeLoop acceptedError fuel rects (toMerge ++ [outer])
    | none => mergeLoop acceptedError fuel (rects ++ [r1]) toMerge

/-- `rect_list_merge_rects`; it ends within these turns (`mergeRects_keeps`). -/
def mergeRects (rects toMerge : List Rect) (acceptedError : Int) : Outcome (List Rect) :=
  mergeLoop acceptedError (rects.length + 2 * toMerge.length) rects toMerge

/-- The rectangle list, the worklist and the position of `old_last`. -/
structure Work where
  rects : List Rect
  dirty : List Rect
  oldLast : Nat
  deriving DecidableEq

/-- The position of `old_last` when the node behind `k` others is taken out. -/
def oldLastWithout (oldLast k : Nat) : Nat := if k < oldLast then oldLast - 1 else oldLast

/--
The inner loop of `rect_list_add_split_fuzzy` for the rectangle `r`, behind the nodes
`before`.
-/
def scan (acceptedError : Int) (r : Rect) (dirty : List Rect) :
    Nat → List Rect → List Rect → Outcome Work
  | oldLast, before, [] => .returns ⟨before ++ [r], dirty, oldLast⟩
  | oldLast, before, current :: rest =>
    let (intra, outer) := calcIntraOuterRectArea r current
    let area := current.area + r.area - intra.area
    if intra.width = r.width ∧ intra.height = r.height then
      .returns ⟨before ++ current :: rest, dirty, oldLast⟩
    else if intra.width = current.width ∧ intra.height = current.height then
      scan acceptedError r dirty (oldLastWithout oldLast before.length) before rest
    else if outer.area - area ≤ acceptedError then
      .returns ⟨before ++ rest, dirty ++ [outer], oldLastWithout oldLast before.length⟩
    else if intra.area ≤ acceptedError then
      scan acceptedError r dirty oldLast (before ++ [current]) rest
    else
      match splitFuzzy current r with
      | (pieces, r, .merge) =>
        let n := { current with
          left := outer.left, width := outer.width, right := outer.right,
          area := outer.width * r.height }
        .returns ⟨before ++ rest, dirty ++ pieces ++ [n], oldLastWithout oldLast before.length⟩
      | (pieces, _, .split) => .returns ⟨before ++ current :: rest, dirty ++ pieces, oldLast⟩
      | (_, _, .none) => .aborts

/-- The loop of `rect_list_add_split_fuzzy`: the list and the position of `old_last`. -/
def addLoop (acceptedError : Int) : Nat → Work → Outcome (List Rect × Nat)
  | _, ⟨rects, [], oldLast⟩ => .returns (rects, oldLast)
  | 0, ⟨_, _ :: _, _⟩ => .running
  | turns + 1, ⟨rects, r :: dirty, oldLast⟩ =>
    scan acceptedError r dirty oldLast [] rects >>= addLoop acceptedError turns

/-- `rect_list_add_split_fuzzy` -/
def addSplitFuzzy (turns : Nat) (rects : List Rect) (node : Rect) (acceptedError : Int) :
    Outcome (List Rect × Nat) :=
  if rects = [] then .returns ([node], 0)
  else addLoop acceptedError turns ⟨rects, [node], rects.length⟩

/-- `rect_list_add_split_fuzzy_and_merge` -/
def addSplitFuzzyAndMerge (turns : Nat) (rects : List Rect) (node : Rect)
    (splitAcceptedError mergeAcceptedError : Int) : Outcome (List Rect) := do
  let (rects, n) ← addSplitFuzzy turns rects node splitAcceptedError
  if n ≠ 0 ∧ n < rects.length then
    mergeRects (rects.take n) (rects.drop n) mergeAcceptedError
  else return rects

end Eina.Tiler
