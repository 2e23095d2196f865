/-
`Eina_Rectangle_Pool`: the allocator of `eina_rectangle.c`.

The lists of the pool are the lists of their rectangles; a live rectangle is known by its
place in the list of allocations.  The loops that start again are given a number of turns.  Which
rectangles are live is known to whoever made the requests, apart from what the pool keeps.
-/
import Efl.Lib.Outcome
import Efl.Lib.Runs
import Efl.Eina.List.Sort
import Efl.Eina.Rectangle.Basic

namespace Eina.Rectangle

/-- `Eina_Rectangle_Packing` -/
inductive Packing where
  | ascending
  | descending
  | bottomLeft
  | bottomLeftSkyline
  | bottomLeftSkylineImproved
  deriving DecidableEq

/-- `_eina_rectangle_cmp` -/
def cmp (r1 r2 : Rectangle) : Int := r2.w * r2.h - r1.w * r1.h

/-- `_eina_rectangle_cmp_asc` -/
def cmpAsc (r1 r2 : Rectangle) : Int := r1.w * r1.h - r2.w * r2.h

/-- `_eina_rectangle_cmp_bl` -/
def cmpBl (r1 r2 : Rectangle) : Int := if r1.y ≠ r2.y then r1.y - r2.y else r1.x - r2.x

/-- The first element of the list that passes a test, and the others. -/
def takeFirst {α : Type} (test : α → Bool) : List α → Option (α × List α)
  | [] => none
  | a :: rest =>
    if test a then some (a, rest) else (takeFirst test rest).map fun p => (p.1, a :: p.2)

/-! ### Free space -/

/--
What `_eina_rectangle_merge_list` makes of `r` and a rectangle of the list: the rectangles
it appends to the list, and `r` from then on.
-/
def fuse (type : Packing) (r found : Rectangle) : Option (List Rectangle × Rectangle) :=
  if found.x = r.x ∧ found.w = r.w ∧ (found.y = r.y + r.h ∨ r.y = found.y + found.h) then
    some ([], { found with y := if r.y < found.y then r.y else found.y, h := found.h + r.h })
  else if found.y = r.y ∧ found.h = r.h ∧ (found.x = r.x + r.w ∨ r.x = found.x + found.w) then
    some ([], { found with x := if r.x < found.x then r.x else found.x, w := found.w + r.w })
  else if r.y < found.y ∧ type = .bottomLeftSkyline ∧ found.y + found.h = r.y + r.h ∧
      (found.x + found.w = r.x ∨ r.x + r.w = found.x) then
    some ([⟨r.x, r.y, r.w, found.y - r.y⟩],
      { found with x := if r.x < found.x then r.x else found.x, w := found.w + r.w })
  else none

/-- One pass over the list. -/
def fuseFirst (type : Packing) (r : Rectangle) :
    List Rectangle → Option (List Rectangle × Rectangle)
  | [] => none
  | found :: rest =>
    match fuse type r found with
    | some (news, r) => some (rest ++ news, r)
    | none => (fuseFirst type r rest).map fun p => (found :: p.1, p.2)

def mergeLoop (type : Packing) : Nat → List Rectangle → Rectangle → Outcome (List Rectangle)
  | 0, _, _ => .running
  | turns + 1, empty, r =>
    match fuseFirst type r empty with
    | none => .returns (empty ++ [r])
    | some (empty, r) => mergeLoop type turns empty r

/-- `_eina_rectangle_merge_list` -/
def mergeList (turns : Nat) (type : Packing) (empty : List Rectangle) (r : Rectangle) :
    Outcome (List Rectangle) :=
  if r.w = 0 ∨ r.h = 0 then .returns empty else mergeLoop type turns empty r

/-- What is left of a free rectangle, in the order in which it goes back to the list. -/
def splitSpace (type : Packing) (r : Rectangle) (w h : Int) : List Rectangle :=
  if r.w = w then [{ r with y := r.y + h, h := r.h - h }]
  else if r.h = h then [{ r with x := r.x + w, w := r.w - w }]
  else
    let rw1 := r.w - w
    let h2 := r.h - h
    let (rh1, w2) :=
      if h2 * r.w < rw1 * r.h ∨ type = .bottomLeft ∨ type = .bottomLeftSkyline then (r.h, w)
      else (h, r.w)
    let (rh1, w2) := if type = .bottomLeftSkylineImproved then (r.h, r.w) else (rh1, w2)
    [⟨r.x + w, r.y, rw1, rh1⟩, ⟨r.x, r.y + h, w2, h2⟩]

/-- `_eina_rectangle_empty_space_find`: the list, `x` and `y`. -/
def emptySpaceFind (turns : Nat) (empty : List Rectangle) (type : Packing) (w h : Int) :
    Outcome (List Rectangle × Int × Int) :=
  match takeFirst (fun r => decide (w ≤ r.w ∧ h ≤ r.h)) empty with
  | none => .returns (empty, -1, -1)
  | some (r, empty) => do
    let empty ← (splitSpace type r w h).foldlM (mergeList turns type) empty
    return (empty, r.x, r.y)

/-! ### Overlapping free space -/

/-- What `_eina_rectangle_skyline_merge_list` makes of one rectangle of the list. -/
def grow (r found : Rectangle) : Rectangle :=
  if found.x = r.x + r.w then { found with x := r.x, w := r.w + found.w }
  else if found.y = r.y + r.h then { found with y := r.y, h := r.h + found.h }
  else if found.x + found.w = r.x then { found with w := r.w + found.w }
  else if found.y + found.h = r.y then { found with h := r.h + found.h }
  else found

/-- `_eina_rectangle_skyline_merge_list` -/
def skylineMergeList (empty : List Rectangle) (r : Rectangle) : List Rectangle :=
  empty.map (grow r)

/--
The pieces `_eina_rectangle_skyline_list_update` puts in the place of `r`, in the order in
which they are prepended.
-/
def cutAround (rect r : Rectangle) : List Rectangle :=
  let left : Rectangle := ⟨r.x, r.y, rect.x - r.x, r.h⟩
  let right : Rectangle := ⟨rect.x + rect.w, r.y, r.x + r.w - (rect.x + rect.w), r.h⟩
  let above : Rectangle := ⟨r.x, r.y, r.w, rect.y - r.y⟩
  let below : Rectangle := ⟨r.x, rect.y + rect.h, r.w, r.y + r.h - (rect.y + rect.h)⟩
  if rect.y < r.y then
    (if rect.y + rect.h < r.y + r.h then [below] else []) ++
      (if rect.x + rect.w < r.x + r.w then [right] else []) ++
      if rect.x - r.x ≠ 0 then [left] else []
  else if rect.x < r.x then
    (if rect.x + rect.w < r.x + r.w then [right] else []) ++
      -- the source compares with `rect->y + rect->y` here
      (if rect.y + rect.y < r.y + r.h then [below] else []) ++
      if r.y < rect.y then [above] else []
  else if r.x = rect.x ∧ r.y < rect.y then
    (if rect.y + rect.h < r.y + r.h then [below] else []) ++ [above]
  else if r.y = rect.y ∧ r.x < rect.x then
    (if rect.w + rect.x < r.w + r.x then [right] else []) ++ [left]
  else if r.x < rect.x ∧ r.y < rect.y then [left, above]
  else if r.x = rect.x ∧ r.y = rect.y then
    (if rect.w < r.w then [{ right with w := r.w - rect.w }] else []) ++
      if rect.h < r.h then [{ below with h := r.h - rect.h }] else []
  else []

/-- `_eina_rectangle_skyline_list_update` -/
def skylineListUpdate : Nat → List Rectangle → Rectangle → Outcome (List Rectangle)
  | 0, _, _ => .running
  | turns + 1, empty, rect =>
    match takeFirst (intersects rect) empty with
    | none => .returns empty
    | some (r, empty) => skylineListUpdate turns ((cutAround rect r).reverse ++ empty) rect

/-- `r1` is inside `r`. -/
def contains (r r1 : Rectangle) : Bool :=
  decide (r.x ≤ r1.x ∧ r.y ≤ r1.y ∧ r1.x + r1.w ≤ r.x + r.w ∧ r1.y + r1.h ≤ r.y + r.h)

/-- The list without the first rectangle that is inside `r`, or without `r`. -/
def dropAgainst (r : Rectangle) : List Rectangle → List Rectangle → Option (List Rectangle)
  | _, [] => none
  | before, r1 :: rest =>
    if contains r r1 then some (r :: before ++ rest)
    else if contains r1 r then some (before ++ r1 :: rest)
    else dropAgainst r (before ++ [r1]) rest

/-- One pass of `_eina_rectangle_skyline_list_update_duplicate`. -/
def dropDuplicate : List Rectangle → Option (List Rectangle)
  | [] => none
  | r :: rest =>
    match dropAgainst r [] rest with
    | some empty => some empty
    | none => (dropDuplicate rest).map fun empty => r :: empty

/-- `_eina_rectangle_skyline_list_update_duplicate` -/
def skylineListUpdateDuplicate : Nat → List Rectangle → Outcome (List Rectangle)
  | 0, _ => .running
  | turns + 1, empty =>
    match dropDuplicate empty with
    | none => .returns empty
    | some empty => skylineListUpdateDuplicate turns empty

/-! ### The pool -/

/-- `Eina_Rectangle_Pool` -/
structure Pool where
  /-- The live rectangles. -/
  head : List Rectangle
  empty : List Rectangle
  compareFunc : Rectangle → Rectangle → Int
  bucketCount : Nat
  type : Packing
  references : Nat
  w : Int
  h : Int
  sorted : Bool

/-- `BUCKET_THRESHOLD` -/
def bucketThreshold : Nat := 110

namespace Pool

/-- `eina_rectangle_pool_new` -/
def new (w h : Int) : Option Pool :=
  if w ≤ 0 ∨ h ≤ 0 then none
  else some ⟨[], [⟨0, 0, w, h⟩], cmp, 0, .ascending, 0, w, h, false⟩

/-- `eina_rectangle_pool_packing_set` -/
def packingSet (pool : Pool) (type : Packing) : Pool :=
  { pool with
    type := type
    compareFunc :=
      match type with
      | .ascending => cmpAsc
      | .descending => cmp
      | _ => cmpBl }

/-- The list is sorted when it is not. -/
def sortEmpty (pool : Pool) : Pool :=
  if pool.sorted then pool
  else { pool with empty := Lists.sort pool.compareFunc pool.empty, sorted := true }

/-- The pool when a rectangle is granted. -/
def granted (pool : Pool) (empty : List Rectangle) (rect : Rectangle) : Pool :=
  { pool with
    empty := empty
    sorted := false
    bucketCount := pool.bucketCount - 1
    head := rect :: pool.head
    references := pool.references + 1 }

/-- `eina_rectangle_pool_request` -/
def request (turns : Nat) (pool : Pool) (w h : Int) : Outcome (Pool × Option Rectangle) :=
  if w ≤ 0 ∨ h ≤ 0 then .returns (pool, none)
  else if pool.w < w ∨ pool.h < h then .returns (pool, none)
  else do
    let empty ← (if pool.type = .bottomLeftSkylineImproved then
        skylineListUpdateDuplicate turns pool.sortEmpty.empty
      else .returns pool.sortEmpty.empty)
    let (empty, x, y) ← emptySpaceFind turns empty pool.type w h
    if x = -1 then return ({ pool.sortEmpty with empty := empty }, none)
    else
      let rect : Rectangle := ⟨x, y, w, h⟩
      let empty ← (if pool.type = .bottomLeftSkylineImproved then
          skylineListUpdate turns empty rect
        else .returns empty)
      return (pool.granted empty rect, some rect)

/-- The pool when a live rectangle is given back. -/
def released (pool : Pool) (k : Nat) (empty : List Rectangle) : Pool :=
  { pool with
    references := pool.references - 1
    head := pool.head.eraseIdx k
    empty := empty
    sorted := false
    bucketCount :=
      if pool.bucketCount < bucketThreshold then pool.bucketCount + 1 else pool.bucketCount }

/-- `eina_rectangle_pool_release` of the live rectangle at a place of the list. -/
def release (turns : Nat) (pool : Pool) (k : Nat) (rect : Rectangle) : Outcome Pool := do
  let empty ← (if pool.type = .bottomLeftSkylineImproved then do
      let empty ← skylineListUpdateDuplicate turns (skylineMergeList pool.empty rect)
      (pool.head.eraseIdx k).foldlM (skylineListUpdate turns) empty
    else mergeList turns pool.type pool.empty rect)
  return pool.released k empty

/-- A request, or the release of the live rectangle at a place of the list. -/
inductive Op where
  | request (w h : Int)
  | release (k : Nat)

/-- One call; there is none to make where no rectangle is live at the place. -/
def step (turns : Nat) (pool : Pool) : Op → Outcome (Pool × Option Rectangle)
  | .request w h => request turns pool w h
  | .release k =>
    match pool.head[k]? with
    | none => .returns (pool, none)
    | some rect => do return (← release turns pool k rect, none)

/-- The call returns, with the pool and the granted rectangle. -/
def Step (pool : Pool) (op : Op) (pool' : Pool) (out : Option Rectangle) : Prop :=
  Outcome.Ends (fun turns => step turns pool op) (pool', out)

theorem Step.unique (pool : Pool) (op : Op) (pool' : Pool) (out : Option Rectangle) (pool'' : Pool)
    (out' : Option Rectangle) (h : Step pool op pool' out) (h' : Step pool op pool'' out') :
    pool' = pool'' ∧ out = out' :=
  Prod.mk.inj (Outcome.Ends.unique h h')

theorem step_of_turns (turns : Nat) {pool pool' : Pool} {op : Op} {out : Option Rectangle}
    (h : ∀ n, step (n + turns) pool op = .returns (pool', out)) : Step pool op pool' out := by
  refine ⟨turns, ?_⟩
  intro m hm
  obtain ⟨n, rfl⟩ := Nat.exists_eq_add_of_le' hm
  exact h n

/-- The rectangles in use after a call: what was granted comes in front, what was given back
goes. -/
def use (live : List Rectangle) : Op → Option Rectangle → List Rectangle
  | .request _ _, out => out.toList ++ live
  | .release k, _ => live.eraseIdx k

/-- The rectangles that a run granted and that were not given back in it. -/
def inUse (ops : List Op) (outs : List (Option Rectangle)) : List Rectangle :=
  Runs.told use [] ops outs

variable {turns : Nat} {pool pool' : Pool} {w h : Int} {out : Option Rectangle}

theorem sortEmpty_fields (pool : Pool) :
    pool.sortEmpty.head = pool.head ∧ pool.sortEmpty.type = pool.type ∧
      pool.sortEmpty.w = pool.w ∧ pool.sortEmpty.h = pool.h ∧
      pool.sortEmpty.references = pool.references := by
  unfold sortEmpty
  split
  · exact ⟨rfl, rfl, rfl, rfl, rfl⟩
  · exact ⟨rfl, rfl, rfl, rfl, rfl⟩

theorem request_use (h' : request turns pool w h = .returns (pool', out)) :
    pool'.head = out.toList ++ pool.head := by
  unfold request at h'
  split at h'
  · obtain ⟨⟩ := h'
    rfl
  split at h'
  · obtain ⟨⟩ := h'
    rfl
  obtain ⟨empty, -, h'⟩ := Outcome.bind_eq_returns.mp h'
  obtain ⟨⟨empty', x, y⟩, -, h'⟩ := Outcome.bind_eq_returns.mp h'
  dsimp only at h'
  split at h'
  · obtain ⟨⟩ := h'
    exact (sortEmpty_fields pool).1
  · obtain ⟨empty'', -, h'⟩ := Outcome.bind_eq_returns.mp h'
    obtain ⟨⟩ := h'
    rfl

/-- **What a call does to the list of allocations** is what its answer says. -/
theorem step_use (pool : Pool) (op : Op) (pool' : Pool) (out : Option Rectangle)
    (h : Step pool op pool' out) : pool'.head = use pool.head op out := by
  obtain ⟨n, hn⟩ := h
  have hstep := hn n (le_refl n)
  cases op with
  | request w h => exact request_use hstep
  | release k =>
    unfold step at hstep
    dsimp only at hstep
    cases hk : pool.head[k]? with
    | none =>
      rw [hk] at hstep
      obtain ⟨⟩ := hstep
      exact (List.eraseIdx_of_length_le (List.getElem?_eq_none_iff.mp hk)).symm
    | some rect =>
      rw [hk] at hstep
      obtain ⟨released, hrelease, hreturn⟩ := Outcome.bind_eq_returns.mp hstep
      obtain ⟨⟩ := hreturn
      obtain ⟨empty, -, hreturn⟩ := Outcome.bind_eq_returns.mp hrelease
      obtain ⟨⟩ := hreturn
      rfl

/-- A pool of 64 by 64. -/
def sized64 (type : Packing) (head empty : List Rectangle) (bucketCount : Nat) : Pool :=
  ⟨head, empty, cmpBl, bucketCount, type, head.length, 64, 64, false⟩

/-- Three rectangles are granted, the second one is given back, and another one is granted. -/
def grantedAgain : List Op :=
  [.request 16 16, .request 8 32, .request 20 10, .release 1, .request 8 20]

theorem run_use {ops : List Op} {outs : List (Option Rectangle)} (hnone : pool.head = [])
    (h : Runs.Traces Step pool ops pool' outs) : pool'.head = inUse ops outs := by
  have htold := Runs.traces_told step_use ops pool pool' outs h
  rw [hnone] at htold
  exact htold

end Pool

end Eina.Rectangle
