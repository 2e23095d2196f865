/-
`Eina_QuadTree`: items in a binary tree of halves of a canvas, and the list of those that
collide with a target.

An item is told by its address, and its node by the path from the root, `true` for `right`.  An
inline list is the list of its items; an item has one set of links for all the inline lists, so
`links` says which of them its links were written for last, and a list whose items are not all
linked in it any more cannot be walked.  A callback sees the object an item has at its call.

Memory for nodes is always there and its reuse leaves no trace.  Memory for items that goes back
to the pool is not handed out again.
-/
import Efl.Eina.Rectangle.Basic
import Efl.Eina.List.Sort
import Mathlib.Data.Int.Init

namespace Eina

namespace QuadTree

/-- `Eina_Quad_Direction` -/
inductive Direction where
  | left
  | right
  | both
  deriving DecidableEq

abbrev Id := Nat

/-- The way to a node from the root, `true` for `right`. -/
abbrev Path := List Bool

/-- `Eina_QuadTree_Item` -/
structure Item (Ω : Type) where
  object : Ω
  index : Nat
  change : Bool
  deleteMe : Bool
  visible : Bool
  hidden : Bool
  root : Option Path

/-- `Eina_QuadTree_Root` -/
inductive Root where
  | nil
  | node (left right : Root) (both : List Id) (sorted : Bool)
  deriving DecidableEq

/-- What the links of an item were written for last. -/
inductive Links where
  | change
  | cached
  | trash
  deriving DecidableEq

/-- The callbacks `func.v` and `func.h`. -/
structure Callbacks (Ω : Type) where
  v : Ω → Int → Direction
  h : Ω → Int → Direction

end QuadTree

/-- `Eina_QuadTree`; `pool` is the first address the memory pool has not handed out. -/
structure QuadTree (Ω : Type) where
  root : QuadTree.Root
  hidden : List QuadTree.Id
  itemsCount : Nat
  itemsTrash : List QuadTree.Id
  change : List QuadTree.Id
  cached : List QuadTree.Id
  target : Rectangle
  index : Nat
  w : Nat
  h : Nat
  resize : Bool
  lost : Bool
  item : QuadTree.Id → QuadTree.Item Ω
  links : QuadTree.Id → Option QuadTree.Links
  pool : QuadTree.Id

namespace QuadTree

variable {Ω : Type}

/-! ### Items -/

/-- An assignment to fields of an item. -/
def modify (q : QuadTree Ω) (id : Id) (f : Item Ω → Item Ω) : QuadTree Ω :=
  { q with item := fun i => if i = id then f (q.item i) else q.item i }

/-- The links of an item are overwritten. -/
def link (q : QuadTree Ω) (id : Id) (l : Links) : QuadTree Ω :=
  { q with links := fun i => if i = id then some l else q.links i }

/-- `_eina_quadtree_item_cmp` -/
def itemCmp (item : Id → Item Ω) (a b : Id) : Int :=
  if (item a).index = (item b).index then 0
  else if (item b).index < (item a).index then 1
  else -1

/-! ### Lists sorted by the index -/

/-- The loop of `eina_list_search_sorted_near_list`: the place it stops at. -/
def sortedNearLoop (cmp : Id → Int) (list : List Id) : Nat → Nat → Nat → Nat × Int → Nat × Int
  | 0, _, _, found => found
  | fuel + 1, inf, sup, found =>
    if sup < inf then found
    else
      let cur := inf + (sup - inf) / 2
      let c := cmp (list.getD cur 0)
      if c = 0 then (cur, c)
      else if c < 0 then sortedNearLoop cmp list fuel (cur + 1) sup (cur, c)
      else if 0 < cur then sortedNearLoop cmp list fuel inf (cur - 1) (cur, c)
      else (cur, c)

/-- `eina_list_search_sorted_near_list` for a list that is not empty. -/
def sortedNear (cmp : Id → Int) (list : List Id) : Nat × Int :=
  if list.length = 1 then (0, cmp (list.getD 0 0))
  else if cmp (list.getD (list.length - 1) 0) ≤ 0 then
    (list.length - 1, cmp (list.getD (list.length - 1) 0))
  else if 0 ≤ cmp (list.getD 0 0) then (0, cmp (list.getD 0 0))
  else if list.length - 2 < 1 then (1, cmp (list.getD 1 0))
  else sortedNearLoop cmp list list.length 1 (list.length - 2) (1, cmp (list.getD 0 0))

/-- `eina_list_sorted_insert` -/
def sortedInsert (item : Id → Item Ω) (list : List Id) (id : Id) : List Id :=
  if list = [] then [id]
  else
    let (place, cmp) := sortedNear (fun i => itemCmp item i id) list
    if cmp < 0 then list.insertIdx (place + 1) id else list.insertIdx place id

/-! ### Nodes -/

namespace Root

def isNil : Root → Bool
  | nil => true
  | node .. => false

/-- `sorted` of the node at a path is unset. -/
def unsort : Path → Root → Root
  | _, nil => nil
  | [], node left right both _ => node left right both false
  | false :: p, node left right both sorted => node (unsort p left) right both sorted
  | true :: p, node left right both sorted => node left (unsort p right) both sorted

/-- The item leaves the node at a path; the node goes when nothing is left of it. -/
@[grind =]
def removeAt (id : Id) : Path → Root → Root
  | _, nil => nil
  | [], node left right both sorted =>
    let both := both.erase id
    if both = [] ∧ left.isNil ∧ right.isNil then nil else node left right both sorted
  | false :: p, node left right both sorted => node (removeAt id p left) right both sorted
  | true :: p, node left right both sorted => node left (removeAt id p right) both sorted

end Root

/-- `_eina_quadtree_remove` -/
def remove (q : QuadTree Ω) (id : Id) : QuadTree Ω :=
  match (q.item id).root with
  | none => q
  | some p => { q with root := Root.removeAt id p q.root }.modify id fun i =>
    { i with root := none }

/-- `eina_quadtree_del` -/
def del (q : QuadTree Ω) (id : Id) : QuadTree Ω :=
  let q := q.remove id
  if (q.item id).change then q.modify id fun i => { i with deleteMe := true, visible := true }
  else
    let q := if (q.item id).hidden then { q with hidden := q.hidden.erase id } else q
    if 256 < q.itemsCount then q.link id .trash
    else { q with itemsCount := q.itemsCount + 1, itemsTrash := id :: q.itemsTrash }.link id .trash

/-- `eina_quadtree_change` -/
def changed (q : QuadTree Ω) (id : Id) : QuadTree Ω × Bool :=
  if (q.item id).deleteMe ∨ ¬(q.item id).visible then (q, false)
  else if q.resize then (q, true)
  else
    let q := if (q.item id).change then q else { q with change := q.change ++ [id] }.link id .change
    ((q.modify id fun i => { i with change := true }).remove id, true)

/-- `eina_quadtree_hide` -/
def hide (q : QuadTree Ω) (id : Id) : QuadTree Ω :=
  q.modify id fun i => { i with visible := false }

/-- `eina_quadtree_show` -/
def shown (q : QuadTree Ω) (id : Id) : QuadTree Ω × Bool :=
  let q := { q with lost := true }
  if (q.item id).visible then (q, true)
  else
    let q := q.modify id fun i => { i with visible := true }
    if (q.item id).change then (q, true) else q.changed id

/-- `eina_quadtree_increase` -/
def increase (q : QuadTree Ω) (id : Id) : QuadTree Ω :=
  let tmp := q.index
  let q := { q with index := q.index + 1 }
  if (q.item id).index = tmp then q
  else
    let q := q.modify id fun i => { i with index := tmp }
    match (q.item id).root with
    | none => q
    | some p => { q with root := Root.unsort p q.root }

/-- `eina_quadtree_new`; `memory` is what the memory for items holds. -/
def new (memory : Id → Item Ω) (w h : Nat) : Option (QuadTree Ω) :=
  if h = 0 ∨ w = 0 then none
  else
    some
      { root := .nil, hidden := [], itemsCount := 0, itemsTrash := [], change := [], cached := [],
        target := ⟨0, 0, 0, 0⟩, index := 0, w := w, h := h, resize := false, lost := true,
        item := memory, links := fun _ => none, pool := 0 }

/-- Memory for an item, from the trash or from the pool. -/
def alloc (q : QuadTree Ω) : QuadTree Ω × Id :=
  match q.itemsTrash with
  | [] => ({ q with pool := q.pool + 1 }, q.pool)
  | id :: trash => ({ q with itemsTrash := trash, itemsCount := q.itemsCount - 1 }, id)

/-- `eina_quadtree_add` -/
def add (q : QuadTree Ω) (object : Ω) : QuadTree Ω × Id :=
  let (q, id) := q.alloc
  let item : Item Ω :=
    { object := object, index := q.index, change := true, deleteMe := false, visible := true,
      hidden := false, root := none }
  let q := { q with index := q.index + 1 }.modify id fun _ => item
  ({ q with change := q.change ++ [id] }.link id .change, id)

/-- `eina_quadtree_resize` -/
def resized (q : QuadTree Ω) (w h : Nat) : QuadTree Ω :=
  if q.w = w ∧ q.h = h then q else { q with resize := true, w := w, h := h }

/-- `eina_quadtree_cycle` -/
def cycle (q : QuadTree Ω) : QuadTree Ω := { q with index := 0 }

/-! ### Bringing the tree up to date -/

/-- What `eina_quadtree_root_rebuild_pre` does with an item. -/
def rebuildItem (q : QuadTree Ω) (id : Id) : QuadTree Ω :=
  if (q.item id).visible then { q with change := q.change ++ [id] }.link id .change
  else if ¬(q.item id).hidden then
    { q with hidden := q.hidden ++ [id] }.modify id fun i => { i with hidden := true, root := none }
  else q

/-- `eina_quadtree_root_rebuild_pre` -/
def rebuildPre (q : QuadTree Ω) : Root → QuadTree Ω
  | .nil => q
  | .node left right both _ => rebuildPre (rebuildPre (both.foldl rebuildItem q) left) right

/-- `middle` in a direction, `true` for horizontal. -/
def middle (direction : Bool) (size : Rectangle) : Int :=
  if direction then size.w.tdiv 2 else size.h.tdiv 2

/-- The part of `size` for the `left` node, or for the `right` one. -/
def half (direction right : Bool) (size : Rectangle) : Rectangle :=
  let m := middle direction size
  match direction, right with
  | true, false => { size with w := size.w - m }
  | true, true => { size with x := size.x + m, w := size.w - m }
  | false, false => { size with h := size.h - m }
  | false, true => { size with y := size.y + m, h := size.h - m }

/-- The callback for a direction, at the line in the middle of `size`. -/
def Callbacks.classify (cb : Callbacks Ω) (direction : Bool) (size : Rectangle) (object : Ω) :
    Direction :=
  if direction then cb.h object (size.x + middle direction size)
  else cb.v object (size.y + middle direction size)

/-- The lists `_eina_quadtree_split` fills. -/
structure Split (Ω : Type) where
  q : QuadTree Ω
  both : List Id
  left : List Id
  right : List Id

/--
What `_eina_quadtree_split` does with an object.  There is no `classify` where the middle is
at most 4; then the object goes into the node at `path`.
-/
def splitItem (classify : Option (Ω → Direction)) (path : Path) (sorted : Bool) (s : Split Ω)
    (id : Id) : Split Ω :=
  let q := s.q.modify id fun i => { i with change := false }
  if ¬(q.item id).visible then
    if ¬(q.item id).hidden then
      { s with
        q := { q with hidden := q.hidden ++ [id] }.modify id fun i => { i with hidden := true } }
    else { s with q := q }
  else
    let q :=
      if (q.item id).hidden then
        { q with hidden := q.hidden.erase id }.modify id fun i => { i with hidden := false }
      else q
    if (q.item id).deleteMe then { s with q := q.del id }
    else
      match classify with
      | none =>
        { s with
          q := q.modify id fun i => { i with root := some path }
          both := if sorted then sortedInsert q.item s.both id else s.both ++ [id] }
      | some classify =>
        match classify (q.item id).object with
        | .left => { s with q := q.link id .change, left := s.left ++ [id] }
        | .right => { s with q := q.link id .change, right := s.right ++ [id] }
        | .both =>
          { s with
            q := q.modify id fun i => { i with root := some path }
            both := s.both ++ [id] }

namespace Root

def left : Root → Root
  | nil => nil
  | node left _ _ _ => left

def right : Root → Root
  | nil => nil
  | node _ right _ _ => right

def both : Root → List Id
  | nil => []
  | node _ _ both _ => both

/-- `sorted` of a node; a new node is sorted. -/
def sorted : Root → Bool
  | nil => true
  | node _ _ _ sorted => sorted

end Root

theorem half_smaller {direction right : Bool} {size : Rectangle} (h : 4 < middle direction size) :
    (half direction right size).w.toNat + (half direction right size).h.toNat <
      size.w.toNat + size.h.toNat := by
  unfold middle at h
  unfold half middle
  have hdiv (n : Int) (hn : 4 < n.tdiv 2) : 4 < n / 2 ∧ n.tdiv 2 = n / 2 := by
    have hpos : 0 ≤ n := by
      by_contra hneg
      have heq : (-n).tdiv 2 = -n / 2 := Int.tdiv_eq_ediv_of_nonneg (by omega)
      rw [Int.neg_tdiv] at heq
      omega
    have heq : n.tdiv 2 = n / 2 := Int.tdiv_eq_ediv_of_nonneg hpos
    exact ⟨by omega, heq⟩
  cases direction with
  | true =>
    obtain ⟨hm, heq⟩ := hdiv size.w (by simpa using h)
    cases right <;> simp only [if_true] <;> omega
  | false =>
    obtain ⟨hm, heq⟩ := hdiv size.h (by simpa using h)
    cases right <;> simp only <;> omega

/-- `_eina_quadtree_update`; the node at `path` is `root`. -/
def update (cb : Callbacks Ω) (q : QuadTree Ω) (path : Path) (root : Root) (objects : List Id)
    (direction : Bool) (size : Rectangle) : QuadTree Ω × Root :=
  if objects = [] then (q, root)
  else if h : middle direction size ≤ 4 then
    let s := objects.foldl (splitItem none path root.sorted) ⟨q, root.both, [], []⟩
    (s.q, .node root.left root.right s.both root.sorted)
  else
    let s := objects.foldl (splitItem (some (cb.classify direction size)) path root.sorted)
      ⟨q, root.both, [], []⟩
    let (q, left) := update cb s.q (path ++ [false]) root.left s.left (!direction)
      (half direction false size)
    let (q, right) := update cb q (path ++ [true]) root.right s.right (!direction)
      (half direction true size)
    (q, .node left right s.both root.sorted)
  termination_by size.w.toNat + size.h.toNat
  decreasing_by
    · exact half_smaller (Int.not_le.mp h)
    · exact half_smaller (Int.not_le.mp h)

/-! ### Colliding -/

/-- The first loop of `_eina_quadtree_merge`: the list up to its end, and what is left of `both`. -/
def mergeLoop (item : Id → Item Ω) : List Id → List Id → List Id × List Id
  | [], both => ([], both)
  | m :: moving, [] => (m :: moving, [])
  | m :: moving, b :: both =>
    if ¬(item b).visible then mergeLoop item (m :: moving) both
    else if itemCmp item m b < 0 then
      let (list, rest) := mergeLoop item moving (b :: both)
      (m :: list, rest)
    else
      let (list, rest) := mergeLoop item (m :: moving) both
      (b :: list, rest)
  termination_by moving both => moving.length + both.length

/-- The second loop: items are linked before the last one, as long as it is not less. -/
def mergeLast (item : Id → Item Ω) (last : Id) : List Id → List Id → List Id × List Id
  | front, [] => (front, [])
  | front, b :: both =>
    if ¬(item b).visible then mergeLast item last front both
    else if itemCmp item last b < 0 then (front, b :: both)
    else mergeLast item last (front ++ [b]) both

/-- `_eina_quadtree_merge` -/
def merge (item : Id → Item Ω) (result both : List Id) : List Id :=
  if result = [] then both.filter fun b => (item b).visible
  else
    let (list, rest) := mergeLoop item result both
    match list.getLast? with
    | none => rest.filter fun b => (item b).visible
    | some last =>
      let (front, rest) := mergeLast item last list.dropLast rest
      front ++ [last] ++ rest.filter fun b => (item b).visible

/-- Whether a half is on the way to the target. -/
def meets (direction right : Bool) (size target : Rectangle) : Bool :=
  let part := half direction right size
  if direction then Rectangle.spansIntersect part.x part.w target.x target.w
  else Rectangle.spansIntersect part.y part.h target.y target.h

/-- `both` as a collision goes through it. -/
def ordered (item : Id → Item Ω) (both : List Id) (sorted : Bool) : List Id :=
  if sorted then both else Lists.sort (itemCmp item) both

/-- `_eina_quadtree_collide`: the result, and the tree with the nodes it sorted. -/
@[grind =]
def collideTree (item : Id → Item Ω) (result : List Id) (direction : Bool)
    (size target : Rectangle) : Root → List Id × Root
  | .nil => (result, .nil)
  | .node left right both sorted =>
    let both := ordered item both sorted
    let result := merge item result both
    let (result, left) :=
      if meets direction false size target then
        collideTree item result (!direction) (half direction false size) target left
      else (result, left)
    let (result, right) :=
      if meets direction true size target then
        collideTree item result (!direction) (half direction true size) target right
      else (result, right)
    (result, .node left right both true)

/-- A `size_t` assigned to an `int`. -/
def toInt (n : Nat) : Int := Int.bmod n 4294967296

def canvas (q : QuadTree Ω) : Rectangle := ⟨0, 0, toInt q.w, toInt q.h⟩

/-- The tree is emptied for a new size. -/
def emptied (q : QuadTree Ω) : QuadTree Ω :=
  if q.resize then { q.rebuildPre q.root with root := .nil, resize := false } else q

/-- The change list goes into the tree. -/
def updated (cb : Callbacks Ω) (q : QuadTree Ω) : QuadTree Ω :=
  if q.change = [] then q
  else
    let (q, root) := update cb q [] q.root q.change false q.canvas
    { q with root := root, change := [], lost := true }

/-- The first half of `eina_quadtree_collide`: the tree is brought up to date. -/
def refresh (cb : Callbacks Ω) (q : QuadTree Ω) : QuadTree Ω := q.emptied.updated cb

/-- The target of `eina_quadtree_collide`. -/
def aim (q : QuadTree Ω) (target : Rectangle) : QuadTree Ω :=
  if q.target = target then q else { q with target := target, lost := true }

/-- All links of a list. -/
def linkAll (q : QuadTree Ω) (ids : List Id) (l : Links) : QuadTree Ω :=
  ids.foldl (fun q id => q.link id l) q

/-- `eina_quadtree_collide` -/
def collide (cb : Callbacks Ω) (q : QuadTree Ω) (target : Rectangle) : QuadTree Ω × List Id :=
  let q := (q.refresh cb).aim target
  let q :=
    if q.lost then
      let (cached, root) := collideTree q.item [] false q.canvas q.target q.root
      { q with root := root, cached := cached, lost := false }.linkAll cached .cached
    else q
  (q, q.cached)

end QuadTree

end Eina
