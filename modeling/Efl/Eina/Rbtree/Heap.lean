/-
`eina_rbtree.c` over memory.

A node is a record with two son pointers and a colour bit, so the memory of a tree is a map from
node addresses to such records together with the variable that holds the root.  What the C code
pushes on its stack is the address of a pointer (`&root`, or `q->son + dir`) tagged with a
direction in its low bit; here that is a `Link` and a `Direction`.

A read through a null pointer and a write past the end of `uintptr_t stack[48]` have no value.
-/
import Efl.Lib.RedBlack

namespace Eina.Rbtree

open RedBlack

variable {α : Type}

/-- `struct _Eina_Rbtree` -/
structure Node (α : Type) where
  son : Direction → Option α
  color : Color

/-- The address of a pointer to a node: `&root`, or `p->son + d`. -/
inductive Link (α : Type) where
  | root
  | son (p : α) (d : Direction)
  deriving DecidableEq, Repr

/-- The root variable and the nodes, linked or not. -/
structure Mem (α : Type) where
  root : Option α
  node : α → Node α

namespace Mem

variable [DecidableEq α]

/-- `*r` -/
def get (m : Mem α) : Link α → Option α
  | .root => m.root
  | .son p d => (m.node p).son d

/-- `p->son[d]` -/
def son (m : Mem α) (p : α) (d : Direction) : Option α := (m.node p).son d

/-- `p->color` -/
def color (m : Mem α) (p : α) : Color := (m.node p).color

def setNode (m : Mem α) (p : α) (n : Node α) : Mem α :=
  { m with node := Function.update m.node p n }

/-- `p->son[d] = v` -/
def setSon (m : Mem α) (p : α) (d : Direction) (v : Option α) : Mem α :=
  m.setNode p { m.node p with son := Function.update (m.node p).son d v }

/-- `p->color = c` -/
def setColor (m : Mem α) (p : α) (c : Color) : Mem α :=
  m.setNode p { m.node p with color := c }

/-- `*r = v` -/
def set (m : Mem α) (r : Link α) (v : Option α) : Mem α :=
  match r with
  | .root => { m with root := v }
  | .son p d => m.setSon p d v

/-- `p != NULL && p->color == EINA_RBTREE_RED` -/
def isRed (m : Mem α) : Option α → Bool
  | none => false
  | some p => m.color p == .red

/-- `_eina_rbtree_node_init` -/
def nodeInit (m : Mem α) (p : α) : Mem α :=
  m.setNode p { son := fun _ => none, color := .red }

/-- `_eina_rbtree_inline_single_rotation` -/
def singleRotation (m : Mem α) (node : α) (dir : Direction) : Option (Mem α × α) := do
  let save ← m.son node dir.flip
  let m := m.setSon node dir.flip (m.son save dir)
  let m := m.setSon save dir (some node)
  let m := m.setColor node .red
  let m := m.setColor save .black
  return (m, save)

/-- `_eina_rbtree_inline_double_rotation` -/
def doubleRotation (m : Mem α) (node : α) (dir : Direction) : Option (Mem α × α) := do
  let inner ← m.son node dir.flip
  let (m, save) ← m.singleRotation inner dir.flip
  let m := m.setSon node dir.flip (some save)
  m.singleRotation node dir

/-- The entries of `uintptr_t stack[48]`. -/
def stackSize : Nat := 48

/-! ### `eina_rbtree_inline_insert` -/

/--
"Find insertion leaf": the link to write and the stack, newest entry first.  The
number is the room left in the stack.
-/
def insertSearch (m : Mem α) (cmp : α → α → Direction) (node : α) :
    Nat → Link α → List (Link α × Direction) → Option (Link α × List (Link α × Direction))
  | 0, r, stack =>
    match m.get r with
    | none => some (r, stack)
    | some _ => none
  | room + 1, r, stack =>
    match m.get r with
    | none => some (r, stack)
    | some q => insertSearch m cmp node room (.son q (cmp q node)) ((r, cmp q node) :: stack)

/-- The rotations of the loop, for a black or absent sibling of the red node `a`. -/
def insertRotate (m : Mem α) (r : Link α) (q a : α) (dir : Direction) : Option (Mem α) := do
  if m.isRed (m.son a dir) then
    let (m, top) ← m.singleRotation q dir.flip
    return m.set r (some top)
  else if m.isRed (m.son a dir.flip) then
    let (m, top) ← m.doubleRotation q dir.flip
    return m.set r (some top)
  else return m

/-- What the loop does about a red son `a` of `q`: a change of colours or a rotation. -/
def insertTurn (m : Mem α) (r : Link α) (q a : α) (dir : Direction) : Option (Mem α) :=
  match m.son q dir.flip with
  | some b =>
    if m.color b = .red then
      some (((m.setColor q .red).setColor a .black).setColor b .black)
    else m.insertRotate r q a dir
  | none => m.insertRotate r q a dir

/-- "Rebalance" -/
def insertLoop : List (Link α × Direction) → Mem α → Option (Mem α)
  | [], m => some m
  | (r, dir) :: stack, m => do
    let q ← m.get r
    match m.son q dir with
    | none => return m
    | some a =>
      if m.color a = .black then return m
      else
        let m ← m.insertTurn r q a dir
        insertLoop stack m

/-- `eina_rbtree_inline_insert` -/
def inlineInsert (cmp : α → α → Direction) (m : Mem α) (node : α) : Option (Mem α) := do
  let (r, stack) ← m.insertSearch cmp node stackSize .root []
  let m := (m.set r (some node)).nodeInit node
  let m ← insertLoop stack m
  let root ← m.root
  return m.setColor root .black

/-! ### `eina_rbtree_inline_remove` -/

/-- "Item search loop": nothing inside the outer option when the node is not met. -/
def removeSearch (m : Mem α) (cmp : α → α → Direction) (node : α) :
    Nat → Link α → List (Link α × Direction) →
      Option (Option (Link α × List (Link α × Direction)))
  | 0, rt, stack =>
    match m.get rt with
    | none => some none
    | some r => if r = node then some (some (rt, stack)) else none
  | room + 1, rt, stack =>
    match m.get rt with
    | none => some none
    | some r =>
      if r = node then some (some (rt, stack))
      else removeSearch m cmp node room (.son r (cmp r node)) ((rt, cmp r node) :: stack)

/-- "find predecessor": the link to the node without a left son and the entries pushed. -/
def leftmostSearch (m : Mem α) :
    Nat → Link α → List (Link α × Direction) → Option (Link α × List (Link α × Direction))
  | 0, p, stack => do
    let q ← m.get p
    match m.son q .left with
    | none => some (p, stack)
    | some _ => none
  | room + 1, p, stack => do
    let q ← m.get p
    match m.son q .left with
    | none => some (p, stack)
    | some _ => leftmostSearch m room (.son q .left) ((p, .left) :: stack)

/-- `stack[ss] = entry`, for the part of the stack pushed from index `ss` on. -/
def patchOldest (entry : Link α × Direction) (pushed : List (Link α × Direction)) :
    List (Link α × Direction) :=
  match pushed with
  | [] => []
  | _ => pushed.dropLast ++ [entry]

/-- The loop body from `if (q != NULL)` on: the memory, and whether the loop continues. -/
def removeStep (m : Mem α) (rt : Link α) (r : α) (dir : Direction) : Option (Mem α × Bool) :=
  match m.son r dir.flip with
  | none => some (m, true)
  | some q =>
    let rColor := m.color r
    if m.isRed (m.son q dir.flip) then do
      let node ← m.get rt
      let (m, top) ← m.singleRotation node dir
      finish (m.set rt (some top)) rt rColor
    else if m.isRed (m.son q dir) then do
      let node ← m.get rt
      let (m, top) ← m.doubleRotation node dir
      finish (m.set rt (some top)) rt rColor
    else
      some ((m.setColor r .black).setColor q .red, decide (rColor = .black))
where
  /-- The end of the body after a rotation. -/
  finish (m : Mem α) (rt : Link α) (rColor : Color) : Option (Mem α × Bool) := do
    let r ← m.get rt
    let m := m.setColor r rColor
    let right ← m.son r .right
    let left ← m.son r .left
    return ((m.setColor left .black).setColor right .black, false)

/-- "rebalance" -/
def removeLoop : List (Link α × Direction) → Mem α → Option (Mem α)
  | [], m => some m
  | (rt, dir) :: stack, m => do
    let r ← m.get rt
    if m.isRed (m.son r dir.flip) then
      let (m, top) ← m.singleRotation r dir
      let (m, again) ← removeStep (m.set rt (some top)) (.son top dir) r dir
      if again then removeLoop stack m else some m
    else
      let (m, again) ← removeStep m rt r dir
      if again then removeLoop stack m else some m

/-- The "two links case" and the loop it leads to. -/
def removeDouble (m : Mem α) (node : α) (rt : Link α) (stack : List (Link α × Direction)) :
    Option (Mem α) := do
  guard (stack.length < stackSize)
  let (p, pushed) ← m.leftmostSearch (stackSize - (stack.length + 1)) (.son node .right) []
  let q ← m.get p
  let m' := m.set p (m.son q .right)
  let c := m'.color q
  let m' := (m'.setNode q (m'.node node)).set rt (some q)
  if c = .red then return m'
  else
    removeLoop (patchOldest (.son q .right, .left) pushed ++ (rt, .right) :: stack) m'

/-- The "single link case" and the loop it leads to. -/
def removeSingle (m : Mem α) (node : α) (rt : Link α) (stack : List (Link α × Direction))
    (l0 : Option α) : Option (Mem α) :=
  let m' := m.set rt l0
  if m'.color node = .red then some m'
  else
    match l0 with
    | some l =>
      if m'.color l = .red then some (m'.setColor l .black) else removeLoop stack m'
    | none => removeLoop stack m'

/-- The code under `found:`, up to `end:`. -/
def removeFound (m : Mem α) (node : α) (rt : Link α) (stack : List (Link α × Direction)) :
    Option (Mem α) :=
  match m.son node .left, m.son node .right with
  | some _, some _ => m.removeDouble node rt stack
  | none, l1 => m.removeSingle node rt stack l1
  | l0, none => m.removeSingle node rt stack l0

/-- `eina_rbtree_inline_remove` -/
def inlineRemove (cmp : α → α → Direction) (m : Mem α) (node : α) : Option (Mem α) := do
  match ← m.removeSearch cmp node stackSize .root [] with
  | none => return m
  | some (rt, stack) =>
    let m ← m.removeFound node rt stack
    match m.root with
    | some root => return m.setColor root .black
    | none => return m

end Mem

end Eina.Rbtree
