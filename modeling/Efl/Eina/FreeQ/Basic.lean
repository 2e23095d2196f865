/-
`eina_freeq.c`: pointers whose free function is called later.

The items stand in a linked list of blocks of fixed size, each with a cursor where it is read and
one where it is written.  A free function is a part of the program, and may add pointers to the
queue that calls it, since the lock is recursive.  So a call goes on until a free function is
called, and what is left of it waits on a stack until that returns (`Op.ret`).

`added` and `freed` record the items as they were added and passed to their free functions.  What
`malloc` answers is an argument of the call; an access to a block that was given back, or to an
item that was not written, is undefined.
-/
import Mathlib.Data.BitVec

namespace Eina

open Function

namespace FreeQ

abbrev Addr := Nat

/-- `ITEM_BLOCK_COUNT` -/
def itemBlockCount : Nat := 2730

/-- `struct _Eina_FreeQ_Item` -/
structure Item where
  ptr : Addr
  freeFunc : Nat
  size : BitVec 64
deriving DecidableEq

/-- `struct _Eina_FreeQ_Block`; `end` is how many items were written. -/
structure Block where
  start : Nat
  items : List Item
  next : Option Addr
deriving DecidableEq

end FreeQ

open FreeQ

/-- `struct _Eina_FreeQ`, with the blocks that are allocated. -/
structure FreeQ where
  count : Int
  countMax : Int
  memMax : BitVec 64
  memTotal : BitVec 64
  blocks : Option Addr
  blockLast : Option Addr
  bypass : Bool
  postponed : Bool
  block : Addr → Option Block

namespace FreeQ

/-- `_eina_freeq_new_default` -/
def newDefault (countMax : Int) (memMax : BitVec 64) (bypass : Bool) : FreeQ :=
  ⟨0, countMax, memMax, 0, none, none, bypass, false, fun _ => none⟩

/-- `_eina_freeq_new_postponed` -/
def newPostponed : FreeQ := ⟨0, -1, 0, 0, none, none, false, true, fun _ => none⟩

/-- `free`, which is the free function where none is given. -/
def free : Nat := 0

/-! ### Blocks -/

/-- `fb->next = next` -/
def setNext (fq : FreeQ) (a : Addr) (next : Option Addr) : Option FreeQ :=
  (fq.block a).map fun fb =>
    { fq with block := update fq.block a (some { fb with next := next }) }

/-- `_eina_freeq_block_append`; `none` is an undefined access, `false` a refused request. -/
def blockAppend (fq : FreeQ) (mem : Option Addr) : Option (FreeQ × Bool) :=
  match mem with
  | none => some (fq, false)
  | some a =>
    let fq := { fq with block := update fq.block a (some ⟨0, [], none⟩) }
    match fq.blocks with
    | none => some ({ fq with blocks := some a, blockLast := some a }, true)
    | some _ => fq.blockLast.bind fun last =>
      (fq.setNext last (some a)).map fun fq => ({ fq with blockLast := some a }, true)

/-- An item is written behind the last one of the last block. -/
def itemAppend (fq : FreeQ) (it : Item) : Option FreeQ :=
  fq.blockLast.bind fun a => (fq.block a).map fun fb =>
    { fq with
      block := update fq.block a (some { fb with items := fb.items ++ [it] }),
      count := fq.count + 1,
      memTotal := fq.memTotal + it.size }

/-- There is no last block, or it is full. -/
def needsBlock (fq : FreeQ) : Option Bool :=
  match fq.blockLast with
  | none => some true
  | some a => (fq.block a).map fun fb => fb.items.length == itemBlockCount

/-- What `_eina_freeq_process` does until it calls the free function. -/
def processBegin (fq : FreeQ) : Option (Option (Addr × Item)) :=
  match fq.blocks with
  | none => some none
  | some a => (fq.block a).bind fun fb => fb.items[fb.start]?.map fun it => some (a, it)

/-- What it does with the block `a` after that function has returned. -/
def processEnd (fq : FreeQ) (a : Addr) : Option FreeQ :=
  (fq.block a).bind fun fb => fb.items[fb.start]?.map fun it =>
    let fb := { fb with start := fb.start + 1 }
    let fq := { fq with memTotal := fq.memTotal - it.size, count := fq.count - 1 }
    if fb.start = fb.items.length then
      { fq with
        blocks := fb.next
        blockLast := if fb.next = none then none else fq.blockLast
        block := update fq.block a none }
    else { fq with block := update fq.block a (some fb) }

/-! ### Loops -/

/-- The loops that process items; `reduce` counts down. -/
inductive Loop where
  | flush
  | clear
  | reduce (count : Int)
deriving DecidableEq

def Loop.test (fq : FreeQ) : Loop → Bool
  | .flush => !fq.postponed && (decide (fq.countMax < fq.count) || decide (fq.memMax < fq.memTotal))
  | .clear => decide (0 < fq.count)
  | .reduce count => decide (0 < fq.count) && decide (0 < count)

def Loop.next : Loop → Loop
  | .reduce count => .reduce (count - 1)
  | loop => loop

/-- What waits for a free function to return. -/
inductive Frame where
  | process (a : Addr) (loop : Loop)
  | direct
deriving DecidableEq

/-- A queue that is used. -/
structure World where
  fq : FreeQ
  stack : List Frame
  added : List Item
  freed : List Item
  /-- `eina_freeq_clear` has just returned. -/
  cleared : Bool

inductive Op where
  | ptrAdd (ptr : Option Addr) (freeFunc : Option Nat) (size : BitVec 64) (mem : Option Addr)
  | countMaxSet (count : Int)
  | memMaxSet (mem : BitVec 64)
  | clear
  | reduce (count : Int)
  | ret

namespace World

def new (fq : FreeQ) : World := ⟨fq, [], [], [], false⟩

/-- A free function is called: the answer is its item. -/
def call (w : World) (frame : Frame) (it : Item) : World × Option Item :=
  ({ w with stack := frame :: w.stack, freed := w.freed ++ [it] }, some it)

/-- A loop goes on until it calls a free function or ends.  Without a block nothing is done in it,
and a loop that does not count down never ends. -/
def enter (w : World) (loop : Loop) : Option (World × Option Item) :=
  if loop.test w.fq then
    (processBegin w.fq).bind fun begun =>
      match begun, loop with
      | some (a, it), loop => some (w.call (.process a loop) it)
      | none, .reduce _ => some (w, none)
      | none, _ => none
  else some ({ w with cleared := loop == .clear }, none)

/-- `eina_freeq_ptr_add` for a pointer that is not NULL. -/
def ptrAdd (w : World) (it : Item) (mem : Option Addr) : Option (World × Option Item) :=
  let w := { w with added := w.added ++ [it] }
  if w.fq.bypass then some (w.call .direct it)
  else
    w.fq.needsBlock.bind fun needs =>
      (if needs then w.fq.blockAppend mem else some (w.fq, true)).bind fun (fq, ok) =>
        let w := { w with fq := fq }
        if ok then
          if fq.count + 1 < 2 ^ 31 then
            (fq.itemAppend it).bind fun fq => { w with fq := fq }.enter .flush
          else none
        else if fq.postponed then some (w, none)
        else some (w.call .direct it)

/-- A call, or the return of the free function that runs. -/
def step (w : World) (op : Op) : Option (World × Option Item) :=
  let w := { w with cleared := false }
  match op with
  | .ptrAdd none _ _ _ => some (w, none)
  | .ptrAdd (some ptr) freeFunc size mem => w.ptrAdd ⟨ptr, freeFunc.getD free, size⟩ mem
  | .countMaxSet count =>
    if w.fq.postponed then some (w, none)
    else
      let count := if count < 0 then -1 else count
      { w with fq := { w.fq with bypass := false, countMax := count } }.enter .flush
  | .memMaxSet mem =>
    if w.fq.postponed then some (w, none)
    else { w with fq := { w.fq with bypass := false, memMax := mem } }.enter .flush
  | .clear => w.enter .clear
  | .reduce count => w.enter (.reduce count)
  | .ret =>
    match w.stack with
    | [] => none
    | .direct :: stack => some ({ w with stack := stack }, none)
    | .process a loop :: stack =>
      (processEnd w.fq a).bind fun fq => { w with fq := fq, stack := stack }.enter loop.next

end World

end FreeQ

end Eina
