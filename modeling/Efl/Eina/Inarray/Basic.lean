/-
Inline arrays.

The members lie one behind the other in a block of the heap.  All the fields are 32-bit numbers,
so that a length, a size in bytes or an offset wraps around.  The block is asked for with
`realloc` as the C library of the target has it: a block that shall have no bytes is given back.
A datum is given by its bytes.
-/
import Efl.Lib.CMemory

namespace Eina.Inarray

open CMemory

/-- The number of values of an `unsigned int`. -/
def word : Nat := 2 ^ 32

theorem word_pos : 0 < word := by decide

/-- An `unsigned int` that is returned as an `int`. -/
def toInt (n : Nat) : Int := if n < 2 ^ 31 then (n : Int) else (n : Int) - word

/-- `_Eina_Inarray` -/
structure EinaInarray where
  memberSize : Nat
  len : Nat
  max : Nat
  step : Nat
  members : Option Nat

structure World where
  heap : Heap
  array : EinaInarray

/-- A pointer: a block, or `NULL`, and an offset. -/
abbrev Address := Option Nat × Nat

def null : Address := (none, 0)

/-- A comparison callback is given two members. -/
abbrev CompareCb := List Cell → List Cell → Int

namespace EinaInarray

variable (a : EinaInarray)

/-- `_eina_inarray_setup` -/
def setup (memberSize step : Nat) : EinaInarray where
  memberSize := memberSize
  len := 0
  max := 0
  step := if 0 < step then step else 32
  members := none

/-- The `new_max` of `_eina_inarray_resize` -/
def newMax (newSize : Nat) : Nat :=
  if newSize % a.step = 0 then newSize else ((newSize / a.step + 1) * a.step) % word

/-- The `offset` of `_eina_inarray_get` -/
def offset (position : Nat) : Nat := (position * a.memberSize) % word

end EinaInarray

/-- `realloc` -/
def realloc (h : Heap) (p : Option Nat) (n : Nat) : Option (Heap × Option Nat) :=
  if p.isSome ∧ n = 0 then (h.free p).map fun h => (h, none) else h.realloc p n

namespace World

variable (w : World)

/-- `_eina_inarray_resize` -/
def resizeMembers (newSize : Nat) : Option (World × Bool) :=
  if newSize < w.array.max then some (w, true)
  else
    let newMax := w.array.newMax newSize
    (realloc w.heap w.array.members ((newMax * w.array.memberSize) % word)).map fun r =>
      if r.2 = none ∧ 0 < newMax then ({ w with heap := r.1 }, false)
      else (⟨r.1, { w.array with members := r.2, max := newMax }⟩, true)

/-- `_eina_inarray_get` -/
def get (position : Nat) : Address := (w.array.members, w.array.offset position)

/-- The member at a position. -/
def member (position : Nat) : Option (List Cell) :=
  w.heap.read w.array.members (w.array.offset position) w.array.memberSize

/-- A datum is copied to a position. -/
def copyTo (position : Nat) (data : List Cell) : Option World :=
  (w.heap.write w.array.members (w.array.offset position) data).map fun h => { w with heap := h }

/-- The members from a position on move up, to make room for `count` ones. -/
def moveUp (position count : Nat) : Option World :=
  if position < w.array.len then
    let sz := w.array.memberSize
    let p := w.array.offset position
    (w.heap.move w.array.members (p + (count * sz) % word) p
      (((w.array.len - position) * sz) % word)).map fun h => { w with heap := h }
  else some w

/-- The length changes by what was added to it. -/
def setLen (len : Nat) : World := { w with array := { w.array with len := len } }

/-- `eina_inarray_resize` -/
def resize (newSize : Nat) : Option (World × Bool) :=
  (w.resizeMembers newSize).map fun r => if r.2 then (r.1.setLen newSize, true) else (r.1, false)

/-- `eina_inarray_push` -/
def push (data : List Cell) : Option (World × Int) :=
  let len := (w.array.len + 1) % word
  (w.resizeMembers len).bind fun r =>
    if r.2 then
      (r.1.copyTo r.1.array.len data).map fun w => (w.setLen len, toInt ((len + word - 1) % word))
    else some (r.1, -1)

/-- `eina_inarray_grow` -/
def grow (size : Nat) : Option (World × Address) :=
  if size = 0 then some (w, null)
  else
    let len := (w.array.len + size) % word
    (w.resizeMembers len).map fun r =>
      if r.2 then (r.1.setLen len, r.1.get w.array.len) else (r.1, null)

/-- `eina_inarray_insert_at` -/
def insertAt (position : Nat) (data : List Cell) : Option (World × Bool) :=
  if w.array.len < position then some (w, false)
  else
    let len := (w.array.len + 1) % word
    (w.resizeMembers len).bind fun r =>
      if r.2 then
        (r.1.moveUp position 1).bind fun w =>
          (w.copyTo position data).map fun w => (w.setLen len, true)
      else some (r.1, false)

/-- `eina_inarray_alloc_at` -/
def allocAt (position memberCount : Nat) : Option (World × Address) :=
  if w.array.len < position then some (w, null)
  else if memberCount = 0 then some (w, null)
  else
    let len := (w.array.len + memberCount) % word
    (w.resizeMembers len).bind fun r =>
      if r.2 then
        (r.1.moveUp position memberCount).map fun w => (w.setLen len, w.get position)
      else some (r.1, null)

/-! ### Searching -/

variable (data : List Cell) (compare : CompareCb)

/-- The loop of `_eina_inarray_search` -/
def searchFrom (pos : Nat) : Option Int :=
  if pos < w.array.len then
    (w.member pos).bind fun p =>
      if compare data p = 0 then some (toInt pos) else searchFrom (pos + 1)
  else some (-1)
termination_by w.array.len - pos

/-- `eina_inarray_search` -/
def search : Option Int := w.searchFrom data compare 0

/-- The loop of `_eina_inarray_search_sorted_near` -/
def nearLoop (start last : Nat) : Option (Nat × Int) :=
  let middle := start + (last - start) / 2
  (w.member middle).bind fun p =>
    let cmp := compare data p
    if cmp = 0 then some (middle, cmp)
    else if 0 < cmp then
      if middle + 1 ≤ last then nearLoop (middle + 1) last else some (middle, cmp)
    else if 0 < middle then
      if start ≤ middle - 1 then nearLoop start (middle - 1) else some (middle, cmp)
    else some (middle, cmp)
termination_by last + 1 - start

/-- `_eina_inarray_search_sorted_near`: the last probe and how the datum compared to it. -/
def searchSortedNear : Option (Nat × Int) :=
  if w.array.len = 0 then some (0, -1)
  else if w.array.len = 1 then
    (w.heap.read w.array.members 0 w.array.memberSize).map fun p => (0, compare data p)
  else w.nearLoop data compare 0 (w.array.len - 1)

/-- `eina_inarray_search_sorted` -/
def searchSorted : Option Int :=
  (w.searchSortedNear data compare).map fun r => if r.2 = 0 then toInt r.1 else -1

/-- The loop of `eina_inarray_insert`, from an offset on: where the first larger member is. -/
def largerFrom (itr end' : Nat) : Option (Option Nat) :=
  if itr < end' ∧ 0 < w.array.memberSize then
    (w.heap.read w.array.members itr w.array.memberSize).bind fun p =>
      if compare p data ≤ 0 then largerFrom (itr + w.array.memberSize) end' else some (some itr)
  else some none
termination_by end' - itr

/-- `eina_inarray_insert` -/
def insert : Option (World × Int) :=
  let sz := w.array.memberSize
  (w.largerFrom data compare 0 ((w.array.len * sz) % word)).bind fun itr =>
    match itr with
    | some itr =>
      let position := itr % word / sz
      (w.insertAt position data).map fun r => (r.1, if r.2 then toInt position else -1)
    | none => w.push data

/-- `eina_inarray_insert_sorted` -/
def insertSorted : Option (World × Int) :=
  (w.searchSortedNear data compare).bind fun near =>
    let pos := if 0 < near.2 then (near.1 + 1) % word else near.1
    (w.insertAt pos data).map fun r => (r.1, if r.2 then toInt pos else -1)

end World

end Eina.Inarray
