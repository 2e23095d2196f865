/-
Blocks of memory as a C program sees them.

A block is a list of bytes, some of them indeterminate.  An address is a block and an offset;
reading or writing outside of a block, or through a block that was given back, has no result, and
neither has writing to a block that is only to be read.  Which requests for memory are granted is
left open: the heap carries an answer for every request to come, and the number of a request names
the block it is granted.
-/
import Mathlib.Algebra.Group.Nat.Defs
import Mathlib.Data.List.Basic

namespace CMemory

open List Option Function

/-- A byte, or `none` where nothing was stored yet. -/
abbrev Cell := Option UInt8

/-- No object is as large as this. -/
def maxSize : Nat := 2 ^ 63

structure Heap where
  blocks : Nat → Option (List Cell) := fun _ => none
  /-- Blocks that must not be written to or given back. -/
  locked : Nat → Bool := fun _ => false
  granted : Nat → Bool := fun _ => true
  asked : Nat := 0

/-! ### Pieces of a block -/

variable {l : List α} {α : Type}

theorem exists_front {a : Nat} (h : a ≤ l.length) :
    ∃ x y, l = x ++ y ∧ x.length = a := by
  refine ⟨l.take a, l.drop a, (take_append_drop _ _).symm, ?_⟩
  rw [length_take, Nat.min_eq_left h]

theorem exists_split {a b : Nat} (h : a + b ≤ l.length) :
    ∃ x y z, l = x ++ (y ++ z) ∧ x.length = a ∧ y.length = b := by
  refine ⟨l.take a, (l.drop a).take b, (l.drop a).drop b, ?_, ?_, ?_⟩
  · rw [take_append_drop, take_append_drop]
  · rw [length_take]
    omega
  · rw [length_take, length_drop]
    omega

namespace Heap

variable (h : Heap) {h' : Heap}

/-- The heap with other contents of a block. -/
def put (id : Nat) (cells : List Cell) : Heap :=
  { h with blocks := update h.blocks id (some cells) }

/-- A new block with the given contents, where the request is granted. -/
def newBlock (cells : List Cell) : Heap × Option Nat :=
  if h.granted h.asked = true ∧ cells.length < maxSize then
    ({ h.put h.asked cells with asked := h.asked + 1 }, some h.asked)
  else ({ h with asked := h.asked + 1 }, none)

/-- Whether the next request, for `n` bytes, is granted. -/
def Grants (n : Nat) : Prop := h.granted h.asked = true ∧ n < maxSize

instance (n : Nat) : Decidable (h.Grants n) := by
  unfold Grants
  exact inferInstance

def malloc (n : Nat) : Heap × Option Nat := h.newBlock (List.replicate n none)

def calloc (n : Nat) : Heap × Option Nat := h.newBlock (List.replicate n (some 0))

/-- No block that is still to be granted is locked. -/
def Later : Prop := ∀ i, h.asked ≤ i → h.locked i = false

/-- A block that may be changed. -/
def writable (id : Nat) : Option (List Cell) := if h.locked id then none else h.blocks id

/-- `free`, which ignores `NULL`. -/
def free : Option Nat → Option Heap
  | none => some h
  | some id =>
    (h.writable id).map fun _ => { h with blocks := update h.blocks id none }

/-- The first bytes of a block in a block of another size. -/
def resized (cells : List Cell) (n : Nat) : List Cell :=
  cells.take n ++ List.replicate (n - cells.length) none

/-- `realloc`, which leaves the block alone where the request is refused. -/
def realloc (p : Option Nat) (n : Nat) : Option (Heap × Option Nat) :=
  match p with
  | none => some (h.malloc n)
  | some id =>
    (h.writable id).map fun cells =>
      if h.granted h.asked = true ∧ n < maxSize then
        let kept := { h with blocks := update h.blocks id none }
        ({ kept.put h.asked (resized cells n) with asked := h.asked + 1 }, some h.asked)
      else ({ h with asked := h.asked + 1 }, none)

/-- The bytes from an offset on. -/
def read (p : Option Nat) (offset n : Nat) : Option (List Cell) :=
  p.bind fun id => (h.blocks id).bind fun cells =>
    if offset + n ≤ cells.length then some ((cells.drop offset).take n) else none

/-- Bytes are stored from an offset on. -/
def write (p : Option Nat) (offset : Nat) (cs : List Cell) : Option Heap :=
  p.bind fun id => (h.writable id).bind fun cells =>
    if offset + cs.length ≤ cells.length then
      some (h.put id (cells.take offset ++ cs ++ cells.drop (offset + cs.length)))
    else none

/-- `memmove` inside of a block. -/
def move (p : Option Nat) (dst src n : Nat) : Option Heap :=
  (h.read p src n).bind (h.write p dst)

/-! ### Frames -/

@[simp] theorem put_self (id : Nat) (cells : List Cell) : (h.put id cells).blocks id = some cells :=
  update_self ..

theorem put_of_ne {id id' : Nat} (hne : id' ≠ id) (cells : List Cell) :
    (h.put id cells).blocks id' = h.blocks id' := update_of_ne hne _ _

@[simp] theorem put_locked (id : Nat) (cells : List Cell) :
    (h.put id cells).locked = h.locked := rfl

theorem writable_eq {id : Nat} (hfree : h.locked id = false) : h.writable id = h.blocks id := by
  rw [writable, hfree]
  rfl

variable {h} in
theorem Later.mono (hl : h.Later) (hlocked : h'.locked = h.locked)
    (hasked : h.asked ≤ h'.asked) : h'.Later := by
  intro i hi
  rw [hlocked]
  exact hl i (Nat.le_trans hasked hi)

@[simp] theorem put_put (id : Nat) (cells cells' : List Cell) :
    (h.put id cells).put id cells' = h.put id cells' := by
  simp [put]

theorem put_eq_self {id : Nat} {cells : List Cell} (hp : h.blocks id = some cells) :
    h.put id cells = h := by
  rw [put, ← hp, update_eq_self]

theorem newBlock_cases (cells : List Cell) :
    (h.granted h.asked = true ∧ cells.length < maxSize ∧ h.newBlock cells =
        ({ h.put h.asked cells with asked := h.asked + 1 }, some h.asked)) ∨
      ((h.granted h.asked = false ∨ maxSize ≤ cells.length) ∧
        h.newBlock cells = ({ h with asked := h.asked + 1 }, none)) := by
  unfold newBlock
  by_cases hc : h.granted h.asked = true ∧ cells.length < maxSize
  · rw [if_pos hc]
    exact .inl ⟨hc.1, hc.2, rfl⟩
  rw [if_neg hc]
  refine .inr ⟨?_, rfl⟩
  by_cases hg : h.granted h.asked = true
  · exact .inr (Nat.le_of_not_lt fun hlt => hc ⟨hg, hlt⟩)
  · exact .inl (by simpa using hg)

theorem realloc_cases {id n : Nat} {cells : List Cell} (hp : h.blocks id = some cells)
    (hfree : h.locked id = false) :
    (n < maxSize ∧ h.realloc (some id) n = some
        ({ Heap.put { h with blocks := update h.blocks id none } h.asked
            (resized cells n) with asked := h.asked + 1 }, some h.asked)) ∨
      ((h.granted h.asked = false ∨ maxSize ≤ n) ∧
        h.realloc (some id) n = some ({ h with asked := h.asked + 1 }, none)) := by
  simp only [realloc, h.writable_eq hfree, hp, map_some]
  by_cases hc : h.granted h.asked = true ∧ n < maxSize
  · rw [if_pos hc]
    exact .inl ⟨hc.2, rfl⟩
  rw [if_neg hc]
  refine .inr ⟨?_, rfl⟩
  by_cases hg : h.granted h.asked = true
  · exact .inr (Nat.le_of_not_lt fun hlt => hc ⟨hg, hlt⟩)
  · exact .inl (by simpa using hg)

@[simp] theorem length_resized (cells : List Cell) (n : Nat) : (resized cells n).length = n := by
  simp only [resized, length_append, length_take, length_replicate]
  omega

theorem resized_append {a b : List Cell} {n : Nat} (hn : a.length ≤ n) :
    ∃ c, resized (a ++ b) n = a ++ c := by
  refine ⟨b.take (n - a.length) ++ replicate (n - (a ++ b).length) none, ?_⟩
  rw [resized, take_append, take_of_length_le hn, append_assoc]

/-! ### Reading and writing a part of a block -/

variable {h} {id offset n : Nat} {a b c cs : List Cell} {p : Option Nat}

theorem read_part (hp : h.blocks id = some (a ++ (b ++ c))) (hoffset : offset = a.length)
    (hn : n = b.length) : h.read (some id) offset n = some b := by
  rw [read, bind_some, hp, bind_some, if_pos]
  · rw [hoffset, hn, drop_left, take_left]
  · rw [hoffset, length_append, length_append]
    omega

theorem write_part (hp : h.blocks id = some (a ++ (b ++ c))) (hfree : h.locked id = false)
    (hoffset : offset = a.length) (hlen : cs.length = b.length) :
    h.write (some id) offset cs = some (h.put id (a ++ (cs ++ c))) := by
  rw [write, bind_some, h.writable_eq hfree, hp, bind_some, if_pos]
  · have hdrop : (a ++ (b ++ c)).drop (offset + cs.length) = c := by
      rw [hoffset, hlen, ← append_assoc, ← length_append, drop_left]
    rw [hdrop, hoffset, take_left, append_assoc]
  · rw [hoffset, length_append, length_append]
    omega

theorem write_cases (hw : h.write p offset cs = some h') :
    ∃ id cells cells', p = some id ∧ h.writable id = some cells ∧
      offset + cs.length ≤ cells.length ∧ cells'.length = cells.length ∧ h' = h.put id cells' := by
  cases p with
  | none => simp [write] at hw
  | some id =>
    cases hcells : h.writable id with
    | none => simp [write, hcells] at hw
    | some cells =>
      rw [write, bind_some, hcells, bind_some] at hw
      by_cases hfits : offset + cs.length ≤ cells.length
      · rw [if_pos hfits] at hw
        refine ⟨id, cells, _, rfl, hcells, hfits, ?_, (some.inj hw).symm⟩
        simp only [length_append, length_take, length_drop]
        omega
      · exact absurd (if_neg hfits ▸ hw) (by simp)

theorem read_length (hr : h.read p offset n = some cs) : cs.length = n := by
  cases p with
  | none => simp [read] at hr
  | some id =>
    cases hcells : h.blocks id with
    | none => simp [read, hcells] at hr
    | some cells =>
      rw [read, bind_some, hcells, bind_some] at hr
      by_cases hfits : offset + n ≤ cells.length
      · rw [if_pos hfits] at hr
        rw [← some.inj hr, length_take, length_drop]
        omega
      · exact absurd (if_neg hfits ▸ hr) (by simp)

end Heap

end CMemory
