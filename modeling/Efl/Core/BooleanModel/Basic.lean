/-
`efl_boolean_model.c`: the boolean properties of the children of a model.

The parent of the children keeps the values of one property in ranges of bits, which a red-black
tree sorts by their offsets.  A range holds 2048 bits, but its `length` is the offset of the
last index that `_storage_range_key` finds in it, so that it is taken for 2049 indices; and the
bytes of a new range are filled with the default value itself, which sets one bit of eight.
Memory is granted.
-/
import Efl.Eina.Rbtree.Keyed

namespace Core.BooleanModel

open RedBlack Eina.Rbtree Function

/-- `Efl_Boolean_Model_Storage_Range` -/
structure StorageRange where
  offset : Nat
  length : Nat
  buffer : Nat → BitVec 8

/-- `Efl_Boolean_Model_Value`: a range is told by the number of its allocation. -/
structure Value where
  ranges : Nat → StorageRange := fun _ => ⟨0, 0, fun _ => 0⟩
  allocated : Nat := 0
  buffersRoot : RedBlack.Tree Nat := .nil
  last : Option Nat := none
  defaultValue : Bool

/-- `*default_value`, an `unsigned char` -/
def Value.defaultByte (v : Value) : BitVec 8 := if v.defaultValue then 1 else 0

/-- `_storage_range_cmp` -/
def storageRangeCmp (v : Value) (left right : Nat) : Direction :=
  if (v.ranges left).offset < (v.ranges right).offset then .left else .right

/-- `_storage_range_key` -/
def storageRangeKey (node : StorageRange) (key : Nat) : Int :=
  if node.offset > key then 1
  else if (node.offset + node.length) % 2 ^ 32 < key then -1
  else 0

/-- The range of an index. -/
def Value.find (v : Value) (index : Nat) : Option Nat :=
  inlineLookup (fun n => storageRangeKey (v.ranges n) index) v.buffersRoot

/-- The body of the loop of `_storage_lookup`: one more range, behind the last one. -/
def storageAppend (v : Value) : Value :=
  let lookup : StorageRange :=
    { offset := match v.last with
        | some l => ((v.ranges l).offset + (v.ranges l).length + 1) % 2 ^ 32
        | none => 0
      length := 256 * 8
      buffer := fun _ => v.defaultByte }
  let v := { v with ranges := update v.ranges v.allocated lookup }
  { v with
    allocated := v.allocated + 1
    buffersRoot := inlineInsert (storageRangeCmp v) v.buffersRoot v.allocated
    last := some v.allocated }

/-- The loop.  Its ends are 2049 apart modulo 2 ^ 32, so that it stops within 2 ^ 32 rounds. -/
def storageGrow (index : Nat) : Nat → Value → Value
  | 0, v => v
  | fuel + 1, v =>
    let range := (storageAppend v).ranges v.allocated
    if (range.offset + range.length) % 2 ^ 32 < index then
      storageGrow index fuel (storageAppend v)
    else storageAppend v

/-- `_storage_lookup` of a property that is there: the range, and the property afterwards.  The
value is an `Efl_Bool`, which need not be 0 or 1. -/
def storageLookup (v : Value) (index : Nat) (allocate : Bool) (value : BitVec 8) :
    Option Nat × Value :=
  match v.find index with
  | some sr => (some sr, v)
  | none =>
    if !allocate then (none, v)
    else if v.defaultByte == value then (none, v)
    else ((storageGrow index (2 ^ 32) v).last, storageGrow index (2 ^ 32) v)

/-- The offset of an index in a range, in 32 bits. -/
def Value.place (v : Value) (sr index : Nat) : Nat :=
  (index + 2 ^ 32 - (v.ranges sr).offset) % 2 ^ 32

/-- The bit of a buffer at an offset. -/
def flagAt (buffer : Nat → BitVec 8) (offset : Nat) : Bool :=
  buffer (offset >>> 3) &&& 1#8 <<< (offset % 8) != 0

/-- A buffer with the bit at an offset set or cleared. -/
def putFlag (buffer : Nat → BitVec 8) (offset : Nat) (flag : Bool) : Nat → BitVec 8 :=
  update buffer (offset >>> 3) (if flag then buffer (offset >>> 3) ||| 1#8 <<< (offset % 8)
    else buffer (offset >>> 3) &&& ~~~(1#8 <<< (offset % 8)))

def Value.put (v : Value) (sr offset : Nat) (flag : Bool) : Value :=
  let range := { v.ranges sr with buffer := putFlag (v.ranges sr).buffer offset flag }
  { v with ranges := update v.ranges sr range }

/-- The properties of a parent, `pd->parent->values`. -/
abbrev Values := String → Option Value

/-- `_efl_boolean_model_efl_model_property_get`: the value and the byte that was read, or
nothing for a property that the class does not handle. -/
def propertyGet (values : Values) (property : String) (index : Nat) : Option (Bool × Option Nat) :=
  (values property).map fun v =>
    match (storageLookup v index false 0).1 with
    | none => (v.defaultValue, none)
    | some sr =>
      (flagAt (v.ranges sr).buffer (v.place sr index), some (v.place sr index >>> 3))

/-- What the future of a `property_set` says. -/
inductive Reply where
  | forwarded
  | rejected
  | resolved (flag : Bool)
  deriving DecidableEq, Repr

/-- A call of `property_set`, with the byte that the value converts to: no value is one that does
not convert. -/
structure Op where
  property : String
  index : Nat
  value : Option (BitVec 8)

/-- What `eina_value_bool_convert` leaves in `flag`. -/
def Op.flag (op : Op) : BitVec 8 := op.value.getD 0

/-- `_efl_boolean_model_efl_model_property_set`: the properties afterwards, the reply and the
byte that was written. -/
def propertySet (values : Values) (op : Op) : Values × Reply × Option Nat :=
  match values op.property with
  | none => (values, .forwarded, none)
  | some v =>
    let (sr, v) := storageLookup v op.index true op.flag
    match op.value, sr with
    | none, _ => (update values op.property (some v), .rejected, none)
    | some _, none => (update values op.property (some v), .resolved v.defaultValue, none)
    | some flag, some sr =>
      (update values op.property (some (v.put sr (v.place sr op.index) (flag != 0))),
        .resolved (flag != 0), some (v.place sr op.index >>> 3))

/-- A parent with properties that have just been added. -/
def new (declared : String → Option Bool) : Values :=
  fun property => (declared property).map fun d => { defaultValue := d }

def run (declared : String → Option Bool) (ops : List Op) : Values :=
  ops.foldl (fun values op => (propertySet values op).1) (new declared)

/-! ### Bits -/

@[simp] theorem flagAt_const (offset : Nat) : flagAt (fun _ => 0) offset = false := by
  simp [flagAt]

variable (buffer : Nat → BitVec 8)

theorem flagAt_eq (offset : Nat) :
    flagAt buffer offset = (buffer (offset / 8)).getLsbD (offset % 8) := by
  have hbit : 1#8 <<< (offset % 8) = BitVec.twoPow 8 (offset % 8) := by rw [BitVec.twoPow_eq]
  have hlt : offset % 8 < 8 := Nat.mod_lt _ (by decide)
  have hpos : BitVec.twoPow 8 (offset % 8) ≠ 0#8 := by
    intro h0
    have htop := congrArg (fun b => b.getLsbD (offset % 8)) h0
    simp [hlt] at htop
  rw [flagAt, Nat.shiftRight_eq_div_pow, hbit, BitVec.and_twoPow]
  split <;> simp_all

/-- **A set bit is read back, and the others stay.** -/
theorem flagAt_putFlag (o o' : Nat) (flag : Bool) :
    flagAt (putFlag buffer o flag) o' = if o' = o then flag else flagAt buffer o' := by
  rw [flagAt_eq, flagAt_eq, putFlag, Nat.shiftRight_eq_div_pow]
  by_cases hbyte : o' / 8 = o / 8
  · have heq : o' = o ↔ o' % 8 = o % 8 := by omega
    cases flag <;> simp <;> grind
  · have hne : o' ≠ o := fun h => hbyte (by rw [h])
    rw [update_of_ne hbyte, if_neg hne]

end Core.BooleanModel
