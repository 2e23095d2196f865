/-
Integers of a machine: words of a fixed width, read as signed or as unsigned.

A word stands for an integer by `value`, and `wrap` is what an integer becomes when a word has to
hold it.  `meaning` says over the integers what each operation is for, and where it has no result:
a division by zero, a quotient that no word holds, a shift by a negative count or by the width or
more.  `apply_value` connects the two.
-/
import Mathlib.Algebra.Group.Int.Defs
import Mathlib.Data.Int.Basic

namespace MachineInt

open Option BitVec

variable {w : Nat}

/-- The integer a word stands for. -/
def value (signed : Bool) (x : BitVec w) : Int :=
  if signed then x.toInt else x.toNat

/-- The integer a word holds after `n` has been written to it. -/
def wrap (signed : Bool) (w : Nat) (n : Int) : Int :=
  value signed (BitVec.ofInt w n)

@[simp] theorem ofInt_value (signed : Bool) (x : BitVec w) :
    BitVec.ofInt w (value signed x) = x := by
  cases signed with
  | true => simp [value]
  | false => simp [value]

variable {signed : Bool} {x y : BitVec w}

theorem value_inj (h : value signed x = value signed y) :
    x = y := by
  rw [← ofInt_value signed x, h, ofInt_value]

theorem wrap_value (signed : Bool) (x : BitVec w) :
    wrap signed w (value signed x) = value signed x := by
  rw [wrap, ofInt_value]

theorem value_eq_zero_iff : value signed x = 0 ↔ x = 0 := by
  have hzero : value signed (0 : BitVec w) = 0 := by
    cases signed <;> simp [value]
  constructor
  · intro h
    exact value_inj (h.trans hzero.symm)
  · intro h
    rw [h, hzero]

/-! ### Conversion to another width -/

/-- A word taken to another width: the sign goes into the new bits. -/
def cast (signed : Bool) (v : Nat) (x : BitVec w) : BitVec v :=
  if signed then x.signExtend v else x.setWidth v

theorem cast_eq (signed : Bool) (v : Nat) (x : BitVec w) :
    cast signed v x = BitVec.ofInt v (value signed x) := by
  cases signed with
  | true =>
    show x.signExtend v = BitVec.ofInt v x.toInt
    by_cases hv : v ≤ w
    · apply eq_of_toInt_eq
      rw [toInt_signExtend_eq_toInt_bmod_of_le x hv, toInt_ofInt]
    · rfl
  | false =>
    show x.setWidth v = BitVec.ofInt v (x.toNat : Int)
    rw [BitVec.ofInt_natCast, BitVec.ofNat_toNat]

theorem value_cast (signed signed' : Bool) (v : Nat) (x : BitVec w) :
    value signed' (cast signed v x) = wrap signed' v (value signed x) := by
  rw [cast_eq, wrap]

/-! ### The operations -/

/-- The binary operations. -/
inductive Op where
  | add | sub | mul | div | mod | band | bor | bxor | lsh | rsh
  deriving DecidableEq, Repr

/-- The quotient of two words cannot be held: the least number over minus one. -/
def overflows (signed : Bool) (x y : BitVec w) : Bool :=
  signed && decide (x = BitVec.intMin w) && decide (y = BitVec.allOnes w)

/-- What the machine computes, if anything. -/
def apply (signed : Bool) (op : Op) (x y : BitVec w) : Option (BitVec w) :=
  match op with
  | .add => some (x + y)
  | .sub => some (x - y)
  | .mul => some (x * y)
  | .div =>
    if y = 0 ∨ overflows signed x y = true then none
    else some (if signed then x.sdiv y else x.udiv y)
  | .mod =>
    if y = 0 ∨ overflows signed x y = true then none
    else some (if signed then x.srem y else x.umod y)
  | .band => some (x &&& y)
  | .bor => some (x ||| y)
  | .bxor => some (x ^^^ y)
  | .lsh =>
    if value signed y < 0 ∨ (w : Int) ≤ value signed y then none
    else some (x <<< (value signed y).toNat)
  | .rsh =>
    if value signed y < 0 ∨ (w : Int) ≤ value signed y then none
    else some (if signed then x.sshiftRight (value signed y).toNat
      else x >>> (value signed y).toNat)

/-- What an operation is for, over the integers.  The bitwise operations are on
the two's complement of their operands. -/
def meaning (signed : Bool) (w : Nat) (op : Op) (a b : Int) : Option Int :=
  match op with
  | .add => some (wrap signed w (a + b))
  | .sub => some (wrap signed w (a - b))
  | .mul => some (wrap signed w (a * b))
  | .div => if b = 0 ∨ wrap signed w (a.tdiv b) ≠ a.tdiv b then none else some (a.tdiv b)
  | .mod => if b = 0 ∨ wrap signed w (a.tdiv b) ≠ a.tdiv b then none else some (a.tmod b)
  | .band => some (value signed (BitVec.ofInt w a &&& BitVec.ofInt w b))
  | .bor => some (value signed (BitVec.ofInt w a ||| BitVec.ofInt w b))
  | .bxor => some (value signed (BitVec.ofInt w a ^^^ BitVec.ofInt w b))
  | .lsh => if b < 0 ∨ (w : Int) ≤ b then none else some (wrap signed w (a * 2 ^ b.toNat))
  | .rsh => if b < 0 ∨ (w : Int) ≤ b then none else some (a / 2 ^ b.toNat)

theorem value_add (signed : Bool) (x y : BitVec w) :
    value signed (x + y) = wrap signed w (value signed x + value signed y) := by
  rw [wrap, ofInt_add, ofInt_value, ofInt_value]

theorem value_mul (signed : Bool) (x y : BitVec w) :
    value signed (x * y) = wrap signed w (value signed x * value signed y) := by
  rw [wrap, ofInt_mul, ofInt_value, ofInt_value]

theorem value_neg (signed : Bool) (x : BitVec w) :
    value signed (-x) = wrap signed w (-value signed x) := by
  rw [wrap, ofInt_neg, ofInt_value]

theorem value_sub (signed : Bool) (x y : BitVec w) :
    value signed (x - y) = wrap signed w (value signed x - value signed y) := by
  rw [wrap, Int.sub_eq_add_neg, ofInt_add, ofInt_neg, ofInt_value, ofInt_value,
    sub_eq_add_neg]

theorem value_not (signed : Bool) (x : BitVec w) :
    value signed (~~~x) = wrap signed w (-value signed x - 1) := by
  rw [wrap, Int.sub_eq_add_neg, ofInt_add, ofInt_neg, ofInt_value,
    not_eq_neg_add, sub_eq_add_neg]
  congr 2
  exact (ofInt_neg (n := 1)).symm

/-! ### Division -/

theorem value_udiv (x y : BitVec w) :
    value false (x.udiv y) = (value false x).tdiv (value false y) := by
  rfl

theorem value_umod (x y : BitVec w) :
    value false (x.umod y) = (value false x).tmod (value false y) := by
  rfl

theorem wrap_tdiv_iff (hw : 1 < w) (hy : y ≠ 0) :
    wrap signed w ((value signed x).tdiv (value signed y))
        = (value signed x).tdiv (value signed y) ↔
      overflows signed x y = false := by
  cases signed with
  | false =>
    have hq := value_udiv x y
    rw [← hq, wrap_value]
    simp [overflows]
  | true =>
    by_cases ho : x = BitVec.intMin w ∧ y = BitVec.allOnes w
    · -- the quotient is 2 ^ (w - 1), one above the largest number
      obtain ⟨rfl, rfl⟩ := ho
      have hmin : (BitVec.intMin w).toInt = -2 ^ (w - 1) := by
        rw [toInt_intMin_of_pos (by omega)]
      have hone : (BitVec.allOnes w).toInt = -1 := by
        rw [toInt_allOnes, if_pos (by omega)]
      have hquot : (value true (BitVec.intMin w)).tdiv (value true (BitVec.allOnes w))
          = 2 ^ (w - 1) := by
        show (BitVec.intMin w).toInt.tdiv (BitVec.allOnes w).toInt = 2 ^ (w - 1)
        rw [hmin, hone, Int.tdiv_neg, Int.tdiv_one, Int.neg_neg]
      rw [hquot]
      have hlt : wrap true w (2 ^ (w - 1)) < 2 ^ (w - 1) := toInt_lt
      simp only [overflows, Bool.true_and, decide_true, Bool.true_eq_false, iff_false]
      omega
    · have hne : x ≠ BitVec.intMin w ∨ y ≠ -1#w := by
        by_cases hx : x = BitVec.intMin w
        · right
          intro hy'
          exact ho ⟨hx, by rw [hy', neg_one_eq_allOnes]⟩
        · exact .inl hx
      have hq : value true (x.sdiv y) = (value true x).tdiv (value true y) :=
        toInt_sdiv_of_ne_or_ne x y hne
      rw [← hq, wrap_value]
      simp only [overflows, Bool.true_and, true_iff, Bool.and_eq_false_iff,
        decide_eq_false_iff_not]
      by_cases hx : x = BitVec.intMin w
      · exact .inr fun hy' => ho ⟨hx, hy'⟩
      · exact .inl hx

theorem value_quotient (ho : overflows signed x y = false) :
    value signed (if signed then x.sdiv y else x.udiv y)
      = (value signed x).tdiv (value signed y) := by
  cases signed with
  | false => exact value_udiv x y
  | true =>
    apply toInt_sdiv_of_ne_or_ne
    simp only [overflows, Bool.true_and, Bool.and_eq_false_iff, decide_eq_false_iff_not] at ho
    rw [neg_one_eq_allOnes]
    exact ho

theorem value_remainder (signed : Bool) (x y : BitVec w) :
    value signed (if signed then x.srem y else x.umod y)
      = (value signed x).tmod (value signed y) := by
  cases signed with
  | false => exact value_umod x y
  | true => exact toInt_srem x y

/-! ### Shifts -/

theorem value_shiftLeft (signed : Bool) (x : BitVec w) (n : Nat) :
    value signed (x <<< n) = wrap signed w (value signed x * 2 ^ n) := by
  rw [wrap, ofInt_mul, ofInt_value, shiftLeft_eq_mul_twoPow]
  congr 2
  apply eq_of_toNat_eq
  rw [toNat_twoPow, show ((2 : Int) ^ n) = ((2 ^ n : Nat) : Int) by push_cast; rfl,
    BitVec.ofInt_natCast, toNat_ofNat]

theorem value_shiftRight (signed : Bool) (x : BitVec w) (n : Nat) :
    value signed (if signed then x.sshiftRight n else x >>> n) = value signed x / 2 ^ n := by
  cases signed with
  | false =>
    show ((x >>> n).toNat : Int) = (x.toNat : Int) / 2 ^ n
    rw [toNat_ushiftRight, Nat.shiftRight_eq_div_pow]
    rfl
  | true =>
    show (x.sshiftRight n).toInt = x.toInt / 2 ^ n
    rw [toInt_sshiftRight, Int.shiftRight_eq_div_pow]
    rfl

/-! ### The machine computes what the operations are for -/

/-- **An operation on words gives the word of what it means on their values**, and
has no result exactly where it means nothing. -/
theorem apply_value (signed : Bool) (hw : 1 < w) (op : Op) (x y : BitVec w) :
    (apply signed op x y).map (value signed)
      = meaning signed w op (value signed x) (value signed y) := by
  have hdiv : (y = 0 ∨ overflows signed x y = true) ↔
      (value signed y = 0 ∨ wrap signed w ((value signed x).tdiv (value signed y))
        ≠ (value signed x).tdiv (value signed y)) := by
    rw [value_eq_zero_iff]
    by_cases hy : y = 0
    · simp [hy]
    · rw [Ne, wrap_tdiv_iff hw hy]
      simp
  cases op with
  | add => simp only [apply, meaning, map_some, value_add]
  | sub => simp only [apply, meaning, map_some, value_sub]
  | mul => simp only [apply, meaning, map_some, value_mul]
  | div =>
    simp only [apply, meaning]
    by_cases h : y = 0 ∨ overflows signed x y = true
    · rw [if_pos h, if_pos (hdiv.mp h)]
      rfl
    · rw [if_neg h, if_neg fun h' => h (hdiv.mpr h'), map_some, value_quotient]
      exact Bool.eq_false_iff.mpr fun ho => h (.inr ho)
  | mod =>
    simp only [apply, meaning]
    by_cases h : y = 0 ∨ overflows signed x y = true
    · rw [if_pos h, if_pos (hdiv.mp h)]
      rfl
    · rw [if_neg h, if_neg fun h' => h (hdiv.mpr h'), map_some, value_remainder]
  | band => simp only [apply, meaning, map_some, ofInt_value]
  | bor => simp only [apply, meaning, map_some, ofInt_value]
  | bxor => simp only [apply, meaning, map_some, ofInt_value]
  | lsh =>
    simp only [apply, meaning]
    by_cases h : value signed y < 0 ∨ (w : Int) ≤ value signed y
    · rw [if_pos h, if_pos h]
      rfl
    · rw [if_neg h, if_neg h, map_some, value_shiftLeft]
  | rsh =>
    simp only [apply, meaning]
    by_cases h : value signed y < 0 ∨ (w : Int) ≤ value signed y
    · rw [if_pos h, if_pos h]
      rfl
    · rw [if_neg h, if_neg h, map_some, value_shiftRight]

/-! ### A word at the low end of a cell -/

variable {n : Nat}

/-- The word of width `w` at the low end of a cell. -/
def load (w : Nat) (c : BitVec n) : BitVec w :=
  c.setWidth w

/-- The cell with a word written over its low end. -/
def store (c : BitVec n) (x : BitVec w) : BitVec n :=
  (c >>> w) <<< w ||| x.setWidth n

theorem getLsbD_store (c : BitVec n) (x : BitVec w) (i : Nat) :
    (store c x).getLsbD i = (decide (i < n) && if i < w then x.getLsbD i else c.getLsbD i) := by
  simp only [store]
  by_cases hn : i < n
  · by_cases hw : i < w
    · simp [hw]
    have hx : x.getLsbD i = false := getLsbD_of_ge x i (by omega)
    have hi : w + (i - w) = i := by omega
    simp [hn, hx, hi]
  · simp [hn]

@[simp] theorem load_store (hw : w ≤ n) (c : BitVec n) (x : BitVec w) :
    load w (store c x) = x := by
  apply eq_of_getLsbD_eq
  intro i hi
  rw [load, getLsbD_setWidth, getLsbD_store]
  have hn : i < n := by omega
  simp [hi, hn]

end MachineInt
