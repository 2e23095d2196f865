/-
Fields of a machine word.

A field is a number below `2 ^ width`, kept at a shift.  It can be read back out of a word
in which the other fields leave its bits alone.
-/
import Mathlib.Data.Nat.Bitwise

namespace BitField

/-- The bits from `shift` to `shift + width` of a word. -/
def extract (word shift width : Nat) : Nat := (word >>> shift) &&& (2 ^ width - 1)

/-- `word` has no bit from `shift` to `shift + width`. -/
def Clear (word shift width : Nat) : Prop :=
  ∀ i < width, word.testBit (shift + i) = false

variable {x width : Nat}

theorem testBit_field (shift i : Nat) (hx : x < 2 ^ width) (hi : i < shift ∨ shift + width ≤ i) :
    (x <<< shift).testBit i = false := by
  rw [Nat.testBit_shiftLeft]
  by_cases h : shift ≤ i
  · have hlt : x < 2 ^ (i - shift) := by
      refine lt_of_lt_of_le hx (Nat.pow_le_pow_right (by decide) ?_)
      omega
    rw [Nat.testBit_lt_two_pow hlt, Bool.and_false]
  · simp [h]

variable {shift : Nat}

theorem clear_field {shift' width' : Nat} (hx : x < 2 ^ width)
    (h : shift + width ≤ shift' ∨ shift' + width' ≤ shift) : Clear (x <<< shift) shift' width' := by
  intro i hi
  apply testBit_field _ _ hx
  omega

variable {a b : Nat}

theorem Clear.or (ha : Clear a shift width) (hb : Clear b shift width) :
    Clear (a ||| b) shift width := by
  intro i hi
  rw [Nat.testBit_or, ha i hi, hb i hi, Bool.or_false]

theorem extract_field (hx : x < 2 ^ width) :
    extract (x <<< shift) shift width = x := by
  rw [extract, Nat.shiftLeft_shiftRight, Nat.and_two_pow_sub_one_eq_mod, Nat.mod_eq_of_lt hx]

theorem extract_or_clear (hb : Clear b shift width) :
    extract (a ||| b) shift width = extract a shift width := by
  apply Nat.eq_of_testBit_eq
  intro i
  simp only [extract, Nat.testBit_and, Nat.testBit_shiftRight, Nat.testBit_or]
  by_cases hi : i < width
  · rw [hb i hi, Bool.or_false]
  · simp [hi]

theorem extract_clear_or (ha : Clear a shift width) :
    extract (a ||| b) shift width = extract b shift width := by
  rw [Nat.or_comm, extract_or_clear ha]

theorem and_mask (hx : x < 2 ^ width) : x &&& (2 ^ width - 1) = x := by
  rw [Nat.and_two_pow_sub_one_eq_mod, Nat.mod_eq_of_lt hx]

end BitField
