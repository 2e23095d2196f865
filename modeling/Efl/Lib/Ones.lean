/-
Counting the bits of a number that are set.

A merge sort that keeps its runs on a stack has a run for every bit of the number of steps
it did.  The next step merges as often as the increment carries (`succ_xor`), which the
code finds out by taking the lowest bit off the bits that changed (`and_pred`).
-/
import Mathlib.Data.Nat.Bitwise

namespace Ones

/-- The number of bits that are set. -/
def ones (k : Nat) : Nat := k.bits.count true

variable (m : Nat)

theorem ones_double : ones (2 * m) = ones m := by
  unfold ones
  rcases Nat.eq_zero_or_pos m with rfl | hm
  · rfl
  · rw [Nat.bit0_bits m (ne_of_gt hm)]
    simp

theorem ones_double_succ : ones (2 * m + 1) = ones m + 1 := by
  unfold ones
  rw [Nat.bit1_bits]
  simp

variable (a b : Nat)

theorem xor_even : (2 * a) ^^^ (2 * b + 1) = 2 * (a ^^^ b) + 1 := by
  have := Nat.xor_bit false a true b
  simpa using this

theorem xor_odd : (2 * a + 1) ^^^ (2 * b) = 2 * (a ^^^ b) + 1 := by
  have := Nat.xor_bit true a false b
  simpa using this

theorem succ_xor (k : Nat) :
    ∃ t ≤ ones k, (k + 1) ^^^ k = 2 ^ (t + 1) - 1 ∧ ones k + 1 = ones (k + 1) + t := by
  induction k using Nat.strongRecOn with
  | ind k ih =>
    obtain ⟨m, rfl | rfl⟩ := Nat.even_or_odd' k
    · refine ⟨0, Nat.zero_le _, ?_, ?_⟩
      · rw [xor_odd, Nat.xor_self]
        rfl
      · rw [ones_double, ones_double_succ]
    obtain ⟨t, hle, hxor, hones⟩ := ih m (by omega)
    refine ⟨t + 1, by rw [ones_double_succ]; omega, ?_, ?_⟩
    · have hsucc : 2 * m + 1 + 1 = 2 * (m + 1) := by omega
      have hpow : 0 < 2 ^ (t + 1) := Nat.two_pow_pos _
      rw [hsucc, xor_even]
      omega
    · have hsucc : 2 * m + 1 + 1 = 2 * (m + 1) := by omega
      rw [hsucc, ones_double, ones_double_succ]
      omega

theorem and_even : (2 * a + 1) &&& (2 * b) = 2 * (a &&& b) := by
  have := Nat.land_bit true a false b
  simpa using this

theorem and_odd : (2 * a) &&& (2 * b + 1) = 2 * (a &&& b) := by
  have := Nat.land_bit false a true b
  simpa using this

theorem and_pred (j t : Nat) :
    2 ^ j * (2 ^ (t + 1) - 1) &&& (2 ^ j * (2 ^ (t + 1) - 1) - 1) = 2 ^ (j + 1) * (2 ^ t - 1) := by
  induction j with
  | zero =>
    have hpow : 0 < 2 ^ t := Nat.two_pow_pos _
    have hodd : 2 ^ 0 * (2 ^ (t + 1) - 1) = 2 * (2 ^ t - 1) + 1 := by
      omega
    rw [hodd, Nat.add_sub_cancel, and_even, Nat.and_self, pow_one]
  | succ j ih =>
    have hpow : 0 < 2 ^ j * (2 ^ (t + 1) - 1) :=
      Nat.mul_pos (Nat.two_pow_pos _) (Nat.sub_pos_of_lt (Nat.one_lt_two_pow (Nat.succ_ne_zero t)))
    have hdouble : ∀ i m : Nat, 2 ^ (i + 1) * m = 2 * (2 ^ i * m) := by
      intro i m
      rw [pow_succ, mul_comm (2 ^ i), mul_assoc]
    rw [hdouble, hdouble (j + 1), ← ih]
    generalize 2 ^ j * (2 ^ (t + 1) - 1) = m at hpow
    have hpred : 2 * m - 1 = 2 * (m - 1) + 1 := by omega
    rw [hpred, and_odd]

theorem ones_le {k w : Nat} (hk : k < 2 ^ w) : ones k ≤ w := by
  induction w generalizing k with
  | zero =>
    obtain rfl : k = 0 := by simpa using hk
    exact le_rfl
  | succ w ih =>
    obtain ⟨m, rfl | rfl⟩ := Nat.even_or_odd' k
    · rw [ones_double]
      exact Nat.le_succ_of_le (ih (by omega))
    · rw [ones_double_succ]
      exact Nat.succ_le_succ (ih (by omega))

end Ones
