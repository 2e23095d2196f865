/-
Words of which the low bits are known.

The words that agree with what is known lie between a least and a greatest one, and both agree.  So
a comparison of two such words has the same answer for all of them exactly if the bounds say so.
What is known after a word has been written over the low end of a cell is told by `overwrite`.
-/
import Mathlib.Algebra.Group.Nat.Defs
import Efl.Lib.MachineInt

namespace MachineInt

/-- What is known of a word: its low bits. -/
structure LowBits (n : Nat) where
  /-- How many bits are known. -/
  bits : Nat
  /-- A word with these bits. -/
  low : BitVec n

namespace LowBits

variable {n w : Nat} (k l : LowBits n) {c d : BitVec n}

/-- The word agrees with what is known. -/
def Holds (c : BitVec n) : Prop := c.toNat % 2 ^ k.bits = k.low.toNat % 2 ^ k.bits

/-- The least number that the word can be. -/
def least : Nat := k.low.toNat % 2 ^ k.bits

/-- The greatest number that the word can be. -/
def greatest : Nat := k.least + (2 ^ n - 2 ^ k.bits)

/-- A bit that is known of both words tells them apart. -/
def Apart : Prop :=
  k.low.toNat % 2 ^ min k.bits l.bits ≠ l.low.toNat % 2 ^ min k.bits l.bits

instance decidableApart : Decidable (k.Apart l) :=
  inferInstanceAs (Decidable (¬_ = _))

/-- What is known after a word has been written over the low end. -/
def overwrite (x : BitVec w) : LowBits n := ⟨max k.bits w, store k.low x⟩

variable {k l}

theorem holds_low : k.Holds k.low := rfl

/-! ### Bounds -/

theorem Holds.bounds (h : k.Holds c) : k.least ≤ c.toNat ∧ c.toNat ≤ k.greatest := by
  have hleast : c.toNat % 2 ^ k.bits = k.least := h
  refine ⟨hleast ▸ Nat.mod_le _ _, ?_⟩
  rw [greatest]
  rcases Nat.le_total k.bits n with hbits | hbits
  · -- the bits above make a number below `2 ^ (n - k.bits)`
    have hpow : 2 ^ n = 2 ^ k.bits * 2 ^ (n - k.bits) := by
      rw [← Nat.pow_add, Nat.add_sub_cancel' hbits]
    have hhigh : c.toNat / 2 ^ k.bits < 2 ^ (n - k.bits) := by
      rw [Nat.div_lt_iff_lt_mul (Nat.two_pow_pos _), Nat.mul_comm, ← hpow]
      exact c.isLt
    have hmul : 2 ^ k.bits * (c.toNat / 2 ^ k.bits + 1) ≤ 2 ^ n := by
      rw [hpow]
      exact Nat.mul_le_mul_left _ hhigh
    have hparts := Nat.div_add_mod c.toNat (2 ^ k.bits)
    rw [hleast] at hparts
    rw [Nat.mul_add, Nat.mul_one] at hmul
    omega
  · have hlt : c.toNat < 2 ^ k.bits :=
      Nat.lt_of_lt_of_le c.isLt (Nat.pow_le_pow_right (by decide) hbits)
    rw [Nat.mod_eq_of_lt hlt] at hleast
    omega

theorem least_lt : k.least < 2 ^ n := Nat.lt_of_le_of_lt (Nat.mod_le _ _) k.low.isLt

theorem exists_least (k : LowBits n) : ∃ c, k.Holds c ∧ c.toNat = k.least := by
  have hc : (BitVec.ofNat n k.least).toNat = k.least := by
    rw [BitVec.toNat_ofNat, Nat.mod_eq_of_lt least_lt]
  refine ⟨BitVec.ofNat n k.least, ?_, hc⟩
  rw [Holds, hc]
  exact Nat.mod_mod _ _

theorem exists_greatest (k : LowBits n) : ∃ c, k.Holds c ∧ c.toNat = k.greatest := by
  rcases Nat.le_total k.bits n with hbits | hbits
  · have hpow : 2 ^ n = 2 ^ k.bits * 2 ^ (n - k.bits) := by
      rw [← Nat.pow_add, Nat.add_sub_cancel' hbits]
    have hsub : 2 ^ n - 2 ^ k.bits = 2 ^ k.bits * (2 ^ (n - k.bits) - 1) := by
      rw [hpow, Nat.mul_sub, Nat.mul_one]
    have hlow : k.least < 2 ^ k.bits := Nat.mod_lt _ (Nat.two_pow_pos _)
    have hle : 2 ^ k.bits ≤ 2 ^ n := Nat.pow_le_pow_right (by decide) hbits
    have hc : (BitVec.ofNat n k.greatest).toNat = k.greatest := by
      rw [BitVec.toNat_ofNat, Nat.mod_eq_of_lt]
      rw [greatest]
      omega
    refine ⟨BitVec.ofNat n k.greatest, ?_, hc⟩
    rw [Holds, hc, greatest, hsub, Nat.add_mul_mod_self_left]
    exact Nat.mod_mod _ _
  · -- all bits are known
    obtain ⟨c, hc, hleast⟩ := k.exists_least
    have hle : 2 ^ n ≤ 2 ^ k.bits := Nat.pow_le_pow_right (by decide) hbits
    refine ⟨c, hc, ?_⟩
    rw [greatest, hleast]
    omega

/-! ### Comparisons -/

theorem forall_lt_iff :
    (∀ c d, k.Holds c → l.Holds d → c.toNat < d.toNat) ↔ k.greatest < l.least := by
  constructor
  · intro h
    obtain ⟨c, hc, hgreatest⟩ := k.exists_greatest
    obtain ⟨d, hd, hleast⟩ := l.exists_least
    rw [← hgreatest, ← hleast]
    exact h c d hc hd
  · intro h c d hc hd
    exact Nat.lt_of_le_of_lt hc.bounds.2 (Nat.lt_of_lt_of_le h hd.bounds.1)

theorem forall_le_iff :
    (∀ c d, k.Holds c → l.Holds d → c.toNat ≤ d.toNat) ↔ k.greatest ≤ l.least := by
  constructor
  · intro h
    obtain ⟨c, hc, hgreatest⟩ := k.exists_greatest
    obtain ⟨d, hd, hleast⟩ := l.exists_least
    rw [← hgreatest, ← hleast]
    exact h c d hc hd
  · intro h c d hc hd
    exact Nat.le_trans hc.bounds.2 (Nat.le_trans h hd.bounds.1)

theorem forall_gt_iff :
    (∀ c d, k.Holds c → l.Holds d → d.toNat < c.toNat) ↔ l.greatest < k.least := by
  rw [← forall_lt_iff]
  exact ⟨fun h d c hd hc => h c d hc hd, fun h c d hc hd => h d c hd hc⟩

theorem forall_ge_iff :
    (∀ c d, k.Holds c → l.Holds d → d.toNat ≤ c.toNat) ↔ l.greatest ≤ k.least := by
  rw [← forall_le_iff]
  exact ⟨fun h d c hd hc => h c d hc hd, fun h c d hc hd => h d c hd hc⟩

theorem forall_eq_iff : (∀ c d, k.Holds c → l.Holds d → c = d) ↔
    k.greatest ≤ l.least ∧ l.greatest ≤ k.least := by
  rw [← forall_le_iff, ← forall_le_iff]
  constructor
  · intro h
    exact ⟨fun c d hc hd => by rw [h c d hc hd], fun d c hd hc => by rw [h c d hc hd]⟩
  · rintro ⟨hkl, hlk⟩ c d hc hd
    exact BitVec.eq_of_toNat_eq (Nat.le_antisymm (hkl c d hc hd) (hlk d c hd hc))

theorem Holds.mod {m : Nat} (h : k.Holds c) (hm : m ≤ k.bits) :
    c.toNat % 2 ^ m = k.low.toNat % 2 ^ m := by
  have hdvd : 2 ^ m ∣ 2 ^ k.bits := Nat.pow_dvd_pow 2 hm
  rw [← Nat.mod_mod_of_dvd c.toNat hdvd, h, Nat.mod_mod_of_dvd _ hdvd]

theorem forall_ne_iff : (∀ c d, k.Holds c → l.Holds d → c ≠ d) ↔ k.Apart l := by
  constructor
  · -- the word of which more is known would be both
    intro h hsame
    rcases Nat.le_total k.bits l.bits with hle | hle
    · rw [Nat.min_eq_left hle] at hsame
      exact h l.low l.low hsame.symm holds_low rfl
    · rw [Nat.min_eq_right hle] at hsame
      exact h k.low k.low holds_low hsame rfl
  · rintro hapart c d hc hd rfl
    exact hapart ((hc.mod (Nat.min_le_left _ _)).symm.trans (hd.mod (Nat.min_le_right _ _)))

/-- All bits are known. -/
theorem eq_of_holds {x : BitVec n} (hw : n ≤ w) (h : LowBits.Holds ⟨w, x⟩ c) : c = x := by
  have hpow : 2 ^ n ≤ 2 ^ w := Nat.pow_le_pow_right (by decide) hw
  have hmod (y : BitVec n) : y.toNat % 2 ^ w = y.toNat :=
    Nat.mod_eq_of_lt (Nat.lt_of_lt_of_le y.isLt hpow)
  have hsame : c.toNat % 2 ^ w = x.toNat % 2 ^ w := h
  rw [hmod, hmod] at hsame
  exact BitVec.eq_of_toNat_eq hsame

theorem forall_eq_zero_iff : (∀ c, k.Holds c → c = 0) ↔ k.greatest = 0 := by
  constructor
  · intro h
    obtain ⟨c, hc, hgreatest⟩ := k.exists_greatest
    rw [← hgreatest, h c hc]
    rfl
  · intro h c hc
    have hle := hc.bounds.2
    rw [h] at hle
    exact BitVec.eq_of_toNat_eq (Nat.le_zero.mp hle)

/-! ### Writing over the low end -/

theorem holds_iff_getLsbD :
    k.Holds c ↔ ∀ i < k.bits, c.getLsbD i = k.low.getLsbD i := by
  constructor
  · intro h i hi
    have hbit := congrArg (Nat.testBit · i) h
    simp only [Nat.testBit_mod_two_pow, hi, decide_true, Bool.true_and] at hbit
    exact hbit
  · intro h
    refine Nat.eq_of_testBit_eq fun i => ?_
    rw [Nat.testBit_mod_two_pow, Nat.testBit_mod_two_pow]
    by_cases hi : i < k.bits
    · rw [decide_eq_true hi, Bool.true_and, Bool.true_and]
      exact h i hi
    · rw [decide_eq_false hi, Bool.false_and, Bool.false_and]

/-- **What is known after a write** is all that is known. -/
theorem exists_store_iff (x : BitVec w) :
    (∃ d, k.Holds d ∧ c = store d x) ↔ (k.overwrite x).Holds c := by
  simp only [holds_iff_getLsbD, overwrite]
  constructor
  · rintro ⟨d, hd, rfl⟩ i hi
    rw [getLsbD_store, getLsbD_store]
    by_cases hw : i < w
    · rw [if_pos hw, if_pos hw]
    · rw [if_neg hw, if_neg hw, hd i (by omega)]
  · intro h
    -- the word before: the bits that were known, and what is there now above them
    refine ⟨store c (load w k.low), ?_, ?_⟩
    · intro i hi
      rw [getLsbD_store]
      by_cases hw : i < w
      · rw [if_pos hw, load, BitVec.getLsbD_setWidth, decide_eq_true hw, Bool.true_and]
        by_cases hn : i < n
        · rw [decide_eq_true hn, Bool.true_and]
        · rw [decide_eq_false hn, Bool.false_and, BitVec.getLsbD_of_ge _ _ (Nat.le_of_not_lt hn)]
      · have hc := h i (by omega)
        rw [getLsbD_store, if_neg hw] at hc
        rw [if_neg hw, hc, ← Bool.and_assoc, Bool.and_self]
        by_cases hn : i < n
        · rw [decide_eq_true hn, Bool.true_and]
        · rw [decide_eq_false hn, Bool.false_and, BitVec.getLsbD_of_ge _ _ (Nat.le_of_not_lt hn)]
    · refine BitVec.eq_of_getLsbD_eq fun i hn => ?_
      rw [getLsbD_store, decide_eq_true hn, Bool.true_and]
      by_cases hw : i < w
      · have hc := h i (by omega)
        rw [getLsbD_store, if_pos hw, decide_eq_true hn, Bool.true_and] at hc
        rw [if_pos hw, hc]
      · rw [if_neg hw, getLsbD_store, if_neg hw, decide_eq_true hn, Bool.true_and]

end LowBits

end MachineInt
