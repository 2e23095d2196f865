/-
Binary search.

`bisect cmp n low high` halves the interval from `low` to `high`: a positive answer
says that what is looked for is before `i`, a negative one that it is behind it, and 0
that it is there.  It is undefined where an answer is, or when `n` rounds do not
suffice, which for `high - low` rounds never happens.

When the answers are sorted, the search finds the place with the answer 0, or the
place where it would be: all answers before it are negative and all from it on are
positive (`bisect_spec`).
-/
import Mathlib.Data.List.Basic

namespace Bisect

/-- `while (low < high)`, with the middle rounded down. -/
def bisect (cmp : Nat → Option Int) : Nat → Nat → Nat → Option (Nat × Bool)
  | 0, low, high => if low < high then none else some (low, false)
  | n + 1, low, high =>
    if low < high then
      (cmp ((low + high - 1) / 2)).bind fun r =>
        if 0 < r then bisect cmp n low ((low + high - 1) / 2)
        else if r < 0 then bisect cmp n ((low + high - 1) / 2 + 1) high
        else some ((low + high - 1) / 2, true)
    else some (low, false)

/-- The place with the answer 0, or the one where it would be. -/
def Found (f : Nat → Int) (count : Nat) : Nat × Bool → Prop
  | (i, true) => i < count ∧ f i = 0
  | (i, false) => i ≤ count ∧ (∀ j < i, f j < 0) ∧ ∀ j, i ≤ j → j < count → 0 < f j

variable {cmp : Nat → Option Int} {f : Nat → Int} {count : Nat}

/-- **The search finds the place**, in sorted answers. -/
theorem bisect_spec (hcmp : ∀ i < count, cmp i = some (f i))
    (hpos : ∀ i j, i < j → j < count → 0 < f i → 0 < f j)
    (hneg : ∀ i j, i < j → j < count → f j < 0 → f i < 0) :
    ∀ n low high, low ≤ high → high ≤ count → high - low ≤ n → (∀ j < low, f j < 0) →
      (∀ j, high ≤ j → j < count → 0 < f j) →
      ∃ r, bisect cmp n low high = some r ∧ Found f count r := by
  intro n
  induction n with
  | zero =>
    intro low high hle hc hn hlow hhigh
    have heq : high = low := by omega
    refine ⟨(low, false), ?_, by omega, hlow, fun j hj => hhigh j (by omega)⟩
    rw [bisect, if_neg (by omega)]
  | succ n ih =>
    intro low high hle hc hn hlow hhigh
    rw [bisect]
    by_cases hlt : low < high
    · rw [if_pos hlt]
      have hmid : (low + high - 1) / 2 < high := by omega
      have hmid' : low ≤ (low + high - 1) / 2 := by omega
      generalize (low + high - 1) / 2 = i at hmid hmid' ⊢
      rw [hcmp i (by omega), Option.bind_some]
      by_cases hp : 0 < f i
      · rw [if_pos hp]
        refine ih low i hmid' (by omega) (by omega) hlow ?_
        intro j hj hjc
        rcases Nat.eq_or_lt_of_le hj with rfl | hij
        · exact hp
        · exact hpos i j hij hjc hp
      · rw [if_neg hp]
        by_cases hq : f i < 0
        · rw [if_pos hq]
          refine ih (i + 1) high hmid hc (by omega) ?_ hhigh
          intro j hj
          rcases Nat.eq_or_lt_of_le (Nat.le_of_lt_succ hj) with rfl | hji
          · exact hq
          · exact hneg j i hji (by omega) hq
        · rw [if_neg hq]
          exact ⟨(i, true), rfl, by omega, by omega⟩
    · rw [if_neg hlt]
      exact ⟨(low, false), rfl, by omega, hlow, fun j hj => hhigh j (by omega)⟩

end Bisect
