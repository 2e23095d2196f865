/-
Iterators: a function that gives the next value and the state behind it, or no value.

`Yields next s xs` says that calling `next` again and again from the state `s` gives the
values `xs`, and then none.  So it also says that the iteration comes to its end.
-/
import Mathlib.Data.List.Basic

namespace Iterate

variable {σ ρ : Type} {next : σ → Option (ρ × σ)} {s s' : σ} {x : ρ} {xs ys : List ρ}

inductive Yields (next : σ → Option (ρ × σ)) : σ → List ρ → Prop
  | done {s : σ} : next s = none → Yields next s []
  | more {s s' : σ} {x : ρ} {xs : List ρ} :
      next s = some (x, s') → Yields next s' xs → Yields next s (x :: xs)

theorem Yields.unique (h : Yields next s xs) (h' : Yields next s ys) : xs = ys := by
  induction h generalizing ys with
  | done hnone =>
    cases h' with
    | done => rfl
    | more hsome => exact absurd (hnone.symm.trans hsome) (by simp)
  | more hsome _ ih =>
    cases h' with
    | done hnone => exact absurd (hnone.symm.trans hsome) (by simp)
    | more hsome' hrest =>
      obtain ⟨rfl, rfl⟩ := Prod.mk.inj (Option.some.inj (hsome.symm.trans hsome'))
      rw [ih hrest]

end Iterate
