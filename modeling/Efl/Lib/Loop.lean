/-
`for` loops over an array, whose body may leave the function.

The body is given the index, the element and the state.  It is undefined where it is `none`;
else it ends in a state and, where it returns from the function, in what it returns.
-/
import Mathlib.Data.List.Basic

namespace Loop

variable {α σ ρ : Type} {I : Nat → σ → Prop}

/-- A loop from an index on. -/
def each (body : Nat → α → σ → Option (σ × Option ρ)) : Nat → List α → σ → Option (σ × Option ρ)
  | _, [], s => some (s, none)
  | i, x :: xs, s =>
    match body i x s with
    | none => none
    | some (s, some r) => some (s, some r)
    | some (s, none) => each body (i + 1) xs s

/-- What a state and what was returned are to meet: `I` where the loop goes on, `Q` else. -/
def Ends (I : σ → Prop) (Q : σ → ρ → Prop) (s : σ) : Option ρ → Prop
  | none => I s
  | some r => Q s r

/-- **The loop rule.** -/
theorem each_ends {body : Nat → α → σ → Option (σ × Option ρ)}
    {Q : σ → ρ → Prop} : ∀ (xs : List α) (i : Nat) (s : σ),
      (∀ k x s, xs[k]? = some x → I (i + k) s →
        ∃ s' r, body (i + k) x s = some (s', r) ∧ Ends (I (i + k + 1)) Q s' r) →
      I i s → ∃ s' r, each body i xs s = some (s', r) ∧ Ends (I (i + xs.length)) Q s' r := by
  intro xs
  induction xs with
  | nil =>
    intro i s _ hs
    exact ⟨s, none, rfl, hs⟩
  | cons x xs ih =>
    intro i s hbody hs
    obtain ⟨s1, r, hstep, hends⟩ := hbody 0 x s rfl hs
    rw [Nat.add_zero] at hstep hends
    rw [each, hstep]
    cases r with
    | some r => exact ⟨s1, some r, rfl, hends⟩
    | none =>
      have hrest := ih (i + 1) s1 ?_ hends
      · have hlength : i + 1 + xs.length = i + (x :: xs).length := by
          rw [List.length_cons]
          omega
        rw [hlength] at hrest
        exact hrest
      · intro k y s' hy hs'
        have hindex : i + 1 + k = i + (k + 1) := by omega
        rw [hindex] at hs' ⊢
        exact hbody (k + 1) y s' hy hs'

theorem each_ends_never {f : Nat → α → σ → Option (σ × Option ρ)}
    {l : List α} {s : σ}
    (hbody : ∀ k x s, l[k]? = some x → I k s →
      ∃ s', f k x s = some (s', none) ∧ I (k + 1) s')
    (hs : I 0 s) : ∃ s', each f 0 l s = some (s', none) ∧ I l.length s' := by
  obtain ⟨s', r, heach, hends⟩ := each_ends (Q := fun _ _ => False) l 0 s
    (fun k x s1 hx hs1 => by
      rw [Nat.zero_add] at hs1 ⊢
      obtain ⟨s', hstep, hI⟩ := hbody k x s1 hx hs1
      exact ⟨s', none, hstep, hI⟩) hs
  rw [Nat.zero_add] at hends
  cases r with
  | none => exact ⟨s', heach, hends⟩
  | some r => exact hends.elim

theorem foldlM_holds {f : σ → α → Option σ} : ∀ (xs : List α) (i : Nat) (s : σ),
    (∀ k x s, xs[k]? = some x → I (i + k) s → ∃ s', f s x = some s' ∧ I (i + k + 1) s') →
    I i s → ∃ s', xs.foldlM f s = some s' ∧ I (i + xs.length) s' := by
  intro xs
  induction xs with
  | nil =>
    intro i s _ hs
    exact ⟨s, rfl, hs⟩
  | cons x xs ih =>
    intro i s hstep hs
    obtain ⟨s1, hs1, hI⟩ := hstep 0 x s rfl hs
    have hrest : ∃ s', xs.foldlM f s1 = some s' ∧ I (i + 1 + xs.length) s' := by
      refine ih (i + 1) s1 ?_ hI
      intro k y s2 hy hs2
      have hindex : i + 1 + k = i + (k + 1) := by omega
      rw [hindex] at hs2 ⊢
      exact hstep (k + 1) y s2 hy hs2
    obtain ⟨s', hfold, hs'⟩ := hrest
    refine ⟨s', ?_, ?_⟩
    · rw [List.foldlM_cons, hs1]
      exact hfold
    · have hlength : i + (x :: xs).length = i + 1 + xs.length := by
        rw [List.length_cons]
        omega
      rw [hlength]
      exact hs'

end Loop
