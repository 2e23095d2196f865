/-
What a call of a C function ends in.

A loop whose end is not known is given a number of turns; `running` says that they were
not enough.  `f : Nat → Outcome α` is monotone when more turns only turn `running` into
something else, so that what a call ends in does not depend on the turns it is given.
-/
import Mathlib.Data.List.Basic

/-- What a call ends in, within the turns its loops are given. -/
inductive Outcome (α : Type) where
  /-- Some loop is not at its end. -/
  | running
  /-- The behaviour is undefined. -/
  | undefined
  /-- The call of `abort`. -/
  | aborts
  | returns (value : α)
  deriving DecidableEq

namespace Outcome

variable {α β γ : Type} {b : β}

protected def bind (x : Outcome α) (f : α → Outcome β) : Outcome β :=
  match x with
  | running => running
  | undefined => undefined
  | aborts => aborts
  | returns a => f a

instance : Monad Outcome where
  pure := returns
  bind := Outcome.bind

@[simp] theorem pure_eq (a : α) : (pure a : Outcome α) = returns a := rfl

@[simp] theorem running_bind (f : α → Outcome β) : ((running : Outcome α) >>= f) = running := rfl

@[simp] theorem returns_bind (a : α) (f : α → Outcome β) : (returns a >>= f) = f a := rfl

theorem bind_eq_returns {x : Outcome α} {f : α → Outcome β} :
    (x >>= f) = returns b ↔ ∃ a, x = returns a ∧ f a = returns b := by
  cases x with
  | returns a => simp
  | running => exact ⟨fun h => absurd h (by simp), fun ⟨_, h,⟩ => absurd h (by simp)⟩
  | undefined =>
    exact ⟨fun h => absurd h (by rintro ⟨⟩), fun ⟨_, h,⟩ => absurd h (by simp)⟩
  | aborts =>
    exact ⟨fun h => absurd h (by rintro ⟨⟩), fun ⟨_, h,⟩ => absurd h (by simp)⟩

/-! ### More turns -/

/-- More turns only let a call that is still running go on. -/
def Mono (f : Nat → Outcome α) : Prop := ∀ n m, n ≤ m → f n = running ∨ f m = f n

theorem mono_const (x : Outcome α) : Mono fun _ => x := by
  intro n m _
  exact .inr rfl

variable {f : Nat → Outcome α} {g : Nat → α → Outcome β}

theorem Mono.bind (hf : Mono f) (hg : ∀ a, Mono fun n => g n a) :
    Mono fun n => f n >>= g n := by
  intro n m hnm
  rcases hf n m hnm with h | h
  · exact .inl (by simp only [h, running_bind])
  simp only [h]
  cases f n with
  | returns a => exact hg a n m hnm
  | running => exact .inl rfl
  | undefined => exact .inr rfl
  | aborts => exact .inr rfl

theorem Mono.foldlM {f : Nat → β → α → Outcome β} (hf : ∀ b a, Mono fun n => f n b a)
    (xs : List α) : ∀ b, Mono fun n => xs.foldlM (f n) b := by
  induction xs with
  | nil =>
    intro b
    exact mono_const _
  | cons x xs ih =>
    intro b
    exact (hf b x).bind ih

theorem Mono.unique (hf : Mono f) {n m : Nat} (hn : f n ≠ running) (hm : f m ≠ running) :
    f n = f m := by
  rcases Nat.le_total n m with h | h
  · exact ((hf n m h).resolve_left hn).symm
  · exact (hf m n h).resolve_left hm

theorem Mono.returns_of_le {a : α} (hf : Mono f) {n m : Nat} (hnm : n ≤ m) (h : f n = returns a) :
    f m = returns a := by
  rcases hf n m hnm with hrun | hsame
  · rw [h] at hrun
    cases hrun
  · rw [hsame, h]

/-! ### Enough turns -/

/-- With enough turns the call returns `a`. -/
def Ends (f : Nat → Outcome α) (a : α) : Prop := ∃ n, ∀ m, n ≤ m → f m = returns a

theorem ends_const (a : α) : Ends (fun _ => returns a) a := ⟨0, fun _ _ => rfl⟩

variable {a : α}

theorem Ends.bind (hf : Ends f a) (hg : Ends (fun n => g n a) b) :
    Ends (fun n => f n >>= g n) b := by
  obtain ⟨n, hn⟩ := hf
  obtain ⟨m, hm⟩ := hg
  refine ⟨max n m, ?_⟩
  intro k hk
  simp only [hn k (by omega)]
  exact hm k (by omega)

theorem Ends.succ {g : Nat → Outcome α} (hg : Ends g a) (h : ∀ n, f (n + 1) = g n) : Ends f a := by
  obtain ⟨n, hn⟩ := hg
  refine ⟨n + 1, ?_⟩
  intro m hm
  obtain ⟨m, rfl⟩ : ∃ k, m = k + 1 := ⟨m - 1, by omega⟩
  rw [h]
  exact hn m (by omega)

theorem Ends.rest {g : Nat → Outcome α} {k : Nat} (hf : Ends f a) (h : ∀ n, f (n + k) = g n) :
    Ends g a := by
  obtain ⟨n, hn⟩ := hf
  refine ⟨n, ?_⟩
  intro m hm
  rw [← h]
  exact hn (m + k) (by omega)

theorem not_ends_undefined (h : ∀ n, f (n + 1) = undefined) :
    ¬Ends f a := by
  rintro ⟨n, hn⟩
  have hreturns := hn (n + 1) (by omega)
  rw [h] at hreturns
  cases hreturns

theorem not_ends_again (hzero : f 0 = running) (h : ∀ n, f (n + 1) = f n) : ¬Ends f a := by
  have hall : ∀ n, f n = running := by
    intro n
    induction n with
    | zero => exact hzero
    | succ n ih => rw [h, ih]
  rintro ⟨n, hn⟩
  have hreturns := hn n (Nat.le_refl n)
  rw [hall] at hreturns
  cases hreturns

theorem Ends.unique {b : α} (ha : Ends f a) (hb : Ends f b) : a = b := by
  obtain ⟨n, hn⟩ := ha
  obtain ⟨m, hm⟩ := hb
  have hsame := (hn (max n m) (by omega)).symm.trans (hm (max n m) (by omega))
  exact returns.inj hsame

end Outcome
