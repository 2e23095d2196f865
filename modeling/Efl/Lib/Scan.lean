/-
Loops over a buffer that look for a place.

Places are offsets from the first element.  Reading at a place that is not of the buffer is
undefined, so a loop of which is shown that it returns has read only elements of the buffer.
-/
import Efl.Lib.Outcome

namespace Scan

open List Outcome

variable {α : Type}

/-- `b[i]` -/
def readAt (b : List α) (i : Nat) : Outcome α :=
  match b[i]? with
  | some x => .returns x
  | none => .undefined

/-- `for (; i < e; i++) if (p(b[i])) break;`, where `n` places are left before `e`. -/
def find (b : List α) (p : α → Bool) : (n i : Nat) → Outcome Nat
  | 0, i => .returns i
  | n + 1, i => do
    let x ← readAt b i
    if p x then .returns i else find b p n (i + 1)

/-- `for (i--; i > s; i--) if (p(b[i])) break; return i + 1;` -/
def findBack (b : List α) (p : α → Bool) (s : Nat) : Nat → Outcome Nat
  | 0 => .returns 0
  | i + 1 =>
    if s < i then do
      let x ← readAt b i
      if p x then .returns (i + 1) else findBack b p s i
    else .returns (i + 1)

/-- `memchr(b + i, x, n)`, which reads no further than it needs. -/
def memchr [DecidableEq α] (b : List α) (x : α) (i n : Nat) : Outcome (Option Nat) := do
  let j ← find b (fun y => decide (y = x)) n i
  .returns (if j < i + n then some j else none)

/-- `!memcmp(b + i, xs, n)`, which may read all of both. -/
def memcmp [DecidableEq α] (b : List α) (i : Nat) (xs : List α) : Outcome Bool :=
  if i + xs.length ≤ b.length then .returns (decide (xs <+: b.drop i)) else .undefined

/-- The `n` elements from `i` on, as `memcpy` reads them. -/
def slice (b : List α) (i n : Nat) : Outcome (List α) :=
  if i + n ≤ b.length then .returns ((b.drop i).take n) else .undefined

/-- `memcpy(b + i, xs, n)` -/
def write (b : List α) (i : Nat) (xs : List α) : Outcome (List α) :=
  if i + xs.length ≤ b.length then .returns (b.take i ++ xs ++ b.drop (i + xs.length))
  else .undefined

/-! ### Where the loops end -/

/-- `j` is the first place from `i` on at which `p` holds, or the end `e`. -/
structure First (b : List α) (p : α → Bool) (i e j : Nat) : Prop where
  ge : i ≤ j
  le : j ≤ e
  before : ∀ k x, i ≤ k → k < j → b[k]? = some x → p x = false
  here : j < e → ∃ x, b[j]? = some x ∧ p x = true

variable {b : List α} {p : α → Bool} {i e j : Nat} {x : α}

theorem readAt_of_getElem? (h : b[i]? = some x) : readAt b i = .returns x := by
  simp only [readAt, h]

theorem exists_getElem? (h : i < b.length) : ∃ x, b[i]? = some x :=
  ⟨b[i], getElem?_eq_getElem h⟩

theorem exists_readAt (h : i < b.length) : ∃ x, b[i]? = some x ∧ readAt b i = .returns x := by
  obtain ⟨x, hx⟩ := exists_getElem? h
  exact ⟨x, hx, readAt_of_getElem? hx⟩

theorem First.refl (hx : b[i]? = some x) (hp : p x = true) (hle : i ≤ e) :
    First b p i e i where
  ge := Nat.le_refl i
  le := hle
  before := by
    omega
  here := by
    intro
    exact ⟨x, hx, hp⟩

theorem First.cons (h : First b p (i + 1) e j) (hx : b[i]? = some x)
    (hp : p x = false) : First b p i e j where
  ge := Nat.le_of_succ_le h.ge
  le := h.le
  before := by
    intro k y hik hkj hy
    rcases Nat.eq_or_lt_of_le hik with rfl | hlt
    · rw [hx] at hy
      cases hy
      exact hp
    · exact h.before k y hlt hkj hy
  here := h.here

theorem First.unique {j' : Nat} (h : First b p i e j) (h' : First b p i e j') : j = j' := by
  rcases Nat.lt_trichotomy j j' with hlt | heq | hlt
  · obtain ⟨x, hx, hp⟩ := h.here (Nat.lt_of_lt_of_le hlt h'.le)
    have hfalse := h'.before j x h.ge hlt hx
    rw [hp] at hfalse
    cases hfalse
  · exact heq
  obtain ⟨x, hx, hp⟩ := h'.here (Nat.lt_of_lt_of_le hlt h.le)
  have hfalse := h.before j' x h'.ge hlt hx
  rw [hp] at hfalse
  cases hfalse

/-- **The loop returns the first place.** -/
theorem find_spec (b : List α) (p : α → Bool) : ∀ n i, i + n ≤ b.length →
    ∃ j, find b p n i = .returns j ∧ First b p i (i + n) j := by
  intro n
  induction n with
  | zero =>
    intro i _
    refine ⟨i, rfl, Nat.le_refl i, Nat.le_refl i, ?_, ?_⟩
    · omega
    · omega
  | succ n ih =>
    intro i hlen
    obtain ⟨x, hx, hread⟩ := exists_readAt (show i < b.length by omega)
    simp only [find, hread, returns_bind]
    cases hp : p x with
    | true => exact ⟨i, rfl, First.refl hx hp (by omega)⟩
    | false =>
      obtain ⟨j, hj, hfirst⟩ := ih (i + 1) (by omega)
      refine ⟨j, by simpa using hj, ?_⟩
      have hsum : i + 1 + n = i + (n + 1) := by omega
      rw [hsum] at hfirst
      exact hfirst.cons hx hp

theorem find_of_first {n : Nat} (h : i + n ≤ b.length) (hfirst : First b p i (i + n) j) :
    find b p n i = .returns j := by
  obtain ⟨j', hj', hfirst'⟩ := find_spec b p n i h
  rw [hj', hfirst.unique hfirst']

theorem First.find_eq (hfirst : First b p i e j) (he : j < e) : ∀ n, j < i + n →
    find b p n i = .returns j := by
  have hback : ∀ n k, i ≤ k → k ≤ j → j < k + n → find b p n k = .returns j := by
    intro n
    induction n with
    | zero =>
      omega
    | succ n ih =>
      intro k hik hkj hlt
      obtain ⟨x, hx, hp⟩ := hfirst.here he
      rcases Nat.eq_or_lt_of_le hkj with rfl | hk
      · rw [find, readAt_of_getElem? hx, returns_bind, hp]
        rfl
      have hlen := (List.getElem?_eq_some_iff.mp hx).1
      obtain ⟨y, hy, hread⟩ := exists_readAt (show k < b.length by omega)
      rw [find, hread, returns_bind, hfirst.before k y hik hk hy]
      exact ih (k + 1) (by omega) hk (by omega)
  intro n hn
  exact hback n i (Nat.le_refl i) hfirst.ge hn

theorem First.find_undefined (hfirst : First b p i b.length b.length) : ∀ n, b.length < i + n →
    find b p n i = .undefined := by
  have hback : ∀ n k, i ≤ k → k ≤ b.length → b.length < k + n → find b p n k = .undefined := by
    intro n
    induction n with
    | zero =>
      omega
    | succ n ih =>
      intro k hik hk hlt
      rcases Nat.eq_or_lt_of_le hk with rfl | hk
      · have hout : b[b.length]? = none := getElem?_eq_none (Nat.le_refl _)
        simp only [find, readAt, hout]
        rfl
      · obtain ⟨y, hy, hread⟩ := exists_readAt hk
        rw [find, hread, returns_bind, hfirst.before k y hik hk hy]
        exact ih (k + 1) (by omega) hk (by omega)
  intro n hn
  exact hback n i (Nat.le_refl i) hfirst.ge hn

theorem findBack_spec (b : List α) (p : α → Bool) (s : Nat) : ∀ i ≤ b.length,
    ∃ j, findBack b p s i = .returns j ∧ j ≤ i ∧ (s < i → s < j) ∧ (i ≤ s → j = i) := by
  intro i
  induction i with
  | zero =>
    intro
    exact ⟨0, rfl, Nat.le_refl 0, fun h => h, fun _ => rfl⟩
  | succ i ih =>
    intro hlen
    rw [findBack]
    by_cases hs : s < i
    · obtain ⟨x, hx, hread⟩ := exists_readAt (show i < b.length by omega)
      rw [if_pos hs, hread, returns_bind]
      cases hp : p x with
      | true => exact ⟨i + 1, rfl, Nat.le_refl _, fun h => h, fun _ => rfl⟩
      | false =>
        obtain ⟨j, hj, hle, hstop, -⟩ := ih (by omega)
        exact ⟨j, by simpa using hj, by omega, fun _ => hstop hs, by omega⟩
    · rw [if_neg hs]
      exact ⟨i + 1, rfl, Nat.le_refl _, fun h => h, fun _ => rfl⟩

/-! ### Writes -/

theorem write_append (front : List α) {old xs : List α} (rest : List α)
    (h : old.length = xs.length) :
    write (front ++ (old ++ rest)) front.length xs = .returns (front ++ (xs ++ rest)) := by
  have hlen : front.length + xs.length ≤ (front ++ (old ++ rest)).length := by
    rw [length_append, length_append]
    omega
  have hback : (front ++ (old ++ rest)).drop (front.length + xs.length) = rest := by
    rw [← h]
    simp
  rw [write, if_pos hlen, take_left, hback, append_assoc]

/-- `memmove(b + i, b + j, n)` -/
def move (b : List α) (i j n : Nat) : Outcome (List α) := do
  let xs ← slice b j n
  write b i xs

/-- **What is pulled forward** over other elements; behind it something is left over. -/
theorem move_append (front old xs rest : List α) :
    ∃ left, left.length = old.length + rest.length ∧
      move (front ++ (old ++ (xs ++ rest))) front.length (front.length + old.length) xs.length =
        .returns (front ++ (xs ++ left)) := by
  have hread : slice (front ++ (old ++ (xs ++ rest))) (front.length + old.length) xs.length =
      .returns xs := by
    have hlen : front.length + old.length + xs.length ≤
        (front ++ (old ++ (xs ++ rest))).length := by
      simp only [length_append]
      omega
    have hdrop : (front ++ (old ++ (xs ++ rest))).drop (front.length + old.length) =
        xs ++ rest := by
      rw [← append_assoc, ← length_append, drop_left]
    rw [slice, if_pos hlen, hdrop, take_left]
  have hold : ((old ++ (xs ++ rest)).take xs.length).length = xs.length := by
    rw [length_take, length_append, length_append]
    omega
  refine ⟨(old ++ (xs ++ rest)).drop xs.length, ?_, ?_⟩
  · simp only [length_drop, length_append]
    omega
  · have hwrite := write_append front ((old ++ (xs ++ rest)).drop xs.length) hold
    rw [take_append_drop] at hwrite
    rw [move, hread, returns_bind, hwrite]

section

variable [DecidableEq α]

theorem memchr_spec (b : List α) (x : α) {i n : Nat} (h : i + n ≤ b.length) :
    ∃ j, First b (fun y => decide (y = x)) i (i + n) j ∧
      memchr b x i n = .returns (if j < i + n then some j else none) := by
  obtain ⟨j, hj, hfirst⟩ := find_spec b (fun y => decide (y = x)) n i h
  refine ⟨j, hfirst, ?_⟩
  simp only [memchr, hj, returns_bind]

theorem memcmp_eq (xs : List α) (h : i + xs.length ≤ b.length) :
    memcmp b i xs = .returns (decide (xs <+: b.drop i)) := if_pos h

end

variable {xs : List α}

theorem getElem?_of_prefix (h : xs <+: b.drop i) {k : Nat} (hk : k < xs.length) :
    b[i + k]? = xs[k]? := by
  obtain ⟨rest, hrest⟩ := h
  rw [← getElem?_drop, ← hrest, getElem?_append_left hk]

theorem length_le_of_prefix (h : xs <+: b.drop i) (hne : xs ≠ []) :
    i + xs.length ≤ b.length := by
  have hle := h.length_le
  have hpos := length_pos_iff.mpr hne
  rw [length_drop] at hle
  omega

end Scan
