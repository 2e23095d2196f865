/-
Singly linked lists in a memory.

`next x` is the link of the node at `x`, and undefined where there is no node.
`Seg next p xs q` says that following the links from `p` passes the nodes `xs` and
arrives at `q`.  Everything else here is a walk along such a segment: to the last
node, or to the first node that passes a test, with the node before it.

The walks take a number of steps they are allowed to make, and are undefined when it
does not suffice.  Along a list that is shorter they never need more
(`Seg.lastOf`, `Seg.search`).
-/
import Mathlib.Data.List.Basic

namespace Forward

open List Option

variable {A : Type}

/-- From `p` the links lead through the nodes `xs` to `q`. -/
def Seg (next : A → Option (Option A)) : Option A → List A → Option A → Prop
  | p, [], q => p = q
  | p, x :: xs, q => p = some x ∧ ∃ n, next x = some n ∧ Seg next n xs q

/-- `while (node->next) node = node->next;` -/
def lastOf (next : A → Option (Option A)) : Nat → A → Option A
  | 0, _ => none
  | n + 1, x => (next x).bind fun q =>
    match q with
    | none => some x
    | some y => lastOf next n y

/-- The first node that passes the test, and the one before it. -/
def search (next : A → Option (Option A)) (test : A → Bool) :
    Nat → Option A → Option A → Option (Option (Option A × A))
  | 0, _, _ => none
  | _ + 1, _, none => some none
  | n + 1, prev, some x => (next x).bind fun q =>
    if test x then some (some (prev, x)) else search next test n (some x) q

/-! ### Segments -/

variable {next next' : A → Option (Option A)} {p q : Option A} {x : A} {xs ys : List A}

@[simp] theorem seg_nil : Seg next p [] q ↔ p = q := Iff.rfl

@[simp] theorem seg_cons :
    Seg next p (x :: xs) q ↔ p = some x ∧ ∃ n, next x = some n ∧ Seg next n xs q := Iff.rfl

theorem Seg.congr (h : Seg next p xs q) (heq : ∀ y ∈ xs, next' y = next y) :
    Seg next' p xs q := by
  induction xs generalizing p with
  | nil => exact h
  | cons x xs ih =>
    obtain ⟨hp, n, hn, hrest⟩ := h
    refine ⟨hp, n, ?_, ih hrest (fun y hy => heq y (mem_cons_of_mem x hy))⟩
    rw [heq x mem_cons_self]
    exact hn

theorem seg_append : Seg next p (xs ++ ys) q ↔ ∃ m, Seg next p xs m ∧ Seg next m ys q := by
  induction xs generalizing p with
  | nil =>
    constructor
    · intro h
      exact ⟨p, rfl, h⟩
    · rintro ⟨m, rfl, h⟩
      exact h
  | cons x xs ih =>
    constructor
    · rintro ⟨hp, n, hn, hrest⟩
      obtain ⟨m, hl, hr⟩ := ih.mp hrest
      exact ⟨m, ⟨hp, n, hn, hl⟩, hr⟩
    · rintro ⟨m, ⟨hp, n, hn, hl⟩, hr⟩
      exact ⟨hp, n, hn, ih.mpr ⟨m, hl, hr⟩⟩

variable [DecidableEq A] {test : A → Bool} {n : Nat} {l r : List A} {y : A}

theorem Seg.update (h : Seg next p xs q) (hx : x ∉ xs) (n : Option A) :
    Seg (Function.update next x (some n)) p xs q := by
  refine h.congr ?_
  intro y hy
  have hne : y ≠ x := fun heq => hx (heq ▸ hy)
  exact Function.update_of_ne hne _ _

theorem Seg.unlink (h : Seg next p (l ++ y :: x :: r) none)
    (hnd : (l ++ y :: x :: r).Nodup) :
    ∃ n, next x = some n ∧
      Seg (Function.update next y (some n)) p (l ++ y :: r) none := by
  rw [seg_append] at h
  obtain ⟨m, hl, rfl, n, hn, rfl, n', hn', hr⟩ := h
  rw [nodup_append] at hnd
  obtain ⟨-, hyr, hdis⟩ := hnd
  have hyl : y ∉ l := fun hm => hdis y hm y (by simp) rfl
  have hyr' : y ∉ r := by
    rw [nodup_cons] at hyr
    exact fun hm => hyr.1 (by simp [hm])
  refine ⟨n', hn', ?_⟩
  rw [seg_append]
  refine ⟨some y, hl.update hyl n', rfl, n', Function.update_self y _ _, ?_⟩
  exact hr.update hyr' n'

/-! ### Walks -/

omit [DecidableEq A] in
theorem Seg.lastOf_eq (h : Seg next (some y) (xs ++ [x]) none)
    (hn : xs.length < n) : lastOf next n y = some x := by
  induction xs generalizing y n with
  | nil =>
    obtain ⟨hyx, m, hm, hend⟩ := h
    obtain rfl := some.inj hyx
    obtain rfl : m = none := hend
    cases n with
    | zero => simp at hn
    | succ n => rw [lastOf, hm]; rfl
  | cons z xs ih =>
    obtain ⟨hyz, m, hm, hrest⟩ := h
    obtain rfl := some.inj hyz
    cases n with
    | zero => simp at hn
    | succ n =>
      rw [lastOf, hm]
      cases m with
      | none =>
        obtain ⟨m, hl, hr, -⟩ := seg_append.mp hrest
        cases xs with
        | nil =>
          rw [← show none = m from hl] at hr
          simp at hr
        | cons w xs => exact absurd hl.1 (by simp)
      | some w =>
        refine ih hrest ?_
        rw [length_cons] at hn
        omega

omit [DecidableEq A] in
theorem Seg.search_none (h : Seg next p xs none)
    (hno : ∀ y ∈ xs, test y = false) (hn : xs.length < n) (prev : Option A) :
    search next test n prev p = some none := by
  induction xs generalizing p n prev with
  | nil =>
    obtain rfl : p = none := h
    cases n with
    | zero => simp at hn
    | succ n => rfl
  | cons x xs ih =>
    obtain ⟨rfl, m, hm, hrest⟩ := h
    cases n with
    | zero => simp at hn
    | succ n =>
      rw [search, hm, hno x mem_cons_self]
      refine ih hrest (fun y hy => hno y (mem_cons_of_mem x hy)) ?_ (some x)
      rw [length_cons] at hn
      omega

omit [DecidableEq A] in
theorem Seg.search_some (h : Seg next p (l ++ x :: r) none)
    (hno : ∀ y ∈ l, test y = false) (hx : test x = true) (hn : l.length < n)
    (prev : Option A) : search next test n prev p = some (some (l.getLast?.or prev, x)) := by
  induction l generalizing p n prev with
  | nil =>
    obtain ⟨rfl, m, hm, -⟩ := h
    cases n with
    | zero => simp at hn
    | succ n =>
      rw [search, hm, bind_some, if_pos hx]
      rfl
  | cons y l ih =>
    obtain ⟨rfl, m, hm, hrest⟩ := h
    cases n with
    | zero => simp at hn
    | succ n =>
      rw [search, hm, bind_some, hno y mem_cons_self]
      rw [length_cons] at hn
      have hrec := ih hrest (fun z hz => hno z (mem_cons_of_mem y hz))
        (Nat.lt_of_succ_lt_succ hn) (some y)
      rw [hrec]
      cases l with
      | nil => rfl
      | cons z l => simp [getLast?_cons]

end Forward
