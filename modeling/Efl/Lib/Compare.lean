/-
Comparison callbacks.

A callback answers with a number whose sign says how two items stand to each other.
`Total` says that the signs are the ones of a total preorder, and `Sorted` that every item
of a list is at most every later one.
-/
import Mathlib.Data.List.Pairwise

namespace Compare

open List

variable {α : Type} {func : α → α → Int} {xs l r : List α} {x y : α}

/-- The callback compares the items of a total preorder. -/
structure Total (func : α → α → Int) : Prop where
  swap : ∀ x y, func x y < 0 ↔ 0 < func y x
  trans : ∀ {x y z}, func x y ≤ 0 → func y z ≤ 0 → func x z ≤ 0

def Sorted (func : α → α → Int) (xs : List α) : Prop := xs.Pairwise fun x y => func x y ≤ 0

instance (func : α → α → Int) (xs : List α) : Decidable (Sorted func xs) :=
  inferInstanceAs (Decidable (xs.Pairwise _))

theorem Total.le_swap (h : Total func) : func x y ≤ 0 ↔ 0 ≤ func y x := by
  have := h.swap y x
  omega

theorem Total.refl (h : Total func) (x : α) : func x x = 0 := by
  have := h.swap x x
  omega

theorem Total.le_of_not_lt (h : Total func) (hxy : ¬func x y < 0) : func y x ≤ 0 :=
  h.le_swap.mpr (by omega)

theorem sorted_nil : Sorted func [] := List.Pairwise.nil

theorem sorted_singleton (x : α) : Sorted func [x] := pairwise_singleton _ _

theorem sorted_cons : Sorted func (x :: xs) ↔ (∀ y ∈ xs, func x y ≤ 0) ∧ Sorted func xs :=
  pairwise_cons

theorem sorted_append : Sorted func (l ++ r) ↔
    Sorted func l ∧ Sorted func r ∧ ∀ x ∈ l, ∀ y ∈ r, func x y ≤ 0 := pairwise_append

theorem Sorted.insert (hfunc : Total func) (h : Sorted func (l ++ r))
    (hl : ∀ y, l.getLast? = some y → func y x ≤ 0) (hr : ∀ y, r.head? = some y → func x y ≤ 0) :
    Sorted func (l ++ x :: r) := by
  obtain ⟨hsl, hsr, hlr⟩ := sorted_append.mp h
  have hbefore : ∀ y ∈ l, func y x ≤ 0 := by
    intro y hy
    rcases eq_nil_or_concat l with rfl | ⟨front, z, rfl⟩
    · simp at hy
    rw [concat_eq_append] at hl hsl hy
    have hz := hl z (getLast?_concat ..)
    rcases mem_append.mp hy with hy | hy
    · exact hfunc.trans ((sorted_append.mp hsl).2.2 y hy z (by simp)) hz
    · rw [mem_singleton.mp hy]
      exact hz
  have hbehind : ∀ y ∈ r, func x y ≤ 0 := by
    intro y hy
    cases r with
    | nil => simp at hy
    | cons z rest =>
      have hz := hr z rfl
      rcases mem_cons.mp hy with rfl | hy
      · exact hz
      · exact hfunc.trans hz ((sorted_cons.mp hsr).1 y hy)
  refine sorted_append.mpr ⟨hsl, sorted_cons.mpr ⟨hbehind, hsr⟩, ?_⟩
  intro y hy z hz
  rcases mem_cons.mp hz with rfl | hz
  · exact hbefore y hy
  · exact hlr y hy z hz

theorem Sorted.get_le (hfunc : Total func) (h : Sorted func xs) {i j : Nat} (hij : i ≤ j)
    (hi : xs[i]? = some x) (hj : xs[j]? = some y) : func x y ≤ 0 := by
  rcases Nat.eq_or_lt_of_le hij with rfl | hlt
  · obtain rfl := Option.some.inj (hi.symm.trans hj)
    exact Int.le_of_eq (hfunc.refl x)
  obtain ⟨hil, rfl⟩ := List.getElem?_eq_some_iff.mp hi
  obtain ⟨hjl, rfl⟩ := List.getElem?_eq_some_iff.mp hj
  exact pairwise_iff_getElem.mp h i j hil hjl hlt

/-! ### The place of an item in a sorted list -/

variable {item : α}

/-- The item belongs before the `i`-th item of the list. -/
def Belongs (func : α → α → Int) (item : α) (xs : List α) (i : Nat) : Prop :=
  (∀ k y, i = k + 1 → xs[k]? = some y → func y item ≤ 0) ∧
    ∀ y, xs[i]? = some y → 0 ≤ func y item

theorem Belongs.sorted (hfunc : Total func) {xs : List α} {i : Nat} (hi : i ≤ xs.length)
    (h : Belongs func item xs i) (hsorted : Sorted func xs) : Sorted func
      (xs.take i ++ item :: xs.drop i) := by
  obtain ⟨hbefore, hbehind⟩ := h
  rw [← take_append_drop i xs] at hsorted
  refine hsorted.insert hfunc (fun y hy => ?_) fun y hy => ?_
  · cases i with
    | zero => simp at hy
    | succ k =>
      refine hbefore k y rfl ?_
      have hlen : (xs.take (k + 1)).length = k + 1 := by rw [length_take]; omega
      rw [getLast?_eq_getElem?, hlen, Nat.add_sub_cancel] at hy
      rwa [getElem?_take_of_lt (Nat.lt_succ_self k)] at hy
  · rw [head?_drop] at hy
    exact hfunc.le_swap.mpr (hbehind y hy)

theorem answers_mono (hfunc : Total func) {xs : List α} (hsorted : Sorted func xs) {j k : Nat}
    {y z : α} (hjk : j ≤ k) (hy : xs[j]? = some y) (hz : xs[k]? = some z) :
    (0 ≤ func y item → 0 ≤ func z item) ∧ (func z item ≤ 0 → func y item ≤ 0) := by
  have hyz := hsorted.get_le hfunc hjk hy hz
  constructor
  · intro h
    exact hfunc.le_swap.mp (hfunc.trans (hfunc.le_swap.mpr h) hyz)
  · intro h
    exact hfunc.trans hyz h

end Compare
