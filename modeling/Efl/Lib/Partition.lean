/-
Exact covers, by counting.

`mult f xs p` is the number of members `x` of a list with `p ∈ f x`.  A list tiles a set
when this number is one on the set and zero elsewhere: its members are disjoint and cover
the set.  Rearranging the list does not change the numbers, and replacing some members by
others with the same numbers keeps the tiling.
-/
import Mathlib.Order.CompletePartialOrder
import Efl.Lib.Cover
import Mathlib.Data.List.Count

namespace Cover

open Classical in
/-- The number of members that contain a point. -/
noncomputable def mult {α P : Type} (f : α → Set P) (xs : List α) (p : P) : Nat :=
  xs.countP fun x => decide (p ∈ f x)

variable {α P : Type} {f : α → Set P} {xs ys : List α} {x : α} {p : P} {s : Set P}

@[simp] theorem mult_nil : mult f [] p = 0 := rfl

open Classical in
theorem mult_cons : mult f (x :: xs) p = (if p ∈ f x then 1 else 0) + mult f xs p := by
  unfold mult
  rw [List.countP_cons]
  split
  · rename_i h
    rw [if_pos (by simpa using h)]
    omega
  · rename_i h
    rw [if_neg (by simpa using h)]
    omega

@[simp] theorem mult_append : mult f (xs ++ ys) p = mult f xs p + mult f ys p :=
  List.countP_append

theorem mult_perm (h : xs.Perm ys) : mult f xs p = mult f ys p := h.countP_eq _

theorem mem_cover_iff_mult : p ∈ cover f xs ↔ 0 < mult f xs p := by
  unfold mult
  rw [mem_cover]
  simp

/-- The members are disjoint and cover exactly `s`. -/
def Tiles (f : α → Set P) (xs : List α) (s : Set P) : Prop :=
  ∀ p, (p ∈ s → mult f xs p = 1) ∧ (p ∉ s → mult f xs p = 0)

theorem Tiles.of_mult (h : Tiles f xs s) (hm : ∀ p, mult f ys p = mult f xs p) : Tiles f ys s := by
  intro p
  rw [hm]
  exact h p

theorem Tiles.mult_le (h : Tiles f xs s) (p : P) : mult f xs p ≤ 1 := by
  by_cases hp : p ∈ s
  · exact ((h p).1 hp).le
  · rw [(h p).2 hp]
    exact Nat.zero_le 1

theorem pairwise_of_mult_le (h : ∀ p, mult f xs p ≤ 1) :
    xs.Pairwise fun x y => Disjoint (f x) (f y) := by
  induction xs with
  | nil => exact List.Pairwise.nil
  | cons x xs ih =>
    refine List.pairwise_cons.mpr ⟨?_, ?_⟩
    · intro y hy
      rw [Set.disjoint_left]
      intro p hx hpy
      have hpos : 0 < mult f xs p := mem_cover_iff_mult.mp ⟨y, hy, hpy⟩
      have hle := h p
      rw [mult_cons, if_pos hx] at hle
      omega
    · apply ih
      intro p
      have hle := h p
      rw [mult_cons] at hle
      omega

theorem Tiles.pairwise (h : Tiles f xs s) : xs.Pairwise fun x y => Disjoint (f x) (f y) :=
  pairwise_of_mult_le h.mult_le

theorem Tiles.cover_eq (h : Tiles f xs s) : cover f xs = s := by
  ext p
  rw [mem_cover_iff_mult]
  by_cases hp : p ∈ s
  · rw [(h p).1 hp]
    simp [hp]
  · rw [(h p).2 hp]
    simp [hp]

end Cover
