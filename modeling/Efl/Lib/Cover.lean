/-
What the members of a list cover together.

`cover f xs` is the union of the sets `f x` for the members `x` of a list: the pixels of a
list of rectangles, whatever the order and the overlaps.
-/
import Mathlib.Data.Set.Lattice
import Mathlib.Data.List.Basic

namespace Cover

variable {α P : Type} {f : α → Set P} {xs ys : List α} {x : α} {p : P}

def cover (f : α → Set P) (xs : List α) : Set P := {p | ∃ x ∈ xs, p ∈ f x}

theorem mem_cover : p ∈ cover f xs ↔ ∃ x ∈ xs, p ∈ f x := Iff.rfl

@[simp] theorem mem_cover_nil : p ∈ cover f [] ↔ False := by
  simp [mem_cover]

@[simp] theorem mem_cover_cons : p ∈ cover f (x :: xs) ↔ p ∈ f x ∨ p ∈ cover f xs := by
  simp [mem_cover]

@[simp] theorem mem_cover_append :
    p ∈ cover f (xs ++ ys) ↔ p ∈ cover f xs ∨ p ∈ cover f ys := by
  simp only [mem_cover, List.mem_append]
  constructor
  · rintro ⟨x, hx | hx, hp⟩
    · exact .inl ⟨x, hx, hp⟩
    · exact .inr ⟨x, hx, hp⟩
  · rintro (⟨x, hx, hp⟩ | ⟨x, hx, hp⟩)
    · exact ⟨x, .inl hx, hp⟩
    · exact ⟨x, .inr hx, hp⟩

theorem cover_mono (h : ∀ x ∈ xs, x ∈ ys) : cover f xs ⊆ cover f ys := by
  rintro p ⟨x, hx, hp⟩
  exact ⟨x, h x hx, hp⟩

end Cover
