/-
Where items are in the tree, and what a collision finds.

`At id p t` says that the item is in the node at the path `p`.  `Visits` says that a collision
with a target comes to the node at the end of a path: its result has exactly the visible items
of the nodes it visits.
-/
import Efl.Eina.Quadtree.Basic

namespace Eina.QuadTree

open List

variable {Ω : Type} {item : Id → Item Ω} {id i : Id} {p p' : Path} {t : Root}

namespace Root

/-- The item is in the node at the path. -/
def At (id : Id) : Path → Root → Prop
  | _, nil => False
  | [], node _ _ both _ => id ∈ both
  | false :: p, node left _ _ _ => At id p left
  | true :: p, node _ right _ _ => At id p right

/-- No node has an item twice. -/
def Distinct : Root → Prop
  | nil => True
  | node left right both _ => both.Nodup ∧ Distinct left ∧ Distinct right

@[simp] theorem not_at_nil : ¬At id p nil := by
  cases p <;> simp [At]

theorem at_isNil (h : t.isNil = true) : ¬At id p t := by
  cases t with
  | nil => exact not_at_nil
  | node left right both sorted => simp [isNil] at h

theorem distinct_parts (h : Distinct t) :
    t.both.Nodup ∧ Distinct t.left ∧ Distinct t.right := by
  cases t with
  | nil => exact ⟨nodup_nil, trivial, trivial⟩
  | node left right both sorted => exact h

/-! ### Removing -/

theorem at_of_removeAt (h : At i p' (removeAt id p t)) : At i p' t := by
  induction t generalizing p p' with
  | nil => simp [removeAt] at h
  | node left right both sorted ihl ihr =>
    rcases p with - | ⟨- | -, p⟩
    · simp only [removeAt] at h
      split at h
      · exact absurd h not_at_nil
      rcases p' with - | ⟨- | -, p'⟩
      · exact mem_of_mem_erase h
      · exact h
      · exact h
    · rcases p' with - | ⟨- | -, p'⟩
      · exact h
      · exact ihl h
      · exact h
    · rcases p' with - | ⟨- | -, p'⟩
      · exact h
      · exact h
      · exact ihr h

theorem at_removeAt_of_ne (hne : i ≠ id) (h : At i p' t) : At i p' (removeAt id p t) := by
  induction t generalizing p p' with
  | nil => exact absurd h not_at_nil
  | node left right both sorted ihl ihr =>
    rcases p with - | ⟨- | -, p⟩
    · simp only [removeAt]
      split
      · rename_i hnone
        obtain ⟨hboth, hl, hr⟩ := hnone
        rcases p' with - | ⟨- | -, p'⟩
        · have : i ∈ both.erase id := (mem_erase_of_ne hne).mpr h
          rw [hboth] at this
          simp at this
        · exact absurd (show At i p' left from h) (at_isNil hl)
        · exact absurd (show At i p' right from h) (at_isNil hr)
      · rcases p' with - | ⟨- | -, p'⟩
        · exact (mem_erase_of_ne hne).mpr h
        · exact h
        · exact h
    · rcases p' with - | ⟨- | -, p'⟩
      · exact h
      · exact ihl h
      · exact h
    · rcases p' with - | ⟨- | -, p'⟩
      · exact h
      · exact h
      · exact ihr h

theorem not_at_removeAt (h : Distinct t) : ¬At id p (removeAt id p t) := by
  induction t generalizing p with
  | nil => simp [removeAt]
  | node left right both sorted ihl ihr =>
    rcases p with - | ⟨- | -, p⟩
    · simp only [removeAt]
      split
      · exact not_at_nil
      · exact h.1.not_mem_erase
    · exact ihl h.2.1
    · exact ihr h.2.2

theorem distinct_removeAt (h : Distinct t) : Distinct (removeAt id p t) := by
  induction t generalizing p with
  | nil =>
    rw [removeAt]
    exact h
  | node left right both sorted ihl ihr =>
    rcases p with - | ⟨- | -, p⟩
    · simp only [removeAt]
      split
      · trivial
      · exact ⟨h.1.erase id, h.2⟩
    · exact ⟨h.1, ihl h.2.1, h.2.2⟩
    · exact ⟨h.1, h.2.1, ihr h.2.2⟩

theorem at_unsort : At i p' (unsort p t) ↔ At i p' t := by
  induction t generalizing p p' with
  | nil => rw [unsort]
  | node left right both sorted ihl ihr =>
    rcases p with - | ⟨- | -, p⟩ <;> rcases p' with - | ⟨- | -, p'⟩ <;>
      simp only [unsort, At, ihl, ihr]

theorem distinct_unsort (h : Distinct t) : Distinct (unsort p t) := by
  induction t generalizing p with
  | nil =>
    rw [unsort]
    exact h
  | node left right both sorted ihl ihr =>
    rcases p with - | ⟨- | -, p⟩
    · exact h
    · exact ⟨h.1, ihl h.2.1, h.2.2⟩
    · exact ⟨h.1, h.2.1, ihr h.2.2⟩

end Root

/-! ### Merging -/

theorem mem_mergeLoop (moving both : List Id) : i ∈ (mergeLoop item moving both).1 ∨
    (i ∈ (mergeLoop item moving both).2 ∧ (item i).visible = true) ↔
      i ∈ moving ∨ (i ∈ both ∧ (item i).visible = true) := by
  fun_induction mergeLoop item moving both with
  | case1 both => simp
  | case2 m moving => simp
  | case3 m moving b both hb ih =>
    rw [ih]
    constructor
    · rintro (h | ⟨h, hv⟩)
      · exact .inl h
      · exact .inr ⟨mem_cons_of_mem _ h, hv⟩
    · rintro (h | ⟨h, hv⟩)
      · exact .inl h
      rcases mem_cons.mp h with rfl | h
      · exact absurd hv hb
      · exact .inr ⟨h, hv⟩
  | case4 m moving b both hb hlt list rest heq ih =>
    rw [heq] at ih
    simp only [mem_cons] at ih ⊢
    tauto
  | case5 m moving b both hb hlt list rest heq ih =>
    rw [heq] at ih
    simp only [Decidable.not_not] at hb
    simp only [mem_cons] at ih ⊢
    constructor
    · rintro ((rfl | h) | h)
      · exact .inr ⟨.inl rfl, hb⟩
      · rcases ih.mp (.inl h) with h | ⟨h, hv⟩
        · exact .inl h
        · exact .inr ⟨.inr h, hv⟩
      · rcases ih.mp (.inr h) with h | ⟨h, hv⟩
        · exact .inl h
        · exact .inr ⟨.inr h, hv⟩
    · rintro (h | ⟨rfl | h, hv⟩)
      · rcases ih.mpr (.inl h) with h | h
        · exact .inl (.inr h)
        · exact .inr h
      · exact .inl (.inl rfl)
      rcases ih.mpr (.inr ⟨h, hv⟩) with h | h
      · exact .inl (.inr h)
      · exact .inr h

theorem mem_mergeLast (item : Id → Item Ω) (last : Id) (front both : List Id) : i ∈
    (mergeLast item last front both).1 ∨
    (i ∈ (mergeLast item last front both).2 ∧ (item i).visible = true) ↔
      i ∈ front ∨ (i ∈ both ∧ (item i).visible = true) := by
  induction both generalizing front with
  | nil => simp [mergeLast]
  | cons b both ih =>
    rw [mergeLast]
    split
    · rename_i hb
      rw [ih]
      constructor
      · rintro (h | ⟨h, hv⟩)
        · exact .inl h
        · exact .inr ⟨mem_cons_of_mem _ h, hv⟩
      · rintro (h | ⟨h, hv⟩)
        · exact .inl h
        rcases mem_cons.mp h with rfl | h
        · exact absurd hv hb
        · exact .inr ⟨h, hv⟩
    split
    · rfl
    rename_i hb _
    simp only [Decidable.not_not] at hb
    rw [ih]
    simp only [mem_append, mem_cons, not_mem_nil, or_false]
    constructor
    · rintro ((h | rfl) | ⟨h, hv⟩)
      · exact .inl h
      · exact .inr ⟨.inl rfl, hb⟩
      · exact .inr ⟨.inr h, hv⟩
    · tauto

theorem mem_merge (result both : List Id) :
    i ∈ merge item result both ↔ i ∈ result ∨ (i ∈ both ∧ (item i).visible = true) := by
  unfold merge
  split
  · rename_i hnil
    simp [hnil]
  rw [← mem_mergeLoop]
  generalize mergeLoop item result both = parts
  obtain ⟨list, rest⟩ := parts
  dsimp only
  cases hlast : list.getLast? with
  | none =>
    rw [getLast?_eq_none_iff.mp hlast]
    simp
  | some last =>
    have hlist : ∀ j, j ∈ list ↔ j ∈ list.dropLast ∨ j = last := by
      obtain ⟨front, rfl⟩ := getLast?_eq_some_iff.mp hlast
      simp
    have hmem := mem_mergeLast (i := i) item last list.dropLast rest
    rw [hlist]
    simp only [mem_append, mem_singleton, mem_filter]
    tauto

/-! ### The way to a node -/

/-- A collision comes to the node at a path. -/
def Visits (target : Rectangle) (direction : Bool) : Path → Rectangle → Prop
  | [], _ => True
  | right :: p, size =>
    meets direction right size target = true ∧
      Visits target (!direction) p (half direction right size)

theorem mem_ordered (both : List Id) (sorted : Bool) : i ∈ ordered item both sorted ↔ i ∈ both := by
  unfold ordered
  split
  · rfl
  · exact (Lists.sort_perm _ both).mem_iff

/-- **What a collision finds**: the visible items of the nodes it visits. -/
theorem mem_collideTree (item : Id → Item Ω) (target : Rectangle) : ∀ (t : Root) (result : List Id)
    (direction : Bool)
    (size : Rectangle), i ∈ (collideTree item result direction size target t).1 ↔
      i ∈ result ∨ ∃ p, Visits target direction p size ∧ Root.At i p t ∧
        (item i).visible = true := by
  intro t
  induction t with
  | nil =>
    simp [collideTree]
  | node left right both sorted ihl ihr =>
    intro result direction size
    -- the node itself, its left half and its right half
    have hsplit : (∃ p, Visits target direction p size ∧
      Root.At i p (.node left right both sorted) ∧
        (item i).visible = true) ↔ (i ∈ both ∧ (item i).visible = true) ∨
        (meets direction false size target = true ∧ ∃ p, Visits target (!direction) p
          (half direction false size) ∧ Root.At i p left ∧ (item i).visible = true) ∨
        (meets direction true size target = true ∧ ∃ p, Visits target (!direction) p
          (half direction true size) ∧ Root.At i p right ∧ (item i).visible = true) := by
      constructor
      · rintro ⟨- | ⟨- | -, p⟩, hvisit, hat, hv⟩
        · exact .inl ⟨hat, hv⟩
        · exact .inr (.inl ⟨hvisit.1, p, hvisit.2, hat, hv⟩)
        · exact .inr (.inr ⟨hvisit.1, p, hvisit.2, hat, hv⟩)
      · rintro (⟨hat, hv⟩ | ⟨hmeets, p, hvisit, hat, hv⟩ | ⟨hmeets, p, hvisit, hat, hv⟩)
        · exact ⟨[], trivial, hat, hv⟩
        · exact ⟨false :: p, ⟨hmeets, hvisit⟩, hat, hv⟩
        · exact ⟨true :: p, ⟨hmeets, hvisit⟩, hat, hv⟩
    rw [hsplit, collideTree]
    by_cases hl : meets direction false size target = true <;>
      by_cases hr : meets direction true size target = true <;>
        simp only [hl, hr, if_true, if_false, true_and, false_and, false_or, or_false,
          Bool.false_eq_true, ihl, ihr, mem_merge, mem_ordered, or_assoc]

theorem at_collideTree (item : Id → Item Ω) (target : Rectangle) : ∀ (t : Root) (result : List Id)
    (direction : Bool)
    (size : Rectangle) (p : Path), Root.At i p (collideTree item result direction size target t).2 ↔
      Root.At i p t := by
  intro t
  induction t with
  | nil =>
    intro result direction size p
    rfl
  | node left right both sorted ihl ihr =>
    intro result direction size p
    rw [collideTree]
    rcases p with - | ⟨- | -, p⟩
    · exact mem_ordered both sorted
    · dsimp only [Root.At]
      split
      · exact ihl _ _ _ p
      · rfl
    · dsimp only [Root.At]
      split
      · exact ihr _ _ _ p
      · rfl

theorem distinct_collideTree (item : Id → Item Ω) (target : Rectangle) : ∀ (t : Root)
    (result : List Id)
    (direction : Bool) (size : Rectangle), Root.Distinct t →
      Root.Distinct (collideTree item result direction size target t).2 := by
  intro t
  induction t with
  | nil =>
    intro result direction size h
    exact h
  | node left right both sorted ihl ihr =>
    intro result direction size h
    obtain ⟨hboth, hl, hr⟩ := h
    have hordered : (ordered item both sorted).Nodup := by
      unfold ordered
      split
      · exact hboth
      · exact (Lists.sort_perm _ both).nodup_iff.mpr hboth
    by_cases hml : meets direction false size target = true <;>
      by_cases hmr : meets direction true size target = true <;>
        simp only [collideTree, hml, hmr, if_true, if_false, Bool.false_eq_true, Root.Distinct, hl,
          hr, ihl _ _ _ hl, ihr _ _ _ hr, hordered, and_self]

theorem collideTree_again (item : Id → Item Ω) (target : Rectangle) : ∀ (t : Root)
    (result : List Id) (direction : Bool)
    (size : Rectangle),
      (collideTree item result direction size target
        (collideTree item result direction size target t).2).1 =
        (collideTree item result direction size target t).1 := by
  intro t
  induction t with
  | nil =>
    intro result direction size
    rfl
  | node left right both sorted ihl ihr =>
    intro result direction size
    have hordered : ordered item (ordered item both sorted) true = ordered item both sorted := rfl
    by_cases hl : meets direction false size target = true <;>
      by_cases hr : meets direction true size target = true <;>
        simp only [collideTree, hl, hr, if_true, if_false, Bool.false_eq_true, hordered, ihl, ihr]

end Eina.QuadTree
