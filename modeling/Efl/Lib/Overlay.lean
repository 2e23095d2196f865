/-
Inheritance by copying tables, against inheritance along a linear order.

By the order, which begins with the member itself and ends in the order of its parent, a member
inherits what the first definition along it says.  The table of a member says what it defines
itself, else what the finished table of the first member in front of the parent says, else what
the table of the parent says.  A finished table may hold what stands behind the parent, so the two
do not always agree; when they do is told here.
-/
import Mathlib.Data.List.Basic

namespace Overlay

open List

variable {α β : Type}

/-- A hierarchy, with what its members define; `own a = some none` blocks what is inherited. -/
structure Hierarchy (α β : Type) where
  rank : α → Nat
  front : α → List α
  parent : α → Option α
  own : α → Option (Option β)
  order : α → List α
  front_lt : ∀ a, ∀ b ∈ front a, rank b < rank a
  parent_lt : ∀ a b, parent a = some b → rank b < rank a
  order_eq : ∀ a, order a = a :: front a ++ ((parent a).map order).getD []
  order_nodup : ∀ a, (order a).Nodup

namespace Hierarchy

variable {h : Hierarchy α β} {a b x : α} {v : β} {table : α → Option β}

/-- What a member defines, where that is something. -/
def defines (h : Hierarchy α β) (a : α) : Option β := (h.own a).join

/-- The first definition along a list. -/
def first (h : Hierarchy α β) (l : List α) : Option β := l.findSome? h.defines

/-- The table is made of finished tables. -/
def Overlays (h : Hierarchy α β) (table : α → Option β) : Prop :=
  ∀ a, table a =
    match h.own a with
    | some v => v
    | none => ((h.front a).findSome? table).or ((h.parent a).bind table)

/-- Between a member and the one that it inherits from, no order has another definition. -/
def Unhidden (h : Hierarchy α β) : Prop :=
  ∀ a s x t, h.order a = s ++ x :: t → h.first (h.order x) ≠ none →
    h.first (x :: t) = h.first (h.order x)

/-- Nothing is defined that a member could inherit, if it blocks that. -/
def Unblocked (h : Hierarchy α β) : Prop :=
  ∀ a, h.own a = some none → h.first (h.order a) = none

theorem head_order (h : Hierarchy α β) (a : α) : ∃ t, h.order a = a :: t :=
  ⟨_, h.order_eq a⟩

theorem first_cons (h : Hierarchy α β) (a : α) (l : List α) :
    h.first (a :: l) = (h.defines a).or (h.first l) := by
  unfold first
  rw [findSome?_cons]
  cases h.defines a <;> rfl

theorem defines_none (hx : h.first (h.order x) = none) : h.defines x = none := by
  obtain ⟨t, ht⟩ := h.head_order x
  rw [ht, first_cons] at hx
  cases hd : h.defines x with
  | none => rfl
  | some v => rw [hd] at hx; exact absurd hx (by simp)

theorem findSome_table (hu : h.Unhidden) {u : List α} :
    ∀ (t s : List α), h.order a = s ++ t ++ u → (∀ x ∈ t, table x = h.first (h.order x)) →
      (t.findSome? table).or (h.first u) = h.first (t ++ u) := by
  intro t
  induction t with
  | nil =>
    intro s _ _
    rfl
  | cons x t ih =>
    intro s hs htable
    have hrest := ih (s ++ [x]) (by rw [hs]; simp) fun y hy => htable y (mem_cons_of_mem _ hy)
    rw [findSome?_cons, htable x mem_cons_self]
    cases hfirst : h.first (h.order x) with
    | none =>
      rw [hrest, cons_append, first_cons, defines_none hfirst]
      rfl
    | some v =>
      rw [Option.some_or, ← hfirst]
      refine (hu a s x (t ++ u) ?_ ?_).symm
      · rw [hs]
        simp
      · rw [hfirst]
        simp

theorem table_eq (ho : h.Overlays table) (hu : h.Unhidden)
    (hb : h.Unblocked) : ∀ a, table a = h.first (h.order a) := by
  intro a
  induction hn : h.rank a using Nat.strongRecOn generalizing a with
  | ind n ih =>
    have holder : ∀ b, h.rank b < h.rank a → table b = h.first (h.order b) :=
      fun b hlt => ih (h.rank b) (hn ▸ hlt) b rfl
    rw [ho]
    cases hown : h.own a with
    | some v =>
      cases v with
      | none => exact (hb a hown).symm
      | some v =>
        obtain ⟨t, ht⟩ := h.head_order a
        rw [ht, first_cons, defines, hown]
        rfl
    | none =>
      have hparent : (h.parent a).bind table = h.first (((h.parent a).map h.order).getD []) := by
        cases hp : h.parent a with
        | none => rfl
        | some p => exact holder p (h.parent_lt a p hp)
      have hfront := findSome_table hu (h.front a) [a] (h.order_eq a)
        fun x hx => holder x (h.front_lt a x hx)
      have hnone : h.defines a = none := by rw [defines, hown]; rfl
      rw [hparent, hfront, h.order_eq, cons_append, first_cons, hnone]
      rfl

end Hierarchy

/-! ### Going on behind a member -/

/-- What stands behind the first place of a member. -/
def after [DecidableEq α] (b : α) (l : List α) : List α := (l.dropWhile (· ≠ b)).tail

theorem after_append [DecidableEq α] {b : α} {s t : List α} (hb : b ∉ s) :
    after b (s ++ b :: t) = t := by
  unfold after
  induction s with
  | nil => simp
  | cons y s ih =>
    have hne : y ≠ b := by
      rintro rfl
      exact hb mem_cons_self
    rw [cons_append, dropWhile_cons_of_pos (by simpa using hne)]
    exact ih fun h => hb (mem_cons_of_mem _ h)

namespace Hierarchy

variable {h : Hierarchy α β} [DecidableEq α]

/-- Tables and orders agree at every member, and behind every member of its order. -/
def Agrees (h : Hierarchy α β) (table : α → Option β) : Prop :=
  ∀ a, table a = h.first (h.order a) ∧
    ∀ b ∈ h.order a, (after b (h.order a)).findSome? table = h.first (after b (h.order a))

theorem after_order {a b : α} {s t : List α} (h : Hierarchy α β) (hs : h.order a = s ++ b :: t) :
    after b (h.order a) = t := by
  have hnodup := h.order_nodup a
  rw [hs] at hnodup ⊢
  refine after_append ?_
  intro hb
  exact (nodup_append.mp hnodup).2.2 b hb b mem_cons_self rfl

/-- **Copied tables agree with the orders** exactly where these hide and block nothing. -/
theorem agrees_iff {table : α → Option β} (ho : h.Overlays table) :
    h.Agrees table ↔ h.Unhidden ∧ h.Unblocked := by
  constructor
  · intro hagrees
    refine ⟨?_, ?_⟩
    · intro a s x t hs hfirst
      rcases s.eq_nil_or_concat with rfl | ⟨s, b, rfl⟩
      · obtain ⟨r, hr⟩ := h.head_order a
        obtain ⟨rfl, rfl⟩ := cons.inj (hr.symm.trans hs)
        rw [hr]
      have hb : h.order a = s ++ b :: (x :: t) := by
        rw [hs]
        simp
      have hafter := h.after_order hb
      have hsuper := (hagrees a).2 b (by rw [hs]; simp)
      rw [hafter, findSome?_cons, (hagrees x).1] at hsuper
      rw [← hsuper]
      cases hv : h.first (h.order x) with
      | none => exact absurd hv hfirst
      | some v => rfl
    · intro a hown
      rw [← (hagrees a).1, ho, hown]
  · rintro ⟨hu, hb⟩ a
    have htable := table_eq ho hu hb
    refine ⟨htable a, ?_⟩
    intro b hbmem
    obtain ⟨s, t, hs⟩ := append_of_mem hbmem
    have hbehind := findSome_table (u := []) hu t (s ++ [b]) (by rw [hs]; simp) fun x _ => htable x
    rw [h.after_order hs]
    simpa [first] using hbehind

end Hierarchy

end Overlay
