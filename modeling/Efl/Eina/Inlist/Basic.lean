/-
The lists of `eina_inlist.c`, whose links are inside of what they link.

A node has a link each way and a third one, `last`, which means the end of the list in
the first node and nothing anywhere else.  The heap maps a node to its links; a node
that is not there was never allocated or was freed, and an operation that touches it has
no value.  The walks to an end take the number of steps they may make, since the links
of a heap that was spoilt can go around.

`Linked H list xs` says that `list` points to a list of exactly the nodes `xs`.
-/
import Efl.Lib.Chain

namespace Eina.Inlist

-- `List.keys` of Mathlib would be a second reading.
export Chain (keys keys_nil keys_cons keys_append)

open Chain List Option Function

variable {A : Type}

/-- The links of every node; what a cell carries is its `last`. -/
abbrev Heap (A : Type) := Chain.Heap A (Option A)

section Code

variable [DecidableEq A]

/-- A node from `calloc` -/
def alloc (H : Heap A) (x : A) : Heap A := update H x (some ⟨none, none, none⟩)

/-- `free` -/
def free (H : Heap A) (x : A) : Heap A := update H x none

/-- `x->last = v` -/
def setLast (H : Heap A) (x : A) (v : Option A) : Option (Heap A) :=
  modify H x fun c => { c with val := v }

/-- `for (l = list; l->next; l = l->next)` -/
def lastOf (H : Heap A) : Nat → A → Option A
  | 0, _ => none
  | n + 1, x => (H x).bind fun c =>
    match c.next with
    | none => some x
    | some y => lastOf H n y

/-- `eina_inlist_append` -/
def append (n : Nat) (H : Heap A) (list : Option A) (new : A) : Option (Heap A × Option A) := do
  let H ← setNext H new none
  match list with
  | none =>
    let H ← setPrev H new none
    let H ← setLast H new (some new)
    return (H, some new)
  | some head =>
    let c ← H head
    let l ← match c.val with
      | some l => some l
      | none => lastOf H n head
    let H ← setNext H l (some new)
    let H ← setPrev H new (some l)
    let H ← setLast H head (some new)
    return (H, some head)

/-- `eina_inlist_prepend` -/
def prepend (H : Heap A) (list : Option A) (new : A) : Option (Heap A × Option A) := do
  let H ← setPrev H new none
  match list with
  | none =>
    let H ← setNext H new none
    let H ← setLast H new (some new)
    return (H, some new)
  | some head =>
    let H ← setNext H new (some head)
    let H ← setPrev H head (some new)
    let c ← H head
    let H ← setLast H new c.val
    let H ← setLast H head none
    return (H, some new)

/-- `eina_inlist_append_relative` -/
def appendRelative (n : Nat) (H : Heap A) (list : Option A) (new : A) (relative : Option A) :
    Option (Heap A × Option A) :=
  match relative, list with
  | some relative, some head => do
    let c ← H relative
    let H ← setNext H new c.next
    let H ← setPrevOf H c.next (some new)
    let H ← setNext H relative (some new)
    let H ← setPrev H new (some relative)
    let c ← H new
    let H ← if c.next = none then setLast H head (some new) else some H
    return (H, some head)
  | _, _ => append n H list new

/-- `eina_inlist_remove`, where the node before `item` or the new first one is changed -/
def bypass (H : Heap A) (head item : A) : Option (Heap A × Option A) :=
  (H item).bind fun c =>
    match c.prev with
    | some p => (setNext H p c.next).map fun H => (H, some head)
    | none =>
      match c.next with
      | none => some (H, none)
      | some r => (H head).bind fun h => (setLast H r h.val).map fun H => (H, some r)

/-- `if (item == list->last) list->last = item->prev` -/
def dropLast (H : Heap A) (head item : A) : Option (Heap A) :=
  (H head).bind fun h => (H item).bind fun c =>
    if h.val = some item then setLast H head c.prev else some H

/-- `item->next = NULL; item->prev = NULL` -/
def clear (H : Heap A) (item : A) : Option (Heap A) :=
  (setNext H item none).bind fun H => setPrev H item none

/-- `eina_inlist_remove` -/
def remove (H : Heap A) (list : Option A) (item : A) : Option (Heap A × Option A) :=
  match list with
  | none => some (H, none)
  | some head => (H item).bind fun c =>
    if item ≠ head ∧ c.prev = none ∧ c.next = none then some (H, some head)
    else
      (setPrevOf H c.next c.prev).bind fun H => (bypass H head item).bind fun b =>
        (dropLast b.1 head item).bind fun H => (clear H item).map fun H => (H, b.2)

end Code

/-! ### What an operation leaves alone -/

/-- Only links of `ys` are changed, and no node comes or goes. -/
structure Rewires (H H' : Heap A) (ys : List A) : Prop where
  others : ∀ y ∉ ys, H' y = H y
  alive : ∀ y, H' y = none ↔ H y = none

theorem Rewires.refl (H : Heap A) (ys : List A) : Rewires H H ys :=
  ⟨fun _ _ => rfl, fun _ => Iff.rfl⟩

variable {H H' : Heap A} {ys : List A}

theorem Rewires.trans {H'' : Heap A} (h : Rewires H H' ys) (h' : Rewires H' H'' ys) :
    Rewires H H'' ys :=
  ⟨fun y hy => (h'.others y hy).trans (h.others y hy), fun y => (h'.alive y).trans (h.alive y)⟩

theorem Rewires.mono {zs : List A} (h : Rewires H H' ys) (hsub : ∀ y ∈ ys, y ∈ zs) :
    Rewires H H' zs :=
  ⟨fun y hy => h.others y fun hmem => hy (hsub y hmem), h.alive⟩

section Writes

variable [DecidableEq A]

theorem rewires_update {H : Heap A} {x : A} {c c' : Cell A (Option A)} (hx : H x = some c) :
    Rewires H (update H x (some c')) [x] := by
  constructor
  · intro y hy
    exact update_of_ne (by simpa using hy) _ _
  · intro y
    by_cases hyx : y = x
    · rw [hyx, hx]
      simp
    · rw [update_of_ne hyx]

end Writes

/-! ### Well-formed lists -/

/-- `list` is a list of the nodes `xs`. -/
structure Linked (H : Heap A) (list : Option A) (xs : List A) : Prop where
  first : list = xs.head?
  nodup : xs.Nodup
  links : ∃ ps : List (A × Option A), keys ps = xs ∧ Seg H none ps none ∧
    ∀ x v rest, ps = (x, v) :: rest → v = last none ps

theorem linked_nil : Linked H none [] :=
  ⟨rfl, nodup_nil, [], rfl, trivial, by simp⟩

variable {list : Option A} {xs : List A}

theorem Linked.congr (h : Linked H list xs) (hsame : ∀ x ∈ xs, H' x = H x) : Linked H' list xs := by
  obtain ⟨ps, rfl, hseg, hlast⟩ := h.links
  exact ⟨h.first, h.nodup, ps, rfl, hseg.congr hsame, hlast⟩

theorem Linked.rewires (h : Linked H list xs) (hwrites : Rewires H H' ys)
    (hapart : ∀ x ∈ xs, x ∉ ys) : Linked H' list xs :=
  h.congr fun x hx => hwrites.others x (hapart x hx)

theorem first_keys (ps : List (A × Option A)) (n : Option A) :
    Chain.first ps n = (keys ps).head?.or n := by
  cases ps <;> rfl

theorem last_keys (ps : List (A × Option A)) (p : Option A) :
    last p ps = (keys ps).getLast?.or p := by
  induction ps generalizing p with
  | nil => rfl
  | cons x ps ih =>
    rw [last_cons, ih, keys_cons, getLast?_cons]
    cases (keys ps).getLast? <;> rfl

variable {r : List A} {x : A} {ps : List (A × Option A)} {l : List A}

theorem Linked.get (h : Linked H list (l ++ x :: r)) :
    ∃ v, H x = some ⟨r.head?, l.getLast?, v⟩ := by
  obtain ⟨ps, hkeys, hseg, -⟩ := h.links
  obtain ⟨pl, qs, rfl, rfl, hqs⟩ := map_eq_append_iff.mp hkeys
  obtain ⟨⟨y, v⟩, pr, rfl, rfl, rfl⟩ := map_eq_cons_iff.mp hqs
  refine ⟨v, ?_⟩
  rw [hseg.get, first_keys, last_keys, or_none, or_none]
  rfl

theorem Linked.alive (h : Linked H list xs) (hx : x ∈ xs) : H x ≠ none := by
  obtain ⟨l, r, rfl⟩ := append_of_mem hx
  obtain ⟨v, hv⟩ := h.get
  rw [hv]
  simp

theorem Linked.head (h : Linked H list (x :: r)) :
    H x = some ⟨r.head?, none, (x :: r).getLast?⟩ := by
  obtain ⟨ps, hkeys, hseg, hlast⟩ := h.links
  obtain ⟨⟨y, v⟩, pr, rfl, rfl, rfl⟩ := map_eq_cons_iff.mp hkeys
  have hcell : H y = some ⟨Chain.first pr none, none, v⟩ := hseg.1
  rw [hcell, first_keys, or_none, hlast y v pr rfl, last_keys]
  rfl

theorem Linked.uncons (h : Linked H list (x :: r)) :
    ∃ v ps, list = some x ∧ keys ps = r ∧ Seg H none ((x, v) :: ps) none ∧
      v = last (some x) ps ∧ x ∉ r ∧ r.Nodup := by
  obtain ⟨ps, hkeys, hseg, hlast⟩ := h.links
  obtain ⟨⟨y, v⟩, pr, rfl, rfl, rfl⟩ := map_eq_cons_iff.mp hkeys
  obtain ⟨hx, hr⟩ := nodup_cons.mp h.nodup
  exact ⟨v, pr, h.first, rfl, hseg, hlast y v pr rfl, hx, hr⟩

theorem linked_cons {v : Option A}
    (hseg : Seg H none ((x, v) :: ps) none) (hlast : v = last (some x) ps)
    (hnodup : (x :: keys ps).Nodup) : Linked H (some x) (x :: keys ps) := by
  refine ⟨rfl, hnodup, (x, v) :: ps, rfl, hseg, ?_⟩
  intro y w rest heq
  obtain ⟨hpair, hrest⟩ := cons.inj heq
  obtain rfl : v = w := congrArg Prod.snd hpair
  exact hlast

theorem linked_single {new : A} (h : H new = some ⟨none, none, some new⟩) :
    Linked H (some new) [new] := by
  have hkeys : keys ([] : List (A × Option A)) = [] := rfl
  rw [← hkeys]
  refine linked_cons ⟨h, trivial⟩ rfl ?_
  exact nodup_singleton _

theorem Linked.split (h : Linked H list (l ++ x :: r)) :
    ∃ pl v pr, keys pl = l ∧ keys pr = r ∧ Seg H none (pl ++ [(x, v)]) (Chain.first pr none) ∧
      Seg H (some x) pr none ∧
      ∀ z u rest, pl ++ (x, v) :: pr = (z, u) :: rest → u = last none (pl ++ (x, v) :: pr) := by
  obtain ⟨ps, hkeys, hseg, hlast⟩ := h.links
  obtain ⟨pl, qs, rfl, rfl, hqs⟩ := map_eq_append_iff.mp hkeys
  obtain ⟨⟨y, v⟩, pr, rfl, rfl, rfl⟩ := map_eq_cons_iff.mp hqs
  rw [← singleton_append, ← append_assoc, seg_append, last_append] at hseg
  exact ⟨pl, v, pr, rfl, rfl, hseg.1, hseg.2, hlast⟩

theorem linked_of_seg (hkeys : keys ps = xs) (hseg : Seg H none ps none)
    (hnodup : xs.Nodup) (hlast : ∀ z u rest, ps = (z, u) :: rest → u = last none ps) :
    Linked H xs.head? xs :=
  ⟨rfl, hnodup, ps, hkeys, hseg, hlast⟩

/-! ### What can be reached -/

/-- Following the links forward from `list` leads to `x`. -/
inductive Reaches (H : Heap A) : Option A → A → Prop where
  | here (x : A) : Reaches H (some x) x
  | next {x y : A} {c : Cell A (Option A)} (hx : H x = some c) (h : Reaches H c.next y) :
      Reaches H (some x) y

theorem Linked.reaches (h : Linked H list xs) :
    Reaches H list x ↔ x ∈ xs := by
  have hsuffix : ∀ (r l : List A), xs = l ++ r → (Reaches H r.head? x ↔ x ∈ r) := by
    intro r
    induction r with
    | nil =>
      intro l _
      constructor
      · intro hr
        cases hr
      · intro hx
        simp at hx
    | cons y r ih =>
      intro l hl
      have hget := h
      rw [hl] at hget
      obtain ⟨v, hv⟩ := hget.get
      have hrest := ih (l ++ [y]) (by rw [hl, append_assoc]; rfl)
      rw [mem_cons, ← hrest]
      constructor
      · intro hr
        cases hr with
        | here => exact .inl rfl
        | next hy hr =>
          obtain rfl := some.inj (hv.symm.trans hy)
          exact .inr hr
      · intro hx
        rcases hx with rfl | hr
        · exact Reaches.here x
        · exact Reaches.next hv hr
  rw [h.first]
  exact hsuffix xs [] rfl

end Eina.Inlist
