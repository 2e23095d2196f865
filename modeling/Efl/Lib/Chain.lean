/-
Chains of cells that are linked both ways.

A heap is a partial map from addresses to cells, and following a pointer to a cell that is not
there has no value.  `Seg H p xs n` says that the cells of `xs` stand one after another in the heap,
the first one with the link back to `p` and the last one with the link on to `n`.  Whole lists are
segments from null to null, and an operation on a list is a few changes of ends (`Seg.setNextOf`,
`Seg.setPrevOf`) between a cut and a join (`seg_append`).
-/
import Mathlib.Data.List.Induction
import Mathlib.Data.List.Nodup

namespace Chain

open List Function

/-- A cell with its two links and what it carries. -/
structure Cell (A P : Type) where
  next : Option A
  prev : Option A
  val : P

abbrev Heap (A P : Type) := A → Option (Cell A P)

variable {A P Q : Type}

/-! ### Writing to a heap -/

section Writes

variable [DecidableEq A]

/-- A write to a cell, which has to be there. -/
def modify (H : Heap A P) (x : A) (f : Cell A P → Cell A P) : Option (Heap A P) :=
  (H x).map fun c => update H x (some (f c))

/-- `x->next = v` -/
def setNext (H : Heap A P) (x : A) (v : Option A) : Option (Heap A P) :=
  modify H x fun c => { c with next := v }

/-- `x->prev = v` -/
def setPrev (H : Heap A P) (x : A) (v : Option A) : Option (Heap A P) :=
  modify H x fun c => { c with prev := v }

/-- `if (p) p->next = v` -/
def setNextOf (H : Heap A P) (p : Option A) (v : Option A) : Option (Heap A P) :=
  match p with
  | none => some H
  | some x => setNext H x v

/-- `if (p) p->prev = v` -/
def setPrevOf (H : Heap A P) (p : Option A) (v : Option A) : Option (Heap A P) :=
  match p with
  | none => some H
  | some x => setPrev H x v

theorem modify_eq {H : Heap A P} {x : A} {c : Cell A P} (h : H x = some c)
    (f : Cell A P → Cell A P) : modify H x f = some (update H x (some (f c))) := by
  rw [modify, h, Option.map_some]

end Writes

/-! ### Segments -/

/-- The addresses of a segment. -/
def keys (xs : List (A × P)) : List A := xs.map Prod.fst

/-- The first address of `xs`, or what comes after it. -/
def first : List (A × P) → Option A → Option A
  | [], n => n
  | (x, _) :: _, _ => some x

/-- The last address of `xs`, or what comes before it. -/
def last : Option A → List (A × P) → Option A
  | p, [] => p
  | _, (x, _) :: xs => last (some x) xs

def Seg (H : Heap A P) : Option A → List (A × P) → Option A → Prop
  | _, [], _ => True
  | p, (x, v) :: xs, n => H x = some ⟨first xs n, p, v⟩ ∧ Seg H (some x) xs n

@[simp] theorem keys_nil : keys ([] : List (A × P)) = [] := rfl

@[simp] theorem keys_cons (x : A × P) (xs : List (A × P)) : keys (x :: xs) = x.1 :: keys xs := rfl

@[simp] theorem keys_append (xs ys : List (A × P)) : keys (xs ++ ys) = keys xs ++ keys ys :=
  map_append

@[simp] theorem length_keys (xs : List (A × P)) : (keys xs).length = xs.length := length_map _

@[simp] theorem first_nil (n : Option A) : first ([] : List (A × P)) n = n := rfl

@[simp] theorem first_cons (x : A × P) (xs : List (A × P)) (n : Option A) :
    first (x :: xs) n = some x.1 := rfl

@[simp] theorem last_nil (p : Option A) : last p ([] : List (A × P)) = p := rfl

@[simp] theorem last_cons (p : Option A) (x : A × P) (xs : List (A × P)) :
    last p (x :: xs) = last (some x.1) xs := rfl

@[simp] theorem seg_nil (H : Heap A P) (p n : Option A) : Seg H p [] n := trivial

@[simp] theorem seg_cons (H : Heap A P) (p n : Option A) (x : A × P) (xs : List (A × P)) :
    Seg H p (x :: xs) n ↔ H x.1 = some ⟨first xs n, p, x.2⟩ ∧ Seg H (some x.1) xs n := Iff.rfl

@[simp] theorem first_append (xs ys : List (A × P)) (n : Option A) :
    first (xs ++ ys) n = first xs (first ys n) := by
  cases xs <;> rfl

@[simp] theorem last_append (p : Option A) (xs ys : List (A × P)) :
    last p (xs ++ ys) = last (last p xs) ys := by
  induction xs generalizing p with
  | nil => rfl
  | cons x xs ih => exact ih (some x.1)

variable {H : Heap A P} {p n : Option A} {xs : List (A × P)} {ys : List (A × P)}

theorem seg_append :
    Seg H p (xs ++ ys) n ↔ Seg H p xs (first ys n) ∧ Seg H (last p xs) ys n := by
  induction xs generalizing p with
  | nil => simp
  | cons x xs ih =>
    rw [cons_append, seg_cons, ih, seg_cons, first_append]
    tauto

theorem first_eq_none : first xs none = none ↔ xs = [] := by
  cases xs <;> simp

theorem last_eq_none : last p xs = none ↔ p = none ∧ xs = [] := by
  induction xs generalizing p with
  | nil => simp
  | cons x xs ih => simp [ih]

theorem last_congr (h : xs ≠ []) (p q : Option A) : last p xs = last q xs := by
  cases xs with
  | nil => exact absurd rfl h
  | cons x xs => rfl

theorem first_congr (h : xs ≠ []) (m n : Option A) :
    first xs m = first xs n := by
  cases xs with
  | nil => exact absurd rfl h
  | cons x xs => rfl

variable {x : A}

theorem first_mem (h : first xs none = some x) : x ∈ keys xs := by
  cases xs with
  | nil => simp at h
  | cons y ys =>
    obtain rfl := Option.some.inj h
    exact mem_cons_self

theorem last_mem (h : last p xs = some x) :
    p = some x ∨ x ∈ keys xs := by
  induction xs generalizing p with
  | nil => exact .inl h
  | cons y ys ih =>
    rcases ih h with hy | hy
    · obtain rfl := Option.some.inj hy
      exact .inr mem_cons_self
    · exact .inr (mem_cons_of_mem _ hy)

theorem Seg.congr {H' : Heap A P} (h : Seg H p xs n) (hsame : ∀ x ∈ keys xs, H' x = H x) :
    Seg H' p xs n := by
  induction xs generalizing p with
  | nil => trivial
  | cons x xs ih =>
    obtain ⟨hx, hxs⟩ := h
    refine ⟨?_, ih hxs (fun y hy => hsame y (mem_cons_of_mem _ hy))⟩
    rw [hsame x.1 mem_cons_self]
    exact hx

theorem Seg.get {v : P} (h : Seg H p (xs ++ (x, v) :: ys) n) :
    H x = some ⟨first ys n, last p xs, v⟩ :=
  (seg_append.mp h).2.1

/-! ### Changing ends -/

section Ends

variable [DecidableEq A]

variable {H : Heap A P} {p n : Option A} {xs : List (A × P)} {ys : List (A × P)} {q o : Option A}

/-- The last link of a segment is written. -/
theorem Seg.setNextOf (h : Seg H p xs n) (hnodup : (keys xs).Nodup) (v : Option A) :
    ∃ H', setNextOf H (last none xs) v = some H' ∧ Seg H' p xs v ∧
      ∀ y ∉ keys xs, H' y = H y := by
  induction xs using reverseRecOn with
  | nil => exact ⟨H, rfl, trivial, fun _ _ => rfl⟩
  | append_singleton xs x _ =>
    obtain ⟨hxs, hx, -⟩ := seg_append.mp h
    rw [keys_append, nodup_append] at hnodup
    have hfresh : ∀ y ∈ keys xs, y ≠ x.1 := fun y hy => hnodup.2.2 y hy x.1 (by simp)
    refine ⟨update H x.1 (some ⟨v, last p xs, x.2⟩), ?_,
      seg_append.mpr ⟨?_, ?_, trivial⟩, ?_⟩
    · rw [last_append]
      exact modify_eq hx _
    · refine hxs.congr ?_
      intro y hy
      exact update_of_ne (hfresh y hy) _ _
    · rw [update_self]
      rfl
    · intro y hy
      refine update_of_ne ?_ _ _
      rintro rfl
      exact hy (by simp)

/-- The first back link is written. -/
theorem Seg.setPrevOf (h : Seg H p xs n) (hnodup : (keys xs).Nodup) (v : Option A) :
    ∃ H', setPrevOf H (first xs none) v = some H' ∧ Seg H' v xs n ∧
      ∀ y ∉ keys xs, H' y = H y := by
  cases xs with
  | nil => exact ⟨H, rfl, trivial, fun _ _ => rfl⟩
  | cons x xs =>
    obtain ⟨hx, hxs⟩ := h
    rw [keys_cons, nodup_cons] at hnodup
    refine ⟨_, modify_eq hx _, ⟨?_, ?_⟩, ?_⟩
    · rw [update_self]
    · refine hxs.congr ?_
      intro y hy
      refine update_of_ne ?_ _ _
      rintro rfl
      exact hnodup.1 hy
    · intro y hy
      refine update_of_ne ?_ _ _
      rintro rfl
      exact hy (by simp)

theorem Seg.setEnds (hx : Seg H p xs n) (hy : Seg H q ys o)
    (hnodup : (keys (xs ++ ys)).Nodup) (v w : Option A) :
    ∃ H1 H2, Chain.setPrevOf H (first ys none) v = some H1 ∧
      Chain.setNextOf H1 (last none xs) w = some H2 ∧ Seg H2 p xs w ∧ Seg H2 v ys o ∧
      ∀ z, z ∉ keys (xs ++ ys) → H2 z = H z := by
  rw [keys_append, nodup_append] at hnodup
  obtain ⟨hnx, hny, hxy⟩ := hnodup
  obtain ⟨H1, h1, hy1, hf1⟩ := hy.setPrevOf hny v
  have hx1 : Seg H1 p xs n := hx.congr (fun z hz => hf1 z (fun hz' => hxy z hz z hz' rfl))
  obtain ⟨H2, h2, hx2, hf2⟩ := hx1.setNextOf hnx w
  have hy2 : Seg H2 v ys o := hy1.congr (fun z hz => hf2 z (fun hz' => hxy z hz' z hz rfl))
  refine ⟨H1, H2, h1, h2, hx2, hy2, ?_⟩
  intro z hz
  rw [keys_append, mem_append, not_or] at hz
  rw [hf2 z hz.1, hf1 z hz.2]

theorem Seg.setEnds' (hx : Seg H p xs n) (hy : Seg H q ys o)
    (hnodup : (keys (xs ++ ys)).Nodup) (v w : Option A) :
    ∃ H1 H2, Chain.setNextOf H (last none xs) w = some H1 ∧
      Chain.setPrevOf H1 (first ys none) v = some H2 ∧ Seg H2 p xs w ∧ Seg H2 v ys o ∧
      ∀ z, z ∉ keys (xs ++ ys) → H2 z = H z := by
  rw [keys_append, nodup_append] at hnodup
  obtain ⟨hnx, hny, hxy⟩ := hnodup
  obtain ⟨H1, h1, hx1, hf1⟩ := hx.setNextOf hnx w
  have hy1 : Seg H1 q ys o := hy.congr (fun z hz => hf1 z (fun hz' => hxy z hz' z hz rfl))
  obtain ⟨H2, h2, hy2, hf2⟩ := hy1.setPrevOf hny v
  have hx2 : Seg H2 p xs w := hx1.congr (fun z hz => hf2 z (fun hz' => hxy z hz z hz' rfl))
  refine ⟨H1, H2, h1, h2, hx2, hy2, ?_⟩
  intro z hz
  rw [keys_append, mem_append, not_or] at hz
  rw [hf2 z hz.2, hf1 z hz.1]

end Ends

end Chain
