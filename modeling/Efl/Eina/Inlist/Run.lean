/-
Runs of the operations on one list.

`Next op xs ys` says what an operation does to the sequence of nodes, and `Shape` what the
links have to say about a sequence; `last` counts in the first node only.  A run starts
from NULL in any heap, so nodes may come with anything in their links.
-/
import Efl.Eina.Inlist.SortedInsert
import Efl.Eina.Inlist.Sort

namespace Eina.Inlist

open Chain Compare List

variable {A : Type}

/-! ### Operations -/

/-- The operations, with what they are called with. -/
inductive Op (A : Type) where
  | append (new : A)
  | prepend (new : A)
  | appendRelative (new : A) (relative : Option A)
  | prependRelative (new : A) (relative : Option A)
  | remove (item : A)
  | promote (item : A)
  | demote (item : A)
  | sort (func : A → A → Int)
  | sortedInsert (item : A) (func : A → A → Int)

/-- The nodes that following `next` leads to. -/
def nodesOf (H : Heap A) : Nat → Option A → List A
  | 0, _ => []
  | _, none => []
  | n + 1, some x => x :: nodesOf H n ((H x).bind Cell.next)

section Code

variable [DecidableEq A]

/-- One call. -/
def step (n : Nat) (H : Heap A) (list : Option A) : Op A → Option (Heap A × Option A)
  | Op.append new => append n H list new
  | Op.prepend new => prepend H list new
  | Op.appendRelative new relative => appendRelative n H list new relative
  | Op.prependRelative new relative => prependRelative H list new relative
  | Op.remove item => remove H list item
  | Op.promote item => promote H list item
  | Op.demote item => demote n H list item
  | Op.sort func => sort func n H list
  | Op.sortedInsert item func => sortedInsert func n H list item

/-- A node that may be added: it was allocated and is not in the list. -/
def Fresh (n : Nat) (H : Heap A) (list : Option A) (new : A) : Prop :=
  new ∉ nodesOf H n list ∧ (H new).isSome = true

instance (n : Nat) (H : Heap A) (list : Option A) (new : A) : Decidable (Fresh n H list new) :=
  inferInstanceAs (Decidable (_ ∧ _))

/-- A node that something is put next to is in the list; NULL stands for an end. -/
def Member (n : Nat) (H : Heap A) (list : Option A) : Option A → Prop
  | none => True
  | some x => x ∈ nodesOf H n list

instance (n : Nat) (H : Heap A) (list : Option A) :
    ∀ relative, Decidable (Member n H list relative)
  | none => isTrue trivial
  | some x => inferInstanceAs (Decidable (x ∈ nodesOf H n list))

/-- The calls that may be made: what is moved is in the list, and what is added is not. -/
def Legal (n : Nat) (H : Heap A) (list : Option A) : Op A → Prop
  | Op.append new => Fresh n H list new
  | Op.prepend new => Fresh n H list new
  | Op.appendRelative new relative =>
    Fresh n H list new ∧ Member n H list relative
  | Op.prependRelative new relative =>
    Fresh n H list new ∧ Member n H list relative
  | Op.remove item => item ∈ nodesOf H n list
  | Op.promote item => item ∈ nodesOf H n list
  | Op.demote item => item ∈ nodesOf H n list
  | Op.sort _ => True
  | Op.sortedInsert item _ => Fresh n H list item

instance (n : Nat) (H : Heap A) (list : Option A) : ∀ op, Decidable (Legal n H list op)
  | Op.append new => inferInstanceAs (Decidable (Fresh n H list new))
  | Op.prepend new => inferInstanceAs (Decidable (Fresh n H list new))
  | Op.appendRelative new relative =>
    inferInstanceAs (Decidable (Fresh n H list new ∧ Member n H list relative))
  | Op.prependRelative new relative =>
    inferInstanceAs (Decidable (Fresh n H list new ∧ Member n H list relative))
  | Op.remove item => inferInstanceAs (Decidable (item ∈ nodesOf H n list))
  | Op.promote item => inferInstanceAs (Decidable (item ∈ nodesOf H n list))
  | Op.demote item => inferInstanceAs (Decidable (item ∈ nodesOf H n list))
  | Op.sort _ => isTrue trivial
  | Op.sortedInsert item _ => inferInstanceAs (Decidable (Fresh n H list item))

/-- The calls one after another. -/
def run (n : Nat) : Heap A → Option A → List (Op A) → Option (Heap A × Option A)
  | H, list, [] => some (H, list)
  | H, list, op :: ops => (step n H list op).bind fun r => run n r.1 r.2 ops

/-- Every call of a run may be made. -/
def LegalRun (n : Nat) : Heap A → Option A → List (Op A) → Prop
  | _, _, [] => True
  | H, list, op :: ops => Legal n H list op ∧
      match step n H list op with
      | none => True
      | some r => LegalRun n r.1 r.2 ops

instance decidableLegalRun (n : Nat) : ∀ (ops : List (Op A)) (H : Heap A) (list : Option A),
    Decidable (LegalRun n H list ops)
  | [], _, _ => isTrue trivial
  | op :: ops, H, list =>
    match hstep : step n H list op with
    | none => decidable_of_iff (Legal n H list op) (by simp [LegalRun, hstep])
    | some r =>
      have := decidableLegalRun n ops r.1 r.2
      decidable_of_iff (Legal n H list op ∧ LegalRun n r.1 r.2 ops) (by simp [LegalRun, hstep])

end Code

/-! ### What they mean -/

/-- What an operation does to the nodes. -/
def Next : Op A → List A → List A → Prop
  | Op.append new, xs, ys => ys = xs ++ [new]
  | Op.prepend new, xs, ys => ys = new :: xs
  | Op.appendRelative new none, xs, ys => ys = xs ++ [new]
  | Op.appendRelative new (some x), xs, ys => ∃ l r, xs = l ++ x :: r ∧ ys = l ++ x :: new :: r
  | Op.prependRelative new none, xs, ys => ys = new :: xs
  | Op.prependRelative new (some x), xs, ys => ∃ l r, xs = l ++ x :: r ∧ ys = l ++ new :: x :: r
  | Op.remove item, xs, ys => ∃ l r, xs = l ++ item :: r ∧ ys = l ++ r
  | Op.promote item, xs, ys => ∃ l r, xs = l ++ item :: r ∧ ys = item :: (l ++ r)
  | Op.demote item, xs, ys => ∃ l r, xs = l ++ item :: r ∧ ys = l ++ r ++ [item]
  | Op.sort func, xs, ys => ys.Perm xs ∧ (Total func → Sorted func ys)
  | Op.sortedInsert item func, xs, ys => ∃ l r, xs = l ++ r ∧ ys = l ++ item :: r ∧
      (Total func → Sorted func xs → Sorted func ys)

/-- What a run does to the nodes. -/
def Steps : List (Op A) → List A → List A → Prop
  | [], xs, zs => zs = xs
  | op :: ops, xs, zs => ∃ ys, Next op xs ys ∧ Steps ops ys zs

/-- The links of a list of the nodes `xs`. -/
structure Shape (H : Heap A) (list : Option A) (xs : List A) : Prop where
  first : list = xs.head?
  nodup : xs.Nodup
  next : ∀ i x, xs[i]? = some x → ∃ c, H x = some c ∧ c.next = xs[i + 1]?
  prev : ∀ i x, xs[i + 1]? = some x → ∃ c, H x = some c ∧ c.prev = xs[i]?
  ends : ∀ x, list = some x → ∃ c, H x = some c ∧ c.prev = none ∧ c.val = xs.getLast?

theorem Linked.shape {H : Heap A} {list : Option A} {xs : List A} (h : Linked H list xs) :
    Shape H list xs := by
  refine ⟨h.first, h.nodup, fun i x => h.next, fun i x => h.prev, fun x hx => ?_⟩
  obtain ⟨ys, rfl⟩ := head?_eq_some_iff.mp (h.first.symm.trans hx)
  exact ⟨_, h.head, rfl, rfl⟩

theorem Linked.nodesOf {H : Heap A} {list : Option A} {xs : List A} (h : Linked H list xs) {n : Nat}
    (hn : xs.length ≤ n) : nodesOf H n list = xs := by
  have hsuffix : ∀ (r l : List A) (n : Nat), xs = l ++ r → r.length ≤ n →
      Inlist.nodesOf H n r.head? = r := by
    intro r
    induction r with
    | nil =>
      intro l n _ _
      cases n <;> rfl
    | cons x r ih =>
      intro l n hl hn
      obtain ⟨n, rfl⟩ : ∃ m, n = m + 1 := ⟨n - 1, by simp at hn; omega⟩
      have hget := h
      rw [hl] at hget
      obtain ⟨v, hv⟩ := hget.get
      rw [head?_cons, Inlist.nodesOf, hv, Option.bind_some,
        ih (l ++ [x]) n (by rw [hl, append_assoc]; rfl) (by simpa using hn)]
  rw [h.first]
  exact hsuffix xs [] n rfl hn

section Runs

variable [DecidableEq A]

variable {n : Nat} {H : Heap A} {list : Option A} {xs : List A} {ops : List (Op A)}

omit [DecidableEq A] in
theorem Fresh.of_linked {new : A} (h : Fresh n H list new) (hlist : Linked H list xs)
    (hn : xs.length ≤ n) :
    new ∉ xs ∧ H new ≠ none := by
  obtain ⟨hnew, halive⟩ := h
  rw [hlist.nodesOf hn] at hnew
  exact ⟨hnew, Option.isSome_iff_ne_none.mp halive⟩

/-- **Every call does what it means**, and adds one node at most. -/
theorem step_spec (h : Linked H list xs) (hn : xs.length < n) {op : Op A}
    (hop : Legal n H list op) :
    ∃ H' ys, step n H list op = some (H', ys.head?) ∧ Linked H' ys.head? ys ∧ Next op xs ys ∧
      ys.length ≤ xs.length + 1 := by
  have hle : xs.length ≤ n := le_of_lt hn
  cases op with
  | append new =>
    obtain ⟨hnew, halive⟩ := hop.of_linked h hle
    obtain ⟨H', hadd, hlist, -⟩ := append_spec h hnew halive n
    exact ⟨H', xs ++ [new], hadd, hlist, rfl, by simp⟩
  | prepend new =>
    obtain ⟨hnew, halive⟩ := hop.of_linked h hle
    obtain ⟨H', hadd, hlist, -⟩ := prepend_spec h hnew halive
    exact ⟨H', new :: xs, hadd, hlist, rfl, by simp⟩
  | appendRelative new relative =>
    obtain ⟨hfresh, hmem⟩ := hop
    obtain ⟨hnew, halive⟩ := hfresh.of_linked h hle
    cases relative with
    | none =>
      obtain ⟨H', hadd, hlist, -⟩ := append_spec h hnew halive n
      exact ⟨H', xs ++ [new], hadd, hlist, rfl, by simp⟩
    | some x =>
      have hx : x ∈ xs := by
        rw [← h.nodesOf hle]
        exact hmem
      obtain ⟨l, r, rfl⟩ := append_of_mem hx
      obtain ⟨H', hadd, hlist, -⟩ := appendRelative_spec h hnew halive n
      refine ⟨H', l ++ x :: new :: r, ?_, ?_, ⟨l, r, rfl, rfl⟩, by simp; omega⟩
      · rw [← hlist.first]
        exact hadd
      · rw [← hlist.first]
        exact hlist
  | prependRelative new relative =>
    obtain ⟨hfresh, hmem⟩ := hop
    obtain ⟨hnew, halive⟩ := hfresh.of_linked h hle
    cases relative with
    | none =>
      obtain ⟨H', hadd, hlist, -⟩ := prepend_spec h hnew halive
      exact ⟨H', new :: xs, hadd, hlist, rfl, by simp⟩
    | some x =>
      have hx : x ∈ xs := by
        rw [← h.nodesOf hle]
        exact hmem
      obtain ⟨l, r, rfl⟩ := append_of_mem hx
      obtain ⟨H', hadd, hlist, -⟩ := prependRelative_spec h hnew halive
      exact ⟨H', l ++ new :: x :: r, hadd, hlist, ⟨l, r, rfl, rfl⟩, by simp; omega⟩
  | remove item =>
    have hx : item ∈ xs := by
      rw [← h.nodesOf hle]
      exact hop
    obtain ⟨l, r, rfl⟩ := append_of_mem hx
    obtain ⟨H', hremove, hlist, -⟩ := remove_spec h
    exact ⟨H', l ++ r, hremove, hlist, ⟨l, r, rfl, rfl⟩, by simp; omega⟩
  | promote item =>
    have hx : item ∈ xs := by
      rw [← h.nodesOf hle]
      exact hop
    obtain ⟨l, r, rfl⟩ := append_of_mem hx
    obtain ⟨H', hpromote, hlist, -⟩ := promote_spec h
    exact ⟨H', item :: (l ++ r), hpromote, hlist, ⟨l, r, rfl, rfl⟩, by simp⟩
  | demote item =>
    have hx : item ∈ xs := by
      rw [← h.nodesOf hle]
      exact hop
    obtain ⟨l, r, rfl⟩ := append_of_mem hx
    obtain ⟨H', hdemote, hlist, -⟩ := demote_spec h n
    exact ⟨H', l ++ r ++ [item], hdemote, hlist, ⟨l, r, rfl, rfl⟩, by simp⟩
  | sort func =>
    obtain ⟨H', hsort, hlist, -⟩ := sort_spec func h hle
    have hperm := Lists.sort_perm func xs
    refine ⟨H', Lists.sort func xs, hsort, hlist, ⟨hperm, fun hfunc => ?_⟩, ?_⟩
    · exact Lists.sort_sorted hfunc xs
    · rw [hperm.length_eq]
      exact Nat.le_succ _
  | sortedInsert item func =>
    obtain ⟨hnew, halive⟩ := hop.of_linked h hle
    obtain ⟨H', i, hi, hinsert, hlist, -, hsorted⟩ := sortedInsert_spec func h hnew halive hn
    refine ⟨H', xs.take i ++ item :: xs.drop i, hinsert, hlist,
      ⟨xs.take i, xs.drop i, (take_append_drop i xs).symm, rfl, hsorted⟩, ?_⟩
    simp
    omega

/-- **A run of legal calls keeps the list linked both ways.** -/
theorem run_spec (h : Linked H list xs) (hops : LegalRun n H list ops)
    (hn : xs.length + ops.length < n) :
    ∃ H' list' ys, run n H list ops = some (H', list') ∧ Linked H' list' ys ∧ Steps ops xs ys := by
  induction ops generalizing H list xs with
  | nil => exact ⟨H, list, xs, rfl, h, rfl⟩
  | cons op ops ih =>
    obtain ⟨hop, hrest⟩ := hops
    rw [length_cons] at hn
    obtain ⟨H1, ys, hstep, hlist, hnext, hlen⟩ := step_spec h (by omega) hop
    rw [hstep] at hrest
    obtain ⟨H', list', zs, hrun, hlist', hsteps⟩ := ih hlist hrest (by omega)
    refine ⟨H', list', zs, ?_, hlist', ys, hnext, hsteps⟩
    rw [run, hstep, Option.bind_some, hrun]

/-- **What every run of the operations leaves is a list with its links right**, of the nodes that
the operations on sequences give. -/
theorem run_shape {n : Nat} (H : Heap A) (hops : LegalRun n H none ops)
    (hn : ops.length < n) :
    ∃ H' list xs, run n H none ops = some (H', list) ∧ Shape H' list xs ∧ Steps ops [] xs := by
  obtain ⟨H', list, xs, hrun, hlist, hsteps⟩ := run_spec linked_nil hops (by simpa using hn)
  exact ⟨H', list, xs, hrun, hlist.shape, hsteps⟩

end Runs

/-- The calls of a run that has a node promoted, moved to the end and sorted. -/
def sampleRun (func : Nat → Nat → Int) : List (Op Nat) :=
  [Op.append 3, Op.prepend 1, Op.appendRelative 2 (some 1), Op.promote 3, Op.demote 3,
    Op.sort func, Op.sortedInsert 0 func, Op.remove 2]

theorem run_shape_sample : ∃ (H' : Heap Nat) (list : Option Nat) (xs : List Nat),
    run 10 (fun _ => some ⟨some 7, some 8, some 9⟩) none (sampleRun fun x y => x - y) =
      some (H', list) ∧ Shape H' list xs ∧ Steps (sampleRun fun x y => x - y) [] xs :=
  run_shape _ (by decide +kernel) (by decide)

end Eina.Inlist
