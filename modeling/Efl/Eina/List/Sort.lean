/-
`eina_list_sort` on the sequence of data, for the whole list (`limit` is 0).

The source takes the elements in pairs, keeps the sorted runs on a stack and merges the
runs on top so often as the bits say that `n ^ tmp` has; at the end it merges what is left
on the stack.  Only the order of the data is modelled here, not the links.
-/
import Mathlib.Data.List.Basic
import Efl.Lib.Compare

namespace Eina.Lists

open List

variable {α : Type}

/-- `eina_list_sort_merge` -/
def sortMerge (func : α → α → Int) : List α → List α → List α
  | [], b => b
  | a, [] => a
  | x :: a, y :: b =>
    if func x y < 0 then x :: sortMerge func a (y :: b) else y :: sortMerge func (x :: a) b
  termination_by a b => a.length + b.length

/-- The merges after a pair; the stack is given from its top. -/
def sortMergeTop (func : α → α → Int) : Nat → Nat → List (List α) → List (List α)
  | 0, _, stack => stack
  | fuel + 1, idx, stack =>
    let idx := idx &&& (idx - 1)
    if idx = 0 then stack
    else
      match stack with
      | b :: a :: stack => sortMergeTop func fuel idx (sortMerge func a b :: stack)
      | stack => stack

/-- The first loop of `eina_list_sort`: `n` pairs are done. -/
def sortPairs (func : α → α → Int) : Nat → List (List α) → List α → List (List α)
  | _, stack, [] => stack
  | _, stack, [a] => [a] :: stack
  | n, stack, a :: b :: tail =>
    let run := if func a b < 0 then [a, b] else [b, a]
    sortPairs func (n + 1) (sortMergeTop func ((n + 1) ^^^ n) ((n + 1) ^^^ n) (run :: stack)) tail

/-- The last loop of `eina_list_sort`. -/
def sortMergeAll (func : α → α → Int) : List α → List (List α) → List α
  | run, [] => run
  | run, a :: stack => sortMergeAll func (sortMerge func a run) stack

/-- `eina_list_sort` -/
def sort (func : α → α → Int) (list : List α) : List α :=
  match sortPairs func 0 [] list with
  | [] => []
  | run :: stack => sortMergeAll func run stack

theorem sortMerge_perm (func : α → α → Int) (a b : List α) :
    (sortMerge func a b).Perm (a ++ b) := by
  fun_induction sortMerge func a b with
  | case1 b => exact List.Perm.refl _
  | case2 a => simp
  | case3 x a y b h ih => exact ih.cons x
  | case4 x a y b h ih =>
    refine (ih.cons y).trans ?_
    exact perm_middle.symm

theorem sortMergeTop_perm (func : α → α → Int) : ∀ (fuel idx : Nat) (stack : List (List α)),
    (sortMergeTop func fuel idx stack).flatten.Perm stack.flatten := by
  intro fuel
  induction fuel with
  | zero =>
    intro idx stack
    exact List.Perm.refl _
  | succ fuel ih =>
    intro idx stack
    simp only [sortMergeTop]
    split
    · exact List.Perm.refl _
    split
    · rename_i b a stack
      refine (ih _ _).trans ?_
      simp only [flatten_cons, ← append_assoc]
      refine List.Perm.append_right _ ?_
      exact (sortMerge_perm func a b).trans perm_append_comm
    · exact List.Perm.refl _

theorem sortPairs_perm (func : α → α → Int) (n : Nat) (stack : List (List α)) (tail : List α) :
    (sortPairs func n stack tail).flatten.Perm (stack.flatten ++ tail) := by
  fun_induction sortPairs func n stack tail with
  | case1 n stack => simp
  | case2 n stack a => simpa using (perm_append_singleton a stack.flatten).symm
  | case3 n stack a b tail run ih =>
    refine ih.trans ?_
    have hrun : run.Perm [a, b] := by
      unfold run
      split
      · exact List.Perm.refl _
      · exact List.Perm.swap a b []
    have htop := sortMergeTop_perm func ((n + 1) ^^^ n) ((n + 1) ^^^ n) (run :: stack)
    refine (htop.append_right tail).trans ?_
    refine (perm_append_comm.append_right tail : (run ++ stack.flatten ++ tail).Perm _).trans ?_
    refine ((hrun.append_left stack.flatten).append_right tail).trans ?_
    simp

theorem sortMergeAll_perm (func : α → α → Int) : ∀ (stack : List (List α)) (run : List α),
    (sortMergeAll func run stack).Perm (run ++ stack.flatten) := by
  intro stack
  induction stack with
  | nil =>
    simp [sortMergeAll]
  | cons a stack ih =>
    intro run
    refine (ih _).trans ?_
    simp only [flatten_cons, ← append_assoc]
    refine List.Perm.append_right _ ?_
    exact (sortMerge_perm func a run).trans perm_append_comm

theorem sort_perm (func : α → α → Int) (list : List α) : (sort func list).Perm list := by
  have hpairs := sortPairs_perm func 0 [] list
  unfold sort
  split
  · rename_i hnil
    rw [hnil] at hpairs
    simpa using hpairs
  · rename_i run stack hstack
    rw [hstack] at hpairs
    refine (sortMergeAll_perm func stack run).trans ?_
    simpa using hpairs

/-! ### The data under a map -/

section Map

variable {β : Type} (g : β → α) (func : α → α → Int)

theorem map_sortMerge (a b : List β) :
    (sortMerge (fun x y => func (g x) (g y)) a b).map g = sortMerge func (a.map g) (b.map g) := by
  fun_induction sortMerge (fun x y => func (g x) (g y)) a b with
  | case1 b => simp [sortMerge]
  | case2 a hne => rw [map_nil, sortMerge.eq_2 _ _ (by simpa using hne)]
  | case3 x a y b h ih => simpa [sortMerge, h] using ih
  | case4 x a y b h ih => simpa [sortMerge, h] using ih

theorem map_sortMergeTop (fuel idx : Nat) (stack : List (List β)) :
    (sortMergeTop (fun x y => func (g x) (g y)) fuel idx stack).map (List.map g) =
      sortMergeTop func fuel idx (stack.map (List.map g)) := by
  induction fuel generalizing idx stack with
  | zero => rfl
  | succ fuel ih =>
    simp only [sortMergeTop]
    split
    · rfl
    match stack with
    | [] => rfl
    | [a] => rfl
    | b :: a :: stack => simp only [ih, map_cons, map_sortMerge]

theorem map_sortPairs (n : Nat) (stack : List (List β)) (tail : List β) :
    (sortPairs (fun x y => func (g x) (g y)) n stack tail).map (List.map g) =
      sortPairs func n (stack.map (List.map g)) (tail.map g) := by
  fun_induction sortPairs (fun x y => func (g x) (g y)) n stack tail with
  | case1 n stack => rfl
  | case2 n stack a => rfl
  | case3 n stack a b tail run ih =>
    rw [ih, map_sortMergeTop, map_cons]
    have hrun : run.map g = if func (g a) (g b) < 0 then [g a, g b] else [g b, g a] :=
      apply_ite (map g) _ _ _
    rw [hrun]
    rfl

theorem map_sortMergeAll (run : List β) (stack : List (List β)) :
    (sortMergeAll (fun x y => func (g x) (g y)) run stack).map g =
      sortMergeAll func (run.map g) (stack.map (List.map g)) := by
  induction stack generalizing run with
  | nil => rfl
  | cons a stack ih => rw [sortMergeAll, ih, map_sortMerge, map_cons, sortMergeAll]

theorem map_sort (list : List β) :
    (sort (fun x y => func (g x) (g y)) list).map g = sort func (list.map g) := by
  have hpairs := map_sortPairs g func 0 [] list
  unfold sort
  rw [← map_nil (f := map g), ← hpairs]
  cases sortPairs (fun x y => func (g x) (g y)) 0 [] list with
  | nil => rfl
  | cons run stack => exact map_sortMergeAll g func run stack

end Map

/-! ### The order of the result -/

section Sorted

open Compare

variable {func : α → α → Int} (hfunc : Total func) {stack : List (List α)}
include hfunc

theorem sortMerge_sorted {a b : List α} (ha : Sorted func a) (hb : Sorted func b) :
    Sorted func (sortMerge func a b) := by
  fun_induction sortMerge func a b with
  | case1 b => exact hb
  | case2 a => exact ha
  | case3 x a y b h ih =>
    obtain ⟨hxa, hsa⟩ := sorted_cons.mp ha
    obtain ⟨hyb, -⟩ := sorted_cons.mp hb
    refine sorted_cons.mpr ⟨fun z hz => ?_, ih hsa hb⟩
    have hxy : func x y ≤ 0 := Int.le_of_lt h
    rcases mem_append.mp ((sortMerge_perm func _ _).mem_iff.mp hz) with hz | hz
    · exact hxa z hz
    rcases mem_cons.mp hz with rfl | hz
    · exact hxy
    · exact hfunc.trans hxy (hyb z hz)
  | case4 x a y b h ih =>
    obtain ⟨hxa, -⟩ := sorted_cons.mp ha
    obtain ⟨hyb, hsb⟩ := sorted_cons.mp hb
    refine sorted_cons.mpr ⟨fun z hz => ?_, ih ha hsb⟩
    have hyx : func y x ≤ 0 := hfunc.le_of_not_lt h
    rcases mem_append.mp ((sortMerge_perm func _ _).mem_iff.mp hz) with hz | hz
    · rcases mem_cons.mp hz with rfl | hz
      · exact hyx
      · exact hfunc.trans hyx (hxa z hz)
    · exact hyb z hz

theorem sortMergeTop_sorted (fuel idx : Nat)
    (h : ∀ run ∈ stack, Sorted func run) :
    ∀ run ∈ sortMergeTop func fuel idx stack, Sorted func run := by
  induction fuel generalizing idx stack with
  | zero => exact h
  | succ fuel ih =>
    simp only [sortMergeTop]
    split
    · exact h
    split
    · rename_i b a stack
      refine ih _ fun run hrun => ?_
      rcases mem_cons.mp hrun with rfl | hrun
      · exact sortMerge_sorted hfunc (h a (by simp)) (h b (by simp))
      · exact h run (by simp [hrun])
    · exact h

theorem sortPairs_sorted (n : Nat) (tail : List α)
    (h : ∀ run ∈ stack, Sorted func run) :
    ∀ run ∈ sortPairs func n stack tail, Sorted func run := by
  fun_induction sortPairs func n stack tail with
  | case1 n stack => exact h
  | case2 n stack a =>
    intro run hrun
    rcases mem_cons.mp hrun with rfl | hrun
    · exact sorted_singleton a
    · exact h run hrun
  | case3 n stack a b tail run ih =>
    refine ih (sortMergeTop_sorted hfunc _ _ fun r hr => ?_)
    rcases mem_cons.mp hr with rfl | hr
    · unfold run
      split
      · rename_i hlt
        exact sorted_cons.mpr ⟨by simp [Int.le_of_lt hlt], sorted_singleton b⟩
      · rename_i hlt
        exact sorted_cons.mpr ⟨by simp [hfunc.le_of_not_lt hlt], sorted_singleton a⟩
    · exact h r hr

theorem sortMergeAll_sorted {run : List α} (hrun : Sorted func run)
    (h : ∀ run ∈ stack, Sorted func run) : Sorted func (sortMergeAll func run stack) := by
  induction stack generalizing run with
  | nil => exact hrun
  | cons a stack ih =>
    have ha := sortMerge_sorted hfunc (h a mem_cons_self) hrun
    exact ih ha fun r hr => h r (mem_cons_of_mem _ hr)

theorem sort_sorted (list : List α) : Sorted func (sort func list) := by
  have hpairs : ∀ run ∈ sortPairs func 0 [] list, Sorted func run :=
    sortPairs_sorted hfunc 0 list (by simp)
  unfold sort
  split
  · exact sorted_nil
  rename_i run stack hstack
  rw [hstack] at hpairs
  exact sortMergeAll_sorted hfunc (hpairs run mem_cons_self)
    fun r hr => hpairs r (mem_cons_of_mem _ hr)

end Sorted

end Eina.Lists
