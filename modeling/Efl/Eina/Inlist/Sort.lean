/-
`eina_inlist_sort`.

The nodes are taken in pairs, and the runs are kept on a stack, of which the lower half is
as long as the number of pairs has bits set.  Only the links forward are kept up while
the runs are merged; the links back and `last` are written at the end.  The order of the
nodes is the one `eina_list_sort` would give.
-/
import Efl.Eina.Inlist.Ops
import Efl.Eina.List.SortLinks

namespace Eina.Inlist

open Chain Eina.Lists Option

variable {A : Type} [DecidableEq A]

/-! ### The code -/

/-- The loop of `eina_inlist_sort_merge`, and the rest behind it. -/
def mergeLoop (func : A → A → Int) : Nat → Heap A → A → Option A → Option A → Option (Heap A)
  | n, H, last, some a, some b =>
    match n with
    | 0 => none
    | n + 1 =>
      if func a b < 0 then
        (setNext H last (some a)).bind fun H => (H a).bind fun c =>
          mergeLoop func n H a c.next (some b)
      else
        (setNext H last (some b)).bind fun H => (H b).bind fun c =>
          mergeLoop func n H b (some a) c.next
  | _, H, last, some a, none => setNext H last (some a)
  | _, H, last, none, b => setNext H last b

/-- `eina_inlist_sort_merge` -/
def sortMerge (func : A → A → Int) (n : Nat) (H : Heap A) (a b : A) : Option (Heap A × A) :=
  if func a b < 0 then
    (H a).bind fun c => (mergeLoop func n H a c.next (some b)).map fun H => (H, a)
  else
    (H b).bind fun c => (mergeLoop func n H b (some a) c.next).map fun H => (H, b)

/-- `((stack[i++] = a)->next = b)->next = 0` -/
def sortPair (H : Heap A) (a b : A) : Option (Heap A × A) :=
  (setNext H a (some b)).bind fun H => (setNext H b none).map fun H => (H, a)

/-- `for (idx = n ^ tmp; idx &= idx - 1; i--)`; the stack is given from its top. -/
def sortMergeTop (func : A → A → Int) (n : Nat) : Nat → Nat → Heap A → List A →
    Option (Heap A × List A)
  | 0, _, _, _ => none
  | fuel + 1, idx, H, stack =>
    let idx := idx &&& (idx - 1)
    if idx = 0 then some (H, stack)
    else
      match stack with
      | b :: a :: stack => (sortMerge func n H a b).bind fun m =>
        sortMergeTop func n fuel idx m.1 (m.2 :: stack)
      | _ => none

/-- The first loop of `eina_inlist_sort`: `k` pairs are done. -/
def sortPairs (func : A → A → Int) (n : Nat) : Nat → Nat → Heap A → List A → Option A →
    Option (Heap A × List A)
  | _, _, H, stack, none => some (H, stack)
  | 0, _, _, _, some _ => none
  | fuel + 1, k, H, stack, some a => (H a).bind fun c =>
    match c.next with
    | none => some (H, a :: stack)
    | some b => (H b).bind fun d =>
      (if func a b < 0 then sortPair H a b else sortPair H b a).bind fun p =>
        (sortMergeTop func n ((k + 1) ^^^ k) ((k + 1) ^^^ k) p.1 (p.2 :: stack)).bind fun m =>
          sortPairs func n fuel (k + 1) m.1 m.2 d.next

/-- The last loop of `eina_inlist_sort`: `while (i-- > 1)`. -/
def sortMergeAll (func : A → A → Int) (n : Nat) : Heap A → A → List A → Option (Heap A × A)
  | H, run, [] => some (H, run)
  | H, run, a :: stack => (sortMerge func n H a run).bind fun m => sortMergeAll func n m.1 m.2 stack

/-- `eina_inlist_sort_rebuild_prev`: the node before `list` is `prev`. -/
def rebuildPrev : Nat → Heap A → Option A → Option A → Option (Heap A × Option A)
  | _, H, prev, none => some (H, prev)
  | 0, _, _, some _ => none
  | n + 1, H, prev, some x => (setPrev H x prev).bind fun H => (H x).bind fun c =>
    rebuildPrev n H (some x) c.next

/-- `eina_inlist_sort` -/
def sort (func : A → A → Int) (n : Nat) (H : Heap A) (head : Option A) :
    Option (Heap A × Option A) :=
  match head with
  | none => some (H, none)
  | some tail => (sortPairs func n n 0 H [] (some tail)).bind fun s =>
    match s.2 with
    | [] => none
    | run :: stack => (sortMergeAll func n s.1 run stack).bind fun m =>
      (rebuildPrev n m.1 none (some m.2)).bind fun r =>
        (setLast r.1 m.2 r.2).map fun H => (H, some m.2)

/-! ### The sort of the other lists -/

section Links

variable (func : A → A → Int) {stack : List A} {H : Heap A} (n : Nat)

/-- The callback is asked about the nodes themselves. -/
def answer (_ : Heap A) (a b : A) : Option Int := some (func a b)

/-- `func`, of the nodes with what they carry. -/
def onKeys (x y : A × Option A) : Int := func x.1 y.1

omit [DecidableEq A] in
theorem answers : Links.Answers (answer func) (onKeys func) :=
  fun _ _ _ _ _ _ _ _ _ _ _ => rfl

theorem mergeLoop_eq (H : Heap A) (last : A) (a b : Option A) :
    mergeLoop func n H last a b = Links.mergeLoop (answer func) n H last a b := by
  induction n generalizing H last a b with
  | zero => cases a <;> cases b <;> rfl
  | succ n ih =>
    cases a with
    | none => cases b <;> rfl
    | some a =>
      cases b with
      | none => rfl
      | some b =>
        rw [mergeLoop, Links.mergeLoop]
        simp only [ih, answer, bind_some]

theorem sortMerge_eq (H : Heap A) (a b : A) :
    sortMerge func n H a b = Links.sortMerge (answer func) n H a b := by
  simp only [sortMerge, Links.sortMerge, mergeLoop_eq, answer, bind_some]

theorem sortMergeTop_eq (n fuel idx : Nat) (H : Heap A) (stack : List A) :
    sortMergeTop func n fuel idx H stack =
      Links.sortMergeTop (answer func) n fuel idx H stack := by
  induction fuel generalizing idx H stack with
  | zero => rfl
  | succ fuel ih =>
    simp only [sortMergeTop, sortMerge_eq, ih]
    rfl

theorem sortMergeAll_eq (H : Heap A) (run : A) (stack : List A) :
    sortMergeAll func n H run stack =
      Links.sortMergeAll (answer func) n H run stack := by
  induction stack generalizing H run with
  | nil => rfl
  | cons a stack ih => simp only [sortMergeAll, Links.sortMergeAll, sortMerge_eq, ih]

theorem rebuildPrev_eq (H : Heap A) (prev list : Option A) :
    rebuildPrev n H prev list = Links.rebuildPrev n H prev list := by
  induction n generalizing H prev list with
  | zero => cases list <;> rfl
  | succ n ih =>
    cases list with
    | none => rfl
    | some x => simp only [rebuildPrev, Links.rebuildPrev, ih]

theorem sortPair_of_links {size : Nat} {a b : A}
    {p : Heap A × List A} (h : Links.sortPair size H stack a b = some p) :
    ∃ H', sortPair H a b = some (H', a) ∧ p = (H', a :: stack) := by
  simp only [Links.sortPair, Links.push, bind_eq_some_iff, map_eq_some_iff,
    ite_none_right_eq_some, some.injEq] at h
  obtain ⟨_, ⟨-, rfl⟩, H1, h1, H2, h2, rfl⟩ := h
  exact ⟨H2, by rw [sortPair, h1, bind_some, h2, map_some], rfl⟩

theorem sortPairs_of_links {size n fuel k : Nat} {list : Option A}
    {r : Heap A × List A}
    (h : Links.sortPairs (answer func) size n fuel k H stack list = some r) :
    sortPairs func n fuel k H stack list = some r := by
  induction fuel generalizing k H stack list with
  | zero =>
    cases list with
    | none => exact h
    | some a => exact h
  | succ fuel ih =>
    cases list with
    | none => exact h
    | some a =>
      obtain ⟨c, hc, h⟩ := bind_eq_some_iff.mp h
      rw [sortPairs, hc, bind_some]
      cases hnext : c.next with
      | none =>
        simp only [hnext, Links.push, map_eq_some_iff, ite_none_right_eq_some,
          some.injEq] at h
        obtain ⟨_, ⟨-, rfl⟩, rfl⟩ := h
        rfl
      | some b =>
        simp only [hnext, answer, bind_some, bind_eq_some_iff] at h
        obtain ⟨d, hd, p, hpair, m, htop, hrest⟩ := h
        have hpair' : ∃ x, (if func a b < 0 then sortPair H a b else sortPair H b a) =
            some (p.1, x) ∧ p.2 = x :: stack := by
          split at hpair
          · obtain ⟨H1, h1, rfl⟩ := sortPair_of_links hpair
            exact ⟨a, by rwa [if_pos ‹_›], rfl⟩
          · obtain ⟨H1, h1, rfl⟩ := sortPair_of_links hpair
            exact ⟨b, by rwa [if_neg ‹_›], rfl⟩
        obtain ⟨x, hx, hstack⟩ := hpair'
        rw [hstack, ← sortMergeTop_eq] at htop
        simp only [hd, hx, htop, ih hrest, bind_some]

end Links

variable {list : Option A} {xs : List A} {H : Heap A}

omit [DecidableEq A] in
theorem Linked.path (h : Linked H list xs) :
    ∃ ps, keys ps = xs ∧ Links.Path H list ps := by
  obtain ⟨ps, rfl, hseg, -⟩ := h.links
  have hpath := Links.path_of_seg hseg
  rw [first_keys, or_none, ← h.first] at hpath
  exact ⟨ps, rfl, hpath⟩

/-- **The nodes come to stand in the order of `eina_list_sort`**, with all their links right. -/
theorem sort_spec (func : A → A → Int) {n : Nat}
    (h : Linked H list xs) (hn : xs.length ≤ n) :
    ∃ H', sort func n H list = some (H', (Lists.sort func xs).head?) ∧
      Linked H' (Lists.sort func xs).head? (Lists.sort func xs) ∧ ∀ y ∉ xs, H' y = H y := by
  obtain ⟨ps, rfl, hpath⟩ := h.path
  have hkeys : keys (Lists.sort (onKeys func) ps) = Lists.sort func (keys ps) :=
    Lists.map_sort Prod.fst func ps
  have hperm := Lists.sort_perm (onKeys func) ps
  have hnodup := (hperm.map Prod.fst).nodup_iff.mpr h.nodup
  rw [length_keys] at hn
  rw [← hkeys]
  generalize hsort : Lists.sort (onKeys func) ps = sorted at hperm hnodup
  cases sorted with
  | nil =>
    obtain rfl : ps = [] := hperm.nil_eq.symm
    obtain rfl : list = none := h.first
    exact ⟨H, rfl, linked_nil, fun _ _ => rfl⟩
  | cons p rest =>
    obtain ⟨x, rfl⟩ : ∃ x, list = some x := by
      cases ps with
      | nil => exact absurd hperm.length_eq (by simp)
      | cons q ps => exact ⟨q.1, h.first⟩
    obtain ⟨H1, y, h1, hpath1, hout1⟩ := Links.sortRuns_spec (answers func)
      hpath h.nodup hn ((Nat.lt_succ_self _).trans Nat.lt_two_pow_self)
    rw [hsort] at hpath1
    obtain ⟨H2, h2, hseg, hout2⟩ := Links.rebuildPrev_spec none (n := n)
      (by rwa [hperm.length_eq]) hpath1 hnodup
    obtain rfl : y = p.1 := some.inj hpath1.1
    obtain ⟨H3, h3, hlist, hw3⟩ := linked_setLast hseg hnodup
    refine ⟨H3, ?_, hlist, fun z hz => ?_⟩
    · obtain ⟨s, hs, hall⟩ := bind_eq_some_iff.mp h1
      rw [sort, sortPairs_of_links func hs, bind_some]
      match s, hall with
      | (_, run :: stack), hall =>
        dsimp only at hall ⊢
        rw [sortMergeAll_eq, hall, bind_some, rebuildPrev_eq, h2, bind_some]
        simp only [last_cons, h3, map_some, keys_cons, List.head?_cons]
    · have hmem : z ∉ keys (p :: rest) := fun hin => hz ((hperm.map Prod.fst).mem_iff.mp hin)
      have hzp : z ∉ [p.1] := fun hin => hmem (by simp [List.mem_singleton.mp hin])
      rw [hw3.others z hzp, hout2 z hmem, hout1 z hz]

end Eina.Inlist
