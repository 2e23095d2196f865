/-
Keys that share one head, and the stack they overrun.

When every key has the same hash, all elements are below one head.  When in
addition each new key belongs to the right of the ones before, the right side of
the tree of elements counts them (`Rbtree/Overrun.lean`), and after
`3 * (2 ^ 24 - 1) + 1` keys the next `eina_hash_set` writes past the end of the stack
of `eina_rbtree_inline_insert`.
-/
import Efl.Eina.Rbtree.Overrun
import Efl.Eina.Hash.Map

namespace Eina.Hash

open RedBlack Rbtree Option

/-- Numbers as keys with one hash, larger ones to the right. -/
def collidingCallbacks : Callbacks Nat := ⟨fun a b => (b : Int) - a, fun _ => 0⟩

theorem collidingCallbacks_order : KeyOrder collidingCallbacks :=
  ⟨fun a b => by simp only [collidingCallbacks]; omega,
    fun a b c hab hbc => by simp only [collidingCallbacks] at hab hbc ⊢; omega,
    fun a b => by simp only [collidingCallbacks]; omega⟩

/-- The elements are those of the keys below `n`, counted on the right side of their tree. -/
structure Counted (h : Hash Nat Nat) (n : Nat) : Prop where
  keys : ∃ s, Inv collidingCallbacks h s ∧ ∀ e ∈ s, (h.element e).key < n
  spells : ∃ ds, Digit.value ds = n ∧ Spells ds (rightPath (treeOf h 0) [])

variable {h : Hash Nat Nat} {n : Nat} {s : Finset Addr}

theorem insertPath_treeOf (hi : Inv collidingCallbacks h s) {element : Addr → Element Nat Nat}
    {e : Addr} (he : (element e).key = n)
    (hold : ∀ x ∈ s, (element x).key < n) :
    insertPath (cmpKeyNode collidingCallbacks element) e (treeOf h 0) [] =
      rightPath (treeOf h 0) [] := by
  refine insertPath_eq_rightPath ?_ _
  intro q hq
  have hlt := hold q (mem_of_treeOf hi hq)
  rw [cmpKeyNode, if_neg]
  simp only [collidingCallbacks]
  omega

theorem addDepth_colliding
    (hi : Inv collidingCallbacks h s) (hold : ∀ e ∈ s, (h.element e).key < n) :
    addDepth collidingCallbacks h n = (rightPath (treeOf h 0) []).length := by
  have hdir : ∀ q ∈ (treeOf h 0).toList,
      keyDir collidingCallbacks h.element n q h.next = .right := by
    intro q hq
    have hlt := hold q (mem_of_treeOf hi hq)
    rw [keyDir, if_neg]
    simp only [collidingCallbacks]
    omega
  rw [← insertPath_eq_rightPath hdir]
  rfl

theorem Counted.set (hc : Counted h n) :
    if (rightPath (treeOf h 0) []).length ≤ Mem.stackSize then
      ∃ h', mapStep collidingCallbacks h (.set n (some 0)) = some (h', .data none) ∧
        Counted h' (n + 1)
    else mapStep collidingCallbacks h (.set n (some 0)) = none := by
  obtain ⟨s, hi, hold⟩ := hc.keys
  obtain ⟨ds, hvalue, hspell⟩ := hc.spells
  have hfind : h.findByHash collidingCallbacks n none (collidingCallbacks.keyHash n) = none := by
    rw [findByHash_none_iff collidingCallbacks_order hi]
    intro e he
    exact ne_of_lt (hold e he)
  have hspec := addAllocByHash_spec collidingCallbacks_order hi n 0
  rw [addDepth_colliding hi hold] at hspec
  have hstep : mapStep collidingCallbacks h (.set n (some 0)) =
      (h.addAllocByHash collidingCallbacks n (collidingCallbacks.keyHash n) (some 0)).map
        fun p => (p.1, .data none) := by
    unfold mapStep Hash.set
    simp only [hfind]
    cases h.addAllocByHash collidingCallbacks n (collidingCallbacks.keyHash n) (some 0) <;> rfl
  rw [hstep]
  by_cases hfits : (rightPath (treeOf h 0) []).length ≤ Mem.stackSize
  · rw [if_pos hfits] at hspec ⊢
    obtain ⟨h', e, hrun, hadd⟩ := hspec
    have hother : ∀ x ∈ s, (h'.element x).key < n := by
      intro x hx
      rw [hadd.others x hx]
      exact hold x hx
    have hself : (h'.element e).key = n := by rw [hadd.element]
    refine ⟨h', by rw [hrun]; rfl, ⟨insert e s, hadd.inv, ?_⟩, Digit.inc ds, ?_, ?_⟩
    · intro x hx
      rcases Finset.mem_insert.mp hx with rfl | hxs
      · omega
      · exact Nat.lt_succ_of_lt (hother x hxs)
    · rw [Digit.value_inc, hvalue]
    · have hnil : (RedBlack.Tree.nil : Tree Addr).color = .black := rfl
      obtain ⟨Q, hQ, hinc⟩ := hspell.insert e hnil hnil
      have htree : treeOf h' 0 =
          inlineInsert (cmpKeyNode collidingCallbacks h'.element) (treeOf h 0) e := hadd.tree
      rw [htree, inlineInsert, insertPath_treeOf hi hself hother, hQ]
      exact hinc
  · rw [if_neg hfits] at hspec ⊢
    rw [hspec]
    rfl

/-- The keys below `n` set in increasing order; never unfolded for a large `n`. -/
@[irreducible] def ascendingSets (n : Nat) : List (MapOp Nat Nat) :=
  (List.range n).map fun k => .set k (some 0)

theorem ascendingSets_succ (n : Nat) :
    ascendingSets (n + 1) = ascendingSets n ++ [.set n (some 0)] := by
  rw [ascendingSets, ascendingSets, List.range_succ, List.map_append]
  rfl

theorem legal_ascendingSets (n : Nat) (m : Nat → Option Nat) :
    Runs.Admits MapOp.Legal (fun m op => (mapNext m op).1) m (ascendingSets n) := by
  induction n with
  | zero =>
    rw [ascendingSets]
    trivial
  | succ n ih =>
    rw [ascendingSets_succ, Runs.admits_append]
    exact ⟨ih, trivial, trivial⟩

theorem counted_run (n : Nat) : ∀ {p : Hash Nat Nat × List (Ret Nat)},
    Runs.run (mapStep collidingCallbacks) emptyHash (ascendingSets n) = some p →
      Counted p.1 n := by
  induction n with
  | zero =>
    intro p hp
    rw [ascendingSets] at hp
    obtain rfl := some.inj hp
    exact ⟨⟨∅, inv_new new_emptyHash, by simp⟩, [], rfl, rfl⟩
  | succ n ih =>
    intro p hp
    rw [ascendingSets_succ, Runs.run_append, bind_eq_some_iff] at hp
    obtain ⟨q, hq, hp⟩ := hp
    have hstep := (ih hq).set
    rw [map_eq_some_iff] at hp
    obtain ⟨r, hr, rfl⟩ := hp
    rw [Runs.run] at hr
    by_cases hfits : (rightPath (treeOf q.1 0) []).length ≤ Mem.stackSize
    · rw [if_pos hfits] at hstep
      obtain ⟨h', hrun, hc⟩ := hstep
      rw [hrun] at hr
      simp only [Runs.run, map_some, some.injEq] at hr
      rw [← hr]
      exact hc
    · rw [if_neg hfits] at hstep
      rw [hstep] at hr
      simp at hr

theorem run_ascendingSets (n : Nat) (hn : 3 * (2 ^ 24 - 1) < n) :
    Runs.run (mapStep collidingCallbacks) emptyHash (ascendingSets (n + 1)) = none := by
  rw [ascendingSets_succ, Runs.run_append]
  cases hrun : Runs.run (mapStep collidingCallbacks) emptyHash (ascendingSets n) with
  | none => rfl
  | some p =>
    have hc := counted_run n hrun
    obtain ⟨ds, hvalue, hspell⟩ := hc.spells
    have hdeep : ¬ (rightPath (treeOf p.1 0) []).length ≤ Mem.stackSize :=
      Nat.not_le_of_lt (hspell.overruns (by rw [hvalue]; exact hn))
    have hstep := hc.set
    rw [if_neg hdeep] at hstep
    rw [bind_some, Runs.run, hstep]
    rfl

/-- Setting the keys `0, 1, 2, ...` in this order, the call for `50331646` pushes a 49th entry. -/
theorem ascendingSets_overrun :
    KeyOrder collidingCallbacks ∧
      Runs.Admits MapOp.Legal (fun m op => (mapNext m op).1) (fun _ => none)
        (ascendingSets 50331647) ∧
      Runs.run (mapStep collidingCallbacks) emptyHash (ascendingSets 50331647) = none ∧
      ¬ ∃ h' rs m', Runs.run (mapStep collidingCallbacks) emptyHash (ascendingSets 50331647) =
          some (h', rs) ∧
        Runs.Traces (fun m op m' r => mapNext m op = (m', r)) (fun _ => none)
          (ascendingSets 50331647) m' rs ∧
        IsMap collidingCallbacks h' m' := by
  have hnone : Runs.run (mapStep collidingCallbacks) emptyHash (ascendingSets 50331647) = none :=
    run_ascendingSets 50331646 (by omega)
  refine ⟨collidingCallbacks_order, legal_ascendingSets 50331647 _, hnone, ?_⟩
  rintro ⟨h', rs, m', hrun, -⟩
  rw [hnone] at hrun
  simp at hrun

end Eina.Hash
