/-
Whole runs of `eina_rbtree_inline_insert` and `eina_rbtree_inline_remove`.

The memory starts with a null root and nodes of any content.  What is true after a
run is said of the tree the memory holds, and the tree is followed along the run
together with the set of the nodes that were inserted and not removed.  The one
thing the code does not check is the length of the path it pushes: an operation is
only defined when the path has at most `stackSize` nodes.
-/
import Mathlib.Data.Finset.Card
import Efl.Lib.Runs
import Efl.Eina.Rbtree.Bounded

namespace Eina.Rbtree

open RedBlack

variable {α : Type} [DecidableEq α]

/-- A call that changes the tree. -/
inductive Op (α : Type) where
  | insert (node : α)
  | remove (node : α)
  deriving DecidableEq, Repr

/-- The call over memory. -/
def Mem.step (cmp : α → α → Direction) (m : Mem α) : Op α → Option (Mem α)
  | .insert x => m.inlineInsert cmp x
  | .remove x => m.inlineRemove cmp x

/-- What a run has built: the nodes inserted and not removed, and the tree of them. -/
structure Built (α : Type) where
  live : Finset α
  tree : Tree α

/-- The call on sets and trees. -/
def Built.step (cmp : α → α → Direction) (b : Built α) : Op α → Built α
  | .insert x => ⟨insert x b.live, inlineInsert cmp b.tree x⟩
  | .remove x => ⟨b.live.erase x, inlineRemove cmp b.tree x⟩

def Built.empty : Built α := ⟨∅, .nil⟩

/-- Only a node that is not in the tree is inserted. -/
def Op.Legal (b : Built α) : Op α → Prop
  | .insert x => x ∉ b.live
  | .remove _ => True

instance (b : Built α) : ∀ op : Op α, Decidable (op.Legal b)
  | .insert x => inferInstanceAs (Decidable (x ∉ b.live))
  | .remove _ => inferInstanceAs (Decidable True)

/-- The entries the call pushes on its stack. -/
def Op.depth (cmp : α → α → Direction) (b : Built α) : Op α → Nat
  | .insert x => (insertPath cmp x b.tree []).length
  | .remove x => removeDepth cmp x b.tree

/-- The call is legal and its path fits into the stack. -/
def Op.Fits (cmp : α → α → Direction) (b : Built α) (op : Op α) : Prop :=
  op.Legal b ∧ op.depth cmp b ≤ Mem.stackSize

instance (cmp : α → α → Direction) (b : Built α) (op : Op α) : Decidable (op.Fits cmp b) :=
  inferInstanceAs (Decidable (_ ∧ _))

/-- `cmp a b` sends `b` to the left of `a`. -/
def Before (cmp : α → α → Direction) (a b : α) : Prop := a ≠ b ∧ cmp b a = .left

variable {cmp : α → α → Direction} {ops : List (Op α)} {b : Built α} {op : Op α} {m : Mem α}

omit [DecidableEq α] in
theorem sortsStrictly_of_order (h : IsStrictTotalOrder α (Before cmp)) :
    SortsStrictly cmp := by
  have hright : ∀ a b, a ≠ b → cmp a b = .right → Before cmp a b := by
    intro a b hne hr
    rcases trichotomous_of (Before cmp) a b with hab | hab | hab
    · exact hab
    · exact absurd hab hne
    · rw [hab.2] at hr
      exact Direction.noConfusion hr
  have hleft : ∀ a b, Before cmp a b → cmp a b = .right := by
    intro a b hab
    cases hd : cmp a b with
    | right => rfl
    | left => exact absurd ⟨fun h => hab.1 h.symm, hd⟩ (asymm_of (Before cmp) hab)
  refine ⟨⟨?_, ?_⟩, ?_⟩
  · intro a b hne hl
    exact hleft b a ⟨fun h => hne h.symm, hl⟩
  · intro a b c hab hbc
    by_cases h1 : a = b
    · rw [h1]
      exact hbc
    by_cases h2 : b = c
    · rw [← h2]
      exact hab
    exact hleft a c (trans_of (Before cmp) (hright a b h1 hab) (hright b c h2 hbc))
  · intro a b hne hr
    exact (hright a b hne hr).2

/-- A red-black tree: black root, no red node with a red son, one black height. -/
structure IsRedBlack (t : Tree α) : Prop where
  root : t.color = .black
  noRedRed : t.NoRedRed
  height : ∃ n, ∀ k ∈ t.blackCounts, k = n

/-- What every run keeps. -/
structure Built.Inv (cmp : α → α → Direction) (b : Built α) : Prop where
  tree : IsTree cmp b.tree
  mem : ∀ x, x ∈ b.tree.toList ↔ x ∈ b.live

omit [DecidableEq α] in
theorem Built.inv_empty (cmp : α → α → Direction) : (Built.empty : Built α).Inv cmp :=
  ⟨IsTree.nil cmp, fun x => by simp [Built.empty]⟩

theorem Built.Inv.step (hc : SortsStrictly cmp) (h : b.Inv cmp)
    (hop : op.Legal b) : (b.step cmp op).Inv cmp := by
  cases op with
  | insert x =>
    have hx : x ∉ b.tree.toList := by
      rw [h.mem]
      exact hop
    refine ⟨h.tree.insert hc.toSorts hx, ?_⟩
    intro y
    simp only [Built.step, mem_inlineInsert, h.mem, Finset.mem_insert]
  | remove x =>
    have hs : b.tree.SearchTree cmp :=
      h.tree.ordered.searchTree (fun a _ b _ => hc.strict a b) h.tree.nodup
    refine ⟨h.tree.remove x, ?_⟩
    intro y
    simp only [Built.step, mem_inlineRemove h.tree.nodup hs, h.mem, Finset.mem_erase]

/-- The memory holds what the run has built. -/
structure Holds (cmp : α → α → Direction) (m : Mem α) (b : Built α) : Prop where
  rep : Rep m.node b.tree m.root
  inv : b.Inv cmp

theorem Holds.step (hc : SortsStrictly cmp) (h : Holds cmp m b) (hop : op.Fits cmp b) :
    ∃ m', m.step cmp op = some m' ∧ Holds cmp m' (b.step cmp op) := by
  obtain ⟨hlegal, hdepth⟩ := hop
  cases op with
  | insert x =>
    have hx : x ∉ b.tree.toList := by
      rw [h.inv.mem]
      exact hlegal
    obtain ⟨m', hrun, hrep⟩ := inlineInsert_rep cmp h.rep h.inv.tree.nodup hx hdepth
    exact ⟨m', hrun, hrep, h.inv.step hc hlegal⟩
  | remove x =>
    obtain ⟨m', hrun, hrep⟩ := inlineRemove_rep cmp x h.rep h.inv.tree.nodup hdepth
    exact ⟨m', hrun, hrep, h.inv.step hc hlegal⟩

/--
**Every run whose paths fit into the stack builds a red-black search tree of the
nodes inserted and not removed.**
-/
theorem run_redBlack {cmp : α → α → Direction} (hc : IsStrictTotalOrder α (Before cmp))
    (h : α → Node α)
    (hops : Runs.Admits (Op.Fits cmp) (Built.step cmp) .empty ops) :
    ∃ m t, ops.foldlM (Mem.step cmp) ⟨none, h⟩ = some m ∧ Rep m.node t m.root ∧
      t.toList.Nodup ∧ IsRedBlack t ∧ t.SearchTree cmp ∧
      ∀ x, x ∈ t.toList ↔ x ∈ (ops.foldl (Built.step cmp) .empty).live := by
  have hsort := sortsStrictly_of_order hc
  obtain ⟨m, hrun, hrep, hinv⟩ := Runs.simulates (fun _ _ _ hR hok => hR.step hsort hok) ops _ _
    (⟨rfl, Built.inv_empty cmp⟩ : Holds cmp ⟨none, h⟩ .empty) hops
  obtain ⟨n, hn⟩ := hinv.tree.balanced
  exact ⟨m, _, hrun, hrep, hinv.tree.nodup, ⟨hinv.tree.root, hn.noRedRed, n, hn.blackCounts⟩,
    hinv.tree.ordered.searchTree (fun a _ b _ => hsort.strict a b) hinv.tree.nodup, hinv.mem⟩

/-- Numbers as nodes, smaller ones to the left. -/
def natCmp (a b : Nat) : Direction := if b < a then .left else .right

theorem natCmp_order : IsStrictTotalOrder Nat (Before natCmp) := by
  have hlt : ∀ a b, Before natCmp a b ↔ a < b := by
    intro a b
    unfold Before natCmp
    by_cases hab : a < b
    · simp [ne_of_lt hab]
    · simp [hab]
  have heq : Before natCmp = (· < ·) := by
    funext a b
    exact propext (hlt a b)
  rw [heq]
  infer_instance

theorem run_redBlack_four : ∃ m t,
    [Op.insert 2, .insert 7, .insert 4, .insert 9, .remove 4, .remove 5].foldlM
        (Mem.step natCmp) ⟨none, fun _ => ⟨fun _ => none, .red⟩⟩ = some m ∧
      Rep m.node t m.root ∧ t.toList.Nodup ∧ IsRedBlack t ∧ t.SearchTree natCmp ∧
      ∀ x, x ∈ t.toList ↔ x ∈ ({2, 7, 9} : Finset Nat) := by
  have hops : Runs.Admits (Op.Fits natCmp) (Built.step natCmp) .empty
      [Op.insert 2, .insert 7, .insert 4, .insert 9, .remove 4, .remove 5] := by
    decide
  obtain ⟨m, t, hrun, hrep, hnd, hrb, hst, hmem⟩ :=
    run_redBlack natCmp_order (fun _ => ⟨fun _ => none, .red⟩) hops
  refine ⟨m, t, hrun, hrep, hnd, hrb, hst, ?_⟩
  intro x
  rw [hmem]
  have hlive : ([Op.insert 2, .insert 7, .insert 4, .insert 9, .remove 4, .remove 5].foldl
      (Built.step natCmp) .empty).live = {2, 7, 9} := by decide
  rw [hlive]

/-! ### How many nodes are safe -/

/-- **On a tree of at most `2 ^ 25 - 2` nodes no call writes behind the end of its stack**,
whatever the callback answers. -/
theorem stack_suffices {cmp : α → α → Direction} {t : Tree α} {n : Nat} (h : Rep m.node t m.root)
    (hnd : t.toList.Nodup) (hroot : t.color = .black) (hn : t.Balanced n)
    (hlen : t.toList.length ≤ 2 ^ 25 - 2) (x : α) :
    (m.insertSearch cmp x Mem.stackSize .root []).isSome ∧
      (x ∉ t.toList → (m.inlineInsert cmp x).isSome) ∧ (m.inlineRemove cmp x).isSome := by
  have hheight := height_le_stackSize hroot hn (by omega)
  have hroom : (insertPath cmp x t []).length ≤ Mem.stackSize := by
    have hpath := length_insertPath_le cmp x t []
    rw [List.length_nil, Nat.zero_add] at hpath
    exact hpath.trans hheight
  refine ⟨?_, ?_, ?_⟩
  · rw [insertSearch_root cmp x Mem.stackSize h hnd, if_pos hroom]
    rfl
  · intro hx
    obtain ⟨m', hrun, -⟩ := inlineInsert_rep cmp h hnd hx hroom
    rw [hrun]
    rfl
  · obtain ⟨m', hrun, -⟩ :=
      inlineRemove_rep cmp x h hnd ((removeDepth_le cmp x t).trans hheight)
    rw [hrun]
    rfl

/-- Seven nodes: the sons of the root are red, their sons black. -/
def sevenNodes : Mem Nat where
  root := some 4
  node
    | 4 => ⟨fun | .left => some 2 | .right => some 6, .black⟩
    | 2 => ⟨fun | .left => some 1 | .right => some 3, .red⟩
    | 6 => ⟨fun | .left => some 5 | .right => some 7, .red⟩
    | _ => ⟨fun _ => none, .black⟩

def sevenTree : Tree Nat :=
  .node .black (.node .red (.node .black .nil 1 .nil) 2 (.node .black .nil 3 .nil)) 4
    (.node .red (.node .black .nil 5 .nil) 6 (.node .black .nil 7 .nil))

theorem rep_sevenNodes : Rep sevenNodes.node sevenTree sevenNodes.root := by
  simp [Rep, sevenTree, sevenNodes]

/-- The root, which has two sons, is removed, and a new node is inserted. -/
theorem stack_suffices_sevenNodes :
    (sevenNodes.inlineInsert natCmp 8).isSome ∧ (sevenNodes.inlineRemove natCmp 4).isSome := by
  have hbalanced : sevenTree.Balanced 2 := by simp [sevenTree]
  have hnd : sevenTree.toList.Nodup := by decide
  exact ⟨(stack_suffices rep_sevenNodes hnd rfl hbalanced (by decide) 8).2.1 (by decide),
    (stack_suffices rep_sevenNodes hnd rfl hbalanced (by decide) 4).2.2⟩

/-! ### Any callback -/

/-- The call on trees, which is defined when its path fits into the stack. -/
def boundedStep (cmp : α → α → Direction) (t : Tree α) : Op α → Option (Tree α)
  | .insert x => boundedInsert cmp t x
  | .remove x => boundedRemove cmp t x

/-- No node is inserted that is in the tree. -/
def Fresh (cmp : α → α → Direction) : Tree α → List (Op α) → Prop
  | _, [] => True
  | t, op :: ops => (∀ x, op = .insert x → x ∉ t.toList) ∧
    ∀ t', boundedStep cmp t op = some t' → Fresh cmp t' ops

/-- What the memory does where the tree is known. -/
def Follows (m : Option (Mem α)) : Option (Tree α) → Prop
  | none => m = none
  | some t => ∃ m', m = some m' ∧ Rep m'.node t m'.root ∧ t.toList.Nodup

/-- One call: the memory overruns the stack exactly where the path is too long. -/
theorem step_follows {t : Tree α} {op : Op α} (h : Rep m.node t m.root) (hnd : t.toList.Nodup)
    (hnew : ∀ x, op = .insert x → x ∉ t.toList) :
    Follows (m.step cmp op) (boundedStep cmp t op) := by
  cases op with
  | insert x =>
    show Follows (m.inlineInsert cmp x) (boundedInsert cmp t x)
    unfold boundedInsert
    by_cases hroom : (insertPath cmp x t []).length ≤ Mem.stackSize
    · obtain ⟨m', hm, hrep⟩ := inlineInsert_rep cmp h hnd (hnew x rfl) hroom
      rw [if_pos hroom]
      exact ⟨m', hm, hrep, nodup_inlineInsert cmp hnd (hnew x rfl)⟩
    · rw [if_neg hroom]
      exact inlineInsert_overrun cmp h hnd (Nat.lt_of_not_le hroom)
  | remove x =>
    show Follows (m.inlineRemove cmp x) (boundedRemove cmp t x)
    unfold boundedRemove
    by_cases hroom : removeDepth cmp x t ≤ Mem.stackSize
    · obtain ⟨m', hm, hrep⟩ := inlineRemove_rep cmp x h hnd hroom
      rw [if_pos hroom]
      exact ⟨m', hm, hrep, nodup_inlineRemove hnd⟩
    · rw [if_neg hroom]
      exact inlineRemove_overrun cmp h hnd (Nat.lt_of_not_le hroom)

/-- **Whatever the callback answers, a run over memory does what the run on trees does**: both have
a value or neither has, and the memory holds the tree. -/
theorem run_follows (cmp : α → α → Direction) {t : Tree α} {ops : List (Op α)}
    (h : Rep m.node t m.root) (hnd : t.toList.Nodup) (hfresh : Fresh cmp t ops) :
    Follows (ops.foldlM (Mem.step cmp) m) (ops.foldlM (boundedStep cmp) t) := by
  induction ops generalizing m t with
  | nil => exact ⟨m, rfl, h, hnd⟩
  | cons op ops ih =>
    have hstep : Follows (m.step cmp op) _ := step_follows h hnd hfresh.1
    rw [List.foldlM_cons, List.foldlM_cons]
    cases ht : boundedStep cmp t op with
    | none =>
      rw [ht] at hstep
      rw [show m.step cmp op = none from hstep]
      rfl
    | some t' =>
      rw [ht] at hstep
      obtain ⟨m', hm, hrep, hnodup⟩ := hstep
      rw [hm]
      exact ih hrep hnodup (hfresh.2 t' ht)

theorem run_follows_two : Follows
    ([Op.insert 2, .insert 7].foldlM (Mem.step fun _ _ => .left)
      ⟨none, fun _ => ⟨fun _ => none, .red⟩⟩)
    ([Op.insert 2, .insert 7].foldlM (boundedStep fun _ _ => .left) .nil) := by
  refine run_follows (m := ⟨none, fun _ => ⟨fun _ => none, .red⟩⟩) _ rfl List.nodup_nil
    ⟨fun _ _ => List.not_mem_nil, fun t ht => ?_⟩
  obtain rfl := Option.some.inj ht
  exact ⟨fun x hx => by cases hx; decide, fun _ _ => trivial⟩

end Eina.Rbtree
