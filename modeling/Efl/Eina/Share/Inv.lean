/-
The invariant of a share.

`rest a` are the blocks in the list of the head `a`, in order; behind them comes the
builtin node of the head, and that is the whole list (`chain rest a`).  `Core` says
that the trees hold the heads, that the lists are these, and that the nodes of one
list hash to their head and hold different strings.  `held p` is how often the program
holds `p`, and the counter of every node says the same.

`Core` holds in the middle of a call too, where a node may have lost its last
reference and still be there.  `Live` is what is true between the calls: a block is
held, and so is some node of every head.  The builtin node alone may be dead, as long
as its list has others.
-/
import Efl.Eina.Share.Basic

namespace Eina.Share

open RedBlack Rbtree Forward Superfast Option Function

variable {s s' : Share} {rest : Addr → List Addr} {held held' : NodeAddr → Nat}

/-! ### What there is -/

def hashOf (s : Share) (a : Addr) : Option (BitVec 32) := (s.head a).map Head.hash

def firstOf (s : Share) (a : Addr) : Option (Option NodeAddr) := (s.head a).map Head.head

theorem headKey_congr {head head' : Addr → Option Head} {a : Addr}
    (h : (head' a).map Head.hash = (head a).map Head.hash) : headKey head' a = headKey head a := by
  unfold headKey
  cases ha : head a with
  | none =>
    rw [ha, map_none, map_eq_none_iff] at h
    rw [h]
  | some hd =>
    rw [ha, map_some, map_eq_some_iff] at h
    obtain ⟨hd', ha', heq⟩ := h
    rw [ha']
    simp only [heq]

theorem headKey_of_hashOf {a : Addr} {h : BitVec 32} (ha : s.hashOf a = some h) :
    headKey s.head a = (nodeHash h).toNat := by
  rw [hashOf, map_eq_some_iff] at ha
  obtain ⟨hd, hhd, rfl⟩ := ha
  rw [headKey, hhd]

theorem isSome_builtin (s : Share) (a : Addr) :
    (s.node (.builtin a)).isSome = (s.hashOf a).isSome := by
  simp [node, hashOf]

/-! ### Reading after writing -/

section Write

variable (s) (p : NodeAddr) (n : Node) (a : Addr) (f : Option NodeAddr)

@[simp] theorem buckets_setNode : (s.setNode p n).buckets = s.buckets := by
  cases p <;> rfl

@[simp] theorem allocs_setNode : (s.setNode p n).allocs = s.allocs := by
  cases p <;> rfl

@[simp] theorem hashOf_setNode : (s.setNode p n).hashOf = s.hashOf := by
  cases p with
  | block b => rfl
  | builtin x =>
    funext y
    by_cases hy : y = x
    · subst hy
      simp only [setNode, hashOf, update_self, map_map]
      rfl
    · simp only [setNode, hashOf, update_of_ne hy]

@[simp] theorem firstOf_setNode : (s.setNode p n).firstOf = s.firstOf := by
  cases p with
  | block b => rfl
  | builtin x =>
    funext y
    by_cases hy : y = x
    · subst hy
      simp only [setNode, firstOf, update_self, map_map]
      rfl
    · simp only [setNode, firstOf, update_of_ne hy]

theorem node_setNode_self (hp : (s.node p).isSome) : (s.setNode p n).node p = some n := by
  cases p with
  | block b => exact update_self b _ _
  | builtin x =>
    simp only [node, isSome_map] at hp
    obtain ⟨hd, hhd⟩ := isSome_iff_exists.mp hp
    simp [setNode, node, hhd]

theorem node_setNode_block (b : Addr) : (s.setNode (.block b) n).node (.block b) = some n :=
  update_self b _ _

theorem node_setNode_of_ne {q : NodeAddr} (hq : q ≠ p) : (s.setNode p n).node q = s.node q := by
  cases p with
  | block b =>
    cases q with
    | block b' =>
      have hb : b' ≠ b := fun heq => hq (heq ▸ rfl)
      exact update_of_ne hb _ _
    | builtin x => rfl
  | builtin x =>
    cases q with
    | block b' => rfl
    | builtin y =>
      have hy : y ≠ x := fun heq => hq (heq ▸ rfl)
      simp only [setNode, node, update_of_ne hy]

theorem next_setNode (hp : (s.node p).isSome) :
    (s.setNode p n).next = update s.next p (some n.next) := by
  funext q
  by_cases hq : q = p
  · subst hq
    rw [update_self, next, node_setNode_self s q n hp]
    rfl
  · rw [update_of_ne hq, next, node_setNode_of_ne s p n hq]
    rfl

@[simp] theorem buckets_setFirst : (s.setFirst a f).buckets = s.buckets := rfl

@[simp] theorem allocs_setFirst : (s.setFirst a f).allocs = s.allocs := rfl

@[simp] theorem hashOf_setFirst : (s.setFirst a f).hashOf = s.hashOf := by
  funext y
  by_cases hy : y = a
  · subst hy
    simp only [setFirst, hashOf, update_self, map_map]
    rfl
  · simp only [setFirst, hashOf, update_of_ne hy]

@[simp] theorem node_setFirst : (s.setFirst a f).node = s.node := by
  funext q
  cases q with
  | block b => rfl
  | builtin y =>
    by_cases hy : y = a
    · subst hy
      simp only [setFirst, node, update_self, map_map]
      rfl
    · simp only [setFirst, node, update_of_ne hy]

@[simp] theorem next_setFirst : (s.setFirst a f).next = s.next := by
  funext q
  rw [next, node_setFirst, next]

theorem firstOf_setFirst_self (ha : (s.hashOf a).isSome) :
    (s.setFirst a f).firstOf a = some f := by
  rw [hashOf, isSome_map] at ha
  obtain ⟨hd, hhd⟩ := isSome_iff_exists.mp ha
  simp [setFirst, firstOf, hhd]

theorem firstOf_setFirst_of_ne {y : Addr} (hy : y ≠ a) :
    (s.setFirst a f).firstOf y = s.firstOf y := by
  simp only [setFirst, firstOf, update_of_ne hy]

end Write

/-! ### The invariant -/

/-- The list of a head: its blocks, and behind them the builtin node. -/
def chain (rest : Addr → List Addr) (a : Addr) : List NodeAddr :=
  (rest a).map NodeAddr.block ++ [.builtin a]

/-- The hash of the string a node holds. -/
def Node.hash (n : Node) : BitVec 32 := hashSuperfast n.bytes n.length

/-- Two nodes hold the same string. -/
def Node.Same (n m : Node) : Prop := n.length = m.length ∧ n.bytes = m.bytes

structure Core (s : Share) (rest : Addr → List Addr) (held : NodeAddr → Nat) : Prop where
  tree : ∀ i, Keyed (headKey s.head) (s.buckets i)
  mem : ∀ i a, a ∈ (s.buckets i).toList ↔ ∃ h, s.hashOf a = some h ∧ bucketIdx h = i
  list : ∀ a f, s.firstOf a = some f → Seg s.next f (chain rest a) none
  gone : ∀ a, s.hashOf a = none → rest a = []
  nodup : ∀ a, (rest a).Nodup
  apart : ∀ a a' b, b ∈ rest a → b ∈ rest a' → a = a'
  block : ∀ b, (s.node (.block b)).isSome ↔ ∃ a, b ∈ rest a
  fuel : ∀ a, (s.hashOf a).isSome → (rest a).length < s.allocs
  room : ∀ p n, s.node p = some n → n.length.toNat ≤ n.str.length
  hash : ∀ a h, s.hashOf a = some h → ∀ p ∈ chain rest a, ∀ n, s.node p = some n →
    bucketIdx n.hash = bucketIdx h ∧ nodeHash n.hash = nodeHash h
  distinct : ∀ a, ∀ p ∈ chain rest a, ∀ q ∈ chain rest a, ∀ n m, s.node p = some n →
    s.node q = some m → n.Same m → p = q
  count : ∀ p n, s.node p = some n → n.references.toNat = held p
  held : ∀ p, 0 < held p → (s.node p).isSome

/-- Between two calls every block is held, and a node of every head. -/
structure Live (s : Share) (rest : Addr → List Addr) (held : NodeAddr → Nat) : Prop where
  block : ∀ b, (s.node (.block b)).isSome → 0 < held (.block b)
  head : ∀ a, (s.hashOf a).isSome → ∃ p ∈ chain rest a, 0 < held p

@[simp] theorem mem_chain {p : NodeAddr} {a : Addr} :
    p ∈ chain rest a ↔ (∃ b ∈ rest a, NodeAddr.block b = p) ∨ p = .builtin a := by
  simp [chain]

theorem chain_congr {rest' : Addr → List Addr} {a : Addr} (h : rest' a = rest a) :
    chain rest' a = chain rest a := by
  rw [chain, chain, h]

theorem core_new : Core Share.new (fun _ => []) fun _ => 0 := by
  have hnode : ∀ p, Share.new.node p = none := by
    intro p
    cases p <;> rfl
  refine ⟨fun _ => Keyed.nil _, ?_, ?_, fun _ _ => rfl, fun _ => List.nodup_nil, ?_, ?_, ?_, ?_,
    ?_, ?_, ?_, ?_⟩
  · simp [Share.new, hashOf]
  · intro a f hf
    simp [Share.new, firstOf] at hf
  · intro a a' b hb
    simp at hb
  · simp [hnode]
  · intro a ha
    simp [Share.new, hashOf] at ha
  · intro p n hp
    simp [hnode] at hp
  · intro a h ha
    simp [Share.new, hashOf] at ha
  · intro a p _ q _ n m hp
    simp [hnode] at hp
  · intro p n hp
    simp [hnode] at hp
  · intro p hp
    simp at hp

theorem live_new : Live Share.new (fun _ => []) fun _ => 0 := by
  refine ⟨?_, ?_⟩
  · intro b hb
    simp [Share.new, node] at hb
  · intro a ha
    simp [Share.new, hashOf] at ha

namespace Core

variable (h : Core s rest held)

include h

theorem chain_nodup (a : Addr) : (chain rest a).Nodup := by
  rw [chain, List.nodup_append]
  refine ⟨(h.nodup a).map ?_, by simp, ?_⟩
  · intro b b' hbb
    exact NodeAddr.block.inj hbb
  · rintro p hp q hq rfl
    obtain ⟨b, -, rfl⟩ := List.mem_map.mp hp
    simp at hq

theorem isSome_of_mem {a : Addr} (ha : (s.hashOf a).isSome) {p : NodeAddr}
    (hp : p ∈ chain rest a) : (s.node p).isSome := by
  rcases mem_chain.mp hp with ⟨b, hb, rfl⟩ | rfl
  · exact (h.block b).mpr ⟨a, hb⟩
  · rw [isSome_builtin]
    exact ha

/-- Every node is in the list of a head. -/
theorem home {p : NodeAddr} (hp : (s.node p).isSome) :
    ∃ a, (s.hashOf a).isSome ∧ p ∈ chain rest a := by
  cases p with
  | builtin a =>
    rw [isSome_builtin] at hp
    exact ⟨a, hp, by simp⟩
  | block b =>
    obtain ⟨a, hb⟩ := (h.block b).mp hp
    refine ⟨a, ?_, by simp [hb]⟩
    by_contra hnone
    rw [not_isSome_iff_eq_none] at hnone
    rw [h.gone a hnone] at hb
    simp at hb

theorem same_head {a a' : Addr} {p : NodeAddr} (hp : p ∈ chain rest a)
    (hp' : p ∈ chain rest a') : a = a' := by
  rcases mem_chain.mp hp with ⟨b, hb, rfl⟩ | rfl
  · rcases mem_chain.mp hp' with ⟨b', hb', heq⟩ | hp'
    · obtain rfl := NodeAddr.block.inj heq
      exact h.apart a a' b' hb hb'
    · simp at hp'
  · rcases mem_chain.mp hp' with ⟨b', -, heq⟩ | hp'
    · simp at heq
    · exact NodeAddr.builtin.inj hp'

theorem head_unique {a a' : Addr} {x x' : BitVec 32} (ha : s.hashOf a = some x)
    (ha' : s.hashOf a' = some x') (hb : bucketIdx x = bucketIdx x')
    (hn : nodeHash x = nodeHash x') : a = a' := by
  refine (h.tree (bucketIdx x)).inj a ((h.mem _ a).mpr ⟨x, ha, rfl⟩) a'
    ((h.mem _ a').mpr ⟨x', ha', hb.symm⟩) ?_
  rw [headKey_of_hashOf ha, headKey_of_hashOf ha', hn]

/-- **A string is held by one node only.** -/
theorem eq_of_same {p q : NodeAddr} {n m : Node} (hp : s.node p = some n)
    (hq : s.node q = some m) (hsame : n.Same m) : p = q := by
  obtain ⟨a, ha, hpa⟩ := h.home (isSome_iff_exists.mpr ⟨n, hp⟩)
  obtain ⟨a', ha', hqa⟩ := h.home (isSome_iff_exists.mpr ⟨m, hq⟩)
  obtain ⟨x, hx⟩ := isSome_iff_exists.mp ha
  obtain ⟨x', hx'⟩ := isSome_iff_exists.mp ha'
  have hn := h.hash a x hx p hpa n hp
  have hm := h.hash a' x' hx' q hqa m hq
  have hhash : n.hash = m.hash := by
    rw [Node.hash, Node.hash, hsame.1, hsame.2]
  obtain rfl := h.head_unique hx hx' (by rw [← hn.1, ← hm.1, hhash])
    (by rw [← hn.2, ← hm.2, hhash])
  exact h.distinct a p hpa q hqa n m hp hq hsame

theorem findHash_iff (b n : BitVec 8) (a : Addr) :
    s.findHash b n = some a ↔ ∃ x, s.hashOf a = some x ∧ bucketIdx x = b ∧ nodeHash x = n := by
  have hlook := (h.tree b).lookup_key_iff (n.toNat : Int) (x := a)
  rw [findHash, show cmp s.head n = fun a => headKey s.head a - (n.toNat : Int) from rfl, hlook,
    h.mem]
  constructor
  · rintro ⟨⟨x, hx, hb⟩, hkey⟩
    rw [headKey_of_hashOf hx] at hkey
    exact ⟨x, hx, hb, BitVec.eq_of_toNat_eq (by omega)⟩
  · rintro ⟨x, hx, hb, rfl⟩
    exact ⟨⟨x, hx, hb⟩, headKey_of_hashOf hx⟩

theorem height_le (i : BitVec 8) : (s.buckets i).height ≤ Mem.stackSize := by
  refine (h.tree i).height_le (n := 256) (by omega) ?_
  intro a ha
  obtain ⟨x, hx, -⟩ := (h.mem i a).mp ha
  rw [headKey_of_hashOf hx]
  omega

end Core

theorem cmpNode_eq (head : Addr → Option Head) : cmpNode head = byKey (headKey head) := by
  funext a b
  unfold cmpNode byKey
  split <;> split <;> first | rfl | omega

end Eina.Share
