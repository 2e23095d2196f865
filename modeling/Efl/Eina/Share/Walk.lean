/-
The walks along the list of a head: to a string, to a node, and to the head itself.

Every node but the last is a block, and the last is the builtin node of the head.  So a
node that has one behind it is a block (`chain_split`), and only such a node is moved
or unlinked.
-/
import Efl.Eina.Share.Change

namespace Eina.Share

open RedBlack Rbtree Forward Superfast List Option Function

variable {s s' : Share} {rest rest' : Addr → List Addr} {held : NodeAddr → Nat} {a : Addr}
  {p : NodeAddr}

theorem chain_split {l r : List NodeAddr} (h : chain rest a = l ++ p :: r) :
    (l = (rest a).map .block ∧ p = .builtin a ∧ r = []) ∨
      ∃ lb x rb, rest a = lb ++ x :: rb ∧ l = lb.map .block ∧ p = .block x ∧
        r = rb.map .block ++ [.builtin a] := by
  rcases eq_nil_or_concat r with rfl | ⟨r', q, rfl⟩
  · have heq := append_inj' h (by simp)
    exact .inl ⟨heq.1.symm, (singleton_inj.mp heq.2).symm, rfl⟩
  rw [concat_eq_append, ← cons_append, ← append_assoc] at h
  have heq := append_inj' h (by simp)
  obtain ⟨lb, rb', hrest, hl, hr⟩ := map_eq_append_iff.mp heq.1
  obtain ⟨x, rb, rfl, rfl, rfl⟩ := map_eq_cons_iff.mp hr
  exact .inr ⟨lb, x, rb, hrest, hl.symm, rfl,
    by rw [concat_eq_append, singleton_inj.mp heq.2]⟩

theorem head_of_hashOf (ha : (s.hashOf a).isSome) : ∃ hd, s.head a = some hd := by
  rw [hashOf, isSome_map] at ha
  exact isSome_iff_exists.mp ha

theorem node_of_next {q : Option NodeAddr} (h : s.next p = some q) :
    ∃ n, s.node p = some n ∧ n.next = q := by
  rw [next, map_eq_some_iff] at h
  exact h

/-- What a call that only links leaves as it is. -/
structure Relinked (s s' : Share) (rest rest' : Addr → List Addr) : Prop where
  hashOf : s'.hashOf = s.hashOf
  nodes : SameNodes s s'
  perm : ∀ x, (rest' x).Perm (rest x)

theorem Relinked.refl (s : Share) (rest : Addr → List Addr) : Relinked s s rest rest :=
  ⟨rfl, fun _ => rfl, fun _ => List.Perm.refl _⟩

theorem Relinked.mem_chain (h : Relinked s s' rest rest') (x : Addr) (p : NodeAddr) :
    p ∈ chain rest' x ↔ p ∈ chain rest x := by
  simp only [Share.mem_chain, (h.perm x).mem_iff]

theorem Live.relinked (hl : Live s rest held) (h : Relinked s s' rest rest') :
    Live s' rest' held := by
  refine ⟨?_, ?_⟩
  · intro b hb
    rw [h.nodes.isSome] at hb
    exact hl.block b hb
  · intro x hx
    rw [h.hashOf] at hx
    obtain ⟨p, hp, hpos⟩ := hl.head x hx
    exact ⟨p, (h.mem_chain x p).mpr hp, hpos⟩

theorem perm_update {l : List Addr} (hperm : l.Perm (rest a)) (x : Addr) :
    (update rest a l x).Perm (rest x) := by
  by_cases hx : x = a
  · subst hx
    rw [update_self]
    exact hperm
  · rw [update_of_ne hx]

namespace Core

variable (h : Core s rest held)

include h

theorem length_chain (ha : (s.hashOf a).isSome) : (chain rest a).length < s.allocs + 1 := by
  have := h.fuel a ha
  rw [chain, length_append, length_map, length_singleton]
  omega

theorem seg (ha : (s.hashOf a).isSome) : ∃ hd, s.head a = some hd ∧
    Seg s.next hd.head (chain rest a) none := by
  obtain ⟨hd, hhd⟩ := head_of_hashOf ha
  refine ⟨hd, hhd, h.list a hd.head ?_⟩
  rw [firstOf, hhd]
  rfl

/-- The walk from a node ends in its head. -/
theorem headFromNode_eq (ha : (s.hashOf a).isSome) {p : NodeAddr} (hp : p ∈ chain rest a) :
    s.headFromNode p = some a := by
  obtain ⟨hd, -, hseg⟩ := h.seg ha
  obtain ⟨l, r, hlr⟩ := append_of_mem hp
  have hlen := h.length_chain ha
  rw [hlr] at hseg
  obtain ⟨m, -, hr⟩ := seg_append.mp hseg
  obtain rfl : m = some p := hr.1
  have hlast : ∃ t, p :: r = t ++ [.builtin a] := by
    rcases chain_split hlr with ⟨-, rfl, rfl⟩ | ⟨lb, x, rb, -, -, rfl, rfl⟩
    · exact ⟨[], rfl⟩
    · exact ⟨.block x :: rb.map .block, rfl⟩
  obtain ⟨t, ht⟩ := hlast
  have hsub : t.length < s.allocs + 1 := by
    have hl := congrArg length hlr
    rw [length_append, ht, length_append] at hl
    omega
  rw [ht] at hr
  rw [headFromNode, hr.lastOf_eq hsub]
  rfl

/-- The node that was found moves to the front. -/
theorem promote_spec (ha : (s.hashOf a).isSome) {lb rb : List Addr} {y x : Addr}
    (hrest : rest a = lb ++ y :: x :: rb) :
    ∃ s' l, s.promote a (.block y) (.block x) = some s' ∧
      Core s' (update rest a l) held ∧
      Relinked s s' rest (update rest a l) := by
  obtain ⟨hd, hhd, hseg⟩ := h.seg ha
  have hnd := h.chain_nodup a
  have hchain : chain rest a = lb.map .block ++ .block y :: .block x ::
      (rb.map .block ++ [.builtin a]) := by
    rw [chain, hrest]
    simp
  rw [hchain] at hseg hnd
  obtain ⟨q, hq, hshort⟩ := hseg.unlink hnd
  have hqne : q ≠ none := by
    rintro rfl
    obtain ⟨m, -, -, -, -, -, q', hq', hr⟩ := seg_append.mp hseg
    rw [hq] at hq'
    obtain rfl := some.inj hq'
    obtain ⟨m, hl, hr⟩ := seg_append.mp hr
    cases rb with
    | nil =>
      exact absurd hr.1 (by simp)
    | cons z rb => exact absurd hl.1 (by simp)
  obtain ⟨q', rfl⟩ := ne_none_iff_exists'.mp hqne
  obtain ⟨nx, hnx, hnxq⟩ := node_of_next hq
  have hyc : NodeAddr.block y ∈ chain rest a := by rw [hchain]; simp
  obtain ⟨ny, hny⟩ := isSome_iff_exists.mp (h.isSome_of_mem ha hyc)
  have hxy : NodeAddr.block x ≠ .block y := by
    intro heq
    rw [nodup_append] at hnd
    have := (nodup_cons.mp hnd.2.1).1
    rw [heq] at this
    exact this mem_cons_self
  -- the node before is linked to the one behind
  set s1 := s.setNode (.block y) { ny with next := some q' } with hs1
  have hnx1 : s1.node (.block x) = some nx := by
    rw [hs1, node_setNode_of_ne s _ _ hxy, hnx]
  have hfirst1 : s1.firstOf a = some hd.head := by
    rw [hs1, firstOf_setNode, firstOf, hhd]
    rfl
  obtain ⟨hd1, hhd1, hd1head⟩ := map_eq_some_iff.mp hfirst1
  -- and the node itself to the one that was first
  set s2 := s1.setNode (.block x) { nx with next := hd1.head } with hs2
  have hnext1 : s1.next = update s.next (.block y) (some (some q')) :=
    next_setNode s _ _ (isSome_iff_exists.mpr ⟨ny, hny⟩)
  have hnext2 : s2.next = update s1.next (.block x) (some hd1.head) :=
    next_setNode s1 _ _ (isSome_iff_exists.mpr ⟨nx, hnx1⟩)
  have hnodes1 : SameNodes s s1 := sameNodes_setNode hny rfl
  have hnodes2 : SameNodes s1 s2 := sameNodes_setNode hnx1 rfl
  have hnodes : SameNodes s s2 := hnodes1.trans hnodes2
  have hperm : (x :: (lb ++ y :: rb)).Perm (rest a) := by
    have hmid : (lb ++ [y] ++ x :: rb).Perm (x :: (lb ++ [y] ++ rb)) := perm_middle
    rw [hrest]
    simpa using hmid.symm
  refine ⟨s2.setFirst a (some (.block x)), x :: (lb ++ y :: rb), ?_, ?_, ?_⟩
  · rw [promote, hq, bind_some]
    rw [setNext, hny, map_some, bind_some, hhd1, bind_some, setNext,
      hnx1, map_some, map_some]
  · refine h.relist ?_ ?_ ?_ ?_ ?_ ?_ ?_ hperm ?_
    · rw [buckets_setFirst, hs2, buckets_setNode, hs1, buckets_setNode]
    · rw [hashOf_setFirst, hs2, hashOf_setNode, hashOf_setNode]
    · rw [allocs_setFirst, hs2, allocs_setNode, hs1, allocs_setNode]
    · exact hnodes.trans (sameNodes_setFirst _)
    · intro p n' hp
      rw [node_setFirst] at hp
      by_cases hpx : p = .block x
      · subst hpx
        rw [node_setNode_self s1 _ _ (isSome_iff_exists.mpr ⟨nx, hnx1⟩)] at hp
        exact ⟨nx, hnx, by rw [← some.inj hp]⟩
      · rw [hs2, node_setNode_of_ne s1 _ _ hpx] at hp
        by_cases hpy : p = .block y
        · subst hpy
          rw [node_setNode_self s _ _ (isSome_iff_exists.mpr ⟨ny, hny⟩)] at hp
          exact ⟨ny, hny, by rw [← some.inj hp]⟩
        · rw [node_setNode_of_ne s _ _ hpy] at hp
          exact ⟨n', hp, rfl⟩
    · intro p hp
      have hpx : p ≠ .block x := by
        rintro rfl
        exact hp (by rw [hchain]; simp)
      have hpy : p ≠ .block y := by
        rintro rfl
        exact hp hyc
      rw [next_setFirst, hnext2, update_of_ne hpx, hnext1, update_of_ne hpy]
    · intro z hz
      rw [firstOf_setFirst_of_ne _ _ _ hz, firstOf_setNode, firstOf_setNode]
    · intro f hf
      have hthere : (s2.hashOf a).isSome := by
        exact ha
      rw [firstOf_setFirst_self _ _ _ hthere] at hf
      rw [← some.inj hf, next_setFirst, hnext2, hnext1]
      have hout : NodeAddr.block x ∉ lb.map .block ++ .block y ::
          (rb.map .block ++ [.builtin a]) := by
        have hmid : (lb.map NodeAddr.block ++ [NodeAddr.block y] ++ NodeAddr.block x ::
            (rb.map NodeAddr.block ++ [NodeAddr.builtin a])).Nodup := by simpa using hnd
        rw [nodup_middle, nodup_cons] at hmid
        simpa using hmid.1
      have hgoal := hshort.update hout hd1.head
      rw [hd1head] at hgoal ⊢
      simpa using hgoal
  · exact ⟨by rw [hashOf_setFirst, hashOf_setNode, hs1, hashOf_setNode],
      hnodes.trans (sameNodes_setFirst _), perm_update hperm⟩

/-- **The search finds the string, if it is in the list, or leaves everything as it is.** -/
theorem headFind_spec (ha : (s.hashOf a).isSome) (str : List Byte) (slen : BitVec 32) :
    (∃ p n s' rest', s.headFind a str slen = some (s', some p) ∧ Core s' rest' held ∧
        Relinked s s' rest rest' ∧ s.node p = some n ∧ n.length = slen ∧ n.bytes = str) ∨
      (s.headFind a str slen = some (s, none) ∧
        ∀ p ∈ chain rest a, ∀ n, s.node p = some n → ¬ (n.length = slen ∧ n.bytes = str)) := by
  obtain ⟨hd, hhd, hseg⟩ := h.seg ha
  have hlen := h.length_chain ha
  obtain ⟨first, hfirst⟩ : ∃ first, hd.head = some first := by
    cases hf : hd.head with
    | none =>
      rw [hf] at hseg
      cases hc : chain rest a with
      | nil => simp [chain] at hc
      | cons p t =>
        rw [hc] at hseg
        exact absurd hseg.1 (by simp)
    | some first => exact ⟨first, rfl⟩
  have heq : ∀ p n, s.node p = some n →
      (s.nodeEq str slen p = true ↔ n.length = slen ∧ n.bytes = str) := by
    intro p n hp
    rw [nodeEq, hp]
    simp only [Bool.and_eq_true, beq_iff_eq]
    constructor
    · rintro ⟨rfl, hs⟩
      exact ⟨rfl, hs⟩
    · rintro ⟨rfl, hs⟩
      exact ⟨rfl, hs⟩
  rw [hfirst] at hseg
  unfold headFind
  rw [hhd, bind_some, hfirst, bind_some]
  cases hfind : (chain rest a).find? (s.nodeEq str slen) with
  | none =>
    rw [find?_eq_none] at hfind
    right
    refine ⟨?_, ?_⟩
    · rw [hseg.search_none (fun p hp => Bool.eq_false_iff.mpr (hfind p hp)) hlen]
      rfl
    · intro p hp n hn hsame
      exact hfind p hp ((heq p n hn).mpr hsame)
  | some p =>
    obtain ⟨htest, l, r, hlr, hno⟩ := find?_eq_some_iff_append.mp hfind
    have hpc : p ∈ chain rest a := by rw [hlr]; simp
    obtain ⟨n, hn⟩ := isSome_iff_exists.mp (h.isSome_of_mem ha hpc)
    obtain ⟨hnl, hnb⟩ := (heq p n hn).mp htest
    have hshort : l.length < s.allocs + 1 := by
      rw [hlr, length_append] at hlen
      omega
    have hsearch := (hlr ▸ hseg).search_some (fun q hq => by simpa using hno q hq) htest hshort
    left
    rw [hsearch, bind_some]
    rcases eq_nil_or_concat l with rfl | ⟨l', prev, rfl⟩
    · exact ⟨p, n, s, rest, rfl, h, Relinked.refl s rest, hn, hnl, hnb⟩
    rw [concat_eq_append, getLast?_append]
    simp only [getLast?_singleton, some_or]
    rcases chain_split hlr with ⟨-, rfl, rfl⟩ | ⟨lb, x, rb, hrest, hl, rfl, -⟩
    · -- the builtin node is not moved
      have hnext : s.next (.builtin a) = some none := by
        obtain ⟨m, -, -, q, hq, hend⟩ := seg_append.mp hseg
        rw [hq, show q = none from hend]
      refine ⟨.builtin a, n, s, rest, ?_, h, Relinked.refl s rest, hn, hnl, hnb⟩
      rw [promote, hnext]
      rfl
    · rcases eq_nil_or_concat lb with rfl | ⟨lb', y, rfl⟩
      · simp at hl
      rw [concat_eq_append, concat_eq_append, map_append] at hl
      have hprev := singleton_inj.mp (append_inj' hl (by simp)).2
      have hrest' : rest a = lb' ++ y :: x :: rb := by
        rw [hrest, concat_eq_append, append_assoc]
        rfl
      obtain ⟨s', t, hs', hcore, hrel⟩ := h.promote_spec ha hrest'
      refine ⟨.block x, n, s', _, ?_, hcore, hrel, hn, hnl, hnb⟩
      rw [hprev, hs']
      rfl

/-- **A block nobody holds is unlinked and freed.** -/
theorem dropNode_spec (ha : (s.hashOf a).isSome) {b : Addr} (hb : b ∈ rest a)
    (hheld : held (.block b) = 0) :
    ∃ s' l, s.dropNode a (.block b) = some (some s') ∧
      Core s' (update rest a l) held ∧ s'.hashOf = s.hashOf ∧
      (∀ c, c ∈ l ↔ c ≠ b ∧ c ∈ rest a) ∧ s'.node (.block b) = none ∧
      ∀ p ≠ .block b, (s'.node p).map Node.content = (s.node p).map Node.content := by
  obtain ⟨lb, rb, hrest⟩ := append_of_mem hb
  obtain ⟨hd, hhd, hseg⟩ := h.seg ha
  have hnd := h.chain_nodup a
  have hlen := h.length_chain ha
  have hrestnd := h.nodup a
  rw [hrest, nodup_middle, nodup_cons] at hrestnd
  have hchain : chain rest a = lb.map .block ++ .block b :: (rb.map .block ++ [.builtin a]) := by
    rw [chain, hrest]
    simp
  have hmem : ∀ c, c ∈ lb ++ rb ↔ c ≠ b ∧ c ∈ rest a := by
    intro c
    rw [hrest]
    simp only [mem_append, mem_cons]
    constructor
    · intro hc
      refine ⟨?_, by tauto⟩
      rintro rfl
      exact hrestnd.1 (mem_append.mpr hc)
    · tauto
  obtain ⟨first, hfirst⟩ : ∃ first, hd.head = some first := by
    cases hf : hd.head with
    | none =>
      rw [hf, hchain] at hseg
      cases lb with
      | nil => exact absurd hseg.1 (by simp)
      | cons c lb => exact absurd hseg.1 (by simp)
    | some first => exact ⟨first, rfl⟩
  have hlenb : (lb.map NodeAddr.block).length < s.allocs + 1 := by
    rw [hchain, length_append] at hlen
    omega
  have hno : ∀ q ∈ lb.map NodeAddr.block, (q == NodeAddr.block b) = false := by
    intro q hq
    obtain ⟨c, hc, rfl⟩ := mem_map.mp hq
    have hcb : c ≠ b := by
      rintro rfl
      exact hrestnd.1 (mem_append_left rb hc)
    simpa using hcb
  have hpass : (NodeAddr.block b == NodeAddr.block b) = true := beq_self_eq_true _
  have hsearch := (hfirst ▸ hchain ▸ hseg).search_some hno hpass hlenb none
  have hnotc : NodeAddr.block b ≠ .builtin a := by simp
  have hfree : ∀ t : Share, (({ t with block := update t.block b none } : Share).node
      (.block b)) = none := fun t => update_self b _ _
  have hfreeNe : ∀ (t : Share) p, p ≠ .block b →
      ({ t with block := update t.block b none } : Share).node p = t.node p := by
    intro t p hp
    cases p with
    | builtin y => rfl
    | block c =>
      have hcb : c ≠ b := fun heq => hp (congrArg NodeAddr.block heq)
      exact update_of_ne hcb _ _
  rw [dropNode, headRemoveNode, hhd, bind_some, hfirst, bind_some,
    hsearch, bind_some]
  rcases eq_nil_or_concat lb with rfl | ⟨lb', y, rfl⟩
  · -- the first node: the head is linked to the one behind it
    obtain ⟨-, q, hq, hrestseg⟩ := hchain ▸ hseg
    have hfirst' : (s.setFirst a q).firstOf a = some q := firstOf_setFirst_self s a q ha
    refine ⟨{ s.setFirst a q with block := update (s.setFirst a q).block b none },
      [] ++ rb, ?_, ?_, ?_, hmem, hfree _, ?_⟩
    · simp only [map_nil, getLast?_nil, or_none, hq]
      rfl
    · refine h.shrink hrest hheld rfl ?_ rfl (hfree _) ?_ ?_ ?_ ?_ ?_
      · exact hashOf_setFirst s a q
      · intro p hp m' hm'
        rw [hfreeNe _ p hp, node_setFirst] at hm'
        exact ⟨m', hm', rfl, rfl⟩
      · intro p hp
        rw [hfreeNe _ p hp, node_setFirst]
      · intro p hp
        have hpb : p ≠ .block b := by
          rintro rfl
          exact hp (by rw [hchain]; simp)
        rw [next, hfreeNe _ p hpb, node_setFirst, next]
      · intro x hx
        exact firstOf_setFirst_of_ne s a q hx
      · intro f hf
        obtain rfl := some.inj (hfirst'.symm.trans hf)
        refine Seg.congr hrestseg ?_
        intro p hp
        have hpb : p ≠ .block b := by
          rintro rfl
          rw [hchain] at hnd
          exact (nodup_cons.mp hnd).1 hp
        rw [next, hfreeNe _ p hpb, node_setFirst, next]
    · exact hashOf_setFirst s a q
    · intro p hp
      rw [hfreeNe _ p hp, node_setFirst]
  · -- the node before is linked to the one behind
    have hchain' : chain rest a = lb'.map .block ++ .block y :: .block b ::
        (rb.map .block ++ [.builtin a]) := by
      rw [hchain]
      simp
    obtain ⟨q, hq, hshort⟩ := (hchain' ▸ hseg).unlink (hchain' ▸ hnd)
    have hyc : NodeAddr.block y ∈ chain rest a := by rw [hchain']; simp
    obtain ⟨ny, hny⟩ := isSome_iff_exists.mp (h.isSome_of_mem ha hyc)
    set s1 := s.setNode (.block y) { ny with next := q } with hs1
    have hnodes : SameNodes s s1 := sameNodes_setNode hny rfl
    have hnext1 : s1.next = update s.next (.block y) (some q) :=
      next_setNode s _ _ (isSome_iff_exists.mpr ⟨ny, hny⟩)
    have hfirst1 : s1.firstOf = s.firstOf := firstOf_setNode s _ _
    refine ⟨{ s1 with block := update s1.block b none }, lb'.concat y ++ rb, ?_, ?_, ?_,
      hmem, hfree _, ?_⟩
    · simp only [concat_eq_append, map_append, map_cons, map_nil,
        getLast?_append, getLast?_singleton, some_or, hq,
        setNext, hny]
      rfl
    · refine h.shrink hrest hheld ?_ ?_ ?_ (hfree _) ?_ ?_ ?_ ?_ ?_
      · exact buckets_setNode s _ _
      · exact hashOf_setNode s (.block y) { ny with next := q }
      · exact allocs_setNode s _ _
      · intro p hp m' hm'
        rw [hfreeNe _ p hp] at hm'
        by_cases hpy : p = .block y
        · subst hpy
          rw [node_setNode_self s _ _ (isSome_iff_exists.mpr ⟨ny, hny⟩)] at hm'
          rw [← some.inj hm']
          exact ⟨ny, hny, rfl, rfl⟩
        · rw [node_setNode_of_ne s _ _ hpy] at hm'
          exact ⟨m', hm', rfl, rfl⟩
      · intro p hp
        rw [hfreeNe _ p hp]
        exact hnodes.isSome p
      · intro p hp
        have hpb : p ≠ .block b := by
          rintro rfl
          exact hp (by rw [hchain]; simp)
        have hpy : p ≠ .block y := by
          rintro rfl
          exact hp hyc
        rw [next, hfreeNe _ p hpb]
        exact (congrFun hnext1 p).trans (update_of_ne hpy _ _)
      · intro x hx
        exact congrFun hfirst1 x
      · intro f hf
        have hf' : s.firstOf a = some f := (congrFun hfirst1 a).symm.trans hf
        rw [firstOf, hhd] at hf'
        rw [← some.inj hf']
        have hgoal : Seg s1.next hd.head
            ((lb'.concat y ++ rb).map .block ++ [.builtin a]) none := by
          rw [hnext1]
          simpa using hshort
        refine hgoal.congr ?_
        intro p hp
        have hpb : p ≠ .block b := by
          rintro rfl
          simp only [mem_append, List.mem_map, NodeAddr.block.injEq, exists_eq_right,
            mem_singleton, reduceCtorEq, or_false] at hp
          exact hrestnd.1 (mem_append.mpr hp)
        rw [next, hfreeNe _ p hpb, next]
    · exact hashOf_setNode s (.block y) { ny with next := q }
    · intro p hp
      rw [hfreeNe _ p hp]
      exact hnodes p

end Core

end Eina.Share
