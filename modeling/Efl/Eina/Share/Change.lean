/-
The ways in which a call changes a share, and that each keeps `Core`.

A counter is written (`Core.touch`), the blocks of one list are reordered
(`Core.relist`), a block comes or goes (`Core.grow`, `Core.shrink`), a head comes or
goes (`Core.addHead`, `Core.delHead`).  The calls are put together from these.
-/
import Efl.Eina.Share.Inv

namespace Eina.Share

open RedBlack Rbtree Forward Superfast List Option Function

variable {s s' : Share} {rest : Addr → List Addr} {held : NodeAddr → Nat} {a : Addr}

/-- What a write to a counter or to a link leaves of a node. -/
def Node.content (n : Node) : BitVec 32 × List Byte := (n.length, n.str)

variable {n : Node} {m : Node}

theorem Node.same_of_content (h : n.content = m.content) : n.Same m := by
  obtain ⟨hl, hs⟩ := Prod.mk.inj h
  exact ⟨hl, by rw [bytes, bytes, hl, hs]⟩

theorem Node.hash_of_content (h : n.content = m.content) : n.hash = m.hash := by
  obtain ⟨hl, hb⟩ := same_of_content h
  rw [hash, hash, hl, hb]

/-- The nodes of `s'` are those of `s`, up to links and counters. -/
def SameNodes (s s' : Share) : Prop :=
  ∀ p, (s'.node p).map Node.content = (s.node p).map Node.content

variable {p : NodeAddr} {n' : Node}

theorem SameNodes.some (h : SameNodes s s') (hp : s'.node p = some n') :
    ∃ n, s.node p = some n ∧ n'.content = n.content := by
  have hc := h p
  rw [hp] at hc
  obtain ⟨n, hn, heq⟩ := map_eq_some_iff.mp hc.symm
  exact ⟨n, hn, heq.symm⟩

theorem SameNodes.isSome (h : SameNodes s s') (p : NodeAddr) :
    (s'.node p).isSome = (s.node p).isSome := by
  have hc := congrArg Option.isSome (h p)
  simpa using hc

theorem SameNodes.trans {s'' : Share} (h : SameNodes s s') (h' : SameNodes s' s'') :
    SameNodes s s'' :=
  fun p => (h' p).trans (h p)

theorem sameNodes_setNode (hp : s.node p = some n) (hc : n'.content = n.content) :
    SameNodes s (s.setNode p n') := by
  intro q
  by_cases hq : q = p
  · subst hq
    rw [node_setNode_self s q n' (isSome_iff_exists.mpr ⟨n, hp⟩), hp, map_some,
      map_some, hc]
  · rw [node_setNode_of_ne s p n' hq]

theorem sameNodes_setFirst (f : Option NodeAddr) : SameNodes s (s.setFirst a f) := by
  intro q
  rw [node_setFirst]

theorem Core.of_sameNodes {rest' : Addr → List Addr} {held' : NodeAddr → Nat}
    (h : Core s rest held) (hbuckets : s'.buckets = s.buckets) (hhash : s'.hashOf = s.hashOf)
    (hallocs : s'.allocs = s.allocs) (hnodes : SameNodes s s')
    (hperm : ∀ x, (rest' x).Perm (rest x))
    (hlist : ∀ x f, s'.firstOf x = some f → Seg s'.next f (chain rest' x) none)
    (hcount : ∀ p n, s'.node p = some n → n.references.toNat = held' p)
    (hheld : ∀ p, 0 < held' p → (s.node p).isSome) : Core s' rest' held' := by
  have hchain : ∀ x p, p ∈ chain rest' x ↔ p ∈ chain rest x := by
    intro x p
    simp only [mem_chain, (hperm x).mem_iff]
  refine ⟨?_, ?_, hlist, ?_, ?_, ?_, ?_, ?_, ?_, ?_, ?_, hcount, ?_⟩
  · intro i
    rw [hbuckets]
    exact (h.tree i).congr (fun x _ => headKey_congr (congrFun hhash x))
  · intro i x
    rw [hbuckets, hhash]
    exact h.mem i x
  · intro x hx
    rw [hhash] at hx
    have hp := hperm x
    rw [h.gone x hx] at hp
    exact hp.eq_nil
  · intro x
    exact (hperm x).nodup_iff.mpr (h.nodup x)
  · intro x y b hx hy
    exact h.apart x y b ((hperm x).mem_iff.mp hx) ((hperm y).mem_iff.mp hy)
  · intro b
    rw [hnodes.isSome, h.block]
    exact exists_congr fun x => (hperm x).mem_iff.symm
  · intro x hx
    rw [hhash] at hx
    rw [hallocs, (hperm x).length_eq]
    exact h.fuel x hx
  · intro p n' hp
    obtain ⟨n, hn, hc⟩ := hnodes.some hp
    obtain ⟨hl, hs⟩ := Prod.mk.inj hc
    rw [hl, hs]
    exact h.room p n hn
  · intro x y hx p hp n' hn'
    obtain ⟨n, hn, hc⟩ := hnodes.some hn'
    rw [hhash] at hx
    rw [Node.hash_of_content hc]
    exact h.hash x y hx p ((hchain x p).mp hp) n hn
  · intro x p hp q hq n' m' hn' hm' hsame
    obtain ⟨n, hn, hnc⟩ := hnodes.some hn'
    obtain ⟨m, hm, hmc⟩ := hnodes.some hm'
    obtain ⟨hnl, hnb⟩ := Node.same_of_content hnc
    obtain ⟨hml, hmb⟩ := Node.same_of_content hmc
    refine h.distinct x p ((hchain x p).mp hp) q ((hchain x q).mp hq) n m hn hm ⟨?_, ?_⟩
    · rw [← hnl, ← hml, hsame.1]
    · rw [← hnb, ← hmb, hsame.2]
  · intro p hp
    rw [hnodes.isSome]
    exact hheld p hp

/-! ### A counter -/

theorem Core.touch (h : Core s rest held) (hp : s.node p = some n) (r : BitVec 32) :
    Core (s.setNode p { n with references := r }) rest
      (update held p r.toNat) := by
  have hsome : (s.node p).isSome := isSome_iff_exists.mpr ⟨n, hp⟩
  have hnext : (s.setNode p { n with references := r }).next = s.next := by
    rw [next_setNode s p _ hsome]
    refine update_eq_self_iff.mpr ?_
    rw [next, hp]
    rfl
  refine h.of_sameNodes (buckets_setNode s p _) (hashOf_setNode s p _) (allocs_setNode s p _)
    (sameNodes_setNode hp rfl) (fun _ => List.Perm.refl _) ?_ ?_ ?_
  · intro x f hf
    rw [firstOf_setNode] at hf
    rw [hnext]
    exact h.list x f hf
  · intro q m hq
    by_cases hqp : q = p
    · subst hqp
      rw [node_setNode_self s q _ hsome] at hq
      rw [update_self, ← some.inj hq]
    · rw [node_setNode_of_ne s p _ hqp] at hq
      rw [update_of_ne hqp]
      exact h.count q m hq
  · intro q hq
    by_cases hqp : q = p
    · subst hqp
      exact hsome
    · rw [update_of_ne hqp] at hq
      exact h.held q hq

/-! ### Links -/

theorem Core.relist (h : Core s rest held) (hbuckets : s'.buckets = s.buckets)
    (hhash : s'.hashOf = s.hashOf) (hallocs : s'.allocs = s.allocs) (hnodes : SameNodes s s')
    (hrefs : ∀ p n', s'.node p = some n' → ∃ n, s.node p = some n ∧ n'.references = n.references)
    (hother : ∀ p ∉ chain rest a, s'.next p = s.next p)
    (hfirst : ∀ x ≠ a, s'.firstOf x = s.firstOf x) {l : List Addr} (hperm : l.Perm (rest a))
    (hlist : ∀ f, s'.firstOf a = some f → Seg s'.next f (l.map .block ++ [.builtin a]) none) :
    Core s' (update rest a l) held := by
  refine h.of_sameNodes hbuckets hhash hallocs hnodes ?_ ?_ ?_ h.held
  · intro x
    by_cases hx : x = a
    · subst hx
      rw [update_self]
      exact hperm
    · rw [update_of_ne hx]
  · intro x f hf
    by_cases hx : x = a
    · subst hx
      rw [chain, update_self]
      exact hlist f hf
    · rw [chain_congr (update_of_ne hx _ _)]
      rw [hfirst x hx] at hf
      refine (h.list x f hf).congr ?_
      intro p hp
      exact hother p (fun hpa => hx (h.same_head hp hpa))
  · intro p n' hp
    obtain ⟨n, hn, heq⟩ := hrefs p n' hp
    rw [heq]
    exact h.count p n hn

/-! ### Blocks -/

variable {x : BitVec 32} {b : Addr}

/-- A block becomes the first node of a head. -/
theorem Core.grow (h : Core s rest held) (ha : s.hashOf a = some x) {f : Option NodeAddr}
    (hf : s.firstOf a = some f) (hb : s.node (.block b) = none) (hnext : n.next = f)
    (hroom : n.length.toNat ≤ n.str.length)
    (hhash : bucketIdx n.hash = bucketIdx x ∧ nodeHash n.hash = nodeHash x)
    (hnew : ∀ p ∈ chain rest a, ∀ m, s.node p = some m → ¬ m.Same n) :
    Core ({ s.setNode (.block b) n with allocs := s.allocs + 1 }.setFirst a (some (.block b)))
      (update rest a (b :: rest a))
      (update held (.block b) n.references.toNat) := by
  set s' := { s.setNode (.block b) n with allocs := s.allocs + 1 }.setFirst a (some (.block b))
    with hs'
  have hbuckets : s'.buckets = s.buckets := rfl
  have hhashOf : s'.hashOf = s.hashOf := by
    rw [hashOf_setFirst]
    exact hashOf_setNode s (.block b) n
  have hthere : (hashOf { s.setNode (.block b) n with allocs := s.allocs + 1 } a).isSome := by
    have heq : hashOf { s.setNode (.block b) n with allocs := s.allocs + 1 } a = s.hashOf a :=
      congrFun (hashOf_setNode s (.block b) n) a
    rw [heq, ha]
    rfl
  have hnode : ∀ p, s'.node p = if p = .block b then some n else s.node p := by
    intro p
    rw [node_setFirst]
    by_cases hp : p = .block b
    · subst hp
      rw [if_pos rfl]
      exact node_setNode_block s n b
    · rw [if_neg hp]
      exact node_setNode_of_ne s (.block b) n hp
  have hself : s'.node (.block b) = some n := by rw [hnode, if_pos rfl]
  have hother : ∀ p ≠ .block b, s'.node p = s.node p := by
    intro p hp
    rw [hnode, if_neg hp]
  have hstray : ∀ y, b ∉ rest y := by
    intro y hy
    have hsome := (h.block b).mpr ⟨y, hy⟩
    rw [hb] at hsome
    simp at hsome
  have hstray' : ∀ y, NodeAddr.block b ∉ chain rest y := by
    intro y hy
    simp [hstray y] at hy
  have hseg : ∀ y g, s.firstOf y = some g → Seg s'.next g (chain rest y) none := by
    intro y g hg
    refine (h.list y g hg).congr ?_
    intro p hp
    have hpb : p ≠ .block b := fun heq => hstray' y (heq ▸ hp)
    rw [next, hother p hpb, next]
  have hrest : ∀ y ≠ a, update rest a (b :: rest a) y = rest y :=
    fun y hy => update_of_ne hy _ _
  have hchain : ∀ y p, p ∈ chain (update rest a (b :: rest a)) y ↔
      p ∈ chain rest y ∨ (y = a ∧ p = .block b) := by
    intro y p
    by_cases hy : y = a
    · subst hy
      simp only [mem_chain, update_self, mem_cons]
      constructor
      · rintro (⟨b', rfl | hb', rfl⟩ | rfl)
        · exact .inr ⟨trivial, rfl⟩
        · exact .inl (.inl ⟨b', hb', rfl⟩)
        · exact .inl (.inr rfl)
      · rintro ((⟨b', hb', rfl⟩ | rfl) | ⟨-, rfl⟩)
        · exact .inl ⟨b', .inr hb', rfl⟩
        · exact .inr rfl
        · exact .inl ⟨b, .inl rfl, rfl⟩
    · simp [hy]
  refine ⟨?_, ?_, ?_, ?_, ?_, ?_, ?_, ?_, ?_, ?_, ?_, ?_, ?_⟩
  · intro i
    exact (h.tree i).congr (fun y _ => headKey_congr (congrFun hhashOf y))
  · intro i y
    rw [hhashOf]
    exact h.mem i y
  · intro y g hg
    by_cases hy : y = a
    · subst hy
      rw [firstOf_setFirst_self _ _ _ hthere] at hg
      obtain rfl := some.inj hg
      rw [chain, update_self]
      refine ⟨rfl, f, ?_, hseg y f hf⟩
      rw [next, hself, map_some, hnext]
    · rw [chain_congr (hrest y hy)]
      rw [firstOf_setFirst_of_ne _ _ _ hy] at hg
      exact hseg y g (by rw [← firstOf_setNode s (.block b) n]; exact hg)
  · intro y hy
    rw [hhashOf] at hy
    have hne : y ≠ a := by
      rintro rfl
      rw [ha] at hy
      simp at hy
    rw [hrest y hne]
    exact h.gone y hy
  · intro y
    by_cases hy : y = a
    · subst hy
      rw [update_self]
      exact nodup_cons.mpr ⟨hstray y, h.nodup y⟩
    · rw [hrest y hy]
      exact h.nodup y
  · intro y z c hy hz
    have hmem : ∀ w, c ∈ update rest a (b :: rest a) w → c ∈ rest w ∨ (w = a ∧ c = b) := by
      intro w hw
      have := (hchain w (.block c)).mp (by simp [hw])
      simpa using this
    rcases hmem y hy with hy' | ⟨hya, rfl⟩
    · rcases hmem z hz with hz' | ⟨-, rfl⟩
      · exact h.apart y z c hy' hz'
      · exact absurd hy' (hstray y)
    · rcases hmem z hz with hz' | ⟨hza, -⟩
      · exact absurd hz' (hstray z)
      · rw [hya, hza]
  · intro c
    rw [hnode]
    by_cases hc : c = b
    · subst hc
      rw [if_pos rfl]
      exact iff_of_true rfl ⟨a, by rw [update_self]; exact mem_cons_self⟩
    · rw [if_neg (fun heq => hc (NodeAddr.block.inj heq)), h.block]
      refine exists_congr fun y => ?_
      by_cases hy : y = a
      · subst hy
        simp [hc]
      · rw [hrest y hy]
  · intro y hy
    rw [hhashOf] at hy
    have hlt := h.fuel y hy
    show _ < s.allocs + 1
    by_cases hya : y = a
    · subst hya
      rw [update_self, length_cons]
      omega
    · rw [hrest y hya]
      omega
  · intro p m hp
    by_cases hpb : p = .block b
    · subst hpb
      rw [hself] at hp
      rw [← some.inj hp]
      exact hroom
    · rw [hother p hpb] at hp
      exact h.room p m hp
  · intro y z hy p hp m hm
    rw [hhashOf] at hy
    rcases (hchain y p).mp hp with hp | ⟨rfl, rfl⟩
    · rw [hother p (fun heq => hstray' y (heq ▸ hp))] at hm
      exact h.hash y z hy p hp m hm
    rw [hself] at hm
    rw [ha] at hy
    rw [← some.inj hm, ← some.inj hy]
    exact hhash
  · intro y p hp q hq m m' hm hm' hsame
    rcases (hchain y p).mp hp with hp' | ⟨hya, rfl⟩
    · rw [hother p (fun heq => hstray' y (heq ▸ hp'))] at hm
      rcases (hchain y q).mp hq with hq' | ⟨hya, rfl⟩
      · rw [hother q (fun heq => hstray' y (heq ▸ hq'))] at hm'
        exact h.distinct y p hp' q hq' m m' hm hm' hsame
      rw [hself] at hm'
      obtain rfl := some.inj hm'
      exact absurd hsame (hnew p (hya ▸ hp') m hm)
    · rw [hself] at hm
      obtain rfl := some.inj hm
      rcases (hchain y q).mp hq with hq' | ⟨-, rfl⟩
      · rw [hother q (fun heq => hstray' y (heq ▸ hq'))] at hm'
        exact absurd ⟨hsame.1.symm, hsame.2.symm⟩ (hnew q (hya ▸ hq') m' hm')
      · rfl
  · intro p m hp
    by_cases hpb : p = .block b
    · subst hpb
      rw [hself] at hp
      rw [update_self, ← some.inj hp]
    · rw [hother p hpb] at hp
      rw [update_of_ne hpb]
      exact h.count p m hp
  · intro p hp
    by_cases hpb : p = .block b
    · subst hpb
      rw [hself]
      rfl
    · rw [update_of_ne hpb] at hp
      rw [hother p hpb]
      exact h.held p hp

/-- A block leaves the list of its head. -/
theorem Core.shrink (h : Core s rest held) {l r : List Addr}
    (hrest : rest a = l ++ b :: r) (hheld : held (.block b) = 0)
    (hbuckets : s'.buckets = s.buckets) (hhash : s'.hashOf = s.hashOf)
    (hallocs : s'.allocs = s.allocs) (hfree : s'.node (.block b) = none)
    (hnode : ∀ p ≠ .block b, ∀ m', s'.node p = some m' → ∃ m, s.node p = some m ∧
      m'.content = m.content ∧ m'.references = m.references)
    (hkeep : ∀ p ≠ .block b, (s'.node p).isSome = (s.node p).isSome)
    (hother : ∀ p ∉ chain rest a, s'.next p = s.next p)
    (hfirst : ∀ x ≠ a, s'.firstOf x = s.firstOf x)
    (hlist : ∀ f, s'.firstOf a = some f →
      Seg s'.next f ((l ++ r).map .block ++ [.builtin a]) none) :
    Core s' (update rest a (l ++ r)) held := by
  have hsub : ∀ y c, c ∈ update rest a (l ++ r) y → c ∈ rest y := by
    intro y c hc
    by_cases hy : y = a
    · subst hy
      rw [update_self] at hc
      rw [hrest]
      simp only [mem_append] at hc ⊢
      tauto
    · rw [update_of_ne hy] at hc
      exact hc
  have hchain : ∀ y p, p ∈ chain (update rest a (l ++ r)) y → p ∈ chain rest y := by
    intro y p hp
    rcases mem_chain.mp hp with ⟨c, hc, rfl⟩ | rfl
    · exact mem_chain.mpr (.inl ⟨c, hsub y c hc, rfl⟩)
    · exact mem_chain.mpr (.inr rfl)
  have hsome : ∀ p m', s'.node p = some m' → ∃ m, s.node p = some m ∧
      m'.content = m.content ∧ m'.references = m.references := by
    intro p m' hp
    by_cases hpb : p = .block b
    · subst hpb
      rw [hfree] at hp
      simp at hp
    · exact hnode p hpb m' hp
  have hnd := h.nodup a
  rw [hrest, nodup_middle, nodup_cons] at hnd
  refine ⟨?_, ?_, ?_, ?_, ?_, ?_, ?_, ?_, ?_, ?_, ?_, ?_, ?_⟩
  · intro i
    rw [hbuckets]
    exact (h.tree i).congr (fun y _ => headKey_congr (congrFun hhash y))
  · intro i y
    rw [hbuckets, hhash]
    exact h.mem i y
  · intro y f hf
    by_cases hy : y = a
    · subst hy
      rw [chain, update_self]
      exact hlist f hf
    · rw [chain_congr (update_of_ne hy _ _)]
      rw [hfirst y hy] at hf
      refine (h.list y f hf).congr ?_
      intro p hp
      exact hother p (fun hpa => hy (h.same_head hp hpa))
  · intro y hy
    rw [hhash] at hy
    refine eq_nil_iff_forall_not_mem.mpr ?_
    intro c hc
    have hmem := hsub y c hc
    rw [h.gone y hy] at hmem
    simp at hmem
  · intro y
    by_cases hy : y = a
    · subst hy
      rw [update_self]
      exact hnd.2
    · rw [update_of_ne hy]
      exact h.nodup y
  · intro y z c hy hz
    exact h.apart y z c (hsub y c hy) (hsub z c hz)
  · intro c
    by_cases hc : c = b
    · subst hc
      rw [hfree]
      refine iff_of_false (by simp) ?_
      rintro ⟨y, hy⟩
      have hya := h.apart y a c (hsub y c hy) (by rw [hrest]; simp)
      subst hya
      rw [update_self] at hy
      exact hnd.1 hy
    · rw [hkeep _ (fun heq => hc (NodeAddr.block.inj heq)), h.block]
      refine exists_congr fun y => ?_
      by_cases hy : y = a
      · subst hy
        rw [hrest]
        simp [hc]
      · rw [update_of_ne hy]
  · intro y hy
    rw [hhash] at hy
    have hlt := h.fuel y hy
    rw [hallocs]
    by_cases hya : y = a
    · subst hya
      rw [hrest, length_append, length_cons] at hlt
      rw [update_self, length_append]
      omega
    · rw [update_of_ne hya]
      exact hlt
  · intro p m' hp
    obtain ⟨m, hm, hc, -⟩ := hsome p m' hp
    obtain ⟨hl, hs⟩ := Prod.mk.inj hc
    rw [hl, hs]
    exact h.room p m hm
  · intro y z hy p hp m' hm'
    obtain ⟨m, hm, hc, -⟩ := hsome p m' hm'
    rw [hhash] at hy
    rw [Node.hash_of_content hc]
    exact h.hash y z hy p (hchain y p hp) m hm
  · intro y p hp q hq n' m' hn' hm' hsame
    obtain ⟨n, hn, hnc, -⟩ := hsome p n' hn'
    obtain ⟨m, hm, hmc, -⟩ := hsome q m' hm'
    obtain ⟨hnl, hnb⟩ := Node.same_of_content hnc
    obtain ⟨hml, hmb⟩ := Node.same_of_content hmc
    refine h.distinct y p (hchain y p hp) q (hchain y q hq) n m hn hm ⟨?_, ?_⟩
    · rw [← hnl, ← hml, hsame.1]
    · rw [← hnb, ← hmb, hsame.2]
  · intro p m' hp
    obtain ⟨m, hm, -, hr⟩ := hsome p m' hp
    rw [hr]
    exact h.count p m hm
  · intro p hp
    have hpb : p ≠ .block b := by
      rintro rfl
      omega
    rw [hkeep p hpb]
    exact h.held p hp

/-! ### Heads -/

theorem same_of_head (s' : Share) (hhead : ∀ y ≠ a, s'.head y = s.head y)
    (hblock : s'.block = s.block) : (∀ y ≠ a, s'.hashOf y = s.hashOf y) ∧
      ∀ p ≠ .builtin a, s'.node p = s.node p := by
  refine ⟨fun y hy => by rw [hashOf, hhead y hy, hashOf], fun p hp => ?_⟩
  cases p with
  | block b => rw [node, hblock, node]
  | builtin y =>
    have hy : y ≠ a := fun heq => hp (heq ▸ rfl)
    rw [node, hhead y hy, node]

/-- A head of a new hash, with its string. -/
theorem Core.addHead (h : Core s rest held) (ha : s.head a = none)
    (hnew : ∀ y z, s.hashOf y = some z → ¬ (bucketIdx z = bucketIdx x ∧ nodeHash z = nodeHash x))
    (hnext : n.next = none) (hroom : n.length.toNat ≤ n.str.length) (hhash : n.hash = x) :
    Core { s with
        buckets := update s.buckets (bucketIdx x) (inlineInsert
          (byKey (headKey (update s.head a (some ⟨x, some (.builtin a), n⟩))))
          (s.buckets (bucketIdx x)) a)
        head := update s.head a (some ⟨x, some (.builtin a), n⟩)
        allocs := s.allocs + 1 }
      rest (update held (.builtin a) n.references.toNat) := by
  set head' := update s.head a (some ⟨x, some (.builtin a), n⟩) with hhead'
  set s' : Share := { s with
        buckets := update s.buckets (bucketIdx x) (inlineInsert (byKey (headKey head'))
          (s.buckets (bucketIdx x)) a)
        head := head'
        allocs := s.allocs + 1 } with hs'
  have hnone : s.hashOf a = none := by rw [hashOf, ha]; rfl
  have hself : s'.head a = some ⟨x, some (.builtin a), n⟩ := update_self a _ _
  have hhashSelf : s'.hashOf a = some x := by rw [hashOf, hself]; rfl
  have hnodeSelf : s'.node (.builtin a) = some n := by rw [node, hself]; rfl
  have hhead : ∀ y ≠ a, s'.head y = s.head y := fun y hy => update_of_ne hy _ _
  obtain ⟨hhashOf, hnode⟩ := same_of_head s' hhead rfl
  have hresta : rest a = [] := h.gone a hnone
  have hold : ∀ {y}, (s.hashOf y).isSome → y ≠ a := by
    rintro y hy rfl
    rw [hnone] at hy
    simp at hy
  have hchaina : ∀ {y p}, y ≠ a → p ∈ chain rest y → p ≠ .builtin a := by
    rintro y p hy hp rfl
    rcases mem_chain.mp hp with ⟨b, -, heq⟩ | heq
    · simp at heq
    · exact hy (NodeAddr.builtin.inj heq).symm
  have hcases : ∀ {y z}, s'.hashOf y = some z →
      (y = a ∧ z = x) ∨ (y ≠ a ∧ s.hashOf y = some z) := by
    intro y z hy
    by_cases hya : y = a
    · subst hya
      rw [hhashSelf] at hy
      exact .inl ⟨rfl, (some.inj hy).symm⟩
    · rw [hhashOf y hya] at hy
      exact .inr ⟨hya, hy⟩
  have hkey : ∀ i, ∀ y ∈ (s.buckets i).toList, headKey head' y = headKey s.head y := by
    intro i y hy
    obtain ⟨z, hz, -⟩ := (h.mem i y).mp hy
    refine headKey_congr ?_
    exact hhashOf y (hold (isSome_iff_exists.mpr ⟨z, hz⟩))
  have hkeya : headKey head' a = (nodeHash x).toNat := headKey_of_hashOf hhashSelf
  refine ⟨?_, ?_, ?_, ?_, h.nodup, h.apart, ?_, ?_, ?_, ?_, ?_, ?_, ?_⟩
  · intro i
    have hi := (h.tree i).congr (hkey i)
    by_cases hix : i = bucketIdx x
    · subst hix
      show Keyed _ (update s.buckets _ _ _)
      rw [update_self]
      refine hi.insert ?_
      intro y hy heq
      obtain ⟨z, hz, hzb⟩ := (h.mem _ y).mp hy
      rw [hkey _ y hy, headKey_of_hashOf hz] at heq
      exact hnew y z hz ⟨hzb, BitVec.eq_of_toNat_eq (by omega)⟩
    · show Keyed _ (update s.buckets _ _ _)
      rw [update_of_ne hix]
      exact hi
  · intro i y
    have hbucket : y ∈ (s'.buckets i).toList ↔
        y ∈ (s.buckets i).toList ∨ (y = a ∧ i = bucketIdx x) := by
      by_cases hix : i = bucketIdx x
      · subst hix
        show y ∈ (update s.buckets _ _ _).toList ↔ _
        rw [update_self, mem_inlineInsert]
        tauto
      · show y ∈ (update s.buckets _ _ _).toList ↔ _
        rw [update_of_ne hix]
        tauto
    rw [hbucket, h.mem]
    constructor
    · rintro (⟨z, hz, hzb⟩ | ⟨rfl, rfl⟩)
      · exact ⟨z, by rw [hhashOf y (hold (isSome_iff_exists.mpr ⟨z, hz⟩)), hz], hzb⟩
      · exact ⟨x, hhashSelf, rfl⟩
    · rintro ⟨z, hz, hzb⟩
      rcases hcases hz with ⟨rfl, rfl⟩ | ⟨-, hz⟩
      · exact .inr ⟨rfl, hzb.symm⟩
      · exact .inl ⟨z, hz, hzb⟩
  · intro y f hf
    by_cases hy : y = a
    · subst hy
      rw [firstOf, hself] at hf
      rw [chain, hresta, ← some.inj hf]
      refine ⟨rfl, none, ?_, rfl⟩
      rw [next, hnodeSelf, map_some, hnext]
    · rw [firstOf, hhead y hy] at hf
      refine (h.list y f hf).congr ?_
      intro p hp
      rw [next, hnode p (hchaina hy hp), next]
  · intro y hy
    by_cases hya : y = a
    · subst hya
      exact hresta
    · rw [hhashOf y hya] at hy
      exact h.gone y hy
  · intro b
    rw [hnode _ (by simp), h.block]
  · intro y hy
    by_cases hya : y = a
    · subst hya
      rw [hresta]
      exact Nat.succ_pos _
    · rw [hhashOf y hya] at hy
      exact Nat.lt_succ_of_lt (h.fuel y hy)
  · intro p m hp
    by_cases hpa : p = .builtin a
    · subst hpa
      rw [hnodeSelf] at hp
      rw [← some.inj hp]
      exact hroom
    · rw [hnode p hpa] at hp
      exact h.room p m hp
  · intro y z hy p hp m hm
    rcases hcases hy with ⟨rfl, rfl⟩ | ⟨hya, hy⟩
    · rw [chain, hresta, map_nil, nil_append, mem_singleton] at hp
      rw [hp, hnodeSelf] at hm
      rw [← some.inj hm, hhash]
      exact ⟨rfl, rfl⟩
    · rw [hnode p (hchaina hya hp)] at hm
      exact h.hash y z hy p hp m hm
  · intro y p hp q hq m m' hm hm' hsame
    by_cases hya : y = a
    · subst hya
      rw [chain, hresta, map_nil, nil_append, mem_singleton] at hp hq
      rw [hp, hq]
    · rw [hnode p (hchaina hya hp)] at hm
      rw [hnode q (hchaina hya hq)] at hm'
      exact h.distinct y p hp q hq m m' hm hm' hsame
  · intro p m hp
    by_cases hpa : p = .builtin a
    · subst hpa
      rw [hnodeSelf] at hp
      rw [update_self, ← some.inj hp]
    · rw [hnode p hpa] at hp
      rw [update_of_ne hpa]
      exact h.count p m hp
  · intro p hp
    by_cases hpa : p = .builtin a
    · subst hpa
      rw [hnodeSelf]
      rfl
    · rw [update_of_ne hpa] at hp
      rw [hnode p hpa]
      exact h.held p hp

/-- A head that lists no string leaves its bucket. -/
theorem Core.delHead (h : Core s rest held) (ha : s.hashOf a = some x) (hrest : rest a = [])
    (hheld : held (.builtin a) = 0) :
    Core { s with
        buckets := update s.buckets (bucketIdx x)
          (inlineRemove (byKey (headKey s.head)) (s.buckets (bucketIdx x)) a)
        head := update s.head a none } rest held := by
  set s' : Share := { s with
        buckets := update s.buckets (bucketIdx x)
          (inlineRemove (byKey (headKey s.head)) (s.buckets (bucketIdx x)) a)
        head := update s.head a none } with hs'
  have hself : s'.head a = none := update_self a _ _
  have hhead : ∀ y ≠ a, s'.head y = s.head y := fun y hy => update_of_ne hy _ _
  obtain ⟨hhashOf, hnode⟩ := same_of_head s' hhead rfl
  have hleft : ∀ {y z}, s'.hashOf y = some z → y ≠ a ∧ s.hashOf y = some z := by
    intro y z hy
    have hya : y ≠ a := by
      rintro rfl
      rw [hashOf, hself] at hy
      simp at hy
    rw [hhashOf y hya] at hy
    exact ⟨hya, hy⟩
  have hsome : ∀ {p m}, s'.node p = some m → p ≠ .builtin a ∧ s.node p = some m := by
    intro p m hp
    have hpa : p ≠ .builtin a := by
      rintro rfl
      rw [node, hself] at hp
      simp at hp
    rw [hnode p hpa] at hp
    exact ⟨hpa, hp⟩
  have hkey : ∀ y ≠ a, headKey s'.head y = headKey s.head y :=
    fun y hy => headKey_congr (hhashOf y hy)
  have hbucket : ∀ i y, y ∈ (s'.buckets i).toList ↔ y ≠ a ∧ y ∈ (s.buckets i).toList := by
    intro i y
    by_cases hix : i = bucketIdx x
    · subst hix
      show y ∈ (update s.buckets _ _ _).toList ↔ _
      rw [update_self]
      exact (h.tree _).mem_remove a y
    show y ∈ (update s.buckets _ _ _).toList ↔ _
    rw [update_of_ne hix]
    constructor
    · intro hy
      refine ⟨?_, hy⟩
      rintro rfl
      obtain ⟨z, hz, hzb⟩ := (h.mem i y).mp hy
      rw [ha] at hz
      rw [← some.inj hz] at hzb
      exact hix hzb.symm
    · exact fun hy => hy.2
  refine ⟨?_, ?_, ?_, ?_, h.nodup, h.apart, ?_, ?_, ?_, ?_, ?_, ?_, ?_⟩
  · intro i
    by_cases hix : i = bucketIdx x
    · subst hix
      have hk := (h.tree (bucketIdx x)).remove a
      have hupd : s'.buckets (bucketIdx x) =
          inlineRemove (byKey (headKey s.head)) (s.buckets (bucketIdx x)) a :=
        update_self _ _ _
      rw [hupd]
      refine hk.congr ?_
      intro y hy
      exact hkey y (((h.tree _).mem_remove a y).mp hy).1
    · have hupd : s'.buckets i = s.buckets i := update_of_ne hix _ _
      rw [hupd]
      refine (h.tree i).congr ?_
      intro y hy
      rw [← hupd] at hy
      exact hkey y ((hbucket i y).mp hy).1
  · intro i y
    rw [hbucket, h.mem]
    constructor
    · rintro ⟨hya, z, hz, hzb⟩
      exact ⟨z, by rw [hhashOf y hya, hz], hzb⟩
    · rintro ⟨z, hz, hzb⟩
      exact ⟨(hleft hz).1, z, (hleft hz).2, hzb⟩
  · intro y f hf
    have hya : y ≠ a := by
      rintro rfl
      rw [firstOf, hself] at hf
      simp at hf
    rw [firstOf, hhead y hya] at hf
    refine (h.list y f hf).congr ?_
    intro p hp
    have hpa : p ≠ .builtin a := by
      rintro rfl
      exact hya (h.same_head hp (by simp))
    rw [next, hnode p hpa, next]
  · intro y hy
    by_cases hya : y = a
    · rw [hya]
      exact hrest
    · rw [hhashOf y hya] at hy
      exact h.gone y hy
  · intro b
    rw [hnode _ (by simp), h.block]
  · intro y hy
    obtain ⟨z, hz⟩ := isSome_iff_exists.mp hy
    exact h.fuel y (isSome_iff_exists.mpr ⟨z, (hleft hz).2⟩)
  · intro p m hp
    exact h.room p m (hsome hp).2
  · intro y z hy p hp m hm
    exact h.hash y z (hleft hy).2 p hp m (hsome hm).2
  · intro y p hp q hq m m' hm hm' hsame
    exact h.distinct y p hp q hq m m' (hsome hm).2 (hsome hm').2 hsame
  · intro p m hp
    exact h.count p m (hsome hp).2
  · intro p hp
    have hpa : p ≠ .builtin a := by
      rintro rfl
      omega
    rw [hnode p hpa]
    exact h.held p hp

end Eina.Share
