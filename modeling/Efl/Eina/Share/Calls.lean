/-
What the three calls do.

An addition finds the node of its string or makes one, and in both cases the program
holds the node once more.  A release takes one hold back, and with the last one the
node goes: a block is unlinked and freed, the builtin node stays as long as its list
has others, and a head whose list has no held node left is unlinked and freed.

Lengths are `int`s on the way to `malloc` and `memcpy`, so a string and its terminator
are taken to be shorter than 2 ^ 31 bytes.  A counter has 32 bits; what a call says
about it is said for fewer than 2 ^ 32 holds.
-/
import Efl.Eina.Share.Walk

namespace Eina.Share

open RedBlack Rbtree Forward Superfast Option Function BitVec

variable {s s' : Share} {rest rest' : Addr → List Addr} {held : NodeAddr → Nat} {a : Addr}

section Holds

variable {P Q : Type} [DecidableEq P] [DecidableEq Q] {f : Q → P} {p q : P}

/-- The program holds `p` once more. -/
def acquire (held : P → Nat) (p : P) : P → Nat := update held p (held p + 1)

/-- The program gives one hold of `p` back. -/
def giveBack (held : P → Nat) (p : P) : P → Nat := update held p (held p - 1)

theorem acquire_self (held : P → Nat) (p : P) : acquire held p p = held p + 1 :=
  update_self _ _ _

theorem acquire_of_ne (held : P → Nat) (h : q ≠ p) : acquire held p q = held q :=
  update_of_ne h _ _

theorem giveBack_self (held : P → Nat) (p : P) : giveBack held p p = held p - 1 :=
  update_self _ _ _

theorem giveBack_of_ne (held : P → Nat) (h : q ≠ p) : giveBack held p q = held q :=
  update_of_ne h _ _

theorem le_acquire (held : P → Nat) (p q : P) : held q ≤ acquire held p q := by
  by_cases hq : q = p
  · subst hq
    rw [acquire_self]
    exact Nat.le_succ _
  · rw [acquire_of_ne held hq]

theorem acquire_pos (held : P → Nat) (p : P) : 0 < acquire held p p := by
  rw [acquire_self]
  exact Nat.succ_pos _

theorem acquire_comp (hf : Injective f) (held : P → Nat) (q : Q) :
    (fun x => acquire held (f q) (f x)) = acquire (fun x => held (f x)) q := by
  funext x
  by_cases hx : x = q
  · subst hx
    rw [acquire_self, acquire_self]
  · rw [acquire_of_ne _ hx, acquire_of_ne held (fun heq => hx (hf heq))]

theorem giveBack_comp (hf : Injective f) (held : P → Nat) (q : Q) :
    (fun x => giveBack held (f q) (f x)) = giveBack (fun x => held (f x)) q := by
  funext x
  by_cases hx : x = q
  · subst hx
    rw [giveBack_self, giveBack_self]
  · rw [giveBack_of_ne _ hx, giveBack_of_ne held (fun heq => hx (hf heq))]

end Holds

theorem Live.acquire (hl : Live s rest held) (p : NodeAddr) : Live s rest (acquire held p) := by
  refine ⟨?_, ?_⟩
  · intro b hb
    exact (hl.block b hb).trans_le (le_acquire held p _)
  · intro x hx
    obtain ⟨q, hq, hpos⟩ := hl.head x hx
    exact ⟨q, hq, hpos.trans_le (le_acquire held p q)⟩

theorem live_congr (hl : Live s rest held) (hnode : ∀ p, (s'.node p).isSome = (s.node p).isSome)
    (hhash : s'.hashOf = s.hashOf) : Live s' rest held := by
  refine ⟨?_, ?_⟩
  · intro b hb
    rw [hnode] at hb
    exact hl.block b hb
  · intro x hx
    rw [hhash] at hx
    exact hl.head x hx

/-! ### One hold more -/

/-- What a call that takes a hold of `p` leaves behind. -/
structure Acquired (s s' : Share) (held : NodeAddr → Nat) (p : NodeAddr) : Prop where
  inv : held p + 1 < 2 ^ 32 → ∃ rest', Core s' rest' (acquire held p) ∧
    Live s' rest' (acquire held p)
  there : (s'.node p).isSome

theorem toNat_add_one {r : BitVec 32} (h : r.toNat + 1 < 2 ^ 32) : (r + 1).toNat = r.toNat + 1 := by
  have hone : (1 : BitVec 32).toNat = 1 := rfl
  rw [toNat_add, hone, Nat.mod_eq_of_lt h]

variable {p : NodeAddr} {x : BitVec 32}

/-- **A counter goes up.** -/
theorem addReference_spec (h : Core s rest held) (hl : Live s rest held)
    (hp : (s.node p).isSome) :
    ∃ s', s.addReference p = some s' ∧ Acquired s s' held p ∧ SameNodes s s' ∧
      s'.hashOf = s.hashOf := by
  obtain ⟨n, hn⟩ := isSome_iff_exists.mp hp
  have hnodes : SameNodes s (s.setNode p { n with references := n.references + 1 }) :=
    sameNodes_setNode hn rfl
  refine ⟨s.setNode p { n with references := n.references + 1 }, by rw [addReference, hn]; rfl,
    ⟨?_, ?_⟩, hnodes, hashOf_setNode s p _⟩
  · intro hlt
    have hcount := h.count p n hn
    have htouch := h.touch hn (n.references + 1)
    rw [toNat_add_one (by omega), hcount] at htouch
    exact ⟨rest, htouch, live_congr (hl.acquire p) hnodes.isSome (hashOf_setNode s p _)⟩
  · rw [hnodes.isSome]
    exact hp

/-- `p` holds the string. -/
def HoldsString (s : Share) (p : NodeAddr) (str : List Byte) (slen : BitVec 32) : Prop :=
  ∃ n, s.node p = some n ∧ n.length = slen ∧ n.bytes = str

/-- Every node of `s'` was one of `s`, or is `p` and was made for the string. -/
def OnlyNew (s s' : Share) (p : NodeAddr) (str : List Byte) (nullSize : BitVec 32) : Prop :=
  ∀ q n', s'.node q = some n' → (∃ n, s.node q = some n ∧ n'.content = n.content) ∨
    (q = p ∧ s.node q = none ∧ n'.str = str ++ List.replicate nullSize.toNat 0)

theorem bytes_new {str : List Byte} {slen : BitVec 32} (hlen : str.length = slen.toNat)
    (k : Nat) : (str ++ List.replicate k (0 : Byte)).take slen.toNat = str := by
  rw [← hlen, List.take_left]

theorem toInt_of_small (h : x.toNat < 2 ^ 31) : x.toInt = x.toNat := by
  rw [toInt_eq_toNat_cond, if_pos (by omega)]

theorem nodeInit_of_small (next : Option NodeAddr) (str : List Byte) {slen nullSize : BitVec 32}
    (hsize : slen.toNat + nullSize.toNat < 2 ^ 31) :
    nodeInit next (slen.toNat + nullSize.toNat) str slen nullSize =
      some ⟨next, slen, 1, str ++ List.replicate nullSize.toNat 0⟩ := by
  rw [nodeInit, if_neg]
  rw [toInt_of_small (by omega)]
  omega

theorem headAlloc_of_small {slen nullSize : BitVec 32}
    (hsize : slen.toNat + nullSize.toNat < 2 ^ 31) (mem : Option Addr) :
    headAlloc (slen + nullSize) mem = mem.map fun a => (a, slen.toNat + nullSize.toNat) := by
  have hadd : (slen + nullSize).toNat = slen.toNat + nullSize.toNat := by
    rw [toNat_add, Nat.mod_eq_of_lt (by omega)]
  have hint : (slen + nullSize).toInt = (slen.toNat + nullSize.toNat : Nat) := by
    rw [toInt_of_small (by omega), hadd]
  rw [headAlloc, if_neg (by omega)]
  congr 1
  funext a
  congr 1
  omega

theorem held_eq_zero (h : Core s rest held) (hp : s.node p = none) :
    held p = 0 := by
  by_contra hne
  have := h.held p (Nat.pos_of_ne_zero hne)
  rw [hp] at this
  simp at this

theorem acquire_new (h0 : held p = 0) (r : BitVec 32) (hr : r = 1) :
    update held p r.toNat = acquire held p := by
  rw [acquire, h0, hr]
  rfl

variable {str : List Byte} {slen nullSize : BitVec 32} {mem : Option Addr}

/-- A string with a new hash. -/
theorem addHead_spec (h : Core s rest held) (hl : Live s rest held)
    (hlen : str.length = slen.toNat) (hsize : slen.toNat + nullSize.toNat < 2 ^ 31)
    (hfresh : ∀ a, mem = some a → s.head a = none ∧ s.block a = none)
    (hnone : s.findHash (bucketIdx (hashSuperfast str slen))
      (nodeHash (hashSuperfast str slen)) = none) :
    (mem = none ∧ s.addHead (hashSuperfast str slen) str slen nullSize mem = some (s, none)) ∨
      ∃ s' p, s.addHead (hashSuperfast str slen) str slen nullSize mem = some (s', some p) ∧
        Acquired s s' held p ∧ HoldsString s' p str slen ∧ OnlyNew s s' p str nullSize := by
  set x := hashSuperfast str slen with hx
  rw [addHead, headAlloc_of_small hsize]
  cases hmem : mem with
  | none => exact .inl ⟨rfl, rfl⟩
  | some a =>
    right
    have ha := (hfresh a hmem).1
    have hbytes : (str ++ List.replicate nullSize.toNat 0).take slen.toNat = str :=
      bytes_new hlen nullSize.toNat
    have hheight := h.height_le (bucketIdx x)
    set n : Node := ⟨none, slen, 1, str ++ List.replicate nullSize.toNat 0⟩ with hn
    have hcore := h.addHead (n := n) ha (by
        intro y z hy hsame
        have hfound := (h.findHash_iff _ _ y).mpr ⟨z, hy, hsame.1, hsame.2⟩
        rw [hnone] at hfound
        exact absurd hfound (by simp)) rfl (by
        rw [hn, List.length_append]
        simp only
        omega) (by rw [Node.hash, Node.bytes, hbytes])
    simp only [map_some, nodeInit_of_small none str hsize, bind_some, ← hn,
      cmpNode_eq]
    rw [boundedInsert_of_height _ _ hheight]
    have hzero : held (.builtin a) = 0 := by
      refine held_eq_zero h ?_
      rw [node, ha]
      rfl
    rw [acquire_new hzero n.references rfl] at hcore
    refine ⟨_, .builtin a, rfl, ⟨fun _ => ⟨rest, hcore, ?_, ?_⟩, ?_⟩, ⟨n, ?_, rfl, hbytes⟩, ?_⟩
    · intro b hb
      exact (hl.block b hb).trans_le (le_acquire held _ _)
    · intro y hy
      by_cases hya : y = a
      · subst hya
        exact ⟨.builtin y, by simp, acquire_pos held _⟩
      have hyold : (s.hashOf y).isSome := by
        rw [hashOf] at hy ⊢
        rw [show ({ s with
          buckets := _, head := update s.head a _, allocs := _ } : Share).head y =
            s.head y from update_of_ne hya _ _] at hy
        exact hy
      obtain ⟨q, hq, hpos⟩ := hl.head y hyold
      exact ⟨q, hq, hpos.trans_le (le_acquire held _ _)⟩
    · simp [node]
    · simp [node]
    · intro q n' hq
      cases q with
      | block b => exact .inl ⟨n', hq, rfl⟩
      | builtin y =>
        by_cases hya : y = a
        · subst hya
          right
          refine ⟨rfl, by rw [node, ha]; rfl, ?_⟩
          simp only [node, update_self] at hq
          rw [← some.inj hq]
        · left
          simp only [node, update_of_ne hya] at hq
          exact ⟨n', hq, rfl⟩

/-- A string whose hash is there already. -/
theorem addNode_spec (h : Core s rest held) (hl : Live s rest held)
    (hlen : str.length = slen.toNat) (hsize : slen.toNat + nullSize.toNat < 2 ^ 31)
    (hfresh : ∀ a, mem = some a → s.head a = none ∧ s.block a = none)
    (ha : s.hashOf a = some x) (hhash : bucketIdx x = bucketIdx (hashSuperfast str slen) ∧
      nodeHash x = nodeHash (hashSuperfast str slen))
    (hnew : ∀ p ∈ chain rest a, ∀ n, s.node p = some n → ¬ (n.length = slen ∧ n.bytes = str)) :
    (mem = none ∧ s.addNode a str slen nullSize mem = some (s, none)) ∨
      ∃ s' p, s.addNode a str slen nullSize mem = some (s', some p) ∧
        Acquired s s' held p ∧ HoldsString s' p str slen ∧ OnlyNew s s' p str nullSize := by
  cases hmem : mem with
  | none => exact .inl ⟨rfl, rfl⟩
  | some b =>
    right
    obtain ⟨hd, hhd⟩ := head_of_hashOf (isSome_iff_exists.mpr ⟨x, ha⟩)
    have hbytes : (str ++ List.replicate nullSize.toNat 0).take slen.toNat = str :=
      bytes_new hlen nullSize.toNat
    have hb : s.node (.block b) = none := (hfresh b hmem).2
    set n : Node := ⟨hd.head, slen, 1, str ++ List.replicate nullSize.toNat 0⟩ with hn
    have hnhash : n.hash = hashSuperfast str slen := by rw [Node.hash, Node.bytes, hbytes]
    have hcore := h.grow (n := n) ha (by rw [firstOf, hhd]; rfl) hb rfl (by
        rw [hn, List.length_append]
        simp only
        omega) (by rw [hnhash]; exact ⟨hhash.1.symm, hhash.2.symm⟩) (by
        intro p hp m hm hsame
        refine hnew p hp m hm ⟨hsame.1, ?_⟩
        rw [hsame.2, Node.bytes, hbytes])
    rw [acquire_new (held_eq_zero h hb) n.references rfl] at hcore
    rw [addNode]
    simp only [hhd, bind_some, nodeInit_of_small hd.head str hsize]
    have hself : ({ s.setNode (.block b) n with allocs := s.allocs + 1 }.setFirst a
        (some (.block b))).node (.block b) = some n := by
      exact node_setNode_block s n b
    have hother : ∀ q ≠ .block b,
        ({ s.setNode (.block b) n with allocs := s.allocs + 1 }.setFirst a
          (some (.block b))).node q = s.node q := by
      intro q hq
      rw [node_setFirst]
      exact node_setNode_of_ne s (.block b) n hq
    refine ⟨_, .block b, rfl, ⟨fun _ => ⟨_, hcore, ?_, ?_⟩, ?_⟩, ⟨n, hself, rfl, hbytes⟩, ?_⟩
    · intro c hc
      by_cases hcb : c = b
      · subst hcb
        exact acquire_pos held _
      · rw [hother _ (fun heq => hcb (NodeAddr.block.inj heq))] at hc
        exact (hl.block c hc).trans_le (le_acquire held _ _)
    · intro y hy
      rw [hashOf_setFirst] at hy
      have hyold : (s.hashOf y).isSome := by
        exact hy
      obtain ⟨q, hq, hpos⟩ := hl.head y hyold
      refine ⟨q, ?_, hpos.trans_le (le_acquire held _ _)⟩
      by_cases hya : y = a
      · subst hya
        simp only [mem_chain, update_self, List.mem_cons] at hq ⊢
        rcases hq with ⟨c, hc, rfl⟩ | rfl
        · exact .inl ⟨c, .inr hc, rfl⟩
        · exact .inr rfl
      · rw [chain_congr (update_of_ne hya _ _)]
        exact hq
    · rw [hself]
      rfl
    · intro q n' hq
      by_cases hqb : q = .block b
      · subst hqb
        rw [hself] at hq
        right
        exact ⟨rfl, hb, by rw [← some.inj hq]⟩
      · rw [hother q hqb] at hq
        exact .inl ⟨n', hq, rfl⟩

/-- **An addition finds or makes the node of the string**, and is refused only with memory. -/
theorem addLength_spec (h : Core s rest held) (hl : Live s rest held)
    (hstr : slen.toNat ≤ str.length) (hslen : slen ≠ 0)
    (hsize : slen.toNat + nullSize.toNat < 2 ^ 31)
    (hfresh : ∀ a, mem = some a → s.head a = none ∧ s.block a = none) :
    (mem = none ∧ ∃ s' rest', s.addLength (some str) slen nullSize mem = some (s', none) ∧
      Core s' rest' held ∧ Live s' rest' held ∧ SameNodes s s') ∨
      ∃ s' p, s.addLength (some str) slen nullSize mem = some (s', some p) ∧
        Acquired s s' held p ∧ HoldsString s' p (str.take slen.toNat) slen ∧
        OnlyNew s s' p (str.take slen.toNat) nullSize := by
  have hlen : (str.take slen.toNat).length = slen.toNat := by
    rw [List.length_take, min_eq_left hstr]
  rw [addLength]
  simp only [if_neg hslen]
  generalize str.take slen.toNat = str at hlen ⊢
  cases hfound : s.findHash (bucketIdx (hashSuperfast str slen))
      (nodeHash (hashSuperfast str slen)) with
  | none =>
    rcases addHead_spec h hl hlen hsize hfresh hfound with ⟨hm, heq⟩ | hdone
    · exact .inl ⟨hm, s, rest, heq, h, hl, fun _ => rfl⟩
    · exact .inr hdone
  | some ed =>
    simp only
    obtain ⟨x, hx, hxb, hxn⟩ := (h.findHash_iff _ _ ed).mp hfound
    rcases h.headFind_spec (isSome_iff_exists.mpr ⟨x, hx⟩) str slen with
      ⟨p, n, s1, rest1, heq, hcore, hrel, hn, hnl, hnb⟩ | ⟨heq, hnew⟩
    · right
      have hp1 : (s1.node p).isSome := by
        rw [hrel.nodes.isSome]
        exact isSome_iff_exists.mpr ⟨n, hn⟩
      obtain ⟨s2, hs2, hacq, hnodes, -⟩ :=
        addReference_spec hcore (hl.relinked hrel) hp1
      have hboth : SameNodes s s2 := hrel.nodes.trans hnodes
      refine ⟨s2, p, ?_, ⟨hacq.inv, hacq.there⟩, ?_, ?_⟩
      · rw [heq, bind_some]
        simp only
        rw [hs2]
        rfl
      · obtain ⟨n2, hn2⟩ := isSome_iff_exists.mp hacq.there
        obtain ⟨m, hm, hc⟩ := hboth.some hn2
        rw [hn] at hm
        obtain rfl := some.inj hm
        obtain ⟨hl', hb'⟩ := Node.same_of_content hc
        exact ⟨n2, hn2, hl'.trans hnl, hb'.trans hnb⟩
      · intro q n' hq
        exact .inl (hboth.some hq)
    · rw [heq]
      rcases addNode_spec h hl hlen hsize hfresh hx ⟨hxb, hxn⟩ hnew with ⟨hm, heq'⟩ | hdone
      · exact .inl ⟨hm, s, rest, heq', h, hl, fun _ => rfl⟩
      · exact .inr hdone

/-! ### One hold less -/

/-- Every node of `s'` is one of `s`. -/
def NoneNew (s s' : Share) : Prop :=
  ∀ q n', s'.node q = some n' → ∃ n, s.node q = some n ∧ n'.content = n.content

/-- A head without a live string goes. -/
theorem dropHead_spec (h : Core s rest held) (ha : (s.hashOf a).isSome)
    (hblocks : ∀ b ∈ rest a, 0 < held (.block b))
    (hothers : ∀ y ≠ a, (s.hashOf y).isSome → ∃ p ∈ chain rest y, 0 < held p)
    (hfreed : ∀ b, (s.node (.block b)).isSome → 0 < held (.block b)) :
    ∃ s', s.dropHead a = some s' ∧ Core s' rest held ∧ Live s' rest held ∧ NoneNew s s' := by
  obtain ⟨hd, hhd, hseg⟩ := h.seg ha
  have hhash : s.hashOf a = some hd.hash := by
    rw [hashOf, hhd]
    rfl
  have hfirst : ∃ first, hd.head = some first ∧ first ∈ chain rest a ∧
      (first = .builtin a → rest a = []) := by
    cases hr : rest a with
    | nil =>
      rw [chain, hr] at hseg
      exact ⟨.builtin a, hseg.1, by simp, fun _ => rfl⟩
    | cons b t =>
      rw [chain, hr] at hseg
      exact ⟨.block b, hseg.1, by simp [hr], fun heq => absurd heq (by simp)⟩
  obtain ⟨first, hf, hmem, honly⟩ := hfirst
  obtain ⟨n, hn⟩ := isSome_iff_exists.mp (h.isSome_of_mem ha hmem)
  have hcount := h.count first n hn
  rw [dropHead, hhd, bind_some, hf]
  simp only [hn, bind_some]
  by_cases hzero : n.references = 0
  · -- a dead node is the builtin one, and then it is alone
    have hheld : held first = 0 := by
      rw [← hcount, hzero]
      rfl
    obtain rfl : first = .builtin a := by
      rcases mem_chain.mp hmem with ⟨b, hb, rfl⟩ | rfl
      · have := hblocks b hb
        omega
      · rfl
    have hrest := honly rfl
    have hcore := h.delHead hhash hrest hheld
    rw [if_pos hzero, delHead, cmpNode_eq, boundedRemove_of_height _ _ (h.height_le _)]
    refine ⟨_, rfl, hcore, ⟨hfreed, ?_⟩, ?_⟩
    · intro y hy
      have hya : y ≠ a := by
        rintro rfl
        simp [hashOf] at hy
      refine hothers y hya ?_
      simpa [hashOf, update_of_ne hya] using hy
    · intro q n' hq
      cases q with
      | block b => exact ⟨n', hq, rfl⟩
      | builtin y =>
        by_cases hya : y = a
        · subst hya
          simp [node] at hq
        · simp only [node, update_of_ne hya] at hq
          exact ⟨n', hq, rfl⟩
  · rw [if_neg hzero]
    refine ⟨s, rfl, h, ⟨hfreed, ?_⟩, fun q n' hq => ⟨n', hq, rfl⟩⟩
    intro y hy
    by_cases hya : y = a
    · subst hya
      refine ⟨first, hmem, ?_⟩
      by_contra hnot
      refine hzero (eq_of_toNat_eq ?_)
      rw [hcount]
      show held first = 0
      omega
    · exact hothers y hya hy

theorem release_spec (h : Core s rest (giveBack held p)) (hp : (s.node p).isSome)
    (hzero : giveBack held p p = 0)
    (hblocks : ∀ b, (s.node (.block b)).isSome → .block b ≠ p → 0 < giveBack held p (.block b))
    (hheads : ∀ y, p ∉ chain rest y → (s.hashOf y).isSome →
      ∃ q ∈ chain rest y, 0 < giveBack held p q) :
    ∃ s' rest', s.release p = some (s', true) ∧ Core s' rest' (giveBack held p) ∧
      Live s' rest' (giveBack held p) ∧ NoneNew s s' := by
  obtain ⟨a, ha, hpa⟩ := h.home hp
  rw [release, h.headFromNode_eq ha hpa, bind_some]
  rcases mem_chain.mp hpa with ⟨b, hb, rfl⟩ | rfl
  · obtain ⟨s1, l, hdrop, hcore, hhash, hl, hgone, hkeep⟩ := h.dropNode_spec ha hb hzero
    have hsub : ∀ y ≠ a, update rest a l y = rest y :=
      fun y hy => update_of_ne hy _ _
    have hold : ∀ q n', s1.node q = some n' → q ≠ .block b ∧
        ∃ n, s.node q = some n ∧ n'.content = n.content := by
      intro q n' hq
      have hqb : q ≠ .block b := by
        rintro rfl
        rw [hgone] at hq
        simp at hq
      have hc := hkeep q hqb
      rw [hq] at hc
      obtain ⟨n, hn, heq⟩ := map_eq_some_iff.mp hc.symm
      exact ⟨hqb, n, hn, heq.symm⟩
    have hpos : ∀ c, (s1.node (.block c)).isSome → 0 < giveBack held (.block b) (.block c) := by
      intro c hc
      obtain ⟨n', hn'⟩ := isSome_iff_exists.mp hc
      obtain ⟨hne, n, hn, -⟩ := hold _ n' hn'
      exact hblocks c (isSome_iff_exists.mpr ⟨n, hn⟩) hne
    obtain ⟨s2, hs2, hcore2, hlive2, hnone⟩ := dropHead_spec hcore (by rw [hhash]; exact ha)
      (by
        intro c hc
        exact hpos c ((hcore.block c).mpr ⟨a, hc⟩))
      (by
        intro y hy hsome
        rw [hhash] at hsome
        obtain ⟨q, hq, hqpos⟩ := hheads y (fun hm => hy (h.same_head hm hpa)) hsome
        exact ⟨q, by rw [chain_congr (hsub y hy)]; exact hq, hqpos⟩)
      hpos
    refine ⟨s2, _, ?_, hcore2, hlive2, ?_⟩
    · rw [hdrop, bind_some]
      simp only
      rw [hs2]
      rfl
    · intro q n' hq
      obtain ⟨n1, hn1, hc1⟩ := hnone q n' hq
      obtain ⟨-, n, hn, hc⟩ := hold q n1 hn1
      exact ⟨n, hn, hc1.trans hc⟩
  · have hpos : ∀ c, (s.node (.block c)).isSome → 0 < giveBack held (.builtin a) (.block c) :=
      fun c hc => hblocks c hc (by simp)
    obtain ⟨s2, hs2, hcore2, hlive2, hnone⟩ := dropHead_spec h ha
      (fun c hc => hpos c ((h.block c).mpr ⟨a, hc⟩))
      (fun y hy hsome => hheads y (fun hm => hy (h.same_head hm hpa)) hsome) hpos
    refine ⟨s2, rest, ?_, hcore2, hlive2, hnone⟩
    rw [dropNode, if_pos rfl, bind_some]
    simp only
    rw [hs2]
    rfl

/-- **A release takes one hold back**, and never fails. -/
theorem del_spec (h : Core s rest held) (hl : Live s rest held)
    (hp : 0 < held p) :
    ∃ s' rest', s.del (some p) = some (s', true) ∧ Core s' rest' (giveBack held p) ∧
      Live s' rest' (giveBack held p) ∧ NoneNew s s' := by
  obtain ⟨n, hn⟩ := isSome_iff_exists.mp (h.held p hp)
  have hcount := h.count p n hn
  have hle : ∀ q ≠ p, giveBack held p q = held q := fun q hq => update_of_ne hq _ _
  have hself : giveBack held p p = held p - 1 := update_self _ _ _
  have hnodes : ∀ r : BitVec 32, SameNodes s (s.setNode p { n with references := r }) :=
    fun r => sameNodes_setNode hn rfl
  rw [del]
  simp only [hn, bind_some]
  by_cases hmore : 1 < n.references
  · rw [if_pos hmore]
    have hgt : 1 < n.references.toNat := hmore
    have hsub : (n.references - 1).toNat = held p - 1 := by
      rw [BitVec.toNat_sub_of_le (BitVec.le_of_lt hmore), hcount]
      rfl
    have htouch := h.touch hn (n.references - 1)
    rw [hsub] at htouch
    refine ⟨_, rest, rfl, htouch, live_congr ⟨?_, ?_⟩ (hnodes _).isSome (hashOf_setNode s p _),
      fun q n' hq => (hnodes _).some hq⟩
    · intro b hb
      by_cases hbp : .block b = p
      · rw [hbp]
        omega
      · rw [hle _ hbp]
        exact hl.block b hb
    · intro y hy
      obtain ⟨q, hq, hpos⟩ := hl.head y hy
      refine ⟨q, hq, ?_⟩
      by_cases hqp : q = p
      · rw [hqp]
        omega
      · rw [hle q hqp]
        exact hpos
  · rw [if_neg hmore]
    have hone : held p = 1 := by
      have hle1 : ¬ 1 < n.references.toNat := hmore
      omega
    have htouch := h.touch hn 0
    have hback : update held p (0 : BitVec 32).toNat = giveBack held p := by
      rw [giveBack, hone]
      rfl
    rw [hback] at htouch
    obtain ⟨s', rest', hs', hcore, hlive, hnone⟩ := release_spec htouch (by
        rw [(hnodes 0).isSome, hn]
        rfl) (by rw [hself, hone]) (by
        intro b hb hne
        rw [hle _ hne]
        rw [(hnodes 0).isSome] at hb
        exact hl.block b hb) (by
        intro y hy hsome
        rw [hashOf_setNode] at hsome
        obtain ⟨q, hq, hpos⟩ := hl.head y hsome
        refine ⟨q, hq, ?_⟩
        rw [hle q (fun heq => hy (heq ▸ hq))]
        exact hpos)
    refine ⟨s', rest', hs', hcore, hlive, ?_⟩
    intro q n' hq
    obtain ⟨n1, hn1, hc1⟩ := hnone q n' hq
    obtain ⟨n0, hn0, hc0⟩ := (hnodes 0).some hn1
    exact ⟨n0, hn0, hc1.trans hc0⟩

end Eina.Share
