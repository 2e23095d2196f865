/-
Runs of the string share: every call keeps the invariant.

The ways of keeping a string do not touch each other's part of the invariant.  So a
hold of a pointer of one kind is written into that part, and the other parts are
carried over, since nothing of their kind has changed (`SameKind`).
-/
import Efl.Eina.Stringshare.Use

namespace Eina.Stringshare

open Superfast Share List Option Function BitVec

namespace Use

variable {u u' : Use} {s : Stringshare} {x : List Byte} {mem : Memory}

/-! ### Kinds of pointers -/

/-- The static pointers: the empty string, and those into the table. -/
def ofTable : Option Int → Ptr
  | none => .empty
  | some o => .single o

theorem ofTable_injective : Injective ofTable := by
  intro o o' h
  cases o <;> cases o' <;> cases h <;> rfl

theorem small_injective : Injective Ptr.small := fun _ _ h => Ptr.small.inj h

theorem node_injective : Injective Ptr.node := fun _ _ h => Ptr.node.inj h

theorem small_ne_ofTable (a : Addr) (o : Option Int) : Ptr.small a ≠ ofTable o := by
  cases o <;> exact Ptr.noConfusion

theorem node_ne_ofTable (p : NodeAddr) (o : Option Int) : Ptr.node p ≠ ofTable o := by
  cases o <;> exact Ptr.noConfusion

/-- The program knows the same about the pointers of one kind. -/
structure SameKind {P : Type} (f : P → Ptr) (u u' : Use) : Prop where
  held : ∀ q, u'.held (f q) = u.held (f q)
  asked : ∀ q, u'.asked (f q) = u.asked (f q)

variable {P : Type} {f : P → Ptr} {p : Ptr} {o : Option Int} {share : Share}

theorem sameKind_got (hp : ∀ q, f q ≠ p) (u : Use) (s : Stringshare) (x : List Byte) :
    SameKind f u (u.got s (some p) x) :=
  ⟨fun q => acquire_of_ne u.held (hp q), fun q => update_of_ne (hp q) _ _⟩

theorem sameKind_giveBack (hp : ∀ q, f q ≠ p) (u : Use) (s : Stringshare) :
    SameKind f u ⟨s, giveBack u.held p, u.asked⟩ :=
  ⟨fun q => giveBack_of_ne u.held (hp q), fun _ => rfl⟩

theorem asked_comp [DecidableEq P] (hf : Injective f) (u : Use) (p : P) (x : List Byte) :
    (fun q => update u.asked (f p) x (f q)) =
      update (fun q => u.asked (f q)) p x := by
  funext q
  by_cases hq : q = p
  · subst hq
    rw [update_self, update_self]
  · rw [update_of_ne hq, update_of_ne (fun heq => hq (hf heq))]

/-! ### The parts of the invariant -/

/-- The part of the common share. -/
def CommonOk (u : Use) : Prop :=
  ∃ rest, Core u.shares.share rest (fun p => u.held (.node p)) ∧
    Live u.shares.share rest (fun p => u.held (.node p))

/-- The part of the small buckets. -/
def SmallsOk (u : Use) : Prop :=
  ∃ list, SmallOk u.shares.small list (fun a => u.asked (.small a)) (fun a => u.held (.small a))

theorem CommonOk.same (h : CommonOk u) (hsame : SameKind Ptr.node u u')
    (hshare : u'.shares.share = u.shares.share) : CommonOk u' := by
  obtain ⟨rest, hcore, hlive⟩ := h
  have hheld : (fun p => u'.held (.node p)) = fun p => u.held (.node p) := funext hsame.held
  refine ⟨rest, ?_, ?_⟩
  · rw [hheld, hshare]
    exact hcore
  · rw [hheld, hshare]
    exact hlive

theorem SmallsOk.same (h : SmallsOk u) (hsame : SameKind Ptr.small u u')
    (hsmall : u'.shares.small = u.shares.small) : SmallsOk u' := by
  obtain ⟨list, hok⟩ := h
  have hheld : (fun a => u'.held (.small a)) = fun a => u.held (.small a) := funext hsame.held
  have hasked : (fun a => u'.asked (.small a)) = fun a => u.asked (.small a) := funext hsame.asked
  refine ⟨list, ?_⟩
  rw [hheld, hasked, hsmall]
  exact hok

/-- What a static pointer of the program is one to. -/
def IsStatic : Option Int → List Byte → Prop
  | none, x => x = []
  | some o, x => ∃ c : Byte, c ≠ 0 ∧ c.toNat < 128 ∧ o = 2 * c.toInt ∧ x = [c]

theorem StaticOk.isStatic (h : StaticOk u) (hpos : 0 < u.held (ofTable o)) :
    IsStatic o (u.asked (ofTable o)) := by
  cases o with
  | none => exact h.empty hpos
  | some o => exact h.single o hpos

theorem staticOk_of (h : ∀ o, 0 < u.held (ofTable o) → IsStatic o (u.asked (ofTable o))) :
    StaticOk u :=
  ⟨h none, fun o => h (some o)⟩

theorem StaticOk.same (h : StaticOk u) (hsame : SameKind ofTable u u') : StaticOk u' := by
  refine staticOk_of ?_
  intro o hpos
  rw [hsame.held] at hpos
  rw [hsame.asked]
  exact h.isStatic hpos

theorem NodesOk.same (h : NodesOk u) (hsame : SameKind Ptr.node u u')
    (hshare : u'.shares.share = u.shares.share) : NodesOk u' := by
  refine ⟨?_, ?_⟩
  · intro p n hn
    rw [hshare] at hn
    exact h.terminated p n hn
  · intro p hpos
    rw [hsame.held] at hpos
    rw [hsame.asked, hshare]
    exact h.asked p hpos

/-! ### One hold more -/

theorem Inv.gotStatic (h : Inv u) (hx : IsStatic o x) :
    Inv (u.got u.shares (some (ofTable o)) x) := by
  have hnode := sameKind_got (node_ne_ofTable · o) u u.shares x
  have hsmall := sameKind_got (small_ne_ofTable · o) u u.shares x
  refine ⟨CommonOk.same h.common hnode rfl, SmallsOk.same h.small hsmall rfl, staticOk_of ?_,
    h.nodes.same hnode rfl⟩
  intro o' hpos
  show IsStatic o' (update u.asked (ofTable o) x (ofTable o'))
  by_cases ho : o' = o
  · rw [ho, update_self]
    exact hx
  have hne : ofTable o' ≠ ofTable o := fun heq => ho (ofTable_injective heq)
  rw [update_of_ne hne]
  exact h.static.isStatic (lt_of_lt_of_eq hpos (acquire_of_ne u.held hne))

theorem Inv.gotSmall (h : Inv u) {small : Small} {list : Byte → List Addr} {a : Addr}
    (hok : SmallOk small list (update (fun a => u.asked (.small a)) a x)
      (acquire (fun a => u.held (.small a)) a)) :
    Inv (u.got { u.shares with small := small } (some (.small a)) x) := by
  have hnode := sameKind_got (f := Ptr.node) (p := .small a) (fun _ => Ptr.noConfusion) u
    { u.shares with small := small } x
  have hstatic := sameKind_got (fun o => (small_ne_ofTable a o).symm) u
    { u.shares with small := small } x
  refine ⟨CommonOk.same h.common hnode rfl, ⟨list, ?_⟩, h.static.same hstatic,
    h.nodes.same hnode rfl⟩
  rw [← asked_comp small_injective, ← acquire_comp small_injective] at hok
  exact hok

theorem Inv.gotNode (h : Inv u) {p : NodeAddr}
    (hacq : Acquired u.shares.share share (fun p => u.held (.node p)) p)
    (hlt : u.held (.node p) + 1 < 2 ^ 32)
    (hnodes : NodesOk (u.got { u.shares with share := share } (some (.node p)) x)) :
    Inv (u.got { u.shares with share := share } (some (.node p)) x) := by
  have hsmall := sameKind_got (f := Ptr.small) (p := .node p) (fun _ => Ptr.noConfusion) u
    { u.shares with share := share } x
  have hstatic := sameKind_got (fun o => (node_ne_ofTable p o).symm) u
    { u.shares with share := share } x
  obtain ⟨rest, hcore, hlive⟩ := hacq.inv hlt
  refine ⟨⟨rest, ?_, ?_⟩, SmallsOk.same h.small hsmall rfl, h.static.same hstatic, hnodes⟩
  · rw [← acquire_comp node_injective] at hcore
    exact hcore
  · rw [← acquire_comp node_injective] at hlive
    exact hlive

variable {slen : BitVec 32} {str : List Byte} {op : Op}

/-- The nodes keep their strings when one is got. -/
theorem NodesOk.got (h : NodesOk u) {p : NodeAddr} (hnull : (0 : Byte) ∉ x)
    (hlong : 4 ≤ x.length) (hheld : ∀ q, 0 < u.held (.node q) → (share.node q).isSome)
    (hholds : HoldsString share p x slen) (hnew : OnlyNew u.shares.share share p x 1) :
    NodesOk (u.got { u.shares with share := share } (some (.node p)) x) := by
  refine ⟨?_, ?_⟩
  · intro q n' hn'
    rcases hnew q n' hn' with ⟨n, hn, hc⟩ | ⟨rfl, -, hstr⟩
    · rw [(Prod.mk.inj hc).2, (Node.same_of_content hc).2]
      exact h.terminated q n hn
    obtain ⟨n, hn, -, hb⟩ := hholds
    obtain rfl := some.inj (hn.symm.trans hn')
    rw [hb]
    exact hstr
  · intro q hpos
    by_cases hq : q = p
    · subst hq
      obtain ⟨n, hn, -, hb⟩ := hholds
      have hasked : (u.got { u.shares with share := share } (some (.node q)) x).asked (.node q) =
          x := update_self _ _ _
      rw [hasked]
      exact ⟨n, hn, hb, hlong, hnull⟩
    · have hne : Ptr.node q ≠ .node p := fun heq => hq (node_injective heq)
      have hasked : (u.got { u.shares with share := share } (some (.node p)) x).asked (.node q) =
          u.asked (.node q) := update_of_ne hne _ _
      have hpos : 0 < u.held (.node q) := lt_of_lt_of_eq hpos (acquire_of_ne u.held hne)
      obtain ⟨m, hm, hmb, hlen, hnul⟩ := h.asked q hpos
      obtain ⟨n', hn'⟩ := isSome_iff_exists.mp (hheld q hpos)
      rw [hasked]
      rcases hnew q n' hn' with ⟨n, hn, hc⟩ | ⟨heq, -⟩
      · obtain rfl := some.inj (hm.symm.trans hn)
        exact ⟨n', hn', by rw [(Node.same_of_content hc).2, hmb], hlen, hnul⟩
      · exact absurd heq hq

theorem NodesOk.kept (h : NodesOk u) (hasked : ∀ q, u'.asked (.node q) = u.asked (.node q))
    (hnone : NoneNew u.shares.share u'.shares.share) (hheld : ∀ q, 0 < u'.held (.node q) →
      0 < u.held (.node q) ∧ (u'.shares.share.node q).isSome) : NodesOk u' := by
  refine ⟨?_, ?_⟩
  · intro q n' hn'
    obtain ⟨n, hn, hc⟩ := hnone q n' hn'
    rw [(Prod.mk.inj hc).2, (Node.same_of_content hc).2]
    exact h.terminated q n hn
  · intro q hpos
    obtain ⟨hpos, hthere⟩ := hheld q hpos
    obtain ⟨m, hm, hmb, hlen, hnul⟩ := h.asked q hpos
    obtain ⟨n', hn'⟩ := isSome_iff_exists.mp hthere
    obtain ⟨n, hn, hc⟩ := hnone q n' hn'
    obtain rfl := some.inj (hm.symm.trans hn)
    rw [hasked]
    exact ⟨n', hn', by rw [(Node.same_of_content hc).2, hmb], hlen, hnul⟩

/-! ### Additions -/

theorem fits_of_length (hnull : (0 : Byte) ∉ x) (hlen : x.length = 2 ∨ x.length = 3) :
    ∃ c, Fits c x := by
  rcases x with _ | ⟨a, _ | ⟨b, _ | ⟨c, _ | ⟨d, x⟩⟩⟩⟩
  · simp at hlen
  · simp at hlen
  · exact ⟨a, hnull, .inl ⟨b, rfl⟩⟩
  · exact ⟨a, hnull, .inr ⟨b, c, rfl⟩⟩
  · simp only [length_cons] at hlen
    omega

/-- What an addition does with the string `x`, and the program then knows. -/
def Adds (u : Use) (mem : Memory) (x : List Byte) (out : Option (Stringshare × Option Ptr)) :
    Prop :=
  ∃ s' p, out = some (s', p) ∧ (p = none → ¬ mem.Granted) ∧
    ((∀ q ∈ p, Counted q → u.held q + 1 < 2 ^ 32) → Inv (u.got s' p x))

theorem adds_small (h : Inv u) (hfresh : u.Fresh mem) (hnull : (0 : Byte) ∉ x)
    (hlen : x.length = 2 ∨ x.length = 3) (more : List Byte) :
    Adds u mem x ((smallAdd u.shares.small (x ++ more) (BitVec.ofNat 8 x.length) mem).map
      fun (small, a) => ({ u.shares with small := small }, a.map .small)) := by
  obtain ⟨c, hx⟩ := fits_of_length hnull hlen
  obtain ⟨list, hok⟩ := h.small
  obtain ⟨small, ⟨heq, hm, -, hok', -⟩ | ⟨a, heq, -, -, hok'⟩⟩ :=
    hok.smallAdd_spec hx more fun a ha => (hfresh a ha).1
  · refine ⟨_, none, by rw [heq]; rfl, fun _ => hm, fun _ => ?_⟩
    exact ⟨h.common, ⟨list, hok'⟩, ⟨h.static.empty, h.static.single⟩,
      ⟨h.nodes.terminated, h.nodes.asked⟩⟩
  · refine ⟨_, some (.small a), by rw [heq]; rfl, fun hnone => absurd hnone (by simp), ?_⟩
    intro hlt
    obtain ⟨list', hok'⟩ := hok' (hlt (.small a) rfl trivial)
    exact h.gotSmall hok'

/-- An addition of four bytes or more goes to the common share. -/
theorem adds_common (h : Inv u) (hfresh : u.Fresh mem)
    (hstr : slen.toNat ≤ str.length) (hnull : (0 : Byte) ∉ str.take slen.toNat)
    (hlong : 4 ≤ slen.toNat) (hshort : slen.toNat + 1 < 2 ^ 31) :
    Adds u mem (str.take slen.toNat) ((u.shares.share.addLength (some str) slen 1 mem.block).map
      fun (share, p) => ({ u.shares with share := share }, p.map .node)) := by
  have hslen : slen ≠ 0 := by
    intro h0
    rw [h0] at hlong
    exact absurd hlong (by decide)
  have hlen : (str.take slen.toNat).length = slen.toNat := by
    rw [length_take, min_eq_left hstr]
  obtain ⟨rest, hcore, hlive⟩ := h.common
  have hfree : ∀ a, mem.block = some a → u.shares.share.head a = none ∧
      u.shares.share.block a = none := fun a ha => (hfresh a ha).2
  have hsize : slen.toNat + (1 : BitVec 32).toNat < 2 ^ 31 := hshort
  rcases Share.addLength_spec hcore hlive hstr hslen hsize hfree with
    ⟨hm, share, rest', heq, hcore', hlive', hnodes⟩ | ⟨share, p, heq, hacq, hholds, hnew⟩
  · refine ⟨_, none, by rw [heq]; rfl, ?_, fun _ => ?_⟩
    · intro _ hg
      have hsome := hg.2.2.2.2
      rw [hm] at hsome
      simp at hsome
    · refine ⟨⟨rest', hcore', hlive'⟩, h.small, ⟨h.static.empty, h.static.single⟩, ?_⟩
      refine h.nodes.kept (fun _ => rfl) (fun q n' hn' => hnodes.some hn') ?_
      intro q hq
      exact ⟨hq, hcore'.held q hq⟩
  · refine ⟨_, some (.node p), by rw [heq]; rfl, fun hnone => absurd hnone (by simp), ?_⟩
    intro hlt
    have hlt : u.held (.node p) + 1 < 2 ^ 32 := hlt (.node p) rfl trivial
    refine h.gotNode hacq hlt (h.nodes.got hnull (by rw [hlen]; exact hlong) ?_ hholds hnew)
    obtain ⟨rest', hcore', -⟩ := hacq.inv hlt
    intro q hq
    exact hcore'.held q (hq.trans_le (le_acquire (fun q => u.held (.node q)) p q))

/-- **An addition gives a pointer to its string.** -/
theorem addLength_adds (h : Inv u) (hfresh : u.Fresh mem)
    (hstr : slen.toNat ≤ str.length) (hnull : (0 : Byte) ∉ str.take slen.toNat)
    (hkept : Kept (str.take slen.toNat)) :
    Adds u mem (str.take slen.toNat) (u.shares.addLength (some str) slen mem) := by
  have hlen : (str.take slen.toNat).length = slen.toNat := by
    rw [length_take, min_eq_left hstr]
  rw [addLength]
  by_cases h0 : slen = 0
  · rw [if_pos h0]
    have hnil : str.take slen.toNat = [] := by
      rw [h0]
      rfl
    rw [hnil]
    exact ⟨_, some .empty, rfl, fun hnone => absurd hnone (by simp),
      fun _ => h.gotStatic (o := none) rfl⟩
  · rw [if_neg h0]
    by_cases h1 : slen = 1
    · subst h1
      obtain ⟨c, rest, rfl⟩ : ∃ c rest, str = c :: rest := by
        cases str with
        | nil => exact absurd hstr (by decide)
        | cons c rest => exact ⟨c, rest, rfl⟩
      refine ⟨_, some (.single (2 * c.toInt)), rfl, fun hnone => absurd hnone (by simp),
        fun _ => ?_⟩
      refine h.gotStatic (o := some (2 * c.toInt)) ⟨c, ?_, hkept.2 rfl c (by simp), rfl, rfl⟩
      rintro rfl
      exact hnull (by simp)
    · rw [if_neg h1]
      have hmany : 2 ≤ slen.toNat := by
        have hne0 : slen.toNat ≠ 0 := fun heq => h0 (eq_of_toNat_eq heq)
        have hne1 : slen.toNat ≠ 1 := fun heq => h1 (eq_of_toNat_eq heq)
        omega
      by_cases hlt : slen < 4
      · rw [if_pos hlt]
        have hless : slen.toNat < 4 := hlt
        have hbyte : slen.setWidth 8 = BitVec.ofNat 8 (str.take slen.toNat).length := by
          refine eq_of_toNat_eq ?_
          rw [toNat_setWidth, toNat_ofNat, hlen]
        have hsplit := adds_small h hfresh hnull (by omega) (str.drop slen.toNat)
        rw [take_append_drop, ← hbyte] at hsplit
        exact hsplit
      · rw [if_neg hlt]
        have hge : ¬ slen.toNat < 4 := hlt
        exact adds_common h hfresh hstr hnull (by omega) (hlen ▸ hkept.1)

theorem add_adds (h : Inv u) (hfresh : u.Fresh mem) (hnull : (0 : Byte) ∉ x) (hkept : Kept x) :
    Adds u mem x (u.shares.add (some x) mem) := by
  have hlen : (BitVec.ofNat 32 x.length).toNat = x.length := by
    have hshort := hkept.1
    rw [toNat_ofNat, Nat.mod_eq_of_lt (by omega)]
  have htake : x.take (BitVec.ofNat 32 x.length).toNat = x := by
    rw [hlen, take_length]
  have hadds : Adds u mem (x.take (BitVec.ofNat 32 x.length).toNat)
      (u.shares.addLength (some x) (BitVec.ofNat 32 x.length) mem) :=
    addLength_adds h hfresh (le_of_eq hlen) (by rwa [htake]) (by rwa [htake])
  rw [htake] at hadds
  exact hadds

/-! ### References and releases -/

theorem lengthClass_of_string (hnull : (0 : Byte) ∉ x) (more : List Byte) :
    lengthClass (x ++ 0 :: more) = some (min x.length 4) := by
  have hne : ∀ b ∈ x, ¬ b = 0 := fun b hb heq => hnull (heq ▸ hb)
  rcases x with _ | ⟨a, _ | ⟨b, _ | ⟨c, _ | ⟨d, x⟩⟩⟩⟩
  · rfl
  · simp_all [lengthClass]
  · simp_all [lengthClass]
  · simp_all [lengthClass]
  · simp_all [lengthClass]

theorem Inv.length (h : Inv u) (hp : 0 < u.held p) :
    match p with
    | .small _ => (u.asked p).length = 2 ∨ (u.asked p).length = 3
    | .node _ => 4 ≤ (u.asked p).length
    | _ => (u.asked p).length < 2 := by
  cases p with
  | empty => simp [h.static.empty hp]
  | single o =>
    obtain ⟨c, -, -, -, heq⟩ := h.static.single o hp
    simp [heq]
  | small a =>
    obtain ⟨list, hs⟩ := h.small
    obtain ⟨c, hc⟩ := (hs.there a).mp ((hs.holds a).mp hp)
    exact (hs.text c a hc).2.length
  | node p =>
    obtain ⟨n, -, -, hlen, -⟩ := h.nodes.asked p hp
    exact hlen

/-- **A reference gives the same pointer.** -/
theorem ref_spec (h : Inv u) (hfresh : u.Fresh mem) (hp : 0 < u.held p) :
    ∃ s', u.shares.ref (some p) mem = some (s', some p) ∧
      ((Counted p → u.held p + 1 < 2 ^ 32) → Inv (u.got s' (some p) (u.asked p))) := by
  obtain ⟨hnull, more, hmem⟩ := h.memory hp
  have hlen := h.length hp
  unfold ref
  simp only [hmem, bind_some, lengthClass_of_string hnull more]
  cases p with
  | empty =>
    rw [if_pos (by omega)]
    exact ⟨_, rfl, fun _ => h.gotStatic (o := none) (h.static.empty hp)⟩
  | single o =>
    rw [if_pos (by omega)]
    exact ⟨_, rfl, fun _ => h.gotStatic (o := some o) (h.static.single o hp)⟩
  | small a =>
    have hmin : min (u.asked (.small a)).length 4 = (u.asked (.small a)).length := by omega
    rw [if_neg (by omega), if_pos (by omega), hmin]
    obtain ⟨c, hx⟩ := fits_of_length hnull hlen
    obtain ⟨list, hok⟩ := h.small
    obtain ⟨small, ⟨-, -, hno, -⟩ | ⟨a', heq, hwhere, hfound, hok'⟩⟩ :=
      hok.smallAdd_spec hx (0 :: more) fun b hb => (hfresh b hb).1
    · exact absurd rfl (hno a hp)
    have hpos := hfound ⟨a, hp, rfl⟩
    have hthere := (hok.holds a').mp hpos
    rcases hwhere with hnone | hname
    · rw [hnone] at hthere
      simp at hthere
    obtain rfl := hok.name_injective hpos hp hname
    refine ⟨_, by rw [heq]; rfl, fun hlt => ?_⟩
    obtain ⟨list', hok'⟩ := hok' (hlt trivial)
    exact h.gotSmall hok'
  | node p =>
    rw [if_neg (by omega), if_neg (by omega)]
    obtain ⟨rest, hcore, hlive⟩ := h.common
    obtain ⟨share, heq, hacq, hsame, -⟩ := addReference_spec hcore hlive (hcore.held p hp)
    have href : u.shares.share.ref (some p) = some (share, some p) := by
      rw [Share.ref, heq]
      rfl
    refine ⟨{ u.shares with share := share }, by simp only [href]; rfl, fun hlt => ?_⟩
    have hlt : u.held (.node p) + 1 < 2 ^ 32 := hlt trivial
    refine h.gotNode hacq hlt (h.nodes.kept ?_ (fun q n' hn' => hsame.some hn') ?_)
    · intro q
      by_cases hq : q = p
      · rw [hq]
        exact update_self _ _ _
      · exact update_of_ne (fun heq => hq (node_injective heq)) _ _
    · intro q hq
      obtain ⟨rest', hcore', -⟩ := hacq.inv hlt
      have hthere : (share.node q).isSome := by
        refine hcore'.held q ?_
        rw [← acquire_comp node_injective]
        exact hq
      refine ⟨?_, hthere⟩
      by_cases heq : q = p
      · rw [heq]
        exact hp
      · exact lt_of_lt_of_eq hq (acquire_of_ne u.held fun heq' => heq (node_injective heq'))

theorem giveBack_pos [DecidableEq P] {held : P → Nat} {p q : P} (h : 0 < giveBack held p q) :
    0 < held q := by
  by_cases hq : q = p
  · subst hq
    rw [giveBack_self] at h
    omega
  · rwa [giveBack_of_ne held hq] at h

/-- **A release takes one hold back.** -/
theorem del_spec (h : Inv u) (hp : 0 < u.held p) (hmem : Sound (.del p mem)) :
    ∃ s', u.shares.del (some p) mem = some (s', true) ∧
      Inv ⟨s', giveBack u.held p, u.asked⟩ := by
  obtain ⟨hnull, more, hm⟩ := h.memory hp
  have hlen := h.length hp
  unfold del
  simp only [hm, bind_some, lengthClass_of_string hnull more]
  have hstatic : ∀ s', StaticOk ⟨s', giveBack u.held p, u.asked⟩ := fun s' =>
    ⟨fun hpos => h.static.empty (giveBack_pos hpos), fun o hpos =>
      h.static.single o (giveBack_pos hpos)⟩
  have hof : ∀ o, p = ofTable o → Inv ⟨u.shares, giveBack u.held p, u.asked⟩ := by
    rintro o rfl
    have hnode := sameKind_giveBack (node_ne_ofTable · o) u u.shares
    exact ⟨CommonOk.same h.common hnode rfl,
      SmallsOk.same h.small (sameKind_giveBack (small_ne_ofTable · o) u u.shares) rfl,
      hstatic _, h.nodes.same hnode rfl⟩
  cases p with
  | empty =>
    rw [if_pos (by omega)]
    exact ⟨_, rfl, hof none rfl⟩
  | single o =>
    rw [if_pos (by omega)]
    exact ⟨_, rfl, hof (some o) rfl⟩
  | small a =>
    have hmin : min (u.asked (.small a)).length 4 = (u.asked (.small a)).length := by omega
    rw [if_neg (by omega), if_pos (by omega), hmin]
    obtain ⟨list, hok⟩ := h.small
    obtain ⟨small, list', heq, hok'⟩ := hok.smallDel_spec hp (0 :: more) hmem
    refine ⟨{ u.shares with small := small }, by rw [heq]; rfl, ?_⟩
    have hnode := sameKind_giveBack (f := Ptr.node) (p := .small a) (fun _ => Ptr.noConfusion) u
      { u.shares with small := small }
    refine ⟨CommonOk.same h.common hnode rfl, ⟨list', ?_⟩, hstatic _, h.nodes.same hnode rfl⟩
    rw [← giveBack_comp small_injective] at hok'
    exact hok'
  | node p =>
    rw [if_neg (by omega), if_neg (by omega)]
    obtain ⟨rest, hcore, hlive⟩ := h.common
    obtain ⟨share, rest', heq, hcore', hlive', hnone⟩ := Share.del_spec hcore hlive hp
    rw [← giveBack_comp node_injective] at hcore' hlive'
    refine ⟨{ u.shares with share := share }, by simp only [heq]; rfl, ⟨rest', hcore', hlive'⟩,
      ?_, hstatic _, ?_⟩
    · exact SmallsOk.same h.small (sameKind_giveBack (fun _ => Ptr.noConfusion) u _) rfl
    · refine h.nodes.kept (fun _ => rfl) hnone ?_
      intro q hq
      exact ⟨giveBack_pos hq, hcore'.held q hq⟩

/-! ### Runs -/

theorem step_of_adds {out : Option (Stringshare × Option Ptr)}
    (hstep : u.step op = out.map fun (s, p) => (u.got s p x, .str p)) (hadds : Adds u mem x out)
    (hfew : ∀ u' r, u.step op = some (u', r) → ∀ p, Counted p → u'.held p < 2 ^ 32) :
    ∃ u' p, u.step op = some (u', .str p) ∧ (p = none → ¬ mem.Granted) ∧ Inv u' := by
  obtain ⟨s', p, rfl, hm, hinv⟩ := hadds
  refine ⟨_, p, hstep, hm, hinv ?_⟩
  rintro q rfl hq
  have hlt : acquire u.held q q < 2 ^ 32 := hfew _ _ hstep q hq
  rwa [acquire_self] at hlt

/-- **Every call that may be made can be made, answers as it should and keeps the invariant.** -/
theorem step_inv (u : Use) (_ : Unit) (op : Op) (h : Inv u) (hop : u.Within op) :
    ∃ u' r, ∃ _ : Unit, u.step op = some (u', r) ∧ Answered op r ∧ Inv u' := by
  obtain ⟨hlegal, hsound, hfew⟩ := hop
  cases op with
  | add str mem =>
    obtain ⟨hnull, hfresh⟩ := hlegal
    obtain ⟨u', p, hstep, hm, hinv⟩ := step_of_adds rfl (add_adds h hfresh hnull hsound) hfew
    exact ⟨u', _, (), hstep, fun hr => hm (Answer.str.inj hr), hinv⟩
  | addLength str slen mem =>
    obtain ⟨hstr, hnull, hfresh⟩ := hlegal
    obtain ⟨u', p, hstep, hm, hinv⟩ :=
      step_of_adds rfl (addLength_adds h hfresh hstr hnull hsound) hfew
    exact ⟨u', _, (), hstep, fun hr => hm (Answer.str.inj hr), hinv⟩
  | ref p mem =>
    obtain ⟨hp, hfresh⟩ := hlegal
    obtain ⟨s', heq, hinv⟩ := ref_spec h hfresh hp
    have hstep : u.step (.ref p mem) = some (u.got s' (some p) (u.asked p), .str (some p)) := by
      rw [step, heq]
      rfl
    refine ⟨_, _, (), hstep, rfl, hinv ?_⟩
    intro hc
    have hlt : acquire u.held p p < 2 ^ 32 := hfew _ _ hstep p hc
    rwa [acquire_self] at hlt
  | del p mem =>
    obtain ⟨s', heq, hinv⟩ := del_spec h hlegal hsound
    exact ⟨_, .bool true, (), by rw [step, heq]; rfl, rfl, hinv⟩

instance decidableFresh (u : Use) (mem : Memory) : Decidable (u.Fresh mem) :=
  inferInstanceAs (Decidable (∀ a ∈ mem.block, u.shares.small.text a = none ∧
    u.shares.share.head a = none ∧ u.shares.share.block a = none))

instance decidableLegal (u : Use) : ∀ op, Decidable (u.Legal op)
  | .add str mem => inferInstanceAs (Decidable ((0 : Byte) ∉ str ∧ u.Fresh mem))
  | .addLength str slen mem => inferInstanceAs (Decidable (slen.toNat ≤ str.length ∧
      (0 : Byte) ∉ str.take slen.toNat ∧ u.Fresh mem))
  | .ref p mem => inferInstanceAs (Decidable (0 < u.held p ∧ u.Fresh mem))
  | .del p _ => inferInstanceAs (Decidable (0 < u.held p))

instance decidableKept (x : List Byte) : Decidable (Kept x) :=
  inferInstanceAs (Decidable (x.length + 1 < 2 ^ 31 ∧ (x.length = 1 → ∀ c ∈ x, c.toNat < 128)))

instance decidableSound : ∀ op, Decidable (Sound op)
  | .add str _ => inferInstanceAs (Decidable (Kept str))
  | .addLength str slen _ => inferInstanceAs (Decidable (Kept (str.take slen.toNat)))
  | .ref _ _ => isTrue trivial
  | .del (.small _) mem => inferInstanceAs (Decidable mem.ShrinksWhole)
  | .del .empty _ => isTrue trivial
  | .del (.single _) _ => isTrue trivial
  | .del (.node _) _ => isTrue trivial

theorem held_step {r : Answer} (h : u.step op = some (u', r)) (p : Ptr) :
    u'.held p ≤ u.held p + 1 := by
  have hacq : ∀ q, acquire u.held q p ≤ u.held p + 1 := by
    intro q
    by_cases hp : p = q
    · rw [hp, acquire_self]
    · rw [acquire_of_ne u.held hp]
      exact Nat.le_succ _
  have hgot : ∀ (s : Stringshare) (q : Option Ptr) (x : List Byte),
      (u.got s q x).held p ≤ u.held p + 1 := by
    intro s q x
    cases q with
    | none => exact Nat.le_succ _
    | some q => exact hacq q
  cases op with
  | add str mem =>
    obtain ⟨⟨s', q⟩, -, heq⟩ := map_eq_some_iff.mp h
    obtain ⟨rfl, -⟩ := Prod.mk.inj heq
    exact hgot s' q _
  | addLength str slen mem =>
    obtain ⟨⟨s', q⟩, -, heq⟩ := map_eq_some_iff.mp h
    obtain ⟨rfl, -⟩ := Prod.mk.inj heq
    exact hgot s' q _
  | ref q mem =>
    obtain ⟨⟨s', q'⟩, -, heq⟩ := map_eq_some_iff.mp h
    obtain ⟨rfl, -⟩ := Prod.mk.inj heq
    exact hgot s' q' _
  | del q mem =>
    obtain ⟨⟨s', b⟩, -, heq⟩ := map_eq_some_iff.mp h
    obtain ⟨rfl, -⟩ := Prod.mk.inj heq
    show giveBack u.held q p ≤ _
    by_cases hp : p = q
    · rw [hp, giveBack_self]
      omega
    · rw [giveBack_of_ne u.held hp]
      exact Nat.le_succ _

theorem meets_of_length {k : Nat} {ops : List Op} {u : Use} (hk : ∀ p, u.held p ≤ k)
    (hlen : k + ops.length < 2 ^ 32)
    (hops : Runs.Meets (fun u op => u.Legal op ∧ Sound op) step u ops) :
    Runs.Meets Within step u ops := by
  refine Runs.meets_of_grows (fun u k => ∀ p, u.held p ≤ k) ?_ ?_ hk hlen hops
  · intro u op k q hk hstep p
    exact (held_step hstep p).trans (Nat.add_le_add_right (hk p) 1)
  · rintro u op k hk hlt ⟨hlegal, hop⟩
    refine ⟨hlegal, hop, fun u' r hstep p => ?_⟩
    have hheld := held_step hstep p
    have hp := hk p
    omega

/-- An allocator that grants everything, and the block `a`. -/
def granted (a : Addr) : Memory := ⟨true, true, true, true, some a⟩

/-- Strings of all kinds; two of them share a bucket. -/
def sampleOps : List Op :=
  [.add [] (granted 0), .add [97] (granted 0), .add [200, 98] (granted 0),
    .addLength [200, 97, 99] 2 (granted 1), .add [200, 98] (granted 2),
    .add [97, 98, 99, 100] (granted 3), .ref (.small 0) (granted 4),
    .ref (.node (.builtin 3)) (granted 4), .del (.small 0) (granted 4),
    .del (.small 1) (granted 4), .del (.node (.builtin 3)) (granted 4)]

end Use

end Eina.Stringshare
