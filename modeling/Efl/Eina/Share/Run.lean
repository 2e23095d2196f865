/-
Runs of a share.

`Use` is a share with what the program knows about it: how often it holds each
pointer, and the string it asked for when it got it.  `Exact` relates the two, and a
run whose calls may be made keeps it (`history_exact`).

Two things a reader may expect do not hold.  A builtin node whose last hold is given
back is not freed as long as its head has another string, since it lies in the head.
And the counter has 32 bits: after 2 ^ 32 more holds it is where it was, and the first
release frees a string that is held.
-/
import Efl.Eina.Share.Calls
import Efl.Lib.Runs

namespace Eina.Share

open RedBlack Rbtree Forward Superfast Option Function BitVec

/-- A share, the holds of the program, and the strings it asked for. -/
structure Use where
  share : Share
  held : NodeAddr → Nat
  asked : NodeAddr → List Byte

inductive Op where
  | addLength (str : List Byte) (slen nullSize : BitVec 32) (mem : Option Addr)
  | ref (p : NodeAddr)
  | del (p : NodeAddr)

inductive Answer where
  | str (p : Option NodeAddr)
  | bool (b : Bool)
deriving DecidableEq

namespace Use

def new : Use := ⟨Share.new, fun _ => 0, fun _ => []⟩

/-- The program gets `p` for a string. -/
def got (u : Use) (s : Share) (p : Option NodeAddr) (str : List Byte) : Use :=
  match p with
  | none => { u with share := s }
  | some p => ⟨s, acquire u.held p, update u.asked p str⟩

def step (u : Use) : Op → Option (Use × Answer)
  | .addLength str slen nullSize mem =>
    (u.share.addLength (some str) slen nullSize mem).map fun (s, p) =>
      (u.got s p (str.take slen.toNat), .str p)
  | .ref p =>
    (u.share.ref (some p)).map fun (s, q) =>
      ({ u with share := s, held := acquire u.held p }, .str q)
  | .del p =>
    (u.share.del (some p)).map fun (s, b) =>
      ({ u with share := s, held := giveBack u.held p }, .bool b)

/-- The calls a program may make; `malloc` gives out memory that is not in use. -/
def Legal (u : Use) : Op → Prop
  | .addLength str slen _ mem => slen.toNat ≤ str.length ∧
      ∀ a ∈ mem, u.share.head a = none ∧ u.share.block a = none
  | .ref p => 0 < u.held p
  | .del p => 0 < u.held p

instance decidableLegal (u : Use) : ∀ op, Decidable (u.Legal op)
  | .addLength str slen _ mem => inferInstanceAs (Decidable (slen.toNat ≤ str.length ∧
      ∀ a ∈ mem, u.share.head a = none ∧ u.share.block a = none))
  | .ref p => inferInstanceAs (Decidable (0 < u.held p))
  | .del p => inferInstanceAs (Decidable (0 < u.held p))

/-- A string and its terminator are shorter than 2 ^ 31 bytes. -/
def Short : Op → Prop
  | .addLength _ slen nullSize _ => slen.toNat + nullSize.toNat < 2 ^ 31
  | _ => True

instance decidableShort : ∀ op, Decidable (Short op)
  | .addLength _ slen nullSize _ =>
    inferInstanceAs (Decidable (slen.toNat + nullSize.toNat < 2 ^ 31))
  | .ref _ => isTrue trivial
  | .del _ => isTrue trivial

/-- The call may be made, and after it no string is held 2 ^ 32 times. -/
def Within (u : Use) (op : Op) : Prop :=
  u.Legal op ∧ Short op ∧ ∀ u' r, u.step op = some (u', r) → ∀ p, u'.held p < 2 ^ 32

/-- The nodes in the list of a head. -/
def InHead (s : Share) (a : Addr) (p : NodeAddr) : Prop :=
  ∃ hd xs, s.head a = some hd ∧ Seg s.next hd.head xs none ∧ p ∈ xs

/-- What the share is, for the program that uses it. -/
structure Exact (u : Use) : Prop where
  /-- Two live strings are the same pointer exactly if they are the same string. -/
  pointers : ∀ p q, 0 < u.held p → 0 < u.held q → (p = q ↔ u.asked p = u.asked q)
  /-- A live node has the string asked for, and counts its holds. -/
  counted : ∀ p, 0 < u.held p → ∃ n, u.share.node p = some n ∧ n.references.toNat = u.held p ∧
    n.bytes = u.asked p ∧ n.length.toNat = (u.asked p).length
  /-- A block is there exactly as long as it is held. -/
  freed : ∀ b, (u.share.block b).isSome ↔ 0 < u.held (.block b)
  /-- The builtin node is the last of the list of its head. -/
  last : ∀ a hd, u.share.head a = some hd →
    ∃ bs : List Addr, Seg u.share.next hd.head (bs.map .block ++ [.builtin a]) none
  /-- A head is there exactly as long as it is in the tree of its bucket. -/
  linked : ∀ a, (u.share.head a).isSome ↔ ∃ i, a ∈ (u.share.buckets i).toList
  /-- It is in that tree exactly as long as it has a live string. -/
  heads : ∀ a, (∃ i, a ∈ (u.share.buckets i).toList) ↔
    ∃ p, InHead u.share a p ∧ 0 < u.held p

/-- An addition returns a null pointer only for no bytes or where `malloc` did, and nothing else
fails. -/
def Answered : Op → Answer → Prop
  | .addLength _ slen _ mem, r => r = .str none → slen = 0 ∨ mem = none
  | .ref p, r => r = .str (some p)
  | .del _, r => r = .bool true

/-- What every run keeps. -/
def Inv (u : Use) : Prop :=
  ∃ rest, Core u.share rest u.held ∧ Live u.share rest u.held ∧
    ∀ p, 0 < u.held p → ∃ n, u.share.node p = some n ∧ n.bytes = u.asked p

theorem inv_new : Inv new :=
  ⟨fun _ => [], core_new, live_new, fun _ hp => absurd hp (lt_irrefl 0)⟩

variable {u : Use}

theorem Inv.exact (h : Inv u) : Exact u := by
  obtain ⟨rest, hcore, hlive, hasked⟩ := h
  have hlen : ∀ p n, u.share.node p = some n → n.bytes.length = n.length.toNat := by
    intro p n hn
    have := hcore.room p n hn
    rw [Node.bytes, List.length_take, min_eq_left this]
  have hhead : ∀ a, (u.share.head a).isSome = (u.share.hashOf a).isSome := by
    simp [hashOf]
  have htree : ∀ a, (∃ i, a ∈ (u.share.buckets i).toList) ↔ (u.share.hashOf a).isSome := by
    intro a
    constructor
    · rintro ⟨i, hi⟩
      obtain ⟨x, hx, -⟩ := (hcore.mem i a).mp hi
      exact isSome_iff_exists.mpr ⟨x, hx⟩
    · intro ha
      obtain ⟨x, hx⟩ := isSome_iff_exists.mp ha
      exact ⟨_, (hcore.mem _ a).mpr ⟨x, hx, rfl⟩⟩
  refine ⟨?_, ?_, ?_, ?_, ?_, ?_⟩
  · intro p q hp hq
    obtain ⟨n, hn, hnb⟩ := hasked p hp
    obtain ⟨m, hm, hmb⟩ := hasked q hq
    constructor
    · rintro rfl
      rfl
    · intro heq
      have hbytes : n.bytes = m.bytes := by rw [hnb, hmb, heq]
      refine hcore.eq_of_same hn hm ⟨eq_of_toNat_eq ?_, hbytes⟩
      rw [← hlen p n hn, ← hlen q m hm, hbytes]
  · intro p hp
    obtain ⟨n, hn, hnb⟩ := hasked p hp
    exact ⟨n, hn, hcore.count p n hn, hnb, by rw [← hnb, hlen p n hn]⟩
  · intro b
    exact ⟨fun hb => hlive.block b hb, fun hb => hcore.held (.block b) hb⟩
  · intro a hd hhd
    refine ⟨rest a, hcore.list a hd.head ?_⟩
    rw [firstOf, hhd]
    rfl
  · intro a
    rw [htree, hhead]
  · intro a
    rw [htree]
    constructor
    · intro ha
      obtain ⟨p, hp, hpos⟩ := hlive.head a ha
      obtain ⟨hd, hhd, hseg⟩ := hcore.seg ha
      exact ⟨p, ⟨hd, chain rest a, hhd, hseg, hp⟩, hpos⟩
    · rintro ⟨p, ⟨hd, xs, hhd, -, -⟩, -⟩
      rw [hashOf, hhd]
      rfl

/-! ### One call -/

variable {p : NodeAddr} {k : Nat}

theorem asked_got {s' : Share} {str : List Byte} {slen nullSize : BitVec 32}
    (hasked : ∀ q, 0 < u.held q → ∃ n, u.share.node q = some n ∧ n.bytes = u.asked q)
    {rest' : Addr → List Addr} (hcore : Core s' rest' (acquire u.held p))
    (hstr : HoldsString s' p str slen) (hold : OnlyNew u.share s' p str nullSize) :
    ∀ q, 0 < acquire u.held p q → ∃ n, s'.node q = some n ∧
      n.bytes = update u.asked p str q := by
  intro q hq
  by_cases hqp : q = p
  · subst hqp
    obtain ⟨n, hn, -, hb⟩ := hstr
    exact ⟨n, hn, by rw [update_self, hb]⟩
  obtain ⟨n', hn'⟩ := isSome_iff_exists.mp (hcore.held q hq)
  rw [acquire, update_of_ne hqp] at hq
  obtain ⟨m, hm, hmb⟩ := hasked q hq
  rcases hold q n' hn' with ⟨n, hn, hc⟩ | ⟨heq, -⟩
  · rw [hm] at hn
    obtain rfl := some.inj hn
    exact ⟨n', hn', by rw [(Node.same_of_content hc).2, hmb, update_of_ne hqp]⟩
  · exact absurd heq hqp

/-- **Every call that may be made can be made, answers as it should and keeps the invariant.** -/
theorem step_inv (u : Use) (_ : Unit) (op : Op) (h : Inv u) (hop : u.Within op) :
    ∃ u' r, ∃ _ : Unit, u.step op = some (u', r) ∧ Answered op r ∧ Inv u' := by
  obtain ⟨rest, hcore, hlive, hasked⟩ := h
  obtain ⟨hlegal, hshort, hfew⟩ := hop
  cases op with
  | addLength str slen nullSize mem =>
    obtain ⟨hstr, hfresh⟩ := hlegal
    by_cases hslen : slen = 0
    · have heq : u.share.addLength (some str) slen nullSize mem = some (u.share, none) := by
        rw [addLength]
        simp only [if_pos hslen]
      exact ⟨u, .str none, (), by rw [step, heq]; rfl, fun _ => .inl hslen,
        rest, hcore, hlive, hasked⟩
    rcases addLength_spec hcore hlive hstr hslen hshort hfresh with
      ⟨hmem, s', rest', heq, hcore', hlive', hnodes⟩ | ⟨s', p, heq, hacq, hholds, hold⟩
    · refine ⟨{ u with share := s' }, .str none, (), by rw [step, heq]; rfl, fun _ => .inr hmem,
        rest', hcore', hlive', ?_⟩
      intro q hq
      obtain ⟨n, hn, hb⟩ := hasked q hq
      obtain ⟨n', hn'⟩ := isSome_iff_exists.mp (hcore'.held q hq)
      obtain ⟨m, hm, hc⟩ := hnodes.some hn'
      rw [hn] at hm
      obtain rfl := some.inj hm
      exact ⟨n', hn', by rw [(Node.same_of_content hc).2, hb]⟩
    · have hstep : u.step (.addLength str slen nullSize mem) =
          some (u.got s' (some p) (str.take slen.toNat), .str (some p)) := by
        rw [step, heq]
        rfl
      have hlt : acquire u.held p p < 2 ^ 32 := hfew _ _ hstep p
      rw [acquire, update_self] at hlt
      obtain ⟨rest', hcore', hlive'⟩ := hacq.inv hlt
      exact ⟨_, _, (), hstep, fun hr => absurd (Answer.str.inj hr) (some_ne_none p),
        rest', hcore', hlive', asked_got hasked hcore' hholds hold⟩
  | ref p =>
    have hp : 0 < u.held p := hlegal
    obtain ⟨s', heq, hacq, hnodes, -⟩ := addReference_spec hcore hlive (hcore.held p hp)
    have hstep : u.step (.ref p) =
        some ({ u with share := s', held := acquire u.held p }, .str (some p)) := by
      rw [step, ref, heq]
      rfl
    have hlt : acquire u.held p p < 2 ^ 32 := hfew _ _ hstep p
    rw [acquire, update_self] at hlt
    obtain ⟨rest', hcore', hlive'⟩ := hacq.inv hlt
    refine ⟨_, _, (), hstep, rfl, rest', hcore', hlive', ?_⟩
    intro q hq
    have hq : 0 < acquire u.held p q := hq
    obtain ⟨n', hn'⟩ := isSome_iff_exists.mp (hcore'.held q hq)
    obtain ⟨m, hm, hc⟩ := hnodes.some hn'
    have hqold : 0 < u.held q := by
      by_cases hqp : q = p
      · rw [hqp]
        exact hp
      · rwa [acquire, update_of_ne hqp] at hq
    obtain ⟨n, hn, hb⟩ := hasked q hqold
    rw [hn] at hm
    obtain rfl := some.inj hm
    exact ⟨n', hn', by rw [(Node.same_of_content hc).2, hb]⟩
  | del p =>
    have hp : 0 < u.held p := hlegal
    obtain ⟨s', rest', heq, hcore', hlive', hnone⟩ := del_spec hcore hlive hp
    refine ⟨{ u with share := s', held := giveBack u.held p }, .bool true, (),
      by rw [step, heq]; rfl, rfl, rest', hcore', hlive', ?_⟩
    intro q hq
    have hq : 0 < giveBack u.held p q := hq
    obtain ⟨n', hn'⟩ := isSome_iff_exists.mp (hcore'.held q hq)
    obtain ⟨m, hm, hc⟩ := hnone q n' hn'
    have hqold : 0 < u.held q := by
      by_cases hqp : q = p
      · rw [hqp]
        exact hp
      · rwa [giveBack, update_of_ne hqp] at hq
    obtain ⟨n, hn, hb⟩ := hasked q hqold
    rw [hn] at hm
    obtain rfl := some.inj hm
    exact ⟨n', hn', by rw [(Node.same_of_content hc).2, hb]⟩

/-! ### Runs -/

theorem held_step {u u' : Use} {op : Op} {r : Answer} (h : u.step op = some (u', r))
    (p : NodeAddr) : u'.held p ≤ u.held p + 1 := by
  have hacq : ∀ q, acquire u.held q p ≤ u.held p + 1 := by
    intro q
    by_cases hp : p = q
    · rw [hp, acquire, update_self]
    · rw [acquire, update_of_ne hp]
      exact Nat.le_succ _
  cases op with
  | addLength str slen nullSize mem =>
    obtain ⟨⟨s', q⟩, -, heq⟩ := map_eq_some_iff.mp h
    obtain ⟨rfl, -⟩ := Prod.mk.inj heq
    cases q with
    | none => exact Nat.le_succ _
    | some q => exact hacq q
  | ref q =>
    obtain ⟨⟨s', q'⟩, -, heq⟩ := map_eq_some_iff.mp h
    obtain ⟨rfl, -⟩ := Prod.mk.inj heq
    exact hacq q
  | del q =>
    obtain ⟨⟨s', b⟩, -, heq⟩ := map_eq_some_iff.mp h
    obtain ⟨rfl, -⟩ := Prod.mk.inj heq
    show giveBack u.held q p ≤ _
    by_cases hp : p = q
    · rw [hp, giveBack, update_self]
      omega
    · rw [giveBack, update_of_ne hp]
      exact Nat.le_succ _

theorem meets_of_length {ops : List Op} {u : Use} (hk : ∀ p, u.held p ≤ k)
    (hlen : k + ops.length < 2 ^ 32)
    (hops : Runs.Meets (fun u op => u.Legal op ∧ Short op) step u ops) :
    Runs.Meets Within step u ops := by
  refine Runs.meets_of_grows (fun u k => ∀ p, u.held p ≤ k) ?_ ?_ hk hlen hops
  · intro u op k q hk hstep p
    exact (held_step hstep p).trans (Nat.add_le_add_right (hk p) 1)
  · rintro u op k hk hlt ⟨hlegal, hop⟩
    refine ⟨hlegal, hop, fun u' r hstep p => ?_⟩
    have hheld := held_step hstep p
    have hp := hk p
    omega

/-- Two strings with one hash; the first one is given back, and asked for again. -/
def sampleOps : List Op :=
  [.addLength [70] 1 1 (some 0), .addLength [97, 78] 2 1 (some 1), .ref (.block 1),
    .del (.builtin 0), .addLength [70, 71] 1 1 none, .del (.block 1), .del (.block 1)]

end Use

end Eina.Share
