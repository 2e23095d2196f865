/-
The string share as a program uses it.

`Use` is the share with what the program knows: how often it holds each pointer, and
the string it asked for when it got it.  `Exact` says that every held pointer is one
to its string and a terminator, and that pointers are equal exactly if the strings
are.

The condition on a call (`Within`) leaves out what goes wrong.  A single byte from
0x80 on is a negative `char`, and the address of its string lies before the table.  A
string that is too long for an `int` passes through one on its way to `malloc` and
`memcpy`, and `eina_stringshare_add` cuts its length to 32 bits.  A counter wraps after
2 ^ 32 holds.  And when a small bucket gives back memory, it forgets that its first
array has shrunk if the `realloc` of another one fails.
-/
import Efl.Eina.Stringshare.Small

namespace Eina.Stringshare

open Superfast Share BitVec

/-- The share, the holds of the program, and the strings it asked for. -/
structure Use where
  shares : Stringshare
  held : Ptr → Nat
  asked : Ptr → List Byte

inductive Op where
  | add (str : List Byte) (mem : Memory)
  | addLength (str : List Byte) (slen : BitVec 32) (mem : Memory)
  | ref (p : Ptr) (mem : Memory)
  | del (p : Ptr) (mem : Memory)

inductive Answer where
  | str (p : Option Ptr)
  | bool (b : Bool)
deriving DecidableEq

namespace Use

def new : Use := ⟨Stringshare.new, fun _ => 0, fun _ => []⟩

/-- The program gets `p` for a string. -/
def got (u : Use) (s : Stringshare) (p : Option Ptr) (str : List Byte) : Use :=
  match p with
  | none => { u with shares := s }
  | some p => ⟨s, acquire u.held p, Function.update u.asked p str⟩

def step (u : Use) : Op → Option (Use × Answer)
  | .add str mem => (u.shares.add (some str) mem).map fun (s, p) => (u.got s p str, .str p)
  | .addLength str slen mem =>
    (u.shares.addLength (some str) slen mem).map fun (s, p) =>
      (u.got s p (str.take slen.toNat), .str p)
  | .ref p mem =>
    (u.shares.ref (some p) mem).map fun (s, q) => (u.got s q (u.asked p), .str q)
  | .del p mem =>
    (u.shares.del (some p) mem).map fun (s, b) =>
      ({ u with shares := s, held := giveBack u.held p }, .bool b)

/-! ### The calls a program may make -/

/-- `malloc` gives out memory that is not in use. -/
def Fresh (u : Use) (mem : Memory) : Prop :=
  ∀ a ∈ mem.block, u.shares.small.text a = none ∧ u.shares.share.head a = none ∧
    u.shares.share.block a = none

def Legal (u : Use) : Op → Prop
  | .add str mem => (0 : Byte) ∉ str ∧ u.Fresh mem
  | .addLength str slen mem =>
    slen.toNat ≤ str.length ∧ (0 : Byte) ∉ str.take slen.toNat ∧ u.Fresh mem
  | .ref p mem => 0 < u.held p ∧ u.Fresh mem
  | .del p _ => 0 < u.held p

/-- The string fits into an `int`, and is not one byte from 0x80 on. -/
def Kept (x : List Byte) : Prop :=
  x.length + 1 < 2 ^ 31 ∧ (x.length = 1 → ∀ c ∈ x, c.toNat < 128)

/-- A pointer whose holds are counted. -/
def Counted : Ptr → Prop
  | .empty => False
  | .single _ => False
  | .small _ => True
  | .node _ => True

/-- The strings a call is about, and the answers of the allocator, are not those that go wrong. -/
def Sound : Op → Prop
  | .add str _ => Kept str
  | .addLength str slen _ => Kept (str.take slen.toNat)
  | .ref _ _ => True
  | .del (.small _) mem => mem.ShrinksWhole
  | .del _ _ => True

/-- The condition on a call, made in the state it is made in. -/
def Within (u : Use) (op : Op) : Prop :=
  u.Legal op ∧ Sound op ∧
    ∀ u' r, u.step op = some (u', r) → ∀ p, Counted p → u'.held p < 2 ^ 32

/-! ### What the program may rely on -/

structure Exact (u : Use) : Prop where
  /-- A held pointer is one to its string and a terminator. -/
  terminated : ∀ p, 0 < u.held p → (0 : Byte) ∉ u.asked p ∧
    ∃ more, u.shares.memory p = some (u.asked p ++ 0 :: more)
  /-- Two held pointers are equal exactly if their strings are. -/
  pointers : ∀ p q, 0 < u.held p → 0 < u.held q → (p = q ↔ u.asked p = u.asked q)

/-- An addition is refused only with memory, and nothing else fails. -/
def Answered : Op → Answer → Prop
  | .add _ mem, r => r = .str none → ¬ mem.Granted
  | .addLength _ _ mem, r => r = .str none → ¬ mem.Granted
  | .ref p _, r => r = .str (some p)
  | .del _ _, r => r = .bool true

/-! ### The invariant -/

/-- The strings of the static pointers that were given out. -/
structure StaticOk (u : Use) : Prop where
  empty : 0 < u.held .empty → u.asked .empty = []
  single : ∀ o, 0 < u.held (.single o) → ∃ c : Byte, c ≠ 0 ∧ c.toNat < 128 ∧ o = 2 * c.toInt ∧
    u.asked (.single o) = [c]

/-- The strings of the nodes that are held. -/
structure NodesOk (u : Use) : Prop where
  terminated : ∀ p n, u.shares.share.node p = some n → n.str = n.bytes ++ [0]
  asked : ∀ p, 0 < u.held (.node p) → ∃ n, u.shares.share.node p = some n ∧
    n.bytes = u.asked (.node p) ∧ 4 ≤ (u.asked (.node p)).length ∧ (0 : Byte) ∉ u.asked (.node p)

/-- What every run keeps. -/
structure Inv (u : Use) : Prop where
  common : ∃ rest, Core u.shares.share rest (fun p => u.held (.node p)) ∧
    Live u.shares.share rest (fun p => u.held (.node p))
  small : ∃ list, SmallOk u.shares.small list (fun a => u.asked (.small a))
    (fun a => u.held (.small a))
  static : StaticOk u
  nodes : NodesOk u

theorem inv_new : Inv new := by
  refine ⟨⟨_, core_new, live_new⟩, ⟨_, smallOk_new⟩, ⟨?_, ?_⟩, ⟨?_, ?_⟩⟩
  · intro h
    exact absurd h (lt_irrefl 0)
  · intro o h
    exact absurd h (lt_irrefl 0)
  · intro p n hn
    cases p <;> exact absurd hn (by simp [new, Stringshare.new, Share.new, node])
  · intro p h
    exact absurd h (lt_irrefl 0)

theorem drop_pairs (is : List Nat) (k : Nat) :
    (is.flatMap fun i => [BitVec.ofNat 8 i, 0]).drop (2 * k) =
      (is.drop k).flatMap fun i => [BitVec.ofNat 8 i, 0] := by
  induction is generalizing k with
  | nil => simp
  | cons i is ih =>
    cases k with
    | zero => rfl
    | succ k =>
      rw [List.drop_succ_cons, ← ih, Nat.mul_succ]
      rfl

/-- In the table of the single bytes, a terminator follows every byte. -/
theorem drop_single (c : Byte) :
    ∃ more, single.drop (2 * c.toNat) = c :: 0 :: more := by
  have hlt : c.toNat < (List.range 256).length := by
    rw [List.length_range]
    exact c.isLt
  refine ⟨((List.range 256).drop (c.toNat + 1)).flatMap fun i => [BitVec.ofNat 8 i, 0], ?_⟩
  rw [single, drop_pairs, List.drop_eq_getElem_cons hlt, List.getElem_range, List.flatMap_cons,
    ofNat_toNat, setWidth_eq]
  rfl

theorem toInt_of_ascii {c : Byte} (h : c.toNat < 128) : c.toInt = c.toNat := by
  rw [toInt_eq_toNat_cond, if_pos (by omega)]

theorem Inv.memory {u : Use} (h : Inv u) {p : Ptr} (hp : 0 < u.held p) :
    (0 : Byte) ∉ u.asked p ∧ ∃ more, u.shares.memory p = some (u.asked p ++ 0 :: more) := by
  cases p with
  | empty =>
    rw [h.static.empty hp]
    exact ⟨by simp, [], rfl⟩
  | single o =>
    obtain ⟨c, hc0, hc, rfl, heq⟩ := h.static.single o hp
    obtain ⟨more, hmore⟩ := drop_single c
    have hint := toInt_of_ascii hc
    rw [heq]
    refine ⟨by simpa using hc0.symm, more, ?_⟩
    rw [Stringshare.memory, hint, if_pos (by omega),
      show (2 * (c.toNat : Int)).toNat = 2 * c.toNat by omega, hmore]
    rfl
  | small a =>
    obtain ⟨list, hs⟩ := h.small
    obtain ⟨c, hc⟩ := (hs.there a).mp ((hs.holds a).mp hp)
    obtain ⟨htext, hfits⟩ := hs.text c a hc
    exact ⟨hfits.1, [], htext⟩
  | node p =>
    obtain ⟨n, hn, hb, -, hnul⟩ := h.nodes.asked p hp
    refine ⟨hnul, [], ?_⟩
    rw [Stringshare.memory, hn, Option.map_some, h.nodes.terminated p n hn, hb]

theorem Inv.exact {u : Use} (h : Inv u) : Exact u := by
  refine ⟨fun p hp => h.memory hp, ?_⟩
  have hsmall : ∀ a, 0 < u.held (.small a) →
      (u.asked (.small a)).length = 2 ∨ (u.asked (.small a)).length = 3 := by
    intro a ha
    obtain ⟨list, hs⟩ := h.small
    obtain ⟨c, hc⟩ := (hs.there a).mp ((hs.holds a).mp ha)
    exact (hs.text c a hc).2.length
  have hlong : ∀ p, 0 < u.held (.node p) → 4 ≤ (u.asked (.node p)).length := by
    intro p hp
    obtain ⟨n, -, -, hlen, -⟩ := h.nodes.asked p hp
    exact hlen
  have hone : ∀ o, 0 < u.held (.single o) → (u.asked (.single o)).length = 1 := by
    intro o ho
    obtain ⟨c, -, -, -, heq⟩ := h.static.single o ho
    rw [heq]
    rfl
  have hempty : 0 < u.held .empty → (u.asked .empty).length = 0 := by
    intro he
    rw [h.static.empty he]
    rfl
  intro p q hp hq
  constructor
  · rintro rfl
    rfl
  · intro heq
    have hlen := congrArg List.length heq
    -- strings of different kinds have different lengths
    cases p with
    | empty =>
      cases q with
      | empty => rfl
      | single o' => have := hone o' hq; omega
      | small a' => have := hsmall a' hq; omega
      | node p' => have := hlong p' hq; omega
    | single o =>
      have hl := hone o hp
      cases q with
      | empty => have := hempty hq; omega
      | single o' =>
        obtain ⟨c, -, -, rfl, hc⟩ := h.static.single o hp
        obtain ⟨c', -, -, rfl, hc'⟩ := h.static.single o' hq
        rw [hc, hc'] at heq
        rw [List.singleton_inj.mp heq]
      | small a' => have := hsmall a' hq; omega
      | node p' => have := hlong p' hq; omega
    | small a =>
      have hl := hsmall a hp
      cases q with
      | empty => have := hempty hq; omega
      | single o' => have := hone o' hq; omega
      | small a' =>
        obtain ⟨list, hs⟩ := h.small
        rw [hs.name_injective hp hq heq]
      | node p' => have := hlong p' hq; omega
    | node p =>
      have hl := hlong p hp
      cases q with
      | empty => have := hempty hq; omega
      | single o' => have := hone o' hq; omega
      | small a' => have := hsmall a' hq; omega
      | node p' =>
        obtain ⟨rest, hcore, -⟩ := h.common
        obtain ⟨n, hn, hnb, -, -⟩ := h.nodes.asked p hp
        obtain ⟨m, hm, hmb, -, -⟩ := h.nodes.asked p' hq
        have hbytes : n.bytes = m.bytes := by rw [hnb, hmb, heq]
        have hlength : ∀ q k, u.shares.share.node q = some k →
            k.bytes.length = k.length.toNat := by
          intro q k hk
          rw [Node.bytes, List.length_take, min_eq_left (hcore.room q k hk)]
        have hsame : n.Same m := by
          refine ⟨eq_of_toNat_eq ?_, hbytes⟩
          rw [← hlength p n hn, ← hlength p' m hm, hbytes]
        rw [hcore.eq_of_same hn hm hsame]

end Use

end Eina.Stringshare
