/-
`eina_share_common.c`: strings kept once and counted.

A share has 256 buckets.  A bucket is a tree of heads, and a head has a list of the
nodes whose strings hash to it.  The first node of a head is part of the head itself
(`builtin_node`); the others are blocks of their own.  A pointer to a string is a
pointer to its node plus a constant, so `NodeAddr` stands for both.

What `malloc` gives out is an argument of the calls that allocate, a null pointer
being `none`.  Reading what is not there is undefined, and so is `memcpy` with a
negative length or into a block that is too small.

The lists are followed node by node.  `allocs` counts the nodes that were ever made;
no list is longer, and so a walk along one is allowed that many steps.
-/
import Efl.Eina.Rbtree.Keyed
import Efl.Lib.Forward

namespace Eina

open RedBlack Rbtree Function

/-! ### `eina_hash_superfast` -/

namespace Superfast

abbrev Byte := BitVec 8

def get16bits (a b : Byte) : BitVec 64 := (b.setWidth 64 <<< 8) + a.setWidth 64

/-- The main loop: four bytes at a time, and what is left of the key. -/
def loop : Nat → BitVec 64 → List Byte → BitVec 64 × List Byte
  | n + 1, hash, a :: b :: c :: d :: key =>
    let hash := hash + get16bits a b
    let tmp := (get16bits c d <<< 11) ^^^ hash
    let hash := (hash <<< 16) ^^^ tmp
    loop n (hash + (hash >>> 11)) key
  | _, hash, key => (hash, key)

/-- The end cases; a `char` is signed. -/
def tail (rem : Nat) (hash : BitVec 64) (key : List Byte) : BitVec 64 :=
  match rem, key with
  | 3, a :: b :: c :: _ =>
    let hash := hash + get16bits a b
    let hash := hash ^^^ (hash <<< 16)
    let hash := hash ^^^ (c.signExtend 64 <<< 18)
    hash + (hash >>> 11)
  | 2, a :: b :: _ =>
    let hash := hash + get16bits a b
    let hash := hash ^^^ (hash <<< 11)
    hash + (hash >>> 17)
  | 1, a :: _ =>
    let hash := hash + a.signExtend 64
    let hash := hash ^^^ (hash <<< 10)
    hash + (hash >>> 1)
  | _, _ => hash

/-- "Force avalanching" -/
def avalanche (hash : BitVec 64) : BitVec 64 :=
  let hash := hash ^^^ (hash <<< 3)
  let hash := hash + (hash >>> 5)
  let hash := hash ^^^ (hash <<< 4)
  let hash := hash + (hash >>> 17)
  let hash := hash ^^^ (hash <<< 25)
  hash + (hash >>> 6)

end Superfast

open Superfast

/-- `eina_hash_superfast`; the length is an `int`. -/
def hashSuperfast (key : List Byte) (len : BitVec 32) : BitVec 32 :=
  let (hash, key) := loop (len.sshiftRight 2).toInt.toNat (len.signExtend 64) key
  (avalanche (tail (len &&& 3).toNat hash key)).setWidth 32

namespace Share

abbrev Addr := Nat

/-- Where a node lies: inside its head, or in a block of its own. -/
inductive NodeAddr where
  | builtin (head : Addr)
  | block (addr : Addr)
deriving DecidableEq

/-- `struct _Eina_Share_Common_Node` -/
structure Node where
  next : Option NodeAddr
  length : BitVec 32
  references : BitVec 32
  str : List Byte
deriving DecidableEq

/-- `struct _Eina_Share_Common_Head` -/
structure Head where
  hash : BitVec 32
  head : Option NodeAddr
  builtinNode : Node

/-- The bytes of a node without its terminator. -/
def Node.bytes (n : Node) : List Byte := n.str.take n.length.toNat

/-- `EINA_SHARE_COMMON_BUCKET_IDX` -/
def bucketIdx (h : BitVec 32) : BitVec 8 := (h.sshiftRight 8).setWidth 8

/-- `EINA_SHARE_COMMON_NODE_HASH` -/
def nodeHash (h : BitVec 32) : BitVec 8 := h.setWidth 8

end Share

open Share

/-- `struct _Eina_Share`, with the heads and blocks that are allocated. -/
structure Share where
  buckets : BitVec 8 → Tree Addr
  head : Addr → Option Head
  block : Addr → Option Node
  allocs : Nat

namespace Share

/-- `eina_share_common_init` -/
def new : Share := ⟨fun _ => .nil, fun _ => none, fun _ => none, 0⟩

/-! ### Reading and writing nodes -/

def node (s : Share) : NodeAddr → Option Node
  | .builtin a => (s.head a).map Head.builtinNode
  | .block b => s.block b

def next (s : Share) (p : NodeAddr) : Option (Option NodeAddr) := (s.node p).map Node.next

def setNode (s : Share) (p : NodeAddr) (n : Node) : Share :=
  match p with
  | .builtin a =>
    { s with head := update s.head a ((s.head a).map fun hd =>
      { hd with builtinNode := n }) }
  | .block b => { s with block := update s.block b (some n) }

/-- `head->head = p` -/
def setFirst (s : Share) (a : Addr) (p : Option NodeAddr) : Share :=
  { s with head := update s.head a ((s.head a).map fun hd => { hd with head := p }) }

/-- `p->next = q` -/
def setNext (s : Share) (p : NodeAddr) (q : Option NodeAddr) : Option Share :=
  (s.node p).map fun n => s.setNode p { n with next := q }

/-! ### Heads -/

/-- The hash of a head as its tree compares it. -/
def headKey (head : Addr → Option Head) (a : Addr) : Int :=
  match head a with
  | some hd => (nodeHash hd.hash).toNat
  | none => 0

/-- `_eina_share_common_cmp` -/
def cmp (head : Addr → Option Head) (hash : BitVec 8) (ed : Addr) : Int :=
  headKey head ed - hash.toNat

/-- `_eina_share_common_node` -/
def cmpNode (head : Addr → Option Head) (left right : Addr) : Direction :=
  if headKey head left - headKey head right < 0 then .left else .right

/-- `_eina_share_common_find_hash` -/
def findHash (s : Share) (bucket hash : BitVec 8) : Option Addr :=
  inlineLookup (cmp s.head hash) (s.buckets bucket)

/-- `offsetof(Eina_Share_Common_Head, builtin_node.str)` -/
def headSize : Nat := 60

/--
`_eina_share_common_head_alloc`, whose length is an `int`: the head and the bytes that
follow the fixed part.  A negative size is, as a `size_t`, larger than any object.
-/
def headAlloc (slen : BitVec 32) (mem : Option Addr) : Option (Addr × Nat) :=
  if (headSize : Int) + slen.toInt < 0 then none
  else mem.map fun a => (a, (headSize + slen.toInt).toNat - headSize)

/-- `_eina_share_common_node_init`, whose length is an `int`, on a block with `room` bytes. -/
def nodeInit (next : Option NodeAddr) (room : Nat) (str : List Byte)
    (slen nullSize : BitVec 32) : Option Node :=
  if slen.toInt < 0 ∨ room < slen.toNat + nullSize.toNat then none
  else some ⟨next, slen, 1, str ++ List.replicate nullSize.toNat 0⟩

/-- `_eina_share_common_add_head` -/
def addHead (s : Share) (hash : BitVec 32) (str : List Byte) (slen nullSize : BitVec 32)
    (mem : Option Addr) : Option (Share × Option NodeAddr) :=
  match headAlloc (slen + nullSize) mem with
  | none => some (s, none)
  | some (a, room) =>
    (nodeInit none room str slen nullSize).bind fun n =>
      let head := update s.head a (some ⟨hash, some (.builtin a), n⟩)
      (boundedInsert (cmpNode head) (s.buckets (bucketIdx hash)) a).map fun bucket =>
        ({ s with
            buckets := update s.buckets (bucketIdx hash) bucket
            head := head
            allocs := s.allocs + 1 },
          some (.builtin a))

/-- `_eina_share_common_del_head` -/
def delHead (s : Share) (bucket : BitVec 8) (a : Addr) : Option Share :=
  (boundedRemove (cmpNode s.head) (s.buckets bucket) a).map fun t =>
    { s with
      buckets := update s.buckets bucket t
      head := update s.head a none }

/-! ### The list of a head -/

/-- `_eina_share_common_node_eq` -/
def nodeEq (s : Share) (str : List Byte) (slen : BitVec 32) (p : NodeAddr) : Bool :=
  match s.node p with
  | some n => n.length == slen && n.str.take slen.toNat == str
  | none => false

/-- The node found goes to the front, if it is not the last one. -/
def promote (s : Share) (a : Addr) (prev el : NodeAddr) : Option Share :=
  (s.next el).bind fun n =>
    match n with
    | none => some s
    | some _ =>
      (s.setNext prev n).bind fun s =>
        (s.head a).bind fun hd =>
          (s.setNext el hd.head).map fun s => s.setFirst a (some el)

/-- `_eina_share_common_head_find` -/
def headFind (s : Share) (a : Addr) (str : List Byte) (slen : BitVec 32) :
    Option (Share × Option NodeAddr) :=
  (s.head a).bind fun hd => hd.head.bind fun first =>
    (Forward.search s.next (s.nodeEq str slen) (s.allocs + 1) none (some first)).bind fun found =>
      match found with
      | none => some (s, none)
      | some (none, el) => some (s, some el)
      | some (some prev, el) => (s.promote a prev el).map fun s => (s, some el)

/-- `_eina_share_common_head_remove_node` -/
def headRemoveNode (s : Share) (a : Addr) (p : NodeAddr) : Option (Share × Bool) :=
  (s.head a).bind fun hd => hd.head.bind fun first =>
    (Forward.search s.next (fun q => q == p) (s.allocs + 1) none (some first)).bind fun found =>
      match found with
      | none => some (s, false)
      | some (none, el) => (s.next el).map fun n => (s.setFirst a n, true)
      | some (some prev, el) =>
        (s.next el).bind fun n => (s.setNext prev n).map fun s => (s, true)

/-- `_eina_share_common_head_from_node`: the last node of every list is part of its head. -/
def headFromNode (s : Share) (p : NodeAddr) : Option Addr :=
  (Forward.lastOf s.next (s.allocs + 1) p).bind fun last =>
    match last with
    | .builtin a => some a
    | .block _ => none

/-! ### The calls -/

/-- The part of `eina_share_common_add_length` for a string no node of the head has. -/
def addNode (s : Share) (a : Addr) (str : List Byte) (slen nullSize : BitVec 32)
    (mem : Option Addr) : Option (Share × Option NodeAddr) :=
  match mem with
  | none => some (s, none)
  | some b =>
    (s.head a).bind fun ed =>
      (nodeInit ed.head (slen.toNat + nullSize.toNat) str slen nullSize).map fun el =>
        ({ s.setNode (.block b) el with allocs := s.allocs + 1 }.setFirst a (some (.block b)),
          some (.block b))

/-- `p->references++` -/
def addReference (s : Share) (p : NodeAddr) : Option Share :=
  (s.node p).map fun n => s.setNode p { n with references := n.references + 1 }

/-- `eina_share_common_add_length`; of the string only the first `slen` bytes are read. -/
def addLength (s : Share) (str : Option (List Byte)) (slen nullSize : BitVec 32)
    (mem : Option Addr) : Option (Share × Option NodeAddr) :=
  match str with
  | none => some (s, none)
  | some str =>
    if slen = 0 then some (s, none)
    else
      let str := str.take slen.toNat
      let hash := hashSuperfast str slen
      match s.findHash (bucketIdx hash) (nodeHash hash) with
      | none => s.addHead hash str slen nullSize mem
      | some ed =>
        (s.headFind ed str slen).bind fun (s, el) =>
          match el with
          | some el => (s.addReference el).map fun s => (s, some el)
          | none => s.addNode ed str slen nullSize mem

/-- `eina_share_common_ref` -/
def ref (s : Share) (str : Option NodeAddr) : Option (Share × Option NodeAddr) :=
  match str with
  | none => some (s, none)
  | some p => (s.addReference p).map fun s => (s, some p)

/-- `MAGIC_FREE(node)`; a builtin node is not a block that can be given back. -/
def freeNode (s : Share) (p : NodeAddr) : Option Share :=
  match p with
  | .builtin _ => none
  | .block b => some { s with block := update s.block b none }

/-- A node other than the builtin one is unlinked and freed; `none` inside is `on_error`. -/
def dropNode (s : Share) (ed : Addr) (p : NodeAddr) : Option (Option Share) :=
  if p = .builtin ed then some (some s)
  else
    (s.headRemoveNode ed p).bind fun (s, removed) =>
      if removed then (s.freeNode p).map some else some none

/-- `if (!ed->head || ed->head->references == 0) _eina_share_common_del_head(p_bucket, ed);` -/
def dropHead (s : Share) (ed : Addr) : Option Share :=
  (s.head ed).bind fun hd =>
    match hd.head with
    | none => s.delHead (bucketIdx hd.hash) ed
    | some first =>
      (s.node first).bind fun n =>
        if n.references = 0 then s.delHead (bucketIdx hd.hash) ed else some s

/-- The part of `eina_share_common_del` for the last reference. -/
def release (s : Share) (p : NodeAddr) : Option (Share × Bool) :=
  (s.headFromNode p).bind fun ed =>
    (s.dropNode ed p).bind fun r =>
      match r with
      | none => some (s, false)
      | some s => (s.dropHead ed).map fun s => (s, true)

/-- `eina_share_common_del` -/
def del (s : Share) (str : Option NodeAddr) : Option (Share × Bool) :=
  match str with
  | none => some (s, true)
  | some p =>
    (s.node p).bind fun n =>
      if 1 < n.references then
        some (s.setNode p { n with references := n.references - 1 }, true)
      else (s.setNode p { n with references := 0 }).release p

end Share

end Eina
