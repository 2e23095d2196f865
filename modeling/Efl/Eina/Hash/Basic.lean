/-
`eina_hash.c`: a bucket array of trees of heads, each head with a tree of elements.

Heads and elements are linked into the trees by their addresses, so the memory of a hash is a map
from addresses to heads and one to elements.  An address is never handed out twice; `freedHeads`
and `freedElements` remember what was given back.  The trees are those of `Rbtree/Bounded.lean`,
whose insertion and removal are undefined when they would overrun their stack.

A key stands for the pointer together with the length `key_length_cb` gives it, and `keyCmp` for
`key_cmp_cb` on two of those.  A null pointer is `none`.
-/
import Mathlib.Data.Finset.Card
import Efl.Eina.Rbtree.Bounded

namespace Eina

open RedBlack Rbtree Function

namespace Hash

abbrev Addr := Nat

/-- `key_cmp_cb` and `key_hash_cb`; the second is an `int`. -/
structure Callbacks (Key : Type) where
  keyCmp : Key → Key → Int
  keyHash : Key → BitVec 32

/-- `struct _Eina_Hash_Element`: the tuple of an element. -/
structure Element (Key Data : Type) where
  key : Key
  data : Data

/-- `struct _Eina_Hash_Head`; `hash` holds what `EINA_HASH_RBTREE_MASK` leaves, 16 bits. -/
structure Head where
  head : Tree Addr
  hash : BitVec 16

end Hash

open Hash

/-- `struct _Eina_Hash` and the heads and elements it has allocated. -/
structure Hash (Key Data : Type) where
  buckets : Option (Nat → Tree Addr)
  population : Nat
  bucketsPowerSize : Nat
  head : Addr → Head
  element : Addr → Element Key Data
  next : Addr
  freedHeads : Finset Addr
  freedElements : Finset Addr

namespace Hash

variable {Key Data : Type}

/-- `eina_hash_population`: the number is stored in an `unsigned int` and returned as an `int`. -/
def returnedPopulation (h : Hash Key Data) : Int := (BitVec.ofNat 32 h.population).toInt

theorem returnedPopulation_eq {h : Hash Key Data} (hsmall : h.population < 2 ^ 31) :
    h.returnedPopulation = h.population := by
  unfold returnedPopulation
  rw [BitVec.toInt_ofNat']
  exact Int.bmod_eq_of_le (by omega) (by omega)

/-- `eina_hash_new`, on memory of any content. -/
def new (bucketsPowerSize : Nat) (head : Addr → Head) (element : Addr → Element Key Data) :
    Option (Hash Key Data) :=
  if bucketsPowerSize ≤ 2 then none
  else if bucketsPowerSize ≥ 17 then none
  else some ⟨none, 0, bucketsPowerSize, head, element, 0, ∅, ∅⟩

/-! ### The comparisons -/

/-- `_eina_hash_hash_rbtree_cmp_hash`; both sides are below 2 ^ 16, so `-` does not wrap. -/
def cmpHash (head : Addr → Head) (hash : BitVec 16) (hashHead : Addr) : Int :=
  ((head hashHead).hash.toNat : Int) - hash.toNat

/-- `_eina_hash_hash_rbtree_cmp_node` -/
def cmpHashNode (head : Addr → Head) (left right : Addr) : Direction :=
  if ((head left).hash.toNat : Int) - (head right).hash.toNat < 0 then .left else .right

/-- `_eina_hash_key_rbtree_cmp_key_data` -/
def cmpKeyData [DecidableEq Data] (cb : Callbacks Key) (element : Addr → Element Key Data)
    (key : Key) (data : Option Data) (hashElement : Addr) : Int :=
  let result := cb.keyCmp (element hashElement).key key
  if result = 0 ∧ data ≠ none ∧ data ≠ some (element hashElement).data then 1 else result

/-- `_eina_hash_key_rbtree_cmp_node` -/
def cmpKeyNode (cb : Callbacks Key) (element : Addr → Element Key Data) (left right : Addr) :
    Direction :=
  if cb.keyCmp (element left).key (element right).key < 0 then .left else .right

variable (cb : Callbacks Key) (h : Hash Key Data)

/-- `hash->size` -/
def size : Nat := 2 ^ h.bucketsPowerSize

/-- `key_hash & hash->mask` -/
def hashNum (keyHash : BitVec 32) : Nat :=
  (keyHash &&& BitVec.ofNat 32 (h.size - 1)).toNat

/-- `(key_hash >> hash->buckets_power_size) & EINA_HASH_RBTREE_MASK` -/
def rbHash (keyHash : BitVec 32) : BitVec 16 :=
  (keyHash.sshiftRight h.bucketsPowerSize).setWidth 16

/-! ### Adding -/

/-- The head of `key_hash`, allocated and linked if there is none. -/
def headFor (keyHash : BitVec 32) : Option (Hash Key Data × Addr) :=
  let num := h.hashNum keyHash
  let hash := h.rbHash keyHash
  let buckets := h.buckets.getD fun _ => .nil
  match inlineLookup (cmpHash h.head hash) (buckets num) with
  | some hashHead => some ({ h with buckets := some buckets }, hashHead)
  | none => do
    let hashHead := h.next
    let head := update h.head hashHead ⟨.nil, hash⟩
    let bucket ← boundedInsert (cmpHashNode head) (buckets num) hashHead
    return ({ h with
      buckets := some (update buckets num bucket)
      head := head
      next := h.next + 1 }, hashHead)

/-- The new element, allocated and linked below a head. -/
def addElement (hashHead : Addr) (key : Key) (data : Data) : Option (Hash Key Data) := do
  let hashElement := h.next
  let element := update h.element hashElement ⟨key, data⟩
  let head ← boundedInsert (cmpKeyNode cb element) (h.head hashHead).head hashElement
  return { h with
    head := update h.head hashHead { h.head hashHead with head := head }
    element := element
    next := h.next + 1
    population := h.population + 1 }

/-- `eina_hash_add_alloc_by_hash` -/
def addAllocByHash (key : Key) (keyHash : BitVec 32) (data : Option Data) :
    Option (Hash Key Data × Bool) :=
  match data with
  | none => some (h, false)
  | some data => do
    let (h, hashHead) ← h.headFor keyHash
    let h ← h.addElement cb hashHead key data
    return (h, true)

/-- `eina_hash_add` -/
def add (key : Key) (data : Option Data) : Option (Hash Key Data × Bool) :=
  h.addAllocByHash cb key (cb.keyHash key) data

/-! ### Finding -/

/-- `_eina_hash_find_by_hash`: the head and the element. -/
def findByHash [DecidableEq Data] (key : Key) (data : Option Data) (keyHash : BitVec 32) :
    Option (Addr × Addr) := do
  let buckets ← h.buckets
  let hashHead ← inlineLookup (cmpHash h.head (h.rbHash keyHash)) (buckets (h.hashNum keyHash))
  let hashElement ← inlineLookup (cmpKeyData cb h.element key data) (h.head hashHead).head
  return (hashHead, hashElement)

/-- `eina_hash_find` -/
def find [DecidableEq Data] (key : Key) : Option Data :=
  if h.population = 0 then none
  else (h.findByHash cb key none (cb.keyHash key)).map fun p => (h.element p.2).data

/-- `_eina_hash_find_by_data`: the bucket, the head and the element of the first match. -/
def findByData [DecidableEq Data] (data : Data) : Option (Nat × Addr × Addr) := do
  let buckets ← h.buckets
  (List.range h.size).findSome? fun num =>
    (prefixOrder (buckets num)).findSome? fun hashHead =>
      ((prefixOrder (h.head hashHead).head).find? fun e => (h.element e).data = data).map
        fun e => (num, hashHead, e)

/-! ### Deleting -/

/-- A head without elements is unlinked and freed. -/
def dropHead (hashHead : Addr) (keyHash : BitVec 32) : Option (Hash Key Data) := do
  let buckets ← h.buckets
  let num := h.hashNum keyHash
  let bucket ← boundedRemove (cmpHashNode h.head) (buckets num) hashHead
  return { h with
    buckets := some (update buckets num bucket)
    freedHeads := insert hashHead h.freedHeads }

/-- The element is subtracted and freed; with the last one the bucket array goes. -/
def forget (hashElement : Addr) : Hash Key Data :=
  { h with
    population := h.population - 1
    buckets := if h.population - 1 = 0 then none else h.buckets
    freedElements := insert hashElement h.freedElements }

/-- `_eina_hash_del_by_hash_el` -/
def delByHashEl (hashElement hashHead : Addr) (keyHash : BitVec 32) : Option (Hash Key Data) := do
  let head ← boundedRemove (cmpKeyNode cb h.element) (h.head hashHead).head hashElement
  let h := { h with head := update h.head hashHead { h.head hashHead with head := head } }
  let h ← if head = .nil then h.dropHead hashHead keyHash else some h
  return h.forget hashElement

/-- `_eina_hash_del_by_key`; `eina_hash_del_by_key` passes no data. -/
def delByKey [DecidableEq Data] (key : Key) (data : Option Data) :
    Option (Hash Key Data × Bool) :=
  match h.findByHash cb key data (cb.keyHash key) with
  | none => some (h, false)
  | some (hashHead, hashElement) => do
    let h ← h.delByHashEl cb hashElement hashHead (cb.keyHash key)
    return (h, true)

/-- `eina_hash_del_by_data` -/
def delByData [DecidableEq Data] (data : Option Data) : Option (Hash Key Data × Bool) :=
  match data with
  | none => some (h, false)
  | some data =>
    match h.findByData data with
    | none => some (h, false)
    | some (num, hashHead, hashElement) => do
      let h ← h.delByHashEl cb hashElement hashHead (BitVec.ofNat 32 num)
      return (h, true)

/-- `eina_hash_del` -/
def del [DecidableEq Data] (key : Option Key) (data : Option Data) :
    Option (Hash Key Data × Bool) :=
  match key with
  | none => h.delByData cb data
  | some key => h.delByKey cb key data

/-! ### Changing -/

/-- `eina_hash_modify` -/
def modify [DecidableEq Data] (key : Key) (data : Option Data) : Hash Key Data × Option Data :=
  match data with
  | none => (h, none)
  | some data =>
    match h.findByHash cb key none (cb.keyHash key) with
    | none => (h, none)
    | some (_, e) =>
      ({ h with element := update h.element e { h.element e with data := data } },
        some (h.element e).data)

/-- `eina_hash_set` -/
def set [DecidableEq Data] (key : Key) (data : Option Data) :
    Option (Hash Key Data × Option Data) :=
  match h.findByHash cb key none (cb.keyHash key) with
  | some (hashHead, e) =>
    match data with
    | some data =>
      some ({ h with
        element := update h.element e { h.element e with data := data } },
        some (h.element e).data)
    | none => do
      let h' ← h.delByHashEl cb e hashHead (cb.keyHash key)
      return (h', some (h.element e).data)
  | none =>
    match data with
    | none => some (h, none)
    | some data => do
      let (h, _) ← h.addAllocByHash cb key (cb.keyHash key) (some data)
      return (h, none)

/-- `eina_hash_move` -/
def move [DecidableEq Data] (oldKey newKey : Key) : Option (Hash Key Data × Bool) :=
  match h.find cb oldKey with
  | none => some (h, false)
  | some data => do
    let (h, _) ← h.del cb (some oldKey) (some data)
    h.add cb newKey (some data)

end Hash

end Eina
