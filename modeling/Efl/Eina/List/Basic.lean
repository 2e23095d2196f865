/-
The doubly linked lists of `eina_list.c` over a memory of nodes and accounting records.

Every node of a list points to one accounting record, which caches the last node and
the number of nodes.  Reading or writing through a null pointer, a node or a record
that was given back has no value (`none`), and so has a loop that does not end within
as many turns as there are addresses.  Allocation succeeds and returns an address
that was never used; `count` is a number without bound.
-/
import Efl.Lib.Chain

namespace Eina

open Chain Function

namespace Lists

abbrev Addr := Nat

/-- What a node carries besides its links. -/
structure Val (Data : Type) where
  data : Option Data
  accounting : Addr

/-- `Eina_List_Accounting` -/
structure Accounting where
  last : Option Addr
  count : Nat

/-- The nodes and records that are allocated; addresses from `next` on were never used. -/
structure Mem (Data : Type) where
  node : Heap Addr (Val Data)
  accounting : Addr → Option Accounting
  next : Addr

namespace Mem

variable {Data : Type} (m : Mem Data)

/-- `list->accounting` -/
def accountingOf (list : Addr) : Option Addr := (m.node list).map fun c => c.val.accounting

/-! Writes to a node. -/

def withNode (H : Heap Addr (Val Data)) : Mem Data := { m with node := H }

def setNext (x : Addr) (v : Option Addr) : Option (Mem Data) :=
  (Chain.setNext m.node x v).map m.withNode

def setPrev (x : Addr) (v : Option Addr) : Option (Mem Data) :=
  (Chain.setPrev m.node x v).map m.withNode

def setNextOf (p : Option Addr) (v : Option Addr) : Option (Mem Data) :=
  (Chain.setNextOf m.node p v).map m.withNode

def setPrevOf (p : Option Addr) (v : Option Addr) : Option (Mem Data) :=
  (Chain.setPrevOf m.node p v).map m.withNode

def setData (x : Addr) (v : Option Data) : Option (Mem Data) :=
  (Chain.modify m.node x fun c => { c with val := { c.val with data := v } }).map m.withNode

def setAccounting (x : Addr) (a : Addr) : Option (Mem Data) :=
  (Chain.modify m.node x fun c => { c with val := { c.val with accounting := a } }).map m.withNode

/-! Writes to an accounting record. -/

def modifyAccounting (a : Addr) (f : Accounting → Accounting) : Option (Mem Data) :=
  (m.accounting a).map fun r =>
    { m with accounting := update m.accounting a (some (f r)) }

def setLast (a : Addr) (v : Option Addr) : Option (Mem Data) :=
  m.modifyAccounting a fun r => { r with last := v }

def setCount (a : Addr) (n : Nat) : Option (Mem Data) :=
  m.modifyAccounting a fun r => { r with count := n }

/-! ### Allocation -/

/-- `_eina_list_mempool_list_new`, with the fields the caller sets next. -/
def listNew (c : Cell Addr (Val Data)) : Mem Data :=
  { m with node := update m.node m.next (some c), next := m.next + 1 }

/-- `_eina_list_mempool_accounting_new`, likewise. -/
def accountingNew (r : Accounting) : Mem Data :=
  { m with accounting := update m.accounting m.next (some r), next := m.next + 1 }

/-- `_eina_list_mempool_accounting_free` -/
def accountingFree (a : Addr) : Option (Mem Data) :=
  (m.accounting a).map fun _ =>
    { m with accounting := update m.accounting a none }

/-- `_eina_list_mempool_list_free` -/
def listFree (list : Addr) : Option (Mem Data) := do
  let a ← m.accountingOf list
  let r ← m.accounting a
  let m ← m.setCount a (r.count - 1)
  let m ← (if r.count - 1 = 0 then m.accountingFree a else some m)
  return { m with node := update m.node list none }

/-- `_eina_list_setup_accounting` of a new node: both are allocated here. -/
def setupAccounting (data : Option Data) : Mem Data × Option Addr :=
  let list := m.next
  ((m.listNew ⟨none, none, ⟨data, list + 1⟩⟩).accountingNew ⟨some list, 1⟩, some list)

/-- `list->accounting->count++` in `_eina_list_update_accounting` -/
def countUp (a : Addr) : Option (Mem Data) :=
  m.modifyAccounting a fun r => { r with count := r.count + 1 }

/-! ### Adding -/

/-- `eina_list_append` -/
def append (list : Option Addr) (data : Option Data) : Option (Mem Data × Option Addr) :=
  match list with
  | none => some (m.setupAccounting data)
  | some list => do
    let newL := m.next
    let a ← m.accountingOf list
    let r ← m.accounting a
    let m := m.listNew ⟨none, r.last, ⟨data, a⟩⟩
    let m ← m.setLast a (some newL)
    let l ← r.last
    let m ← m.setNext l (some newL)
    let m ← m.countUp a
    return (m, some list)

/-- `eina_list_prepend` -/
def prepend (list : Option Addr) (data : Option Data) : Option (Mem Data × Option Addr) :=
  match list with
  | none => some (m.setupAccounting data)
  | some list => do
    let newL := m.next
    let a ← m.accountingOf list
    let m := m.listNew ⟨some list, none, ⟨data, a⟩⟩
    let m ← m.setPrev list (some newL)
    let m ← m.countUp a
    return (m, some newL)

/-- `eina_list_append_relative_list` -/
def appendRelativeList (list : Option Addr) (data : Option Data) (relative : Option Addr) :
    Option (Mem Data × Option Addr) :=
  match list, relative with
  | some list, some relative => do
    let newL := m.next
    let a ← m.accountingOf list
    let c ← m.node relative
    let m := m.listNew ⟨c.next, some relative, ⟨data, a⟩⟩
    let m ← m.setPrevOf c.next (some newL)
    let m ← m.setNext relative (some newL)
    let m ← m.countUp a
    let m ← (if c.next = none then m.setLast a (some newL) else some m)
    return (m, some list)
  | list, _ => m.append list data

/-- `eina_list_prepend_relative_list` -/
def prependRelativeList (list : Option Addr) (data : Option Data) (relative : Option Addr) :
    Option (Mem Data × Option Addr) :=
  match list, relative with
  | some list, some relative => do
    let newL := m.next
    let a ← m.accountingOf list
    let c ← m.node relative
    let m := m.listNew ⟨some relative, c.prev, ⟨data, a⟩⟩
    let m ← m.setNextOf c.prev (some newL)
    let m ← m.setPrev relative (some newL)
    let m ← m.countUp a
    return (m, if c.prev = none then some newL else some list)
  | list, _ => m.prepend list data

/-! ### Searching -/

/-- The loop of `eina_list_data_find_list`. -/
def findFrom [DecidableEq Data] (data : Option Data) : Nat → Option Addr → Option (Option Addr)
  | _, none => some none
  | 0, some _ => none
  | fuel + 1, some l => do
    let c ← m.node l
    if c.val.data = data then some (some l) else findFrom data fuel c.next

/-- `eina_list_data_find_list` -/
def dataFindList [DecidableEq Data] (list : Option Addr) (data : Option Data) :
    Option (Option Addr) :=
  m.findFrom data m.next list

/-- The loops of `eina_list_nth_list`, in either direction. -/
def walk (dir : Cell Addr (Val Data) → Option Addr) : Nat → Option Addr → Option (Option Addr)
  | 0, l => some l
  | k + 1, l => do
    let l ← l
    let c ← m.node l
    walk dir k (dir c)

/-- `eina_list_nth_list` -/
def nthList (list : Option Addr) (n : Nat) : Option (Option Addr) :=
  match list with
  | none => some none
  | some list => do
    let a ← m.accountingOf list
    let r ← m.accounting a
    if r.count - 1 < n then some none
    else if r.count / 2 < n then m.walk Cell.prev (r.count - 1 - n) r.last
    else m.walk Cell.next n (some list)

/-- `eina_list_append_relative` -/
def appendRelative [DecidableEq Data] (list : Option Addr) (data relative : Option Data) :
    Option (Mem Data × Option Addr) := do
  match ← m.dataFindList list relative with
  | some l => m.appendRelativeList list data (some l)
  | none => m.append list data

/-- `eina_list_prepend_relative` -/
def prependRelative [DecidableEq Data] (list : Option Addr) (data relative : Option Data) :
    Option (Mem Data × Option Addr) := do
  match ← m.dataFindList list relative with
  | some l => m.prependRelativeList list data (some l)
  | none => m.prepend list data

/-! ### Removing -/

/-- `eina_list_remove_list` -/
def removeList (list removeList : Option Addr) : Option (Mem Data × Option Addr) :=
  match list, removeList with
  | none, _ => some (m, none)
  | some list, none => some (m, some list)
  | some list, some x => do
    let c ← m.node x
    let m ← m.setPrevOf c.next c.prev
    let m ← m.setNextOf c.prev c.next
    let r ← m.accounting c.val.accounting
    let m ← (if r.last = some x then (m.accountingOf list).bind fun a => m.setLast a c.prev
      else some m)
    let m ← m.listFree x
    return (m, if c.prev = none then c.next else some list)

/-- `eina_list_remove` -/
def remove [DecidableEq Data] (list : Option Addr) (data : Option Data) :
    Option (Mem Data × Option Addr) := do
  let l ← m.dataFindList list data
  m.removeList list l

/-! ### Reordering -/

/-- The first half of `eina_list_promote_list`: `x` is taken out of its place. -/
def promoteUnlink (list x : Addr) (c : Cell Addr (Val Data)) : Option (Mem Data) :=
  match c.prev with
  | none => do
    let y ← c.next
    m.setPrev y none
  | some p => do
    let m ← m.setNext p c.next
    let a ← m.accountingOf list
    let r ← m.accounting a
    if r.last = some x then m.setLast a (some p)
    else do
      let y ← c.next
      m.setPrev y (some p)

/-- `eina_list_promote_list` -/
def promoteList (list moveList : Option Addr) : Option (Mem Data × Option Addr) :=
  match list, moveList with
  | none, _ => some (m, none)
  | some list, none => some (m, some list)
  | some list, some x =>
    if x = list then some (m, some list)
    else do
      let c ← m.node x
      if c.next = some list then some (m, some x)
      else do
        let m ← m.promoteUnlink list x c
        let m ← m.setNext x (some list)
        let h ← m.node list
        let m ← m.setPrev x h.prev
        let m ← m.setPrev list (some x)
        let m ← m.setNextOf h.prev (some x)
        return (m, some x)

/-- `eina_list_demote_list` -/
def demoteList (list moveList : Option Addr) : Option (Mem Data × Option Addr) :=
  match list, moveList with
  | none, _ => some (m, none)
  | some list, none => some (m, some list)
  | some list, some x => do
    let a ← m.accountingOf list
    let r ← m.accounting a
    if r.last = some x then some (m, some list)
    else do
      let c ← m.node x
      let list ← (if list = x then c.next else some list)
      let m ← m.setNextOf c.prev c.next
      let y ← c.next
      let m ← m.setPrev y c.prev
      let a ← m.accountingOf list
      let r ← m.accounting a
      let m ← m.setPrev x r.last
      let l ← r.last
      let m ← m.setNext l (some x)
      let m ← m.setNext x none
      let m ← m.setLast a (some x)
      return (m, some list)

/-- The loop of `eina_list_reverse`, which exchanges data from both ends inwards. -/
def reverseLoop (m : Mem Data) : Nat → Addr → Addr → Option (Mem Data)
  | 0, l1, l2 => if l1 = l2 then some m else none
  | fuel + 1, l1, l2 =>
    if l1 = l2 then some m
    else do
      let c1 ← m.node l1
      let c2 ← m.node l2
      let m ← m.setData l1 c2.val.data
      let m ← m.setData l2 c1.val.data
      let l1 ← c1.next
      if l1 = l2 then some m
      else do
        let l2 ← c2.prev
        reverseLoop m fuel l1 l2

/-- `eina_list_reverse` -/
def reverse (list : Option Addr) : Option (Mem Data × Option Addr) :=
  match list with
  | none => some (m, none)
  | some list => do
    let a ← m.accountingOf list
    let r ← m.accounting a
    let l2 ← r.last
    let m ← m.reverseLoop m.next list l2
    return (m, some list)

/-! ### Joining and cutting -/

/-- The loops of `eina_list_merge` that give nodes another record, in either direction. -/
def rehome (dir : Cell Addr (Val Data) → Option Addr) (a : Addr) (m : Mem Data) :
    Nat → Option Addr → Option (Mem Data)
  | _, none => some m
  | 0, some _ => none
  | fuel + 1, some itr => do
    let c ← m.node itr
    let m ← m.setAccounting itr a
    rehome dir a m fuel (dir c)

/-- `eina_list_merge` -/
def merge (left right : Option Addr) : Option (Mem Data × Option Addr) :=
  match left, right with
  | none, right => some (m, right)
  | left, none => some (m, left)
  | some left, some right => do
    let a ← m.accountingOf left
    let r ← m.accounting a
    let l ← r.last
    let m ← m.setNext l (some right)
    let m ← m.setPrev right (some l)
    let b ← m.accountingOf right
    let q ← m.accounting b
    if q.count ≤ r.count then do
      let m ← m.setLast a q.last
      let m ← m.setCount a (r.count + q.count)
      let m ← m.accountingFree b
      let m ← m.rehome Cell.next a m.next (some right)
      return (m, some left)
    else do
      let m ← m.setCount b (q.count + r.count)
      let m ← m.accountingFree a
      let m ← m.rehome Cell.prev b m.next (some l)
      return (m, some left)

/-- The loop of `eina_list_split_list`. -/
def splitLoop (a : Addr) (m : Mem Data) : Nat → Option Addr → Option (Mem Data)
  | _, none => some m
  | 0, some _ => none
  | fuel + 1, some itr => do
    let m ← m.setAccounting itr a
    let m ← m.countUp a
    let c ← m.node itr
    splitLoop a m fuel c.next

/-- `eina_list_split_list`: the memory, the list returned and `*right`. -/
def splitList (list relative : Option Addr) :
    Option (Mem Data × Option Addr × Option Addr) :=
  match list, relative with
  | none, _ => some (m, none, none)
  | some list, none => some (m, none, some list)
  | some list, some relative => do
    let a ← m.accountingOf list
    let r ← m.accounting a
    if r.last = some relative then some (m, some list, none)
    else do
      let c ← m.node relative
      let next ← c.next
      let m ← m.setPrev next none
      let b := m.next
      let m := m.accountingNew ⟨r.last, 0⟩
      let m ← m.setAccounting next b
      let m ← m.splitLoop b m.next (some next)
      let m ← m.setNext relative none
      let m ← m.setLast a (some relative)
      let q ← m.accounting b
      let m ← m.setCount a (r.count - q.count)
      return (m, some list, some next)

/-- The last loop of `eina_list_sorted_merge`: the memory and the last node. -/
def sortedMergeTail (a : Addr) (m : Mem Data) : Nat → Addr → Option (Mem Data × Addr)
  | 0, _ => none
  | fuel + 1, current => do
    let c ← m.node current
    match c.next with
    | none => some (m, current)
    | some x => do
      let m ← m.setAccounting x a
      sortedMergeTail a m fuel x

/-- A node of one of the lists is linked behind `current`. -/
def link (m : Mem Data) (current x : Addr) : Option (Mem Data) := do
  let m ← m.setNext current (some x)
  m.setPrev x (some current)

/-- The first loop of `eina_list_sorted_merge` and what follows it. -/
def sortedMergeLoop (func : Option Data → Option Data → Int) (a : Addr) (m : Mem Data) :
    Nat → Addr → Option Addr → Option Addr → Option (Mem Data × Addr)
  | 0, _, _, _ => none
  | fuel + 1, current, some left, some right => do
    let cl ← m.node left
    let cr ← m.node right
    if func cl.val.data cr.val.data < 0 then do
      let m ← m.link current left
      let m ← m.setAccounting left a
      sortedMergeLoop func a m fuel left cl.next (some right)
    else do
      let m ← m.link current right
      let m ← m.setAccounting right a
      sortedMergeLoop func a m fuel right (some left) cr.next
  | _ + 1, current, some left, none => do
    let m ← m.link current left
    let m ← m.setAccounting current a
    m.sortedMergeTail a m.next current
  | _ + 1, current, none, some right => do
    let m ← m.link current right
    let m ← m.setAccounting current a
    m.sortedMergeTail a m.next current
  | _ + 1, current, none, none => m.sortedMergeTail a m.next current

/-- `eina_list_sorted_merge` -/
def sortedMerge (func : Option Data → Option Data → Int) (left right : Option Addr) :
    Option (Mem Data × Option Addr) :=
  match left, right with
  | none, right => some (m, right)
  | left, none => some (m, left)
  | some left, some right => do
    let cl ← m.node left
    let cr ← m.node right
    let a := cl.val.accounting
    let b := cr.val.accounting
    let r ← m.accounting a
    let q ← m.accounting b
    if func cl.val.data cr.val.data < 0 then do
      let m ← m.setCount a (r.count + q.count)
      let m ← m.accountingFree b
      let (m, current) ← m.sortedMergeLoop func a m.next left cl.next (some right)
      let m ← m.setLast a (some current)
      return (m, some left)
    else do
      let m ← m.setCount b (q.count + r.count)
      let m ← m.accountingFree a
      let (m, current) ← m.sortedMergeLoop func b m.next right (some left) cr.next
      let m ← m.setLast b (some current)
      return (m, some right)

/-- The loop of `eina_list_clone`. -/
def cloneLoop (m : Mem Data) : Nat → Option Addr → Option Addr → Option (Mem Data × Option Addr)
  | _, none, lclone => some (m, lclone)
  | 0, some _, _ => none
  | fuel + 1, some l, lclone => do
    let c ← m.node l
    let (m, lclone) ← m.append lclone c.val.data
    let c ← m.node l
    cloneLoop m fuel c.next lclone

/-- `eina_list_clone` -/
def clone (list : Option Addr) : Option (Mem Data × Option Addr) :=
  m.cloneLoop m.next list none

end Mem

end Lists

end Eina
