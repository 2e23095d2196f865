/-
Ids of objects.

An id packs a domain, the place of an entry in the tables of that domain and a generation; here it
is in the layout of 47 bits.  Every domain has tables of entries, which are made when they are
needed; the entries that were given back stand in a queue that runs through them.  Memory for the
tables is never refused.  An id whose table or entry number is past the end of the array it is used
with reads outside of it, and has no result.

Of the two copies of the code, for shared domains and for others, only what is different is told
apart; locks are left out.
-/
import Mathlib.Algebra.Group.Nat.Defs
import Mathlib.Logic.Function.Basic

namespace Eo.Ids

open Function

/-- The address of an `_Eo_Object` -/
abbrev Obj := Nat

abbrev Id := Nat

def maxMidTableId : Nat := 2 ^ 11
def maxTableId : Nat := 2 ^ 11 - 2
def maxEntryId : Nat := 2 ^ 11 - 3
def maxGenerations : Nat := 2 ^ 10

/-- `EFL_ID_DOMAIN_SHARED` -/
def domainShared : Nat := 1

/-! ### What an id is made of -/

/-- `EO_COMPOSE_PARTIAL_ID` -/
def composePartialId (midTable table : Nat) : Id :=
  (1 <<< 46) ||| ((midTable &&& (2 ^ 11 - 1)) <<< 32) ||| ((table &&& (2 ^ 11 - 1)) <<< 21)

/-- `EO_COMPOSE_FINAL_ID` -/
def composeFinalId (partialId entry domain generation : Nat) : Id :=
  partialId ||| ((domain &&& (2 ^ 2 - 1)) <<< 43) ||| ((entry &&& (2 ^ 11 - 1)) <<< 10) |||
    (generation &&& (2 ^ 10 - 1))

namespace Id

variable (id : Id)

def domain : Nat := (id >>> 43) &&& (2 ^ 2 - 1)
def midTable : Nat := (id >>> 32) &&& (2 ^ 11 - 1)
def table : Nat := (id >>> 21) &&& (2 ^ 11 - 1)
def entry : Nat := (id >>> 10) &&& (2 ^ 11 - 1)
def generation : Nat := id &&& (2 ^ 10 - 1)

/-- `id & MASK_OBJ_TAG` -/
def tagBit : Nat := id &&& (1 <<< 46)

end Id

/-! ### Tables -/

/-- `_Eo_Id_Entry`; `next` is `next_in_fifo`, where it is not -1. -/
structure Entry where
  ptr : Option Obj
  next : Option Nat
  active : Bool
  generation : Nat

/-- `_Eo_Ids_Table` -/
structure Table where
  start : Nat
  fifoHead : Option Nat
  fifoTail : Option Nat
  partialId : Id
  freeEntries : Nat
  entries : Nat → Entry

namespace Table

/-- A table as `calloc` gives it. -/
def zero : Table where
  start := 0
  fifoHead := some 0
  fifoTail := some 0
  partialId := 0
  freeEntries := 0
  entries := fun _ => ⟨none, some 0, false, 0⟩

/-- A table that is linked in, with its first entry taken. -/
def opened (t : Table) (midTable table : Nat) : Table where
  start := 1
  fifoHead := none
  fifoTail := none
  partialId := composePartialId midTable table
  freeEntries := maxEntryId - 1
  entries := t.entries

def setEntry (t : Table) (i : Nat) (e : Entry) : Table :=
  { t with entries := update t.entries i e }

/-- `_get_available_entry` -/
def getAvailableEntry (t : Table) : Option (Nat × Table) :=
  if t.start ≠ maxEntryId then
    some (t.start, { t with start := t.start + 1, freeEntries := t.freeEntries - 1 })
  else
    match t.fifoHead with
    | none => none
    | some head =>
      match (t.entries head).next with
      | none =>
        some (head, { t with fifoHead := none, fifoTail := none,
                             freeEntries := t.freeEntries - 1 })
      | some next =>
        some (head, { t with fifoHead := some next, freeEntries := t.freeEntries - 1 })

/-- What `_eo_id_release` does to the table of an entry. -/
def giveBack (t : Table) (i : Nat) : Table :=
  let t := { t with freeEntries := t.freeEntries + 1 }
  let t := t.setEntry i { t.entries i with active := false, next := none }
  match t.fifoTail with
  | none => { t with fifoHead := some i, fifoTail := some i }
  | some tail =>
    { t.setEntry tail { t.entries tail with next := some i } with fifoTail := some i }

end Table

/-- What is cached of lookups and of `efl_isa`; `κ` is what tells classes. -/
structure Cache (κ : Type) where
  id : Id
  object : Option Obj
  isaId : Id
  klass : Option κ
  isa : Bool

namespace Cache

variable {κ : Type}

def empty : Cache κ := ⟨0, none, 0, none, false⟩

/-- What is left of the cache when an id is released. -/
def wipe (c : Cache κ) (id : Id) : Cache κ :=
  let c := if c.id = id then { c with id := 0, object := none } else c
  if c.isaId = id then { c with isaId := 0, klass := none, isa := false } else c

end Cache

/-- `_Eo_Id_Table_Data`; the current table is told by where it is linked in. -/
structure TableData (κ : Type) where
  cache : Cache κ
  eoIdsTables : Nat → Option (Nat → Option Table)
  currentTable : Option (Nat × Nat)
  emptyTable : Option Table
  generation : Nat
  shared : Bool

namespace TableData

variable {κ : Type} (d : TableData κ)

/-- `_eo_table_data_table_new`; the generation begins with what `rand` gives. -/
def new (shared : Bool) (random : Nat) : TableData κ where
  cache := Cache.empty
  eoIdsTables := fun _ => none
  currentTable := none
  emptyTable := none
  generation := random % maxGenerations
  shared := shared

/-- `TABLE_FROM_IDS` -/
def tableAt (p : Nat × Nat) : Option Table := (d.eoIdsTables p.1).bind fun row => row p.2

/-- `TABLE_FROM_IDS = t` -/
def setTable (p : Nat × Nat) (t : Option Table) : TableData κ :=
  { d with eoIdsTables := fun mid =>
      if mid = p.1 then (d.eoIdsTables mid).map fun row => update row p.2 t
      else d.eoIdsTables mid }

/-- The intermediate table is there. -/
def withRow (mid : Nat) : TableData κ :=
  match d.eoIdsTables mid with
  | some _ => d
  | none => { d with eoIdsTables := update d.eoIdsTables mid (some fun _ => none) }

/-- What `_search_tables` does where there is no table: the spare one or a new one is linked in. -/
def openTable (p : Nat × Nat) : TableData κ :=
  let t := d.emptyTable.getD Table.zero
  { { d with emptyTable := none }.setTable p (some (t.opened p.1 p.2)) with
    currentTable := some p }

/-- The loops of `_search_tables`, from the place with some number on, with `left` places left. -/
def searchTables (d : TableData κ) : (left number : Nat) → TableData κ × Option (Nat × Nat × Nat)
  | 0, _ => ({ d with currentTable := none }, none)
  | left + 1, number =>
    let p := (number / maxTableId, number % maxTableId)
    let d := d.withRow p.1
    match d.tableAt p with
    | none => (d.openTable p, some (p.1, p.2, 0))
    | some t =>
      match t.getAvailableEntry with
      | some (i, t) =>
        ({ d.setTable p (some t) with currentTable := some p }, some (p.1, p.2, i))
      | none => searchTables d left (number + 1)

/-- The entry that `_eo_id_allocate` takes, by its place. -/
def takeEntry : TableData κ × Option (Nat × Nat × Nat) :=
  match d.currentTable with
  | none => d.searchTables (maxMidTableId * maxTableId) 0
  | some p =>
    match (d.tableAt p).bind Table.getAvailableEntry with
    | some (i, t) => (d.setTable p (some t), some (p.1, p.2, i))
    | none => d.searchTables (maxMidTableId * maxTableId) 0

/-- The generation of the next entry. -/
def nextGeneration : Nat :=
  if d.shared then if d.generation + 1 = maxGenerations then 1 else d.generation + 1
  else if maxGenerations ≤ d.generation + 1 then 1
  else d.generation + 1

/-- `_eo_id_allocate`, in the tables of a domain; the id is composed with `domain`. -/
def allocate (obj : Obj) (domain : Nat) : TableData κ × Id :=
  match d.takeEntry with
  | (d, none) => (d, 0)
  | (d, some (mid, table, i)) =>
    match d.tableAt (mid, table) with
    | none => (d, 0)
    | some t =>
      let generation := d.nextGeneration
      let t := t.setEntry i { t.entries i with
        ptr := some obj, active := true, generation := generation }
      ({ d.setTable (mid, table) (some t) with generation := generation },
        composeFinalId t.partialId i domain generation)

/-- The entry that an id names, if it is active and of the generation of the id. -/
def entryOf (id : Id) : Option (Option (Table × Entry)) :=
  match d.eoIdsTables id.midTable with
  | none => some none
  | some row =>
    if maxTableId ≤ id.table then none
    else
      match row id.table with
      | none => some none
      | some t =>
        if maxEntryId ≤ id.entry then none
        else if (t.entries id.entry).active ∧
            (t.entries id.entry).generation = id.generation then
          some (some (t, t.entries id.entry))
        else some none

/-- `_eo_obj_pointer_get`, in the tables of the domain of the id -/
def objPointerGet (id : Id) : Option (TableData κ × Option Obj) :=
  if id = d.cache.id then some (d, d.cache.object)
  else if id = 0 ∨ id.tagBit = 0 then some (d, none)
  else
    (d.entryOf id).map fun found =>
      match found with
      | none => (d, none)
      | some (_, e) => ({ d with cache := { d.cache with id := id, object := e.ptr } }, e.ptr)

/-- A table without an active entry is linked out. -/
def unlink (p : Nat × Nat) (t : Table) : TableData κ :=
  { d.setTable p none with
    emptyTable := if d.emptyTable.isNone then some t else d.emptyTable
    currentTable := if d.currentTable = some p then none else d.currentTable }

/-- `_eo_id_release`, in the tables of the domain of the id -/
def release (id : Id) : Option (TableData κ) :=
  (d.entryOf id).map fun found =>
    match found with
    | none => d
    | some (t, _) =>
      let p := (id.midTable, id.table)
      let t := t.giveBack id.entry
      let d := d.setTable p (some t)
      let d := if t.freeEntries = maxEntryId then d.unlink p t else d
      { d with cache := d.cache.wipe id }

end TableData

/-! ### Domains -/

/-- `_Eo_Id_Data`; the last domain of the stack comes first. -/
structure IdData (κ : Type) where
  tables : Nat → Option (TableData κ)
  localDomain : Nat
  domainStack : List Nat

namespace IdData

variable {κ : Type} (data : IdData κ)

/-- The domain at the top of the stack. -/
def current : Nat := data.domainStack.headD 0

def setTables (domain : Nat) (d : TableData κ) : IdData κ :=
  { data with tables := update data.tables domain (some d) }

/-- `_eo_id_allocate`; `parent` is 0 for `NULL` -/
def eoIdAllocate (obj : Obj) (parent : Id) : IdData κ × Id :=
  let domain := if parent ≠ 0 then parent.domain else data.current
  match data.tables domain with
  | none => (data, 0)
  | some d =>
    let r := d.allocate obj (if d.shared then domainShared else data.current)
    (data.setTables domain r.1, r.2)

/-- `_eo_obj_pointer_get` -/
def eoObjPointerGet (id : Id) : Option (IdData κ × Option Obj) :=
  match data.tables id.domain with
  | none => some (data, none)
  | some d => (d.objPointerGet id).map fun r => (data.setTables id.domain r.1, r.2)

/-- `_eo_id_release` -/
def eoIdRelease (id : Id) : Option (IdData κ) :=
  match data.tables id.domain with
  | none => some data
  | some d => (d.release id).map fun d => data.setTables id.domain d

/-- `efl_domain_current_push` -/
def domainPush (domain : Nat) : IdData κ × Bool :=
  if 255 - 8 * 4 - 2 ≤ data.domainStack.length then (data, false)
  else ({ data with domainStack := domain :: data.domainStack }, true)

/-- `efl_domain_current_pop` -/
def domainPop : IdData κ :=
  if 1 < data.domainStack.length then { data with domainStack := data.domainStack.tail } else data

end IdData

end Eo.Ids
