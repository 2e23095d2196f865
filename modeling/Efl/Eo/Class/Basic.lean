/-
`efl_class_new`: the tables of a class.

A class is told by its place in `_eo_classes`, which only grows, so the parent and the extensions
of a class always come before it; `Classes` keeps that, and the recursion over a hierarchy ends by
it.  Sizes and offsets do not overflow.  What the class initializer does is left open; it only
says whether the class is handed out.
-/
import Mathlib.Data.List.Basic

namespace Eo

open List

/-- `Efl_Class_Type` -/
inductive ClassType where
  | regular
  | regularNoInstant
  | interface
  | mixin
  | invalid
  deriving DecidableEq

abbrev ClassId := Nat

/-- `Efl_Class_Description` -/
structure Description where
  name : Option String
  type : ClassType
  dataSize : Nat

/-- `_Efl_Class` -/
structure Klass where
  desc : Description
  parent : Option ClassId
  extensions : List ClassId
  mro : List ClassId
  dataOffset : Nat
  extnDataOff : List (ClassId × Nat)
  objSize : Nat

/-- `_eo_classes`; a class comes after its parent and its extensions. -/
structure Classes where
  klasses : List Klass
  older : ∀ (id : ClassId) (k : Klass), klasses[id]? = some k →
    (∀ p, k.parent = some p → p < id) ∧ ∀ e ∈ k.extensions, e < id

/-- `_eo_sz` and `EO_ALIGN` -/
structure Layout where
  eoSz : Nat
  align : Nat

namespace Layout

/-- `EO_ALIGN_SIZE` -/
def alignSize (l : Layout) (size : Nat) : Nat := (size + l.align - 1) / l.align * l.align

end Layout

/-- Why a class is not handed out. -/
inductive Refusal where
  | noName
  | noParent
  | interfaceData
  | regularParent (name parent : Option String)
  | otherParent (name parent : Option String)
  | invalidType
  | inconsistent (name extension : Option String)
  | notInitialized
  deriving DecidableEq

namespace Refusal

/-- The message for a refusal, where `efl_class_new` has one of its own. -/
def text : Refusal → Option String
  | regularParent name parent =>
    some ("Regular classes ('" ++ name.getD "" ++ "') aren't allowed to inherit from " ++
      "non-regular classes ('" ++ parent.getD "" ++ "').")
  | otherParent name parent =>
    some ("Non-regular classes ('" ++ name.getD "" ++ "') aren't allowed to inherit " ++
      "from regular classes ('" ++ parent.getD "" ++ "').")
  | invalidType => some "type cannot be INVALID"
  | inconsistent name extension =>
    some ("Cannot create a consistent method resolution order for class '" ++ name.getD "" ++
      "' because of '" ++ extension.getD "" ++ "'.")
  | noName | noParent | interfaceData | notInitialized => none

end Refusal

namespace Classes

/-- `_eo_class_pointer_get` -/
def get (c : Classes) (id : ClassId) : Option Klass := c.klasses[id]?

def isMixin (c : Classes) (id : ClassId) : Bool :=
  match c.get id with
  | none => false
  | some k => decide (k.desc.type = .mixin)

end Classes

/-- The inner loop of `_eo_class_list_remove_duplicates`. -/
def removeEqual (x : ClassId) (list : List ClassId) : List ClassId :=
  list.filter fun y => decide (y ≠ x)

/-- The outer loop of `_eo_class_list_remove_duplicates`, from the last element on. -/
def removeBefore : List ClassId → List ClassId
  | [] => []
  | x :: rest => x :: removeBefore (removeEqual x rest)
  termination_by l => l.length
  decreasing_by exact Nat.lt_succ_of_le (length_filter_le _ _)

/-- `_eo_class_list_remove_duplicates` -/
def removeDuplicates (list : List ClassId) : List ClassId := (removeBefore list.reverse).reverse

namespace Classes

/-- `_eo_class_mro_add` -/
def mroAdd (c : Classes) (mro : List ClassId) (id : ClassId) : List ClassId :=
  match h : c.klasses[id]? with
  | none => mro
  | some klass =>
    let mro := klass.extensions.attach.foldl
      (fun mro extn => if c.isMixin extn.1 then mroAdd c mro extn.1 else mro) (mro ++ [id])
    match hp : klass.parent with
    | none => mro
    | some parent => mroAdd c mro parent
  termination_by id
  decreasing_by
    · exact (c.older id klass h).2 extn.1 extn.2
    · exact (c.older id klass h).1 parent hp

/-- The first loop of `_eo_class_mro_init`: the list, and where each extension ends in it. -/
def mroExtensions (c : Classes) (extensions : List ClassId) : List ClassId × List (ClassId × Nat) :=
  extensions.foldl
    (fun (mro, extnPos) extn =>
      if c.isMixin extn then
        let mro := c.mroAdd mro extn
        (mro, extnPos ++ [(extn, mro.length)])
      else (mro, extnPos))
    ([], [])

/-- `_eo_class_mro_init`, without the place that is kept at the head for the class itself. -/
def mroInit (c : Classes) (desc : Description) (parent : Option ClassId)
    (extensions : List ClassId) : Except Refusal (List ClassId) :=
  let (mro, extnPos) := c.mroExtensions extensions
  match extnPos.find? fun (extn, pos) => decide (extn ∈ mro.drop pos) with
  | some (extn, _) => .error (.inconsistent desc.name ((c.get extn).bind (·.desc.name)))
  | none =>
    .ok (removeDuplicates (match parent with | none => mro | some p => c.mroAdd mro p))

/-- Whether a class of the description can have the parent. -/
def checkParent (desc : Description) : Option Klass → Except Refusal Unit
  | none => .ok ()
  | some parent =>
    match desc.type with
    | .regular | .regularNoInstant =>
      if parent.desc.type ≠ .regular ∧ parent.desc.type ≠ .regularNoInstant then
        .error (.regularParent desc.name parent.desc.name)
      else .ok ()
    | .interface | .mixin =>
      if parent.desc.type ≠ .interface ∧ parent.desc.type ≠ .mixin then
        .error (.otherParent desc.name parent.desc.name)
      else .ok ()
    | .invalid => .error .invalidType

/-- The extensions of the call; what is no class is left out. -/
def extnList (c : Classes) : List ClassId → Except Refusal (List ClassId)
  | [] => .ok []
  | id :: ids =>
    match c.get id with
    | none => c.extnList ids
    | some extn =>
      if extn.desc.type = .invalid then .error .invalidType
      else (c.extnList ids).map fun list => id :: list

/-- The offsets of the data of mixins, one behind the other. -/
def feedOffsets (l : Layout) : List (ClassId × Nat) → Nat → List (ClassId × Nat) × Nat
  | [], off => ([], off)
  | (id, size) :: rest, off =>
    let (offsets, stop) := feedOffsets l rest (off + l.alignSize size)
    ((id, off) :: offsets, stop)

/-- The mixins of a list that have data, with its size. -/
def dataMixins (c : Classes) (mro : List ClassId) : List (ClassId × Nat) :=
  mro.filterMap fun id =>
    match c.get id with
    | none => none
    | some k =>
      if k.desc.type = .mixin ∧ 0 < k.desc.dataSize then some (id, k.desc.dataSize) else none

/-- The class that `efl_class_new` fills; `id` is the place it gets. -/
def fill (l : Layout) (c : Classes) (id : ClassId) (desc : Description) (parent : Option ClassId)
    (extensions mro : List ClassId) : Klass :=
  let dataOffset :=
    match parent.bind c.get with
    | none => l.eoSz
    | some p => p.dataOffset + l.alignSize p.desc.dataSize
  let mixins :=
    if desc.type = .mixin ∧ 0 < desc.dataSize then (id, desc.dataSize) :: c.dataMixins mro
    else c.dataMixins mro
  let extnDataOff :=
    if desc.type = .mixin then dataOffset else dataOffset + l.alignSize desc.dataSize
  let (offsets, objSize) := feedOffsets l mixins extnDataOff
  { desc := desc, parent := parent, extensions := extensions, mro := id :: mro,
    dataOffset := dataOffset, extnDataOff := offsets, objSize := objSize }

/-- The first half of `efl_class_new`: the extensions and the list of a class that may be made. -/
def prepare (c : Classes) (desc : Description) (parentId : Option ClassId)
    (extnIds : List ClassId) : Except Refusal (List ClassId × List ClassId) :=
  if desc.name = none then .error .noName
  else if parentId.isSome ∧ parentId.bind c.get = none then .error .noParent
  else if desc.type = .interface ∧ desc.dataSize ≠ 0 then .error .interfaceData
  else do
    checkParent desc (parentId.bind c.get)
    let extensions := removeDuplicates (← c.extnList extnIds)
    let mro ← c.mroInit desc parentId extensions
    return (extensions, mro)

/-! ### What is older than a new class -/

theorem get_lt {c : Classes} {id : ClassId} {k : Klass} (h : c.get id = some k) :
    id < c.klasses.length := by
  exact (List.getElem?_eq_some_iff.mp h).1

variable {l : List ClassId} {x : ClassId}

theorem mem_removeBefore (h : x ∈ removeBefore l) : x ∈ l := by
  induction l using removeBefore.induct with
  | case1 =>
    rw [removeBefore] at h
    exact h
  | case2 y rest ih =>
    rw [removeBefore] at h
    rcases mem_cons.mp h with rfl | h
    · exact mem_cons_self
    · exact mem_cons_of_mem _ (mem_filter.mp (ih h)).1

theorem extnList_known {c : Classes} : ∀ {ids list : List ClassId}, c.extnList ids = .ok list →
    ∀ e ∈ list, ∃ k, c.get e = some k := by
  intro ids
  induction ids with
  | nil =>
    intro list h
    cases h
    exact fun e he => absurd he (by simp)
  | cons id ids ih =>
    intro list h
    unfold extnList at h
    split at h
    · exact ih h
    rename_i k hk
    split at h
    · simp at h
    cases hrest : c.extnList ids with
    | error r =>
      rw [hrest] at h
      simp [Except.map] at h
    | ok rest =>
      rw [hrest] at h
      cases h
      intro e he
      rcases mem_cons.mp he with rfl | he
      · exact ⟨k, hk⟩
      · exact ih hrest e he

theorem mem_removeDuplicates (h : x ∈ removeDuplicates l) :
    x ∈ l := by
  unfold removeDuplicates at h
  rw [mem_reverse] at h
  exact mem_reverse.mp (mem_removeBefore h)

theorem prepare_ok {c : Classes} {desc : Description} {parentId : Option ClassId}
    {extnIds extensions mro : List ClassId}
    (h : c.prepare desc parentId extnIds = .ok (extensions, mro)) :
    (∀ p, parentId = some p → ∃ k, c.get p = some k) ∧
      (∀ e ∈ extensions, ∃ k, c.get e = some k) ∧
      (∃ list, c.extnList extnIds = .ok list ∧ extensions = removeDuplicates list) ∧
      c.mroInit desc parentId extensions = .ok mro := by
  unfold prepare at h
  split at h
  · simp at h
  split at h
  · simp at h
  rename_i hparent
  split at h
  · simp at h
  cases hcheck : checkParent desc (parentId.bind c.get) with
  | error r =>
    rw [hcheck] at h
    simp [bind, Except.bind] at h
  | ok u =>
    cases hlist : c.extnList extnIds with
    | error r =>
      rw [hcheck, hlist] at h
      simp [bind, Except.bind] at h
    | ok list =>
      cases hmro : c.mroInit desc parentId (removeDuplicates list) with
      | error r =>
        simp only [hcheck, hlist, hmro, bind, Except.bind] at h
        simp at h
      | ok mro' =>
        simp only [hcheck, hlist, hmro, bind, Except.bind] at h
        cases h
        refine ⟨?_, ?_, ⟨list, rfl, rfl⟩, hmro⟩
        · rintro p rfl
          cases hget : c.get p with
          | none => exact absurd ⟨rfl, hget⟩ hparent
          | some k => exact ⟨k, rfl⟩
        · intro e he
          exact extnList_known hlist e (mem_removeDuplicates he)

section Prepared

variable {c : Classes} {desc : Description} {parentId : Option ClassId}
  {extnIds extensions mro : List ClassId}

theorem prepare_parent (h : c.prepare desc parentId extnIds = .ok (extensions, mro)) :
    ∀ p, parentId = some p → p < c.klasses.length := by
  intro p hp
  obtain ⟨k, hk⟩ := (prepare_ok h).1 p hp
  exact get_lt hk

theorem prepare_extensions (h : c.prepare desc parentId extnIds = .ok (extensions, mro)) :
    ∀ e ∈ extensions, e < c.klasses.length := by
  intro e he
  obtain ⟨k, hk⟩ := (prepare_ok h).2.1 e he
  exact get_lt hk

end Prepared

/-- A class at the end of the table. -/
def push (c : Classes) (k : Klass) (hparent : ∀ p, k.parent = some p → p < c.klasses.length)
    (hextensions : ∀ e ∈ k.extensions, e < c.klasses.length) : Classes where
  klasses := c.klasses ++ [k]
  older := by
    intro id k' h
    rw [List.getElem?_append] at h
    split at h
    · exact c.older id k' h
    rename_i hid
    rw [List.getElem?_singleton] at h
    split at h
    · obtain rfl := Option.some.inj h
      have hid : c.klasses.length ≤ id := Nat.not_lt.mp hid
      exact ⟨fun p hp => Nat.lt_of_lt_of_le (hparent p hp) hid,
        fun e he => Nat.lt_of_lt_of_le (hextensions e he) hid⟩
    · simp at h

/--
`efl_class_new`.  The class is in the table before its initializer is called; `initialized` is
what that returns.
-/
def eflClassNew (l : Layout) (c : Classes) (desc : Description) (parentId : Option ClassId)
    (extnIds : List ClassId) (initialized : Bool) : Classes × Except Refusal ClassId :=
  match h : c.prepare desc parentId extnIds with
  | .error r => (c, .error r)
  | .ok (extensions, mro) =>
    let id := c.klasses.length
    let klass := c.fill l id desc parentId extensions mro
    let c := c.push klass (prepare_parent h) (prepare_extensions h)
    (c, if initialized then .ok id else .error .notInitialized)

/-- No class yet. -/
def empty : Classes where
  klasses := []
  older := by
    intro id k h
    simp at h

end Classes

end Eo
