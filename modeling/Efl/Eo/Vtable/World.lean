/-
Classes with their functions, objects that override some, and what a call resolves to.

A class is made together with its function set, as the generated initializers do; what its
initializer returns is what `efl_class_functions_set` returns.  Of an object only its class and
its own table are kept.  Composite objects are left out.
-/
import Efl.Eo.Vtable.Basic

namespace Eo.Vtable

/-- The mixins of the list of a class that stand in front of its parent, without the class. -/
def frontMixins (k : Klass) : List ClassId :=
  (k.mro.takeWhile fun id => decide (k.parent ≠ some id)).tail

section FunctionsSet

variable (table : ClassId → List Node)

/-- A new table, with what is taken over from the parent. -/
def takeOverParent (size : Nat) (k : Klass) : Option (List Node) :=
  match k.parent with
  | none => some (initSize size)
  | some parent => takeOver (initSize size) (table parent)

/-- What `efl_class_functions_set` merges in besides. -/
def mergeExtensions (k : Klass) (w : Work) : Option Work := do
  let w ← (frontMixins k).reverse.foldlM (fun w id => mergeDefinedApi w (table id)) w
  k.extensions.foldlM (fun w id => mergeEmpty w (table id)) w

/-- The node of an API that is implemented, but not part of the class. -/
def prepareForeignOne (storage : Storage) (w : Work) (desc : OpDesc) : Option Work :=
  match apiOpIdGet storage desc.api with
  | none => some w
  | some op => do
    let node ← w.chain[op.classId]?
    -- for what is no mixin, an error is logged first
    if node.count ≠ 0 then some w
    else
      let required ← (table op.classId)[op.classId]?
      (prepareEmptyNode w required.count op.classId).bind fun w => w.mark op.classId

def prepareForeign (storage : Storage) (descs : List OpDesc) (w : Work) : Option Work :=
  descs.foldlM (prepareForeignOne table storage) w

/-- `efl_class_functions_set`, for a class whose functions are not set yet -/
def eflClassFunctionsSet (heap : Heap) (storage : Storage) (size : Nat) (id : ClassId) (k : Klass)
    (descs : List OpDesc) : Option (Work × Storage × Bool) := do
  let chain ← takeOverParent table size k
  let w ← mergeExtensions table k ⟨heap, chain, List.replicate size false⟩
  let w ← prepareForeign table storage descs w
  eoClassFuncsSet w storage descs none id id

end FunctionsSet

/-- What is kept of an object: `klass` and `opt->vtable`. -/
structure Object where
  klass : ClassId
  vtable : Option (List Node)

/-- The classes and the objects there are; `descs` is what the functions of each class were set
to. -/
structure World where
  classes : Classes
  vtables : List (List Node)
  descs : List (List OpDesc)
  storage : Storage
  heap : Heap
  objects : List Object

namespace World

/-- `klass->vtable`, of size 0 where nothing was set -/
def vtable (w : World) (id : ClassId) : List Node := (w.vtables[id]?).getD []

/-- `Efl.Class`, the first class -/
def eflClass : Description := ⟨some "Efl.Class", .regularNoInstant, 0⟩

/-- What there is after `Efl.Class` was made. -/
def boot (l : Layout) : World where
  classes := (Classes.empty.eflClassNew l eflClass none [] true).1
  vtables := [[⟨.marker, 0⟩]]
  descs := [[]]
  storage := []
  heap := []
  objects := []

/-- What `efl_class_new` is called with, and what its initializer sets the functions to. -/
structure Request where
  desc : Description
  parentId : Option ClassId
  extnIds : List ClassId
  descs : List OpDesc

/-- `efl_class_new` with the initializer that sets the functions -/
def eflClassNew (l : Layout) (w : World) (r : Request) :
    Option (World × Except Refusal ClassId) :=
  match w.classes.eflClassNew l r.desc r.parentId r.extnIds true with
  | (_, .error e) => some (w, .error e)
  | (classes, .ok id) => do
    let k ← classes.get id
    let (work, storage, set) ←
      eflClassFunctionsSet w.vtable w.heap w.storage classes.klasses.length id k r.descs
    some ({ classes := classes, vtables := w.vtables ++ [work.chain],
            descs := w.descs ++ [if set then r.descs else []], storage := storage,
            heap := work.heap, objects := w.objects },
      if set then .ok id else .error .notInitialized)

/-- The object that `efl_add` makes of a class. -/
def eflAdd (w : World) (id : ClassId) : World :=
  match w.classes.get id with
  | none => w
  | some k =>
    if k.desc.type = .regular then { w with objects := w.objects ++ [⟨id, none⟩] } else w

/-- The table that `efl_object_override` writes to: the one of the object, or a new one. -/
def overrideTable (obj : Object) (root : List Node) : Option (List Node) :=
  match obj.vtable with
  | some chain => some chain
  | none => takeOver (initSize root.length) root

/-- What `efl_object_override` frees when it fails: the table, if it was new. -/
def overrideFailed (obj : Object) (root : List Node) (work : Work) : Option Heap :=
  match obj.vtable with
  | some _ => some work.heap
  | none => vtableFree work.heap work.chain root

/-- `efl_object_override`; `overrideClass` is `EFL_OBJECT_OVERRIDE_CLASS`. -/
def eflObjectOverride (overrideClass : ClassId) (w : World) (i : Nat) (ops : Option (List OpDesc)) :
    Option (World × Bool) :=
  match w.objects[i]? with
  | none => some (w, false)
  | some obj =>
    let root := w.vtable obj.klass
    match ops with
    | some descs => do
      let chain ← overrideTable obj root
      let (work, storage, set) ←
        eoClassFuncsSet ⟨w.heap, chain, List.replicate chain.length false⟩ w.storage descs
          (some root) overrideClass obj.klass
      if set then
        some ({ w with storage := storage, heap := work.heap,
                       objects := w.objects.set i ⟨obj.klass, some work.chain⟩ }, true)
      else
        let heap ← overrideFailed obj root work
        some ({ w with storage := storage, heap := heap,
                       objects := w.objects.set i ⟨obj.klass, none⟩ }, false)
    | none =>
      match obj.vtable with
      | none => some (w, true)
      | some chain => do
        let heap ← vtableFree w.heap chain root
        some ({ w with heap := heap, objects := w.objects.set i ⟨obj.klass, none⟩ }, true)

/-! ### Calls -/

/-- The loop of `_eo_kls_itr_next`. -/
def scan (w : World) (op : Op) : List ClassId → Option (Option OpFuncs)
  | [] => some none
  | id :: ids => do
    match ← funcGet w.heap (w.vtable id) op with
    | none => w.scan op ids
    | some fsrc => if fsrc.func = none then w.scan op ids else some (some fsrc)

/-- `_eo_kls_itr_next` -/
def klsItrNext (w : World) (origKls curKlass : ClassId) (op : Op) (super : Bool) :
    Option (Option OpFuncs) :=
  match w.classes.get origKls with
  | none => some none
  | some k =>
    let rest := k.mro.dropWhile (· ≠ curKlass)
    w.scan op (if super then rest.tail else rest)

/--
What `_efl_object_call_resolve` finds for an object of the class, the function and the class that
set it; `own` is the table of the object, where it has one, and `cur` the class and the flag that
`efl_super` or `efl_cast` left.
-/
def callResolve (overrideClass : ClassId) (w : World) (klass : ClassId) (own : Option (List Node))
    (cur : Option (ClassId × Bool)) (op : Op) : Option (Option (Func × ClassId)) := do
  let func ←
    match cur with
    | none => funcGet w.heap (own.getD (w.vtable klass)) op
    | some (curKlass, super) =>
      if own.isSome ∧ super ∧ curKlass = overrideClass then funcGet w.heap (w.vtable klass) op
      else w.klsItrNext klass curKlass op super
  match func with
  | some ⟨some f, some src⟩ => some (some (f, src))
  | _ => some none

end World

end Eo.Vtable
