/-
The tables of functions of a class.

A table has a node for every class there was when it was made, which points to the array of the
functions of that class's ops.  A table that is taken over points to the same arrays, and `hitmap`
tells, while a table is being made, of which nodes it has an array of its own.  The arrays are in a
heap; an access outside of them, or of a freed one, is undefined.

Numbers of classes and of functions are not cut off here.  The source stores them in 16 bits; that
they have room there is in `World.FitsFields`.  The first class is `Efl.Class`, which has no
functions, so that no op is `EFL_NOOP`; that is `none` here.
-/
import Efl.Eo.Class.Basic
import Efl.Lib.Loop

namespace Eo.Vtable

/-- The address of an API function. -/
abbrev Api := Nat

/-- `Eo_Op_Func_Type`, where it is no null pointer -/
abbrev Func := Nat

abbrev Addr := Nat

/-- `Efl_Object_Op` -/
structure Op where
  classId : ClassId
  funcId : Nat
  deriving DecidableEq

/-- `op_type_funcs` -/
structure OpFuncs where
  func : Option Func
  src : Option ClassId
  deriving DecidableEq

/-- Where the functions of a node are; `marker` is the address that stands for no functions. -/
inductive Funcs where
  | null
  | marker
  | array (addr : Addr)
  deriving DecidableEq

/-- `Eo_Vtable_Node` -/
structure Node where
  funcs : Funcs
  count : Nat
  deriving DecidableEq

/-- The arrays that were allocated; those that were freed are `none`. -/
abbrev Heap := List (Option (List OpFuncs))

namespace Heap

def array (h : Heap) (a : Addr) : Option (List OpFuncs) := h[a]?.join

/-- `funcs[j]` -/
def load (h : Heap) (funcs : Funcs) (j : Nat) : Option OpFuncs :=
  match funcs with
  | .array a => (h.array a).bind (·[j]?)
  | _ => none

/-- `funcs[j] = x` -/
def store (h : Heap) (funcs : Funcs) (j : Nat) (x : OpFuncs) : Option Heap :=
  match funcs with
  | .array a =>
    match h.array a with
    | none => none
    | some cells => if j < cells.length then some (h.set a (some (cells.set j x))) else none
  | _ => none

/-- The first `count` functions, as `memcpy` reads them. -/
def loadAll (h : Heap) (funcs : Funcs) (count : Nat) : Option (List OpFuncs) :=
  if count = 0 then some []
  else
    match funcs with
    | .array a =>
      match h.array a with
      | none => none
      | some cells => if count ≤ cells.length then some (cells.take count) else none
    | _ => none

/-- `free` -/
def free (h : Heap) (funcs : Funcs) : Option Heap :=
  match funcs with
  | .null => some h
  | .marker => none
  | .array a =>
    match h.array a with
    | none => none
    | some _ => some (h.set a none)

end Heap

/-- A table that is being made. -/
structure Work where
  heap : Heap
  chain : List Node
  hitmap : List Bool

namespace Work

/-- An array is allocated. -/
def alloc (w : Work) (cells : List OpFuncs) : Work := { w with heap := w.heap ++ [some cells] }

/-- `chain[i] = node` -/
def setNode (w : Work) (i : Nat) (node : Node) : Option Work :=
  if i < w.chain.length then some { w with chain := w.chain.set i node } else none

/-- `hitmap[i] = EFL_TRUE` -/
def mark (w : Work) (i : Nat) : Option Work :=
  if i < w.hitmap.length then some { w with hitmap := w.hitmap.set i true } else none

end Work

/-- `_vtable_init_size` -/
def initSize (size : Nat) : List Node := List.replicate size ⟨.null, 0⟩

/-- One node in the loop of `_vtable_free`. -/
def freeNode (root : List Node) (i : Nat) (node : Node) (h : Heap) : Option (Heap × Option Unit) :=
  match root[i]? with
  | none => none
  | some rootNode =>
    if rootNode.funcs = node.funcs ∨ node.count = 0 then some (h, none)
    else (h.free node.funcs).map (·, none)

/-- `_vtable_free` of the table of an object; the nodes of `root` stay. -/
def vtableFree (h : Heap) (vtable root : List Node) : Option Heap :=
  if vtable.length ≠ root.length then some h
  else (Loop.each (freeNode root) 0 vtable h).map (·.1)

/-- One node in the loop of `_vtable_take_over`. -/
def takeOverNode (i : Nat) (node : Node) (dest : List Node) : Option (List Node × Option Unit) :=
  if node.funcs = .null then some (dest, none)
  else if i < dest.length then some (dest.set i node, none)
  else none

/-- `_vtable_take_over` -/
def takeOver (dest src : List Node) : Option (List Node) :=
  (Loop.each takeOverNode 0 src dest).map (·.1)

/-- `_vtable_insert_empty_funcs` -/
def insertEmptyFuncs (w : Work) (classId : ClassId) : Option Work := w.setNode classId ⟨.marker, 0⟩

/-- `_vtable_copy_node`, onto a node of the table -/
def copyNode (w : Work) (i : Nat) (src : Node) : Option Work := do
  let cells ← w.heap.loadAll src.funcs src.count
  (w.alloc cells).setNode i ⟨.array w.heap.length, src.count⟩

/-- `_vtable_prepare_empty_node` -/
def prepareEmptyNode (w : Work) (length : Nat) (classId : ClassId) : Option Work :=
  (w.alloc (List.replicate length ⟨none, none⟩)).setNode classId ⟨.array w.heap.length, length⟩

/-- One function in the inner loop of `_vtable_merge_defined_api`. -/
def mergeFunc (src : Node) (i : Nat) (w : Work) (j : Nat) : Option Work := do
  let funcs ← w.heap.load src.funcs j
  if funcs.func = none then some w
  else
    let dest ← w.chain[i]?
    let heap ← w.heap.store dest.funcs j funcs
    some { w with heap := heap }

/-- One node in the loop of `_vtable_merge_defined_api`. -/
def mergeDefinedNode (i : Nat) (node : Node) (w : Work) : Option (Work × Option Unit) :=
  if node.funcs = .null then some (w, none)
  else do
    let dest ← w.chain[i]?
    let hit ← w.hitmap[i]?
    if dest.funcs = .null then
      let w ← w.setNode i node
      -- a node that is not set can not have been copied; else the rest is left out
      some (w, if hit then some () else none)
    else
      let w ←
        if hit then some w
        else
          (if dest.count = 0 then insertEmptyFuncs w i else copyNode w i dest).bind
            fun w => w.mark i
      let w ← (List.range node.count).foldlM (mergeFunc node i) w
      some (w, none)

/-- `_vtable_merge_defined_api` -/
def mergeDefinedApi (w : Work) (src : List Node) : Option Work :=
  (Loop.each mergeDefinedNode 0 src w).map (·.1)

/-- One node in the loop of `_vtable_merge_empty`. -/
def mergeEmptyNode (i : Nat) (node : Node) (w : Work) : Option (Work × Option Unit) :=
  if node.funcs = .null then some (w, none)
  else do
    let dest ← w.chain[i]?
    if dest.funcs ≠ .null then some (w, none)
    else if node.count = 0 then
      let w ← w.setNode i node
      some (w, none)
    else
      let w ← (prepareEmptyNode w node.count i).bind fun w => w.mark i
      some (w, none)

/-- `_vtable_merge_empty` -/
def mergeEmpty (w : Work) (src : List Node) : Option Work :=
  (Loop.each mergeEmptyNode 0 src w).map (·.1)

/-- `_vtable_func_get`; the inner `none` is the null pointer. -/
def funcGet (h : Heap) (vtable : List Node) (op : Op) : Option (Option OpFuncs) :=
  match vtable[op.classId]? with
  | none => some none
  | some node =>
    if node.count ≤ op.funcId then some none
    else (h.load node.funcs op.funcId).map some

/-- What `_vtable_func_set` sets; without a function, what the table of `hierarchy_klass` has. -/
def funcsOf (h : Heap) (klass : ClassId) (hierarchy : Option (List Node)) (op : Op)
    (func : Option Func) : Option OpFuncs :=
  match hierarchy, func with
  | some chain, none => (chain[op.classId]?).bind fun node => h.load node.funcs op.funcId
  | _, _ => some ⟨func, some klass⟩

/--
`_vtable_func_set`, which is always called with `allow_same_override`; `hierarchy` is the table
of `hierarchy_klass`, where there is one.
-/
def funcSet (w : Work) (klass : ClassId) (hierarchy : Option (List Node)) (op : Op)
    (func : Option Func) : Option (Work × Bool) :=
  if w.chain.length < op.classId then some (w, false)
  else do
    let node ← w.chain[op.classId]?
    if node.funcs = .null then some (w, false)
    else if node.count < op.funcId then some (w, false)
    else
      let funcs ← funcsOf w.heap klass hierarchy op func
      let heap ← w.heap.store node.funcs op.funcId funcs
      some ({ w with heap := heap }, true)

/-! ### The functions of a class -/

/-- `Efl_Op_Description` -/
structure OpDesc where
  api : Option Api
  func : Option Func
  deriving DecidableEq

/-- `_ops_storage` -/
abbrev Storage := List (Api × Op)

/-- `_efl_object_api_op_id_get_internal` -/
def apiOpIdGet (storage : Storage) (api : Option Api) : Option Op :=
  (storage.find? fun entry => decide (some entry.1 = api)).map (·.2)

/--
The sanity checks of `_eo_class_funcs_set`, which count the functions that have no op yet;
`apiFuncs` are those that were looked at.
-/
def sanityCheck (storage : Storage) (checkEqual : Bool) (apiFuncs : List Api) :
    List OpDesc → Option Nat
  | [] => some 0
  | desc :: descs =>
    match desc.api with
    | none => none
    | some api =>
      if checkEqual ∧ api ∈ apiFuncs then none
      else
        (sanityCheck storage checkEqual (apiFuncs ++ [api]) descs).map fun count =>
          if apiOpIdGet storage (some api) = none then count + 1 else count

/-- The last loop of `_eo_class_funcs_set` goes on with these. -/
structure Setting where
  work : Work
  storage : Storage
  j : Nat

/-- A function that has no op yet gets the next one of the class. -/
def Setting.named (s : Setting) (classId : ClassId) (api : Option Api) : Setting :=
  match apiOpIdGet s.storage api, api with
  | none, some api => { s with storage := s.storage ++ [(api, ⟨classId, s.j⟩)], j := s.j + 1 }
  | _, _ => s

/-- A node is copied, unless that was done before. -/
def ownNode (w : Work) (i : Nat) : Option Work := do
  let hit ← w.hitmap[i]?
  if hit then some w
  else
    let node ← w.chain[i]?
    (copyNode w i node).bind fun w => w.mark i

/-- One function in the last loop of `_eo_class_funcs_set`. -/
def setOne (klass : ClassId) (overrideOnly : Option (List Node)) (classId : ClassId)
    (desc : OpDesc) (s : Setting) : Option (Setting × Option Bool) :=
  if apiOpIdGet s.storage desc.api = none ∧ overrideOnly.isSome then some (s, some false)
  else do
    let op2 := (apiOpIdGet s.storage desc.api).getD ⟨classId, s.j⟩
    let s := s.named classId desc.api
    let w ← ownNode s.work op2.classId
    let (w, set) ← funcSet w klass overrideOnly op2 desc.func
    some ({ s with work := w }, if set then none else some false)

/-- The node of a class that is given functions, with room for those that have no op yet. -/
def ownFuncsNode (w : Work) (count : Nat) (classId : ClassId) : Option Work :=
  (if count = 0 then some w else prepareEmptyNode w count classId).bind fun w => w.mark classId

/--
`_eo_class_funcs_set`, built without `EO_DEBUG`; `overrideOnly` is the table of `hierarchy_klass`
when functions are only overridden.
-/
def eoClassFuncsSet (w : Work) (storage : Storage) (descs : List OpDesc)
    (overrideOnly : Option (List Node)) (klass classId : ClassId) :
    Option (Work × Storage × Bool) :=
  (if overrideOnly.isSome then some w else insertEmptyFuncs w classId).bind fun w =>
    if descs = [] then some (w, storage, true)
    else
      match sanityCheck storage (!overrideOnly.isSome) [] descs with
      | none => some (w, storage, false)
      | some count =>
        (if overrideOnly.isSome then some w else ownFuncsNode w count classId).bind fun w =>
          (Loop.each (fun _ desc s => setOne klass overrideOnly classId desc s) 0 descs
            ⟨w, storage, 0⟩).map
            fun (s, returned) => (s.work, s.storage, returned.getD true)

end Eo.Vtable
