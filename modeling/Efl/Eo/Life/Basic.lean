/-
The life of Eo objects: references, parents, invalidation and destruction.

The functions run code of the program in between: the callbacks of `EFL_EVENT_INVALIDATE` and
`EFL_EVENT_DEL`, constructors and destructors.  So the model is a machine with a stack of what is
still to be done; while `user` is on top, or the stack is empty, the program may make any call.  An
instruction that would touch freed memory has no next state, be it the object's own or that of
another node of a list of children.  The children of an object that was freed are not kept either:
what would walk on in their list has no next state.

An object is told by its id, and no id is given twice.  All objects are of one domain, and memory is
granted.  There is no `del_intercept`, no callback of the events about references, and no object of
which the memory is managed by hand.  `held` counts the references the program itself owns.  The
counts of an object are of the type `short`: `Fits` says that none of them is at its limit.
-/
import Mathlib.Algebra.Group.Int.Defs
import Mathlib.Algebra.Group.Nat.Defs
import Mathlib.Data.List.Basic

namespace Eo.Life

abbrev Id := Nat

/-- The part of an object that relates it to others; `hasParent` is the bit of `_Eo_Object`. -/
structure Shape where
  parent : Option Id
  children : List Id
  hasParent : Bool
  isInvalidating : Bool
  invalidate : Bool
  delTriggered : Bool

/-- `_Eo_Object` and its `Efl_Object_Data` -/
structure Object extends Shape where
  refcount : Int
  userRefcount : Int

structure World where
  object : Id → Option Object
  fresh : Id
  held : Id → Nat

/-- What is still to be done. -/
inductive Instr where
  /-- The program has its turn. -/
  | user
  /-- `efl_parent_set` -/
  | callParentSet (obj : Id) (parent : Option Id)
  /-- `_efl_object_parent_set` -/
  | parentSet (obj : Id) (parent : Option Id)
  /-- The rest of it, for no new parent, after the object was invalidated. -/
  | unparent (obj : Id)
  /-- `_efl_invalidate`, after the event -/
  | invalidateChildren (obj : Id)
  /-- Its loop over the children it has stashed. -/
  | invalidateLoop (obj : Id) (stash : List Id)
  /-- The rest of a turn of the loop. -/
  | invalidateNext (obj child : Id) (stash : List Id)
  /-- `_efl_object_invalidate`, when called from outside `_efl_invalidate`. -/
  | invalidateMethod (obj : Id)
  /-- `efl_unref` of a reference of the program -/
  | unref (obj : Id)
  /-- `_efl_unref` -/
  | unrefInternal (obj : Id)
  /-- `_efl_del_internal`, after the attempt to take the object from its parent -/
  | delParent (obj : Id)
  /-- Its event, once the object is invalidated. -/
  | delEvent (obj : Id)
  /-- `_efl_object_destructor` -/
  | destructor (obj : Id)
  /-- Its loop over children that are still there; `next` is the one to come. -/
  | destructorLoop (obj : Id) (next : Option Id)
  /-- Its last part. -/
  | destructorParent (obj : Id)
  /-- `_eo_free` -/
  | free (obj : Id)
  deriving DecidableEq

namespace World

variable (w : World) (x : Id)

/-- An assignment to fields of an object. -/
def modify (f : Object → Object) : World :=
  { w with object := fun i => if i = x then (w.object i).map f else w.object i }

/-- `_efl_ref` -/
def addRef : World := w.modify x fun o => { o with refcount := o.refcount + 1 }

/-- `efl_ref` -/
def ref : World :=
  w.modify x fun o =>
    { o with
      userRefcount := o.userRefcount + 1
      refcount := if o.userRefcount + 1 = 1 then o.refcount + 1 else o.refcount }

/-- The program owns one reference more. -/
def hold : World := { w with held := fun i => if i = x then w.held i + 1 else w.held i }

/-- The program owns one reference less. -/
def unhold : World := { w with held := fun i => if i = x then w.held i - 1 else w.held i }

/-- `efl_del` -/
def del : World × List Instr :=
  match w.object x with
  | none => (w, [])
  | some o =>
    (w.addRef x, [if o.parent = none then .unref x else .callParentSet x none, .unrefInternal x])

/-- `efl_unref`; a reference of the program is given back where `owned` says so. -/
def unref (owned : Bool) : World × List Instr :=
  match w.object x with
  | none => (w, [])
  | some o =>
    if o.userRefcount = 1 ∧ o.hasParent then w.del x
    else
      let w := w.modify x fun o =>
        { o with refcount := o.refcount + 1, userRefcount := o.userRefcount - 1 }
      let w := if owned then w.unhold x else w
      if o.userRefcount = 1 then (w, [.unrefInternal x, .unrefInternal x])
      else (w, [.unrefInternal x])

def parentOf : Option Id := (w.object x).bind (·.parent)

def childrenOf : List Id := ((w.object x).map (·.children)).getD []

/-- No count of references is at the limit of its type. -/
def Fits : Prop :=
  ∀ x < w.fresh, ∀ o ∈ w.object x, o.refcount < 2 ^ 15 - 1 ∧ o.userRefcount < 2 ^ 15 - 1

instance decidableFits : Decidable w.Fits :=
  inferInstanceAs (Decidable (∀ x < w.fresh, ∀ o ∈ w.object x, _))

/-- The other nodes that `eina_inlist_remove` touches: the head of the list, and the neighbours. -/
def removeTouches (l : List Id) : List Id :=
  l.head?.toList ++ (l.takeWhile fun c => decide (c ≠ x)).getLast?.toList ++
    (l.dropWhile fun c => decide (c ≠ x)).tail.head?.toList

/-- The other nodes that `eina_inlist_append` touches: the head of the list, and the last one. -/
def appendTouches (l : List Id) : List Id := l.head?.toList ++ l.getLast?.toList

/-- No freed node is touched when the object leaves the children of its parent. -/
def Removable : Prop :=
  ∀ p ∈ w.parentOf x, ∀ c ∈ removeTouches x (w.childrenOf p), w.object c ≠ none

instance decidableRemovable : Decidable (w.Removable x) :=
  inferInstanceAs (Decidable (∀ p ∈ w.parentOf x, ∀ c ∈ _, _))

/-- No freed node is touched when the object gets one more child. -/
def Appendable : Prop := ∀ c ∈ appendTouches (w.childrenOf x), w.object c ≠ none

instance decidableAppendable : Decidable (w.Appendable x) :=
  inferInstanceAs (Decidable (∀ c ∈ _, _))

/-- The object leaves the children of its parent; there is no next step when that is gone. -/
def unlink : Option World :=
  match (w.object x).bind (·.parent) with
  | none => some w
  | some p =>
    match w.object p with
    | none => none
    | some _ => some (w.modify p fun o => { o with children := o.children.erase x })

/-- The second half of `_efl_object_parent_set` with a parent. -/
def attach (p : Id) (isNew : Bool) : World :=
  let w := (w.modify x fun o => { o with parent := some p, hasParent := true }).modify p
    fun o => { o with children := o.children ++ [x] }
  if isNew then w.ref x else w

/-- The second half of `_efl_object_parent_set` without a parent, for an object that had one. -/
def unparent : World × List Instr :=
  match w.unlink x with
  | none => (w, [])
  | some w =>
    let w := w.modify x fun o => { o with parent := none, hasParent := false }
    match w.object x with
    | none => (w, [])
    | some o => if o.delTriggered then (w, []) else w.unref x false

/-- The same, as far as no freed node is touched. -/
def detach : Option (World × List Instr) :=
  if w.Removable x then some (w.unparent x) else none

/-- The start of `_efl_invalidate`. -/
def startInvalidate : World × List Instr :=
  match w.object x with
  | none => (w, [])
  | some o =>
    if o.isInvalidating then (w, [])
    else
      let w := w.modify x fun o => { o with isInvalidating := true }
      if o.invalidate then (w, []) else (w, [.user, .invalidateChildren x])

/-- The sibling behind an object. -/
def next : Option Id :=
  match (w.object x).bind (·.parent) with
  | none => none
  | some p =>
    match w.object p with
    | none => none
    | some o => (o.children.dropWhile fun c => decide (c ≠ x)).tail.head?

/-- `_efl_object_parent_set` -/
def parentSet (parent : Option Id) : Option (World × List Instr) :=
  match w.object x with
  | none => none
  | some o =>
    if o.parent = parent then some (w, [])
    else
      match parent with
      | some p =>
        match w.object p with
        | none => some (w, [])
        | some po =>
          if po.invalidate ∨ x = p ∨ o.invalidate then some (w, [])
          else
            match w.unlink x with
            | none => some (w, [])
            | some w' =>
              if w.Removable x ∧ w.Appendable p then
                some (w'.attach x p (decide (o.parent = none)), [])
              else none
      | none =>
        if o.invalidate then some (w, [])
        else
          let (w, is) := w.startInvalidate x
          if is = [] then w.detach x else some (w, is ++ [.unparent x])

/-- `_efl_unref`, up to the start of the destruction. -/
def unrefInternal : Option (World × List Instr) :=
  match w.object x with
  | none => none
  | some o =>
    let w := w.modify x fun o => { o with refcount := o.refcount - 1 }
    if 0 < o.refcount - 1 ∨ 0 < o.userRefcount ∨ o.refcount - 1 < 0 ∨ o.delTriggered then
      some (w, [])
    else
      let w := w.modify x fun o => { o with delTriggered := true, refcount := o.refcount + 1 }
      if o.hasParent then some (w, [.callParentSet x none, .delParent x])
      else if ¬o.invalidate ∨ ¬o.isInvalidating then
        let (w, is) := w.startInvalidate x
        some (w, is ++ [.delEvent x])
      else some (w, [.delEvent x])

/-- The memory of an object is given back. -/
def free : World := { w with object := fun i => if i = x then none else w.object i }

end World

/-- One instruction. -/
@[grind =]
def exec (w : World) : Instr → Option (World × List Instr)
  | .user => none
  | .callParentSet x parent =>
    match w.object x with
    | none => some (w, [])
    | some _ => some (w.addRef x, [.parentSet x parent, .unrefInternal x])
  | .parentSet x parent => w.parentSet x parent
  | .unparent x => if w.object x = none then none else w.detach x
  | .invalidateChildren x =>
    match w.object x with
    | none => none
    | some o =>
      if ∃ c ∈ o.children, w.object c = none then none
      else some (o.children.foldl World.addRef w, [.invalidateLoop x o.children.reverse])
  | .invalidateLoop x [] =>
    if w.object x = none then none
    else some (w.modify x fun o => { o with invalidate := true }, [])
  | .invalidateLoop x (c :: stash) => some (w, [.callParentSet c none, .invalidateNext x c stash])
  | .invalidateNext x c stash => some (w, [.unrefInternal c, .invalidateLoop x stash])
  | .invalidateMethod x =>
    match w.object x with
    | none => none
    | some o => some (w, if o.isInvalidating then [] else [.callParentSet x none])
  | .unref x => some (w.unref x true)
  | .unrefInternal x => w.unrefInternal x
  | .delParent x =>
    match w.object x with
    | none => none
    | some o => some (w, (if o.hasParent then [.parentSet x none] else []) ++ [.delEvent x])
  | .delEvent x => some (w, [.user, .destructor x])
  | .destructor x =>
    match w.object x with
    | none => none
    | some o =>
      some (w,
        if o.children = [] then [.destructorParent x]
        else [.destructorLoop x o.children.head?])
  | .destructorLoop x none => some (w, [.destructorParent x])
  | .destructorLoop x (some c) =>
    if w.object c = none ∨ (∃ p ∈ w.parentOf c, w.object p = none) then none
    else some (w, [.callParentSet c none, .destructorLoop x (w.next c)])
  | .destructorParent x =>
    match w.object x with
    | none => none
    | some o =>
      some (w, (if o.parent = none then [] else [.callParentSet x none]) ++ [.user, .free x])
  | .free x =>
    if w.object x = none then none
    else some (w.free x, [])

/-- A call of the program. -/
inductive Call where
  /-- `efl_add_ref`, or `efl_add` where `isRef` is false -/
  | add (parent : Option Id) (isRef : Bool)
  | parentSet (obj : Id) (parent : Option Id)
  | del (obj : Id)
  | ref (obj : Id)
  | unref (obj : Id)
  | invalidate (obj : Id)
  deriving DecidableEq

/-- A new object, before its constructor is called. -/
def newObject : Object where
  parent := none
  children := []
  hasParent := false
  isInvalidating := false
  invalidate := false
  delTriggered := false
  refcount := 2
  userRefcount := 1

/-- `_efl_add_internal_start_do` up to the parent, and what is left of `_efl_add_end`. -/
def World.add (w : World) (parent : Option Id) (isRef : Bool) : World × List Instr :=
  if parent.isSome ∧ parent.bind w.object = none then (w, [])
  else
    let x := w.fresh
    let w :=
      { w with object := fun i => if i = x then some newObject else w.object i
               fresh := x + 1
               held := fun i => if i = x then 1 else w.held i }
    (w, (if parent = none then [] else [.callParentSet x parent]) ++
      [.user, .unrefInternal x] ++ (if isRef then [] else [.unref x]))

/-- What a call does at once. -/
def call (w : World) : Call → Option (World × List Instr)
  | .add parent isRef => some (w.add parent isRef)
  | .parentSet x parent => exec w (.callParentSet x parent)
  | .del x => some (w.del x)
  | .ref x => if w.object x = none then some (w, []) else some ((w.ref x).hold x, [])
  | .unref x => exec w (.unref x)
  | .invalidate x =>
    if w.object x = none then some (w, [])
    else some (w.addRef x, [.user, .invalidateMethod x, .unrefInternal x])

/-- The machine. -/
structure Machine where
  world : World
  stack : List Instr

inductive Op where
  /-- The program makes a call. -/
  | call (c : Call)
  /-- Its callback returns. -/
  | ret
  /-- The next instruction runs. -/
  | go
  deriving DecidableEq

/-- The program has its turn. -/
def UserTurn (stack : List Instr) : Prop := stack = [] ∨ stack.head? = some .user

instance decidableUserTurn (stack : List Instr) : Decidable (UserTurn stack) :=
  inferInstanceAs (Decidable (_ ∨ _))

def Machine.step (m : Machine) : Op → Option Machine
  | .call c =>
    if UserTurn m.stack then
      (Life.call m.world c).map fun r => ⟨r.1, r.2 ++ m.stack⟩
    else none
  | .ret =>
    match m.stack with
    | .user :: rest => some ⟨m.world, rest⟩
    | _ => none
  | .go =>
    match m.stack with
    | [] => none
    | i :: rest => (exec m.world i).map fun r => ⟨r.1, r.2 ++ rest⟩

/-- No object yet. -/
def start : Machine := ⟨⟨fun _ => none, 0, fun _ => 0⟩, []⟩

end Eo.Life
