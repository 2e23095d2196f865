/-
The handlers and filters of `core_event_message_handler.c`.

While the handlers of a type are walked, a new handler of it is parked in `handlers_add`, and
while any walk goes on a deleted handler is marked and kept in `handlers_delete`.  Filters have a
walk of their own, in three rounds: before the messages are filtered, for each message and after
them.

The program is a machine with a stack of the walks that are under way.  A step is a call of the
program, at the top or from a function that a walk called, the return of such a function, or the
next move of the walk on top.  A record is given back where its links are gone from the heap, and
a move that reads such a record has no value.
-/
import Efl.Eina.Inlist.Basic

namespace Core.Event

open Eina Function

abbrev HandlerId := Nat

abbrev FilterId := Nat

abbrev MessageId := Nat

/-- `_Handler`, apart from its links -/
structure Handler where
  func : Nat
  data : Nat
  type : Nat
  deleteMe : Bool
  toAdd : Bool
  prepend : Bool
  deriving DecidableEq

/-- `_Filter`, apart from its links -/
structure Filter where
  funcStart : Option Nat
  funcFilter : Nat
  funcEnd : Option Nat
  data : Nat
  loopData : Nat
  deleteMe : Bool
  deriving DecidableEq

/-- What the message handler keeps of its handlers. -/
structure Handlers where
  eventTypeCount : Nat
  /-- The array, which is not there before the first `type_new`. -/
  handlers : List (Option HandlerId)
  handlersDelete : List HandlerId
  handlersAdd : List HandlerId
  currentEventData : Option Nat
  currentEventType : Int
  handlersWalking : Nat
  links : Inlist.Heap HandlerId
  record : HandlerId → Handler
  /-- Where the next record is allocated. -/
  fresh : HandlerId

/-- What the message handler keeps of its filters. -/
structure Filters where
  filters : Option FilterId
  filtersDelete : List FilterId
  filtersWalking : Nat
  links : Inlist.Heap FilterId
  record : FilterId → Filter
  fresh : FilterId

/-- An event on its way. -/
structure Message where
  /-- -1 once its data was stolen -/
  type : Int
  ev : Option Nat
  /-- `delete_me` of the queue's entry -/
  unsent : Bool
  deriving DecidableEq

structure World where
  handlers : Handlers
  filters : Filters
  message : MessageId → Message

def signalExit : Nat := 3

namespace Handlers

variable (s : Handlers)

/-- A record is read, which has to be there. -/
def read (h : HandlerId) : Option Handler := (s.links h).map fun _ => s.record h

/-- `EINA_INLIST_GET(h)->next` -/
def next (h : HandlerId) : Option (Option HandlerId) := (s.links h).map fun c => c.next

def modify (h : HandlerId) (f : Handler → Handler) : Handlers :=
  { s with record := update s.record h (f (s.record h)) }

/-- `type_new` -/
def typeNew : Handlers :=
  let evnum := s.eventTypeCount + 1
  let tmp := s.handlers ++ List.replicate (evnum + 1 - s.handlers.length) none
  { s with handlers := (tmp.set 0 none).set evnum none, eventTypeCount := evnum }

/-- A handler is linked to the list of its type. -/
def link (h : HandlerId) (type : Nat) (front : Bool) : Option Handlers :=
  (s.handlers[type]?).bind fun list =>
    (if front then Inlist.prepend s.links list h else Inlist.append s.fresh s.links list h).map
      fun r => { s with links := r.1, handlers := s.handlers.set type r.2 }

/-- The record of a new handler is allocated and filled. -/
def withNew (type func data : Nat) (front parked : Bool) : Handlers :=
  { s with links := Inlist.alloc s.links s.fresh
           record := update s.record s.fresh
             ⟨func, data, type, false, parked, parked && front⟩
           fresh := s.fresh + 1 }

/-- What `handler_add` and `handler_prepend` have in common. -/
def newHandler (type func data : Nat) (front : Bool) : Option (Handlers × HandlerId) :=
  if s.currentEventType = type then
    some ({ s.withNew type func data front true with handlersAdd := s.handlersAdd ++ [s.fresh] },
      s.fresh)
  else ((s.withNew type func data front false).link s.fresh type front).map fun s' => (s', s.fresh)

/-- `handler_add` -/
def handlerAdd (type : Int) (func : Option Nat) (data : Nat) :
    Option (Handlers × Option HandlerId) :=
  match func with
  | none => some (s, none)
  | some func =>
    if type ≤ 0 ∨ type > s.eventTypeCount then some (s, none)
    else (s.newHandler type.toNat func data false).map fun r => (r.1, some r.2)

/-- `handler_prepend` -/
def handlerPrepend (type : Int) (func : Option Nat) (data : Nat) :
    Option (Handlers × Option HandlerId) :=
  match func with
  | none => some (s, none)
  | some func =>
    if type < 0 ∨ type > s.eventTypeCount then some (s, none)
    else (s.newHandler type.toNat func data true).map fun r => (r.1, some r.2)

/-- `pd->handlers[h->type] = eina_inlist_remove(pd->handlers[h->type], h)` -/
def unlink (h : HandlerId) (type : Nat) : Option Handlers :=
  (s.handlers[type]?).bind fun list =>
    (Inlist.remove s.links list h).map fun r =>
      { s with links := r.1, handlers := s.handlers.set type r.2 }

/-- A handler leaves the list it is in, and its record is given back. -/
def release (h : HandlerId) : Option Handlers :=
  (s.read h).bind fun r =>
    (if r.toAdd then some { s with handlersAdd := s.handlersAdd.erase h }
      else s.unlink h r.type).map
      fun s => { s with links := Inlist.free s.links h }

/-- A parked handler is no longer parked. -/
def unpark (h : HandlerId) : Handlers :=
  { s with handlersAdd := s.handlersAdd.erase h
           record := update s.record h { s.record h with toAdd := false } }

/-- `handler_del` -/
def handlerDel (h : HandlerId) : Option (Handlers × Option Nat) :=
  (s.read h).bind fun r =>
    if r.type > s.eventTypeCount then some (s, none)
    else
      if 0 < s.handlersWalking then
        let s := if r.toAdd then s.unpark h else s
        let s := s.modify h fun r => { r with deleteMe := true }
        some ({ s with handlersDelete := s.handlersDelete ++ [h] }, some r.data)
      else (s.release h).map fun s => (s, some r.data)

/-- The parked handlers of a type are linked. -/
def addParked (type : Nat) : List HandlerId → Handlers → Option Handlers
  | [], s => some s
  | h :: rest, s => (s.read h).bind fun r =>
    if r.type ≠ type then addParked type rest s
    else ((s.unpark h).link h type r.prepend).bind fun s => addParked type rest s

/-- `EINA_LIST_FREE(pd->handlers_delete, h)` -/
def freeDeleted : List HandlerId → Handlers → Option Handlers
  | [], s => some s
  | h :: rest, s => ({ s with handlersDelete := rest }.release h).bind fun s => freeDeleted rest s

/-- The start of a walk in `message_call`. -/
def startWalk (type : Nat) (ev : Option Nat) : Option (Handlers × Option HandlerId) :=
  (s.handlers[type]?).map fun list =>
    ({ s with currentEventData := ev, currentEventType := type
              handlersWalking := s.handlersWalking + 1 }, list)

/-- The end of a walk in `message_call`. -/
def endWalk (type : Nat) : Option Handlers :=
  let s := { s with handlersWalking := s.handlersWalking - 1
                    currentEventData := none, currentEventType := -1 }
  (addParked type s.handlersAdd s).bind fun s =>
    if s.handlersWalking = 0 then freeDeleted s.handlersDelete s else some s

end Handlers

namespace Filters

variable (s : Filters)

def read (f : FilterId) : Option Filter := (s.links f).map fun _ => s.record f

/-- `EINA_INLIST_GET(f)->next` -/
def next (f : FilterId) : Option (Option FilterId) := (s.links f).map fun c => c.next

def modify (f : FilterId) (g : Filter → Filter) : Filters :=
  { s with record := update s.record f (g (s.record f)) }

/-- `filter_add` -/
def filterAdd (funcStart funcFilter funcEnd : Option Nat) (data : Nat) :
    Option (Filters × Option FilterId) :=
  match funcFilter with
  | none => some (s, none)
  | some funcFilter =>
    let f := s.fresh
    (Inlist.append (f + 1) (Inlist.alloc s.links f) s.filters f).map fun r =>
      ({ s with filters := r.2, links := r.1, fresh := f + 1
                record := update s.record f
                  ⟨funcStart, funcFilter, funcEnd, data, 0, false⟩ }, some f)

/-- `filter_del` -/
def filterDel (f : FilterId) : Option (Filters × Option Nat) :=
  (s.read f).bind fun r =>
    if 0 < s.filtersWalking then
      let s := s.modify f fun r => { r with deleteMe := true }
      some ({ s with filtersDelete := s.filtersDelete ++ [f] }, some r.data)
    else
      (Inlist.remove s.links s.filters f).map fun l =>
        ({ s with filters := l.2, links := Inlist.free l.1 f }, some r.data)

def startWalk : Filters := { s with filtersWalking := s.filtersWalking + 1 }

/-- The end of the walk in `_core_event_do_filter`. -/
def endDoFilter : Filters := { s with filtersWalking := s.filtersWalking - 1 }

/-- The end of `_core_event_filters_call`: the records are given back, and stay where they are. -/
def endFiltersCall : Filters :=
  let s := { s with filtersWalking := s.filtersWalking - 1 }
  if s.filtersWalking = 0 then
    { s with links := s.filtersDelete.foldl Inlist.free s.links, filtersDelete := [] }
  else s

end Filters

/-- A walk that is under way. -/
inductive Frame where
  /-- `message_call`, with the handler that is next -/
  | handlers (type : Nat) (ev : Option Nat) (next : Option HandlerId) (handled : Nat)
  /-- The function of a handler is running. -/
  | handling (type : Nat) (ev : Option Nat) (h : HandlerId) (handled : Nat)
  /-- `_core_event_filters_call`, before the messages -/
  | filterStart (next : Option FilterId)
  | starting (f : FilterId)
  /-- `_efl_loop_messages_filter` -/
  | messages
  /-- `_core_event_do_filter` -/
  | doFilter (msg : MessageId) (next : Option FilterId)
  | filtering (msg : MessageId) (f : FilterId)
  /-- `_core_event_filters_call`, after the messages -/
  | filterEnd (next : Option FilterId)
  | ending (f : FilterId)
  deriving DecidableEq

structure Machine where
  world : World
  stack : List Frame

/-- A step. -/
inductive Op where
  | typeNew
  | handlerAdd (type : Int) (func : Option Nat) (data : Nat)
  | handlerPrepend (type : Int) (func : Option Nat) (data : Nat)
  | handlerDel (h : HandlerId)
  | filterAdd (funcStart funcFilter funcEnd : Option Nat) (data : Nat)
  | filterDel (f : FilterId)
  /-- `core_event_message_data_set` -/
  | dataSet (msg : MessageId) (type : Int) (ev : Option Nat)
  | messageCall (msg : MessageId)
  | filtersCall
  /-- The function of a handler or filter returns. -/
  | ret (b : Bool) (p : Nat)
  /-- The walk on top moves. -/
  | go
  /-- The next message of the queue, and whether a message handler of this class sent it. -/
  | filterMessage (msg : MessageId) (isa : Bool)
  /-- There are no more messages. -/
  | messagesDone
  deriving DecidableEq

/-- What a step shows. -/
inductive Answer where
  | nothing
  | handler (h : Option HandlerId)
  | filter (f : Option FilterId)
  | data (d : Option Nat)
  | handlerCalled (h : HandlerId)
  | filterCalled (f : FilterId)
  /-- `efl_loop_quit` -/
  | quit
  deriving DecidableEq

namespace Machine

variable (m : Machine)

def withHandlers (s : Handlers) : Machine := ⟨{ m.world with handlers := s }, m.stack⟩

def withFilters (s : Filters) : Machine := ⟨{ m.world with filters := s }, m.stack⟩

def withStack (stack : List Frame) : Machine := ⟨m.world, stack⟩

/-- `message_call`, up to the walk -/
def messageCall (msg : MessageId) : Option Machine :=
  let e := m.world.message msg
  let w := { m.world with message := update m.world.message msg { e with type := -1, ev := none } }
  if 0 ≤ e.type ∧ e.type ≤ w.handlers.eventTypeCount then
    (w.handlers.startWalk e.type.toNat e.ev).map fun r =>
      ⟨{ w with handlers := r.1 }, .handlers e.type.toNat e.ev r.2 0 :: m.stack⟩
  else some ⟨w, m.stack⟩

/-- `_core_event_filters_call`, up to the first walk -/
def filtersCall : Machine :=
  if m.world.filters.filters = none then m
  else
    ⟨{ m.world with filters := m.world.filters.startWalk },
      .filterStart m.world.filters.filters :: m.stack⟩

/-- `_core_event_do_filter`, up to its walk -/
def doFilter (msg : MessageId) (isa : Bool) : Machine :=
  if (m.world.message msg).unsent ∨ m.world.filters.filters = none ∨ isa = false then m
  else
    ⟨{ m.world with filters := m.world.filters.startWalk },
      .doFilter msg m.world.filters.filters :: m.stack⟩

/-- A walk over handlers moves. -/
def goHandlers (type : Nat) (ev : Option Nat) (next : Option HandlerId) (handled : Nat)
    (rest : List Frame) : Option (Machine × Answer) :=
  match next with
  | some h => (m.world.handlers.read h).bind fun r =>
    if r.deleteMe then
      (m.world.handlers.next h).map fun next =>
        (m.withStack (.handlers type ev next handled :: rest), .nothing)
    else some (m.withStack (.handling type ev h (handled + 1) :: rest), .handlerCalled h)
  | none => (m.world.handlers.endWalk type).map fun s =>
    ((m.withHandlers s).withStack rest,
      if type = signalExit ∧ handled = 0 then .quit else .nothing)

/-- A walk over filters passes one that is marked or has nothing to call, or it calls. -/
def goFilters (f : FilterId) (calls : Filter → Bool) (again : Option FilterId → Frame)
    (call : Frame)
    (rest : List Frame) : Option (Machine × Answer) :=
  (m.world.filters.read f).bind fun r =>
    if r.deleteMe = false ∧ calls r then some (m.withStack (call :: rest), .filterCalled f)
    else
      (m.world.filters.next f).map fun next => (m.withStack (again next :: rest), .nothing)

/-- The walk on top moves. -/
def go : Option (Machine × Answer) :=
  match m.stack with
  | .handlers type ev next handled :: rest => m.goHandlers type ev next handled rest
  | .filterStart (some f) :: rest =>
    m.goFilters f (fun r => r.funcStart.isSome) .filterStart (.starting f) rest
  | .filterStart none :: rest => some (m.withStack (.messages :: rest), .nothing)
  | .doFilter msg (some f) :: rest =>
    m.goFilters f (fun _ => decide (0 ≤ (m.world.message msg).type)) (.doFilter msg)
      (.filtering msg f) rest
  | .doFilter _ none :: rest =>
    some ((m.withFilters m.world.filters.endDoFilter).withStack rest, .nothing)
  | .filterEnd (some f) :: rest =>
    m.goFilters f (fun r => r.funcEnd.isSome) .filterEnd (.ending f) rest
  | .filterEnd none :: rest =>
    some ((m.withFilters m.world.filters.endFiltersCall).withStack rest, .nothing)
  | _ => none

/-- The function that a walk called returns. -/
def ret (b : Bool) (p : Nat) : Option Machine :=
  match m.stack with
  | .handling type ev h handled :: rest =>
    if b then (m.world.handlers.next h).map fun next =>
      m.withStack (.handlers type ev next handled :: rest)
    else some (m.withStack (.handlers type ev none handled :: rest))
  | .starting f :: rest =>
    (m.world.filters.next f).map fun next =>
      (m.withFilters (m.world.filters.modify f fun r => { r with loopData := p })).withStack
        (.filterStart next :: rest)
  | .filtering msg f :: rest =>
    (m.world.filters.next f).map fun next =>
      ⟨if b then m.world else
          { m.world with message := update m.world.message msg
                           { m.world.message msg with unsent := true } },
        .doFilter msg next :: rest⟩
  | .ending f :: rest =>
    (m.world.filters.next f).map fun next => m.withStack (.filterEnd next :: rest)
  | _ => none

end Machine

/-- The program has its turn. -/
def UserTurn : List Frame → Bool
  | [] => true
  | .handling _ _ _ _ :: _ => true
  | .starting _ :: _ => true
  | .filtering _ _ :: _ => true
  | .ending _ :: _ => true
  | _ => false

/-- A call of the program. -/
def Machine.call (m : Machine) : Op → Option (Machine × Answer)
  | .typeNew => some (m.withHandlers m.world.handlers.typeNew, .nothing)
  | .handlerAdd type func data =>
    (m.world.handlers.handlerAdd type func data).map fun r => (m.withHandlers r.1, .handler r.2)
  | .handlerPrepend type func data =>
    (m.world.handlers.handlerPrepend type func data).map fun r =>
      (m.withHandlers r.1, .handler r.2)
  | .handlerDel h =>
    (m.world.handlers.handlerDel h).map fun r => (m.withHandlers r.1, .data r.2)
  | .filterAdd funcStart funcFilter funcEnd data =>
    (m.world.filters.filterAdd funcStart funcFilter funcEnd data).map fun r =>
      (m.withFilters r.1, .filter r.2)
  | .filterDel f => (m.world.filters.filterDel f).map fun r => (m.withFilters r.1, .data r.2)
  | .dataSet msg type ev =>
    some (⟨{ m.world with message := update m.world.message msg
                            { m.world.message msg with type := type, ev := ev } }, m.stack⟩,
                              .nothing)
  | .messageCall msg => (m.messageCall msg).map fun m => (m, .nothing)
  | .filtersCall => some (m.filtersCall, .nothing)
  | _ => none

def Machine.step (m : Machine) : Op → Option (Machine × Answer)
  | .ret b p => (m.ret b p).map fun m => (m, .nothing)
  | .go => m.go
  | .filterMessage msg isa =>
    match m.stack with
    | .messages :: _ => some (m.doFilter msg isa, .nothing)
    | _ => none
  | .messagesDone =>
    match m.stack with
    | .messages :: rest =>
      some (m.withStack (.filterEnd m.world.filters.filters :: rest), .nothing)
    | _ => none
  | op => if UserTurn m.stack then m.call op else none

/-- After the constructor. -/
def start : Machine where
  world :=
    { handlers := ⟨0, [], [], [], none, -1, 0, fun _ => none,
      fun _ => ⟨0, 0, 0, false, false, false⟩, 0⟩
      filters := ⟨none, [], 0, fun _ => none, fun _ => ⟨none, 0, none, 0, 0, false⟩, 0⟩
      message := fun _ => ⟨-1, none, false⟩ }
  stack := []

end Core.Event
