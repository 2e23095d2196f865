/-
Runs of the message handler.

The program holds a handle from the call that returned it until it deletes it.  `Machine.Good` puts
the two invariants together, each over the handles held and the walks of its kind on the stack.  A
careful step keeps it and never reads a record that was given back.  What a step has to be careful
about is the end of `_core_event_filters_call`: `filter_del` is allowed inside of a filter function,
and the record it leaves to be given back later is given back while it is still linked.
-/
import Efl.Core.Event.Deleted
import Efl.Core.Event.Filters
import Efl.Lib.Runs

namespace Core.Event

open Eina Eina.Inlist Runs List Option Function

/-- The walk over handlers of a frame. -/
def Frame.handlerWalk : Frame → Option Walk
  | .handlers type _ next _ => some (type, next)
  | .handling type _ h _ => some (type, some h)
  | _ => none

/-- The walk over filters of a frame. -/
def Frame.filterWalk : Frame → Option (Option FilterId)
  | .handlers _ _ _ _ => none
  | .handling _ _ _ _ => none
  | .filterStart next => some next
  | .starting f => some (some f)
  | .messages => some none
  | .doFilter _ next => some next
  | .filtering _ f => some (some f)
  | .filterEnd next => some next
  | .ending f => some (some f)

namespace Machine

variable (m : Machine)

def handlerWalks : List Walk := m.stack.filterMap Frame.handlerWalk

def filterWalks : List (Option FilterId) := m.stack.filterMap Frame.filterWalk

end Machine

/-! ### What the program knows -/

/-- The handlers that the program holds after a step, by what it called and what that answered. -/
def handlersAfter (held : HandlerId → Bool) (op : Op) (a : Answer) : HandlerId → Bool :=
  match op with
  | .handlerDel h => update held h false
  | .handlerAdd _ _ _ | .handlerPrepend _ _ _ =>
    match a with
    | .handler (some h) => update held h true
    | _ => held
  | _ => held

/-- The filters that the program holds after a step. -/
def filtersAfter (held : FilterId → Bool) (op : Op) (a : Answer) : FilterId → Bool :=
  match op with
  | .filterDel f => update held f false
  | .filterAdd _ _ _ _ =>
    match a with
    | .filter (some f) => update held f true
    | _ => held
  | _ => held

/-- The machine, with the handlers and filters that were added and not deleted. -/
structure Program where
  machine : Machine
  handlers : HandlerId → Bool
  filters : FilterId → Bool

namespace Program

def start : Program := ⟨Event.start, fun _ => false, fun _ => false⟩

def step (p : Program) (op : Op) : Option (Program × Answer) :=
  (p.machine.step op).map fun (m, a) =>
    (⟨m, handlersAfter p.handlers op a, filtersAfter p.filters op a⟩, a)

end Program

/-! ### What the program may do, and what it should do -/

/-- Whose turn it is. -/
def Turn (stack : List Frame) : Op → Bool
  | .ret _ _ => !stack.isEmpty && UserTurn stack
  | .go => !UserTurn stack && stack.head? != some .messages
  | .filterMessage _ _ => stack.head? == some .messages
  | .messagesDone => stack.head? == some .messages
  | _ => UserTurn stack

/-- A step at its turn, where only handles that were added and not deleted are deleted. -/
def Proper (p : Program) (op : Op) : Prop :=
  Turn p.machine.stack op = true ∧
    match op with
    | .handlerDel h => p.handlers h = true
    | .filterDel f => p.filters f = true
    | _ => True

instance decidableProper (p : Program) (op : Op) : Decidable (Proper p op) := by
  unfold Proper
  cases op <;> exact inferInstance

/-- Nothing waits to be given back when `_core_event_filters_call` ends, and type 0 is left
alone while there is no array or a new one is made. -/
def Harmless (m : Machine) : Op → Prop
  | .typeNew => (m.world.handlers.handlers[0]?).join = none
  | .handlerPrepend type _ _ => type = 0 → m.world.handlers.handlers ≠ []
  | .messageCall msg => (m.world.message msg).type = 0 → m.world.handlers.handlers ≠ []
  | .go => m.stack.head? = some (.filterEnd none) → m.world.filters.filtersWalking = 1 →
      m.world.filters.filtersDelete = []
  | _ => True

instance decidableHarmless (m : Machine) (op : Op) : Decidable (Harmless m op) := by
  unfold Harmless
  cases op <;> exact inferInstance

def Careful (p : Program) (op : Op) : Prop := Proper p op ∧ Harmless p.machine op

instance decidableCareful (p : Program) (op : Op) : Decidable (Careful p op) :=
  inferInstanceAs (Decidable (_ ∧ _))

/-! ### What is asked for -/

/-- Between the walks over handlers exactly the handlers that were added and not deleted are
linked, each to the list of its type; between the walks over filters so are the filters. -/
structure Exact (p : Program) : Prop where
  handlers : p.machine.handlerWalks = [] →
    (∀ t list, p.machine.world.handlers.handlers[t]? = some list →
      ∃ xs, Linked p.machine.world.handlers.links list xs ∧
        ∀ h, h ∈ xs ↔ p.handlers h = true ∧ (p.machine.world.handlers.record h).type = t) ∧
    ∀ h, p.handlers h = true →
      ∃ list,
        p.machine.world.handlers.handlers[(p.machine.world.handlers.record h).type]? = some list
  filters : p.machine.filterWalks = [] →
    ∃ xs, Linked p.machine.world.filters.links p.machine.world.filters.filters xs ∧
      ∀ f, f ∈ xs ↔ p.filters f = true

/-- No record that can be reached was given back. -/
structure NoneFreed (m : Machine) : Prop where
  handlers : ∀ (t : Nat) list h, m.world.handlers.handlers[t]? = some list →
    Reaches m.world.handlers.links list h → m.world.handlers.links h ≠ none
  parked : ∀ h ∈ m.world.handlers.handlersAdd, m.world.handlers.links h ≠ none
  deleted : ∀ h ∈ m.world.handlers.handlersDelete, m.world.handlers.links h ≠ none
  handlerWalks : ∀ t h, (t, some h) ∈ m.handlerWalks → m.world.handlers.links h ≠ none
  filters : ∀ f, Reaches m.world.filters.links m.world.filters.filters f →
    m.world.filters.links f ≠ none
  filtersDelete : ∀ f ∈ m.world.filters.filtersDelete, m.world.filters.links f ≠ none
  filterWalks : ∀ f, some f ∈ m.filterWalks → m.world.filters.links f ≠ none

/-- What is called was added and not deleted. -/
def Answer.Live (held : HandlerId → Bool) (heldFilters : FilterId → Bool) : Answer → Prop
  | .handlerCalled h => held h = true
  | .filterCalled f => heldFilters f = true
  | _ => True

def CallsLive (p : Program) : Prop :=
  ∀ op p' a, p.step op = some (p', a) → a.Live p.handlers p.filters

/-! ### The invariant -/

/-- A walk of `_core_event_do_filter` is made for a message. -/
def StackOk : List Frame → Prop
  | [] => True
  | f :: rest =>
    (match f with
      | .doFilter _ _ => rest.head? = some .messages
      | .filtering _ _ => rest.head? = some .messages
      | _ => True) ∧ StackOk rest

structure Machine.Good (m : Machine) (held : HandlerId → Bool) (heldFilters : FilterId → Bool) :
    Prop where
  stack : StackOk m.stack
  handlers : ∃ L, m.world.handlers.Ok held m.handlerWalks L
  counts : m.world.handlers.Counts m.handlerWalks
  filters : ∃ F, m.world.filters.Ok heldFilters m.filterWalks F

namespace Machine.Good

variable {m m' : Machine} {held : HandlerId → Bool} {heldFilters : FilterId → Bool}

/-- **The invariant gives what is asked for.** -/
theorem exact (h : m.Good held heldFilters) : Exact ⟨m, held, heldFilters⟩ := by
  constructor
  · intro hwalks
    obtain ⟨L, hL⟩ := h.handlers
    have hc := h.counts
    rw [hwalks] at hL hc
    have hdelete : m.world.handlers.handlersDelete = [] := hc.rest hc.walking
    have hlive : ∀ y, held y = true ↔ y ∈ L (m.world.handlers.record y).type := by
      intro y
      rw [hL.held]
      constructor
      · rintro (hy | ⟨hy, -⟩)
        · obtain ⟨-, -, -, x, hx⟩ := hL.parked y hy
          simp at hx
        · exact hy
      · intro hy
        refine .inr ⟨hy, ?_⟩
        cases hmark : (m.world.handlers.record y).deleteMe with
        | false => rfl
        | true =>
          have hdel := hL.marked _ y hy hmark
          rw [hdelete] at hdel
          simp at hdel
    refine ⟨?_, ?_⟩
    · intro t list hget
      refine ⟨L t, hL.lists t list hget, ?_⟩
      intro y
      rw [hlive]
      constructor
      · intro hy
        have ht := (hL.typed t y hy).1
        rw [ht]
        exact ⟨hy, rfl⟩
      · rintro ⟨hy, rfl⟩
        exact hy
    · intro y hy
      exact ⟨_, getElem?_eq_getElem (hL.held_lt hy)⟩
  · intro hwalks
    obtain ⟨F, hF⟩ := h.filters
    rw [hwalks] at hF
    have hdelete : m.world.filters.filtersDelete = [] := hF.rest hF.walking
    refine ⟨F, hF.list, ?_⟩
    intro f
    rw [hF.held]
    refine ⟨fun hf => ⟨hf, ?_⟩, fun hf => hf.1⟩
    cases hmark : (m.world.filters.record f).deleteMe with
    | false => rfl
    | true =>
      have hdel := hF.marked f hf hmark
      rw [hdelete] at hdel
      simp at hdel

theorem noneFreed (h : m.Good held heldFilters) : NoneFreed m := by
  obtain ⟨L, hL⟩ := h.handlers
  obtain ⟨F, hF⟩ := h.filters
  constructor
  · intro t list y hget hr
    exact hL.linked_alive ((hL.lists t list hget).reaches.mp hr)
  · exact fun y hy => hL.parked_alive hy
  · exact fun y hy => hL.deleted_alive hy
  · exact fun t y hy => hL.linked_alive ((hL.walked t _ hy).2 y rfl)
  · exact fun f hf => hF.alive (hF.list.reaches.mp hf)
  · exact fun f hf => hF.alive (hF.deleted f hf).1
  · exact fun f hf => hF.alive (hF.walked _ hf f rfl)

/-! ### What a step calls -/

variable {rest : List Frame} {a : Answer} {again : Option FilterId → Frame}
  {next : Option HandlerId} {calls : Filter → Bool} {type handled : Nat} {op : Op}
  {F : List FilterId} {ev : Option Nat} {f : FilterId} {s : Filters}

theorem goHandlers_live
    (hgood : m.Good held heldFilters) (hstack : m.stack = .handlers type ev next handled :: rest)
    (hstep : m.goHandlers type ev next handled rest = some (m', a)) : a.Live held heldFilters := by
  obtain ⟨L, hL⟩ := hgood.handlers
  unfold Machine.goHandlers at hstep
  cases next with
  | none =>
    obtain ⟨s, -, hs⟩ := map_eq_some_iff.mp hstep
    obtain ⟨-, rfl⟩ := Prod.mk.inj hs
    split <;> trivial
  | some y =>
    have hin : y ∈ L type := by
      refine (hL.walked type (some y) ?_).2 y rfl
      unfold Machine.handlerWalks
      rw [hstack]
      exact mem_cons_self
    dsimp only at hstep
    rw [hL.read (hL.linked_alive hin), bind_some] at hstep
    split at hstep
    · obtain ⟨n, -, hn⟩ := map_eq_some_iff.mp hstep
      obtain ⟨-, rfl⟩ := Prod.mk.inj hn
      trivial
    · rename_i hmark
      obtain ⟨-, rfl⟩ := Prod.mk.inj (some.inj hstep)
      refine (hL.held y).mpr (.inr ⟨?_, by simpa using hmark⟩)
      rw [(hL.typed type y hin).1]
      exact hin

theorem goFilters_live
    {call : Frame} (hgood : m.Good held heldFilters) (hwalk : some f ∈ m.filterWalks)
    (hstep : m.goFilters f calls again call rest = some (m', a)) : a.Live held heldFilters := by
  obtain ⟨F, hF⟩ := hgood.filters
  have hin : f ∈ F := hF.walked _ hwalk f rfl
  unfold Machine.goFilters at hstep
  rw [hF.read hin, bind_some] at hstep
  split at hstep
  · rename_i hcall
    obtain ⟨-, rfl⟩ := Prod.mk.inj (some.inj hstep)
    exact (hF.held f).mpr ⟨hin, hcall.1⟩
  · obtain ⟨n, -, hn⟩ := map_eq_some_iff.mp hstep
    obtain ⟨-, rfl⟩ := Prod.mk.inj hn
    trivial

theorem go_live (hgood : m.Good held heldFilters) (hstep : m.go = some (m', a)) :
    a.Live held heldFilters := by
  have hnothing : ∀ {s : Machine}, some (s, Answer.nothing) = some (m', a) →
      a.Live held heldFilters := by
    intro s h
    obtain ⟨-, rfl⟩ := Prod.mk.inj (some.inj h)
    trivial
  unfold Machine.go at hstep
  split at hstep
  · rename_i hstack
    exact goHandlers_live hgood hstack hstep
  · rename_i hstack
    refine goFilters_live hgood ?_ hstep
    unfold Machine.filterWalks
    rw [hstack]
    exact mem_cons_self
  · exact hnothing hstep
  · rename_i hstack
    refine goFilters_live hgood ?_ hstep
    unfold Machine.filterWalks
    rw [hstack]
    exact mem_cons_self
  · exact hnothing hstep
  · rename_i hstack
    refine goFilters_live hgood ?_ hstep
    unfold Machine.filterWalks
    rw [hstack]
    exact mem_cons_self
  · exact hnothing hstep
  · simp at hstep

theorem call_live (hstep : m.call op = some (m', a)) : a.Live held heldFilters := by
  cases op <;> simp only [Machine.call, map_eq_some_iff,
    reduceCtorEq] at hstep
  all_goals
    first
      | obtain ⟨-, rfl⟩ := hstep
      | obtain ⟨_, -, -, rfl⟩ := hstep
    trivial

theorem step_live (hgood : m.Good held heldFilters) (hstep : m.step op = some (m', a)) :
    a.Live held heldFilters := by
  have hcall : (if UserTurn m.stack then m.call op else none) = some (m', a) →
      a.Live held heldFilters := by
    intro h
    split at h
    · exact call_live h
    · simp at h
  cases op with
  | go => exact go_live hgood hstep
  | ret b p =>
    obtain ⟨s, -, hs⟩ := map_eq_some_iff.mp hstep
    obtain ⟨-, rfl⟩ := Prod.mk.inj hs
    trivial
  | filterMessage msg isa =>
    simp only [Machine.step] at hstep
    split at hstep
    · obtain ⟨-, rfl⟩ := Prod.mk.inj (some.inj hstep)
      trivial
    · simp at hstep
  | messagesDone =>
    simp only [Machine.step] at hstep
    split at hstep
    · obtain ⟨-, rfl⟩ := Prod.mk.inj (some.inj hstep)
      trivial
    · simp at hstep
  | _ => exact hcall hstep

/-- **Only handlers and filters that were not deleted are called.** -/
theorem callsLive (hgood : m.Good held heldFilters) : CallsLive ⟨m, held, heldFilters⟩ := by
  intro op p' a hstep
  obtain ⟨r, hr, heq⟩ := map_eq_some_iff.mp hstep
  obtain ⟨-, rfl⟩ := Prod.mk.inj heq
  exact step_live hgood hr

/-! ### Every careful step keeps the invariant -/

theorem withHandlers {s : Handlers} {L : Nat → List HandlerId} {held' : HandlerId → Bool}
    (h : m.Good held heldFilters) (hs : s.Ok held' m.handlerWalks L)
    (hc : s.Counts m.handlerWalks) : (m.withHandlers s).Good held' heldFilters :=
  ⟨h.stack, ⟨L, hs⟩, hc, h.filters⟩

theorem withFilters {heldFilters' : FilterId → Bool} (h : m.Good held heldFilters)
    (hs : s.Ok heldFilters' m.filterWalks F) : (m.withFilters s).Good held heldFilters' :=
  ⟨h.stack, h.handlers, h.counts, ⟨F, hs⟩⟩

theorem messageCall (h : m.Good held heldFilters) (msg : MessageId)
    (hzero : (m.world.message msg).type = 0 → m.world.handlers.handlers ≠ []) :
    ∃ m', m.messageCall msg = some m' ∧ m'.Good held heldFilters := by
  obtain ⟨L, hL⟩ := h.handlers
  unfold Machine.messageCall
  by_cases htype : 0 ≤ (m.world.message msg).type ∧
      (m.world.message msg).type ≤ m.world.handlers.eventTypeCount
  · rw [if_pos htype]
    have hlt := hL.lt_of_type_of htype.1 htype.2 hzero
    obtain ⟨s', list, hstart, hok, hcounts⟩ :=
      hL.startWalk h.counts hlt (m.world.message msg).ev
    rw [hstart]
    exact ⟨_, rfl, ⟨⟨trivial, h.stack⟩, ⟨L, hok⟩, hcounts, h.filters⟩⟩
  · rw [if_neg htype]
    exact ⟨_, rfl, ⟨h.stack, h.handlers, h.counts, h.filters⟩⟩

theorem filtersCall (h : m.Good held heldFilters) : m.filtersCall.Good held heldFilters := by
  obtain ⟨F, hF⟩ := h.filters
  unfold Machine.filtersCall
  split
  · exact h
  · exact ⟨⟨trivial, h.stack⟩, h.handlers, h.counts, ⟨F, hF.startWalk⟩⟩

theorem doFilter (h : m.Good held heldFilters) (hstack : m.stack.head? = some .messages)
    (msg : MessageId)
    (isa : Bool) : (m.doFilter msg isa).Good held heldFilters := by
  obtain ⟨F, hF⟩ := h.filters
  unfold Machine.doFilter
  split
  · exact h
  · exact ⟨⟨hstack, h.stack⟩, h.handlers, h.counts, ⟨F, hF.startWalk⟩⟩

/-- **Every call of the program keeps the invariant.** -/
theorem call (h : m.Good held heldFilters) (hop : Careful ⟨m, held, heldFilters⟩ op) :
    (∃ m' a, m.call op = some (m', a) ∧
      m'.Good (handlersAfter held op a) (filtersAfter heldFilters op a)) ∨
      op = .go ∨ (∃ b p, op = .ret b p) ∨ (∃ msg isa, op = .filterMessage msg isa) ∨
      op = .messagesDone := by
  obtain ⟨L, hL⟩ := h.handlers
  obtain ⟨F, hF⟩ := h.filters
  obtain ⟨⟨-, hproper⟩, hharmless⟩ := hop
  cases op with
  | typeNew =>
    have hempty : ∀ y, m.world.handlers.handlers[0]? ≠ some (some y) := by
      intro y hy
      have hjoin : (m.world.handlers.handlers[0]?).join = none := hharmless
      rw [hy] at hjoin
      simp at hjoin
    obtain ⟨hok, hcounts⟩ := hL.typeNew h.counts hempty
    exact .inl ⟨_, _, rfl, h.withHandlers hok hcounts⟩
  | handlerAdd type func data =>
    obtain ⟨s', y, L', hadd, hok, hcounts⟩ := hL.handlerAdd h.counts type func data
    refine .inl ⟨_, _, by rw [Machine.call, hadd]; rfl, ?_⟩
    cases y <;> exact h.withHandlers hok hcounts
  | handlerPrepend type func data =>
    obtain ⟨s', y, L', hadd, hok, hcounts⟩ :=
      hL.handlerPrepend h.counts type func data hharmless
    refine .inl ⟨_, _, by rw [Machine.call, hadd]; rfl, ?_⟩
    cases y <;> exact h.withHandlers hok hcounts
  | handlerDel y =>
    obtain ⟨s', L', d, hdel, hok, hcounts⟩ := hL.handlerDel h.counts hproper
    exact .inl ⟨_, _, by rw [Machine.call, hdel]; rfl, h.withHandlers hok hcounts⟩
  | filterAdd funcStart funcFilter funcEnd data =>
    obtain ⟨s', f, F', hadd, hok⟩ := hF.filterAdd funcStart funcFilter funcEnd data
    refine .inl ⟨_, _, by rw [Machine.call, hadd]; rfl, ?_⟩
    cases f <;> exact h.withFilters hok
  | filterDel f =>
    obtain ⟨s', d, F', hdel, hok⟩ := hF.filterDel hproper
    exact .inl ⟨_, _, by rw [Machine.call, hdel]; rfl, h.withFilters hok⟩
  | dataSet msg type ev =>
    exact .inl ⟨_, _, rfl, ⟨h.stack, h.handlers, h.counts, h.filters⟩⟩
  | messageCall msg =>
    obtain ⟨m', hcall, hgood⟩ := h.messageCall msg hharmless
    exact .inl ⟨_, _, by rw [Machine.call, hcall]; rfl, hgood⟩
  | filtersCall => exact .inl ⟨_, _, rfl, h.filtersCall⟩
  | ret b p => exact .inr (.inr (.inl ⟨b, p, rfl⟩))
  | go => exact .inr (.inl rfl)
  | filterMessage msg isa => exact .inr (.inr (.inr (.inl ⟨msg, isa, rfl⟩)))
  | messagesDone => exact .inr (.inr (.inr (.inr rfl)))

theorem goHandlers (h : m.Good held heldFilters)
    (hstack : m.stack = .handlers type ev next handled :: rest) :
    ∃ m' a, m.goHandlers type ev next handled rest = some (m', a) ∧ m'.Good held heldFilters := by
  obtain ⟨w, stack⟩ := m
  obtain rfl : stack = .handlers type ev next handled :: rest := hstack
  obtain ⟨-, hrest⟩ := h.stack
  obtain ⟨L, hL⟩ := h.handlers
  have hL' : w.handlers.Ok held ((type, next) :: rest.filterMap Frame.handlerWalk) L := hL
  have hc' : w.handlers.Counts ((type, next) :: rest.filterMap Frame.handlerWalk) := h.counts
  unfold Machine.goHandlers
  cases next with
  | none =>
    obtain ⟨s', L', hend, hok, hcounts⟩ := hL'.endWalk hc'
    rw [hend]
    exact ⟨_, _, rfl, ⟨hrest, ⟨L', hok⟩, hcounts, h.filters⟩⟩
  | some y =>
    have hin : y ∈ L type := (hL'.walked type _ mem_cons_self).2 y rfl
    dsimp only
    rw [hL'.read (hL'.linked_alive hin), bind_some]
    split
    · obtain ⟨n, hnext, hn⟩ := hL'.next hin
      rw [hnext]
      exact ⟨_, _, rfl, ⟨⟨trivial, hrest⟩, ⟨L, hL'.rewalk hn⟩, hc'.rewalk, h.filters⟩⟩
    · exact ⟨_, _, rfl, ⟨⟨trivial, hrest⟩, ⟨L, hL'⟩, hc', h.filters⟩⟩

theorem goFilters
    {call frame : Frame} (h : m.Good held heldFilters) (hstack : m.stack = frame :: rest)
    (hframe : frame.filterWalk = some (some f)) (hcall : call.filterWalk = some (some f))
    (hagain : ∀ x, (again x).filterWalk = some x)
    (hsame : frame.handlerWalk = none ∧ call.handlerWalk = none ∧ ∀ x, (again x).handlerWalk = none)
    (hok : StackOk (call :: rest) ∧ ∀ x, StackOk (again x :: rest)) :
    ∃ m' a, m.goFilters f calls again call rest = some (m', a) ∧ m'.Good held heldFilters := by
  obtain ⟨w, stack⟩ := m
  obtain rfl : stack = frame :: rest := hstack
  obtain ⟨F, hF⟩ := h.filters
  obtain ⟨hframe', hcall', hagain'⟩ := hsame
  have hwalks : ∀ (fr : Frame), fr.handlerWalk = none →
      (Machine.mk w (fr :: rest)).handlerWalks = rest.filterMap Frame.handlerWalk := by
    intro fr hfr
    exact filterMap_cons_none hfr
  have hfilters : ∀ (fr : Frame) x, fr.filterWalk = some x →
      (Machine.mk w (fr :: rest)).filterWalks = x :: rest.filterMap Frame.filterWalk := by
    intro fr x hfr
    exact filterMap_cons_some hfr
  have hH := h.handlers
  have hC := h.counts
  rw [hwalks _ hframe'] at hH hC
  rw [hfilters _ _ hframe] at hF
  have hin : f ∈ F := hF.walked _ mem_cons_self f rfl
  unfold Machine.goFilters
  rw [hF.read hin, bind_some]
  split
  · refine ⟨_, _, rfl, ⟨hok.1, ?_, ?_, F, ?_⟩⟩
    · rw [show (Machine.withStack _ _).handlerWalks = _ from hwalks call hcall']
      exact hH
    · rw [show (Machine.withStack _ _).handlerWalks = _ from hwalks call hcall']
      exact hC
    · rw [show (Machine.withStack _ _).filterWalks = _ from hfilters call _ hcall]
      exact hF
  · obtain ⟨n, hnext, hn⟩ := hF.next hin
    rw [hnext]
    refine ⟨_, _, rfl, ⟨hok.2 n, ?_, ?_, F, ?_⟩⟩
    · rw [show (Machine.withStack _ _).handlerWalks = _ from hwalks (again n) (hagain' n)]
      exact hH
    · rw [show (Machine.withStack _ _).handlerWalks = _ from hwalks (again n) (hagain' n)]
      exact hC
    · rw [show (Machine.withStack _ _).filterWalks = _ from hfilters (again n) n (hagain n)]
      exact hF.rewalk hn

theorem popFilter {frame : Frame} (h : m.Good held heldFilters)
    (hstack : m.stack = frame :: rest) (hframe : frame.handlerWalk = none)
    (hs : s.Ok heldFilters (rest.filterMap Frame.filterWalk) F) :
      ((m.withFilters s).withStack rest).Good held heldFilters := by
  obtain ⟨w, stack⟩ := m
  obtain rfl : stack = frame :: rest := hstack
  have hH := h.handlers
  have hC := h.counts
  unfold Machine.handlerWalks at hH hC
  rw [filterMap_cons_none hframe] at hH hC
  exact ⟨h.stack.2, hH, hC, ⟨F, hs⟩⟩

theorem go (h : m.Good held heldFilters) (hop : Careful ⟨m, held, heldFilters⟩ .go) :
    ∃ m' a, m.go = some (m', a) ∧ m'.Good held heldFilters := by
  obtain ⟨⟨hturn, -⟩, hharmless⟩ := hop
  obtain ⟨w, stack⟩ := m
  obtain ⟨F, hF⟩ := h.filters
  cases stack with
  | nil => simp [Turn, UserTurn] at hturn
  | cons frame rest =>
    have hok : StackOk rest := h.stack.2
    cases frame with
    | handlers type ev next handled => exact h.goHandlers rfl
    | filterStart next =>
      cases next with
      | none => exact ⟨_, _, rfl, ⟨⟨trivial, hok⟩, h.handlers, h.counts, ⟨F, hF⟩⟩⟩
      | some f =>
        exact h.goFilters rfl rfl rfl (fun _ => rfl) ⟨rfl, rfl, fun _ => rfl⟩
          ⟨⟨trivial, hok⟩, fun _ => ⟨trivial, hok⟩⟩
    | doFilter msg next =>
      have hbelow : rest.head? = some .messages := h.stack.1
      cases next with
      | none =>
        have hF' : w.filters.Ok heldFilters (none :: rest.filterMap Frame.filterWalk) F := hF
        refine ⟨_, _, rfl, h.popFilter rfl rfl (hF'.pop ?_)⟩
        intro hnil
        cases rest with
        | nil => simp at hbelow
        | cons fr rest =>
          obtain rfl : fr = .messages := some.inj hbelow
          simp [Frame.filterWalk] at hnil
      | some f =>
        exact h.goFilters rfl rfl rfl (fun _ => rfl) ⟨rfl, rfl, fun _ => rfl⟩
          ⟨⟨hbelow, hok⟩, fun _ => ⟨hbelow, hok⟩⟩
    | filterEnd next =>
      cases next with
      | none =>
        have hF' : w.filters.Ok heldFilters (none :: rest.filterMap Frame.filterWalk) F := hF
        refine ⟨_, _, rfl, h.popFilter rfl rfl (hF'.endFiltersCall ?_)⟩
        intro hnil
        refine hharmless rfl ?_
        rw [hF'.walking, hnil]
        rfl
      | some f =>
        exact h.goFilters rfl rfl rfl (fun _ => rfl) ⟨rfl, rfl, fun _ => rfl⟩
          ⟨⟨trivial, hok⟩, fun _ => ⟨trivial, hok⟩⟩
    | messages => simp [Turn] at hturn
    | _ => simp [Turn, UserTurn] at hturn

theorem ret (h : m.Good held heldFilters) {b : Bool} {p : Nat}
    (hturn : Turn m.stack (.ret b p) = true) :
    ∃ m', m.ret b p = some m' ∧ m'.Good held heldFilters := by
  obtain ⟨w, stack⟩ := m
  obtain ⟨L, hL⟩ := h.handlers
  obtain ⟨F, hF⟩ := h.filters
  cases stack with
  | nil => simp [Turn] at hturn
  | cons frame rest =>
    have hok : StackOk rest := h.stack.2
    unfold Machine.ret
    cases frame with
    | handling type ev y handled =>
      have hL' : w.handlers.Ok held ((type, some y) :: rest.filterMap Frame.handlerWalk) L := hL
      have hc' : w.handlers.Counts ((type, some y) :: rest.filterMap Frame.handlerWalk) :=
        h.counts
      have hin : y ∈ L type := (hL'.walked type _ mem_cons_self).2 y rfl
      dsimp only
      cases b with
      | true =>
        obtain ⟨n, hnext, hn⟩ := hL'.next hin
        rw [hnext]
        exact ⟨_, rfl, ⟨⟨trivial, hok⟩, ⟨L, hL'.rewalk hn⟩, hc'.rewalk, h.filters⟩⟩
      | false =>
        have hnone : ∀ z, (none : Option HandlerId) = some z → z ∈ L type :=
          fun z hz => absurd hz (by simp)
        exact ⟨_, rfl, ⟨⟨trivial, hok⟩, ⟨L, hL'.rewalk hnone⟩, hc'.rewalk, h.filters⟩⟩
    | starting f =>
      have hF' : w.filters.Ok heldFilters (some f :: rest.filterMap Frame.filterWalk) F := hF
      obtain ⟨n, hnext, hn⟩ := hF'.next (hF'.walked _ mem_cons_self f rfl)
      dsimp only
      rw [hnext]
      exact ⟨_, rfl, ⟨⟨trivial, hok⟩, h.handlers, h.counts, ⟨F, (hF'.modify p).rewalk hn⟩⟩⟩
    | filtering msg f =>
      have hbelow : rest.head? = some .messages := h.stack.1
      have hF' : w.filters.Ok heldFilters (some f :: rest.filterMap Frame.filterWalk) F := hF
      obtain ⟨n, hnext, hn⟩ := hF'.next (hF'.walked _ mem_cons_self f rfl)
      dsimp only
      rw [hnext]
      refine ⟨_, rfl, ?_⟩
      cases b with
      | true => exact ⟨⟨hbelow, hok⟩, h.handlers, h.counts, ⟨F, hF'.rewalk hn⟩⟩
      | false => exact ⟨⟨hbelow, hok⟩, h.handlers, h.counts, ⟨F, hF'.rewalk hn⟩⟩
    | ending f =>
      have hF' : w.filters.Ok heldFilters (some f :: rest.filterMap Frame.filterWalk) F := hF
      obtain ⟨n, hnext, hn⟩ := hF'.next (hF'.walked _ mem_cons_self f rfl)
      dsimp only
      rw [hnext]
      exact ⟨_, rfl, ⟨⟨trivial, hok⟩, h.handlers, h.counts, ⟨F, hF'.rewalk hn⟩⟩⟩
    | _ => simp [Turn, UserTurn] at hturn

/-- **The step lemma**: a careful step can be made, and keeps the invariant. -/
theorem step (h : m.Good held heldFilters) (hop : Careful ⟨m, held, heldFilters⟩ op) :
    ∃ m' a, m.step op = some (m', a) ∧
      m'.Good (handlersAfter held op a) (filtersAfter heldFilters op a) := by
  have hturn := hop.1.1
  rcases h.call hop with ⟨m', a, hcall, hgood⟩ | rfl | ⟨b, p, rfl⟩ | ⟨msg, isa, rfl⟩ | rfl
  · have huser : m.step op = m.call op := by
      cases op with
      | ret b p => simp [Machine.call] at hcall
      | go => simp [Machine.call] at hcall
      | filterMessage msg isa => simp [Machine.call] at hcall
      | messagesDone => simp [Machine.call] at hcall
      | _ => exact if_pos hturn
    exact ⟨m', a, huser.trans hcall, hgood⟩
  · exact h.go hop
  · obtain ⟨m', hret, hgood⟩ := h.ret hturn
    exact ⟨m', .nothing, by rw [Machine.step, hret]; rfl, hgood⟩
  · have hhead : m.stack.head? = some .messages := eq_of_beq hturn
    refine ⟨_, .nothing, ?_, h.doFilter hhead msg isa⟩
    obtain ⟨rest, hrest⟩ : ∃ rest, m.stack = .messages :: rest := head?_eq_some_iff.mp hhead
    simp only [Machine.step, hrest]
  have hhead : m.stack.head? = some .messages := eq_of_beq hturn
  obtain ⟨rest, hrest⟩ : ∃ rest, m.stack = .messages :: rest := head?_eq_some_iff.mp hhead
  obtain ⟨w, stack⟩ := m
  obtain rfl : stack = .messages :: rest := hrest
  obtain ⟨F, hF⟩ := h.filters
  have hF' : w.filters.Ok heldFilters (none :: rest.filterMap Frame.filterWalk) F := hF
  exact ⟨_, .nothing, rfl, ⟨⟨trivial, h.stack.2⟩, h.handlers, h.counts,
    ⟨F, hF'.rewalk hF'.first⟩⟩⟩

end Machine.Good

theorem start_good : start.Good (fun _ => false) (fun _ => false) := by
  refine ⟨trivial, ⟨fun _ => [], ?_⟩, ⟨rfl, fun _ => rfl, ?_⟩, ⟨[], ?_⟩⟩
  · refine ⟨?_, fun _ _ => rfl, .inl ⟨rfl, rfl⟩, ?_, ?_, nodup_nil, ?_, nodup_nil, ?_, ?_,
      ?_, ?_, ?_⟩ <;> simp [start, Machine.handlerWalks]
  · intro t ht
    have hneg : (-1 : Int) = t := ht
    exact absurd hneg (by omega)
  · refine ⟨linked_nil, ?_, nodup_nil, ?_, ?_, ?_, rfl, fun _ => rfl, ?_⟩ <;>
      simp [start, Machine.filterWalks]

/-! ### Runs -/

variable {ops : List Op}

/-- **The invariant of a run** of careful steps, each of which can be made. -/
theorem run_good (hops : Meets Careful Program.step Program.start ops) :
    ∃ p answers, run Program.step Program.start ops = some (p, answers) ∧
      p.machine.Good p.handlers p.filters := by
  refine run_invariant (I := fun p => p.machine.Good p.handlers p.filters) ?_ ops Program.start
    start_good hops
  intro p op hgood hop
  obtain ⟨m, a, hstep, hgood'⟩ := hgood.step hop
  exact ⟨_, a, by rw [Program.step, hstep]; rfl, hgood'⟩

/-- **Between walks exactly the handlers and filters that were added and not deleted are linked,
no record that was given back can be reached, and none that was deleted is called.** -/
theorem run_exact (hops : Meets Careful Program.step Program.start ops) :
    ∃ p answers, run Program.step Program.start ops = some (p, answers) ∧ Exact p ∧
      NoneFreed p.machine ∧ CallsLive p := by
  obtain ⟨p, answers, hrun, hgood⟩ := run_good hops
  exact ⟨p, answers, hrun, hgood.exact, hgood.noneFreed, hgood.callsLive⟩

/-- A handler adds one, deletes the next one and dispatches an event of the same type. -/
def nestedDispatch : List Op :=
  [.typeNew, .handlerAdd 1 (some 7) 0, .handlerAdd 1 (some 8) 0, .dataSet 0 1 none,
    .dataSet 1 1 none, .messageCall 0, .go, .handlerAdd 1 (some 9) 0, .handlerDel 1,
    .messageCall 1, .go, .ret true 0, .go, .go, .ret true 0, .go, .go, .ret true 0, .go]

theorem run_exact_nestedDispatch : ∃ p answers,
    run Program.step Program.start nestedDispatch = some (p, answers) ∧ Exact p ∧
      NoneFreed p.machine ∧ CallsLive p :=
  run_exact (by decide)

/-- A filter deletes itself in its last function. -/
def deletedInFilter : List Op :=
  [.filterAdd none (some 7) (some 8) 0, .filtersCall, .go, .go, .messagesDone, .go, .filterDel 0,
    .ret true 0, .go]

theorem deletedInFilter_proper : Meets Proper Program.step Program.start deletedInFilter := by
  decide

/-- **The record is given back, and the list still points to it.** -/
theorem filter_freed_while_linked : ¬∀ (ops : List Op) (p : Program) (answers : List Answer),
    Meets Proper Program.step Program.start ops →
      run Program.step Program.start ops = some (p, answers) →
        Exact p ∧ NoneFreed p.machine ∧ CallsLive p := by
  intro hall
  have hlist : (run Program.step Program.start deletedInFilter).map
      (fun r => (r.1.machine.world.filters.filters,
        (r.1.machine.world.filters.links 0).isNone)) = some (some 0, true) := by decide
  obtain ⟨r, hrun, hr⟩ := map_eq_some_iff.mp hlist
  obtain ⟨hfirst, hfreed⟩ := Prod.mk.inj hr
  have hreaches := Reaches.here (H := r.1.machine.world.filters.links) 0
  rw [← hfirst] at hreaches
  obtain ⟨-, hnone, -⟩ := hall deletedInFilter r.1 r.2 deletedInFilter_proper hrun
  exact hnone.filters 0 hreaches (by simpa using hfreed)

end Core.Event
