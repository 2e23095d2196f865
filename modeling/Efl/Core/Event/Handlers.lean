/-
The handlers through every call and every move of a walk.

`Handlers.Ok s held walks L` is the invariant: the program holds the handles `held`, `walks` are
the walks over handlers that are on the stack, each with its type and the record it points to, and
`L` gives the linked handlers of every type.  A handler is linked, parked or deleted while it was
parked, and nothing else has a record; a parked one waits for a walk over its type, and one that
was deleted waits for the last walk to end.
-/
import Efl.Core.Event.Basic
import Efl.Eina.Inlist.Ops

namespace Core.Event

open Eina Eina.Inlist Chain List Option Function

/-- A walk over handlers: its type, and the record it points to. -/
abbrev Walk := Nat × Option HandlerId

structure Handlers.Ok (s : Handlers) (held : HandlerId → Bool) (walks : List Walk)
    (L : Nat → List HandlerId) : Prop where
  lists : ∀ t list, s.handlers[t]? = some list → Linked s.links list (L t)
  outside : ∀ t, s.handlers[t]? = none → L t = []
  length : s.handlers = [] ∧ s.eventTypeCount = 0 ∨ s.handlers.length = s.eventTypeCount + 1
  typed : ∀ t, ∀ h ∈ L t, (s.record h).type = t ∧ (s.record h).toAdd = false
  parked : ∀ h ∈ s.handlersAdd, (s.record h).toAdd = true ∧ (s.record h).deleteMe = false ∧
    (s.record h).type < s.handlers.length ∧ ∃ x, ((s.record h).type, x) ∈ walks
  parkedNodup : s.handlersAdd.Nodup
  deleted : ∀ h ∈ s.handlersDelete, (s.record h).toAdd = false ∧ (s.record h).deleteMe = true ∧
    (s.record h).type < s.handlers.length
  deletedNodup : s.handlersDelete.Nodup
  /-- What is not linked has no links. -/
  stray : ∀ h, h ∈ s.handlersAdd ∨ h ∈ s.handlersDelete ∧ h ∉ L (s.record h).type →
    ∃ v, s.links h = some ⟨none, none, v⟩
  marked : ∀ t, ∀ h ∈ L t, (s.record h).deleteMe = true → h ∈ s.handlersDelete
  held : ∀ h, held h = true ↔
    h ∈ s.handlersAdd ∨ h ∈ L (s.record h).type ∧ (s.record h).deleteMe = false
  bound : ∀ h, s.links h ≠ none → h < s.fresh
  walked : ∀ t x, (t, x) ∈ walks → t < s.handlers.length ∧ ∀ h, x = some h → h ∈ L t

/-- The counter, the type of the innermost walk, and when deleted handlers are given back. -/
structure Handlers.Counts (s : Handlers) (walks : List Walk) : Prop where
  walking : s.handlersWalking = walks.length
  rest : s.handlersWalking = 0 → s.handlersDelete = []
  current : ∀ t : Nat, s.currentEventType = t → ∃ x, (t, x) ∈ walks

namespace Handlers

variable {s s1 : Handlers} {held held' : HandlerId → Bool} {walks : List Walk}
  {L : Nat → List HandlerId} {h : HandlerId}

/-! ### What the invariant says of one record -/

variable {t : Nat}

theorem Ok.exists_list (hs : s.Ok held walks L) (ht : t < s.handlers.length) :
    ∃ list, s.handlers[t]? = some list ∧ Linked s.links list (L t) := by
  have hget : s.handlers[t]? = some (s.handlers[t]) := getElem?_eq_getElem ht
  exact ⟨_, hget, hs.lists t _ hget⟩

theorem Ok.linked_lt (hs : s.Ok held walks L) (hh : h ∈ L t) : t < s.handlers.length := by
  by_contra ht
  rw [hs.outside t (getElem?_eq_none (Nat.not_lt.mp ht))] at hh
  simp at hh

theorem Ok.linked_alive (hs : s.Ok held walks L) (hh : h ∈ L t) : s.links h ≠ none := by
  obtain ⟨list, -, hlist⟩ := hs.exists_list (hs.linked_lt hh)
  exact hlist.alive hh

theorem Ok.parked_alive (hs : s.Ok held walks L) (hh : h ∈ s.handlersAdd) : s.links h ≠ none := by
  obtain ⟨v, hv⟩ := hs.stray h (.inl hh)
  rw [hv]
  simp

theorem Ok.deleted_alive (hs : s.Ok held walks L) (hh : h ∈ s.handlersDelete) :
    s.links h ≠ none := by
  by_cases hin : h ∈ L (s.record h).type
  · exact hs.linked_alive hin
  obtain ⟨v, hv⟩ := hs.stray h (.inr ⟨hh, hin⟩)
  rw [hv]
  simp

theorem Ok.held_alive (hs : s.Ok held walks L) (hh : held h = true) : s.links h ≠ none := by
  rcases (hs.held h).mp hh with hadd | ⟨hin, -⟩
  · exact hs.parked_alive hadd
  · exact hs.linked_alive hin

theorem Ok.held_lt (hs : s.Ok held walks L) (hh : held h = true) :
    (s.record h).type < s.handlers.length := by
  rcases (hs.held h).mp hh with hadd | ⟨hin, -⟩
  · exact (hs.parked h hadd).2.2.1
  · exact hs.linked_lt hin

theorem Ok.not_parked (hs : s.Ok held walks L) (hh : h ∈ L t) : h ∉ s.handlersAdd := by
  intro hadd
  have htrue := (hs.parked h hadd).1
  rw [(hs.typed t h hh).2] at htrue
  simp at htrue

theorem Ok.fresh_dead (hs : s.Ok held walks L) : s.links s.fresh = none := by
  by_contra hne
  exact Nat.lt_irrefl _ (hs.bound _ hne)

theorem Ok.read (_ : s.Ok held walks L) (hh : s.links h ≠ none) : s.read h = some (s.record h) := by
  obtain ⟨c, hc⟩ := ne_none_iff_exists'.mp hh
  rw [Handlers.read, hc]
  rfl

/-! ### A record is linked -/

/-- `s1` is `s` with a record outside of all lists, ready to be linked to the list of type `t`. -/
structure Adopts (L : Nat → List HandlerId) (s s1 : Handlers) (h : HandlerId) (t : Nat) : Prop where
  handlers : s1.handlers = s.handlers
  eventTypeCount : s1.eventTypeCount = s.eventTypeCount
  handlersDelete : s1.handlersDelete = s.handlersDelete
  added : ∀ y, y ∈ s1.handlersAdd ↔ y ∈ s.handlersAdd ∧ y ≠ h
  addedNodup : s1.handlersAdd.Nodup
  links : ∀ y ≠ h, s1.links y = s.links y
  stray : ∃ v, s1.links h = some ⟨none, none, v⟩
  record : ∀ y ≠ h, s1.record y = s.record y
  type : (s1.record h).type = t
  toAdd : (s1.record h).toAdd = false
  deleteMe : (s1.record h).deleteMe = false
  notLinked : ∀ t, h ∉ L t
  notDeleted : h ∉ s.handlersDelete
  fresh : s.fresh ≤ s1.fresh
  bound : h < s1.fresh

/-- The list of type `t` with the record at one of its ends. -/
def linkedAt (L : Nat → List HandlerId) (t : Nat) (h : HandlerId) (front : Bool) :
    Nat → List HandlerId :=
  update L t (if front then h :: L t else L t ++ [h])

theorem mem_linkedAt {t' : Nat} {front : Bool} {y : HandlerId} :
    y ∈ linkedAt L t h front t' ↔ y ∈ L t' ∨ t' = t ∧ y = h := by
  unfold linkedAt
  by_cases ht : t' = t
  · subst ht
    cases front <;> simp [or_comm]
  · simp [ht]

theorem Adopts.links_cases (ha : Adopts L s s1 h t) (y : HandlerId) :
    s1.links y ≠ none ↔ y = h ∨ s.links y ≠ none := by
  by_cases hy : y = h
  · obtain ⟨v, hv⟩ := ha.stray
    rw [hy, hv]
    simp
  · rw [ha.links y hy]
    simp [hy]

/-- **A record is linked.** -/
theorem Ok.link (hs : s.Ok held walks L) (ha : Adopts L s s1 h t) (ht : t < s.handlers.length)
    (hself : held' h = true) (hothers : ∀ y ≠ h, held' y = held y) (front : Bool) :
    ∃ links handlers, s1.link h t front = some { s1 with links := links, handlers := handlers } ∧
      Handlers.Ok { s1 with links := links, handlers := handlers } held' walks
        (linkedAt L t h front) ∧
      handlers.length = s.handlers.length := by
  obtain ⟨list, hget, hlist⟩ := hs.exists_list ht
  have hother : ∀ t' list', s.handlers[t']? = some list' → Linked s1.links list' (L t') := by
    intro t' list' hget'
    refine (hs.lists t' list' hget').congr fun y hy => ha.links y ?_
    rintro rfl
    exact ha.notLinked t' hy
  have hlist1 := hother t list hget
  have halive : s1.links h ≠ none := (ha.links_cases h).mpr (.inl rfl)
  obtain ⟨links, list', hwrite, hlinked, hrewires⟩ : ∃ links list',
      (if front then Inlist.prepend s1.links list h else Inlist.append s1.fresh s1.links list h) =
        some (links, list') ∧ Linked links list' (linkedAt L t h front t) ∧
      Rewires s1.links links (h :: L t) := by
    unfold linkedAt
    rw [update_self]
    cases front with
    | true =>
      obtain ⟨links, hwrite, hlinked, hrewires⟩ :=
        prepend_spec hlist1 (ha.notLinked t) halive
      exact ⟨links, _, hwrite, hlinked, hrewires⟩
    | false =>
      obtain ⟨links, hwrite, hlinked, hrewires⟩ :=
        append_spec hlist1 (ha.notLinked t) halive s1.fresh
      exact ⟨links, _, hwrite, hlinked, hrewires⟩
  have hsame : ∀ y ≠ h, y ∉ L t → links y = s.links y := by
    intro y hy hyt
    rw [hrewires.others y (by simp [hy, hyt]), ha.links y hy]
  have hset : ∀ t' list'', (s1.handlers.set t list')[t']? = some list'' →
      t' = t ∧ list'' = list' ∨ t' ≠ t ∧ s.handlers[t']? = some list'' := by
    intro t' list'' hget'
    rw [ha.handlers, getElem?_set] at hget'
    split at hget'
    · rename_i htt
      exact .inl ⟨htt.symm, (some.inj hget').symm⟩
    · rename_i htt
      exact .inr ⟨fun h => htt h.symm, hget'⟩
  refine ⟨links, s1.handlers.set t list', ?_, ?_, ?_⟩
  · unfold Handlers.link
    rw [ha.handlers, hget, bind_some, hwrite]
    rfl
  · constructor
    · intro t' list'' hget'
      rcases hset t' list'' hget' with ⟨rfl, rfl⟩ | ⟨hne, hget''⟩
      · exact hlinked
      have hL : linkedAt L t h front t' = L t' := update_of_ne hne _ _
      rw [hL]
      refine (hother t' list'' hget'').rewires hrewires fun y hy hmem => ?_
      rcases mem_cons.mp hmem with rfl | hmem
      · exact ha.notLinked t' hy
      · exact hne ((hs.typed t' y hy).1.symm.trans (hs.typed t y hmem).1)
    · intro t' hget'
      rw [ha.handlers, List.getElem?_eq_none_iff, length_set] at hget'
      have hne : t' ≠ t := by
        rintro rfl
        exact absurd ht (Nat.not_lt.mpr hget')
      have hL : linkedAt L t h front t' = L t' := update_of_ne hne _ _
      rw [hL]
      exact hs.outside t' (getElem?_eq_none hget')
    · have hlength := hs.length
      rw [ha.handlers, ha.eventTypeCount, length_set]
      rcases hlength with ⟨hnil, -⟩ | hlength
      · rw [hnil] at ht
        exact absurd ht (Nat.not_lt_zero _)
      · exact .inr hlength
    · intro t' y hy
      rcases mem_linkedAt.mp hy with hold | ⟨rfl, rfl⟩
      · have hne : y ≠ h := by
          rintro rfl
          exact ha.notLinked t' hold
        rw [ha.record y hne]
        exact hs.typed t' y hold
      · exact ⟨ha.type, ha.toAdd⟩
    · intro y hy
      obtain ⟨hy, hne⟩ := (ha.added y).mp hy
      rw [ha.record y hne, ha.handlers, length_set]
      exact hs.parked y hy
    · exact ha.addedNodup
    · intro y hy
      rw [ha.handlersDelete] at hy
      have hne : y ≠ h := by
        rintro rfl
        exact ha.notDeleted hy
      rw [ha.record y hne, ha.handlers, length_set]
      exact hs.deleted y hy
    · rw [ha.handlersDelete]
      exact hs.deletedNodup
    · intro y hy
      rw [ha.handlersDelete] at hy
      have hne : y ≠ h := by
        rintro rfl
        rcases hy with hy | ⟨hy, -⟩
        · exact ((ha.added y).mp hy).2 rfl
        · exact ha.notDeleted hy
      rw [ha.record y hne] at hy
      have hold : y ∈ s.handlersAdd ∨ y ∈ s.handlersDelete ∧ y ∉ L (s.record y).type := by
        rcases hy with hy | ⟨hy, hnot⟩
        · exact .inl ((ha.added y).mp hy).1
        · exact Or.inr ⟨hy, fun hin => hnot (mem_linkedAt.mpr (Or.inl hin))⟩
      have hnotin : y ∉ L t := by
        intro hin
        rcases hold with hold | ⟨-, hold⟩
        · exact hs.not_parked hin hold
        · rw [(hs.typed t y hin).1] at hold
          exact hold hin
      obtain ⟨v, hv⟩ := hs.stray y hold
      exact ⟨v, (hsame y hne hnotin).trans hv⟩
    · intro t' y hy hmark
      rw [ha.handlersDelete]
      rcases mem_linkedAt.mp hy with hold | ⟨rfl, rfl⟩
      · have hne : y ≠ h := by
          rintro rfl
          exact ha.notLinked t' hold
        rw [ha.record y hne] at hmark
        exact hs.marked t' y hold hmark
      · rw [ha.deleteMe] at hmark
        simp at hmark
    · intro y
      by_cases hne : y = h
      · subst hne
        rw [hself, ha.type, ha.deleteMe]
        have hin : y ∈ linkedAt L t y front t := mem_linkedAt.mpr (.inr ⟨rfl, rfl⟩)
        simp [hin]
      · rw [hothers y hne, ha.record y hne, ha.added, hs.held, mem_linkedAt]
        simp [hne]
    · intro y hy
      have hy' : s1.links y ≠ none := fun hnone => hy ((hrewires.alive y).mpr hnone)
      rcases (ha.links_cases y).mp hy' with rfl | hy'
      · exact ha.bound
      · exact Nat.lt_of_lt_of_le (hs.bound y hy') ha.fresh
    · intro t' x hx
      obtain ⟨hlt, hin⟩ := hs.walked t' x hx
      rw [ha.handlers, length_set]
      exact ⟨hlt, fun y hy => mem_linkedAt.mpr (.inl (hin y hy))⟩
  · rw [ha.handlers, length_set]

/-! ### Adding a handler -/

theorem Ok.fresh_out (hs : s.Ok held walks L) :
    s.fresh ∉ s.handlersAdd ∧ s.fresh ∉ s.handlersDelete ∧ ∀ t, s.fresh ∉ L t :=
  ⟨fun hin => hs.parked_alive hin hs.fresh_dead, fun hin => hs.deleted_alive hin hs.fresh_dead,
    fun _ hin => hs.linked_alive hin hs.fresh_dead⟩

/-- A handler that is added to a list being walked is parked. -/
theorem Ok.park (hs : s.Ok held walks L) (ht : t < s.handlers.length) (hwalk : ∃ x, (t, x) ∈ walks)
    (func data : Nat) (front : Bool) :
    Handlers.Ok { s.withNew t func data front true with handlersAdd := s.handlersAdd ++ [s.fresh] }
      (update held s.fresh true) walks L := by
  obtain ⟨hadd, hdel, hlink⟩ := hs.fresh_out
  have hrecord : ∀ y ≠ s.fresh,
      (s.withNew t func data front true).record y = s.record y :=
    fun y hy => update_of_ne hy _ _
  have hlinks : ∀ y ≠ s.fresh, (s.withNew t func data front true).links y = s.links y :=
    fun y hy => update_of_ne hy _ _
  have hself : (s.withNew t func data front true).record s.fresh =
      ⟨func, data, t, false, true, true && front⟩ := update_self _ _ _
  have hne : ∀ {t'} {y : HandlerId}, y ∈ L t' → y ≠ s.fresh := by
    rintro t' y hy rfl
    exact hlink t' hy
  constructor
  · intro t' list hget
    exact (hs.lists t' list hget).congr fun y hy => hlinks y (hne hy)
  · exact hs.outside
  · exact hs.length
  · intro t' y hy
    rw [hrecord y (hne hy)]
    exact hs.typed t' y hy
  · intro y hy
    rcases mem_append.mp hy with hold | hnew
    · rw [hrecord y (fun hyf => hadd (hyf ▸ hold))]
      exact hs.parked y hold
    · rw [mem_singleton.mp hnew, hself]
      exact ⟨rfl, rfl, ht, hwalk⟩
  · refine nodup_append.mpr ⟨hs.parkedNodup, nodup_singleton _, ?_⟩
    intro y hy z hz hyz
    rw [hyz, mem_singleton.mp hz] at hy
    exact hadd hy
  · intro y hy
    have hy' : y ∈ s.handlersDelete := hy
    rw [hrecord y (fun hyf => hdel (hyf ▸ hy'))]
    exact hs.deleted y hy'
  · exact hs.deletedNodup
  · intro y hy
    by_cases hyf : y = s.fresh
    · rw [hyf]
      exact ⟨none, update_self _ _ _⟩
    rw [hlinks y hyf]
    rw [hrecord y hyf] at hy
    refine hs.stray y ?_
    rcases hy with hy | hy
    · rcases mem_append.mp hy with hold | hnew
      · exact .inl hold
      · exact absurd (mem_singleton.mp hnew) hyf
    · exact .inr hy
  · intro t' y hy hmark
    rw [hrecord y (hne hy)] at hmark
    exact hs.marked t' y hy hmark
  · intro y
    by_cases hyf : y = s.fresh
    · rw [hyf, update_self]
      simp
    · rw [update_of_ne hyf, hs.held, hrecord y hyf]
      simp [hyf]
  · intro y hy
    by_cases hyf : y = s.fresh
    · rw [hyf]
      exact Nat.lt_succ_self _
    refine Nat.lt_succ_of_lt (hs.bound y ?_)
    rw [← hlinks y hyf]
    exact hy
  · exact hs.walked

/-- What adding a handler leaves alone. -/
structure Keeps (s s' : Handlers) : Prop where
  handlersDelete : s'.handlersDelete = s.handlersDelete
  handlersWalking : s'.handlersWalking = s.handlersWalking
  currentEventType : s'.currentEventType = s.currentEventType

theorem Keeps.counts {s s' : Handlers} (hk : Keeps s s') (hc : s.Counts walks) :
    s'.Counts walks := by
  constructor
  · rw [hk.handlersWalking]
    exact hc.walking
  · rw [hk.handlersWalking, hk.handlersDelete]
    exact hc.rest
  · rw [hk.currentEventType]
    exact hc.current

/-- A handler is added, parked or not. -/
theorem Ok.newHandler (hs : s.Ok held walks L) (hc : s.Counts walks) (ht : t < s.handlers.length)
    (func data : Nat) (front : Bool) :
    ∃ s' h L', s.newHandler t func data front = some (s', h) ∧
      s'.Ok (update held h true) walks L' ∧ Keeps s s' := by
  unfold Handlers.newHandler
  by_cases hcur : s.currentEventType = t
  · rw [if_pos hcur]
    exact ⟨_, _, L, rfl, hs.park ht (hc.current t hcur) func data front, rfl, rfl, rfl⟩
  rw [if_neg hcur]
  obtain ⟨hadd, hdel, hlink⟩ := hs.fresh_out
  have hself : (s.withNew t func data front false).record s.fresh =
      ⟨func, data, t, false, false, false && front⟩ := update_self _ _ _
  have hadopts : Adopts L s (s.withNew t func data front false) s.fresh t :=
    { handlers := rfl
      eventTypeCount := rfl
      handlersDelete := rfl
      added := fun y => ⟨fun hy => ⟨hy, fun hyf => hadd (hyf ▸ hy)⟩, fun hy => hy.1⟩
      addedNodup := hs.parkedNodup
      links := fun y hy => update_of_ne hy _ _
      stray := ⟨none, update_self _ _ _⟩
      record := fun y hy => update_of_ne hy _ _
      type := by rw [hself]
      toAdd := by rw [hself]
      deleteMe := by rw [hself]
      notLinked := hlink
      notDeleted := hdel
      fresh := Nat.le_succ _
      bound := Nat.lt_succ_self _ }
  obtain ⟨links, handlers, hwrite, hok, -⟩ := hs.link hadopts ht (update_self _ _ _)
    (fun y hy => update_of_ne hy _ _) front
  refine ⟨_, s.fresh, _, ?_, hok, rfl, rfl, rfl⟩
  rw [hwrite]
  rfl

/-! ### The parked handlers are linked -/

/-- The handlers added during a walk are linked after it, each once. -/
theorem Ok.addParked : ∀ (l : List HandlerId) (s : Handlers) (L : Nat → List HandlerId),
    s.Ok held walks L → l.Nodup → (∀ h ∈ l, h ∈ s.handlersAdd) →
    ∃ s' L', Handlers.addParked t l s = some s' ∧ s'.Ok held walks L' ∧ Keeps s s' ∧
      (∀ y, (s'.record y).type = (s.record y).type) ∧
      ∀ h ∈ s'.handlersAdd, h ∈ s.handlersAdd ∧ (h ∈ l → (s.record h).type ≠ t) := by
  intro l
  induction l with
  | nil =>
    intro s L hs _ _
    exact ⟨s, L, rfl, hs, ⟨rfl, rfl, rfl⟩, fun _ => rfl,
      fun h hh => ⟨hh, fun hn => absurd hn (by simp)⟩⟩
  | cons h rest ih =>
    intro s L hs hnodup hsub
    obtain ⟨hrest, hnodup⟩ := nodup_cons.mp hnodup
    have hh : h ∈ s.handlersAdd := hsub h mem_cons_self
    obtain ⟨htoAdd, hmark, hlt, -⟩ := hs.parked h hh
    unfold Handlers.addParked
    rw [hs.read (hs.parked_alive hh), bind_some]
    by_cases htype : (s.record h).type = t
    · rw [if_neg (not_not_intro htype)]
      have hself : (s.unpark h).record h = { s.record h with toAdd := false } :=
        update_self _ _ _
      have hnotin : ∀ t', h ∉ L t' := fun t' hin => hs.not_parked hin hh
      have hadopts : Adopts L s (s.unpark h) h t :=
        { handlers := rfl
          eventTypeCount := rfl
          handlersDelete := rfl
          added := fun y => by
            show y ∈ s.handlersAdd.erase h ↔ _
            rw [hs.parkedNodup.mem_erase_iff, and_comm]
          addedNodup := hs.parkedNodup.erase h
          links := fun _ _ => rfl
          stray := hs.stray h (.inl hh)
          record := fun y hy => update_of_ne hy _ _
          type := by
            rw [hself]
            exact htype
          toAdd := by rw [hself]
          deleteMe := by
            rw [hself]
            exact hmark
          notLinked := hnotin
          notDeleted := fun hdel => by
            rw [(hs.deleted h hdel).1] at htoAdd
            simp at htoAdd
          fresh := Nat.le_refl _
          bound := hs.bound h (hs.parked_alive hh) }
      obtain ⟨links, handlers, hwrite, hok, -⟩ :=
        hs.link hadopts (htype ▸ hlt) ((hs.held h).mpr (Or.inl hh)) (fun _ _ => rfl)
          (s.record h).prepend
      have hsub' : ∀ y ∈ rest, y ∈ s.handlersAdd.erase h := by
        intro y hy
        rw [hs.parkedNodup.mem_erase_iff]
        exact ⟨fun hyh => hrest (hyh ▸ hy), hsub y (mem_cons_of_mem _ hy)⟩
      have htypes : ∀ y, ((s.unpark h).record y).type = (s.record y).type := by
        intro y
        by_cases hyh : y = h
        · rw [hyh, hself]
        · rw [show (s.unpark h).record y = s.record y from update_of_ne hyh _ _]
      obtain ⟨s', L', hadd, hok', hkeeps, hsame, hleft⟩ := ih _ _ hok hnodup hsub'
      refine ⟨s', L', ?_, hok', ⟨hkeeps.1, hkeeps.2, hkeeps.3⟩,
        fun y => (hsame y).trans (htypes y), ?_⟩
      · rw [hwrite]
        exact hadd
      · intro y hy
        obtain ⟨hmem, hne⟩ := hleft y hy
        have hmem' : y ∈ s.handlersAdd.erase h := hmem
        rw [hs.parkedNodup.mem_erase_iff] at hmem'
        refine ⟨hmem'.2, fun hyl => ?_⟩
        rcases mem_cons.mp hyl with hyh | hyl
        · exact absurd hyh hmem'.1
        · rw [← htypes]
          exact hne hyl
    · rw [if_pos htype]
      obtain ⟨s', L', hadd, hok', hkeeps, hsame, hleft⟩ :=
        ih s L hs hnodup fun y hy => hsub y (mem_cons_of_mem _ hy)
      refine ⟨s', L', hadd, hok', hkeeps, hsame, ?_⟩
      intro y hy
      obtain ⟨hmem, hne⟩ := hleft y hy
      refine ⟨hmem, fun hyl => ?_⟩
      rcases mem_cons.mp hyl with rfl | hyl
      · exact htype
      · exact hne hyl

end Handlers

end Core.Event
