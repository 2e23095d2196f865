/-
Deleted handlers, and the walks over handlers from their start to their end.

As long as a walk goes on a deleted handler keeps its place and its record, so the walks
can read on from it.  When the last walk ends, each of them leaves its list, if it was in
one, and is given back.
-/
import Efl.Core.Event.Handlers

namespace Core.Event

open Eina Eina.Inlist Chain List Option Function

namespace Handlers

variable {s s' : Handlers} {held : HandlerId → Bool} {walks : List Walk}
  {L : Nat → List HandlerId} {h : HandlerId} {t : Nat} {x y : Option HandlerId} {type : Int}

/-! ### Reading on -/

theorem Ok.next (hs : s.Ok held walks L) (hh : h ∈ L t) :
    ∃ n, s.next h = some n ∧ ∀ y, n = some y → y ∈ L t := by
  obtain ⟨list, -, hlist⟩ := hs.exists_list (hs.linked_lt hh)
  obtain ⟨l, r, hL⟩ := append_of_mem hh
  rw [hL] at hlist
  obtain ⟨v, hv⟩ := hlist.get
  refine ⟨r.head?, ?_, ?_⟩
  · rw [Handlers.next, hv]
    rfl
  · intro y hy
    rw [hL]
    exact mem_append_right _ (mem_cons_of_mem _ (mem_of_mem_head? hy))

theorem Ok.rewalk (hs : s.Ok held ((t, x) :: walks) L)
    (hy : ∀ h, y = some h → h ∈ L t) : s.Ok held ((t, y) :: walks) L := by
  obtain ⟨hlt, -⟩ := hs.walked t x mem_cons_self
  refine { hs with parked := ?_, walked := ?_ }
  · intro z hz
    obtain ⟨hadd, hmark, hz', p, hp⟩ := hs.parked z hz
    refine ⟨hadd, hmark, hz', ?_⟩
    rcases mem_cons.mp hp with heq | hp
    · obtain ⟨ht, -⟩ := Prod.mk.inj heq
      exact ⟨y, by rw [ht]; exact mem_cons_self⟩
    · exact ⟨p, mem_cons_of_mem _ hp⟩
  · intro t' p hp
    rcases mem_cons.mp hp with heq | hp
    · obtain ⟨rfl, rfl⟩ := Prod.mk.inj heq
      exact ⟨hlt, hy⟩
    · exact hs.walked t' p (mem_cons_of_mem _ hp)

theorem Counts.rewalk (hc : s.Counts ((t, x) :: walks)) :
    s.Counts ((t, y) :: walks) := by
  refine { hc with walking := hc.walking, current := ?_ }
  intro t' ht'
  obtain ⟨p, hp⟩ := hc.current t' ht'
  rcases mem_cons.mp hp with heq | hp
  · obtain ⟨rfl, -⟩ := Prod.mk.inj heq
    exact ⟨y, mem_cons_self⟩
  · exact ⟨p, mem_cons_of_mem _ hp⟩

/-! ### A handler is deleted while a walk goes on -/

/-- The record is marked. -/
def withDeleted (s : Handlers) (h : HandlerId) : Handlers :=
  let s := if (s.record h).toAdd then s.unpark h else s
  let s := s.modify h fun r => { r with deleteMe := true }
  { s with handlersDelete := s.handlersDelete ++ [h] }

theorem withDeleted_record (s : Handlers) (h y : HandlerId) :
    (s.withDeleted h).record y =
      if y = h then { s.record h with toAdd := false, deleteMe := true } else s.record y := by
  unfold withDeleted Handlers.modify unpark
  dsimp only
  by_cases hy : y = h
  · rw [if_pos hy, hy]
    by_cases hadd : (s.record h).toAdd = true
    · rw [if_pos hadd]
      simp
    rw [if_neg hadd]
    simp only [update_self]
    simp only [Bool.not_eq_true] at hadd
    rw [← hadd]
  · rw [update_of_ne hy]
    split
    · exact update_of_ne hy _ _
    · rfl

theorem Ok.withDeleted_parked (hs : s.Ok held walks L) (y : HandlerId) (hheld : held h = true) :
    y ∈ (s.withDeleted h).handlersAdd ↔ y ∈ s.handlersAdd ∧ y ≠ h := by
  unfold withDeleted Handlers.modify unpark
  dsimp only
  split
  · rw [hs.parkedNodup.mem_erase_iff, and_comm]
  rename_i hadd
  refine ⟨fun hy => ⟨hy, ?_⟩, fun hy => hy.1⟩
  rintro rfl
  exact hadd (hs.parked y hy).1

theorem withDeleted_others (s : Handlers) (h : HandlerId) :
    (s.withDeleted h).handlers = s.handlers ∧ (s.withDeleted h).links = s.links ∧
      (s.withDeleted h).eventTypeCount = s.eventTypeCount ∧
      (s.withDeleted h).handlersDelete = s.handlersDelete ++ [h] ∧
      (s.withDeleted h).fresh = s.fresh ∧
      (s.withDeleted h).handlersWalking = s.handlersWalking ∧
      (s.withDeleted h).currentEventType = s.currentEventType := by
  unfold withDeleted Handlers.modify unpark
  dsimp only
  split <;> exact ⟨rfl, rfl, rfl, rfl, rfl, rfl, rfl⟩

/-- A handler is deleted during a walk. -/
theorem Ok.withDeleted (hs : s.Ok held walks L) (hheld : held h = true) :
    (s.withDeleted h).Ok (update held h false) walks L := by
  obtain ⟨hhandlers, hlinks, hcount, hdelete, hfresh, -, -⟩ := withDeleted_others s h
  have hadd := fun y => hs.withDeleted_parked y hheld
  have htype : ∀ y, ((s.withDeleted h).record y).type = (s.record y).type := by
    intro y
    rw [withDeleted_record]
    split
    · rename_i hy
      rw [hy]
    · rfl
  have hnotDeleted : h ∉ s.handlersDelete := by
    intro hdel
    obtain ⟨htoAdd, hmark, -⟩ := hs.deleted h hdel
    rcases (hs.held h).mp hheld with hin | ⟨-, hmark'⟩
    · rw [(hs.parked h hin).1] at htoAdd
      simp at htoAdd
    · rw [hmark] at hmark'
      simp at hmark'
  constructor
  · rw [hhandlers, hlinks]
    exact hs.lists
  · rw [hhandlers]
    exact hs.outside
  · rw [hhandlers, hcount]
    exact hs.length
  · intro t y hy
    rw [htype]
    refine ⟨(hs.typed t y hy).1, ?_⟩
    rw [withDeleted_record]
    split
    · rfl
    · exact (hs.typed t y hy).2
  · intro y hy
    obtain ⟨hy, hne⟩ := (hadd y).mp hy
    rw [withDeleted_record, if_neg hne, hhandlers]
    exact hs.parked y hy
  · unfold Handlers.withDeleted Handlers.modify unpark
    dsimp only
    split
    · exact hs.parkedNodup.erase h
    · exact hs.parkedNodup
  · intro y hy
    rw [hdelete, mem_append, mem_singleton] at hy
    rw [withDeleted_record, hhandlers]
    by_cases hyh : y = h
    · rw [if_pos hyh]
      exact ⟨rfl, rfl, hs.held_lt hheld⟩
    · rw [if_neg hyh]
      exact hs.deleted y (hy.resolve_right hyh)
  · rw [hdelete]
    refine nodup_append.mpr ⟨hs.deletedNodup, nodup_singleton _, ?_⟩
    intro y hy z hz hyz
    rw [hyz, mem_singleton.mp hz] at hy
    exact hnotDeleted hy
  · intro y hy
    rw [hlinks]
    rw [hdelete, htype, hadd, mem_append, mem_singleton] at hy
    refine hs.stray y ?_
    rcases hy with ⟨hy, -⟩ | ⟨hy | rfl, hnot⟩
    · exact .inl hy
    · exact .inr ⟨hy, hnot⟩
    · rcases (hs.held y).mp hheld with hin | ⟨hin, -⟩
      · exact .inl hin
      · exact absurd hin hnot
  · intro t y hy hmark
    rw [hdelete, mem_append, mem_singleton]
    by_cases hyh : y = h
    · exact .inr hyh
    · rw [withDeleted_record, if_neg hyh] at hmark
      exact .inl (hs.marked t y hy hmark)
  · intro y
    rw [hadd]
    by_cases hyh : y = h
    · subst hyh
      rw [withDeleted_record]
      simp
    · rw [update_of_ne hyh, withDeleted_record, hs.held]
      simp [hyh]
  · rw [hlinks, hfresh]
    exact hs.bound
  · rw [hhandlers]
    exact hs.walked

/-! ### A record is given back -/

/-- The lists without a record. -/
def without (s : Handlers) (L : Nat → List HandlerId) (h : HandlerId) : Nat → List HandlerId :=
  update L (s.record h).type ((L (s.record h).type).erase h)

theorem Ok.nodup (hs : s.Ok held walks L) (t : Nat) : (L t).Nodup := by
  by_cases ht : t < s.handlers.length
  · obtain ⟨list, -, hlist⟩ := hs.exists_list ht
    exact hlist.nodup
  · rw [hs.outside t (getElem?_eq_none (Nat.not_lt.mp ht))]
    exact nodup_nil

theorem Ok.mem_without (hs : s.Ok held walks L) {t : Nat} {y : HandlerId} :
    y ∈ s.without L h t ↔ y ∈ L t ∧ y ≠ h := by
  unfold without
  by_cases ht : t = (s.record h).type
  · rw [← ht, update_self, (hs.nodup t).mem_erase_iff, and_comm]
  rw [update_of_ne ht]
  refine ⟨fun hy => ⟨hy, ?_⟩, fun hy => hy.1⟩
  rintro rfl
  exact ht (hs.typed t y hy).1.symm

/-- **No walk goes on, and a record leaves its list and is given back.** -/
theorem Ok.release (hs : s.Ok held [] L) {d : List HandlerId} {f : HandlerId → Bool}
    (hh : h ∈ L (s.record h).type ∨ h ∈ s.handlersDelete) (hnodup : d.Nodup)
    (hd : ∀ y, y ∈ d ↔ y ∈ s.handlersDelete ∧ y ≠ h)
    (hf : ∀ y, f y = true ↔ held y = true ∧ y ≠ h) :
    ∃ links handlers,
      Handlers.release { s with handlersDelete := d } h =
        some { s with handlersDelete := d, links := links, handlers := handlers } ∧
      Handlers.Ok { s with handlersDelete := d, links := links, handlers := handlers } f []
        (s.without L h) := by
  have halive : s.links h ≠ none := by
    rcases hh with hh | hh
    · exact hs.linked_alive hh
    · exact hs.deleted_alive hh
  have htoAdd : (s.record h).toAdd = false := by
    rcases hh with hh | hh
    · exact (hs.typed _ h hh).2
    · exact (hs.deleted h hh).1
  have hlt : (s.record h).type < s.handlers.length := by
    rcases hh with hh | hh
    · exact hs.linked_lt hh
    · exact (hs.deleted h hh).2.2
  have hparked : s.handlersAdd = [] := by
    rw [eq_nil_iff_forall_not_mem]
    intro y hy
    obtain ⟨-, -, -, x, hx⟩ := hs.parked y hy
    simp at hx
  obtain ⟨list, hget, hlist⟩ := hs.exists_list hlt
  obtain ⟨links, list', hremove, hlinked, hrewires⟩ : ∃ links list',
      Inlist.remove s.links list h = some (links, list') ∧
        Linked links list' (s.without L h (s.record h).type) ∧
        Rewires s.links links (L (s.record h).type) := by
    unfold without
    rw [update_self]
    by_cases hin : h ∈ L (s.record h).type
    · obtain ⟨l, r, hL⟩ := append_of_mem hin
      have hnd := hs.nodup (s.record h).type
      rw [hL] at hlist hnd ⊢
      obtain ⟨links, hremove, hlinked, hrewires, -⟩ := remove_spec hlist
      have hnotl : h ∉ l := by
        intro hmem
        exact (nodup_append.mp hnd).2.2 h hmem h mem_cons_self rfl
      rw [erase_append_right _ hnotl, erase_cons_head]
      exact ⟨links, _, hremove, hlinked, hrewires⟩
    · obtain ⟨v, hv⟩ := hs.stray h (.inr ⟨hh.resolve_left hin, hin⟩)
      rw [erase_of_not_mem hin]
      refine ⟨s.links, list, remove_stray hv ?_, hlist, Rewires.refl _ _⟩
      intro hhead
      rw [hlist.first] at hhead
      exact hin (mem_of_mem_head? hhead)
  refine ⟨Inlist.free links h, s.handlers.set (s.record h).type list', ?_, ?_⟩
  · unfold Handlers.release Handlers.read Handlers.unlink
    obtain ⟨c, hc⟩ := ne_none_iff_exists'.mp halive
    rw [hc, map_some, bind_some]
    rw [htoAdd, hget, bind_some, hremove]
    rfl
  have hfree : ∀ y ≠ h, Inlist.free links h y = links y := fun y hy =>
    update_of_ne hy _ _
  have hset : ∀ t' list'', (s.handlers.set (s.record h).type list')[t']? = some list'' →
      t' = (s.record h).type ∧ list'' = list' ∨
        t' ≠ (s.record h).type ∧ s.handlers[t']? = some list'' := by
    intro t' list'' hget'
    rw [getElem?_set] at hget'
    split at hget'
    · rename_i htt
      exact .inl ⟨htt.symm, (some.inj hget').symm⟩
    · rename_i htt
      exact .inr ⟨fun h => htt h.symm, hget'⟩
  constructor
  · intro t' list'' hget'
    have hlinked' : Linked links list'' (s.without L h t') := by
      rcases hset t' list'' hget' with ⟨rfl, rfl⟩ | ⟨hne, hget''⟩
      · exact hlinked
      have hL : s.without L h t' = L t' := update_of_ne hne _ _
      rw [hL]
      refine (hs.lists t' list'' hget'').rewires hrewires fun y hy hmem => ?_
      exact hne ((hs.typed t' y hy).1.symm.trans (hs.typed _ y hmem).1)
    exact hlinked'.congr fun y hy => hfree y (hs.mem_without.mp hy).2
  · intro t' hget'
    rw [getElem?_eq_none_iff, length_set, ← getElem?_eq_none_iff] at hget'
    rw [eq_nil_iff_forall_not_mem]
    intro y hy
    have hold := (hs.mem_without.mp hy).1
    rw [hs.outside t' hget'] at hold
    simp at hold
  · rw [length_set]
    rcases hs.length with ⟨hnil, -⟩ | hlength
    · rw [hnil] at hlt
      exact absurd hlt (Nat.not_lt_zero _)
    · exact .inr hlength
  · intro t' y hy
    exact hs.typed t' y (hs.mem_without.mp hy).1
  · intro y hy
    rw [hparked] at hy
    simp at hy
  · exact hs.parkedNodup
  · intro y hy
    rw [length_set]
    exact hs.deleted y ((hd y).mp hy).1
  · exact hnodup
  · intro y hy
    dsimp only at hy ⊢
    rw [hparked, hd] at hy
    obtain ⟨⟨hy, hne⟩, hnot⟩ := hy.resolve_left (by simp)
    have hout : y ∉ L (s.record y).type := fun hin => hnot (hs.mem_without.mpr ⟨hin, hne⟩)
    obtain ⟨v, hv⟩ := hs.stray y (.inr ⟨hy, hout⟩)
    refine ⟨v, ?_⟩
    rw [hfree y hne, hrewires.others y, hv]
    intro hin
    exact hout ((hs.typed _ y hin).1 ▸ hin)
  · intro t' y hy hmark
    obtain ⟨hin, hne⟩ := hs.mem_without.mp hy
    exact (hd y).mpr ⟨hs.marked t' y hin hmark, hne⟩
  · intro y
    rw [hf, hs.held, hparked, hs.mem_without]
    constructor
    · rintro ⟨hy | ⟨hin, hmark⟩, hne⟩
      · simp at hy
      · exact .inr ⟨⟨hin, hne⟩, hmark⟩
    · rintro (hy | ⟨⟨hin, hne⟩, hmark⟩)
      · simp at hy
      · exact ⟨.inr ⟨hin, hmark⟩, hne⟩
  · intro y hy
    dsimp only at hy ⊢
    by_cases hyh : y = h
    · rw [hyh] at hy
      exact absurd (update_self _ _ _) hy
    · rw [hfree y hyh] at hy
      exact hs.bound y fun hnone => hy ((hrewires.alive y).mpr hnone)
  · intro t' x hx
    simp at hx

/-- After the walk those deleted are unlinked, then freed. -/
theorem Ok.freeDeleted : ∀ (d : List HandlerId) (s : Handlers) (L : Nat → List HandlerId),
    s.Ok held [] L → s.handlersDelete = d →
    ∃ s' L', Handlers.freeDeleted d s = some s' ∧ s'.Ok held [] L' ∧ s'.handlersDelete = [] ∧
      s'.handlersWalking = s.handlersWalking ∧ s'.currentEventType = s.currentEventType := by
  intro d
  induction d with
  | nil =>
    intro s L hs hd
    exact ⟨s, L, rfl, hs, hd, rfl, rfl⟩
  | cons h d ih =>
    intro s L hs hd
    have hnodup := hs.deletedNodup
    rw [hd] at hnodup
    obtain ⟨hnotin, hnodup⟩ := nodup_cons.mp hnodup
    have hmem : h ∈ s.handlersDelete := by
      rw [hd]
      exact mem_cons_self
    have hdead : ∀ y, held y = true ↔ held y = true ∧ y ≠ h := by
      intro y
      refine ⟨fun hy => ⟨hy, ?_⟩, fun hy => hy.1⟩
      rintro rfl
      obtain ⟨htoAdd, hmark, -⟩ := hs.deleted y hmem
      rcases (hs.held y).mp hy with hin | ⟨-, hmark'⟩
      · rw [(hs.parked y hin).1] at htoAdd
        simp at htoAdd
      · rw [hmark] at hmark'
        simp at hmark'
    have hrest : ∀ y, y ∈ d ↔ y ∈ s.handlersDelete ∧ y ≠ h := by
      intro y
      rw [hd, mem_cons]
      constructor
      · intro hy
        refine ⟨.inr hy, ?_⟩
        rintro rfl
        exact hnotin hy
      · rintro ⟨hy, hne⟩
        exact hy.resolve_left hne
    obtain ⟨links, handlers, hrelease, hok⟩ :=
      hs.release (.inr hmem) hnodup hrest hdead
    obtain ⟨s', L', hfree, hok', hd', hwalking, hcurrent⟩ := ih _ _ hok rfl
    refine ⟨s', L', ?_, hok', hd', hwalking, hcurrent⟩
    rw [Handlers.freeDeleted, hrelease]
    exact hfree

/-! ### The calls and the walks -/

/-- **`handler_del`**, for a handler that was added and not deleted. -/
theorem Ok.handlerDel (hs : s.Ok held walks L) (hc : s.Counts walks) (hheld : held h = true) :
    ∃ s' L' d, s.handlerDel h = some (s', d) ∧ s'.Ok (update held h false) walks L' ∧
      s'.Counts walks := by
  have hread := hs.read (hs.held_alive hheld)
  have htype : ¬s.eventTypeCount < (s.record h).type := by
    have hlt := hs.held_lt hheld
    rcases hs.length with ⟨hnil, -⟩ | hlength
    · rw [hnil] at hlt
      exact absurd hlt (Nat.not_lt_zero _)
    · omega
  unfold Handlers.handlerDel
  rw [hread, bind_some, if_neg htype]
  by_cases hwalk : 0 < s.handlersWalking
  · rw [if_pos hwalk]
    obtain ⟨-, -, -, -, -, hwalking, hcurrent⟩ := withDeleted_others s h
    refine ⟨s.withDeleted h, L, _, rfl, hs.withDeleted hheld, ?_, ?_, ?_⟩
    · rw [hwalking]
      exact hc.walking
    · rw [hwalking]
      intro hzero
      exact absurd hzero (Nat.ne_of_gt hwalk)
    · rw [hcurrent]
      exact hc.current
  · rw [if_neg hwalk]
    have hzero : s.handlersWalking = 0 := Nat.eq_zero_of_not_pos hwalk
    have hwalks : walks = [] := by
      rw [← length_eq_zero_iff, ← hc.walking, hzero]
    subst hwalks
    have hempty : s.handlersDelete = [] := hc.rest hzero
    have hin : h ∈ L (s.record h).type := by
      rcases (hs.held h).mp hheld with hin | ⟨hin, -⟩
      · obtain ⟨-, -, -, x, hx⟩ := hs.parked h hin
        simp at hx
      · exact hin
    obtain ⟨links, handlers, hrelease, hok⟩ :=
      hs.release (f := update held h false) (.inl hin)
        nodup_nil (fun y => by rw [hempty]; simp) (fun y => by
          by_cases hy : y = h
          · rw [hy]
            simp
          · simp [hy])
    refine ⟨_, _, some (s.record h).data, ?_, hok, ⟨hc.walking, fun _ => rfl, hc.current⟩⟩
    have hsame : s = { s with handlersDelete := [] } := by rw [← hempty]
    rw [hsame, hrelease]
    rfl

theorem Ok.startWalk (hs : s.Ok held walks L) (hc : s.Counts walks) (ht : t < s.handlers.length)
    (ev : Option Nat) :
    ∃ s' list, s.startWalk t ev = some (s', list) ∧ s'.Ok held ((t, list) :: walks) L ∧
      s'.Counts ((t, list) :: walks) := by
  obtain ⟨list, hget, hlist⟩ := hs.exists_list ht
  unfold Handlers.startWalk
  rw [hget]
  refine ⟨_, list, rfl, ?_, ?_, ?_, ?_⟩
  · refine ⟨hs.lists, hs.outside, hs.length, hs.typed, ?_, hs.parkedNodup, hs.deleted,
      hs.deletedNodup, hs.stray, hs.marked, hs.held, hs.bound, ?_⟩
    · intro y hy
      obtain ⟨hadd, hmark, hlt, x, hx⟩ := hs.parked y hy
      exact ⟨hadd, hmark, hlt, x, mem_cons_of_mem _ hx⟩
    · intro t' x hx
      rcases mem_cons.mp hx with heq | hx
      · obtain ⟨rfl, rfl⟩ := Prod.mk.inj heq
        refine ⟨ht, ?_⟩
        intro y hy
        rw [hlist.first] at hy
        exact mem_of_mem_head? hy
      · exact hs.walked t' x hx
  · rw [length_cons, hc.walking]
  · intro hzero
    exact absurd hzero (Nat.succ_ne_zero _)
  · intro t' ht'
    have htt : t' = t := Int.ofNat.inj ht'.symm
    exact ⟨list, by rw [htt]; exact mem_cons_self⟩

/-- **The end of a walk.** -/
theorem Ok.endWalk {x : Option HandlerId} (hs : s.Ok held ((t, x) :: walks) L)
    (hc : s.Counts ((t, x) :: walks)) :
    ∃ s' L', s.endWalk t = some s' ∧ s'.Ok held walks L' ∧ s'.Counts walks := by
  have hwalking : s.handlersWalking - 1 = walks.length := by
    rw [hc.walking]
    rfl
  have hs0 : Handlers.Ok { s with handlersWalking := s.handlersWalking - 1
                                  currentEventData := none, currentEventType := -1 }
      held ((t, x) :: walks) L :=
    ⟨hs.lists, hs.outside, hs.length, hs.typed, hs.parked, hs.parkedNodup, hs.deleted,
      hs.deletedNodup, hs.stray, hs.marked, hs.held, hs.bound, hs.walked⟩
  obtain ⟨s1, L1, hadd, hs1, hkeeps, htypes, hleft⟩ :=
    Ok.addParked s.handlersAdd _ L hs0 hs.parkedNodup fun h hh => hh
  -- nothing of the type is parked any more, so what is parked waits for another walk
  have hs2 : s1.Ok held walks L1 := by
    refine { hs1 with parked := ?_, walked := ?_ }
    · intro y hy
      obtain ⟨htoAdd, hmark, hlt, p, hp⟩ := hs1.parked y hy
      refine ⟨htoAdd, hmark, hlt, ?_⟩
      rcases mem_cons.mp hp with heq | hp
      · obtain ⟨htype, -⟩ := Prod.mk.inj heq
        obtain ⟨hin, hne⟩ := hleft y hy
        rw [htypes] at htype
        exact absurd htype (hne hin)
      · exact ⟨p, hp⟩
    · intro t' p hp
      exact hs1.walked t' p (mem_cons_of_mem _ hp)
  have hwalking1 : s1.handlersWalking = walks.length := hkeeps.handlersWalking.trans hwalking
  have hcurrent1 : s1.currentEventType = -1 := hkeeps.currentEventType
  unfold Handlers.endWalk
  dsimp only
  rw [hadd, bind_some]
  by_cases hzero : s1.handlersWalking = 0
  · rw [if_pos hzero]
    have hwalks : walks = [] := by
      rw [← length_eq_zero_iff, ← hwalking1, hzero]
    subst hwalks
    obtain ⟨s', L', hfree, hok, hd, hwalking', hcurrent⟩ := Ok.freeDeleted _ s1 L1 hs2 rfl
    refine ⟨s', L', hfree, hok, hwalking'.trans hwalking1, fun _ => hd, ?_⟩
    intro t' ht'
    exact absurd ht' (by omega)
  · rw [if_neg hzero]
    refine ⟨s1, L1, rfl, hs2, hwalking1, fun h => absurd h hzero, ?_⟩
    intro t' ht'
    exact absurd ht' (by omega)

/-! ### Event types -/

theorem typeNew_length (hlen : s.handlers.length ≤ s.eventTypeCount + 2) :
    s.typeNew.handlers.length = s.eventTypeCount + 2 := by
  unfold Handlers.typeNew
  simp only [length_set, length_append, length_replicate]
  omega

theorem typeNew_get {list : Option HandlerId} (hget : s.typeNew.handlers[t]? = some list) :
    list = none ∧ (t = 0 ∨ s.handlers.length ≤ t ∨ t = s.eventTypeCount + 1) ∨
      s.handlers[t]? = some list := by
  unfold Handlers.typeNew at hget
  rw [getElem?_set] at hget
  split at hget
  · rename_i ht
    split at hget
    · exact .inl ⟨(some.inj hget).symm, .inr (.inr ht.symm)⟩
    · simp at hget
  rw [getElem?_set] at hget
  split at hget
  · rename_i ht
    split at hget
    · exact .inl ⟨(some.inj hget).symm, .inl ht.symm⟩
    · simp at hget
  · by_cases hlt : t < s.handlers.length
    · rw [getElem?_append_left hlt] at hget
      exact .inr hget
    rw [getElem?_append_right (Nat.not_lt.mp hlt), getElem?_replicate] at hget
    split at hget
    · exact .inl ⟨(some.inj hget).symm, .inr (.inl (Nat.not_lt.mp hlt))⟩
    · simp at hget

/-- A new type has no handlers. -/
theorem Ok.typeNew (hs : s.Ok held walks L) (hc : s.Counts walks)
    (hzero : ∀ h, s.handlers[0]? ≠ some (some h)) :
    s.typeNew.Ok held walks L ∧ s.typeNew.Counts walks := by
  have hlen : s.handlers.length ≤ s.eventTypeCount + 1 := by
    rcases hs.length with ⟨hnil, -⟩ | hlength
    · rw [hnil]
      exact Nat.zero_le _
    · exact Nat.le_of_eq hlength
  have hlength := typeNew_length (s := s) (by omega)
  have hgrows : s.handlers.length ≤ s.typeNew.handlers.length := by omega
  have hnone : L 0 = [] := by
    by_cases hlt : 0 < s.handlers.length
    · obtain ⟨list, hget, hlist⟩ := hs.exists_list hlt
      have hfirst := hlist.first
      cases hL : L 0 with
      | nil => rfl
      | cons y rest =>
        rw [hL] at hfirst
        rw [hfirst] at hget
        exact absurd hget (hzero y)
    · exact hs.outside 0 (getElem?_eq_none (Nat.not_lt.mp hlt))
  refine ⟨⟨?_, ?_, ?_, hs.typed, ?_, hs.parkedNodup, ?_, hs.deletedNodup, hs.stray, hs.marked,
    hs.held, hs.bound, ?_⟩, ⟨hc.walking, hc.rest, hc.current⟩⟩
  · intro t list hget
    rcases typeNew_get hget with ⟨rfl, ht⟩ | hold
    · have hL : L t = [] := by
        rcases ht with rfl | ht | rfl
        · exact hnone
        · exact hs.outside t (getElem?_eq_none ht)
        · exact hs.outside _ (getElem?_eq_none hlen)
      rw [hL]
      exact linked_nil
    · exact hs.lists t list hold
  · intro t hget
    rw [getElem?_eq_none_iff] at hget
    exact hs.outside t (getElem?_eq_none (Nat.le_trans hgrows hget))
  · exact .inr hlength
  · intro y hy
    obtain ⟨htoAdd, hmark, hlt, hx⟩ := hs.parked y hy
    exact ⟨htoAdd, hmark, Nat.lt_of_lt_of_le hlt hgrows, hx⟩
  · intro y hy
    obtain ⟨htoAdd, hmark, hlt⟩ := hs.deleted y hy
    exact ⟨htoAdd, hmark, Nat.lt_of_lt_of_le hlt hgrows⟩
  · intro t x hx
    obtain ⟨hlt, hin⟩ := hs.walked t x hx
    exact ⟨Nat.lt_of_lt_of_le hlt hgrows, hin⟩

theorem Ok.lt_of_type (hs : s.Ok held walks L) (hle : type ≤ s.eventTypeCount)
    (hne : s.handlers ≠ []) : type.toNat < s.handlers.length := by
  rcases hs.length with ⟨hnil, -⟩ | hlength
  · exact absurd hnil hne
  · omega

theorem Ok.lt_of_type_of (hs : s.Ok held walks L) (hge : 0 ≤ type)
    (hle : type ≤ s.eventTypeCount) (hne : type = 0 → s.handlers ≠ []) :
    type.toNat < s.handlers.length := by
  refine hs.lt_of_type hle ?_
  intro hnil
  rcases hs.length with ⟨-, hcount⟩ | hlength
  · exact hne (by omega) hnil
  · rw [hnil] at hlength
    simp at hlength

theorem Ok.addUnless (hs : s.Ok held walks L) (hc : s.Counts walks) (refused : Prop)
    [Decidable refused] (hlt : ¬refused → t < s.handlers.length) (func data : Nat) (front : Bool) :
    ∃ (s' : Handlers) (h : Option HandlerId) (L' : Nat → List HandlerId),
      (if refused then some (s, none)
        else (s.newHandler t func data front).map fun r => (r.1, some r.2)) = some (s', h) ∧
      s'.Ok (h.elim held fun h => update held h true) walks L' ∧ s'.Counts walks := by
  split
  · exact ⟨s, none, L, rfl, hs, hc⟩
  rename_i hrefused
  obtain ⟨s', h, L', hnew, hok, hkeeps⟩ := hs.newHandler hc (hlt hrefused) func data front
  exact ⟨s', some h, L', by rw [hnew]; rfl, hok, hkeeps.counts hc⟩

/-- **`handler_add`** -/
theorem Ok.handlerAdd (hs : s.Ok held walks L) (hc : s.Counts walks) (type : Int)
    (func : Option Nat) (data : Nat) :
    ∃ s' h L', s.handlerAdd type func data = some (s', h) ∧
      s'.Ok (h.elim held fun h => update held h true) walks L' ∧ s'.Counts walks := by
  unfold Handlers.handlerAdd
  cases func with
  | none => exact ⟨s, none, L, rfl, hs, hc⟩
  | some func =>
    refine hs.addUnless hc _ (fun hok => ?_) func data false
    exact hs.lt_of_type_of (by omega) (by omega) (by omega)

/-- **`handler_prepend`**, which takes type 0 as well. -/
theorem Ok.handlerPrepend (hs : s.Ok held walks L) (hc : s.Counts walks) (type : Int)
    (func : Option Nat) (data : Nat) (hne : type = 0 → s.handlers ≠ []) :
    ∃ s' h L', s.handlerPrepend type func data = some (s', h) ∧
      s'.Ok (h.elim held fun h => update held h true) walks L' ∧ s'.Counts walks := by
  unfold Handlers.handlerPrepend
  cases func with
  | none => exact ⟨s, none, L, rfl, hs, hc⟩
  | some func =>
    refine hs.addUnless hc _ (fun hok => ?_) func data true
    exact hs.lt_of_type_of (by omega) (by omega) hne

end Handlers

end Core.Event
