/-
The filters through every call and every move of a walk.

Filters are linked at once, also while they are walked, so there is one list.  A filter
that is deleted during a walk is marked and waits for `_core_event_filters_call` to end.
That function gives the waiting records back without taking them out of the list, so the
invariant is kept by its end only where nothing waits.
-/
import Efl.Core.Event.Basic
import Efl.Eina.Inlist.Ops

namespace Core.Event

open Eina Eina.Inlist Chain List Function

/-- The program holds the filters `held`, `walks` has an entry for each walk over filters that is
under way, with the record it points to, and `F` are the linked filters. -/
structure Filters.Ok (s : Filters) (held : FilterId → Bool) (walks : List (Option FilterId))
    (F : List FilterId) : Prop where
  list : Linked s.links s.filters F
  deleted : ∀ f ∈ s.filtersDelete, f ∈ F ∧ (s.record f).deleteMe = true
  deletedNodup : s.filtersDelete.Nodup
  marked : ∀ f ∈ F, (s.record f).deleteMe = true → f ∈ s.filtersDelete
  held : ∀ f, held f = true ↔ f ∈ F ∧ (s.record f).deleteMe = false
  bound : ∀ f, s.links f ≠ none → f < s.fresh
  walking : s.filtersWalking = walks.length
  rest : s.filtersWalking = 0 → s.filtersDelete = []
  walked : ∀ x ∈ walks, ∀ f, x = some f → f ∈ F

namespace Filters

variable {s s' : Filters} {held : FilterId → Bool} {walks : List (Option FilterId)}
    {F : List FilterId} {f : FilterId}
  {x : Option FilterId}

theorem Ok.alive (hs : s.Ok held walks F) (hf : f ∈ F) : s.links f ≠ none := hs.list.alive hf

theorem Ok.fresh_dead (hs : s.Ok held walks F) : s.links s.fresh = none := by
  by_contra hne
  exact Nat.lt_irrefl _ (hs.bound _ hne)

theorem Ok.read (hs : s.Ok held walks F) (hf : f ∈ F) : s.read f = some (s.record f) := by
  obtain ⟨c, hc⟩ := Option.ne_none_iff_exists'.mp (hs.alive hf)
  rw [Filters.read, hc]
  rfl

theorem Ok.next (hs : s.Ok held walks F) (hf : f ∈ F) :
    ∃ n, s.next f = some n ∧ ∀ y, n = some y → y ∈ F := by
  obtain ⟨l, r, rfl⟩ := append_of_mem hf
  obtain ⟨v, hv⟩ := hs.list.get
  refine ⟨r.head?, ?_, ?_⟩
  · rw [Filters.next, hv]
    rfl
  · intro y hy
    exact mem_append_right _ (mem_cons_of_mem _ (mem_of_mem_head? hy))

theorem Ok.rewalk {x y : Option FilterId} (hs : s.Ok held (x :: walks) F)
    (hy : ∀ f, y = some f → f ∈ F) : s.Ok held (y :: walks) F := by
  refine { hs with walking := hs.walking, walked := ?_ }
  intro z hz
  rcases mem_cons.mp hz with rfl | hz
  · exact hy
  · exact hs.walked z (mem_cons_of_mem _ hz)

theorem Ok.first (hs : s.Ok held walks F) : ∀ f, s.filters = some f → f ∈ F := by
  intro f hf
  rw [hs.list.first] at hf
  exact mem_of_mem_head? hf

theorem Ok.startWalk (hs : s.Ok held walks F) : s.startWalk.Ok held (s.filters :: walks) F := by
  refine { hs with walking := ?_, rest := fun hzero => absurd hzero (Nat.succ_ne_zero _),
                   walked := ?_ }
  · rw [length_cons, ← hs.walking]
    rfl
  · intro x hx
    rcases mem_cons.mp hx with rfl | hx
    · exact hs.first
    · exact hs.walked x hx

theorem Ok.modify (hs : s.Ok held walks F) (p : Nat) :
    (s.modify f fun r => { r with loopData := p }).Ok held walks F := by
  have hmark : ∀ y, ((s.modify f fun r => { r with loopData := p }).record y).deleteMe =
      (s.record y).deleteMe := by
    intro y
    unfold Filters.modify
    dsimp only
    by_cases hy : y = f
    · rw [hy, update_self]
    · rw [update_of_ne hy]
  refine { hs with deleted := ?_, marked := ?_, held := ?_ }
  · intro y hy
    rw [hmark]
    exact hs.deleted y hy
  · intro y hy
    rw [hmark]
    exact hs.marked y hy
  · intro y
    rw [hmark]
    exact hs.held y

/-- **`filter_add`** -/
theorem Ok.filterAdd (hs : s.Ok held walks F) (funcStart funcFilter funcEnd : Option Nat)
    (data : Nat) :
    ∃ s' f F', s.filterAdd funcStart funcFilter funcEnd data = some (s', f) ∧
      s'.Ok (f.elim held fun f => update held f true) walks F' := by
  unfold Filters.filterAdd
  cases funcFilter with
  | none => exact ⟨s, none, F, rfl, hs⟩
  | some funcFilter =>
    have hnew : s.fresh ∉ F := fun hin => hs.alive hin hs.fresh_dead
    have hlinks : ∀ y ≠ s.fresh, Inlist.alloc s.links s.fresh y = s.links y :=
      fun y hy => update_of_ne hy _ _
    have hne : ∀ y ∈ F, y ≠ s.fresh := by
      rintro y hy rfl
      exact hnew hy
    have hlist : Linked (Inlist.alloc s.links s.fresh) s.filters F :=
      hs.list.congr fun y hy => hlinks y (hne y hy)
    obtain ⟨links, hwrite, hlinked, hrewires⟩ := append_spec hlist hnew
      (by rw [Inlist.alloc]; simp) (s.fresh + 1)
    dsimp only
    rw [hwrite]
    refine ⟨_, some s.fresh, F ++ [s.fresh], rfl, hlinked, ?_, hs.deletedNodup, ?_, ?_, ?_,
      hs.walking, hs.rest, ?_⟩
    · intro y hy
      obtain ⟨hin, hmark⟩ := hs.deleted y hy
      dsimp only
      rw [update_of_ne (hne y hin)]
      exact ⟨mem_append_left _ hin, hmark⟩
    · intro y hy hmark
      dsimp only at hmark
      by_cases hyf : y = s.fresh
      · rw [hyf] at hmark
        simp at hmark
      rw [update_of_ne hyf] at hmark
      rcases mem_append.mp hy with hin | hin
      · exact hs.marked y hin hmark
      · exact absurd (mem_singleton.mp hin) hyf
    · intro y
      dsimp only
      by_cases hyf : y = s.fresh
      · rw [hyf]
        simp
      · rw [update_of_ne hyf, Option.elim_some, update_of_ne hyf, hs.held]
        simp [hyf]
    · intro y hy
      by_cases hyf : y = s.fresh
      · rw [hyf]
        exact Nat.lt_succ_self _
      refine Nat.lt_succ_of_lt (hs.bound y ?_)
      intro hnone
      exact hy ((hrewires.alive y).mpr ((hlinks y hyf).trans hnone))
    · intro x hx y hy
      exact mem_append_left _ (hs.walked x hx y hy)

/-- A filter is deleted during a walk. -/
theorem Ok.withDeleted (hs : s.Ok held walks F) (hheld : held f = true)
    (hwalk : 0 < s.filtersWalking) :
    Filters.Ok { s with record := update s.record f { s.record f with deleteMe := true }
                        filtersDelete := s.filtersDelete ++ [f] }
                          (update held f false) walks F := by
  obtain ⟨hin, hmark⟩ := (hs.held f).mp hheld
  have hnot : f ∉ s.filtersDelete := by
    intro hdel
    rw [(hs.deleted f hdel).2] at hmark
    simp at hmark
  refine ⟨hs.list, ?_, ?_, ?_, ?_, hs.bound, hs.walking,
    fun hzero => absurd hzero (Nat.ne_of_gt hwalk), hs.walked⟩
  · intro y hy
    dsimp only at hy ⊢
    rw [mem_append, mem_singleton] at hy
    by_cases hyf : y = f
    · rw [hyf, update_self]
      exact ⟨hin, rfl⟩
    · rw [update_of_ne hyf]
      exact hs.deleted y (hy.resolve_right hyf)
  · refine nodup_append.mpr ⟨hs.deletedNodup, nodup_singleton _, ?_⟩
    intro y hy z hz hyz
    rw [hyz, mem_singleton.mp hz] at hy
    exact hnot hy
  · intro y hy hmark'
    dsimp only at hmark' ⊢
    rw [mem_append, mem_singleton]
    by_cases hyf : y = f
    · exact .inr hyf
    · rw [update_of_ne hyf] at hmark'
      exact .inl (hs.marked y hy hmark')
  · intro y
    dsimp only
    by_cases hyf : y = f
    · rw [hyf]
      simp
    · rw [update_of_ne hyf, update_of_ne hyf, hs.held]

/-- **`filter_del`**, for a filter that was added and not deleted. -/
theorem Ok.filterDel (hs : s.Ok held walks F) (hheld : held f = true) :
    ∃ s' d F', s.filterDel f = some (s', d) ∧ s'.Ok (update held f false) walks F' := by
  obtain ⟨hin, hmark⟩ := (hs.held f).mp hheld
  unfold Filters.filterDel
  rw [hs.read hin, Option.bind_some]
  by_cases hwalk : 0 < s.filtersWalking
  · rw [if_pos hwalk]
    exact ⟨_, _, F, rfl, hs.withDeleted hheld hwalk⟩
  rw [if_neg hwalk]
  have hzero : s.filtersWalking = 0 := Nat.eq_zero_of_not_pos hwalk
  have hempty := hs.rest hzero
  have hwalks : walks = [] := by
    rw [← length_eq_zero_iff, ← hs.walking, hzero]
  subst hwalks
  obtain ⟨l, r, rfl⟩ := append_of_mem hin
  obtain ⟨links, hremove, hlinked, hrewires, -⟩ := remove_spec hs.list
  have hnd := hs.list.nodup
  rw [(perm_middle).nodup_iff, nodup_cons] at hnd
  have hmem : ∀ y, y ∈ l ++ r ↔ y ∈ l ++ f :: r ∧ y ≠ f := by
    intro y
    simp only [mem_append, mem_cons]
    constructor
    · intro hy
      refine ⟨hy.imp_right .inr, ?_⟩
      rintro rfl
      exact hnd.1 (mem_append.mpr hy)
    · rintro ⟨hy | rfl | hy, hne⟩
      · exact .inl hy
      · exact absurd rfl hne
      · exact .inr hy
  rw [hremove]
  refine ⟨_, _, l ++ r, rfl, ?_, ?_, hs.deletedNodup, ?_, ?_, ?_, hs.walking, hs.rest, ?_⟩
  · exact hlinked.congr fun y hy => update_of_ne ((hmem y).mp hy).2 _ _
  · intro y hy
    rw [hempty] at hy
    simp at hy
  · intro y hy
    exact hs.marked y ((hmem y).mp hy).1
  · intro y
    dsimp only
    rw [hmem]
    by_cases hyf : y = f
    · rw [hyf]
      simp
    · rw [update_of_ne hyf, hs.held]
      simp [hyf]
  · intro y hy
    dsimp only at hy ⊢
    by_cases hyf : y = f
    · rw [hyf] at hy
      exact absurd (update_self _ _ _) hy
    · rw [Inlist.free, update_of_ne hyf] at hy
      exact hs.bound y fun hnone => hy ((hrewires.alive y).mpr hnone)
  · intro x hx
    simp at hx

theorem Ok.pop (hs : s.Ok held (x :: walks) F)
    (hrest : walks = [] → s.filtersDelete = []) : s.endDoFilter.Ok held walks F := by
  have hwalking : s.filtersWalking - 1 = walks.length := by
    rw [hs.walking]
    rfl
  refine { hs with walking := hwalking, rest := ?_, walked := ?_ }
  · intro hzero
    have hlen : walks.length = 0 := hwalking ▸ hzero
    exact hrest (length_eq_zero_iff.mp hlen)
  · intro y hy
    exact hs.walked y (mem_cons_of_mem _ hy)

/-- **The end of `_core_event_filters_call`**, where no filter waits to be given back. -/
theorem Ok.endFiltersCall (hs : s.Ok held (x :: walks) F)
    (hrest : walks = [] → s.filtersDelete = []) : s.endFiltersCall.Ok held walks F := by
  have hpop := hs.pop hrest
  unfold Filters.endFiltersCall
  by_cases hzero : s.filtersWalking - 1 = 0
  · rw [if_pos hzero]
    have hempty : s.filtersDelete = [] := hpop.rest hzero
    have hsame : ({ s with filtersWalking := s.filtersWalking - 1
                           links := s.filtersDelete.foldl Inlist.free s.links
                           filtersDelete := [] } : Filters) = s.endDoFilter := by
      rw [hempty, foldl_nil, ← hempty]
      rfl
    rw [hsame]
    exact hpop
  · rw [if_neg hzero]
    exact hpop

end Filters

end Core.Event
