/-
The domains of a thread.

A thread has the tables of its own domain and of the shared one, and those of another thread that it
adopted.  Every table is only worked on with ids of its domain, so what holds of tables holds in
every state of a thread.

An object that is made with a parent gets an entry in the domain of the parent.  The shared copy of
`_eo_id_allocate` composes the id with the shared domain, but the other one with the current domain
of the thread, which need not be the one of the entry.
-/
import Efl.Eo.Ids.Tables

namespace Eo.Ids

open Option Function

variable {κ : Type}

/-! ### The states of tables -/

namespace TableData

/-- The states that the tables of the domain `x` go through.  Only ids of the domain are looked up
in them, and an id is released that `_eo_id_allocate` composed. -/
inductive Reachable (x : Nat) : TableData κ → Prop
  | new (random : Nat) : Reachable x (new (x == domainShared) random)
  | allocate {d : TableData κ} (obj : Obj) (domain : Nat) :
      Reachable x d → Reachable x (d.allocate obj domain).1
  | objPointerGet {d d' : TableData κ} {id : Id} {o : Option Obj} :
      Reachable x d → d.objPointerGet id = some (d', o) → Reachable x d'
  | release {d d' : TableData κ} {q : Place} {g : Nat} :
      Reachable x d → InRange q g → d.release (word q x g) = some d' → Reachable x d'
  | isaCached {d : TableData κ} (id : Id) (klass : Option κ) (isa : Bool) :
      Reachable x d →
        Reachable x { d with cache := { d.cache with isaId := id, klass := klass, isa := isa } }

variable {x : Nat} {d : TableData κ}

theorem Reachable.ok_shared (h : Reachable x d) : Ok x d ∧ d.shared = (x == domainShared) := by
  induction h with
  | new random => exact ⟨ok_new _ random, rfl⟩
  | allocate obj domain _ ih =>
    rcases ih.1.allocate obj domain with ⟨d', heq, hidle, -⟩ | ⟨d', q, heq, hallocated, -⟩
    · rw [heq]
      exact ⟨hidle.ok ih.1, hidle.shared.trans ih.2⟩
    · rw [heq]
      exact ⟨hallocated.ok, hallocated.shared.trans ih.2⟩
  | objPointerGet _ hget ih =>
    exact ⟨(ih.1.lookedUp hget).ok, (ih.1.lookedUp hget).shared.trans ih.2⟩
  | release _ hq hrelease ih =>
    rcases ih.1.release hq with ⟨hsame, -⟩ | ⟨d', o, hsome, -, hreleased⟩
    · rw [hrelease] at hsame
      rw [some.inj hsame]
      exact ih
    · rw [hrelease] at hsome
      rw [some.inj hsome]
      exact ⟨hreleased.ok, hreleased.shared.trans ih.2⟩
  | isaCached id klass isa _ ih =>
    obtain ⟨ih, hshared⟩ := ih
    exact ⟨⟨ih.tables, ih.linked, ih.current, ih.spare, ih.generation, ih.object, ih.cached⟩,
      hshared⟩

theorem Reachable.ok (h : Reachable x d) : Ok x d := h.ok_shared.1

theorem Reachable.shared (h : Reachable x d) : d.shared = (x == domainShared) := h.ok_shared.2

end TableData

/-! ### The states of a thread -/

namespace IdData

/-- `_eo_table_data_new`; `shared` are the tables of the shared domain. -/
def new (domain random : Nat) (shared : TableData κ) : IdData κ where
  tables := update (update (fun _ => none) domainShared (some shared)) domain
    (some (TableData.new (domain == domainShared) random))
  localDomain := domain
  domainStack := [domain]

/-- `efl_domain_current_set` -/
def domainSet (data : IdData κ) (domain : Nat) : IdData κ × Bool :=
  if 2 < domain then (data, false)
  else ({ data with domainStack := domain :: data.domainStack.tail }, true)

/-- `efl_domain_data_adopt` -/
def domainAdopt (data foreign : IdData κ) : IdData κ × Option Nat :=
  if foreign.localDomain = data.localDomain then (data, none)
  else if (data.tables foreign.localDomain).isSome then (data, none)
  else
    let adopted := foreign.tables foreign.localDomain
    let data := { data with tables := update data.tables foreign.localDomain adopted }
    let data := (data.domainPush foreign.localDomain).1
    (data, some data.current)

/-- `efl_domain_data_return` -/
def domainReturn (data : IdData κ) (domain : Nat) : IdData κ × Bool :=
  if 2 < domain then (data, false)
  else if domain = data.localDomain then (data, false)
  else ({ data with tables := update data.tables domain none }.domainPop, true)

/-- The states that a thread goes through.  The tables of a domain that other threads use too may be
changed by them. -/
inductive Reachable : IdData κ → Prop
  | new (domain random : Nat) {shared : TableData κ} :
      shared.Reachable domainShared → Reachable (new domain random shared)
  | eoIdAllocate {data : IdData κ} (obj : Obj) (parent : Id) :
      Reachable data → Reachable (data.eoIdAllocate obj parent).1
  | eoObjPointerGet {data data' : IdData κ} {id : Id} {o : Option Obj} :
      Reachable data → data.eoObjPointerGet id = some (data', o) → Reachable data'
  | eoIdRelease {data data' : IdData κ} {q : Place} {x g : Nat} :
      Reachable data → InRange q g → data.eoIdRelease (word q x g) = some data' → Reachable data'
  | domainPush {data : IdData κ} (domain : Nat) :
      Reachable data → Reachable (data.domainPush domain).1
  | domainPop {data : IdData κ} : Reachable data → Reachable data.domainPop
  | domainSet {data : IdData κ} (domain : Nat) :
      Reachable data → Reachable (data.domainSet domain).1
  | domainAdopt {data foreign : IdData κ} :
      Reachable data → Reachable foreign → Reachable (data.domainAdopt foreign).1
  | domainReturn {data : IdData κ} (domain : Nat) :
      Reachable data → Reachable (data.domainReturn domain).1
  | others {data : IdData κ} {x : Nat} {d : TableData κ} :
      Reachable data → (data.tables x).isSome → d.Reachable x → Reachable (data.setTables x d)

variable {data data' : IdData κ} {x : Nat} {d : TableData κ} {q : Place} {y : Nat} {o : Obj}
  {d' : TableData κ} {parent : Id} {obj : Obj}

theorem tables_setTables_self : (data.setTables x d).tables x = some d := update_self ..

theorem tables_setTables_of_ne (h : y ≠ x) :
    (data.setTables x d).tables y = data.tables y := update_of_ne h _ _

theorem tables_reachable_update {f : Nat → Option (TableData κ)} {o : Option (TableData κ)}
    (h : ∀ y d', f y = some d' → d'.Reachable y)
    (ho : ∀ d', o = some d' → d'.Reachable x) :
    ∀ y d', update f x o y = some d' → d'.Reachable y := by
  intro y d' hd
  by_cases hy : y = x
  · rw [hy, update_self] at hd
    rw [hy]
    exact ho d' hd
  · rw [update_of_ne hy] at hd
    exact h y d' hd

theorem tables_domainPop : data.domainPop.tables = data.tables := by
  unfold domainPop
  split <;> rfl

theorem tables_domainPush {domain : Nat} : (data.domainPush domain).1.tables = data.tables := by
  unfold domainPush
  split <;> rfl

/-- **The tables of each domain are in a state that tables go through.** -/
theorem Reachable.tables (h : data.Reachable) :
    ∀ x d, data.tables x = some d → d.Reachable x := by
  induction h with
  | new domain random hshared =>
    refine tables_reachable_update ?_ ?_
    · refine tables_reachable_update ?_ ?_
      · intro y d' hd
        simp at hd
      · intro d' hd
        rw [← some.inj hd]
        exact hshared
    · intro d' hd
      rw [← some.inj hd]
      exact .new random
  | @eoIdAllocate data obj parent _ ih =>
    unfold IdData.eoIdAllocate
    dsimp only
    split
    · exact ih
    rename_i d hd
    refine tables_reachable_update ih fun d' h => ?_
    rw [← some.inj h]
    exact .allocate obj _ (ih _ d hd)
  | @eoObjPointerGet data data' id o _ hget ih =>
    unfold IdData.eoObjPointerGet at hget
    split at hget
    · obtain ⟨rfl, -⟩ := Prod.mk.inj (some.inj hget)
      exact ih
    rename_i d hd
    obtain ⟨r, hr, heq⟩ := map_eq_some_iff.mp hget
    obtain ⟨rfl, rfl⟩ := Prod.mk.inj heq
    refine tables_reachable_update ih fun d' h => ?_
    rw [← some.inj h]
    exact .objPointerGet (ih _ d hd) hr
  | @eoIdRelease data data' q x g _ hq hrelease ih =>
    unfold IdData.eoIdRelease at hrelease
    split at hrelease
    · rw [← some.inj hrelease]
      exact ih
    rename_i d hd
    obtain ⟨d', hd', rfl⟩ := map_eq_some_iff.mp hrelease
    refine tables_reachable_update ih fun d'' h => ?_
    rw [← some.inj h]
    have hdomain := (parts_word (x := x) hq).2.2.2.1
    rw [← word_mod, ← hdomain] at hd'
    exact .release (ih _ d hd) hq hd'
  | domainPush domain _ ih =>
    rw [tables_domainPush]
    exact ih
  | domainPop _ ih =>
    rw [tables_domainPop]
    exact ih
  | domainSet domain _ ih =>
    unfold IdData.domainSet
    split <;> exact ih
  | domainAdopt _ _ ih ih' =>
    unfold IdData.domainAdopt
    split
    · exact ih
    split
    · exact ih
    rw [tables_domainPush]
    exact tables_reachable_update ih fun d' h => ih' _ d' h
  | domainReturn domain _ ih =>
    unfold IdData.domainReturn
    split
    · exact ih
    split
    · exact ih
    rw [tables_domainPop]
    exact tables_reachable_update ih fun d' h => absurd h (by simp)
  | others _ _ hd ih =>
    refine tables_reachable_update ih fun d' h => ?_
    rw [← some.inj h]
    exact hd

/-! ### An id for an object with a parent -/

/-- The entries in use in a domain. -/
def used (data : IdData κ) (x : Nat) (q : Place) : Option (Option Obj × Nat) :=
  (data.tables x).bind fun d => d.used q

/-- The id that `after` gave resolves to the object, and its release frees the entry in the domain
`x` that was put to use since `before`. -/
structure Serves (before after : IdData κ) (x : Nat) (obj : Obj) (id : Id) : Prop where
  resolves : ∃ data, after.eoObjPointerGet id = some (data, some obj)
  frees : ∃ data, after.eoIdRelease id = some data ∧ data.used x = before.used x

theorem used_setTables_self : (data.setTables x d).used x = d.used := by
  funext q
  rw [used, tables_setTables_self]
  rfl

theorem used_setTables_of_ne (h : y ≠ x) :
    (data.setTables x d).used y = data.used y := by
  funext q
  rw [used, tables_setTables_of_ne h, used]

theorem domain_word {g : Nat} (hq : InRange q g) : (word q x g).domain = x % 4 :=
  (parts_word hq).2.2.2.1

theorem serves_of_domain (hd : data.tables x = some d)
    (hnew : TableData.Allocated x d d' obj q) (hx : x < 4) :
    Serves data (data.setTables x d') x obj (word q x d.nextGeneration) := by
  have hdomain := domain_word (x := x) hnew.inRange
  rw [Nat.mod_eq_of_lt hx] at hdomain
  have hused : d'.used q = some (some obj, d.nextGeneration) := by
    rw [hnew.used, update_self]
  constructor
  · obtain ⟨d'', hget, -⟩ := hnew.ok.objPointerGet_word hnew.inRange
    rw [TableData.target_of_used hused] at hget
    refine ⟨(data.setTables x d').setTables x d'', ?_⟩
    rw [eoObjPointerGet, hdomain, tables_setTables_self]
    dsimp only
    rw [hget]
    rfl
  · rcases hnew.ok.release hnew.inRange with ⟨-, hnone⟩ | ⟨d'', o, hrelease, -, hreleased⟩
    · exact absurd hused (hnone _)
    refine ⟨(data.setTables x d').setTables x d'', ?_, ?_⟩
    · rw [eoIdRelease, hdomain, tables_setTables_self]
      dsimp only
      rw [hrelease]
      rfl
    · have hsame : (update d'.used q none) = d.used := by
        rw [hnew.used, update_idem, ← hnew.free, update_eq_self]
      rw [used_setTables_self, hreleased.used, hsame]
      funext q'
      rw [used, hd]
      rfl

theorem not_serves_of_domain
    (hd : data.tables x = some d) (hnew : TableData.Allocated x d d' obj q) (hy : x ≠ y % 4) :
    ¬ Serves data (data.setTables x d') x obj (word q y d.nextGeneration) := by
  rintro ⟨-, data', hrelease, hused⟩
  have hkept : data'.used x = d'.used := by
    rw [eoIdRelease, domain_word hnew.inRange] at hrelease
    split at hrelease
    · rw [← some.inj hrelease, used_setTables_self]
    · obtain ⟨d'', -, rfl⟩ := map_eq_some_iff.mp hrelease
      rw [used_setTables_of_ne hy, used_setTables_self]
  have hbefore := congrFun (hkept.symm.trans hused) q
  rw [hnew.used, used, hd, bind_some, hnew.free] at hbefore
  simp at hbefore

theorem Reachable.tables_of_resolves (h : data.Reachable) {id : Id}
    (hget : data.eoObjPointerGet id = some (data', some o)) :
    id ≠ 0 ∧ ∃ d, data.tables id.domain = some d := by
  unfold IdData.eoObjPointerGet at hget
  cases hd : data.tables id.domain with
  | none =>
    rw [hd] at hget
    simp at hget
  | some d =>
    refine ⟨?_, d, rfl⟩
    rintro rfl
    rw [hd] at hget
    obtain ⟨r, hr, heq⟩ := map_eq_some_iff.mp hget
    have hobj : r.2 = some o := (Prod.mk.inj heq).2
    have hok := (h.tables _ d hd).ok
    unfold TableData.objPointerGet at hr
    split_ifs at hr with hcache hnull
    · rw [← some.inj hr] at hobj
      rw [hok.object hcache.symm] at hobj
      simp at hobj
    · rw [← some.inj hr] at hobj
      simp at hobj
    · exact hnull (.inl rfl)

theorem domain_lt (id : Id) : id.domain < 4 := by
  rw [Id.domain, Nat.and_two_pow_sub_one_eq_mod]
  exact Nat.mod_lt _ (by decide)

theorem Reachable.serves_iff (h : data.Reachable)
    (hparent : data.eoObjPointerGet parent = some (data', some o)) (obj : Obj) :
    ∃ d, data.tables parent.domain = some d ∧
      ((data.eoIdAllocate obj parent).2 = 0 ↔ d.Full) ∧
      (¬ d.Full → (Serves data (data.eoIdAllocate obj parent).1 parent.domain obj
          (data.eoIdAllocate obj parent).2 ↔
        parent.domain = domainShared ∨ parent.domain = data.current % 4)) := by
  obtain ⟨hne, d, hd⟩ := h.tables_of_resolves hparent
  have hok := (h.tables _ d hd).ok
  have hshared := (h.tables _ d hd).shared
  have hlt := domain_lt parent
  refine ⟨d, hd, ?_⟩
  unfold IdData.eoIdAllocate
  rw [if_pos hne]
  dsimp only
  rw [hd]
  dsimp only
  rcases hok.allocate obj (if d.shared then domainShared else data.current) with
    ⟨d', heq, -, hfull⟩ | ⟨d', q, heq, hnew, -⟩
  · rw [heq]
    exact ⟨⟨fun _ => hfull, fun _ => rfl⟩, fun hnot => absurd hfull hnot⟩
  have hnot : ¬ d.Full := by
    intro hfull
    have hq := hnew.inRange
    have hsome := hfull q.1 hq.mid hq.table q.2 hq.entry
    rw [hnew.free] at hsome
    simp at hsome
  rw [heq]
  refine ⟨⟨fun hzero => absurd hzero (word_ne_zero hnew.inRange), fun hfull => absurd hfull hnot⟩,
    fun _ => ?_⟩
  by_cases hdomain : parent.domain = domainShared
  · have hyes : d.shared = true := by rw [hshared, hdomain]; rfl
    rw [if_pos hyes, ← hdomain]
    exact ⟨fun _ => .inl rfl, fun _ => serves_of_domain hd hnew hlt⟩
  have hno : d.shared = false := by rw [hshared]; exact beq_false_of_ne hdomain
  rw [hno, if_neg (by simp)]
  constructor
  · intro hserves
    right
    by_contra hy
    exact not_serves_of_domain hd hnew hy hserves
  · rintro (hyes | heq')
    · exact absurd hyes hdomain
    · rw [← word_mod, ← heq']
      exact serves_of_domain hd hnew hlt

/-- **The id of an object with a parent serves it exactly when the domain of the parent is the
shared one or the current one**; no id is given when that domain is full. -/
theorem parentId_exact (h : data.Reachable)
    (hparent : data.eoObjPointerGet parent = some (data', some o)) (obj : Obj) :
    ((data.eoIdAllocate obj parent).2 = 0 ∨
        Serves data (data.eoIdAllocate obj parent).1 parent.domain obj
          (data.eoIdAllocate obj parent).2) ↔
      (∃ d, data.tables parent.domain = some d ∧ d.Full) ∨ parent.domain = domainShared ∨
        parent.domain = data.current % 4 := by
  obtain ⟨d, hd, hzero, hserves⟩ := h.serves_iff hparent obj
  have hfull : (∃ d', data.tables parent.domain = some d' ∧ d'.Full) ↔ d.Full := by
    constructor
    · rintro ⟨d', hd', hfull⟩
      rw [hd] at hd'
      exact some.inj hd' ▸ hfull
    · exact fun hfull => ⟨d, hd, hfull⟩
  rw [hfull, hzero]
  by_cases hf : d.Full
  · exact ⟨fun _ => .inl hf, fun _ => .inl hf⟩
  · rw [hserves hf]

/-- A thread that made an object in its own domain and then adopted the domain of another one. -/
def adopting : IdData Unit × Id :=
  let shared := TableData.new true 0
  let made := (new 2 0 shared).eoIdAllocate 1 0
  ((made.1.domainAdopt (new 0 0 shared)).1, made.2)

theorem adopting_reachable : adopting.1.Reachable :=
  .domainAdopt (.eoIdAllocate 1 0 (.new 2 0 (.new 0))) (.new 0 0 (.new 0))

theorem parentId_exact_adopting :
    ((adopting.1.eoIdAllocate 2 adopting.2).2 = 0 ∨
        Serves adopting.1 (adopting.1.eoIdAllocate 2 adopting.2).1 adopting.2.domain 2
          (adopting.1.eoIdAllocate 2 adopting.2).2) ↔
      (∃ d, adopting.1.tables adopting.2.domain = some d ∧ d.Full) ∨
        adopting.2.domain = domainShared ∨ adopting.2.domain = adopting.1.current % 4 :=
  parentId_exact adopting_reachable (by rfl) 2

/-- The id of the second object is one of the adopted domain, where its entry is not. -/
theorem adopting_misnames : adopting.1.Reachable ∧
    (adopting.1.eoObjPointerGet adopting.2).map Prod.snd = some (some 1) ∧
      (adopting.1.eoIdAllocate 2 adopting.2).2 ≠ 0 ∧
      ((adopting.1.eoIdAllocate 2 adopting.2).1.eoObjPointerGet
        (adopting.1.eoIdAllocate 2 adopting.2).2).map Prod.snd = some none :=
  ⟨adopting_reachable, by decide⟩

end IdData

end Eo.Ids
