/-
The ids that the tables of a domain gave out.

The history keeps the ids that are live with their objects, and the ids that were released; these
with the number of allocations made until then.  All entries of a domain share one counter of
generations, so that an id is given out again when its entry is the next one that is free at the
time its generation is the next one, however lately it was released.
-/
import Efl.Eo.Ids.Tables
import Efl.Lib.Runs

namespace Eo.Ids

open List Option Function

variable {κ : Type}

/-! ### The history -/

/-- The tables of a domain, and what became of the ids that they gave out. -/
structure World (κ : Type) where
  tables : TableData κ
  live : List (Id × Obj)
  released : List (Id × Nat)
  count : Nat

/-- `release` is called with the id of an object. -/
inductive Op where
  | allocate (obj : Obj)
  | release (id : Id)
  | objPointerGet (id : Id)

namespace World

variable (w : World κ)

def new (shared : Bool) (random : Nat) : World κ := ⟨TableData.new shared random, [], [], 0⟩

/-- The id was given out. -/
def Issued (id : Id) : Prop := id ∈ w.live.map Prod.fst ∨ id ∈ w.released.map Prod.fst

instance (id : Id) : Decidable (w.Issued id) := inferInstanceAs (Decidable (_ ∨ _))

/-- An id was given out for an object. -/
def given (d : TableData κ) (id : Id) (obj : Obj) : World κ where
  tables := d
  live := (id, obj) :: w.live
  released := w.released
  count := w.count + 1

/-- `_eo_id_release` was called with an id. -/
def dropped (d : TableData κ) (id : Id) : World κ where
  tables := d
  live := w.live.filter fun r => !decide (r.1 = id)
  released :=
    ((w.live.filter fun r => decide (r.1 = id)).map fun r => (r.1, w.count)) ++ w.released
  count := w.count

/-- A call on the tables of the domain `x`, and what it means for the history.  A lookup that reads
outside of a table has no result. -/
def step (x : Nat) (w : World κ) : Op → Option (World κ)
  | .allocate obj =>
    match w.tables.allocate obj x with
    | (d, id) => if id = 0 then some { w with tables := d } else some (w.given d id obj)
  | .release id =>
    if w.Issued id then (w.tables.release id).map fun d => w.dropped d id else none
  | .objPointerGet id => (w.tables.objPointerGet id).map fun r => { w with tables := r.1 }

/-- The id resolves to the object or to `NULL`, whether the cache answers or a table. -/
def Resolves (id : Id) (o : Option Obj) : Prop := ∃ d, w.tables.objPointerGet id = some (d, o)

/-- **What the ids of a domain are for.** -/
structure Holds (x : Nat) : Prop where
  resolves : ∀ id obj, (id, obj) ∈ w.live → w.Resolves id (some obj)
  distinct : (w.live.map Prod.fst).Nodup
  stale : ∀ id c, (id, c) ∈ w.released → w.count ≤ c + (maxGenerations - 2) → w.Resolves id none
  /-- The free entries of a table are the ones never used and the ones in its queue, and these are
  never all of its entries. -/
  free : ∀ p t, w.tables.tableAt p = some t → t.freeEntries ≠ maxEntryId ∧
    ∃ queue, t.Queue queue ∧ t.freeEntries = maxEntryId - t.start + queue.length
  /-- A table is linked in exactly while an id of it is live. -/
  linked : ∀ p, (w.tables.tableAt p).isSome ↔
    ∃ i g, InRange (p, i) g ∧ word (p, i) x g ∈ w.live.map Prod.fst

/-- The entry that is free next and the generation that comes next are those of no id that was
released fewer than `maxGenerations - 2` allocations ago. -/
def Fresh (x : Nat) (w : World κ) : Op → Prop
  | .allocate _ => ∀ id c, (id, c) ∈ w.released → w.count < c + (maxGenerations - 2) →
      ∀ q, w.tables.NextPlace q → id ≠ word q x w.tables.nextGeneration
  | _ => True

/-- The code and the history agree. -/
structure Inv (x : Nat) : Prop where
  ok : TableData.Ok x w.tables
  live : ∀ id obj, (id, obj) ∈ w.live ↔
    ∃ q g, w.tables.used q = some (some obj, g) ∧ id = word q x g
  used : ∀ q o g, w.tables.used q = some (o, g) → o.isSome
  nodup : (w.live.map Prod.fst).Nodup
  released : ∀ id c, (id, c) ∈ w.released → ∃ q g, InRange q g ∧ id = word q x g

/-- No id that was released lately is live. -/
def Stale : Prop := ∀ id c, (id, c) ∈ w.released → w.count ≤ c + (maxGenerations - 2) →
  id ∉ w.live.map Prod.fst

end World

/-! ### What the invariant gives -/

namespace World

variable {w w' : World κ} {x : Nat}

open TableData

variable {q : Place} {g : Nat}

theorem Inv.mem_live (h : w.Inv x) (hq : InRange q g) :
    word q x g ∈ w.live.map Prod.fst ↔ ∃ o, w.tables.used q = some (o, g) := by
  constructor
  · intro hmem
    obtain ⟨⟨id, obj⟩, hlive, heq⟩ := mem_map.mp hmem
    obtain ⟨q', g', hused, rfl⟩ := (h.live id obj).mp hlive
    obtain ⟨rfl, rfl⟩ := word_inj (h.ok.inRange hused) hq heq
    exact ⟨_, hused⟩
  · rintro ⟨o, hused⟩
    obtain ⟨obj, rfl⟩ := isSome_iff_exists.mp (h.used q o g hused)
    exact mem_map.mpr ⟨_, (h.live _ obj).mpr ⟨q, g, hused, rfl⟩, rfl⟩

/-- An id of the domain resolves to nothing exactly if it is not live. -/
theorem Inv.resolves_none (h : w.Inv x) (hq : InRange q g) :
    w.Resolves (word q x g) none ↔ word q x g ∉ w.live.map Prod.fst := by
  obtain ⟨d, hget, -⟩ := h.ok.objPointerGet_word hq
  rw [h.mem_live hq]
  constructor
  · rintro ⟨d', hget'⟩ ⟨o, hused⟩
    obtain ⟨obj, rfl⟩ := isSome_iff_exists.mp (h.used q o g hused)
    rw [target_of_used hused] at hget
    have hsame := some.inj (hget.symm.trans hget')
    exact absurd (congrArg Prod.snd hsame) (by simp)
  · intro hnot
    rw [target_of_ne fun o hused => hnot ⟨o, hused⟩] at hget
    exact ⟨d, hget⟩

/-- **The invariant gives the property**, but for the ids that were released. -/
theorem Inv.holds_iff (h : w.Inv x) : w.Holds x ↔ w.Stale := by
  constructor
  · intro hholds id c hmem hsoon
    obtain ⟨q, g, hq, rfl⟩ := h.released id c hmem
    exact (h.resolves_none hq).mp (hholds.stale _ c hmem hsoon)
  intro hstale
  refine ⟨?_, h.nodup, ?_, ?_, ?_⟩
  · intro id obj hlive
    obtain ⟨q, g, hused, rfl⟩ := (h.live id obj).mp hlive
    obtain ⟨d, hget, -⟩ := h.ok.objPointerGet_word (h.ok.inRange hused)
    rw [target_of_used hused] at hget
    exact ⟨d, hget⟩
  · intro id c hmem hsoon
    obtain ⟨q, g, hq, rfl⟩ := h.released id c hmem
    exact (h.resolves_none hq).mpr (hstale _ c hmem hsoon)
  · intro p t ht
    obtain ⟨-, -, hok⟩ := h.ok.tables p t ht
    obtain ⟨queue, hqueue⟩ := hok.queue
    have hfree := hqueue.free
    have hstart := hqueue.start_le
    refine ⟨fun hmax => ?_, queue, hqueue, by omega⟩
    obtain ⟨i, hi⟩ := h.ok.linked p t ht
    rw [hqueue.free_eq_max.mp hmax] at hi
    simp at hi
  · intro p
    constructor
    · intro hsome
      obtain ⟨t, ht⟩ := isSome_iff_exists.mp hsome
      obtain ⟨i, hi⟩ := h.ok.linked p t ht
      have hused : w.tables.used (p, i) = some ((t.entries i).ptr, (t.entries i).generation) := by
        rw [used_of_tableAt ht, Table.used_of_active hi]
      have hq := h.ok.inRange hused
      exact ⟨i, _, hq, (h.mem_live hq).mpr ⟨_, hused⟩⟩
    · rintro ⟨i, g, hq, hmem⟩
      obtain ⟨o, hused⟩ := (h.mem_live hq).mp hmem
      obtain ⟨t, ht, -⟩ := used_eq_some.mp hused
      rw [ht]
      rfl

theorem inv_new (shared : Bool) (random : Nat) : (new shared random : World κ).Inv x where
  ok := ok_new shared random
  live := by
    intro id obj
    constructor
    · intro h
      exact absurd h not_mem_nil
    · rintro ⟨q, g, hused, -⟩
      simp [new, TableData.new, used, tableAt] at hused
  used := fun q o g hused => absurd hused (by simp [new, TableData.new, used, tableAt])
  nodup := nodup_nil
  released := fun id c h => absurd h not_mem_nil

theorem stale_new (shared : Bool) (random : Nat) : (new shared random : World κ).Stale :=
  fun _ _ h => absurd h not_mem_nil

/-! ### What a call keeps -/

variable {d : TableData κ} {obj : Obj} {n : Nat}

theorem Inv.same (h : w.Inv x) (hok : TableData.Ok x d) (hused : d.used = w.tables.used) :
    ({ w with tables := d } : World κ).Inv x := by
  refine ⟨hok, ?_, ?_, h.nodup, h.released⟩
  · intro id obj
    rw [hused]
    exact h.live id obj
  · intro q o g hq
    rw [hused] at hq
    exact h.used q o g hq

theorem Inv.allocated (h : w.Inv x) (hnew : Allocated x w.tables d obj q) :
    (w.given d (word q x w.tables.nextGeneration) obj).Inv x := by
  unfold given
  have hself : d.used q = some (some obj, w.tables.nextGeneration) := by
    rw [hnew.used, update_self]
  have hother : ∀ q' ≠ q, d.used q' = w.tables.used q' := fun q' hne => by
    rw [hnew.used, update_of_ne hne]
  refine ⟨hnew.ok, ?_, ?_, ?_, ?_⟩
  · intro id obj'
    constructor
    · intro hmem
      rcases mem_cons.mp hmem with heq | hold
      · obtain ⟨rfl, rfl⟩ := Prod.mk.inj heq
        exact ⟨q, _, hself, rfl⟩
      · obtain ⟨q', g, hused, rfl⟩ := (h.live id obj').mp hold
        have hne : q' ≠ q := by
          rintro rfl
          rw [hnew.free] at hused
          simp at hused
        exact ⟨q', g, by rw [hother q' hne, hused], rfl⟩
    · rintro ⟨q', g, hused, rfl⟩
      by_cases hq : q' = q
      · rw [hq] at hused ⊢
        rw [hself] at hused
        obtain ⟨hobj, rfl⟩ := Prod.mk.inj (some.inj hused)
        rw [some.inj hobj]
        exact mem_cons_self
      · rw [hother q' hq] at hused
        exact mem_cons_of_mem _ ((h.live _ obj').mpr ⟨q', g, hused, rfl⟩)
  · intro q' o g hused
    by_cases hq : q' = q
    · rw [hq, hself] at hused
      obtain ⟨rfl, -⟩ := Prod.mk.inj (some.inj hused)
      rfl
    · rw [hother q' hq] at hused
      exact h.used q' o g hused
  · refine nodup_cons.mpr ⟨?_, h.nodup⟩
    rw [h.mem_live hnew.inRange]
    rintro ⟨o, hused⟩
    rw [hnew.free] at hused
    simp at hused
  · exact h.released

/-- The ids that were released lately stay stale unless one of them is given out. -/
theorem Stale.given_iff (h : w.Stale) {id : Id} :
    (w.given d id obj).Stale ↔
      ∀ id' c, (id', c) ∈ w.released → w.count < c + (maxGenerations - 2) → id' ≠ id := by
  constructor
  · intro hstale id' c hmem hsoon heq
    refine hstale id' c hmem hsoon ?_
    show id' ∈ id :: w.live.map Prod.fst
    rw [heq]
    exact mem_cons_self
  · intro hnew id' c hmem hsoon hlive
    have hlt : w.count < c + (maxGenerations - 2) := hsoon
    replace hlive : id' ∈ id :: w.live.map Prod.fst := hlive
    rcases mem_cons.mp hlive with heq | hold
    · exact hnew id' c hmem hlt heq
    · exact h id' c hmem (le_of_lt hlt) hold

theorem Inv.dropped (h : w.Inv x) {o : Option Obj} (hused : w.tables.used q = some (o, g))
    (hrel : Released x w.tables d q g) : (w.dropped d (word q x g)).Inv x := by
  unfold World.dropped
  have hq := h.ok.inRange hused
  have hself : d.used q = none := by rw [hrel.used, update_self]
  have hother : ∀ q' ≠ q, d.used q' = w.tables.used q' := fun q' hne => by
    rw [hrel.used, update_of_ne hne]
  have hsub : ∀ q' r, d.used q' = some r → q' ≠ q ∧ w.tables.used q' = some r := by
    intro q' r hr
    have hne : q' ≠ q := by
      rintro rfl
      rw [hself] at hr
      simp at hr
    exact ⟨hne, by rw [← hother q' hne, hr]⟩
  refine ⟨hrel.ok, ?_, ?_, ?_, ?_⟩
  · intro id obj
    rw [mem_filter]
    simp only [Bool.not_eq_true', decide_eq_false_iff_not]
    constructor
    · rintro ⟨hmem, hne⟩
      obtain ⟨q', g', hused', rfl⟩ := (h.live id obj).mp hmem
      have hqq : q' ≠ q := by
        rintro rfl
        rw [hused] at hused'
        obtain ⟨-, rfl⟩ := Prod.mk.inj (some.inj hused')
        exact hne rfl
      exact ⟨q', g', by rw [hother q' hqq, hused'], rfl⟩
    · rintro ⟨q', g', hused', rfl⟩
      obtain ⟨hqq, hold⟩ := hsub q' _ hused'
      refine ⟨(h.live _ obj).mpr ⟨q', g', hold, rfl⟩, fun heq => ?_⟩
      exact hqq (word_inj (h.ok.inRange hold) hq heq).1
  · intro q' o' g' hused'
    exact h.used q' o' g' (hsub q' _ hused').2
  · exact h.nodup.sublist ((filter_sublist).map _)
  · intro id c hmem
    rcases mem_append.mp hmem with hnew | hold
    · obtain ⟨⟨id', obj⟩, hlive, heq⟩ := mem_map.mp hnew
      obtain ⟨rfl, rfl⟩ := Prod.mk.inj heq
      exact ⟨q, g, hq, of_decide_eq_true (mem_filter.mp hlive).2⟩
    · exact h.released id c hold

/-- What is released is not live any more. -/
theorem Stale.dropped (h : w.Stale) (id : Id) : (w.dropped d id).Stale := by
  intro id' c hmem hsoon hlive
  obtain ⟨r, hr, heq⟩ := mem_map.mp hlive
  obtain ⟨hin, hne⟩ := mem_filter.mp hr
  rcases mem_append.mp hmem with hnew | hold
  · obtain ⟨s, hs, heq'⟩ := mem_map.mp hnew
    have hid : s.1 = id := of_decide_eq_true (mem_filter.mp hs).2
    have hid' : s.1 = id' := (Prod.mk.inj heq').1
    rw [heq, ← hid', hid] at hne
    simp at hne
  · exact h id' c hold hsoon (mem_map.mpr ⟨r, hin, heq⟩)

theorem Inv.filter_of_unused (h : w.Inv x) (hq : InRange q g)
    (hnone : ∀ o, w.tables.used q ≠ some (o, g)) :
    (w.live.filter fun r => !decide (r.1 = word q x g)) = w.live ∧
      (w.live.filter fun r => decide (r.1 = word q x g)) = [] := by
  have hall : ∀ r ∈ w.live, r.1 ≠ word q x g := by
    intro r hr heq
    obtain ⟨o, hused⟩ := (h.mem_live hq).mp (heq ▸ mem_map_of_mem hr)
    exact hnone o hused
  constructor
  · rw [filter_eq_self]
    intro r hr
    simp [hall r hr]
  · rw [filter_eq_nil_iff]
    intro r hr
    simp [hall r hr]

theorem Inv.word_of_issued (h : w.Inv x) {id : Id} (hid : w.Issued id) :
    ∃ q g, InRange q g ∧ id = word q x g := by
  rcases hid with hlive | hreleased
  · obtain ⟨⟨id, obj⟩, hmem, rfl⟩ := mem_map.mp hlive
    obtain ⟨q, g, hused, hword⟩ := (h.live id obj).mp hmem
    exact ⟨q, g, h.ok.inRange hused, hword⟩
  · obtain ⟨⟨id, c⟩, hmem, rfl⟩ := mem_map.mp hreleased
    exact h.released id c hmem

/-- **Every call keeps the invariant**, and released ids stale exactly if it is a fresh one. -/
theorem Inv.step (h : w.Inv x) (hstale : w.Stale) {op : Op} (hstep : w.step x op = some w') :
    w'.Inv x ∧ (w'.Stale ↔ Fresh x w op) := by
  cases op with
  | allocate obj =>
    unfold World.step at hstep
    dsimp only at hstep
    have htables := fun p t ht => (h.ok.tables p t ht).2.2
    rcases h.ok.allocate obj x with ⟨d, heq, hidle, hfull⟩ | ⟨d, q, heq, hnew, hnext⟩
    · rw [heq] at hstep
      rw [← some.inj hstep]
      exact ⟨h.same (hidle.ok h.ok) hidle.used,
        fun _ id c _ _ q hnext => absurd hfull (h.ok.not_full hnext), fun _ => hstale⟩
    · rw [heq] at hstep
      rw [if_neg (word_ne_zero hnew.inRange)] at hstep
      rw [← some.inj hstep]
      refine ⟨h.allocated hnew, hstale.given_iff.trans ?_⟩
      constructor
      · intro hall id c hmem hsoon q' hnext'
        rw [hnext'.unique htables hnext]
        exact hall id c hmem hsoon
      · intro hfresh id c hmem hsoon
        exact hfresh id c hmem hsoon q hnext
  | release id =>
    obtain ⟨hissued, hmap⟩ := ite_none_right_eq_some.mp hstep
    obtain ⟨d, hrelease, rfl⟩ := map_eq_some_iff.mp hmap
    obtain ⟨q, g, hq, rfl⟩ := h.word_of_issued hissued
    refine ⟨?_, fun _ => trivial, fun _ => hstale.dropped _⟩
    rcases h.ok.release hq with ⟨hsame, hnone⟩ | ⟨d', o, hsome, hused, hrel⟩
    · rw [hrelease] at hsame
      obtain rfl := some.inj hsame
      obtain ⟨hlive, hreleased⟩ := h.filter_of_unused hq hnone
      rw [World.dropped, hlive, hreleased]
      exact h
    · rw [hrelease] at hsome
      obtain rfl := some.inj hsome
      exact h.dropped hused hrel
  | objPointerGet id =>
    obtain ⟨⟨d, o⟩, hget, rfl⟩ := map_eq_some_iff.mp hstep
    have hlook := h.ok.lookedUp hget
    exact ⟨h.same hlook.ok hlook.used, fun _ => trivial, fun _ => hstale⟩

theorem fresh_of_step_eq_none {op : Op} (h : w.step x op = none) : Fresh x w op := by
  cases op with
  | allocate obj =>
    unfold World.step at h
    dsimp only at h
    split at h <;> simp at h
  | release id => trivial
  | objPointerGet id => trivial

/-- **Ids keep what they promise all along a run exactly if every allocation of it is a fresh one**:
live ids resolve to their objects and are distinct, a released id resolves to `NULL` until
`maxGenerations - 2` more allocations were made, the free entries of every table are counted, and a
table is linked in exactly while an id of it is live. -/
theorem ids_hold_iff (x : Nat) (shared : Bool) (random : Nat) (ops : List Op) :
    (∀ (before : List Op) (w : World κ), before <+: ops →
      before.foldlM (World.step x) (new shared random) = some w → w.Holds x) ↔
      Runs.Obeys (Fresh x) (World.step x) (new shared random : World κ) ops := by
  refine Runs.obeys_iff (I := fun w => w.Inv x) ?_ ?_ ops _ (inv_new shared random)
    ((inv_new shared random).holds_iff.mpr (stale_new shared random))
  · intro w op w' h hholds hstep
    obtain ⟨h', hiff⟩ := h.step (h.holds_iff.mp hholds) hstep
    exact ⟨h', h'.holds_iff.trans hiff⟩
  · intro w op _ hnone
    exact fresh_of_step_eq_none hnone

/-! ### An id that comes back at once -/

/-- The generation after `k` allocations, where the first one is `g` -/
def cycle (g k : Nat) : Nat := (g - 1 + k) % (maxGenerations - 1) + 1

theorem nextGeneration_cycle {k : Nat} (h : d.generation = cycle g k) :
    d.nextGeneration = cycle g (k + 1) := by
  have hmax : maxGenerations = 1024 := rfl
  unfold nextGeneration
  rw [h]
  unfold cycle
  rw [show maxGenerations - 1 = 1023 from rfl]
  split_ifs <;> omega

/-- The first `n` entries of the first table were put to use, one after another. -/
structure Filling (d : TableData κ) (n : Nat) : Prop where
  current : d.currentTable = some (0, 0)
  generation : d.generation = cycle 1 (n - 1)
  table : ∃ t, d.tableAt (0, 0) = some t ∧ t.start = n ∧ t.fifoHead = none ∧ t.fifoTail = none ∧
    t.partialId = composePartialId 0 0 ∧ t.freeEntries = maxEntryId - n ∧
      ∀ i < n, (t.entries i).active = true ∧ (t.entries i).generation = cycle 1 i

theorem filling_setEntry {t : Table} (obj : Obj) (hcurrent : d.currentTable = some (0, 0))
    (ht : d.tableAt (0, 0) = some t) (hstart : t.start = n + 1) (hhead : t.fifoHead = none)
    (htail : t.fifoTail = none) (hpart : t.partialId = composePartialId 0 0)
    (hfree : t.freeEntries = maxEntryId - (n + 1))
    (hentries : ∀ i < n, (t.entries i).active = true ∧ (t.entries i).generation = cycle 1 i) :
    Filling { d.setTable (0, 0) (some (t.setEntry n { t.entries n with
      ptr := some obj, active := true, generation := cycle 1 n })) with
        generation := cycle 1 n } (n + 1) := by
  refine ⟨hcurrent, rfl, _, tableAt_setTable_self (row_of_tableAt ht), hstart, hhead, htail, hpart,
    hfree, fun i hi => ?_⟩
  by_cases hin : i = n
  · rw [hin, Table.setEntry_entries_self]
    exact ⟨rfl, rfl⟩
  · rw [Table.setEntry_entries_of_ne hin]
    exact hentries i (by omega)

theorem filling_one (obj : Obj) : ∃ d, (TableData.new false 0 : TableData κ).allocate obj 0 =
    (d, word ((0, 0), 0) 0 (cycle 1 0)) ∧ Filling d 1 := by
  set d : TableData κ := (TableData.new false 0).withRow 0 with hd
  have htab : (d.openTable (0, 0)).tableAt (0, 0) = some (Table.zero.opened 0 0) := by
    rfl
  exact ⟨_, rfl, filling_setEntry obj rfl htab rfl rfl rfl rfl rfl
    (fun i hi => absurd hi (by simp))⟩

theorem Filling.allocate (h : Filling d (n + 1)) (obj : Obj) (hn : n + 1 < maxEntryId) :
    ∃ d', d.allocate obj 0 =
      (d', word ((0, 0), n + 1) 0 (cycle 1 (n + 1))) ∧ Filling d' (n + 2) := by
  obtain ⟨t, ht, hstart, hhead, htail, hpart, hfree, hentries⟩ := h.table
  set t' : Table := { t with start := n + 2, freeEntries := t.freeEntries - 1 }
  have hget : t.getAvailableEntry = some (n + 1, t') := by
    rw [Table.getAvailableEntry, if_pos (by omega), hstart]
  have htake : d.takeEntry = (d.setTable (0, 0) (some t'), some (0, 0, n + 1)) := by
    rw [takeEntry, h.current]
    dsimp only
    rw [ht, bind_some, hget]
  have htab : (d.setTable (0, 0) (some t')).tableAt (0, 0) = some t' :=
    tableAt_setTable_self (row_of_tableAt ht)
  have hcurrent : (d.setTable (0, 0) (some t')).currentTable = some (0, 0) := h.current
  have hnext : (d.setTable (0, 0) (some t')).nextGeneration = cycle 1 (n + 1) :=
    nextGeneration_cycle h.generation
  rw [allocate_some (q := ((0, 0), n + 1)) htake htab, hnext]
  refine ⟨_, ?_, filling_setEntry obj hcurrent htab rfl hhead htail hpart ?_ hentries⟩
  · rw [show t'.partialId = composePartialId 0 0 from hpart]
    rfl
  · show t.freeEntries - 1 = _
    omega

/-- The id of an entry of the first table. -/
def firstId (i : Nat) : Id := word ((0, 0), i) 0 (cycle 1 i)

variable {i : Nat}

theorem inRange_first (hi : i < maxEntryId) : InRange ((0, 0), i) (cycle 1 i) :=
  ⟨show 0 < maxMidTableId by decide, show 0 < maxTableId by decide, hi,
    Nat.succ_lt_of_lt_pred (Nat.mod_lt _ (by decide))⟩

theorem step_allocate {w : World κ} (hi : i < maxEntryId)
    (h : w.tables.allocate obj 0 = (d, firstId i)) :
    w.step 0 (.allocate obj) = some (w.given d (firstId i) obj) := by
  unfold World.step
  dsimp only
  rw [h]
  exact if_neg (word_ne_zero (inRange_first hi))

theorem fill : ∀ n < maxEntryId, ∃ w : World κ,
    (List.replicate (n + 1) (Op.allocate 7)).foldlM (World.step 0) (new false 0) = some w ∧
      Filling w.tables (n + 1) ∧ w.count = n + 1 ∧ ∀ i ≤ n, (firstId i, 7) ∈ w.live := by
  intro n
  induction n with
  | zero =>
    intro hn
    obtain ⟨d, heq, hfill⟩ := @filling_one κ 7
    have hstep := step_allocate (w := new false 0) hn heq
    refine ⟨(new false 0).given d (firstId 0) 7, ?_, hfill, rfl, fun i hi => ?_⟩
    · rw [replicate_one, foldlM_cons, hstep]
      rfl
    · obtain rfl := Nat.le_zero.mp hi
      exact mem_cons_self
  | succ n ih =>
    intro hn
    obtain ⟨w, hrun, hfill, hcount, hlive⟩ := ih (Nat.lt_of_succ_lt hn)
    obtain ⟨d, heq, hfill'⟩ := hfill.allocate 7 hn
    have hstep := step_allocate hn heq
    refine ⟨w.given d (firstId (n + 1)) 7, ?_, hfill', congrArg (· + 1) hcount, fun i hi => ?_⟩
    · rw [replicate_succ', foldlM_append, hrun]
      show ([Op.allocate 7].foldlM (World.step 0) w) = _
      rw [foldlM_cons, hstep]
      rfl
    · rcases eq_or_lt_of_le hi with rfl | hlt
      · exact mem_cons_self
      · exact mem_cons_of_mem _ (hlive i (Nat.le_of_lt_succ hlt))

theorem Filling.release (h : Filling d maxEntryId) (hi : i < maxEntryId) :
    ∃ d', d.release (firstId i) = some d' ∧
      ∃ d'' t, d'.takeEntry = (d'', some (0, 0, i)) ∧ d''.tableAt (0, 0) = some t ∧
        t.partialId = composePartialId 0 0 ∧ d''.generation = d.generation := by
  obtain ⟨t, ht, hstart, hhead, htail, hpart, hfree, hentries⟩ := h.table
  obtain ⟨hactive, hgen⟩ := hentries i hi
  have hq := inRange_first hi
  obtain ⟨⟨hmid, htable⟩, hentry, -⟩ := parts_word hq
  obtain ⟨r, hr, ⟨-, hnone⟩ | ⟨t', rfl, ht', -⟩⟩ := entryOf_word hq
  · refine absurd ?_ (hnone (t.entries i).ptr)
    rw [used_of_tableAt ht, Table.used_of_active hactive, hgen]
  rw [ht] at ht'
  obtain rfl := some.inj ht'
  have hback := Table.giveBack_none (i := i) htail
  have hdrop : d.dropEntry (0, 0) (t.giveBack i) = d.setTable (0, 0) (some (t.giveBack i)) := by
    rw [dropEntry, if_neg]
    rw [hback]
    show t.freeEntries + 1 ≠ maxEntryId
    rw [hfree]
    decide
  have hrelease := release_some hr
  rw [hmid, htable, hentry] at hrelease
  rw [hdrop] at hrelease
  have hget : (t.giveBack i).getAvailableEntry = some (i, { t.giveBack i with
      fifoHead := none, fifoTail := none, freeEntries := t.freeEntries }) := by
    rw [hback, Table.getAvailableEntry, if_neg (by rw [hstart]; simp)]
    dsimp only
    rw [update_self]
    rfl
  refine ⟨_, hrelease, ?_⟩
  set d' : TableData κ := { d.setTable (0, 0) (some (t.giveBack i)) with
    cache := d.cache.wipe (word ((0, 0), i) 0 (cycle 1 i)) }
  have htab : d'.tableAt (0, 0) = some (t.giveBack i) := tableAt_setTable_self (row_of_tableAt ht)
  refine ⟨d'.setTable (0, 0) (some { t.giveBack i with
    fifoHead := none, fifoTail := none, freeEntries := t.freeEntries }), _, ?_,
      tableAt_setTable_self (row_of_tableAt htab), ?_, rfl⟩
  · rw [takeEntry, show d'.currentTable = some (0, 0) from h.current]
    dsimp only
    rw [htab, bind_some, hget]
  · rw [hback]
    exact hpart

/-- An id that is released when its generation is the next one is given out again at once. -/
theorem comes_back : ∃ w : World Unit,
    (List.replicate 2045 (Op.allocate 7) ++ [Op.release (firstId 1022), Op.allocate 8]).foldlM
      (World.step 0) (new false 0) = some w ∧ ¬w.Holds 0 := by
  obtain ⟨w, hrun, hfill, hcount, hlive⟩ := @fill Unit 2044 (by decide)
  have hmem := hlive 1022 (by decide)
  obtain ⟨d, hrelease, d', t, htake, ht, hpart, hgen⟩ := hfill.release (i := 1022) (by decide)
  have hissued : w.Issued (firstId 1022) := .inl (mem_map_of_mem hmem)
  have hstep : w.step 0 (.release (firstId 1022)) = some (w.dropped d (firstId 1022)) := by
    unfold World.step
    dsimp only
    rw [if_pos hissued, hrelease]
    rfl
  have hallocate : (w.dropped d (firstId 1022)).tables.allocate 8 0 =
      ((d.allocate 8 0).1, firstId 1022) := by
    have hnext : d'.nextGeneration = cycle 1 2045 :=
      nextGeneration_cycle (hgen.trans hfill.generation)
    show d.allocate 8 0 = _
    rw [allocate_some (q := ((0, 0), 1022)) htake ht, hpart, hnext]
    rfl
  refine ⟨(w.dropped d (firstId 1022)).given (d.allocate 8 0).1 (firstId 1022) 8, ?_, ?_⟩
  · rw [foldlM_append, hrun]
    show [Op.release (firstId 1022), Op.allocate 8].foldlM (World.step 0) w = _
    rw [foldlM_cons, hstep, bind_eq_bind, bind_some, foldlM_cons,
      step_allocate (by decide) hallocate]
    rfl
  · intro hholds
    have hreleased : (firstId 1022, w.count) ∈
        ((w.dropped d (firstId 1022)).given (d.allocate 8 0).1 (firstId 1022) 8).released :=
      mem_append_left _ (mem_map.mpr ⟨_, mem_filter.mpr ⟨hmem, decide_eq_true rfl⟩, rfl⟩)
    obtain ⟨d1, hnull⟩ := hholds.stale _ _ hreleased (Nat.add_le_add_left (by decide) _)
    obtain ⟨d2, hobj⟩ := hholds.resolves (firstId 1022) 8 mem_cons_self
    have hsame := some.inj (hnull.symm.trans hobj)
    exact absurd (congrArg Prod.snd hsame) (by simp)

end World

end Eo.Ids
