/-
What an operation does to the tables of a domain.

An allocation puts a free place to use, or fails when no place is free; a release gives a place up.
The cache of lookups may be asked first because it is wiped when the id it holds is released, and
because a place that is put to use was free.
-/
import Efl.Eo.Ids.Inv

namespace Eo.Ids.TableData

open Option Function

variable {κ : Type} {d d' : TableData κ} {p : Nat × Nat} {q : Place} {t : Table} {x m : Nat}

/-- What a lookup may find. -/
def used (d : TableData κ) (q : Place) : Option (Option Obj × Nat) :=
  (d.tableAt q.1).bind fun t => t.used q.2

/-- What holds of the tables of the domain `x`. -/
structure Ok (x : Nat) (d : TableData κ) : Prop where
  tables : ∀ p t, d.tableAt p = some t → p.1 < maxMidTableId ∧ p.2 < maxTableId ∧ t.Ok p
  /-- A table none of whose entries is in use is linked out. -/
  linked : ∀ p t, d.tableAt p = some t → ∃ i, (t.entries i).active = true
  current : ∀ p, d.currentTable = some p → ∃ t, d.tableAt p = some t
  spare : ∀ t, d.emptyTable = some t → ∀ i, (t.entries i).active = false
  generation : d.generation < maxGenerations
  object : d.cache.id = 0 → d.cache.object = none
  cached : ∀ q g, InRange q g → d.cache.id = word q x g → d.used q = some (d.cache.object, g)

theorem ok_new (shared : Bool) (random : Nat) : Ok x (new shared random : TableData κ) where
  tables := fun _ _ h => absurd h (by simp [new, tableAt])
  linked := fun _ _ h => absurd h (by simp [new, tableAt])
  current := fun _ h => absurd h (by simp [new])
  spare := fun _ h => absurd h (by simp [new])
  generation := Nat.mod_lt _ (by decide)
  object := fun _ => rfl
  cached := fun _ _ hq h => absurd h.symm (word_ne_zero hq)

theorem used_of_tableAt (h : d.tableAt q.1 = some t) : d.used q = t.used q.2 := by
  rw [used, h]
  rfl

variable {o : Option Obj} {g : Nat} {p' : Nat × Nat} {domain : Nat} {t' : Table} {obj : Obj}
  {id : Id}

theorem used_eq_some : d.used q = some (o, g) ↔
    ∃ t, d.tableAt q.1 = some t ∧ t.used q.2 = some (o, g) := bind_eq_some_iff

theorem Ok.inRange (h : Ok x d) (hq : d.used q = some (o, g)) :
    InRange q g := by
  obtain ⟨t, ht, hu⟩ := used_eq_some.mp hq
  obtain ⟨hactive, -, hgen⟩ := Table.used_eq_some.mp hu
  obtain ⟨hmid, htable, hok⟩ := h.tables _ t ht
  exact ⟨hmid, htable, hok.lt_of_active hactive, hgen ▸ hok.generation _ hactive⟩

/-! ### Rows -/

@[simp] theorem tableAt_withRow : (d.withRow m).tableAt p = d.tableAt p := by
  unfold withRow
  cases hrow : d.eoIdsTables m with
  | some row => rfl
  | none =>
    unfold tableAt
    dsimp only
    by_cases hp : p.1 = m
    · rw [hp, update_self, hrow]
      rfl
    · rw [update_of_ne hp]

theorem row_withRow : ((d.withRow m).eoIdsTables m).isSome := by
  unfold withRow
  cases hrow : d.eoIdsTables m with
  | some row =>
    rw [hrow]
    rfl
  | none =>
    dsimp only
    rw [update_self]
    rfl

theorem row_of_tableAt (h : d.tableAt p = some t) : (d.eoIdsTables p.1).isSome := by
  obtain ⟨row, hrow, -⟩ := bind_eq_some_iff.mp h
  rw [hrow]
  rfl

theorem withRow_rest : (d.withRow m).cache = d.cache ∧ (d.withRow m).emptyTable = d.emptyTable ∧
    (d.withRow m).generation = d.generation ∧ (d.withRow m).shared = d.shared := by
  unfold withRow
  split <;> exact ⟨rfl, rfl, rfl, rfl⟩

theorem tableAt_setTable_self {o : Option Table} (h : (d.eoIdsTables p.1).isSome) :
    (d.setTable p o).tableAt p = o := by
  obtain ⟨row, hrow⟩ := isSome_iff_exists.mp h
  rw [tableAt, setTable]
  dsimp only
  rw [if_pos rfl, hrow]
  exact update_self ..

theorem tableAt_setTable_of_ne {o : Option Table} (h : p' ≠ p) :
    (d.setTable p o).tableAt p' = d.tableAt p' := by
  rw [tableAt, tableAt, setTable]
  dsimp only
  by_cases hmid : p'.1 = p.1
  · rw [if_pos hmid]
    have hne : p'.2 ≠ p.2 := fun heq => h (Prod.ext hmid heq)
    cases d.eoIdsTables p'.1 with
    | none => rfl
    | some row => exact update_of_ne hne _ _
  · rw [if_neg hmid]

/-! ### Finding an entry -/

/-- The free place `q` of `d` can be put to use in `d'`. -/
structure Taken (d d' : TableData κ) (q : Place) : Prop where
  mid : q.1.1 < maxMidTableId
  table : q.1.2 < maxTableId
  free : d.used q = none
  takes : ∃ t t' : Table, d'.tableAt q.1 = some t' ∧ t.Takes q.1 q.2 t' ∧
    ∀ j, t.used j = d.used (q.1, j)
  other : ∀ p ≠ q.1, d'.tableAt p = d.tableAt p
  current : d'.currentTable = some q.1
  spare : d'.emptyTable = d.emptyTable ∨ d'.emptyTable = none
  cache : d'.cache = d.cache
  generation : d'.generation = d.generation
  shared : d'.shared = d.shared

theorem taken_available {i : Nat} (ht : d.tableAt p = some t)
    (hp : p.1 < maxMidTableId ∧ p.2 < maxTableId) (hok : t.Ok p)
    (hget : t.getAvailableEntry = some (i, t')) :
    Taken d { d.setTable p (some t') with currentTable := some p } (p, i) := by
  have htakes := hok.getAvailableEntry_some hget
  have hused : ∀ j, t.used j = d.used (p, j) := fun j => (used_of_tableAt (q := (p, j)) ht).symm
  refine ⟨hp.1, hp.2, ?_, ⟨t, t', ?_, htakes, hused⟩, ?_, rfl, .inl rfl, rfl, rfl, rfl⟩
  · rw [← hused, Table.used_eq_none, ← htakes.entries]
    exact htakes.inactive
  · exact tableAt_setTable_self (row_of_tableAt ht)
  · intro p' hne
    exact tableAt_setTable_of_ne hne

theorem tableAt_openTable (h : (d.eoIdsTables p.1).isSome) :
    (d.openTable p).tableAt p = some ((d.emptyTable.getD Table.zero).opened p.1 p.2) :=
  tableAt_setTable_self h

theorem taken_openTable (hrow : (d.eoIdsTables p.1).isSome) (ht : d.tableAt p = none)
    (hp : p.1 < maxMidTableId ∧ p.2 < maxTableId)
    (hspare : ∀ t, d.emptyTable = some t → ∀ i, (t.entries i).active = false) :
    Taken d (d.openTable p) (p, 0) := by
  have hoff : ∀ i, ((d.emptyTable.getD Table.zero).entries i).active = false := by
    intro i
    cases hs : d.emptyTable with
    | none => rfl
    | some t => exact hspare t hs i
  have hnone : ∀ j, d.used (p, j) = none := by
    intro j
    rw [used, ht]
    rfl
  refine ⟨hp.1, hp.2, hnone 0, ⟨_, _, tableAt_openTable hrow, Table.takes_opened hoff, ?_⟩, ?_, rfl,
    .inr rfl, rfl, rfl, rfl⟩
  · intro j
    rw [hnone, Table.used_eq_none, hoff]
  · intro p' hne
    exact tableAt_setTable_of_ne hne

theorem Taken.withRow (h : Taken (d.withRow m) d' q) : Taken d d' q := by
  obtain ⟨hcache, hempty, hgen, hshared⟩ := withRow_rest (d := d)
  have hused : ∀ q, (d.withRow m).used q = d.used q := fun q => by rw [used, tableAt_withRow, used]
  refine ⟨h.mid, h.table, (hused q) ▸ h.free, ?_, ?_, h.current, hempty ▸ h.spare,
    h.cache.trans hcache, h.generation.trans hgen, h.shared.trans hshared⟩
  · obtain ⟨t, t', h1, h2, h3⟩ := h.takes
    exact ⟨t, t', h1, h2, fun j => (h3 j).trans (hused _)⟩
  · intro p hp
    rw [h.other p hp, tableAt_withRow]

/-- Nothing but rows changes, and there is no current table. -/
structure Idle (d d' : TableData κ) : Prop where
  tableAt : ∀ p, d'.tableAt p = d.tableAt p
  current : d'.currentTable = none
  spare : d'.emptyTable = d.emptyTable
  cache : d'.cache = d.cache
  generation : d'.generation = d.generation
  shared : d'.shared = d.shared

/-- All entries of the place are in use. -/
def FullAt (d : TableData κ) (p : Nat × Nat) : Prop :=
  ∀ i < maxEntryId, (d.used (p, i)).isSome

/-- No entry of the domain is free. -/
def Full (d : TableData κ) : Prop :=
  ∀ p : Nat × Nat, p.1 < maxMidTableId → p.2 < maxTableId → d.FullAt p

/-- The table with the number `n`, in the order tables are searched in -/
def tableNumber (n : Nat) : Nat × Nat := (n / maxTableId, n % maxTableId)

/-- `q` is what the first table has to offer that is not full, of those from some number on; a table
that is not there is linked in for its first entry. -/
structure ComesTo (d : TableData κ) (number : Nat) (q : Place) : Prop where
  mid : q.1.1 < maxMidTableId
  table : q.1.2 < maxTableId
  from_number : number ≤ q.1.1 * maxTableId + q.1.2
  earlier : ∀ n, number ≤ n → n < q.1.1 * maxTableId + q.1.2 → d.FullAt (tableNumber n)
  offers : (d.tableAt q.1).elim (q.2 = 0) fun t => t.Offers q.2

/-- **The place that is free next**: an entry the current table has to offer, or else what the
search comes to. -/
def NextPlace (d : TableData κ) (q : Place) : Prop :=
  (d.currentTable = some q.1 ∧ ∃ t, d.tableAt q.1 = some t ∧ t.Offers q.2) ∨
    (∀ p, d.currentTable = some p → d.FullAt p) ∧ d.ComesTo 0 q

theorem tableNumber_eq {p : Nat × Nat} (h : p.2 < maxTableId) :
    tableNumber (p.1 * maxTableId + p.2) = p := by
  have hpos : 0 < maxTableId := by decide
  refine Prod.ext ?_ ?_
  · rw [tableNumber, mul_comm, Nat.mul_add_div hpos, Nat.div_eq_of_lt h, add_zero]
  · rw [tableNumber, mul_comm, Nat.mul_add_mod, Nat.mod_eq_of_lt h]

theorem number_tableNumber (n : Nat) :
    (tableNumber n).1 * maxTableId + (tableNumber n).2 = n := Nat.div_add_mod' n maxTableId

theorem ComesTo.withRow {number : Nat} (h : (d.withRow m).ComesTo number q) :
    d.ComesTo number q := by
  refine ⟨h.mid, h.table, h.from_number, ?_, ?_⟩
  · intro n hle hlt i hi
    have hused := h.earlier n hle hlt i hi
    rwa [used, tableAt_withRow] at hused
  · have hoffers := h.offers
    rwa [tableAt_withRow] at hoffers

/-- What is offered is free. -/
theorem not_fullAt (htables : ∀ p t, d.tableAt p = some t → t.Ok p)
    (h : (d.tableAt q.1).elim (q.2 = 0) fun t => t.Offers q.2) : ¬d.FullAt q.1 := by
  intro hfull
  cases ht : d.tableAt q.1 with
  | none =>
    have hused := hfull 0 (by decide)
    rw [used, ht] at hused
    simp at hused
  | some t =>
    rw [ht] at h
    obtain ⟨t', hget⟩ := Table.offers_iff.mp h
    have htakes := (htables _ t ht).getAvailableEntry_some hget
    have hused := hfull q.2 htakes.lt
    have hinactive := htakes.inactive
    rw [htakes.entries] at hinactive
    rw [used_of_tableAt (q := q) ht, Table.used_eq_none.mpr hinactive] at hused
    simp at hused

/-- No two places are next. -/
theorem NextPlace.unique {q' : Place} (htables : ∀ p t, d.tableAt p = some t → t.Ok p)
    (h : d.NextPlace q) (h' : d.NextPlace q') : q = q' := by
  have hsame : ∀ {q q' : Place}, q.1 = q'.1 →
      (d.tableAt q.1).elim (q.2 = 0) (fun t => t.Offers q.2) →
      (d.tableAt q'.1).elim (q'.2 = 0) (fun t => t.Offers q'.2) → q = q' := by
    intro q q' hp hq hq'
    refine Prod.ext hp ?_
    rw [← hp] at hq'
    cases ht : d.tableAt q.1 with
    | none =>
      rw [ht] at hq hq'
      exact hq.trans hq'.symm
    | some t =>
      rw [ht] at hq hq'
      exact Table.Offers.unique hq hq'
  have hnot : ∀ {q q' : Place}, d.ComesTo 0 q → d.ComesTo 0 q' →
      ¬q.1.1 * maxTableId + q.1.2 < q'.1.1 * maxTableId + q'.1.2 := by
    intro q q' hq hq' hlt
    have hfull := hq'.earlier _ (Nat.zero_le _) hlt
    rw [tableNumber_eq hq.table] at hfull
    exact not_fullAt htables hq.offers hfull
  have helim : ∀ {q : Place}, (∃ t, d.tableAt q.1 = some t ∧ t.Offers q.2) →
      (d.tableAt q.1).elim (q.2 = 0) fun t => t.Offers q.2 := by
    rintro q ⟨t, ht, hoffers⟩
    rw [ht]
    exact hoffers
  rcases h with ⟨hcur, hq⟩ | ⟨hfull, hq⟩
  · rcases h' with ⟨hcur', hq'⟩ | ⟨hfull', -⟩
    · exact hsame (some.inj (hcur.symm.trans hcur')) (helim hq) (helim hq')
    · exact absurd (hfull' q.1 hcur) (not_fullAt htables (helim hq))
  · rcases h' with ⟨hcur', hq'⟩ | ⟨-, hq'⟩
    · exact absurd (hfull q'.1 hcur') (not_fullAt htables (helim hq'))
    · have heq : q.1 = q'.1 := by
        rw [← tableNumber_eq hq.table, ← tableNumber_eq hq'.table,
          le_antisymm (not_lt.mp (hnot hq' hq)) (not_lt.mp (hnot hq hq'))]
      exact hsame heq hq.offers hq'.offers

theorem Ok.not_full (h : Ok x d) (hq : d.NextPlace q) : ¬d.Full := by
  have htables := fun p t ht => (h.tables p t ht).2.2
  intro hfull
  rcases hq with ⟨-, t, ht, hoffers⟩ | ⟨-, hq⟩
  · obtain ⟨hmid, htable, -⟩ := h.tables q.1 t ht
    refine not_fullAt htables ?_ (hfull q.1 hmid htable)
    rw [ht]
    exact hoffers
  · exact not_fullAt htables hq.offers (hfull q.1 hq.mid hq.table)

theorem fullAt_of_none (ht : d.tableAt p = some t) (hok : t.Ok p)
    (h : t.getAvailableEntry = none) : d.FullAt p := by
  intro i hi
  have hactive := hok.getAvailableEntry_none.mp h i hi
  rw [used_of_tableAt ht, Table.used_of_active hactive]
  rfl

/-- The search goes by full tables only, and takes an entry of the first one that is not. -/
theorem searchTables_spec : ∀ (left number : Nat) {d : TableData κ},
    (∀ p t, d.tableAt p = some t → t.Ok p) →
    (∀ t, d.emptyTable = some t → ∀ i, (t.entries i).active = false) →
    number + left = maxMidTableId * maxTableId →
      (∃ d', d.searchTables left number = (d', none) ∧ Idle d d' ∧
        ∀ n, number ≤ n → n < maxMidTableId * maxTableId → d.FullAt (tableNumber n)) ∨
      ∃ d' q, d.searchTables left number = (d', some (q.1.1, q.1.2, q.2)) ∧ Taken d d' q ∧
        d.ComesTo number q := by
  have hpos : 0 < maxTableId := by decide
  intro left
  induction left with
  | zero =>
    intro number d _ _ hsum
    left
    refine ⟨_, rfl, ⟨fun _ => rfl, rfl, rfl, rfl, rfl, rfl⟩, ?_⟩
    omega
  | succ left ih =>
    intro number d htables hspare hsum
    unfold searchTables
    dsimp only
    obtain ⟨hcache, hempty, hgen, hshared⟩ := withRow_rest
    have hp : number / maxTableId < maxMidTableId ∧ number % maxTableId < maxTableId := by
      refine ⟨?_, Nat.mod_lt _ hpos⟩
      rw [Nat.div_lt_iff_lt_mul hpos]
      omega
    have hfirst : ∀ i, ((d.tableAt (tableNumber number)).elim (i = 0) fun t => t.Offers i) →
        d.ComesTo number (tableNumber number, i) := by
      intro i hoffers
      refine ⟨hp.1, hp.2, (number_tableNumber number).ge, ?_, hoffers⟩
      intro n hle hlt
      rw [number_tableNumber] at hlt
      exact absurd hle (not_le.mpr hlt)
    cases ht : (d.withRow (number / maxTableId)).tableAt
        (number / maxTableId, number % maxTableId) with
    | none =>
      right
      have hoff : ∀ t, (d.withRow (number / maxTableId)).emptyTable = some t →
          ∀ i, (t.entries i).active = false := fun t h => hspare t (hempty ▸ h)
      have hrow : ((d.withRow (number / maxTableId)).eoIdsTables
          (number / maxTableId)).isSome := row_withRow
      have htaken := taken_openTable hrow ht hp hoff
      rw [tableAt_withRow] at ht
      exact ⟨_, ((number / maxTableId, number % maxTableId), 0), rfl, htaken.withRow,
        hfirst 0 (by rw [tableNumber, ht]; rfl)⟩
    | some t =>
      have ht' : d.tableAt (number / maxTableId, number % maxTableId) = some t := by
        rw [← ht, tableAt_withRow]
      have hok := htables _ t ht'
      dsimp only
      cases hget : t.getAvailableEntry with
      | some r =>
        right
        obtain ⟨i, t'⟩ := r
        exact ⟨_, ((number / maxTableId, number % maxTableId), i), rfl,
          (taken_available ht hp hok hget).withRow,
          hfirst i (by rw [tableNumber, ht']; exact Table.offers_iff.mpr ⟨t', hget⟩)⟩
      | none =>
        have hfull := fullAt_of_none ht' hok hget
        have hrec := ih (number + 1)
          (fun p t h => htables p t (by rwa [tableAt_withRow] at h))
          (fun t h => hspare t (hempty ▸ h)) (by omega)
        rcases hrec with ⟨d', heq, hidle, hall⟩ | ⟨d', q, heq, htaken, hcomes⟩
        · left
          refine ⟨d', heq, ⟨?_, hidle.current, hidle.spare.trans hempty,
            hidle.cache.trans hcache, hidle.generation.trans hgen,
            hidle.shared.trans hshared⟩, ?_⟩
          · intro p
            rw [hidle.tableAt, tableAt_withRow]
          · intro n hle hlt
            rcases eq_or_lt_of_le hle with rfl | hlt'
            · exact hfull
            have hn := hall n hlt' hlt
            intro i hi
            have hused := hn i hi
            rwa [used, tableAt_withRow] at hused
        · right
          have hrest := hcomes.withRow
          refine ⟨d', q, heq, htaken.withRow, hrest.mid, hrest.table,
            Nat.le_of_succ_le hrest.from_number, ?_, hrest.offers⟩
          intro n hle hlt
          rcases eq_or_lt_of_le hle with rfl | hlt'
          · exact hfull
          · exact hrest.earlier n hlt' hlt

/-- **The next place is taken, and there is one unless the domain is full.** -/
theorem Ok.takeEntry (h : Ok x d) :
    (∃ d', d.takeEntry = (d', none) ∧ Idle d d' ∧ d.Full) ∨
      ∃ d' q, d.takeEntry = (d', some (q.1.1, q.1.2, q.2)) ∧ Taken d d' q ∧ d.NextPlace q := by
  have hsearch := searchTables_spec (maxMidTableId * maxTableId) 0
    (fun p t ht => (h.tables p t ht).2.2) h.spare (zero_add _)
  have hresult : (∀ p, d.currentTable = some p → d.FullAt p) →
      (∃ d', d.searchTables (maxMidTableId * maxTableId) 0 = (d', none) ∧ Idle d d' ∧ d.Full) ∨
      ∃ d' q, d.searchTables (maxMidTableId * maxTableId) 0 =
        (d', some (q.1.1, q.1.2, q.2)) ∧ Taken d d' q ∧ d.NextPlace q := by
    intro hcurrent
    rcases hsearch with ⟨d', heq, hidle, hall⟩ | ⟨d', q, heq, htaken, hcomes⟩
    · left
      refine ⟨d', heq, hidle, fun p hmid htable => ?_⟩
      have hn := hall (p.1 * maxTableId + p.2) (Nat.zero_le _) (by
        have hle := Nat.mul_le_mul_right maxTableId (Nat.succ_le_of_lt hmid)
        rw [Nat.succ_mul] at hle
        omega)
      rwa [tableNumber_eq htable] at hn
    · exact .inr ⟨d', q, heq, htaken, .inr ⟨hcurrent, hcomes⟩⟩
  unfold TableData.takeEntry
  cases hcur : d.currentTable with
  | none => exact hresult fun p hp => absurd (hcur.symm.trans hp) (by simp)
  | some p =>
    obtain ⟨t, ht⟩ := h.current p hcur
    obtain ⟨hmid, htable, hok⟩ := h.tables p t ht
    dsimp only
    rw [ht, bind_some]
    cases hget : t.getAvailableEntry with
    | none =>
      refine hresult fun p' hp' => ?_
      obtain rfl := some.inj (hcur.symm.trans hp')
      exact fullAt_of_none ht hok hget
    | some r =>
      right
      obtain ⟨i, t'⟩ := r
      have htaken := taken_available ht ⟨hmid, htable⟩ hok hget
      refine ⟨_, (p, i), rfl, ?_, .inl ⟨hcur, t, ht, Table.offers_iff.mpr ⟨t', hget⟩⟩⟩
      rw [show d.setTable p (some t') =
        { d.setTable p (some t') with currentTable := some p } by rw [← hcur]; rfl]
      exact htaken

/-! ### Allocating -/

theorem nextGeneration_lt (h : d.generation < maxGenerations) :
    0 < d.nextGeneration ∧ d.nextGeneration < maxGenerations := by
  have hmax : maxGenerations = 1024 := rfl
  unfold nextGeneration
  split_ifs <;> omega

theorem allocate_none (h : d.takeEntry = (d', none)) :
    d.allocate obj domain = (d', 0) := by
  unfold allocate
  rw [h]

theorem allocate_some (h : d.takeEntry = (d', some (q.1.1, q.1.2, q.2)))
    (ht : d'.tableAt q.1 = some t) : d.allocate obj domain =
      ({ d'.setTable q.1 (some (t.setEntry q.2 { t.entries q.2 with
          ptr := some obj, active := true, generation := d'.nextGeneration })) with
        generation := d'.nextGeneration },
        composeFinalId t.partialId q.2 domain d'.nextGeneration) := by
  unfold allocate
  rw [h]
  dsimp only
  rw [ht]
  rfl

/-- What an allocation does: a free place is put to use, and the id is composed of the place and
the next generation. -/
structure Allocated (x : Nat) (d d' : TableData κ) (obj : Obj) (q : Place) : Prop where
  ok : Ok x d'
  inRange : InRange q d.nextGeneration
  free : d.used q = none
  used : d'.used = update d.used q (some (some obj, d.nextGeneration))
  cache : d'.cache = d.cache
  generation : d'.generation = d.nextGeneration
  shared : d'.shared = d.shared

theorem Idle.ok (h : Idle d d') (hok : Ok x d) : Ok x d' where
  tables := fun p t ht => hok.tables p t (h.tableAt p ▸ ht)
  linked := fun p t ht => hok.linked p t (h.tableAt p ▸ ht)
  current := fun p hp => absurd hp (by rw [h.current]; simp)
  spare := fun t ht => hok.spare t (h.spare ▸ ht)
  generation := h.generation ▸ hok.generation
  object := h.cache ▸ hok.object
  cached := fun q g hq hid => by
    rw [h.cache] at hid ⊢
    rw [TableData.used, h.tableAt]
    exact hok.cached q g hq hid

theorem Idle.used (h : Idle d d') : d'.used = d.used := by
  funext q
  rw [TableData.used, h.tableAt, TableData.used]

/-- Filling the entry that was taken allocates its id. -/
theorem Taken.allocated (h : Taken d d' q) (hok : Ok x d) (obj : Obj)
    (ht' : d'.tableAt q.1 = some t') :
    t'.partialId = composePartialId q.1.1 q.1.2 ∧
      Allocated x d { d'.setTable q.1 (some (t'.setEntry q.2 { t'.entries q.2 with
          ptr := some obj, active := true, generation := d'.nextGeneration })) with
        generation := d'.nextGeneration } obj q := by
  have hnext : d'.nextGeneration = d.nextGeneration := by
    rw [nextGeneration, nextGeneration, h.generation, h.shared]
  obtain ⟨-, hlt⟩ := nextGeneration_lt hok.generation
  obtain ⟨t, t'', htab, htakes, hused⟩ := h.takes
  rw [ht'] at htab
  obtain rfl := some.inj htab
  rw [hnext]
  set e : Entry := { t'.entries q.2 with
    ptr := some obj, active := true, generation := d.nextGeneration } with he
  have hnew := htakes.ok e rfl hlt
  have hself : ({ d'.setTable q.1 (some (t'.setEntry q.2 e)) with
      generation := d.nextGeneration } : TableData κ).tableAt q.1 = some (t'.setEntry q.2 e) :=
    tableAt_setTable_self (row_of_tableAt ht')
  have hother : ∀ p ≠ q.1, ({ d'.setTable q.1 (some (t'.setEntry q.2 e)) with
      generation := d.nextGeneration } : TableData κ).tableAt p = d.tableAt p := by
    intro p hp
    rw [← h.other p hp]
    exact tableAt_setTable_of_ne hp
  have hall : ({ d'.setTable q.1 (some (t'.setEntry q.2 e)) with
      generation := d.nextGeneration } : TableData κ).used =
        update d.used q (some (some obj, d.nextGeneration)) := by
    funext q'
    by_cases hp : q'.1 = q.1
    · rw [TableData.used, hp, hself, bind_some, Table.used_setEntry rfl]
      have hrest : t'.used = t.used := by
        funext j
        rw [Table.used, Table.used, htakes.entries]
      by_cases hi : q'.2 = q.2
      · rw [hi, update_self, show q' = q from Prod.ext hp hi, update_self]
      · have hne : q' ≠ q := fun heq => hi (congrArg Prod.snd heq)
        rw [update_of_ne hi, update_of_ne hne, hrest, hused, ← hp]
    · have hne : q' ≠ q := fun heq => hp (congrArg Prod.fst heq)
      rw [update_of_ne hne, TableData.used, hother _ hp, TableData.used]
  refine ⟨hnew.partialId, ?_, ⟨h.mid, h.table, htakes.lt, hlt⟩, h.free, hall, h.cache, rfl,
    h.shared⟩
  refine ⟨?_, ?_, ?_, ?_, hlt, ?_, ?_⟩
  · intro p u hu
    by_cases hp : p = q.1
    · rw [hp, hself] at hu
      rw [hp, ← some.inj hu]
      exact ⟨h.mid, h.table, hnew⟩
    · rw [hother p hp] at hu
      exact hok.tables p u hu
  · intro p u hu
    by_cases hp : p = q.1
    · rw [hp, hself] at hu
      rw [← some.inj hu]
      exact ⟨q.2, by rw [Table.setEntry_entries_self]⟩
    · rw [hother p hp] at hu
      exact hok.linked p u hu
  · intro p hp
    replace hp : d'.currentTable = some p := hp
    rw [h.current] at hp
    rw [← some.inj hp]
    exact ⟨_, hself⟩
  · intro u hu
    replace hu : d'.emptyTable = some u := hu
    rcases h.spare with heq | heq
    · exact hok.spare u (heq ▸ hu)
    · rw [heq] at hu
      simp at hu
  · intro hid
    replace hid : d'.cache.id = 0 := hid
    show d'.cache.object = none
    rw [h.cache] at hid ⊢
    exact hok.object hid
  · intro q' g hq' hid
    replace hid : d'.cache.id = word q' x g := hid
    show _ = some (d'.cache.object, g)
    rw [h.cache] at hid ⊢
    have hold := hok.cached q' g hq' hid
    have hne : q' ≠ q := by
      rintro rfl
      rw [h.free] at hold
      simp at hold
    rw [hall, update_of_ne hne, hold]

/-- **An allocation puts the next place to use, unless no place is free.** -/
theorem Ok.allocate (h : Ok x d) (obj : Obj) (domain : Nat) :
    (∃ d', d.allocate obj domain = (d', 0) ∧ Idle d d' ∧ d.Full) ∨
      ∃ d' q, d.allocate obj domain = (d', word q domain d.nextGeneration) ∧
        Allocated x d d' obj q ∧ d.NextPlace q := by
  rcases h.takeEntry with ⟨d', hnone, hidle, hfull⟩ | ⟨d', q, hsome, htaken, hnext⟩
  · exact .inl ⟨d', allocate_none hnone, hidle, hfull⟩
  right
  obtain ⟨-, t', ht', -⟩ := htaken.takes
  obtain ⟨hpart, hallocated⟩ := htaken.allocated h obj ht'
  refine ⟨_, q, ?_, hallocated, hnext⟩
  have hgeneration : d'.nextGeneration = d.nextGeneration := by
    rw [nextGeneration, nextGeneration, htaken.generation, htaken.shared]
  rw [allocate_some hsome ht', hpart, hgeneration]
  rfl

/-! ### Looking up -/

/-- The entry of an id, and whether the id is in use. -/
theorem entryOf_word (hq : InRange q g) : ∃ r,
    d.entryOf (word q x g) = some r ∧
      (r = none ∧ (∀ o, d.used q ≠ some (o, g)) ∨
        ∃ t, r = some (t, t.entries q.2) ∧ d.tableAt q.1 = some t ∧
          d.used q = some ((t.entries q.2).ptr, g)) := by
  obtain ⟨⟨hmid, htable⟩, hentry, hgen, -⟩ := parts_word hq
  have hlt := hq.table
  have hlt' := hq.entry
  unfold entryOf
  rw [hmid, htable, hentry, hgen]
  cases hrow : d.eoIdsTables q.1.1 with
  | none =>
    refine ⟨none, rfl, .inl ⟨rfl, fun o hused => ?_⟩⟩
    obtain ⟨t, ht, -⟩ := used_eq_some.mp hused
    rw [tableAt, hrow] at ht
    simp at ht
  | some row =>
    have htab : d.tableAt q.1 = row q.1.2 := by rw [tableAt, hrow, bind_some]
    dsimp only
    rw [if_neg (by omega)]
    cases ht : row q.1.2 with
    | none =>
      refine ⟨none, rfl, .inl ⟨rfl, fun o hused => ?_⟩⟩
      obtain ⟨t, ht', -⟩ := used_eq_some.mp hused
      rw [htab, ht] at ht'
      simp at ht'
    | some t =>
      have husedt := used_of_tableAt (htab.trans ht)
      dsimp only
      rw [if_neg (by omega)]
      by_cases hactive : (t.entries q.2).active = true ∧ (t.entries q.2).generation = g
      · rw [if_pos hactive]
        refine ⟨_, rfl, .inr ⟨t, rfl, htab.trans ht, ?_⟩⟩
        rw [husedt, Table.used_of_active hactive.1, hactive.2]
      · rw [if_neg hactive]
        refine ⟨none, rfl, .inl ⟨rfl, fun o hused => hactive ?_⟩⟩
        rw [husedt] at hused
        obtain ⟨ha, -, hg⟩ := Table.used_eq_some.mp hused
        exact ⟨ha, hg⟩

/-- What an id resolves to. -/
def target (d : TableData κ) (q : Place) (g : Nat) : Option Obj :=
  match d.used q with
  | some (o, g') => if g' = g then o else none
  | none => none

theorem target_of_used (h : d.used q = some (o, g)) :
    d.target q g = o := by
  rw [target, h]
  exact if_pos rfl

theorem target_of_ne (h : ∀ o, d.used q ≠ some (o, g)) : d.target q g = none := by
  unfold target
  split
  · rename_i o g' heq
    rw [if_neg]
    rintro rfl
    exact h o heq
  · rfl

/-- Nothing but the cache of lookups changes. -/
structure LookedUp (x : Nat) (d d' : TableData κ) : Prop where
  ok : Ok x d'
  used : d'.used = d.used
  generation : d'.generation = d.generation
  shared : d'.shared = d.shared
  isa : d'.cache.isaId = d.cache.isaId ∧ d'.cache.klass = d.cache.klass ∧
    d'.cache.isa = d.cache.isa

theorem Ok.lookedUp (h : Ok x d) (hget : d.objPointerGet id = some (d', o)) :
    LookedUp x d d' := by
  have hsame : LookedUp x d d := ⟨h, rfl, rfl, rfl, rfl, rfl, rfl⟩
  unfold objPointerGet at hget
  split_ifs at hget with hcache hnull
  · obtain ⟨rfl, -⟩ := Prod.mk.inj (some.inj hget)
    exact hsame
  · obtain ⟨rfl, -⟩ := Prod.mk.inj (some.inj hget)
    exact hsame
  obtain ⟨found, hfound, heq⟩ := map_eq_some_iff.mp hget
  cases found with
  | none =>
    obtain ⟨rfl, -⟩ := Prod.mk.inj heq
    exact hsame
  | some r =>
    obtain ⟨t, e⟩ := r
    obtain ⟨rfl, -⟩ := Prod.mk.inj heq
    refine ⟨⟨h.tables, h.linked, h.current, h.spare, h.generation, ?_, ?_⟩, rfl, rfl, rfl, rfl,
      rfl, rfl⟩
    · intro hzero
      exact absurd (.inl hzero) hnull
    · intro q g hq hid
      replace hid : id = word q x g := hid
      obtain ⟨r, hr, hcases⟩ := entryOf_word hq
      rw [hid, hr] at hfound
      obtain rfl := some.inj hfound
      rcases hcases with ⟨hnone, -⟩ | ⟨t', hsome, -, hused⟩
      · simp at hnone
      · obtain ⟨rfl, rfl⟩ := Prod.mk.inj (some.inj hsome)
        exact hused

/-- **An id resolves to what its place holds with its generation**, whoever answers. -/
theorem Ok.objPointerGet_word (h : Ok x d) (hq : InRange q g) :
    ∃ d', d.objPointerGet (word q x g) = some (d', d.target q g) ∧ LookedUp x d d' := by
  have hresult : ∃ d', d.objPointerGet (word q x g) = some (d', d.target q g) := by
    obtain ⟨-, -, -, -, htag⟩ := parts_word hq
    have hne := word_ne_zero (x := x) hq
    unfold objPointerGet
    by_cases hcache : word q x g = d.cache.id
    · rw [if_pos hcache, target_of_used (h.cached q g hq hcache.symm)]
      exact ⟨d, rfl⟩
    rw [if_neg hcache, if_neg (by tauto)]
    obtain ⟨r, hr, ⟨rfl, hnone⟩ | ⟨t, rfl, -, hused⟩⟩ := entryOf_word hq
    · rw [hr, target_of_ne hnone]
      exact ⟨_, rfl⟩
    · rw [hr, target_of_used hused]
      exact ⟨_, rfl⟩
  obtain ⟨d', hget⟩ := hresult
  exact ⟨d', hget, h.lookedUp hget⟩

/-! ### Releasing -/

/-- The table without the entry that is given back, linked out where no entry is in use. -/
def dropEntry (d : TableData κ) (p : Nat × Nat) (t : Table) : TableData κ :=
  if t.freeEntries = maxEntryId then (d.setTable p (some t)).unlink p t
  else d.setTable p (some t)

theorem dropEntry_rest : (d.dropEntry p t).cache = d.cache ∧
    (d.dropEntry p t).generation = d.generation ∧ (d.dropEntry p t).shared = d.shared := by
  unfold dropEntry
  split <;> exact ⟨rfl, rfl, rfl⟩

theorem tableAt_dropEntry_of_ne (h : p' ≠ p) :
    (d.dropEntry p t).tableAt p' = d.tableAt p' := by
  unfold dropEntry
  split
  · exact (tableAt_setTable_of_ne h).trans (tableAt_setTable_of_ne h)
  · exact tableAt_setTable_of_ne h

theorem tableAt_dropEntry_self (h : (d.eoIdsTables p.1).isSome) :
    (d.dropEntry p t).tableAt p = if t.freeEntries = maxEntryId then none else some t := by
  unfold dropEntry
  split
  · refine tableAt_setTable_self ?_
    unfold setTable
    dsimp only
    rw [if_pos rfl, isSome_map]
    exact h
  · exact tableAt_setTable_self h

theorem release_some {e : Entry} (h : d.entryOf id = some (some (t, e))) :
    d.release id = some { d.dropEntry (id.midTable, id.table) (t.giveBack id.entry) with
      cache := d.cache.wipe id } := by
  unfold release dropEntry
  rw [h, map_some]
  dsimp only
  split <;> rfl

/-- What a release does: the place is given up. -/
structure Released (x : Nat) (d d' : TableData κ) (q : Place) (g : Nat) : Prop where
  ok : Ok x d'
  used : d'.used = update d.used q none
  cache : d'.cache = d.cache.wipe (word q x g)
  generation : d'.generation = d.generation
  shared : d'.shared = d.shared

/-- Giving an entry back empties its place, and drops its table if it was the last one. -/
theorem Ok.dropEntry (h : Ok x d) (ht : d.tableAt q.1 = some t)
    (hi : (t.entries q.2).active = true) :
    (d.dropEntry q.1 (t.giveBack q.2)).used = update d.used q none ∧
      (∀ p u, (d.dropEntry q.1 (t.giveBack q.2)).tableAt p = some u →
        p.1 < maxMidTableId ∧ p.2 < maxTableId ∧ u.Ok p ∧ ∃ i, (u.entries i).active = true) ∧
      (∀ p, (d.dropEntry q.1 (t.giveBack q.2)).currentTable = some p →
        ∃ u, (d.dropEntry q.1 (t.giveBack q.2)).tableAt p = some u) ∧
      ∀ u, (d.dropEntry q.1 (t.giveBack q.2)).emptyTable = some u →
        ∀ i, (u.entries i).active = false := by
  obtain ⟨hmid, htable, hok⟩ := h.tables _ t ht
  have hnew := hok.giveBack hi
  obtain ⟨l, hl⟩ := hnew.queue
  have hself := tableAt_dropEntry_self (t := t.giveBack q.2) (row_of_tableAt ht)
  have hother : ∀ p ≠ q.1, (d.dropEntry q.1 (t.giveBack q.2)).tableAt p = d.tableAt p :=
    fun p hp => tableAt_dropEntry_of_ne hp
  refine ⟨?_, ?_, ?_, ?_⟩
  · funext q'
    by_cases hp : q'.1 = q.1
    · have hupdate : (t.giveBack q.2).used q'.2 = update d.used q none q' := by
        rw [hok.used_giveBack hi]
        by_cases hi' : q'.2 = q.2
        · rw [hi', update_self, show q' = q from Prod.ext hp hi', update_self]
        have hne : q' ≠ q := fun heq => hi' (congrArg Prod.snd heq)
        rw [update_of_ne hi', update_of_ne hne, TableData.used, hp, ht]
        rfl
      rw [TableData.used, hp, hself, ← hupdate]
      by_cases hmax : (t.giveBack q.2).freeEntries = maxEntryId
      · rw [if_pos hmax, Table.used_eq_none.mpr (hl.free_eq_max.mp hmax q'.2)]
        rfl
      · rw [if_neg hmax]
        rfl
    · have hne : q' ≠ q := fun heq => hp (congrArg Prod.fst heq)
      rw [update_of_ne hne, TableData.used, hother _ hp, TableData.used]
  · intro p u hu
    by_cases hp : p = q.1
    · rw [hp, hself] at hu
      by_cases hmax : (t.giveBack q.2).freeEntries = maxEntryId
      · rw [if_pos hmax] at hu
        simp at hu
      rw [if_neg hmax] at hu
      obtain rfl := some.inj hu
      rw [hp]
      refine ⟨hmid, htable, hnew, ?_⟩
      by_contra hnone
      refine hmax (hl.free_eq_max.mpr fun i => ?_)
      by_contra hactive
      exact hnone ⟨i, by simpa using hactive⟩
    · rw [hother p hp] at hu
      obtain ⟨h1, h2, h3⟩ := h.tables p u hu
      exact ⟨h1, h2, h3, h.linked p u hu⟩
  · intro p hp
    by_cases hmax : (t.giveBack q.2).freeEntries = maxEntryId
    · rw [TableData.dropEntry, if_pos hmax] at hp
      replace hp : (if d.currentTable = some q.1 then none else d.currentTable) = some p := hp
      split_ifs at hp with hcur
      have hne : p ≠ q.1 := fun heq => hcur (heq ▸ hp)
      rw [hother p hne]
      exact h.current p hp
    · by_cases hpq : p = q.1
      · rw [hpq, hself, if_neg hmax]
        exact ⟨_, rfl⟩
      rw [hother p hpq]
      rw [TableData.dropEntry, if_neg hmax] at hp
      exact h.current p hp
  · intro u hu
    by_cases hmax : (t.giveBack q.2).freeEntries = maxEntryId
    · rw [TableData.dropEntry, if_pos hmax] at hu
      replace hu : (if d.emptyTable.isNone then some (t.giveBack q.2) else d.emptyTable) = some u :=
        hu
      split_ifs at hu with hempty
      · rw [← some.inj hu]
        exact hl.free_eq_max.mp hmax
      · exact h.spare u hu
    · rw [TableData.dropEntry, if_neg hmax] at hu
      exact h.spare u hu

theorem wipe_spec (c : Cache κ) (id : Id) :
    ((c.wipe id).id = 0 ∧ (c.wipe id).object = none ∧ c.id = id ∨
      (c.wipe id).id = c.id ∧ (c.wipe id).object = c.object ∧ c.id ≠ id) := by
  unfold Cache.wipe
  dsimp only
  by_cases h : c.id = id
  · rw [if_pos h]
    left
    split <;> exact ⟨rfl, rfl, h⟩
  · rw [if_neg h]
    right
    split <;> exact ⟨rfl, rfl, h⟩

/-- **A release gives up the place of an id that is in use, and does nothing to another one.** -/
theorem Ok.release (h : Ok x d) (hq : InRange q g) :
    (d.release (word q x g) = some d ∧ ∀ o, d.used q ≠ some (o, g)) ∨
      ∃ d' o, d.release (word q x g) = some d' ∧ d.used q = some (o, g) ∧ Released x d d' q g := by
  obtain ⟨r, hr, ⟨rfl, hnone⟩ | ⟨t, rfl, ht, hused⟩⟩ := entryOf_word hq
  · left
    refine ⟨?_, hnone⟩
    unfold TableData.release
    rw [hr]
    rfl
  · right
    obtain ⟨⟨hmid, htable⟩, hentry, -⟩ := parts_word hq
    have hactive : (t.entries q.2).active = true := by
      rw [used_of_tableAt ht] at hused
      exact (Table.used_eq_some.mp hused).1
    have hrelease := release_some hr
    rw [hmid, htable, hentry] at hrelease
    obtain ⟨hall, htables, hcurrent, hspare⟩ := h.dropEntry ht hactive
    obtain ⟨hcache, hgen, hshared⟩ := dropEntry_rest
    refine ⟨_, _, hrelease, hused, ?_, hall, rfl, hgen, hshared⟩
    refine ⟨fun p u hu => ?_, fun p u hu => (htables p u hu).2.2.2, hcurrent, hspare,
      (hgen.symm ▸ h.generation), ?_, ?_⟩
    · obtain ⟨h1, h2, h3, -⟩ := htables p u hu
      exact ⟨h1, h2, h3⟩
    · intro hzero
      rcases wipe_spec d.cache (word q x g) with ⟨-, hobj, -⟩ | ⟨hid, hobj, -⟩
      · exact hobj
      · rw [hobj]
        exact h.object (hid ▸ hzero)
    · intro q' g' hq' hid
      rcases wipe_spec d.cache (word q x g) with ⟨hzero, -⟩ | ⟨hsame, hobj, hne⟩
      · rw [hzero] at hid
        exact absurd hid.symm (word_ne_zero hq')
      rw [hsame] at hid
      have hold := h.cached q' g' hq' hid
      have hqq : q' ≠ q := by
        rintro rfl
        rw [hused] at hold
        have hgg : g = g' := (Prod.mk.inj (some.inj hold)).2
        exact hne (by rw [hid, hgg])
      rw [hobj]
      show TableData.used (d.dropEntry q.1 (t.giveBack q.2)) q' = _
      rw [hall, update_of_ne hqq, hold]

end Eo.Ids.TableData
