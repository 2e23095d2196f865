/-
What holds of the tables of ids.

The entries of a table below `start` are in use, or stand once in the queue of the entries that were
given back; the others were never used.  `used` is what a lookup may find: the entries in use, with
what they hold and their generation.  An operation is told by what it does to `used`: an id is
allocated by putting one place to use, with the next generation, and released by giving it up.
-/
import Efl.Eo.Ids.Basic
import Efl.Lib.BitField
import Efl.Lib.Forward
import Mathlib.Data.Finset.Card

namespace Eo.Ids

open BitField Forward Finset

/-- Where an entry is: the place of its table, and its index there. -/
abbrev Place := (Nat × Nat) × Nat

/-! ### Words -/

/-- A place and a generation that an id may have. -/
structure InRange (q : Place) (g : Nat) : Prop where
  mid : q.1.1 < maxMidTableId
  table : q.1.2 < maxTableId
  entry : q.2 < maxEntryId
  generation : g < maxGenerations

/-- The id of a place, a domain and a generation. -/
def word (q : Place) (domain g : Nat) : Id :=
  composeFinalId (composePartialId q.1.1 q.1.2) q.2 domain g

section

variable {q q' : Place} {x g g' : Nat}

/-- The parts of an id are those it was composed of. -/
theorem parts_word (h : InRange q g) :
    ((word q x g).midTable = q.1.1 ∧ (word q x g).table = q.1.2) ∧ (word q x g).entry = q.2 ∧
      (word q x g).generation = g ∧ (word q x g).domain = x % 4 ∧ (word q x g).tagBit ≠ 0 := by
  have hm : q.1.1 < 2 ^ 11 := h.mid
  have ht : q.1.2 < 2 ^ 11 := lt_of_lt_of_le h.table (Nat.sub_le _ _)
  have he : q.2 < 2 ^ 11 := lt_of_lt_of_le h.entry (Nat.sub_le _ _)
  have hg : g < 2 ^ 10 := h.generation
  have hx : x % 4 < 2 ^ 2 := Nat.mod_lt x (by decide)
  have h1 : 1 < 2 ^ 1 := by decide
  have hword : word q x g = ((((1 <<< 46 ||| q.1.1 <<< 32) ||| q.1.2 <<< 21) |||
      (x % 4) <<< 43) ||| q.2 <<< 10) ||| g <<< 0 := by
    rw [word, composeFinalId, composePartialId, and_mask hm, and_mask ht, and_mask he, and_mask hg,
      Nat.and_two_pow_sub_one_eq_mod, Nat.shiftLeft_zero]
  refine ⟨⟨?_, ?_⟩, ?_, ?_, ?_, ?_⟩
  · show extract (word q x g) 32 11 = _
    rw [hword, extract_or_clear (clear_field hg (by omega)),
      extract_or_clear (clear_field he (by omega)), extract_or_clear (clear_field hx (by omega)),
      extract_or_clear (clear_field ht (by omega)), extract_clear_or (clear_field h1 (by omega)),
      extract_field hm]
  · show extract (word q x g) 21 11 = _
    rw [hword, extract_or_clear (clear_field hg (by omega)),
      extract_or_clear (clear_field he (by omega)), extract_or_clear (clear_field hx (by omega)),
      extract_clear_or, extract_field ht]
    exact (clear_field h1 (by omega)).or (clear_field hm (by omega))
  · show extract (word q x g) 10 11 = _
    rw [hword, extract_or_clear (clear_field hg (by omega)), extract_clear_or, extract_field he]
    exact (((clear_field h1 (by omega)).or (clear_field hm (by omega))).or
      (clear_field ht (by omega))).or (clear_field hx (by omega))
  · show extract (word q x g) 0 10 = _
    rw [hword, extract_clear_or, extract_field hg]
    exact ((((clear_field h1 (by omega)).or (clear_field hm (by omega))).or
      (clear_field ht (by omega))).or (clear_field hx (by omega))).or (clear_field he (by omega))
  · show extract (word q x g) 43 2 = _
    rw [hword, extract_or_clear (clear_field hg (by omega)),
      extract_or_clear (clear_field he (by omega)), extract_clear_or, extract_field hx]
    exact ((clear_field h1 (by omega)).or (clear_field hm (by omega))).or
      (clear_field ht (by omega))
  · have hbit : extract (word q x g) 46 1 = 1 := by
      rw [hword, extract_or_clear (clear_field hg (by omega)),
        extract_or_clear (clear_field he (by omega)), extract_or_clear (clear_field hx (by omega)),
        extract_or_clear (clear_field ht (by omega)), extract_or_clear (clear_field hm (by omega)),
        extract_field h1]
    intro hzero
    have htest : (word q x g).testBit 46 = true := by
      have hone := congrArg (fun n => n.testBit 0) hbit
      simpa [extract] using hone
    have hnone := congrArg (fun n => n.testBit 46) hzero
    rw [Id.tagBit] at hnone
    simp only [Nat.testBit_and, htest] at hnone
    exact absurd hnone (by decide)

theorem word_ne_zero (h : InRange q g) : word q x g ≠ 0 := by
  intro hzero
  have htag := (parts_word (x := x) h).2.2.2.2
  rw [hzero] at htag
  exact htag rfl

theorem word_inj (h : InRange q g) (h' : InRange q' g') (heq : word q x g = word q' x g') :
    q = q' ∧ g = g' := by
  obtain ⟨⟨h1, h2⟩, h3, h4, -⟩ := parts_word h
  obtain ⟨⟨h1', h2'⟩, h3', h4', -⟩ := parts_word h'
  rw [heq] at h1 h2 h3 h4
  exact ⟨Prod.ext (Prod.ext (h1.symm.trans h1') (h2.symm.trans h2')) (h3.symm.trans h3'),
    h4.symm.trans h4'⟩

theorem word_mod : word q (x % 4) g = word q x g := by
  have hmask : ∀ y : Nat, y &&& (2 ^ 2 - 1) = y % 4 := fun y => Nat.and_two_pow_sub_one_eq_mod y 2
  rw [word, word, composeFinalId, composeFinalId, hmask, hmask, Nat.mod_mod]

end

/-! ### Tables -/

namespace Table

variable {t : Table} {p : Nat × Nat} {l : List Nat} {i j : Nat} {e : Entry}

/-- What an entry in use holds, and its generation. -/
def used (t : Table) (i : Nat) : Option (Option Obj × Nat) :=
  if (t.entries i).active then some ((t.entries i).ptr, (t.entries i).generation) else none

theorem used_eq_none : t.used i = none ↔ (t.entries i).active = false := by
  unfold used
  split <;> simp_all

theorem used_of_active (h : (t.entries i).active = true) :
    t.used i = some ((t.entries i).ptr, (t.entries i).generation) := if_pos h

theorem used_eq_some {o : Option Obj} {g : Nat} :
    t.used i = some (o, g) ↔ (t.entries i).active = true ∧ (t.entries i).ptr = o ∧
      (t.entries i).generation = g := by
  unfold used
  split <;> simp_all

/-- The entries of `l` were given back and can be taken again in that order, and the entries from
`start` on were never used; these are the free ones. -/
structure Queue (t : Table) (l : List Nat) : Prop where
  linked : Seg (fun i => some (t.entries i).next) t.fifoHead l none
  tail : t.fifoTail = l.getLast?
  nodup : l.Nodup
  active_iff : ∀ i, (t.entries i).active = true ↔ i < t.start ∧ i ∉ l
  lt : ∀ i ∈ l, i < t.start
  start_le : t.start ≤ maxEntryId
  free : t.freeEntries + t.start = maxEntryId + l.length

/-- A table that is linked in at `p`. -/
structure Ok (t : Table) (p : Nat × Nat) : Prop where
  partialId : t.partialId = composePartialId p.1 p.2
  generation : ∀ i, (t.entries i).active = true → (t.entries i).generation < maxGenerations
  queue : ∃ l, t.Queue l

theorem Queue.lt_of_active (h : t.Queue l) (hi : (t.entries i).active = true) : i < maxEntryId :=
  lt_of_lt_of_le ((h.active_iff i).mp hi).1 h.start_le

theorem Ok.lt_of_active (h : t.Ok p) (hi : (t.entries i).active = true) : i < maxEntryId := by
  obtain ⟨l, hl⟩ := h.queue
  exact hl.lt_of_active hi

theorem Queue.length_le (h : t.Queue l) : l.length ≤ t.start := by
  have hsub : l.toFinset ⊆ range t.start := by
    intro i hi
    rw [List.mem_toFinset] at hi
    exact mem_range.mpr (h.lt i hi)
  have hcard := card_le_card hsub
  rwa [List.toFinset_card_of_nodup h.nodup, card_range] at hcard

theorem Queue.free_eq_max (h : t.Queue l) :
    t.freeEntries = maxEntryId ↔ ∀ i, (t.entries i).active = false := by
  have hfree := h.free
  have hle := h.length_le
  constructor
  · intro hmax i
    have hsub : l.toFinset ⊆ range t.start := by
      intro i hi
      rw [List.mem_toFinset] at hi
      exact mem_range.mpr (h.lt i hi)
    have hcard : (range t.start).card ≤ l.toFinset.card := by
      rw [List.toFinset_card_of_nodup h.nodup, card_range]
      omega
    have heq := eq_of_subset_of_card_le hsub hcard
    by_contra hactive
    obtain ⟨hlt, hnot⟩ := (h.active_iff i).mp (by simpa using hactive)
    rw [← List.mem_toFinset, heq] at hnot
    exact hnot (mem_range.mpr hlt)
  · intro hnone
    have hsub : range t.start ⊆ l.toFinset := by
      intro i hi
      rw [List.mem_toFinset]
      by_contra hnot
      have hactive := (h.active_iff i).mpr ⟨mem_range.mp hi, hnot⟩
      rw [hnone] at hactive
      simp at hactive
    have hcard := card_le_card hsub
    rw [List.toFinset_card_of_nodup h.nodup, card_range] at hcard
    omega

theorem Queue.free_eq_zero (h : t.Queue l) :
    t.freeEntries = 0 ↔ ∀ i < maxEntryId, (t.entries i).active = true := by
  have hfree := h.free
  have hstart := h.start_le
  constructor
  · intro hzero i hi
    have hnil : l = [] := List.length_eq_zero_iff.mp (by omega)
    refine (h.active_iff i).mpr ⟨by omega, ?_⟩
    rw [hnil]
    exact List.not_mem_nil
  · intro hall
    have hmax : t.start = maxEntryId := by
      by_contra hne
      exact absurd ((h.active_iff t.start).mp (hall t.start (by omega))).1 (lt_irrefl _)
    have hnil : l = [] := by
      rcases l with - | ⟨i, l⟩
      · rfl
      · have hi := h.lt i List.mem_cons_self
        exact absurd List.mem_cons_self ((h.active_iff i).mp (hall i (by omega))).2
    rw [hnil] at hfree
    simp only [List.length_nil] at hfree
    omega

/-! #### Taking an entry -/

@[simp] theorem setEntry_entries_self : (t.setEntry i e).entries i = e := Function.update_self ..

theorem setEntry_entries_of_ne (h : j ≠ i) : (t.setEntry i e).entries j = t.entries j :=
  Function.update_of_ne h _ _

theorem used_setEntry (h : e.active = true) :
    (t.setEntry i e).used = Function.update t.used i (some (e.ptr, e.generation)) := by
  funext j
  by_cases hj : j = i
  · rw [hj, Function.update_self, used_of_active (by rw [setEntry_entries_self]; exact h),
      setEntry_entries_self]
  · rw [Function.update_of_ne hj, used, setEntry_entries_of_ne hj]
    rfl

/-- The free entry `i` can be put to use in `t'`, where `t` has it free. -/
structure Takes (t : Table) (p : Nat × Nat) (i : Nat) (t' : Table) : Prop where
  lt : i < maxEntryId
  inactive : (t'.entries i).active = false
  entries : t'.entries = t.entries
  ok : ∀ e : Entry, e.active = true → e.generation < maxGenerations → (t'.setEntry i e).Ok p

theorem seg_setEntry {h : Option Nat} (hl : Seg (fun i => some (t.entries i).next) h l none)
    (hi : i ∉ l) : Seg (fun j => some ((t.setEntry i e).entries j).next) h l none := by
  refine hl.congr ?_
  intro j hj
  have hne : j ≠ i := fun heq => hi (heq ▸ hj)
  rw [setEntry_entries_of_ne hne]

theorem generation_setEntry (h : ∀ i, (t.entries i).active = true →
    (t.entries i).generation < maxGenerations) (he : e.generation < maxGenerations) (j : Nat)
    (hj : ((t.setEntry i e).entries j).active = true) :
    ((t.setEntry i e).entries j).generation < maxGenerations := by
  by_cases hji : j = i
  · rw [hji, setEntry_entries_self]
    exact he
  · rw [setEntry_entries_of_ne hji] at hj ⊢
    exact h j hj

/-- The entry that is handed out: one never used, or the one that was given back first. -/
theorem getAvailableEntry_cases (h : t.Queue l) :
    (t.getAvailableEntry = none ∧ t.start = maxEntryId ∧ l = []) ∨
    (t.start < maxEntryId ∧ t.getAvailableEntry =
      some (t.start, { t with start := t.start + 1, freeEntries := t.freeEntries - 1 })) ∨
    ∃ head rest next, l = head :: rest ∧ t.start = maxEntryId ∧
      Seg (fun i => some (t.entries i).next) next rest none ∧
      t.getAvailableEntry = some (head, { t with
        fifoHead := next, fifoTail := rest.getLast?, freeEntries := t.freeEntries - 1 }) := by
  have hstart := h.start_le
  unfold getAvailableEntry
  by_cases hmax : t.start = maxEntryId
  · rw [if_neg (not_not.mpr hmax)]
    cases l with
    | nil =>
      left
      have hhead : t.fifoHead = none := h.linked
      rw [hhead]
      exact ⟨rfl, hmax, rfl⟩
    | cons head rest =>
      right; right
      obtain ⟨hhead, next, hnext, hrest⟩ := h.linked
      refine ⟨head, rest, next, rfl, hmax, hrest, ?_⟩
      rw [hhead]
      dsimp only
      rw [Option.some.inj hnext]
      cases next with
      | none =>
        have hnil : rest = [] := by
          rcases rest with - | ⟨y, rest⟩
          · rfl
          · exact absurd hrest.1 (by simp)
        rw [hnil]
        rfl
      | some y =>
        have htail : t.fifoTail = rest.getLast? := by
          rcases rest with - | ⟨z, rest⟩
          · simp at hrest
          · rw [h.tail, List.getLast?_cons_cons]
        rw [← htail]
  · rw [if_pos hmax]
    exact .inr (.inl ⟨by omega, rfl⟩)

/-- The entry that a table has to offer: the first one that was never used, or else the head of its
queue. -/
def Offers (t : Table) (i : Nat) : Prop :=
  if t.start ≠ maxEntryId then i = t.start else t.fifoHead = some i

theorem offers_iff : t.Offers i ↔ ∃ t', t.getAvailableEntry = some (i, t') := by
  unfold Offers getAvailableEntry
  split
  · exact ⟨fun hi => ⟨_, by rw [hi]⟩, fun ⟨t', h⟩ => (Prod.mk.inj (Option.some.inj h)).1.symm⟩
  · cases t.fifoHead with
    | none => simp
    | some head =>
      dsimp only
      cases (t.entries head).next with
      | none => simp
      | some next => simp

theorem Offers.unique (hi : t.Offers i) (hj : t.Offers j) : i = j := by
  obtain ⟨t', ht'⟩ := offers_iff.mp hi
  obtain ⟨t'', ht''⟩ := offers_iff.mp hj
  exact (Prod.mk.inj (Option.some.inj (ht'.symm.trans ht''))).1

theorem Ok.getAvailableEntry_none (h : t.Ok p) :
    t.getAvailableEntry = none ↔ ∀ i < maxEntryId, (t.entries i).active = true := by
  obtain ⟨l, hl⟩ := h.queue
  rw [← hl.free_eq_zero]
  have hfree := hl.free
  rcases getAvailableEntry_cases hl with ⟨hnone, hstart, rfl⟩ | ⟨hlt, hsome⟩ |
    ⟨head, rest, next, rfl, hstart, -, hsome⟩
  · simp only [hnone, true_iff]
    simp only [List.length_nil] at hfree
    omega
  · simp only [hsome, reduceCtorEq, false_iff]
    omega
  · simp only [hsome, reduceCtorEq, false_iff]
    simp only [List.length_cons] at hfree
    omega

/-- **A free entry that is handed out can be put to use.** -/
theorem Ok.getAvailableEntry_some {t' : Table} (h : t.Ok p)
    (hget : t.getAvailableEntry = some (i, t')) : t.Takes p i t' := by
  obtain ⟨l, hl⟩ := h.queue
  have hfree := hl.free
  rcases getAvailableEntry_cases hl with ⟨hnone, -⟩ | ⟨hlt, hsome⟩ |
    ⟨head, rest, next, rfl, hstart, hseg, hsome⟩
  · rw [hnone] at hget
    simp at hget
  · -- an entry that was never used
    rw [hsome] at hget
    obtain ⟨rfl, rfl⟩ := Prod.mk.inj (Option.some.inj hget)
    have hinactive : (t.entries t.start).active = false := by
      by_contra hactive
      exact absurd ((hl.active_iff t.start).mp (by simpa using hactive)).1 (lt_irrefl _)
    have hnot : t.start ∉ l := fun hmem => absurd (hl.lt _ hmem) (lt_irrefl _)
    refine ⟨hlt, hinactive, rfl, fun e he hgen =>
      ⟨h.partialId, generation_setEntry h.generation hgen, l, ?_⟩⟩
    refine ⟨seg_setEntry hl.linked hnot, hl.tail,
      hl.nodup, ?_, ?_, hlt, ?_⟩
    · intro j
      show (Function.update t.entries t.start e j).active = true ↔ j < t.start + 1 ∧ j ∉ l
      by_cases hj : j = t.start
      · rw [hj, Function.update_self]
        exact ⟨fun _ => ⟨Nat.lt_succ_self _, hnot⟩, fun _ => he⟩
      rw [Function.update_of_ne hj, hl.active_iff]
      constructor
      · rintro ⟨hlt', hmem⟩
        exact ⟨by omega, hmem⟩
      · rintro ⟨hlt', hmem⟩
        exact ⟨by omega, hmem⟩
    · intro j hj
      exact Nat.lt_succ_of_lt (hl.lt j hj)
    · show t.freeEntries - 1 + (t.start + 1) = maxEntryId + l.length
      omega
  · -- the first of the queue
    rw [hsome] at hget
    obtain ⟨rfl, rfl⟩ := Prod.mk.inj (Option.some.inj hget)
    obtain ⟨hnot, hnodup⟩ := List.nodup_cons.mp hl.nodup
    have hhead := hl.lt head List.mem_cons_self
    have hinactive : (t.entries head).active = false := by
      by_contra hactive
      exact ((hl.active_iff head).mp (by simpa using hactive)).2 List.mem_cons_self
    refine ⟨lt_of_lt_of_le hhead hl.start_le, hinactive, rfl, fun e he hgen =>
      ⟨h.partialId, generation_setEntry h.generation hgen, rest, ?_⟩⟩
    refine ⟨seg_setEntry hseg hnot,
      rfl, hnodup, ?_, ?_, hl.start_le, ?_⟩
    · intro j
      show (Function.update t.entries head e j).active = true ↔ j < t.start ∧ j ∉ rest
      by_cases hj : j = head
      · rw [hj, Function.update_self]
        exact ⟨fun _ => ⟨hhead, hnot⟩, fun _ => he⟩
      · rw [Function.update_of_ne hj, hl.active_iff, List.mem_cons]
        tauto
    · intro j hj
      exact hl.lt j (List.mem_cons_of_mem _ hj)
    · show t.freeEntries - 1 + t.start = maxEntryId + rest.length
      simp only [List.length_cons] at hfree
      omega

theorem takes_opened (h : ∀ i, (t.entries i).active = false) :
    t.Takes p 0 (t.opened p.1 p.2) := by
  refine ⟨by decide, h 0, rfl, fun e he hgen => ⟨rfl, ?_, [], ?_⟩⟩
  · refine generation_setEntry ?_ hgen
    intro i hi
    exact absurd hi (by rw [show ((t.opened p.1 p.2).entries i).active = false from h i]; simp)
  · refine ⟨rfl, rfl, List.nodup_nil, ?_, by simp, show 1 ≤ maxEntryId by decide, rfl⟩
    intro j
    show (Function.update t.entries 0 e j).active = true ↔ j < 1 ∧ j ∉ []
    by_cases hj : j = 0
    · rw [hj]
      simp [he]
    · rw [Function.update_of_ne hj, h]
      simp [hj]

/-! #### Giving an entry back -/

/-- The entry after it was given back. -/
def off (t : Table) (i : Nat) : Entry := { t.entries i with active := false, next := none }

theorem giveBack_none (h : t.fifoTail = none) : t.giveBack i = { t with
    fifoHead := some i, fifoTail := some i, freeEntries := t.freeEntries + 1,
    entries := Function.update t.entries i (t.off i) } := by
  simp only [giveBack, setEntry, h, off]

theorem giveBack_some {tail : Nat} (h : t.fifoTail = some tail) (hne : tail ≠ i) :
    t.giveBack i = { t with
      fifoTail := some i, freeEntries := t.freeEntries + 1,
      entries := Function.update (Function.update t.entries i (t.off i)) tail
        { t.entries tail with next := some i } } := by
  simp only [giveBack, setEntry, h, off, Function.update_of_ne hne]

theorem giveBack_fields (h : t.fifoTail ≠ some i) :
    (t.giveBack i).start = t.start ∧ (t.giveBack i).fifoTail = some i ∧
      (t.giveBack i).partialId = t.partialId ∧
      (t.giveBack i).freeEntries = t.freeEntries + 1 ∧ (t.giveBack i).entries i = t.off i ∧
      ∀ j ≠ i, ∃ next, (t.giveBack i).entries j = { t.entries j with next := next } := by
  cases htail : t.fifoTail with
  | none =>
    rw [giveBack_none htail]
    refine ⟨rfl, rfl, rfl, rfl, Function.update_self .., fun j hj => ⟨(t.entries j).next, ?_⟩⟩
    dsimp only
    rw [Function.update_of_ne hj]
  | some tail =>
    have hne : tail ≠ i := fun heq => h (heq ▸ htail)
    rw [giveBack_some htail hne]
    refine ⟨rfl, rfl, rfl, rfl, ?_, ?_⟩
    · dsimp only
      rw [Function.update_of_ne (symm hne), Function.update_self]
    · intro j hj
      dsimp only
      by_cases hjt : j = tail
      · exact ⟨some i, by rw [hjt, Function.update_self]⟩
      · exact ⟨(t.entries j).next, by rw [Function.update_of_ne hjt, Function.update_of_ne hj]⟩

theorem Queue.tail_ne (h : t.Queue l) (hi : (t.entries i).active = true) :
    t.fifoTail ≠ some i := by
  rw [h.tail]
  exact fun heq => ((h.active_iff i).mp hi).2 (List.mem_of_getLast? heq)

theorem Queue.linked_giveBack (h : t.Queue l) (hi : (t.entries i).active = true) :
    Seg (fun j => some ((t.giveBack i).entries j).next) (t.giveBack i).fifoHead (l ++ [i])
      none := by
  obtain ⟨-, hnot⟩ := (h.active_iff i).mp hi
  rw [seg_append]
  refine ⟨some i, ?_, rfl, none, ?_, rfl⟩
  · rcases List.eq_nil_or_concat l with rfl | ⟨l, tail, rfl⟩
    · rw [giveBack_none h.tail]
      rfl
    rw [List.concat_eq_append] at h hnot ⊢
    have hsome : t.fifoTail = some tail := by rw [h.tail, List.getLast?_concat]
    have hne : tail ≠ i := fun heq => hnot (by simp [heq])
    have hnd := List.nodup_append.mp h.nodup
    have hlinked := h.linked
    rw [seg_append] at hlinked
    obtain ⟨m, hl, rfl, -⟩ := hlinked
    rw [giveBack_some hsome hne, seg_append]
    refine ⟨some tail, hl.congr ?_, rfl, some i, ?_, rfl⟩
    · intro j hj
      have hjt : j ≠ tail := fun heq => hnd.2.2 j hj tail (by simp) heq
      have hji : j ≠ i := fun heq => hnot (by simp [← heq, hj])
      dsimp only
      rw [Function.update_of_ne hjt, Function.update_of_ne hji]
    · dsimp only
      rw [Function.update_self]
  · dsimp only
    rw [(giveBack_fields (h.tail_ne hi)).2.2.2.2.1]
    rfl

/-- An entry that is given back goes to the end of the queue. -/
theorem Queue.giveBack (h : t.Queue l) (hi : (t.entries i).active = true) :
    (t.giveBack i).Queue (l ++ [i]) := by
  obtain ⟨hlt, hnot⟩ := (h.active_iff i).mp hi
  obtain ⟨hstart, htail, -, hfree, hself, hother⟩ := giveBack_fields (h.tail_ne hi)
  refine ⟨h.linked_giveBack hi, ?_, ?_, ?_, ?_, ?_, ?_⟩
  · rw [htail, List.getLast?_concat]
  · rw [List.nodup_append]
    refine ⟨h.nodup, List.nodup_singleton i, ?_⟩
    intro a ha b hb heq
    rw [List.mem_singleton] at hb
    exact hnot (hb ▸ heq ▸ ha)
  · intro j
    rw [hstart]
    by_cases hj : j = i
    · rw [hj, hself]
      simp [off]
    obtain ⟨next, hnext⟩ := hother j hj
    rw [hnext]
    rw [h.active_iff, List.mem_append, List.mem_singleton]
    tauto
  · intro j hj
    rw [hstart]
    rcases List.mem_append.mp hj with hj | hj
    · exact h.lt j hj
    · rw [mem_singleton.mp hj]
      exact hlt
  · rw [hstart]
    exact h.start_le
  · have hold := h.free
    rw [hfree, List.length_append, List.length_singleton]
    omega

theorem Ok.used_giveBack (h : t.Ok p) (hi : (t.entries i).active = true) :
    (t.giveBack i).used = Function.update t.used i none := by
  obtain ⟨l, hl⟩ := h.queue
  obtain ⟨-, -, -, -, hself, hother⟩ := giveBack_fields (hl.tail_ne hi)
  funext j
  by_cases hj : j = i
  · rw [hj, Function.update_self, used_eq_none, hself]
    rfl
  obtain ⟨next, hnext⟩ := hother j hj
  rw [Function.update_of_ne hj, used, hnext]
  rfl

/-- **An entry in use is given back to its table.** -/
theorem Ok.giveBack (h : t.Ok p) (hi : (t.entries i).active = true) : (t.giveBack i).Ok p := by
  obtain ⟨l, hl⟩ := h.queue
  obtain ⟨-, -, hpart, -⟩ := giveBack_fields (hl.tail_ne hi)
  refine ⟨hpart.trans h.partialId, ?_, l ++ [i], hl.giveBack hi⟩
  intro j hj
  have hused := congrFun (h.used_giveBack hi) j
  rw [used_of_active hj] at hused
  by_cases hji : j = i
  · rw [hji] at hused
    simp at hused
  rw [Function.update_of_ne hji] at hused
  obtain ⟨hactive, -, hgen⟩ := used_eq_some.mp hused.symm
  rw [← hgen]
  exact h.generation j hactive

end Table

end Eo.Ids
