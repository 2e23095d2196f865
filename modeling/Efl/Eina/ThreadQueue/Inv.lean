/-
What holds of a thread queue between two steps.

The messages nobody has fetched yet stand one behind the other in the block that is read and in the
chain of blocks the writers have, in the order of their sends.  A block that was taken from the
writers is open to no writer any more, and the count of its references is the number of its
messages that readers hold.
-/
import Efl.Eina.ThreadQueue.Basic
import Mathlib.Data.Finset.Card

namespace Eina.ThreadQueue

open List
open Function (update update_self update_of_ne)

variable {R : Type} {q q' : ThreadQueue R} {blk : Addr}

/-! ### Chains of blocks -/

/-- The blocks of a chain, one behind the other. -/
def Linked (next : Addr → Option Addr) : Option Addr → List Addr → Prop
  | p, [] => p = none
  | p, blk :: blks => p = some blk ∧ Linked next (next blk) blks

section Linked

variable {next : Addr → Option Addr} {p : Option Addr} {blks : List Addr}

theorem Linked.write (h : Linked next p blks) (hblk : blk ∉ blks) (v : Option Addr) :
    Linked (update next blk v) p blks := by
  induction blks generalizing p with
  | nil => exact h
  | cons b blks ih =>
    obtain ⟨hp, hrest⟩ := h
    rw [mem_cons, not_or] at hblk
    refine ⟨hp, ?_⟩
    rw [update_of_ne (symm hblk.1)]
    exact ih hrest hblk.2

/-- A block is linked behind the last one. -/
theorem Linked.append {b : Addr} (h : Linked next p (blks ++ [b])) (hnodup : (blks ++ [b]).Nodup)
    (hnew : blk ∉ blks ++ [b]) :
    Linked (update (update next blk none) b (some blk)) p (blks ++ [b, blk]) := by
  induction blks generalizing p with
  | nil =>
    have hne : blk ≠ b := by simpa using hnew
    refine ⟨h.1, ?_⟩
    rw [update_self]
    refine ⟨rfl, ?_⟩
    rw [update_of_ne hne, update_self]
    rfl
  | cons c blks ih =>
    rw [cons_append, nodup_cons] at hnodup
    rw [cons_append, mem_cons, not_or] at hnew
    refine ⟨h.1, ?_⟩
    have hcb : c ≠ b := by
      rintro rfl
      exact hnodup.1 (by simp)
    rw [update_of_ne hcb, update_of_ne (symm hnew.1)]
    exact ih h.2 hnodup.2 hnew.2

end Linked

/-! ### Messages in a block -/

/-- From `pos` on to `last` the memory of a block holds these messages. -/
def FillsIn (home : Nat → Addr) (offset asked : Nat → Int) (data : Addr → Int → Header) (blk : Addr)
    (last : Int) : Int → List Nat → Prop
  | pos, [] => pos = last
  | pos, id :: ids =>
    home id = blk ∧ offset id = pos ∧ data blk pos = ⟨roundUp (asked id), id⟩ ∧
      0 < roundUp (asked id) ∧
      FillsIn home offset asked data blk last (pos + roundUp (asked id)) ids

/-- The messages of a block between two positions. -/
def Fills (q : ThreadQueue R) (blk : Addr) (pos last : Int) (ids : List Nat) : Prop :=
  FillsIn q.home q.offset q.asked q.blkData blk last pos ids

variable {pos last : Int} {ids : List Nat}

theorem Fills.le (h : q.Fills blk pos last ids) :
    pos ≤ last ∧ (pos = last ↔ ids = []) := by
  induction ids generalizing pos with
  | nil =>
    have hpos : pos = last := h
    exact ⟨le_of_eq hpos, iff_of_true hpos rfl⟩
  | cons id ids ih =>
    obtain ⟨-, -, -, hsize, hrest⟩ := h
    obtain ⟨hle, -⟩ := ih hrest
    refine ⟨by omega, iff_of_false (by omega) (by simp)⟩

theorem Fills.home (h : q.Fills blk pos last ids) :
    ∀ id ∈ ids, q.home id = blk := by
  induction ids generalizing pos with
  | nil => simp
  | cons id ids ih =>
    obtain ⟨hhome, -, -, -, hrest⟩ := h
    intro i hi
    rcases mem_cons.mp hi with rfl | hi
    · exact hhome
    · exact ih hrest i hi

theorem Fills.congr (h : q.Fills blk pos last ids)
    (hhome : ∀ id ∈ ids, q'.home id = q.home id ∧ q'.offset id = q.offset id ∧ q'.asked id =
      q.asked id)
    (hdata : ∀ x < last, q'.blkData blk x = q.blkData blk x) : q'.Fills blk pos last ids := by
  induction ids generalizing pos with
  | nil => exact h
  | cons id ids ih =>
    obtain ⟨h1, h2, h3, h4, hrest⟩ := h
    obtain ⟨e1, e2, e3⟩ := hhome id mem_cons_self
    have hlast := (Fills.le hrest).1
    unfold Fills FillsIn
    rw [e1, e2, e3, hdata pos (by omega)]
    exact ⟨h1, h2, h3, h4, ih hrest fun i hi => hhome i (mem_cons_of_mem _ hi)⟩

theorem Fills.append (h : q.Fills blk pos last ids) (id : Nat) (hhome : q.home id = blk)
    (hoffset : q.offset id = last) (hdata : q.blkData blk last = ⟨roundUp (q.asked id), id⟩)
    (hsize : 0 < roundUp (q.asked id)) :
    q.Fills blk pos (last + roundUp (q.asked id)) (ids ++ [id]) := by
  induction ids generalizing pos with
  | nil =>
    obtain rfl : pos = last := h
    exact ⟨hhome, hoffset, hdata, hsize, rfl⟩
  | cons i ids ih =>
    obtain ⟨h1, h2, h3, h4, hrest⟩ := h
    exact ⟨h1, h2, h3, h4, ih hrest⟩

/-! ### Who uses a block -/

/-- The block was made and not given back yet. -/
def Used (q : ThreadQueue R) (blk : Addr) : Prop := q.freed blk < q.made blk

/-- Its writer has not passed the message to `eina_thread_queue_send_done`. -/
def Phase.isOpen : Phase → Bool
  | .locking | .writing => true
  | .releasing | .waking | .sent => false

def Fate.isHeld : Fate R → Bool
  | .held _ => true
  | .unread | .passed => false

/-- The message is one of the references of its block. -/
def counts (q : ThreadQueue R) (id : Nat) : Bool := (q.phase id).isOpen || (q.fate id).isHeld

/-- The references of a block. -/
def users (q : ThreadQueue R) (blk : Addr) : Finset Nat :=
  (Finset.range q.sends).filter fun id => q.home id = blk ∧ q.counts id = true

theorem mem_users {id : Nat} :
    id ∈ q.users blk ↔ id < q.sends ∧ q.home id = blk ∧ q.counts id = true := by
  rw [users, Finset.mem_filter, Finset.mem_range]

/-- The reader is about to give the block back. -/
def Finishing (q : ThreadQueue R) (r : R) (blk : Addr) : Prop :=
  q.reader r = .freeing blk ∨ q.reader r = .dropped blk 0 ∧ q.blkLast blk ≤ q.blkFirst blk

/-! ### The invariant -/

/--
The invariant.  The first `k` messages were fetched; `front` are those that are left in the block
that is read, and `parts` the blocks of the writers with their messages.
-/
structure Inv (q : ThreadQueue R) (k : Nat) (front : List Nat) (parts : List (Addr × List Nat)) :
    Prop where
  fetched : q.fetched.filterMap id = List.range k
  le : k ≤ q.sends
  order : front ++ parts.flatMap Prod.snd = List.range' k (q.sends - k)
  unread : ∀ i, q.fate i = .unread ↔ k ≤ i ∧ i < q.sends
  later : ∀ i, q.sends ≤ i → q.phase i = .sent ∧ q.fate i = .passed
  -- the blocks of the writers
  linked : Linked q.blkNext q.data (parts.map Prod.fst)
  last : q.last = (parts.map Prod.fst).getLast?
  nodup : (parts.map Prod.fst).Nodup
  part : ∀ p ∈ parts, q.Used p.1 ∧ q.blkFirst p.1 = 0 ∧ q.Fills p.1 0 (q.blkLast p.1) p.2
  -- the block that is read
  read : ∀ blk, q.read = some blk → q.Used blk ∧ blk ∉ parts.map Prod.fst ∧
    q.Fills blk (q.blkFirst blk) (q.blkLast blk) front ∧ front ≠ []
  noRead : q.read = none → front = []
  -- all blocks
  bounds : ∀ blk, q.Used blk → 0 ≤ q.blkFirst blk ∧ q.blkFirst blk ≤ q.blkLast blk ∧
    q.blkLast blk ≤ q.blkSize blk ∧ q.blkSize blk < 2147483648
  ended : ∀ blk, q.Used blk → blk ∉ parts.map Prod.fst → q.read ≠ some blk →
    q.blkFirst blk = q.blkLast blk
  balance : ∀ blk, q.freed blk ≤ q.made blk ∧ q.made blk ≤ q.freed blk + 1
  pool : q.blockPool.Nodup ∧ ∀ blk ∈ q.blockPool, ¬q.Used blk ∧ q.blkSize blk = minSize
  -- the references
  refs : ∀ blk, q.Used blk → q.ref blk = (q.users blk).card
  held : ∀ i r, q.fate i = .held r → q.home i ∉ parts.map Prod.fst
  early : ∀ i, (q.phase i).isOpen = true → q.fate i = .unread ∧ q.home i ∈ parts.map Prod.fst
  -- the locks
  locked : ∀ blk, q.locked blk = true ↔
    ∃ i, q.home i = blk ∧ (q.phase i = .writing ∨ q.phase i = .releasing)
  alone : ∀ i j, q.home i = q.home j → q.phase i = .releasing →
    q.phase j = .writing ∨ q.phase j = .releasing → j = i
  first : ∀ i j, q.home i = q.home j → q.phase i = .locking → q.phase j ≠ .writing
  gone : ∀ blk, ¬q.Used blk → blk ∉ q.blockPool → q.locked blk = false
  locking : ∀ i, q.phase i = .locking → q.lockWrite = true ∧
    (∀ j, q.phase j = .locking → j = i) ∧ ∀ r poll blk, q.reader r ≠ .waiting poll blk
  waiting : ∀ r poll blk, q.reader r = .waiting poll blk → q.lockWrite = true ∧
    q.data = some blk ∧ q.read = none ∧
    ∀ r' poll' blk', q.reader r' = .waiting poll' blk' → r' = r
  -- the ends of blocks
  finishing : ∀ r blk, q.Finishing r blk → q.Used blk ∧ blk ∉ parts.map Prod.fst ∧
    q.read ≠ some blk ∧ q.users blk = ∅ ∧ ∀ r', q.Finishing r' blk → r' = r
  stale : ∀ r blk, q.reader r = .dropped blk 0 → q.blkFirst blk < q.blkLast blk →
    q.Used blk ∧ q.read = some blk
  kept : ∀ blk, q.Used blk → blk ∈ parts.map Prod.fst ∨ q.read = some blk ∨
    (q.users blk).Nonempty ∨ ∃ r, q.Finishing r blk
  -- the memory of the messages
  inside : ∀ i, q.fate i ≠ .passed → q.Used (q.home i) ∧ 0 ≤ q.offset i ∧
    q.offset i + roundUp (q.asked i) ≤ q.blkLast (q.home i) ∧ q.asked i ≤ roundUp (q.asked i)
  apart : ∀ i j, i < j → q.fate i ≠ .passed → q.fate j ≠ .passed → q.home i = q.home j →
    q.offset i + roundUp (q.asked i) ≤ q.offset j

/-- Between two steps every block of the writers has a message. -/
structure Between (q : ThreadQueue R) (k : Nat) (front : List Nat)
    (parts : List (Addr × List Nat)) : Prop extends Inv q k front parts where
  filled : ∀ p ∈ parts, p.2 ≠ []

variable {k : Nat} {front : List Nat} {parts : List (Addr × List Nat)}

section Inv

variable (h : Inv q k front parts)

include h

variable {i : Nat} {b : Addr} {r : R}

theorem Inv.lt_of_counts (hi : q.counts i = true) : i < q.sends := by
  by_contra hnot
  obtain ⟨hphase, hfate⟩ := h.later i (Nat.le_of_not_lt hnot)
  rw [counts, hphase, hfate] at hi
  simp [Phase.isOpen, Fate.isHeld] at hi

theorem Inv.users_of_counts (hi : q.counts i = true) : i ∈ q.users (q.home i) :=
  mem_users.mpr ⟨h.lt_of_counts hi, rfl, hi⟩

theorem Inv.users_of_open (hi : (q.phase i).isOpen = true) : i ∈ q.users (q.home i) :=
  h.users_of_counts (Bool.or_eq_true_iff.mpr (.inl hi))

theorem Inv.users_of_held (hi : q.fate i = .held r) :
    i ∈ q.users (q.home i) := by
  refine h.users_of_counts (Bool.or_eq_true_iff.mpr (.inr ?_))
  rw [hi]
  rfl

theorem Inv.used_of_counts (hi : q.counts i = true) : q.Used (q.home i) := by
  refine (h.inside i ?_).1
  rcases Bool.or_eq_true_iff.mp hi with hopen | hheld
  · rw [(h.early i hopen).1]
    simp
  intro hpassed
  rw [hpassed] at hheld
  simp [Fate.isHeld] at hheld

theorem Inv.part_used (hb : b ∈ parts.map Prod.fst) : q.Used b ∧ q.blkFirst b = 0 := by
  obtain ⟨p, hp, rfl⟩ := mem_map.mp hb
  exact ⟨(h.part p hp).1, (h.part p hp).2.1⟩

theorem Inv.nowait (hlock : q.lockWrite = false) (r : R) (poll : Bool) (b : Addr) :
    q.reader r ≠ .waiting poll b := by
  intro hr
  rw [(h.waiting r poll b hr).1] at hlock
  simp at hlock

theorem Inv.kept_of (hb : q.Used b) {F : R → Prop} (hF : ∀ r, q.Finishing r b → F r) :
    b ∈ parts.map Prod.fst ∨ q.read = some b ∨ (q.users b).Nonempty ∨ ∃ r, F r :=
  (h.kept b hb).imp_right (Or.imp_right (Or.imp_right fun ⟨r, hr⟩ => ⟨r, hF r hr⟩))

theorem Inv.not_dropped (hread : q.read ≠ some blk)
    (hblk : blk ∈ parts.map Prod.fst ∨ ¬q.Used blk) : q.reader r ≠ .dropped blk 0 := by
  intro hr
  by_cases hfirst : q.blkFirst blk < q.blkLast blk
  · exact hread (h.stale r blk hr hfirst).2
  obtain ⟨hused, hnot, -⟩ := h.finishing r blk (.inr ⟨hr, not_lt.mp hfirst⟩)
  rcases hblk with hin | hunused
  · exact hnot hin
  · exact hunused hused

end Inv

/-! ### Changes of the references -/

variable {i : Nat}

theorem users_same (hsends : q'.sends = q.sends) (hhome : q'.home = q.home)
    (hcounts : ∀ j, q'.counts j = q.counts j) (blk : Addr) : q'.users blk = q.users blk := by
  ext j
  rw [mem_users, mem_users, hsends, hhome, hcounts]

theorem users_erase (hsends : q'.sends = q.sends) (hhome : q'.home = q.home)
    (hother : ∀ j ≠ i, q'.counts j = q.counts j) (hoff : q'.counts i = false) (blk : Addr) :
    q'.users blk = (q.users blk).erase i := by
  ext j
  rw [Finset.mem_erase, mem_users, mem_users, hsends, hhome]
  by_cases hj : j = i
  · rw [hj, hoff]
    simp
  · rw [hother j hj]
    simp [hj]

/-- A new message uses its block. -/
theorem users_insert (hsends : q'.sends = q.sends) (hhome : q'.home = q.home)
    (hother : ∀ j ≠ i, q'.counts j = q.counts j) (hon : q'.counts i = true)
    (hlt : i < q.sends) (blk : Addr) :
    q'.users blk = if q.home i = blk then insert i (q.users blk) else q.users blk := by
  ext j
  rw [mem_users, hsends, hhome]
  by_cases hj : j = i
  · rw [hj, hon]
    split
    · rename_i hhome
      simp [hlt, hhome]
    · rename_i hhome
      simp [mem_users, hhome]
  · rw [hother j hj]
    split
    · rw [Finset.mem_insert, mem_users]
      simp [hj]
    · rw [mem_users]

end Eina.ThreadQueue
