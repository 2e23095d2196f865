/-
Giving back the blocks.

`_eina_thread_queue_msg_fetch_done` drops the reference and reads `first` after that, without a
lock.  Another reader that takes the last message in between moves `first` to the end, and the block
is given back under it.
-/
import Efl.Eina.ThreadQueue.Fetch
import Efl.Lib.Runs
import Mathlib.Data.Fintype.Basic

namespace Eina.ThreadQueue

open List
open Function (update update_self update_of_ne)

variable {R : Type} {q q' : ThreadQueue R} {blk : Addr} {k : Nat} {front : List Nat}
  {parts : List (Addr × List Nat)}

/--
The blocks are given back as they should be: once each time they were made, not while a reader holds
a message of theirs, and not later than with the last message.
-/
structure Returns (q : ThreadQueue R) : Prop where
  once : ∀ blk, q.freed blk ≤ q.made blk ∧ q.made blk ≤ q.freed blk + 1
  held : ∀ i r, q.fate i = .held r → q.Used (q.home i)
  kept : ∀ blk, q.Used blk → (∃ i, q.home i = blk ∧ q.fate i ≠ .passed) ∨ ∃ r, q.Finishing r blk

theorem Inv.queued_unread (h : Inv q k front parts) {i : Nat}
    (hi : i ∈ front ++ parts.flatMap Prod.snd) : q.fate i = .unread := by
  rw [h.order, mem_range'_1] at hi
  exact (h.unread i).mpr (by omega)

theorem Inv.queued_in (h : Inv q k front parts) {pos last : Int} {ids : List Nat}
    (hfills : q.Fills blk pos last ids) (hne : ids ≠ [])
    (hids : ids ⊆ front ++ parts.flatMap Prod.snd) : ∃ i, q.home i = blk ∧ q.fate i ≠ .passed := by
  obtain ⟨i, hi⟩ := exists_mem_of_ne_nil ids hne
  refine ⟨i, hfills.home i hi, ?_⟩
  rw [h.queued_unread (hids hi)]
  simp

theorem Between.returns (h : Between q k front parts) : q.Returns := by
  refine ⟨h.balance, fun i r hi => ?_, fun blk hblk => ?_⟩
  · exact h.toInv.used_of_counts (mem_users.mp (h.toInv.users_of_held hi)).2.2
  rcases h.kept blk hblk with hin | hread | ⟨i, hi⟩ | hfinish
  · obtain ⟨p, hp, rfl⟩ := mem_map.mp hin
    obtain ⟨-, -, hfills⟩ := h.part p hp
    refine .inl (h.toInv.queued_in hfills (h.filled p hp) fun i hi => ?_)
    exact mem_append_right _ (mem_flatMap.mpr ⟨p, hp, hi⟩)
  · obtain ⟨-, -, hfills, hne⟩ := h.read blk hread
    exact .inl (h.toInv.queued_in hfills hne fun i hi => mem_append_left _ hi)
  · obtain ⟨-, hhome, hcounts⟩ := mem_users.mp hi
    refine .inl ⟨i, hhome, fun hpassed => ?_⟩
    rcases Bool.or_eq_true_iff.mp hcounts with hopen | hheld
    · rw [(h.early i hopen).1] at hpassed
      simp at hpassed
    · rw [hpassed] at hheld
      simp [Fate.isHeld] at hheld
  · exact .inr hfinish

section

variable [DecidableEq R]

/-! ### Runs -/

theorem run_between {memory : Addr → Int → Header} {pool : List Addr} (hpool : pool.Nodup)
    {ops : List (Op R)} (htime : Runs.Obeys (fun q op => op.InTime q) step (new memory pool) ops)
    (hrun : ops.foldlM step (new memory pool) = some q) :
    ∃ k front parts, Between q k front parts := by
  refine Runs.traces_invariant_of (I := fun q => ∃ k front parts, Between q k front parts)
    ?_ ops _ q _ (Runs.eachStep_of_obeys ops _ htime) ⟨0, [], [], between_new memory hpool⟩
    (Runs.traces_foldlM ops _ q hrun)
  rintro q op q' r ⟨k, front, parts, h⟩ hop hstep
  exact between_step h hop hstep

instance (q : ThreadQueue R) [Fintype R] : Decidable q.FetchInTime :=
  inferInstanceAs (Decidable (∀ blk ∈ q.read,
    q.blkLast blk ≤ q.blkFirst blk + (q.blkData blk (q.blkFirst blk)).size →
      ∀ r, q.reader r ≠ .dropped blk 0))

instance (q : ThreadQueue R) [Fintype R] : (op : Op R) → Decidable (op.InTime q)
  | .send size _ => inferInstanceAs (Decidable (size ≤ 2147483640))
  | .msgFetch _ => inferInstanceAs (Decidable q.FetchInTime)
  | .sendLock _ | .msgAllocDone _ | .sendRelease _ | .wake _ | .wait _ | .poll _ | .fetchLock _
  | .pollWait _ | .msgFetchDone _ _ | .doneFirst _ | .doneFree _ => isTrue trivial

end

end Eina.ThreadQueue

open Eina.ThreadQueue

variable {R : Type}

/-- **Blocks**: where the last message of a block is not fetched while another reader has brought
the count to zero and not yet looked at `first`, every block is given back once, and no message is
held in a block that was given back. -/
theorem Eina.ThreadQueue.run_returns [DecidableEq R] (memory : Addr → Int → Header)
    (pool : List Addr) (hpool : pool.Nodup) (ops : List (Op R)) (q : Eina.ThreadQueue R)
    (htime : Runs.Obeys (fun q op => op.InTime q) step (new memory pool) ops)
    (hrun : ops.foldlM step (new memory pool) = some q) : q.Returns := by
  obtain ⟨k, front, parts, h⟩ := run_between hpool htime hrun
  exact h.returns

/-- Two readers, where the second one fetches its message after the first one is done. -/
def Eina.ThreadQueue.inTurn : List (Op Bool) :=
  [.send 8 0, .sendLock 0, .msgAllocDone 0, .sendRelease 0, .wake 0,
    .send 8 1, .sendLock 1, .msgAllocDone 1, .sendRelease 1, .wake 1,
    .wait false, .msgFetch false, .wait true, .msgFetch true,
    .msgFetchDone false 0, .doneFirst false, .msgFetchDone true 1, .doneFirst true, .doneFree true]

theorem Eina.ThreadQueue.run_returns_inTurn :
    ∃ q, inTurn.foldlM step (new (fun _ _ => ⟨0, 0⟩) []) = some q ∧ q.Returns := by
  have hsome : (inTurn.foldlM step (new (fun _ _ => ⟨0, 0⟩) [])).isSome = true := by
    decide
  obtain ⟨q, hq⟩ := Option.isSome_iff_exists.mp hsome
  exact ⟨q, hq, run_returns _ _ List.nodup_nil inTurn q (by decide) hq⟩

/-- The second reader fetches the last message before the first one looks at `first`. -/
def Eina.ThreadQueue.tooEarly : List (Op Bool) :=
  [.send 8 0, .sendLock 0, .msgAllocDone 0, .sendRelease 0, .wake 0,
    .send 8 1, .sendLock 1, .msgAllocDone 1, .sendRelease 1, .wake 1,
    .wait false, .msgFetch false, .msgFetchDone false 0, .wait true, .msgFetch true,
    .doneFirst false, .doneFree false]

/-- The second reader is done with its message. -/
def Eina.ThreadQueue.tooEarlyDone : List (Op Bool) :=
  tooEarly ++ [Op.msgFetchDone true 1, Op.doneFirst true, Op.doneFree true]

/-- The block is given back while the second reader holds a message of it, and once more when that
one is passed. -/
theorem Eina.ThreadQueue.tooEarly_frees :
    (∃ q, tooEarly.foldlM step (new (fun _ _ => ⟨0, 0⟩) []) = some q ∧
      q.fate 1 = .held true ∧ ¬q.Used (q.home 1) ∧ ¬q.Returns) ∧
    ∃ q, tooEarlyDone.foldlM step (new (fun _ _ => ⟨0, 0⟩) []) = some q ∧
      q.made 0 = 1 ∧ q.freed 0 = 2 ∧ ¬q.Returns := by
  constructor
  · have hrun : (tooEarly.foldlM step (new (fun _ _ => ⟨0, 0⟩) [])).any (fun q =>
        decide (q.fate 1 = .held true ∧ ¬q.freed (q.home 1) < q.made (q.home 1))) = true := by
      decide
    obtain ⟨q, hq, hheld⟩ := (Option.any_eq_true _ _).mp hrun
    obtain ⟨hheld, hfreed⟩ := of_decide_eq_true hheld
    exact ⟨q, hq, hheld, hfreed, fun h => hfreed (h.held 1 true hheld)⟩
  · have hrun : (tooEarlyDone.foldlM step (new (fun _ _ => ⟨0, 0⟩) [])).any (fun q =>
        decide (q.made 0 = 1 ∧ q.freed 0 = 2)) = true := by
      decide
    obtain ⟨q, hq, htwice⟩ := (Option.any_eq_true _ _).mp hrun
    obtain ⟨hmade, hfreed⟩ := of_decide_eq_true htwice
    refine ⟨q, hq, hmade, hfreed, fun h => ?_⟩
    have honce := (h.once 0).1
    omega
