/-
Fetching a message, and all the steps of a thread queue.

A fetch finds the block that is read, or takes the first one from the writers, or finds nothing.
-/
import Efl.Eina.ThreadQueue.Writers
import Efl.Eina.ThreadQueue.Readers

namespace Eina.ThreadQueue

open Option
open Function (update update_self update_of_ne update_idem)

variable {R : Type} [DecidableEq R] {q q' : ThreadQueue R} {blk : Addr} {k : Nat}
  {front : List Nat} {parts : List (Addr × List Nat)} {r : R}

/-! ### The whole fetch -/

/-- What is left alone while messages are fetched. -/
def SameSends (q q' : ThreadQueue R) : Prop :=
  q'.sends = q.sends ∧ q'.phase = q.phase ∧ q'.sem = q.sem

/-- The next message was fetched. -/
def Fetches (q q' : ThreadQueue R) (r : R) (poll : Bool) (k : Nat)
    (parts : List (Addr × List Nat)) : Prop :=
  (∃ front', Between q' (k + 1) front' parts) ∧ SameSends q q' ∧
    q'.fetched = q.fetched ++ [some k] ∧
    q'.reader = update q.reader r (if poll then .polled else .idle)

omit [DecidableEq R] in
theorem Inv.data_part (h : Inv q k front parts) (hdata : q.data = some blk) :
    blk ∈ parts.map Prod.fst := by
  have hlinked := h.linked
  rw [hdata] at hlinked
  cases hblks : parts.map Prod.fst with
  | nil =>
    rw [hblks] at hlinked
    simp [Linked] at hlinked
  | cons b blks =>
    rw [hblks] at hlinked
    rw [some.inj hlinked.1]
    exact List.mem_cons_self

theorem fetches_detach (h : Between q k front parts) (hread : q.read = none)
    (hdata : q.data = some blk) (hnone : q.users blk = ∅)
    (hnowait : ∀ r poll b, q.reader r ≠ .waiting poll b) {poll : Bool}
    (hr : q.reader r = .fetching poll) :
    ∃ parts', Fetches q ((q.detach blk).take r poll blk) r poll k parts' := by
  have hin := h.toInv.data_part hdata
  obtain ⟨front', parts', hdetach, -⟩ := between_detach h hread hdata hnone hnowait
  have hcalm : ∀ b, ¬(q.detach blk).Finishing r b := by
    intro b
    exact not_finishing (q := q) (by simp [hr]) (by simp [hr]) b
  have htime (r' : R) : (q.detach blk).reader r' ≠ .dropped blk 0 := by
    refine h.toInv.not_dropped ?_ (.inl hin)
    rw [hread]
    simp
  obtain ⟨front'', htake, hfetched⟩ := between_take hdetach rfl poll hcalm fun _ => htime
  exact ⟨parts', ⟨front'', htake⟩, ⟨rfl, rfl, rfl⟩, hfetched, rfl⟩

/-- Where the block that is read has one message left, no reader has brought its count to zero
without having looked at `first`. -/
def FetchInTime (q : ThreadQueue R) : Prop :=
  ∀ blk ∈ q.read, q.blkLast blk ≤ q.blkFirst blk + (q.blkData blk (q.blkFirst blk)).size →
    ∀ r, q.reader r ≠ .dropped blk 0

/-- A fetch takes the next message, finds none, or waits. -/
theorem msgFetch_spec (h : Between q k front parts) (htime : q.FetchInTime)
    (hstep : q.msgFetch r = some q') : ∃ poll, q.reader r = .fetching poll ∧
      ((∃ parts', Fetches q q' r poll k parts') ∨
        Between q' k front parts ∧ SameSends q q' ∧
          (k = q.sends ∧ q'.reader = update q.reader r .idle ∧ q'.fetched = q.fetched ++ [none] ∨
            q'.fetched = q.fetched ∧ ∃ blk, q'.reader = update q.reader r
              (.waiting poll blk))) := by
  unfold msgFetch at hstep
  split at hstep
  case h_3 => simp at hstep
  · rename_i poll blk hr hlock hread
    obtain rfl := some.inj hstep
    have hcalm := not_finishing (q := q) (r := r) (by simp [hr]) (by simp [hr])
    obtain ⟨front', htake, hfetched⟩ := between_take h hread poll hcalm (htime blk hread)
    exact ⟨poll, hr, .inl ⟨parts, ⟨front', htake⟩, ⟨rfl, rfl, rfl⟩, hfetched, rfl⟩⟩
  · rename_i poll hr hlock hread
    refine ⟨poll, hr, ?_⟩
    split at hstep
    · simp at hstep
    rename_i hwrite
    rw [Bool.not_eq_true] at hwrite
    split at hstep
    · -- there is no block
      rename_i hdata
      obtain rfl := some.inj hstep
      have hcalm := not_finishing (q := q) (r := r) (by simp [hr]) (by simp [hr])
      have hfetched : (q.fetched ++ [none]).filterMap id = q.fetched.filterMap id := by
        simp
      have hidle := inv_calm (x := .idle) h.toInv hcalm (by simp) (by simp) (by simp) q.sem hfetched
      refine .inr ⟨⟨hidle, h.filled⟩, ⟨rfl, rfl, rfl⟩, .inl ⟨?_, rfl, rfl⟩⟩
      have hlinked := h.linked
      have horder := h.order
      rw [hdata] at hlinked
      rw [h.noRead hread] at horder
      cases parts with
      | nil =>
        have hlen := congrArg List.length horder
        have hle := h.le
        simp at hlen
        omega
      | cons p parts => exact absurd hlinked.1 (by simp)
    · rename_i blk hdata
      have hin := h.toInv.data_part hdata
      split at hstep
      · -- somebody writes in it
        obtain rfl := some.inj hstep
        have hwaiting := inv_waiting h.toInv hr hwrite hread hdata
        exact .inr ⟨⟨hwaiting, h.filled⟩, ⟨rfl, rfl, rfl⟩, .inr ⟨rfl, blk, rfl⟩⟩
      · rename_i href
        obtain rfl := some.inj hstep
        have hnone : q.users blk = ∅ := by
          rw [h.refs blk (h.toInv.part_used hin).1] at href
          rw [← Finset.card_eq_zero]
          omega
        exact .inl (fetches_detach h hread hdata hnone (h.nowait hwrite) hr)

theorem fetchLock_spec (h : Between q k front parts) (hstep : q.fetchLock r = some q') :
    ∃ poll blk parts', q.reader r = .waiting poll blk ∧ Fetches q q' r poll k parts' := by
  unfold fetchLock at hstep
  split at hstep
  case h_2 => simp at hstep
  rename_i poll blk hr
  split at hstep
  · simp at hstep
  rename_i hlocked
  obtain rfl := some.inj hstep
  obtain ⟨-, hdata, hread, hone⟩ := h.waiting r poll blk hr
  have hin := h.toInv.data_part hdata
  have hnone : q.users blk = ∅ := by
    refine Finset.eq_empty_of_forall_notMem fun i hi => ?_
    obtain ⟨-, hhome, hcounts⟩ := mem_users.mp hi
    cases hphase : q.phase i with
    | locking => exact (h.locking i hphase).2.2 r poll blk hr
    | writing => exact hlocked ((h.locked blk).mpr ⟨i, hhome, .inl hphase⟩)
    | releasing => exact hlocked ((h.locked blk).mpr ⟨i, hhome, .inr hphase⟩)
    | waking | sent =>
      rw [counts, hphase] at hcounts
      cases hfate : q.fate i with
      | held r' => exact h.held i r' hfate (hhome ▸ hin)
      | unread | passed =>
        rw [hfate] at hcounts
        simp [Phase.isOpen, Fate.isHeld] at hcounts
  have hwaited := inv_waited h.toInv hr
  have hnowait (r' : R) (p : Bool) (b : Addr) :
      update q.reader r (.fetching poll) r' ≠ .waiting p b := by
    intro hr'
    rw [reader_update] at hr'
    split at hr'
    · simp at hr'
    · rename_i hne
      exact hne (hone r' p b hr')
  obtain ⟨parts', ⟨front', hfetch⟩, -, hfetched, -⟩ :=
    fetches_detach ⟨hwaited, h.filled⟩ hread hdata hnone hnowait (update_self ..)
  refine ⟨poll, blk, parts', hr, ⟨front', ?_⟩, ⟨rfl, rfl, rfl⟩, hfetched, rfl⟩
  unfold take detach at hfetch ⊢
  rw [update_idem] at hfetch
  exact hfetch

/-! ### Every step -/

/-- The condition on a step: the size of a message can be rounded up, and the last message of a
block is not fetched at the wrong moment. -/
def Op.InTime (q : ThreadQueue R) : Op R → Prop
  | .send size _ => size ≤ 2147483640
  | .msgFetch _ => q.FetchInTime
  | .sendLock _ | .msgAllocDone _ | .sendRelease _ | .wake _ | .wait _ | .poll _ | .fetchLock _
  | .pollWait _ | .msgFetchDone _ _ | .doneFirst _ | .doneFree _ => True

/-- **One step.** -/
theorem between_step (h : Between q k front parts) {op : Op R} (htime : op.InTime q)
    (hstep : q.step op = some q') : ∃ k' front' parts', Between q' k' front' parts' := by
  have hkeep (h' : Inv q' k front parts) : ∃ k' front' parts', Between q' k' front' parts' :=
    ⟨k, front, parts, h', h.filled⟩
  cases op with
  | send size fresh =>
    rw [step] at hstep
    split at hstep
    case isFalse => simp at hstep
    rename_i hsize
    obtain ⟨parts', h'⟩ := between_send h hsize.1 htime hstep
    exact ⟨k, front, parts', h'⟩
  | sendLock id => exact hkeep (inv_sendLock h.toInv hstep)
  | msgAllocDone id => exact hkeep (inv_msgAllocDone h.toInv hstep)
  | sendRelease id => exact hkeep (inv_sendRelease h.toInv hstep)
  | wake id => exact hkeep (inv_wake h.toInv hstep)
  | wait r => exact hkeep (inv_wait h.toInv hstep)
  | poll r => exact hkeep (inv_poll h.toInv hstep)
  | msgFetch r =>
    obtain ⟨-, -, ⟨parts', ⟨front', h'⟩, -⟩ | ⟨h', -⟩⟩ := msgFetch_spec h htime hstep
    · exact ⟨k + 1, front', parts', h'⟩
    · exact ⟨k, front, parts, h'⟩
  | fetchLock r =>
    obtain ⟨-, -, parts', -, ⟨front', h'⟩, -⟩ := fetchLock_spec h hstep
    exact ⟨k + 1, front', parts', h'⟩
  | pollWait r => exact hkeep (inv_pollWait h.toInv hstep)
  | msgFetchDone r id => exact hkeep (inv_msgFetchDone h.toInv hstep)
  | doneFirst r => exact hkeep (inv_doneFirst h.toInv hstep)
  | doneFree r => exact hkeep (inv_doneFree h.toInv hstep)

omit [DecidableEq R] in
theorem between_new (memory : Addr → Int → Header) {pool : List Addr} (hpool : pool.Nodup) :
    Between (new memory pool : ThreadQueue R) 0 [] [] := by
  have hunused (b : Addr) : ¬(new memory pool : ThreadQueue R).Used b := lt_irrefl 0
  have hidle (r : R) (b : Addr) : ¬(new memory pool : ThreadQueue R).Finishing r b :=
    not_finishing (by simp [new]) (by simp [new]) b
  refine ⟨{
    fetched := rfl, le := le_refl 0, order := rfl, unread := ?_, later := ?_
    linked := rfl, last := rfl, nodup := List.nodup_nil, part := ?_, read := ?_
    noRead := fun _ => rfl, bounds := ?_, ended := ?_, balance := ?_, pool := ?_, refs := ?_
    held := ?_, early := ?_, locked := ?_, alone := ?_, first := ?_, gone := fun _ _ _ => rfl
    locking := ?_, waiting := ?_, finishing := ?_, stale := ?_, kept := ?_, inside := ?_
    apart := ?_ }, ?_⟩
  · intro i
    exact iff_of_false (by simp [new]) (by simp [new])
  · intro i _
    exact ⟨rfl, rfl⟩
  · simp
  · intro b hb
    simp [new] at hb
  · intro b hb
    exact absurd hb (hunused b)
  · intro b hb
    exact absurd hb (hunused b)
  · intro b
    exact ⟨le_refl 0, Nat.zero_le 1⟩
  · exact ⟨hpool, fun b _ => ⟨hunused b, rfl⟩⟩
  · intro b hb
    exact absurd hb (hunused b)
  · intro i r hi
    simp [new] at hi
  · intro i hi
    simp [new, Phase.isOpen] at hi
  · intro b
    exact iff_of_false (by simp [new]) (by simp [new])
  · intro i j _ hi
    simp [new] at hi
  · intro i j _ hi
    simp [new] at hi
  · intro i hi
    simp [new] at hi
  · intro r p b hr
    simp [new] at hr
  · intro r b hf
    exact absurd hf (hidle r b)
  · intro r b hr
    simp [new] at hr
  · intro b hb
    exact absurd hb (hunused b)
  · intro i hi
    exact absurd rfl hi
  · intro i j _ hi
    exact absurd rfl hi
  · simp

end Eina.ThreadQueue
