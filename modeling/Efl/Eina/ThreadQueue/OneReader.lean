/-
One reader, which waits for every message.

Every `eina_thread_queue_send_done` raises the semaphore once, and a reader fetches once for each
time it got through the semaphore.  So there is a message whenever the reader fetches.
-/
import Efl.Eina.ThreadQueue.Blocks

namespace Eina.ThreadQueue

open List Option
open Function (update update_self update_of_ne)

variable {R : Type} {q q' q'' : ThreadQueue R} {blk fresh : Addr} {size : Int} {k : Nat}
  {front : List Nat} {parts : List (Addr × List Nat)}

/-! ### What a send leaves alone -/

/-- Nothing but the blocks is different. -/
structure BlocksOnly (q q' : ThreadQueue R) : Prop where
  sends : q'.sends = q.sends
  phase : q'.phase = q.phase
  sem : q'.sem = q.sem
  reader : q'.reader = q.reader
  fetched : q'.fetched = q.fetched

theorem BlocksOnly.trans (h : BlocksOnly q q') (h' : BlocksOnly q' q'') : BlocksOnly q q'' where
  sends := h'.sends.trans h.sends
  phase := h'.phase.trans h.phase
  sem := h'.sem.trans h.sem
  reader := h'.reader.trans h.reader
  fetched := h'.fetched.trans h.fetched

theorem blockNew_only (hnew : q.blockNew size fresh = some (q', blk)) : BlocksOnly q q' := by
  unfold blockNew at hnew
  split at hnew
  · split at hnew
    · obtain ⟨rfl, -⟩ := Prod.mk.inj (some.inj hnew)
      exact ⟨rfl, rfl, rfl, rfl, rfl⟩
    split at hnew
    · obtain ⟨rfl, -⟩ := Prod.mk.inj (some.inj hnew)
      exact ⟨rfl, rfl, rfl, rfl, rfl⟩
    · simp at hnew
  · split at hnew
    · obtain ⟨rfl, -⟩ := Prod.mk.inj (some.inj hnew)
      exact ⟨rfl, rfl, rfl, rfl, rfl⟩
    · simp at hnew

theorem blockFirst_only (hfirst : q.blockFirst size fresh = some q') : BlocksOnly q q' := by
  unfold blockFirst at hfirst
  split at hfirst
  · obtain rfl := some.inj hfirst
    exact ⟨rfl, rfl, rfl, rfl, rfl⟩
  · obtain ⟨⟨q1, b⟩, hnew, rfl⟩ := map_eq_some_iff.mp hfirst
    exact (blockNew_only hnew).trans ⟨rfl, rfl, rfl, rfl, rfl⟩

theorem blockAppend_only {b : Addr} (happend : q.blockAppend blk size fresh = some (q', b)) :
    BlocksOnly q q' := by
  obtain ⟨⟨q1, b1⟩, hnew, heq⟩ := map_eq_some_iff.mp happend
  obtain ⟨rfl, -⟩ := Prod.mk.inj heq
  exact (blockNew_only hnew).trans ⟨rfl, rfl, rfl, rfl, rfl⟩

theorem msgAlloc_only {pos : Int} (halloc : q.msgAlloc size fresh = some (q', blk, pos)) :
    BlocksOnly q q' := by
  unfold msgAlloc at halloc
  dsimp only at halloc
  obtain ⟨q1, hfirst, halloc⟩ := bind_eq_some_iff.mp halloc
  obtain ⟨b, -, halloc⟩ := bind_eq_some_iff.mp halloc
  obtain ⟨⟨q2, b2⟩, hfull, halloc⟩ := bind_eq_some_iff.mp halloc
  have h2 : BlocksOnly q1 q2 := by
    split at hfull
    · exact blockAppend_only hfull
    · obtain ⟨rfl, -⟩ := Prod.mk.inj (some.inj hfull)
      exact ⟨rfl, rfl, rfl, rfl, rfl⟩
  refine (blockFirst_only hfirst).trans (h2.trans ?_)
  split at halloc
  · obtain ⟨rfl, -⟩ := Prod.mk.inj (some.inj halloc)
    exact ⟨rfl, rfl, rfl, rfl, rfl⟩
  obtain ⟨⟨q3, b3⟩, happend, heq⟩ := map_eq_some_iff.mp halloc
  obtain ⟨rfl, -⟩ := Prod.mk.inj heq
  exact (blockAppend_only happend).trans ⟨rfl, rfl, rfl, rfl, rfl⟩

theorem blockFree_only (hfree : q.blockFree blk = some q') : BlocksOnly q q' := by
  have hreal (hfree : q.blockRealFree blk = some q') : BlocksOnly q q' := by
    unfold blockRealFree at hfree
    split at hfree
    · simp at hfree
    · obtain rfl := some.inj hfree
      exact ⟨rfl, rfl, rfl, rfl, rfl⟩
  unfold blockFree at hfree
  split at hfree
  · split at hfree
    · obtain rfl := some.inj hfree
      exact ⟨rfl, rfl, rfl, rfl, rfl⟩
    · exact hreal hfree
  · exact hreal hfree

/-! ### The count of the messages -/

/-- The messages whose `eina_thread_queue_send_done` is over. -/
def sentOff (q : ThreadQueue R) : Finset Nat :=
  (Finset.range q.sends).filter fun i => q.phase i = .sent

theorem mem_sentOff {i : Nat} : i ∈ q.sentOff ↔ i < q.sends ∧ q.phase i = .sent := by
  rw [sentOff, Finset.mem_filter, Finset.mem_range]

theorem sentOff_send (hsend : q.send size fresh = some q') :
    q'.sentOff = q.sentOff ∧ q'.sem = q.sem ∧ q'.reader = q.reader ∧ q'.fetched = q.fetched := by
  unfold send at hsend
  split at hsend
  · simp at hsend
  obtain ⟨⟨q1, blk, pos⟩, halloc, rfl⟩ := map_eq_some_iff.mp hsend
  have hsame := msgAlloc_only halloc
  refine ⟨?_, hsame.sem, hsame.reader, hsame.fetched⟩
  ext i
  rw [mem_sentOff, mem_sentOff]
  unfold place
  dsimp only
  rw [hsame.sends, hsame.phase]
  by_cases hi : i = q.sends
  · rw [hi]
    refine iff_of_false ?_ (by simp)
    rintro ⟨-, hsent⟩
    split at hsent
    · simp at hsent
    · simp at hsent
  · rw [update_of_ne hi]
    exact and_congr_left fun _ => by omega

theorem sentOff_update {i : Nat} {x : Phase} (hold : q.phase i ≠ .sent) (hnew : x ≠ .sent)
    (hsends : q'.sends = q.sends) (hphase : q'.phase = update q.phase i x) :
    q'.sentOff = q.sentOff := by
  ext j
  rw [mem_sentOff, mem_sentOff, hsends, hphase]
  refine and_congr_right fun _ => ?_
  by_cases hj : j = i
  · rw [hj, update_self]
    exact iff_of_false hnew hold
  · rw [update_of_ne hj]

/-- The reader got through the semaphore and is about to fetch. -/
def Reading.inWait : Reading → Nat
  | .fetching _ | .waiting _ _ => 1
  | .idle | .polled | .dropped _ _ | .freeing _ => 0

/-- The reader does not poll. -/
def Reading.waits : Reading → Bool
  | .fetching poll | .waiting poll _ => !poll
  | .polled => false
  | .idle | .dropped _ _ | .freeing _ => true

/-- Every message that was sent off was fetched, or the semaphore or the reader knows of it. -/
structure Counted (q : ThreadQueue Unit) (k : Nat) : Prop where
  fetched : q.fetched = (List.range k).map some
  sent : q.sentOff.card = k + q.sem + (q.reader ()).inWait
  waits : (q.reader ()).waits = true

/-- The operation is not `eina_thread_queue_poll`, and the size of a message can be rounded up. -/
def Op.waitsAndFits : Op R → Bool
  | .poll _ => false
  | .send size _ => size ≤ 2147483640
  | .sendLock _ | .msgAllocDone _ | .sendRelease _ | .wake _ | .wait _ | .msgFetch _ | .fetchLock _
  | .pollWait _ | .msgFetchDone _ _ | .doneFirst _ | .doneFree _ => true

section Counted

variable {q q' : ThreadQueue Unit} {i : Nat}

theorem Counted.keep (hc : Counted q k) (hsent : q'.sentOff = q.sentOff) (hsem : q'.sem = q.sem)
    (hfetched : q'.fetched = q.fetched)
    (hwait : (q'.reader ()).inWait = (q.reader ()).inWait) (hwaits : (q'.reader ()).waits = true) :
    Counted q' k := by
  refine ⟨hfetched.trans hc.fetched, ?_, hwaits⟩
  rw [hsent, hsem, hwait]
  exact hc.sent

theorem counted_send (hc : Counted q k) (hsend : q.send size fresh = some q') : Counted q' k := by
  obtain ⟨hsent, hsem, hreader, hfetched⟩ := sentOff_send hsend
  refine hc.keep hsent hsem hfetched (by rw [hreader]) ?_
  rw [hreader]
  exact hc.waits

theorem counted_sendLock (hc : Counted q k) (hstep : q.sendLock i = some q') : Counted q' k := by
  obtain ⟨hcond, ⟨⟩⟩ := ite_none_right_eq_some.mp hstep
  exact hc.keep (sentOff_update (by rw [hcond.1]; simp) (by simp) rfl rfl) rfl rfl rfl hc.waits

theorem counted_msgAllocDone (hc : Counted q k) (hstep : q.msgAllocDone i = some q') :
    Counted q' k := by
  obtain ⟨hphase, ⟨⟩⟩ := ite_none_right_eq_some.mp hstep
  refine hc.keep (sentOff_update (by rw [hphase]; simp) ?_ rfl rfl) rfl rfl rfl hc.waits
  split
  · simp
  · simp

theorem counted_sendRelease (hc : Counted q k) (hstep : q.sendRelease i = some q') :
    Counted q' k := by
  obtain ⟨hphase, ⟨⟩⟩ := ite_none_right_eq_some.mp hstep
  exact hc.keep (sentOff_update (by rw [hphase]; simp) (by simp) rfl rfl) rfl rfl rfl hc.waits

theorem counted_wake (h : Inv q k front parts) (hc : Counted q k) (hstep : q.wake i = some q') :
    Counted q' k := by
  obtain ⟨hphase, ⟨⟩⟩ := ite_none_right_eq_some.mp hstep
  have hlt : i < q.sends := by
    by_contra hnot
    rw [(h.later i (Nat.le_of_not_lt hnot)).1] at hphase
    simp at hphase
  have hold : i ∉ q.sentOff := by
    rw [mem_sentOff, hphase]
    simp
  have hinsert : ({ q with
      sem := q.sem + 1
      phase := update q.phase i .sent } : ThreadQueue Unit).sentOff = insert i q.sentOff := by
    ext j
    rw [Finset.mem_insert, mem_sentOff, mem_sentOff]
    dsimp only
    by_cases hj : j = i
    · rw [hj, update_self]
      exact iff_of_true ⟨hlt, rfl⟩ (.inl rfl)
    · simp [hj]
  refine ⟨hc.fetched, ?_, hc.waits⟩
  have hsent := hc.sent
  rw [hinsert, Finset.card_insert_of_notMem hold]
  dsimp only
  omega

theorem counted_wait (hc : Counted q k) (hstep : q.wait () = some q') : Counted q' k := by
  obtain ⟨hcond, ⟨⟩⟩ := ite_none_right_eq_some.mp hstep
  have hsent := hc.sent
  rw [hcond.1] at hsent
  refine ⟨hc.fetched, ?_, ?_⟩
  · show q.sentOff.card = k + (q.sem - 1) + (update q.reader () (.fetching false) ()).inWait
    rw [update_self, hsent]
    dsimp only [Reading.inWait]
    omega
  · rfl

theorem counted_fetches {poll : Bool} (hc : Counted q k) (hpoll : poll = false)
    (hwait : (q.reader ()).inWait = 1) (hfetch : Fetches q q' () poll k parts) :
    Counted q' (k + 1) := by
  obtain ⟨-, ⟨hsends, hphase, hsem⟩, hfetched, hreader⟩ := hfetch
  have hsame : q'.sentOff = q.sentOff := by
    ext j
    rw [mem_sentOff, mem_sentOff, hsends, hphase]
  have hsent := hc.sent
  rw [hpoll, if_neg Bool.false_ne_true] at hreader
  refine ⟨?_, ?_, ?_⟩
  · rw [hfetched, hc.fetched, range_succ, map_append]
    rfl
  · rw [hsame, hreader, update_self]
    dsimp only [Reading.inWait]
    omega
  · rw [hreader]
    rfl

/-- A fetch takes the message that is next. -/
theorem counted_msgFetch (h : Between q k front parts) (hc : Counted q k)
    (hstep : q.msgFetch () = some q') : ∃ k', Counted q' k' := by
  have hwaits := hc.waits
  have hsent := hc.sent
  have htime : q.FetchInTime := by
    intro blk _ _ r hr
    unfold msgFetch at hstep
    rw [hr] at hstep
    simp at hstep
  obtain ⟨poll, hr, hcases⟩ := msgFetch_spec h htime hstep
  rw [hr] at hwaits hsent
  have hpoll : poll = false := by simpa [Reading.waits] using hwaits
  have hwait : (q.reader ()).inWait = 1 := by rw [hr]; rfl
  rcases hcases with ⟨parts', hfetch⟩ | ⟨-, ⟨hsends, hphase, hsem⟩, hcases⟩
  · exact ⟨k + 1, counted_fetches hc hpoll hwait hfetch⟩
  have hsame : q'.sentOff = q.sentOff := by
    ext j
    rw [mem_sentOff, mem_sentOff, hsends, hphase]
  rcases hcases with ⟨hall, -, -⟩ | ⟨hfetched, blk, hreader⟩
  · -- all messages were fetched, and one more was sent off
    have hle : q.sentOff.card ≤ q.sends := by
      have hcard := Finset.card_filter_le (Finset.range q.sends) fun i => q.phase i = .sent
      rwa [Finset.card_range] at hcard
    dsimp only [Reading.inWait] at hsent
    omega
  · refine ⟨k, hc.keep hsame hsem hfetched ?_ ?_⟩
    · rw [hreader, hr]
      rfl
    · rw [hreader, hpoll]
      rfl

theorem counted_fetchLock (h : Between q k front parts) (hc : Counted q k)
    (hstep : q.fetchLock () = some q') : ∃ k', Counted q' k' := by
  have hwaits := hc.waits
  obtain ⟨poll, blk, parts', hr, hfetch⟩ := fetchLock_spec h hstep
  rw [hr] at hwaits
  have hpoll : poll = false := by simpa [Reading.waits] using hwaits
  exact ⟨k + 1, counted_fetches hc hpoll (by rw [hr]; rfl) hfetch⟩

theorem counted_msgFetchDone (hc : Counted q k) (hstep : q.msgFetchDone () i = some q') :
    Counted q' k := by
  obtain ⟨hcond, ⟨⟩⟩ := ite_none_right_eq_some.mp hstep
  refine hc.keep rfl rfl rfl ?_ ?_
  · rw [hcond.1]
    rfl
  · rfl

theorem counted_doneFirst (hc : Counted q k) (hstep : q.doneFirst () = some q') :
    Counted q' k := by
  unfold doneFirst at hstep
  split at hstep
  case h_2 => simp at hstep
  rename_i blk ref hr
  obtain rfl := some.inj hstep
  have hnext {x : Reading} (hx : x.inWait = 0 ∧ x.waits = true) :
      Counted { q with reader := update q.reader () x } k := by
    refine hc.keep rfl rfl rfl ?_ ?_
    · dsimp only
      rw [update_self, hr, hx.1]
      rfl
    · exact hx.2
  split
  · exact hnext ⟨rfl, rfl⟩
  · exact hnext ⟨rfl, rfl⟩

theorem counted_doneFree (hc : Counted q k) (hstep : q.doneFree () = some q') : Counted q' k := by
  unfold doneFree at hstep
  split at hstep
  case h_2 => simp at hstep
  rename_i blk hr
  obtain ⟨q1, hfree, rfl⟩ := map_eq_some_iff.mp hstep
  have hsame := blockFree_only hfree
  have hsent : q1.sentOff = q.sentOff := by
    ext j
    rw [mem_sentOff, mem_sentOff, hsame.sends, hsame.phase]
  refine hc.keep hsent hsame.sem hsame.fetched ?_ ?_
  · rw [hr]
    rfl
  · rfl

theorem Counted.unique {k' : Nat} (hc : Counted q k') (h : Inv q k front parts) : k' = k := by
  have hfetched := h.fetched
  rw [hc.fetched] at hfetched
  have hlen := congrArg length hfetched
  simpa using hlen

/-- **One step**, where the only reader waits for every message. -/
theorem counted_step (h : Between q k front parts) (hc : Counted q k) {op : Op Unit}
    (hop : op.waitsAndFits = true) (hstep : q.step op = some q') :
    ∃ k' front' parts', Between q' k' front' parts' ∧ Counted q' k' := by
  have htime : op.InTime q := by
    cases op with
    | send size fresh => exact of_decide_eq_true hop
    | msgFetch r =>
      intro blk _ _ r' hr'
      have hfetch : q.msgFetch r = some q' := hstep
      unfold msgFetch at hfetch
      rw [hr'] at hfetch
      simp at hfetch
    | _ => trivial
  obtain ⟨k', front', parts', h'⟩ := between_step h htime hstep
  suffices hcount : ∃ k'', Counted q' k'' by
    obtain ⟨k'', hc'⟩ := hcount
    obtain rfl := hc'.unique h'.toInv
    exact ⟨_, front', parts', h', hc'⟩
  cases op with
  | send size fresh =>
    rw [step] at hstep
    split at hstep
    · exact ⟨k, counted_send hc hstep⟩
    · simp at hstep
  | sendLock id => exact ⟨k, counted_sendLock hc hstep⟩
  | msgAllocDone id => exact ⟨k, counted_msgAllocDone hc hstep⟩
  | sendRelease id => exact ⟨k, counted_sendRelease hc hstep⟩
  | wake id => exact ⟨k, counted_wake h.toInv hc hstep⟩
  | wait r => exact ⟨k, counted_wait hc hstep⟩
  | poll r => simp [Op.waitsAndFits] at hop
  | msgFetch r => exact counted_msgFetch h hc hstep
  | fetchLock r => exact counted_fetchLock h hc hstep
  | pollWait r =>
    have hwaits := hc.waits
    rw [step, pollWait] at hstep
    split at hstep
    · rename_i hcond
      have hpolled : q.reader () = .polled := hcond.1
      rw [hpolled] at hwaits
      simp [Reading.waits] at hwaits
    · simp at hstep
  | msgFetchDone r id => exact ⟨k, counted_msgFetchDone hc hstep⟩
  | doneFirst r => exact ⟨k, counted_doneFirst hc hstep⟩
  | doneFree r => exact ⟨k, counted_doneFree hc hstep⟩

theorem counted_new (memory : Addr → Int → Header) (pool : List Addr) :
    Counted (new memory pool) 0 := ⟨rfl, rfl, rfl⟩

/-! ### Runs -/

/--
What the messages are promised: the reader gets them in the order of the sends, each of them once
and never `NULL`; a message that was sent off was fetched, or the semaphore or the reader knows of
it; a message that is fetched was given up by its own `eina_thread_queue_send_done`; and the memory
of those that were not passed yet lies inside their blocks, one beside the other.
-/
structure Delivers (q : ThreadQueue Unit) : Prop where
  order : q.fetched = (List.range q.fetched.length).map some
  unread : ∀ i, q.fate i = .unread ↔ q.fetched.length ≤ i ∧ i < q.sends
  sent : q.sentOff.card = q.fetched.length + q.sem + (q.reader ()).inWait
  given : ∀ i, some i ∈ q.fetched → (q.phase i).isOpen = false
  inside : ∀ i, q.fate i ≠ .passed → q.Used (q.home i) ∧ 0 ≤ q.offset i ∧
    q.offset i + q.asked i ≤ q.blkSize (q.home i)
  apart : ∀ i j, i < j → q.fate i ≠ .passed → q.fate j ≠ .passed → q.home i = q.home j →
    q.offset i + q.asked i ≤ q.offset j

/-- What is counted right is delivered: in order, once, with its own size. -/
theorem Counted.delivers (h : Between q k front parts) (hc : Counted q k) : q.Delivers := by
  have hlen : q.fetched.length = k := by
    rw [hc.fetched, length_map, length_range]
  refine ⟨?_, ?_, ?_, ?_, ?_, ?_⟩
  · rw [hlen]
    exact hc.fetched
  · rw [hlen]
    exact h.unread
  · rw [hlen]
    exact hc.sent
  · intro i hi
    rw [hc.fetched, List.mem_map] at hi
    obtain ⟨j, hj, heq⟩ := hi
    obtain rfl := some.inj heq
    by_contra hopen
    rw [Bool.not_eq_false] at hopen
    have hunread := (h.unread j).mp (h.early j hopen).1
    rw [mem_range] at hj
    omega
  · intro i hi
    obtain ⟨hused, hpos, hend, hasked⟩ := h.inside i hi
    have hbounds := h.bounds (q.home i) hused
    exact ⟨hused, hpos, by omega⟩
  · intro i j hij hi hj hhome
    have hasked := (h.inside i hi).2.2.2
    have hapart := h.apart i j hij hi hj hhome
    omega

end Counted

end Eina.ThreadQueue

open Eina.ThreadQueue

/-- **Messages**: where every size can be rounded up, the one reader, which waits for every message,
gets what it is promised. -/
theorem Eina.ThreadQueue.run_delivers (memory : Addr → Int → Header) (pool : List Addr)
    (hpool : pool.Nodup) (ops : List (Op Unit)) (q : Eina.ThreadQueue Unit)
    (hops : ∀ op ∈ ops, op.waitsAndFits = true)
    (hrun : ops.foldlM step (new memory pool) = some q) : q.Delivers := by
  have hok : Runs.EachStep (Runs.Steps step) (fun _ op => op.waitsAndFits = true)
      (new memory pool) ops := by
    intro before op after b rs hparts _
    refine hops op ?_
    rw [hparts]
    simp
  have hstart : ∃ k front parts, Between (new memory pool : Eina.ThreadQueue Unit) k front parts ∧
      Counted (new memory pool) k := ⟨0, [], [], between_new memory hpool, counted_new memory pool⟩
  obtain ⟨k, front, parts, h, hc⟩ := Runs.traces_invariant_of
    (I := fun q => ∃ k front parts, Between q k front parts ∧ Counted q k)
    (fun q op q' _ ⟨k, front, parts, h, hc⟩ hop hstep => counted_step h hc hop hstep)
    ops _ q _ hok hstart (Runs.traces_foldlM ops _ q hrun)
  exact hc.delivers h

/-- Two messages, one after the other. -/
def Eina.ThreadQueue.twoMessages : List (Op Unit) :=
  [.send 8 0, .sendLock 0, .send 5000 1, .sendLock 1, .msgAllocDone 1, .sendRelease 1, .wake 1,
    .wait (), .msgFetch (), .msgAllocDone 0, .sendRelease 0, .wake 0, .fetchLock (),
    .msgFetchDone () 0, .doneFirst (), .doneFree (),
    .wait (), .msgFetch (), .msgFetchDone () 1, .doneFirst (), .doneFree ()]

theorem Eina.ThreadQueue.run_delivers_twoMessages :
    ∃ q, twoMessages.foldlM step (new (fun _ _ => ⟨0, 0⟩) []) = some q ∧ q.Delivers := by
  have hsome : (twoMessages.foldlM step (new (fun _ _ => ⟨0, 0⟩) [])).isSome = true := by
    decide
  obtain ⟨q, hq⟩ := Option.isSome_iff_exists.mp hsome
  exact ⟨q, hq, run_delivers _ _ List.nodup_nil twoMessages q (by decide) hq⟩

/-- The size of the message overflows when it is rounded up, and its block is far too small. -/
theorem Eina.ThreadQueue.send_intMax : ∃ q : Eina.ThreadQueue Unit,
    [Op.send 2147483647 0].foldlM step (new (fun _ _ => ⟨0, 0⟩) []) = some q ∧
      q.fate 0 = .unread ∧ q.asked 0 = 2147483647 ∧ q.blkSize (q.home 0) = 4028 ∧
      ¬q.Delivers := by
  have hrun : ([Op.send 2147483647 0].foldlM step (new (fun _ _ => ⟨0, 0⟩) [])).any
      (fun q : Eina.ThreadQueue Unit => decide (q.fate 0 = .unread ∧ q.asked 0 = 2147483647 ∧
        q.blkSize (q.home 0) = 4028)) = true := by
    decide
  obtain ⟨q, hq, hfacts⟩ := (Option.any_eq_true _ _).mp hrun
  obtain ⟨hfate, hasked, hsize⟩ := of_decide_eq_true hfacts
  refine ⟨q, hq, hfate, hasked, hsize, fun h => ?_⟩
  have hinside := h.inside 0 (by rw [hfate]; simp)
  omega
