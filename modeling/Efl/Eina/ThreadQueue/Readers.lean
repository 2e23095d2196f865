/-
What the readers keep.

A reader takes the first block from the writers once nobody writes in it any more, and from then on
the block has only the references of readers.  The last message must not be taken out of a block
while another reader has brought the count to zero and not yet looked at `first`: then both would
give the block back.
-/
import Efl.Eina.ThreadQueue.Send

namespace Eina.ThreadQueue

open List Option
open Function (update update_self update_of_ne update_idem)

variable {R : Type} [DecidableEq R] {q q' : ThreadQueue R} {blk : Addr} {k i : Nat}
  {front ids : List Nat} {parts : List (Addr × List Nat)} {r : R} {x : Reading}
  {fetched : List (Option Nat)} {poll : Bool}

/-! ### A reader goes on -/

theorem reader_update (r' : R) : update q.reader r x r' = if r' = r then x else q.reader r' := by
  split
  · rename_i hr
    rw [hr, update_self]
  · rename_i hr
    rw [update_of_ne hr]

theorem Inv.locking_reader (h : Inv q k front parts) (hwait : ∀ poll b, x ≠ .waiting poll b)
    (hi : q.phase i = .locking) : q.lockWrite = true ∧ (∀ j, q.phase j = .locking → j = i) ∧
      ∀ r' poll b, update q.reader r x r' ≠ .waiting poll b := by
  obtain ⟨h1, h2, h3⟩ := h.locking i hi
  refine ⟨h1, h2, fun r' poll b hr' => ?_⟩
  rw [reader_update] at hr'
  split at hr'
  · exact hwait poll b hr'
  · exact h3 r' poll b hr'

theorem Inv.waiting_reader (h : Inv q k front parts) (hwait : ∀ poll b, x ≠ .waiting poll b)
    {r' : R} (hr' : update q.reader r x r' = .waiting poll blk) :
    q.lockWrite = true ∧ q.data = some blk ∧ q.read = none ∧
      ∀ l poll' b', update q.reader r x l = .waiting poll' b' → l = r' := by
  rw [reader_update] at hr'
  split at hr'
  · exact absurd hr' (hwait poll blk)
  obtain ⟨h1, h2, h3, h4⟩ := h.waiting r' poll blk hr'
  refine ⟨h1, h2, h3, fun l poll' b' hl => ?_⟩
  rw [reader_update] at hl
  split at hl
  · exact absurd hl (hwait poll' b')
  · exact h4 l poll' b' hl

theorem inv_reader (h : Inv q k front parts) (hwait : ∀ poll b, x ≠ .waiting poll b)
    (hdrop : ∀ b, x ≠ .dropped b 0) (hfree : ∀ b, x = .freeing b ↔ q.Finishing r b)
    (sem : Nat)
    (hfetched : fetched.filterMap id = q.fetched.filterMap id) :
    Inv { q with sem := sem, reader := update q.reader r x, fetched := fetched } k front parts := by
  have hfinish (r' : R) (b : Addr) : (update q.reader r x r' = .freeing b ∨
      update q.reader r x r' = .dropped b 0 ∧ q.blkLast b ≤ q.blkFirst b) ↔
      q.Finishing r' b := by
    by_cases hr : r' = r
    · rw [hr, update_self, ← hfree]
      exact or_iff_left fun hd => hdrop b hd.1
    · rw [update_of_ne hr]
      rfl
  refine { h with
    fetched := ?_, locking := ?_, waiting := ?_, finishing := ?_, stale := ?_, kept := ?_ }
  · rw [← h.fetched]
    exact hfetched
  · intro i hi
    exact h.locking_reader hwait hi
  · intro r' poll b hr'
    exact h.waiting_reader hwait hr'
  · intro r' b hf
    obtain ⟨h1, h2, h3, h4, h5⟩ := h.finishing r' b ((hfinish r' b).mp hf)
    refine ⟨h1, h2, h3, h4, fun l hl => h5 l ((hfinish l b).mp hl)⟩
  · intro r' b hr' hlt
    dsimp only at hr'
    rw [reader_update] at hr'
    split at hr'
    · exact absurd hr' (hdrop b)
    · exact h.stale r' b hr' hlt
  · intro b hb
    exact h.kept_of hb fun r' => (hfinish r' b).mpr

theorem inv_calm (h : Inv q k front parts) (hold : ∀ b, ¬q.Finishing r b)
    (hwait : ∀ poll b, x ≠ .waiting poll b) (hdrop : ∀ b, x ≠ .dropped b 0)
    (hfree : ∀ b, x ≠ .freeing b) (sem : Nat)
    (hfetched : fetched.filterMap id = q.fetched.filterMap id) :
    Inv { q with sem := sem, reader := update q.reader r x, fetched := fetched } k front parts := by
  refine inv_reader h hwait hdrop (fun b => ?_) sem hfetched
  exact iff_of_false (hfree b) (hold b)

omit [DecidableEq R] in
theorem not_finishing (hdrop : ∀ b, q.reader r ≠ .dropped b 0)
    (hfree : ∀ b, q.reader r ≠ .freeing b)
    (b : Addr) : ¬q.Finishing r b := by
  rintro (hr | ⟨hr, -⟩)
  · exact hfree b hr
  · exact hdrop b hr

theorem inv_wait (h : Inv q k front parts) (hstep : q.wait r = some q') :
    Inv q' k front parts := by
  obtain ⟨hcond, ⟨⟩⟩ := ite_none_right_eq_some.mp hstep
  refine inv_calm h (not_finishing ?_ ?_) ?_ ?_ ?_ _ rfl
  all_goals simp [hcond.1]

theorem inv_poll (h : Inv q k front parts) (hstep : q.poll r = some q') :
    Inv q' k front parts := by
  obtain ⟨hidle, ⟨⟩⟩ := ite_none_right_eq_some.mp hstep
  refine inv_calm h (not_finishing ?_ ?_) ?_ ?_ ?_ _ rfl
  all_goals simp [hidle]

theorem inv_pollWait (h : Inv q k front parts) (hstep : q.pollWait r = some q') :
    Inv q' k front parts := by
  obtain ⟨hcond, ⟨⟩⟩ := ite_none_right_eq_some.mp hstep
  refine inv_calm h (not_finishing ?_ ?_) ?_ ?_ ?_ _ rfl
  all_goals simp [hcond.1]

theorem inv_doneFirst (h : Inv q k front parts) (hstep : q.doneFirst r = some q') :
    Inv q' k front parts := by
  unfold doneFirst at hstep
  split at hstep
  case h_2 => simp at hstep
  rename_i blk ref hr
  obtain rfl := some.inj hstep
  have hfinishing (b : Addr) : q.Finishing r b ↔
      b = blk ∧ q.blkLast blk ≤ q.blkFirst blk ∧ ref = 0 := by
    unfold Finishing
    rw [hr]
    constructor
    · rintro (hb | ⟨hb, hle⟩)
      · simp at hb
      · obtain ⟨rfl, rfl⟩ := Reading.dropped.inj hb
        exact ⟨rfl, hle, rfl⟩
    · rintro ⟨rfl, hle, rfl⟩
      exact .inr ⟨rfl, hle⟩
  split
  · rename_i hcond
    refine inv_reader h (by simp) (by simp) (fun b => ?_) _ rfl
    rw [hfinishing, Reading.freeing.injEq]
    exact ⟨fun hb => ⟨hb.symm, hcond⟩, fun hb => hb.1.symm⟩
  · rename_i hcond
    refine inv_calm h (fun b hb => ?_) (by simp) (by simp) (by simp) _ rfl
    exact hcond ((hfinishing b).mp hb).2

/-! ### The first block -/

/-- A reader waits for the writers of the block it is to read. -/
theorem inv_waiting (h : Inv q k front parts) (hr : q.reader r = .fetching poll)
    (hlock : q.lockWrite = false) (hread : q.read = none) (hdata : q.data = some blk) :
    Inv { q with
      lockRead := true
      lockWrite := true
      reader := update q.reader r (.waiting poll blk) } k front parts := by
  have hnot : ∀ b, ¬q.Finishing r b := not_finishing (by simp [hr]) (by simp [hr])
  have hfinish (r' : R) (b : Addr) : (update q.reader r (.waiting poll blk) r' = .freeing b ∨
      update q.reader r (.waiting poll blk) r' = .dropped b 0 ∧ q.blkLast b ≤ q.blkFirst b) ↔
      q.Finishing r' b := by
    by_cases hr' : r' = r
    · rw [hr']
      exact iff_of_false (by simp) (hnot b)
    · rw [update_of_ne hr']
      rfl
  refine { h with locking := ?_, waiting := ?_, finishing := ?_, stale := ?_, kept := ?_ }
  · intro i hi
    rw [(h.locking i hi).1] at hlock
    simp at hlock
  · intro r' poll' b hr'
    dsimp only at hr'
    rw [reader_update] at hr'
    split at hr'
    · rename_i hrr
      obtain ⟨-, rfl⟩ := Reading.waiting.inj hr'
      refine ⟨rfl, hdata, hread, fun l poll'' b' hl => ?_⟩
      dsimp only at hl
      rw [reader_update] at hl
      split at hl
      · rename_i hlr
        rw [hlr, hrr]
      · exact absurd hl (h.nowait hlock l poll'' b')
    · exact absurd hr' (h.nowait hlock r' poll' b)
  · intro r' b hf
    obtain ⟨h1, h2, h3, h4, h5⟩ := h.finishing r' b ((hfinish r' b).mp hf)
    exact ⟨h1, h2, h3, h4, fun l hl => h5 l ((hfinish l b).mp hl)⟩
  · intro r' b hr' hlt
    dsimp only at hr'
    rw [reader_update] at hr'
    split at hr'
    · simp at hr'
    · exact h.stale r' b hr' hlt
  · intro b hb
    exact h.kept_of hb fun r' => (hfinish r' b).mpr

theorem inv_waited (h : Inv q k front parts) (hr : q.reader r = .waiting poll blk) :
    Inv { q with
      lockRead := false
      lockWrite := false
      reader := update q.reader r (.fetching poll) } k front parts := by
  obtain ⟨hwrite, -, -, hone⟩ := h.waiting r poll blk hr
  have hnot : ∀ b, ¬q.Finishing r b := not_finishing (by simp [hr]) (by simp [hr])
  have hcalm := inv_calm (x := .fetching poll) h hnot (by simp) (by simp) (by simp) q.sem rfl
  refine { hcalm with locking := ?_, waiting := ?_ }
  · intro i hi
    exact absurd hr ((h.locking i hi).2.2 r poll blk)
  · intro r' poll' b hr'
    dsimp only at hr'
    rw [reader_update] at hr'
    split at hr'
    · simp at hr'
    · rename_i hne
      exact absurd (hone r' poll' b hr') hne

omit [DecidableEq R] in
/-- A block that was read to its end leaves the queue. -/
theorem between_detach (h : Between q k front parts) (hread : q.read = none)
    (hdata : q.data = some blk) (hnone : q.users blk = ∅)
    (hnowait : ∀ r poll b, q.reader r ≠ .waiting poll b) :
    ∃ front' parts', Between (q.detach blk) k front' parts' ∧ blk ∈ parts.map Prod.fst := by
  have hfront := h.noRead hread
  have hlinked := h.linked
  cases parts with
  | nil =>
    rw [hdata] at hlinked
    simp [Linked] at hlinked
  | cons p rest =>
  obtain ⟨b, ids⟩ := p
  obtain ⟨hb, hrest⟩ := hlinked
  obtain rfl : blk = b := some.inj (hdata.symm.trans hb)
  have hnodup := h.nodup
  rw [map_cons, nodup_cons] at hnodup
  dsimp only at hnodup hrest
  obtain ⟨hused, hfirst, hfills⟩ := h.part (blk, ids) mem_cons_self
  dsimp only at hused hfirst hfills
  have hother {c : Addr} (hc : c ∈ ((blk, ids) :: rest).map Prod.fst) (hne : c ≠ blk) :
      c ∈ rest.map Prod.fst := (mem_cons.mp hc).resolve_left hne
  have hin {c : Addr} (hc : c ∈ rest.map Prod.fst) : c ∈ ((blk, ids) :: rest).map Prod.fst :=
    mem_cons_of_mem _ hc
  refine ⟨ids, rest, ⟨{ h.toInv with
    order := ?_, linked := ?_, last := ?_, nodup := ?_, part := ?_, read := ?_, noRead := ?_
    ended := ?_, held := ?_, early := ?_, waiting := ?_, finishing := ?_, stale := ?_
    kept := ?_ }, ?_⟩, mem_cons_self⟩
  · have horder := h.order
    rw [hfront, flatMap_cons] at horder
    exact horder
  · exact hrest.write hnodup.1 none
  · have hlast := h.last
    rw [map_cons] at hlast
    dsimp only [detach]
    cases hmap : rest.map Prod.fst with
    | nil =>
      rw [hmap] at hlast hrest
      have hend : q.last = some blk := hlast
      rw [if_pos hend]
      exact hrest
    | cons c cs =>
      rw [hmap, getLast?_cons_cons] at hlast
      rw [if_neg, hlast]
      intro heq
      rw [hlast] at heq
      have hmem := mem_of_getLast? heq
      rw [← hmap] at hmem
      exact hnodup.1 hmem
  · exact hnodup.2
  · intro p hp
    exact h.part p (mem_cons_of_mem _ hp)
  · intro c hc
    obtain rfl := some.inj hc
    refine ⟨hused, hnodup.1, ?_, h.filled (blk, ids) mem_cons_self⟩
    show q.Fills blk (q.blkFirst blk) (q.blkLast blk) ids
    rw [hfirst]
    exact hfills
  · intro hc
    simp [detach] at hc
  · intro c hc hnot hne
    refine h.ended c hc (fun hmem => hnot (hother hmem ?_)) (by simp [hread])
    rintro rfl
    exact hne rfl
  · intro i r hi hmem
    exact h.held i r hi (hin hmem)
  · intro i hi
    obtain ⟨h1, h2⟩ := h.early i hi
    refine ⟨h1, hother h2 fun hhome => ?_⟩
    have hmem : i ∈ q.users (q.home i) := h.users_of_open hi
    have hhome' : q.home i = blk := hhome
    rw [hhome', hnone] at hmem
    exact absurd hmem (Finset.notMem_empty i)
  · intro r poll c hr
    exact absurd hr (hnowait r poll c)
  · intro r c hf
    obtain ⟨h1, h2, h3, h4, h5⟩ := h.finishing r c hf
    refine ⟨h1, fun hmem => h2 (hin hmem), ?_, h4, h5⟩
    rintro hc
    obtain rfl := some.inj hc
    exact h2 mem_cons_self
  · intro r c hr hlt
    have hstale := (h.stale r c hr hlt).2
    rw [hread] at hstale
    simp at hstale
  · intro c hc
    rcases h.kept c hc with h1 | h1 | h1
    · by_cases hcb : c = blk
      · rw [hcb]
        exact .inr (.inl rfl)
      · exact .inl (hother h1 hcb)
    · rw [hread] at h1
      simp at h1
    · exact .inr (.inr h1)
  · intro p hp
    exact h.filled p (mem_cons_of_mem _ hp)

/-! ### The next message -/

/-- **Fetching**: the first message of the block that is read, which is the next in order. -/
theorem between_take (h : Between q k front parts) (hread : q.read = some blk) (poll : Bool)
    (hfetch : ∀ b, ¬q.Finishing r b)
    (htime : q.blkLast blk ≤ q.blkFirst blk + (q.blkData blk (q.blkFirst blk)).size →
      ∀ r, q.reader r ≠ .dropped blk 0) :
    ∃ front', Between (q.take r poll blk) (k + 1) front' parts ∧
      (q.take r poll blk).fetched = q.fetched ++ [some k] := by
  obtain ⟨hused, hnotin, hfills, hne⟩ := h.read blk hread
  obtain ⟨hb1, hb2, hb3, hb4⟩ := h.bounds blk hused
  have horder := h.order
  cases front with
  | nil => exact absurd rfl hne
  | cons i ids =>
  obtain ⟨hhome, hoffset, hdata, hsize, hrest⟩ := hfills
  obtain ⟨hle, hend⟩ := Fills.le (q := q) hrest
  have hlen := congrArg List.length horder
  rw [cons_append, length_cons, length_range'] at hlen
  have hcount : q.sends - k = (q.sends - (k + 1)) + 1 := by omega
  rw [hcount, List.range'_succ, cons_append] at horder
  obtain ⟨hik, hbehind⟩ := cons.inj horder
  obtain rfl : k = i := hik.symm
  have hunread : q.fate k = .unread := (h.unread k).mpr ⟨le_refl k, by omega⟩
  have hclosed : (q.phase k).isOpen = false := by
    by_contra hopen
    rw [Bool.not_eq_false] at hopen
    have hin := (h.early k hopen).2
    rw [hhome] at hin
    exact hnotin hin
  have hcounts : q.counts k = false := by
    rw [counts, hclosed, hunread]
    rfl
  have hfirst : int (q.blkFirst blk + (q.blkData blk (q.blkFirst blk)).size) =
      q.blkFirst blk + roundUp (q.asked k) := by
    rw [hdata]
    dsimp only
    exact int_eq (by omega) (by omega)
  have hdone : q.blkLast blk ≤ q.blkFirst blk + roundUp (q.asked k) ↔ ids = [] := by
    rw [← hend]
    omega
  rw [hdata] at htime
  -- the state after the step, in terms of the message
  have htake : q.take r poll blk = { q with
      blkFirst := update q.blkFirst blk (q.blkFirst blk + roundUp (q.asked k))
      read := if ids = [] then none else some blk
      ref := update q.ref blk (q.ref blk + 1)
      fate := update q.fate k (.held r)
      reader := update q.reader r (if poll then .polled else .idle)
      fetched := q.fetched ++ [some k] } := by
    unfold take
    dsimp only
    rw [hfirst, hdata, hread]
    simp only [hdone]
  generalize hx : (if poll then Reading.polled else Reading.idle) = x at htake
  have hcalm : (∀ p b, x ≠ .waiting p b) ∧ (∀ b, x ≠ .freeing b) ∧ ∀ b ref, x ≠ .dropped b ref := by
    rw [← hx]
    cases poll <;> simp
  rw [htake]
  have husers (b : Addr) : ({ q with
      blkFirst := update q.blkFirst blk (q.blkFirst blk + roundUp (q.asked k))
      read := if ids = [] then none else some blk
      ref := update q.ref blk (q.ref blk + 1)
      fate := update q.fate k (.held r)
      reader := update q.reader r x
      fetched := q.fetched ++ [some k] } : ThreadQueue R).users b =
      if q.home k = b then insert k (q.users b) else q.users b := by
    refine users_insert (by rfl) (by rfl) (fun j hj => ?_) ?_ (by omega) b
    · unfold counts
      dsimp only
      rw [update_of_ne hj]
    · unfold counts
      simp [Fate.isHeld]
  have hfinish (r' : R) (b : Addr) : (update q.reader r x r' = .freeing b ∨
      update q.reader r x r' = .dropped b 0 ∧
      q.blkLast b ≤ update q.blkFirst blk (q.blkFirst blk + roundUp (q.asked k)) b) ↔
      q.Finishing r' b := by
    by_cases hr' : r' = r
    · rw [hr', update_self]
      refine iff_of_false ?_ (hfetch b)
      rintro (hf | ⟨hd, -⟩)
      · exact hcalm.2.1 b hf
      · exact hcalm.2.2 b 0 hd
    rw [update_of_ne hr']
    by_cases hb : b = blk
    · -- nobody finishes the block that is read
      rw [hb, update_self]
      have hnot : ¬q.Finishing r' blk := fun hf => (h.finishing r' blk hf).2.2.1 hread
      refine iff_of_false ?_ hnot
      rintro (hf | ⟨hd, hle'⟩)
      · exact hnot (.inl hf)
      · exact htime hle' r' hd
    · rw [update_of_ne hb]
      rfl
  refine ⟨ids, ⟨{ h.toInv with
    fetched := ?_, le := ?_, order := ?_, unread := ?_, later := ?_, part := ?_, read := ?_
    noRead := ?_, bounds := ?_, ended := ?_, refs := ?_, held := ?_, early := ?_, locking := ?_
    waiting := ?_, finishing := ?_, stale := ?_, kept := ?_, inside := ?_, apart := ?_ },
    h.filled⟩, rfl⟩
  · rw [filterMap_append, h.fetched, range_succ]
    rfl
  · show k + 1 ≤ q.sends
    omega
  · exact hbehind
  · intro j
    dsimp only
    by_cases hj : j = k
    · rw [hj]
      exact iff_of_false (by simp) (by omega)
    · rw [update_of_ne hj, h.unread]
      omega
  · intro j hj
    have hjk : j ≠ k := by
      dsimp only at hj
      omega
    dsimp only
    rw [update_of_ne hjk]
    exact h.later j hj
  · intro p hp
    obtain ⟨h1, h2, h3⟩ := h.part p hp
    refine ⟨h1, ?_, h3⟩
    dsimp only
    rw [update_of_ne, h2]
    rintro hpb
    exact hnotin (mem_map.mpr ⟨p, hp, hpb⟩)
  · intro b hb
    split at hb
    · simp at hb
    rename_i hids
    obtain rfl := some.inj hb
    refine ⟨hused, hnotin, ?_, hids⟩
    dsimp only
    rw [update_self]
    exact hrest
  · intro hnone
    split at hnone
    · rename_i hids
      exact hids
    · simp at hnone
  · intro b hb
    dsimp only
    by_cases hbb : b = blk
    · rw [hbb, update_self]
      exact ⟨by omega, hle, hb3, hb4⟩
    · rw [update_of_ne hbb]
      exact h.bounds b hb
  · intro b hb hnot hnr
    dsimp only at hnr ⊢
    by_cases hbb : b = blk
    · rw [hbb] at hnr
      rw [hbb, update_self]
      split at hnr
      · rename_i hids
        exact hend.mpr hids
      · exact absurd rfl hnr
    · rw [update_of_ne hbb]
      refine h.ended b hb hnot ?_
      rw [hread]
      intro heq
      exact hbb (some.inj heq).symm
  · intro b hb
    rw [husers]
    dsimp only
    by_cases hbb : b = blk
    · have hfresh : k ∉ q.users blk := by
        intro hmem
        rw [(mem_users.mp hmem).2.2] at hcounts
        simp at hcounts
      rw [hbb, update_self, if_pos hhome, Finset.card_insert_of_notMem hfresh, h.refs blk hused]
      rfl
    · rw [update_of_ne hbb, if_neg (hhome ▸ Ne.symm hbb)]
      exact h.refs b hb
  · intro j r' hj
    dsimp only at hj ⊢
    by_cases hjk : j = k
    · rw [hjk, hhome]
      exact hnotin
    · rw [update_of_ne hjk] at hj
      exact h.held j r' hj
  · intro j hj
    obtain ⟨h1, h2⟩ := h.early j hj
    refine ⟨?_, h2⟩
    dsimp only at hj ⊢
    rw [update_of_ne, h1]
    rintro rfl
    rw [hclosed] at hj
    simp at hj
  · intro j hj
    exact h.locking_reader hcalm.1 hj
  · intro r' p b hr'
    dsimp only at hr'
    rw [reader_update] at hr'
    split at hr'
    · exact absurd hr' (hcalm.1 p b)
    have hnone := (h.waiting r' p b hr').2.2.1
    rw [hread] at hnone
    simp at hnone
  · intro r' b hf
    obtain ⟨h1, h2, h3, h4, h5⟩ := h.finishing r' b ((hfinish r' b).mp hf)
    have hbb : blk ≠ b := by
      rintro rfl
      exact h3 hread
    refine ⟨h1, h2, ?_, ?_, fun l hl => h5 l ((hfinish l b).mp hl)⟩
    · split
      · simp
      · intro heq
        exact hbb (some.inj heq)
    · rw [husers, if_neg (hhome ▸ hbb)]
      exact h4
  · intro r' b hr' hlt
    dsimp only at hr' hlt ⊢
    rw [reader_update] at hr'
    split at hr'
    · exact absurd hr' (hcalm.2.2 b 0)
    by_cases hbb : b = blk
    · rw [hbb, update_self] at hlt
      rw [hbb, if_neg]
      · exact ⟨hused, rfl⟩
      · intro hids
        have hlast := hend.mpr hids
        omega
    · rw [update_of_ne hbb] at hlt
      have hstale := (h.stale r' b hr' hlt).2
      rw [hread] at hstale
      exact absurd (some.inj hstale).symm hbb
  · intro b hb
    by_cases hbb : b = blk
    · refine .inr (Or.inr (Or.inl ?_))
      rw [husers, hbb, if_pos hhome]
      exact Finset.insert_nonempty _ _
    rcases h.kept b hb with h1 | h1 | h1 | ⟨r', h1⟩
    · exact .inl h1
    · rw [hread] at h1
      exact absurd (some.inj h1).symm hbb
    · refine .inr (Or.inr (.inl ?_))
      rw [husers, if_neg (hhome ▸ Ne.symm hbb)]
      exact h1
    · exact .inr (.inr (.inr ⟨r', (hfinish r' b).mpr h1⟩))
  · intro j hj
    refine h.inside j ?_
    dsimp only at hj
    by_cases hjk : j = k
    · rw [hjk, hunread]
      simp
    · rwa [update_of_ne hjk] at hj
  · have hpassed (j : Nat) (hj : update q.fate k (.held r) j ≠ .passed) : q.fate j ≠ .passed := by
      by_cases hjk : j = k
      · rw [hjk, hunread]
        simp
      · rwa [update_of_ne hjk] at hj
    intro j l hjl hj hl
    exact h.apart j l hjl (hpassed j hj) (hpassed l hl)

/-! ### The end of a block -/

/-- A reader is done with its message. -/
theorem inv_msgFetchDone (h : Inv q k front parts) (hstep : q.msgFetchDone r i = some q') :
    Inv q' k front parts := by
  obtain ⟨⟨hidle, hfate⟩, ⟨⟩⟩ := ite_none_right_eq_some.mp hstep
  have hmem := h.users_of_held hfate
  have hlt := (mem_users.mp hmem).1
  have hnotin := h.held i r hfate
  have hused := h.used_of_counts (mem_users.mp hmem).2.2
  have hclosed : (q.phase i).isOpen = false := by
    by_contra hopen
    rw [Bool.not_eq_false] at hopen
    exact hnotin (h.early i hopen).2
  have hrefs := h.refs (q.home i) hused
  generalize hblk : q.home i = blk at hmem hnotin hused hrefs
  generalize href : q.ref blk - 1 = ref
  have hcard : ((q.users blk).erase i).card = ref := by
    rw [Finset.card_erase_of_mem hmem]
    have hpos : 0 < (q.users blk).card := Finset.card_pos.mpr ⟨i, hmem⟩
    omega
  have husers (b : Addr) : ({ q with
      ref := update q.ref blk ref
      fate := update q.fate i .passed
      reader := update q.reader r (.dropped blk ref) } : ThreadQueue R).users b =
      (q.users b).erase i := by
    refine users_erase (by rfl) (by rfl) (fun j hj => ?_) ?_ b
    · unfold counts
      dsimp only
      rw [update_of_ne hj]
    · unfold counts
      dsimp only
      rw [update_self, hclosed]
      rfl
  have hother {b : Addr} (hb : b ≠ blk) : (q.users b).erase i = q.users b := by
    refine Finset.erase_eq_of_notMem fun hi => ?_
    exact hb ((mem_users.mp hi).2.1.symm.trans hblk)
  have hpassed {j : Nat} {f : Fate R} (hf : f ≠ .passed) :
      update q.fate i .passed j = f ↔ q.fate j = f ∧ j ≠ i := by
    by_cases hj : j = i
    · rw [hj, update_self]
      exact iff_of_false (symm hf) (by simp)
    · simp [hj]
  -- a block that still has a message to be passed has no reader that finishes it
  have hbusy {r' : R} {b : Addr} (hf : q.Finishing r' b) : b ≠ blk := by
    rintro rfl
    have hnone := (h.finishing r' b hf).2.2.2.1
    rw [hnone] at hmem
    exact absurd hmem (Finset.notMem_empty i)
  have hfinish {r' : R} (hr' : r' ≠ r) (b : Addr) :
      (update q.reader r (.dropped blk ref) r' = .freeing b ∨
      update q.reader r (.dropped blk ref) r' = .dropped b 0 ∧ q.blkLast b ≤ q.blkFirst b) ↔
      q.Finishing r' b := by
    rw [update_of_ne hr']
    rfl
  have hmine (b : Addr) : (update q.reader r (.dropped blk ref) r = .freeing b ∨
      update q.reader r (.dropped blk ref) r = .dropped b 0 ∧ q.blkLast b ≤ q.blkFirst b) ↔
      b = blk ∧ ref = 0 ∧ q.blkLast blk ≤ q.blkFirst blk := by
    rw [update_self]
    constructor
    · rintro (hf | ⟨hd, hle⟩)
      · simp at hf
      · obtain ⟨rfl, rfl⟩ := Reading.dropped.inj hd
        exact ⟨rfl, rfl, hle⟩
    · rintro ⟨rfl, rfl, hle⟩
      exact .inr ⟨rfl, hle⟩
  have hpart : q.blkLast blk ≤ q.blkFirst blk → q.read ≠ some blk := by
    intro hle hread
    obtain ⟨-, -, hfills, hne⟩ := h.read blk hread
    exact hne (hfills.le.2.mp (le_antisymm hfills.le.1 hle))
  refine { h with
    unread := ?_, later := ?_, refs := ?_, held := ?_, early := ?_, locking := ?_, waiting := ?_
    finishing := ?_, stale := ?_, kept := ?_, inside := ?_, apart := ?_ }
  · intro j
    rw [hpassed (by simp), h.unread]
    refine and_iff_left_of_imp fun hj => ?_
    rintro rfl
    rw [(h.unread j).mpr hj] at hfate
    simp at hfate
  · intro j hj
    have hji : j ≠ i := ne_of_gt (lt_of_lt_of_le hlt hj)
    dsimp only
    rw [update_of_ne hji]
    exact h.later j hj
  · intro b hb
    rw [husers]
    dsimp only
    by_cases hbb : b = blk
    · rw [hbb, update_self, hcard]
    · rw [update_of_ne hbb, hother hbb]
      exact h.refs b hb
  · intro j r' hj
    exact h.held j r' ((hpassed (by simp)).mp hj).1
  · intro j hj
    obtain ⟨h1, h2⟩ := h.early j hj
    refine ⟨(hpassed (by simp)).mpr ⟨h1, ?_⟩, h2⟩
    rintro rfl
    rw [h1] at hfate
    simp at hfate
  · intro j hj
    exact h.locking_reader (by simp) hj
  · intro r' p b hr'
    exact h.waiting_reader (by simp) hr'
  · intro r' b hf
    by_cases hr' : r' = r
    · rw [hr'] at hf ⊢
      obtain ⟨rfl, hzero, hle⟩ := (hmine b).mp hf
      refine ⟨hused, hnotin, hpart hle, ?_, fun l hl => ?_⟩
      · rw [husers, ← Finset.card_eq_zero]
        omega
      · by_contra hlr
        exact hbusy ((hfinish hlr b).mp hl) rfl
    · have hf' := (hfinish hr' b).mp hf
      obtain ⟨h1, h2, h3, h4, h5⟩ := h.finishing r' b hf'
      refine ⟨h1, h2, h3, ?_, fun l hl => ?_⟩
      · rw [husers, h4]
        rfl
      · by_cases hlr : l = r
        · rw [hlr] at hl
          exact absurd ((hmine b).mp hl).1 (hbusy hf')
        · exact h5 l ((hfinish hlr b).mp hl)
  · intro r' b hr' hle
    dsimp only at hr'
    rw [reader_update] at hr'
    split at hr'
    · obtain ⟨rfl, -⟩ := Reading.dropped.inj hr'
      refine ⟨hused, ?_⟩
      by_contra hread
      have hend := h.ended blk hused hnotin hread
      dsimp only at hle
      omega
    · exact h.stale r' b hr' hle
  · intro b hb
    by_cases hbb : b = blk
    · -- the reader goes on with this block, or there is more in it
      rw [hbb]
      by_cases hread : q.read = some blk
      · exact .inr (.inl hread)
      refine .inr (.inr ?_)
      rw [husers]
      rcases Finset.eq_empty_or_nonempty ((q.users blk).erase i) with hnone | hsome
      · have hend := h.ended blk hused hnotin hread
        rw [hnone] at hcard
        exact .inr ⟨r, (hmine blk).mpr ⟨rfl, hcard.symm, le_of_eq hend.symm⟩⟩
      · exact .inl hsome
    · rw [husers, hother hbb]
      refine h.kept_of hb fun r' h1 => (hfinish ?_ b).mpr h1
      rintro rfl
      exact not_finishing (by simp [hidle]) (by simp [hidle]) b h1
  · intro j hj
    refine h.inside j fun hp => hj ?_
    dsimp only
    by_cases hji : j = i
    · rw [hji, update_self]
    · rw [update_of_ne hji, hp]
  · have hold (j : Nat) (hj : update q.fate i .passed j ≠ .passed) : q.fate j ≠ .passed := by
      by_cases hji : j = i
      · rw [hji, hfate]
        simp
      · rwa [update_of_ne hji] at hj
    intro j l hjl hj hl
    exact h.apart j l hjl (hold j hj) (hold l hl)

/-- The block is freed, or waits in the pool for the next one that asks. -/
def Frees (q : ThreadQueue R) (blk : Addr) (q' : ThreadQueue R) : Prop :=
  ∃ next pool count,
    q' = { q with
      freed := update q.freed blk (q.freed blk + 1)
      blkNext := next
      blockPool := pool
      blockPoolCount := count } ∧ (∃ v, next = update q.blkNext blk v) ∧ pool.Nodup ∧
    (∀ b ∈ pool, b ∈ q.blockPool ∨ b = blk ∧ q.blkSize blk = minSize) ∧
    (∀ b ∈ q.blockPool, b ∈ pool) ∧ (blk ∉ pool → q.locked blk = false)

omit [DecidableEq R] in
theorem blockFree_spec (h : Inv q k front parts) (hused : q.Used blk)
    (hfree : q.blockFree blk = some q') : Frees q blk q' := by
  obtain ⟨hnodup, hpool⟩ := h.pool
  have hreal (hfree : q.blockRealFree blk = some q') : Frees q blk q' := by
    unfold blockRealFree at hfree
    split at hfree
    · simp at hfree
    rename_i hlocked
    rw [Bool.not_eq_true] at hlocked
    refine ⟨q.blkNext, q.blockPool, q.blockPoolCount, (some.inj hfree).symm,
      ⟨q.blkNext blk, (Function.update_eq_self blk _).symm⟩, hnodup, fun b hb => .inl hb,
      fun b hb => hb, fun _ => hlocked⟩
  unfold blockFree at hfree
  split at hfree
  · rename_i hmin
    split at hfree
    · refine ⟨_, _, _, (some.inj hfree).symm, ⟨_, rfl⟩, ?_, ?_, ?_, ?_⟩
      · exact nodup_cons.mpr ⟨fun hmem => (hpool blk hmem).1 hused, hnodup⟩
      · intro b hb
        rcases mem_cons.mp hb with rfl | hb
        · exact .inr ⟨rfl, hmin⟩
        · exact .inl hb
      · intro b hb
        exact mem_cons_of_mem _ hb
      · intro hnot
        exact absurd mem_cons_self hnot
    · exact hreal hfree
  · exact hreal hfree

/-- **Giving back a block** that no message is in any more. -/
theorem inv_doneFree (h : Inv q k front parts) (hstep : q.doneFree r = some q') :
    Inv q' k front parts := by
  unfold doneFree at hstep
  split at hstep
  case h_2 => simp at hstep
  rename_i blk hr
  obtain ⟨q1, hfree, rfl⟩ := map_eq_some_iff.mp hstep
  obtain ⟨hused, hnotin, hnotread, hnone, hone⟩ := h.finishing r blk (.inl hr)
  obtain ⟨next, pool, count, rfl, ⟨v, rfl⟩, hnodup, hpool, hkeep, hlocked⟩ :=
    blockFree_spec h hused hfree
  have hbalance := h.balance blk
  have hused' (b : Addr) : update q.freed blk (q.freed blk + 1) b < q.made b ↔
      q.Used b ∧ b ≠ blk := by
    by_cases hb : b = blk
    · rw [hb, update_self]
      exact iff_of_false (by omega) (by simp)
    · rw [update_of_ne hb]
      exact (and_iff_left hb).symm
  -- no message that was not passed is in the block
  have haway {i : Nat} (hi : q.fate i ≠ .passed) : q.home i ≠ blk := by
    intro hhome
    cases hfate : q.fate i with
    | passed => exact hi hfate
    | held r' =>
      have hmem := h.users_of_held hfate
      rw [hhome, hnone] at hmem
      exact absurd hmem (Finset.notMem_empty i)
    | unread =>
      have hbounds := (h.unread i).mp hfate
      have hmem : i ∈ range' k (q.sends - k) := by
        rw [mem_range'_1]
        omega
      rw [← h.order, mem_append, mem_flatMap] at hmem
      rcases hmem with hmem | ⟨p, hp, hmem⟩
      · cases hread : q.read with
        | none =>
          rw [h.noRead hread] at hmem
          exact absurd hmem not_mem_nil
        | some b =>
          have hb := (h.read b hread).2.2.1.home i hmem
          exact hnotread (hread.trans (congrArg some (hb.symm.trans hhome)))
      · have hb := (h.part p hp).2.2.home i hmem
        exact hnotin (mem_map.mpr ⟨p, hp, hb.symm.trans hhome⟩)
  have hfinish (r' : R) (b : Addr) : (update q.reader r .idle r' = .freeing b ∨
      update q.reader r .idle r' = .dropped b 0 ∧ q.blkLast b ≤ q.blkFirst b) ↔
      q.Finishing r' b ∧ r' ≠ r := by
    by_cases hr' : r' = r
    · rw [hr']
      exact iff_of_false (by simp) (by simp)
    · rw [update_of_ne hr']
      exact (and_iff_left hr').symm
  refine { h with
    linked := ?_, part := ?_, read := ?_, bounds := ?_, ended := ?_, balance := ?_, pool := ?_
    refs := ?_, gone := ?_, locking := ?_, waiting := ?_, finishing := ?_, stale := ?_, kept := ?_
    inside := ?_ }
  · exact h.linked.write hnotin v
  · intro p hp
    obtain ⟨h1, h2, h3⟩ := h.part p hp
    refine ⟨(hused' _).mpr ⟨h1, ?_⟩, h2, h3⟩
    rintro hb
    exact hnotin (mem_map.mpr ⟨p, hp, hb⟩)
  · intro b hb
    obtain ⟨h1, h2, h3, h4⟩ := h.read b hb
    refine ⟨(hused' b).mpr ⟨h1, ?_⟩, h2, h3, h4⟩
    rintro rfl
    exact hnotread hb
  · intro b hb
    exact h.bounds b ((hused' b).mp hb).1
  · intro b hb
    exact h.ended b ((hused' b).mp hb).1
  · intro b
    dsimp only
    by_cases hb : b = blk
    · rw [hb, update_self]
      unfold Used at hused
      omega
    · rw [update_of_ne hb]
      exact h.balance b
  · refine ⟨hnodup, fun b hb => ?_⟩
    rcases hpool b hb with hb | ⟨rfl, hmin⟩
    · obtain ⟨h1, h2⟩ := h.pool.2 b hb
      exact ⟨fun hu => h1 ((hused' b).mp hu).1, h2⟩
    · exact ⟨fun hu => ((hused' b).mp hu).2 rfl, hmin⟩
  · intro b hb
    exact h.refs b ((hused' b).mp hb).1
  · intro b hb hnot
    by_cases hbb : b = blk
    · rw [hbb] at hnot ⊢
      exact hlocked hnot
    · refine h.gone b (fun hu => hb ((hused' b).mpr ⟨hu, hbb⟩)) fun hmem => hnot (hkeep b hmem)
  · intro j hj
    exact h.locking_reader (by simp) hj
  · intro r' p b hr'
    exact h.waiting_reader (by simp) hr'
  · intro r' b hf
    obtain ⟨hf', hrr⟩ := (hfinish r' b).mp hf
    obtain ⟨h1, h2, h3, h4, h5⟩ := h.finishing r' b hf'
    refine ⟨(hused' b).mpr ⟨h1, ?_⟩, h2, h3, h4, fun l hl => h5 l ((hfinish l b).mp hl).1⟩
    rintro rfl
    exact hrr (hone r' hf')
  · intro r' b hr' hlt
    dsimp only at hr'
    rw [reader_update] at hr'
    split at hr'
    · simp at hr'
    obtain ⟨h1, h2⟩ := h.stale r' b hr' hlt
    refine ⟨(hused' b).mpr ⟨h1, ?_⟩, h2⟩
    rintro rfl
    exact hnotread h2
  · intro b hb
    obtain ⟨hb, hbb⟩ := (hused' b).mp hb
    rcases h.kept b hb with h1 | h1 | h1 | ⟨r', h1⟩
    · exact .inl h1
    · exact .inr (.inl h1)
    · exact .inr (.inr (.inl h1))
    · refine .inr (.inr (.inr ⟨r', (hfinish r' b).mpr ⟨h1, ?_⟩⟩))
      rintro rfl
      rcases h1 with h1 | ⟨h1, -⟩
      · exact hbb (Reading.freeing.inj (h1.symm.trans hr))
      · rw [hr] at h1
        simp at h1
  · intro i hi
    obtain ⟨h1, h2⟩ := h.inside i hi
    exact ⟨(hused' _).mpr ⟨h1, haway hi⟩, h2⟩

end Eina.ThreadQueue
