/-
What the writers keep.
-/
import Efl.Eina.ThreadQueue.Inv

namespace Eina.ThreadQueue

open Finset
open Function (update update_self update_of_ne)

variable {R : Type} {q q' : ThreadQueue R} {blk : Addr} {k : Nat} {front : List Nat}
  {parts : List (Addr × List Nat)} {i : Nat} {x : Phase}

/-! ### After the message was placed -/

theorem phase_update (j : Nat) :
    update q.phase i x j = if j = i then x else q.phase j := by
  split
  · rename_i hj
    rw [hj, update_self]
  · rename_i hj
    rw [update_of_ne hj]

theorem users_phase (hphase : q'.phase = update q.phase i x)
    (hopen : x.isOpen = (q.phase i).isOpen) (hsends : q'.sends = q.sends)
    (hhome : q'.home = q.home) (hfate : q'.fate = q.fate) (b : Addr) : q'.users b = q.users b := by
  refine users_same hsends hhome (fun j => ?_) b
  unfold counts
  rw [hphase, hfate, phase_update]
  split
  · rename_i hj
    rw [hj, hopen]
  · rfl

theorem phase_other {x y : Phase} (hphase : q.phase i = y) {z : Phase} (hx : z ≠ x) (hy : z ≠ y)
    (j : Nat) : update q.phase i x j = z ↔ q.phase j = z := by
  rw [phase_update]
  split
  · rename_i hj
    rw [hj, hphase]
    exact iff_of_false (symm hx) (symm hy)
  · rfl

section Phase

variable (h : Inv q k front parts)
include h

theorem later_phase (hopen : q.phase i ≠ .sent) (j : Nat) (hj : q.sends ≤ j) :
    update q.phase i x j = .sent ∧ q.fate j = .passed := by
  have hji : j ≠ i := by
    rintro rfl
    exact hopen (h.later j hj).1
  rw [update_of_ne hji]
  exact h.later j hj

theorem early_closed (hx : x.isOpen = false) (j : Nat) (hj : (update q.phase i x j).isOpen = true) :
    q.fate j = .unread ∧ q.home j ∈ parts.map Prod.fst := by
  rw [phase_update] at hj
  split at hj
  · rw [hx] at hj
    simp at hj
  · exact h.early j hj

theorem first_closed (hl : x ≠ .locking) (hw : x ≠ .writing) (j l : Nat)
    (hhome : q.home j = q.home l) (hj : update q.phase i x j = .locking) :
    update q.phase i x l ≠ .writing := by
  rw [phase_update] at hj ⊢
  split at hj
  · exact absurd hj hl
  split
  · exact hw
  · exact h.first j l hhome hj

theorem locking_closed (hx : x ≠ .locking) (j : Nat) (hj : update q.phase i x j = .locking) :
    q.lockWrite = true ∧ (∀ l, update q.phase i x l = .locking → l = j) ∧
      ∀ r poll b, q.reader r ≠ .waiting poll b := by
  rw [phase_update] at hj
  split at hj
  · exact absurd hj hx
  obtain ⟨hwrite, hone, hnowait⟩ := h.locking j hj
  refine ⟨hwrite, fun l hl => ?_, hnowait⟩
  rw [phase_update] at hl
  split at hl
  · exact absurd hl hx
  · exact hone l hl

end Phase

/-- A writer takes the lock of the block. -/
theorem inv_sendLock (h : Inv q k front parts) (hstep : q.sendLock i = some q') :
    Inv q' k front parts := by
  obtain ⟨⟨hphase, hunlocked⟩, ⟨⟩⟩ := Option.ite_none_right_eq_some.mp hstep
  obtain ⟨-, hone, hnowait⟩ := h.locking i hphase
  have hearly := h.early i (by rw [hphase]; rfl)
  -- no message of the block is being written or waits for the release of the lock
  have hquiet : ∀ j, q.home j = q.home i → ¬(q.phase j = .writing ∨ q.phase j = .releasing) := by
    intro j hj hbusy
    have hlocked := (h.locked (q.home i)).mpr ⟨j, hj, hbusy⟩
    rw [hunlocked] at hlocked
    simp at hlocked
  have husers (b : Addr) : ({ q with
      locked := update q.locked (q.home i) true
      lockWrite := false
      phase := update q.phase i .writing } : ThreadQueue R).users b = q.users b :=
    users_phase (by rfl) (by rw [hphase]; rfl) (by rfl) (by rfl) (by rfl) b
  refine { h with
    later := later_phase h (by simp [hphase])
    early := ?_, locked := ?_, alone := ?_, first := ?_, gone := ?_
    locking := ?_, waiting := ?_
    refs := fun b hb => by rw [husers]; exact h.refs b hb
    finishing := fun r b hf => by rw [husers]; exact h.finishing r b hf
    kept := fun b hb => by rw [husers]; exact h.kept b hb }
  · intro j hj
    dsimp only at hj
    rw [phase_update] at hj
    split at hj
    · rename_i hji
      rw [hji]
      exact hearly
    · exact h.early j hj
  · intro b
    dsimp only
    by_cases hb : b = q.home i
    · rw [hb, update_self]
      refine iff_of_true rfl ⟨i, rfl, ?_⟩
      rw [update_self]
      exact .inl rfl
    · rw [update_of_ne hb, h.locked]
      refine exists_congr fun j => and_congr_right fun hj => ?_
      rw [update_of_ne]
      rintro rfl
      exact hb hj.symm
  · intro j l hhome hj hl
    dsimp only at hhome hj hl
    rw [phase_update] at hj hl
    split at hj
    · simp at hj
    split at hl
    · rename_i hli
      rw [hli] at hhome
      exact absurd (.inr hj) (hquiet j hhome)
    · exact h.alone j l hhome hj hl
  · intro j l hhome hj
    dsimp only at hhome hj ⊢
    rw [phase_update] at hj ⊢
    split at hj
    · simp at hj
    · rename_i hji
      exact absurd (hone j hj) hji
  · intro b hb hpool
    dsimp only
    rw [update_of_ne]
    · exact h.gone b hb hpool
    · rintro rfl
      exact hb (h.part_used hearly.2).1
  · intro j hj
    dsimp only at hj
    rw [phase_update] at hj
    split at hj
    · simp at hj
    · rename_i hji
      exact absurd (hone j hj) hji
  · intro r poll b hr
    exact absurd hr (hnowait r poll b)

theorem inv_wake (h : Inv q k front parts) (hstep : q.wake i = some q') :
    Inv q' k front parts := by
  obtain ⟨hphase, ⟨⟩⟩ := Option.ite_none_right_eq_some.mp hstep
  have husers (b : Addr) : ({ q with
      sem := q.sem + 1
      phase := update q.phase i .sent } : ThreadQueue R).users b = q.users b :=
    users_phase (by rfl) (by rw [hphase]; rfl) (by rfl) (by rfl) (by rfl) b
  -- the message is in none of the phases the locks look at, before or after
  have hwriting := phase_other (x := .sent) (z := .writing) hphase (by simp) (by simp)
  have hreleasing := phase_other (x := .sent) (z := .releasing) hphase (by simp) (by simp)
  refine { h with
    later := later_phase h (by simp [hphase])
    early := early_closed h rfl
    first := first_closed h (by simp) (by simp)
    locking := locking_closed h (by simp)
    refs := fun b hb => by rw [husers]; exact h.refs b hb
    finishing := fun r b hf => by rw [husers]; exact h.finishing r b hf
    kept := fun b hb => by rw [husers]; exact h.kept b hb
    locked := ?_, alone := ?_ }
  · intro b
    rw [h.locked]
    refine exists_congr fun j => and_congr_right fun _ => ?_
    rw [hwriting, hreleasing]
  · intro j l hhome hj hl
    rw [hreleasing] at hj
    rw [hwriting, hreleasing] at hl
    exact h.alone j l hhome hj hl

/-- A writer releases it. -/
theorem inv_sendRelease (h : Inv q k front parts) (hstep : q.sendRelease i = some q') :
    Inv q' k front parts := by
  obtain ⟨hphase, ⟨⟩⟩ := Option.ite_none_right_eq_some.mp hstep
  have husers (b : Addr) : ({ q with
      locked := update q.locked (q.home i) false
      phase := update q.phase i .waking } : ThreadQueue R).users b = q.users b :=
    users_phase (by rfl) (by rw [hphase]; rfl) (by rfl) (by rfl) (by rfl) b
  have hwriting := phase_other (x := .waking) (z := .writing) hphase (by simp) (by simp)
  have hreleasing (j : Nat) : update q.phase i .waking j = .releasing ↔
      q.phase j = .releasing ∧ j ≠ i := by
    rw [phase_update]
    split
    · rename_i hj
      simp [hj]
    · rename_i hj
      simp [hj]
  refine { h with
    later := later_phase h (by simp [hphase])
    early := early_closed h rfl
    first := first_closed h (by simp) (by simp)
    locking := locking_closed h (by simp)
    refs := fun b hb => by rw [husers]; exact h.refs b hb
    finishing := fun r b hf => by rw [husers]; exact h.finishing r b hf
    kept := fun b hb => by rw [husers]; exact h.kept b hb
    locked := ?_, alone := ?_, gone := ?_ }
  · intro b
    dsimp only
    by_cases hb : b = q.home i
    · -- it was the only message of the block that kept the lock
      rw [hb]
      refine iff_of_false (by simp) ?_
      rintro ⟨j, hhome, hj⟩
      rw [hwriting, hreleasing] at hj
      have hji := h.alone i j hhome.symm hphase (hj.imp_right And.left)
      rcases hj with hj | hj
      · rw [hji, hphase] at hj
        simp at hj
      · exact hj.2 hji
    · rw [update_of_ne hb, h.locked]
      refine exists_congr fun j => and_congr_right fun hj => ?_
      have hji : j ≠ i := by
        rintro rfl
        exact hb hj.symm
      simp [hji]
  · intro j l hhome hj hl
    rw [hreleasing] at hj
    rw [hwriting, hreleasing] at hl
    exact h.alone j l hhome hj.1 (hl.imp_right And.left)
  · intro b hb hpool
    dsimp only
    by_cases hbi : b = q.home i
    · rw [hbi, update_self]
    · rw [update_of_ne hbi]
      exact h.gone b hb hpool

/-- The last writer of a block that is full, or one before it, is done. -/
theorem inv_msgAllocDone (h : Inv q k front parts) (hstep : q.msgAllocDone i = some q') :
    Inv q' k front parts := by
  obtain ⟨hphase, ⟨⟩⟩ := Option.ite_none_right_eq_some.mp hstep
  have hopen : (q.phase i).isOpen = true := by
    rw [hphase]
    rfl
  obtain ⟨hunread, hin⟩ := h.early i hopen
  have hcounts : q.counts i = true := by
    rw [counts, hopen]
    rfl
  have hlt := h.lt_of_counts hcounts
  have hmem : i ∈ q.users (q.home i) := mem_users.mpr ⟨hlt, rfl, hcounts⟩
  have hused := (h.part_used hin).1
  have hrefs := h.refs (q.home i) hused
  generalize hx : (if q.ref (q.home i) - 1 = 0 then Phase.releasing else .waking) = x
  have hxout : x.isOpen = false := by
    rw [← hx]
    split
    · rfl
    · rfl
  have husers (b : Addr) : ({ q with
      ref := update q.ref (q.home i) (q.ref (q.home i) - 1)
      phase := update q.phase i x } : ThreadQueue R).users b = (q.users b).erase i := by
    refine users_erase (by rfl) (by rfl) (fun j hj => ?_) ?_ b
    · unfold counts
      dsimp only
      rw [update_of_ne hj]
    · unfold counts
      dsimp only
      rw [update_self, hxout, hunread]
      rfl
  have hother {b : Addr} (hb : b ≠ q.home i) : (q.users b).erase i = q.users b := by
    refine erase_eq_of_notMem fun hi => ?_
    exact hb (mem_users.mp hi).2.1.symm
  -- the last reference goes with the duty to release the lock
  have hlast : x = .releasing ↔ ∀ j, q.home j = q.home i → q.phase j = .writing → j = i := by
    have hone : x = .releasing ↔ (q.users (q.home i)).card = 1 := by
      rw [← hx]
      split
      · exact iff_of_true rfl (by omega)
      · exact iff_of_false (by simp) (by omega)
    rw [hone, card_eq_one]
    constructor
    · rintro ⟨l, hl⟩ j hhome hj
      have hjin : j ∈ q.users (q.home i) := by
        have hjcounts : q.counts j = true := by
          rw [counts, hj]
          rfl
        exact mem_users.mpr ⟨h.lt_of_counts hjcounts, hhome, hjcounts⟩
      rw [hl, mem_singleton] at hjin hmem
      rw [hjin, hmem]
    · intro honly
      refine ⟨i, eq_singleton_iff_unique_mem.mpr ⟨hmem, fun j hj => ?_⟩⟩
      obtain ⟨-, hhome, hjcounts⟩ := mem_users.mp hj
      refine honly j hhome ?_
      cases hjphase : q.phase j with
      | writing => rfl
      | locking => exact absurd hphase (h.first j i hhome hjphase)
      | releasing | waking | sent =>
        -- it would be held by a reader, but the block is one of the writers
        rw [counts, hjphase] at hjcounts
        cases hfate : q.fate j with
        | held r => exact absurd (hhome ▸ hin) (h.held j r hfate)
        | unread | passed =>
          rw [hfate] at hjcounts
          simp [Phase.isOpen, Fate.isHeld] at hjcounts
  have hxcases : x = .releasing ∨ x = .waking := by
    rw [← hx]
    split
    · exact .inl rfl
    · exact .inr rfl
  have hxwriting : x ≠ .writing := by
    rcases hxcases with rfl | rfl
    · simp
    · simp
  have hxlocking : x ≠ .locking := by
    rcases hxcases with rfl | rfl
    · simp
    · simp
  refine { h with
    later := later_phase h (by simp [hphase])
    early := early_closed h hxout
    first := first_closed h hxlocking hxwriting
    locking := locking_closed h hxlocking
    refs := ?_, locked := ?_, alone := ?_, finishing := ?_, kept := ?_ }
  · intro b hb
    rw [husers]
    dsimp only
    by_cases hbi : b = q.home i
    · rw [hbi, update_self, card_erase_of_mem hmem]
      have hpos : 0 < (q.users (q.home i)).card := card_pos.mpr ⟨i, hmem⟩
      omega
    · rw [update_of_ne hbi, hother hbi]
      exact h.refs b hb
  · intro b
    dsimp only
    by_cases hb : b = q.home i
    · rw [hb]
      refine iff_of_true ((h.locked _).mpr ⟨i, rfl, .inl hphase⟩) ?_
      rcases hxcases with hrel | hwake
      · refine ⟨i, rfl, .inr ?_⟩
        rw [update_self, hrel]
      have hnot : ¬∀ j, q.home j = q.home i → q.phase j = .writing → j = i := by
        rw [← hlast, hwake]
        simp
      simp only [not_forall] at hnot
      obtain ⟨j, hhome, hj, hji⟩ := hnot
      refine ⟨j, hhome, .inl ?_⟩
      rw [update_of_ne hji, hj]
    · rw [h.locked]
      refine exists_congr fun j => and_congr_right fun hj => ?_
      rw [update_of_ne]
      rintro rfl
      exact hb hj.symm
  · intro j l hhome hj hl
    dsimp only at hhome hj hl
    rw [phase_update] at hj hl
    split at hj
    · rename_i hji
      split at hl
      · rename_i hli
        rw [hli, hji]
      rw [hji] at hhome ⊢
      rcases hl with hl | hl
      · exact hlast.mp hj l hhome.symm hl
      · exact (h.alone l i hhome.symm hl (.inl hphase)).symm
    · split at hl
      · rename_i hli
        rw [hli] at hhome ⊢
        exact h.alone j i hhome hj (.inl hphase)
      · exact h.alone j l hhome hj hl
  · intro r b hf
    obtain ⟨h1, h2, h3, h4, h5⟩ := h.finishing r b hf
    refine ⟨h1, h2, h3, ?_, h5⟩
    rw [husers, h4]
    rfl
  · intro b hb
    rw [husers]
    by_cases hbi : b = q.home i
    · rw [hbi]
      exact .inl hin
    · rw [hother hbi]
      exact h.kept b hb

end Eina.ThreadQueue
