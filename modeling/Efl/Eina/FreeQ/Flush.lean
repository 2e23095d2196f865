/-
What a new limit makes a free queue do.

The setters store the limit and flush: while the queue holds more than it may, its oldest
item is freed.  The number that means no limit is stored as it is, and the loop compares
with it all the same.  It never stops then, since an empty queue is over that limit too.
-/
import Efl.Eina.FreeQ.Run

namespace Eina.FreeQ.World

open List Option Bool

/-- One of the limits is exceeded; a negative number of items is no limit. -/
def Exceeded (fq : FreeQ) : Prop :=
  (0 ≤ fq.countMax ∧ fq.countMax < fq.count) ∨ fq.memMax < fq.memTotal

/-- A flush ends, within the limits, and each of its free functions is called while one of them is
exceeded; these functions return at once. -/
inductive Ends : World → Prop
  | done {w : World} (hstack : w.stack = []) (hwithin : ¬ Exceeded w.fq) : Ends w
  | free {w w' : World} {r : Option Item} (hstack : w.stack ≠ []) (hexceeded : Exceeded w.fq)
      (hret : w.step .ret = some (w', r)) (hrest : Ends w') : Ends w

/-- A call that sets a limit does what it should. -/
def Flushes (w : World) (op : Op) : Prop := ∃ w' r, w.step op = some (w', r) ∧ Ends w'

variable {w w' : World} {bs : List (Addr × Block)}

theorem enter_round (hbs : Holds w.fq bs) (hne : bs ≠ []) (htest : Loop.flush.test w.fq = true) :
    ∃ (w1 : World) (it : Item) (w2 : World) (bs' : _), w.enter .flush = some (w1, some it) ∧
      w1.fq = w.fq ∧ w1.stack ≠ [] ∧ w1.step .ret = w2.enter .flush ∧ w2.stack = w.stack ∧
      Holds w2.fq bs' ∧ (queued bs').length + 1 = (queued bs).length ∧
      SameLimits w.fq w2.fq := by
  obtain ⟨a, it, hblocks, hbegin, hhead⟩ := hbs.first hne
  obtain ⟨fq', bs', hend, hbs', hq, hsame⟩ := hbs.processEnd hblocks
  refine ⟨(w.call (.process a .flush) it).1, it, { w with
    fq := fq', freed := w.freed ++ [it], cleared := false }, bs', ?_, rfl, cons_ne_nil _ _, ?_, rfl,
    hbs', ?_, hsame⟩
  · rw [enter, if_pos htest, hbegin]
    rfl
  · simp only [step, call, hend]
    rfl
  · rw [hq, length_tail]
    have hpos : 0 < (queued bs).length := length_pos_of_mem (mem_of_mem_head? hhead)
    omega

theorem test_flush {fq : FreeQ} (hdefault : fq.postponed = false) :
    Loop.flush.test fq = true ↔ fq.countMax < fq.count ∨ fq.memMax < fq.memTotal := by
  simp [Loop.test, hdefault]

theorem enter_unlimited (hbs : Holds w.fq bs) (hdefault : w.fq.postponed = false)
    (hlimit : w.fq.countMax < 0) {r : Option Item} (henter : w.enter .flush = some (w', r)) :
    w'.stack ≠ [] ∧ ∃ (w2 : World) (bs' : _), w'.step .ret = w2.enter .flush ∧
      w2.stack = w.stack ∧ Holds w2.fq bs' ∧ SameLimits w.fq w2.fq := by
  have htest : Loop.flush.test w.fq = true := by
    have hcount := hbs.count
    exact (test_flush hdefault).mpr (.inl (by omega))
  by_cases hne : bs = []
  · subst hne
    have hblocks : w.fq.blocks = none := hbs.seg
    rw [enter, if_pos htest, processBegin, hblocks] at henter
    simp at henter
  · obtain ⟨w1, it, w2, bs', henter', -, hcalled, hret, hstack2, hbs', -, hsame⟩ :=
      enter_round hbs hne htest
    obtain ⟨rfl, -⟩ := Prod.mk.inj (some.inj (henter'.symm.trans henter))
    exact ⟨hcalled, w2, bs', hret, hstack2, hbs', hsame⟩

theorem enter_ends (hbs : Holds w.fq bs) (hstack : w.stack = []) (hdefault : w.fq.postponed = false)
    (hlimit : 0 ≤ w.fq.countMax) : ∃ w' r, w.enter .flush = some (w', r) ∧ Ends w' := by
  induction hn : (queued bs).length using Nat.strongRecOn generalizing w bs with
  | ind n ih =>
    by_cases htest : Loop.flush.test w.fq = true
    · have hne := ne_nil_of_test hbs (fun _ => hlimit) htest
      obtain ⟨w1, it, w2, bs', henter, hfq, hcalled, hret, hstack2, hbs', hlen, hsame⟩ :=
        enter_round hbs hne htest
      obtain ⟨w3, r, hnext, hends⟩ := ih _ (by omega) hbs' (hstack2.trans hstack)
        (hsame.postponed.trans hdefault) (hsame.countMax ▸ hlimit) rfl
      refine ⟨w1, some it, henter, .free hcalled ?_ (hret.trans hnext) hends⟩
      rw [hfq]
      exact ((test_flush hdefault).mp htest).imp_left fun h => ⟨hlimit, h⟩
    · rw [enter, if_neg htest]
      exact ⟨_, _, rfl,
        .done hstack fun h => htest ((test_flush hdefault).mpr (h.imp_left And.right))⟩

theorem not_ends_enter (hends : Ends w') : ∀ {w : World} {bs : List (Addr × Block)}
    {r : Option Item}, Holds w.fq bs → w.stack = [] → w.fq.postponed = false →
      w.fq.countMax < 0 → w.enter .flush ≠ some (w', r) := by
  induction hends with
  | done hstack' _ =>
    intro w bs r hbs hstack hdefault hlimit henter
    obtain ⟨hcalled, -⟩ := enter_unlimited hbs hdefault hlimit henter
    exact hcalled hstack'
  | free _ _ hret _ ih =>
    intro w bs r hbs hstack hdefault hlimit henter
    obtain ⟨-, w2, bs', hret', hstack2, hbs', hsame⟩ := enter_unlimited hbs hdefault hlimit henter
    exact ih hbs' (hstack2.trans hstack) (hsame.postponed.trans hdefault)
      (hsame.countMax ▸ hlimit) (hret'.symm.trans hret)

/-- **A limit is set as it should be exactly when the number of items is limited**, by the call or
before it. -/
theorem flushes_iff (hbs : Holds w.fq bs) (hstack : w.stack = [])
    (hdefault : w.fq.postponed = false) :
    (∀ count, w.Flushes (.countMaxSet count) ↔ 0 ≤ count) ∧
      ∀ mem, w.Flushes (.memMaxSet mem) ↔ 0 ≤ w.fq.countMax := by
  have hset : ∀ fq : FreeQ, SameItems w.fq fq → fq.postponed = false →
      ((∃ w' r, ({ w with fq := fq, cleared := false } : World).enter .flush = some (w', r) ∧
        Ends w') ↔ 0 ≤ fq.countMax) := by
    intro fq hitems hpost
    have hbs' := hbs.same hitems
    generalize hw1 : ({ w with fq := fq, cleared := false } : World) = w1
    obtain rfl : fq = w1.fq := hw1 ▸ rfl
    have hstack1 : w1.stack = [] := hw1 ▸ hstack
    constructor
    · rintro ⟨w', r, henter, hends⟩
      by_contra hlimit
      exact not_ends_enter hends hbs' hstack1 hpost (Int.not_le.mp hlimit) henter
    · exact enter_ends hbs' hstack1 hpost
  have hopen : ¬ w.fq.postponed = true := by simp [hdefault]
  refine ⟨fun count => ?_, fun mem => ?_⟩
  · have h := hset { w.fq with bypass := false, countMax := if count < 0 then -1 else count }
      ⟨rfl, rfl, rfl, rfl, rfl⟩ hdefault
    rw [Flushes, step]
    rw [if_neg hopen]
    refine h.trans ?_
    show 0 ≤ (if count < 0 then -1 else count) ↔ 0 ≤ count
    split <;> omega
  · rw [Flushes, step]
    rw [if_neg hopen]
    exact hset { w.fq with bypass := false, memMax := mem } ⟨rfl, rfl, rfl, rfl, rfl⟩ hdefault

def threeAdds : List Op :=
  [.ptrAdd (some 10) none 8 (some 0), .ptrAdd (some 11) none 8 none, .ptrAdd (some 12) none 8 none]

/-- A queue of three items; new limits free some of them, taking the limit off never returns. -/
theorem flushes_iff_three : ∃ w answers,
    Runs.run step (new (newDefault 4 1024 false)) threeAdds = some (w, answers) ∧ w.fq.count = 3 ∧
      w.Flushes (.countMaxSet 1) ∧ ¬w.Flushes (.countMaxSet (-1)) ∧ w.Flushes (.memMaxSet 8) := by
  obtain ⟨w, answers, hrun, hinv⟩ := Runs.run_invariant step_inv threeAdds
    (new (newDefault 4 1024 false)) (Started.inv (.default 4 1024 (by decide))) (by decide)
  have hsame : (Runs.run step (new (newDefault 4 1024 false)) threeAdds).map (fun p =>
      (p.1.stack, p.1.fq.postponed, p.1.fq.count, p.1.fq.countMax)) = some ([], false, 3, 4) := by
    decide
  rw [hrun] at hsame
  simp only [Option.map_some, some.injEq, Prod.mk.injEq] at hsame
  obtain ⟨hstack, hdefault, hcount, hlimit⟩ := hsame
  obtain ⟨bs, hbs, -⟩ := hinv.queue
  obtain ⟨hcountMax, hmemMax⟩ := flushes_iff hbs hstack hdefault
  refine ⟨w, answers, hrun, hcount, (hcountMax 1).mpr (by decide), ?_, (hmemMax 8).mpr ?_⟩
  · rw [hcountMax]
    decide
  · rw [hlimit]
    decide

/-- **Taking the limit off an empty queue never returns.** -/
theorem unlimited_flush_hangs : ¬ (new (newDefault 4 1024 false)).Flushes (.countMaxSet (-1)) := by
  rintro ⟨w', r, hstep, -⟩
  have hnone : ((new (newDefault 4 1024 false)).step (.countMaxSet (-1))).isNone := by decide
  rw [hstep] at hnone
  simp at hnone

end Eina.FreeQ.World
