/-
Walking along two sequences at once, as a merge does.

The walk stands at one entry of each and goes on in the sequence whose entry is not greater.  At the
last entry of a sequence it goes on in the other one, if the sequence is `open` there.  Nothing says
that the sequences are sorted, so not every pair is met.  `Meets` says which ones are: everything
before the pair has been passed by something up to it in the other sequence.
-/
import Mathlib.Data.Finset.Max
import Mathlib.Order.Interval.Finset.Nat

namespace MergeWalk

open Relation

variable {K : Type}

/-- A sequence of keys, and whether the walk stays at its last entry. -/
structure Seq (K : Type) where
  key : Nat → K
  length : Nat
  isOpen : Prop

/-- The walk stays at this entry until the other sequence is at its end, too. -/
def Seq.Stays (s : Seq K) (i : Nat) : Prop := i + 1 = s.length ∧ s.isOpen

theorem Seq.Stays.not_lt {s : Seq K} {k l : Nat} (h : s.Stays k) (hl : l < s.length) : ¬k < l := by
  have hk := h.1
  omega

variable [LinearOrder K] {a b : Seq K} {i j : Nat}

/-- The walk goes on to another pair. -/
inductive Step (a b : Seq K) : Nat × Nat → Nat × Nat → Prop
  | first {i j : Nat} (hi : i + 1 < a.length) (h : a.key i ≤ b.key j ∨ b.Stays j) :
      Step a b (i, j) (i + 1, j)
  | second {i j : Nat} (hj : j + 1 < b.length) (h : b.key j < a.key i ∨ a.Stays i) :
      Step a b (i, j) (i, j + 1)

/-- The walk comes to the pair. -/
def Met (a b : Seq K) (i j : Nat) : Prop := ReflTransGen (Step a b) (0, 0) (i, j)

/-- What is before the pair is passed by something up to it. -/
structure Meets (a b : Seq K) (i j : Nat) : Prop where
  fst : i < a.length
  snd : j < b.length
  passedFst : ∀ k < i, ∃ l ≤ j, a.key k ≤ b.key l ∨ b.Stays l
  passedSnd : ∀ l < j, ∃ k ≤ i, b.key l < a.key k ∨ a.Stays k

theorem Meets.first (h : Meets a b i j) (hi : i + 1 < a.length)
    (hpass : a.key i ≤ b.key j ∨ b.Stays j) : Meets a b (i + 1) j := by
  refine ⟨hi, h.snd, fun k hk => ?_, fun l hl => ?_⟩
  · rcases Nat.lt_succ_iff_lt_or_eq.mp hk with hk | rfl
    · exact h.passedFst k hk
    · exact ⟨j, le_refl j, hpass⟩
  · obtain ⟨k, hk, hpass⟩ := h.passedSnd l hl
    exact ⟨k, Nat.le_succ_of_le hk, hpass⟩

theorem Meets.second (h : Meets a b i j) (hj : j + 1 < b.length)
    (hpass : b.key j < a.key i ∨ a.Stays i) : Meets a b i (j + 1) := by
  refine ⟨h.fst, hj, fun k hk => ?_, fun l hl => ?_⟩
  · obtain ⟨l, hl, hpass⟩ := h.passedFst k hk
    exact ⟨l, Nat.le_succ_of_le hl, hpass⟩
  · rcases Nat.lt_succ_iff_lt_or_eq.mp hl with hl | rfl
    · exact h.passedSnd l hl
    · exact ⟨i, le_refl i, hpass⟩

theorem Met.meets (ha : 0 < a.length) (hb : 0 < b.length) (h : Met a b i j) : Meets a b i j := by
  have hgeneral : ∀ p, ReflTransGen (Step a b) (0, 0) p → Meets a b p.1 p.2 := by
    intro p hp
    induction hp with
    | refl => exact ⟨ha, hb, by simp, by simp⟩
    | tail _ hstep ih =>
      cases hstep with
      | first hi hpass => exact ih.first hi hpass
      | second hj hpass => exact ih.second hj hpass
  exact hgeneral (i, j) h

theorem exists_greatest (s : Seq K) (j : Nat) :
    ∃ l ≤ j, ∀ k ≤ j, s.key k ≤ s.key l := by
  obtain ⟨l, hl, hmax⟩ := Finset.exists_max_image (Finset.range (j + 1)) s.key ⟨0, by simp⟩
  refine ⟨l, by simpa [Nat.lt_succ_iff] using hl, fun k hk => hmax k ?_⟩
  simpa [Nat.lt_succ_iff] using hk

theorem Meets.goes_second {j' : Nat} (h : Meets a b i j) (h' : Meets a b i j') (hlt : j' < j) :
    b.key j' < a.key i ∨ a.Stays i := by
  by_contra hnot
  obtain ⟨hkey, hstays⟩ := not_or.mp hnot
  have hkey := not_lt.mp hkey
  -- the greatest key before the pair is passed by one that is passed itself
  obtain ⟨l, hl, hmax⟩ := exists_greatest b j'
  obtain ⟨k, hk, hpass⟩ := h.passedSnd l (by omega)
  rcases hpass with hpass | hpass
  · rcases lt_or_eq_of_le hk with hk | rfl
    · obtain ⟨l', hl', hpass'⟩ := h'.passedFst k hk
      rcases hpass' with hpass' | hpass'
      · exact absurd (hmax l' hl') (not_le.mpr (lt_of_lt_of_le hpass hpass'))
      · exact hpass'.not_lt h.snd (by omega)
    · exact absurd (hkey.trans (hmax j' (le_refl j'))) (not_le.mpr hpass)
  · rcases lt_or_eq_of_le hk with hk | rfl
    · exact hpass.not_lt h.fst hk
    · exact hstays hpass

theorem Meets.goes_first {i' : Nat} (h : Meets a b i j) (h' : Meets a b i' j) (hlt : i' < i) :
    a.key i' ≤ b.key j ∨ b.Stays j := by
  by_contra hnot
  obtain ⟨hkey, hstays⟩ := not_or.mp hnot
  have hkey := not_le.mp hkey
  obtain ⟨k, hk, hmax⟩ := exists_greatest a i'
  obtain ⟨l, hl, hpass⟩ := h.passedFst k (by omega)
  rcases hpass with hpass | hpass
  · rcases lt_or_eq_of_le hl with hl | rfl
    · obtain ⟨k', hk', hpass'⟩ := h'.passedSnd l hl
      rcases hpass' with hpass' | hpass'
      · exact absurd (hmax k' hk') (not_le.mpr (lt_of_le_of_lt hpass hpass'))
      · exact hpass'.not_lt h.fst (by omega)
    · exact absurd ((hmax i' (le_refl i')).trans hpass) (not_le.mpr hkey)
  · rcases lt_or_eq_of_le hl with hl | rfl
    · exact hpass.not_lt h.snd hl
    · exact hstays hpass

theorem Meets.reached (h : Meets a b i j) {left i' j' : Nat} (h' : Meets a b i' j') (hi : i' ≤ i)
    (hj : j' ≤ j) (hleft : (i - i') + (j - j') = left) :
    ReflTransGen (Step a b) (i', j') (i, j) := by
  induction left generalizing i' j' with
  | zero =>
    obtain rfl : i' = i := by omega
    obtain rfl : j' = j := by omega
    exact ReflTransGen.refl
  | succ left ih =>
    have hifst := h.fst
    have hjsnd := h.snd
    have hfirst : i' < i → (a.key i' ≤ b.key j' ∨ b.Stays j') →
        ReflTransGen (Step a b) (i', j') (i, j) := by
      intro hlt hpass
      have hnext : i' + 1 < a.length := by omega
      exact ReflTransGen.head (.first hnext hpass)
        (ih (h'.first hnext hpass) (by omega) hj (by omega))
    have hsecond : j' < j → (b.key j' < a.key i' ∨ a.Stays i') →
        ReflTransGen (Step a b) (i', j') (i, j) := by
      intro hlt hpass
      have hnext : j' + 1 < b.length := by omega
      exact ReflTransGen.head (.second hnext hpass)
        (ih (h'.second hnext hpass) hi (by omega) (by omega))
    rcases lt_or_eq_of_le hi with hi | rfl
    · rcases lt_or_eq_of_le hj with hj | rfl
      · rcases le_or_gt (a.key i') (b.key j') with hle | hgt
        · exact hfirst hi (.inl hle)
        · exact hsecond hj (.inl hgt)
      · exact hfirst hi (h.goes_first h' hi)
    · have hlt : j' < j := by omega
      exact hsecond hlt (h.goes_second h' hlt)

/-- **The pairs that are met** are the ones before which everything is passed. -/
theorem met_iff (ha : 0 < a.length) (hb : 0 < b.length) : Met a b i j ↔ Meets a b i j := by
  constructor
  · exact Met.meets ha hb
  · intro h
    have hstart : Meets a b 0 0 := ⟨ha, hb, by simp, by simp⟩
    exact h.reached hstart (Nat.zero_le i) (Nat.zero_le j) rfl

end MergeWalk
