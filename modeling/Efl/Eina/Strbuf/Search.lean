/-
Where a string occurs in another one, and what replacing it there gives.

The functions that replace look for an occurrence with `strstr` and go on behind it, one
byte further where occurrences are counted and a whole string further where all of them are
replaced.  The induction runs on the string that is left, and what was found in front of it
only shifts the positions.
-/
import Efl.Eina.Strbuf.Basic

namespace Eina.Strbuf

open List Option

/-! ### Occurrences -/

/-- The positions in a string at which another one occurs. -/
@[grind =]
def occurrences (str : List UInt8) : List UInt8 → List Nat
  | [] => []
  | c :: s =>
    let later := (occurrences str s).map (· + 1)
    if str.isPrefixOf (c :: s) then 0 :: later else later

/-- The string with other bytes in place of an occurrence. -/
def replacedAt (pos : Nat) (str by' s : List UInt8) : List UInt8 :=
  s.take pos ++ by' ++ s.drop (pos + str.length)

/-- The string with other bytes in place of all occurrences from the left to the right, where so
many bytes still belong to an occurrence. -/
@[grind =]
def replacedAll (str by' : List UInt8) : Nat → List UInt8 → List UInt8
  | _, [] => []
  | skip + 1, _ :: s => replacedAll str by' skip s
  | 0, c :: s =>
    if str.isPrefixOf (c :: s) then by' ++ replacedAll str by' (str.length - 1) s
    else c :: replacedAll str by' 0 s

/-- How many there are. -/
@[grind =]
def countAll (str : List UInt8) : Nat → List UInt8 → Nat
  | _, [] => 0
  | skip + 1, _ :: s => countAll str skip s
  | 0, c :: s =>
    if str.isPrefixOf (c :: s) then countAll str (str.length - 1) s + 1 else countAll str 0 s

variable {str by' s : List UInt8} {i n pos : Nat} {c : UInt8}

theorem strstr_cons_pos (h : str.isPrefixOf (c :: s) = true) :
    strstr str (c :: s) = some 0 := by
  rw [strstr, if_pos h]

theorem strstr_cons_neg (h : ¬ str.isPrefixOf (c :: s) = true) :
    strstr str (c :: s) = (strstr str s).map (· + 1) := by
  rw [strstr, if_neg h]

theorem strstr_split (h : strstr str s = some i) :
    ∃ a b, s = a ++ (str ++ b) ∧ a.length = i := by
  induction s generalizing i with
  | nil =>
    rw [strstr] at h
    split at h
    · rename_i hprefix
      obtain ⟨b, hb⟩ := isPrefixOf_iff_prefix.mp hprefix
      exact ⟨[], b, hb.symm, some.inj h⟩
    · cases h
  | cons c s ih =>
    by_cases hprefix : str.isPrefixOf (c :: s) = true
    · rw [strstr_cons_pos hprefix] at h
      obtain ⟨b, hb⟩ := isPrefixOf_iff_prefix.mp hprefix
      exact ⟨[], b, hb.symm, some.inj h⟩
    · rw [strstr_cons_neg hprefix] at h
      obtain ⟨j, hj, rfl⟩ := map_eq_some_iff.mp h
      obtain ⟨a, b, hab, hlen⟩ := ih hj
      exact ⟨c :: a, b, by rw [hab, cons_append], by rw [length_cons, hlen]⟩

theorem strstr_le (h : strstr str s = some i) : i + str.length ≤ s.length := by
  obtain ⟨a, b, hab, hlen⟩ := strstr_split h
  rw [hab]
  simp only [length_append]
  omega

theorem occurrences_of_strstr (h : strstr str s = some i) (hlt : i < s.length) :
    occurrences str s = i :: (occurrences str (s.drop (i + 1))).map (· + (i + 1)) := by
  induction s generalizing i with
  | nil => simp at hlt
  | cons c s ih =>
    by_cases hprefix : str.isPrefixOf (c :: s) = true
    · rw [strstr_cons_pos hprefix] at h
      obtain rfl := some.inj h
      simp [occurrences, hprefix]
    · rw [strstr_cons_neg hprefix] at h
      obtain ⟨j, hj, rfl⟩ := map_eq_some_iff.mp h
      rw [length_cons] at hlt
      rw [occurrences, if_neg hprefix, ih hj (by omega), map_cons, List.map_map]
      rfl

theorem occurrences_eq_nil (h : ∀ i, strstr str s = some i → s.length ≤ i) :
    occurrences str s = [] := by
  induction s with
  | nil => rfl
  | cons c s ih =>
    have hprefix : ¬ str.isPrefixOf (c :: s) = true := by
      intro hyes
      have hle := h 0 (strstr_cons_pos hyes)
      simp at hle
    rw [occurrences, if_neg hprefix, ih, map_nil]
    intro i hi
    have hle := h (i + 1) (by rw [strstr_cons_neg hprefix, hi, map_some])
    rw [length_cons] at hle
    omega

theorem occurrences_split (h : pos ∈ occurrences str s) :
    ∃ a b, s = a ++ (str ++ b) ∧ a.length = pos := by
  induction s generalizing pos with
  | nil => cases h
  | cons c s ih =>
    have hlater : ∀ {q : Nat}, q ∈ (occurrences str s).map (· + 1) →
        ∃ a b, c :: s = a ++ (str ++ b) ∧ a.length = q := by
      intro q hq
      obtain ⟨p, hp, rfl⟩ := mem_map.mp hq
      obtain ⟨a, b, hab, hlen⟩ := ih hp
      exact ⟨c :: a, b, by rw [hab, cons_append], by rw [length_cons, hlen]⟩
    rw [occurrences] at h
    split at h
    · rename_i hprefix
      rcases mem_cons.mp h with rfl | h
      · obtain ⟨b, hb⟩ := isPrefixOf_iff_prefix.mp hprefix
        exact ⟨[], b, hb.symm, rfl⟩
      · exact hlater h
    · exact hlater h

/-! ### The searches of the functions that replace one -/

theorem occurrences_drop (str s : List UInt8) (pos : Nat) :
    (occurrences str (s.drop pos)).map (· + pos) =
      match strstr str (s.drop pos) with
      | none => []
      | some i =>
        if s.length ≤ pos + i then []
        else (pos + i) :: (occurrences str (s.drop (pos + i + 1))).map (· + (pos + i + 1)) := by
  cases hfound : strstr str (s.drop pos) with
  | none => rw [occurrences_eq_nil (by simp [hfound])]; rfl
  | some i =>
    dsimp only
    split
    · rw [occurrences_eq_nil]
      · rfl
      · intro j hj
        obtain rfl := some.inj (hfound.symm.trans hj)
        rw [length_drop]
        omega
    · have hshift : (· + pos) ∘ (· + (i + 1)) = (· + (pos + i + 1)) := by
        funext x
        simp only [Function.comp_apply]
        omega
      rw [occurrences_of_strstr hfound (by rw [length_drop]; omega), map_cons, List.map_map,
        drop_drop, hshift, Nat.add_assoc, Nat.add_comm]

/-- **The search for the occurrence number `n + 1`.** -/
theorem findNth_eq (str s : List UInt8) (n pos : Nat) :
    findNth str s n pos = ((occurrences str (s.drop pos)).map (· + pos))[n]? := by
  induction n generalizing pos with
  | zero =>
    rw [findNth, occurrences_drop]
    cases strstr str (s.drop pos) with
    | none => rfl
    | some i => dsimp only; split <;> rfl
  | succ n ih =>
    rw [findNth, occurrences_drop]
    cases strstr str (s.drop pos) with
    | none => rfl
    | some i =>
      dsimp only
      split
      · rfl
      · rw [ih, getElem?_cons_succ]

/-- **The search for the last occurrence.** -/
theorem findLast_eq (str s : List UInt8) (fuel pos : Nat) (spos : Option Nat)
    (hfuel : s.length < fuel + pos) :
    findLast str s fuel pos spos =
      ((occurrences str (s.drop pos)).map (· + pos)).getLast?.or spos := by
  induction fuel generalizing pos spos with
  | zero =>
    rw [drop_eq_nil_of_le (by omega)]
    rfl
  | succ fuel ih =>
    rw [findLast, occurrences_drop]
    cases strstr str (s.drop pos) with
    | none => rfl
    | some i =>
      dsimp only
      split
      · rfl
      · rw [ih _ _ (by omega), getLast?_cons]
        cases getLast? _ <;> rfl

/-! ### Replacing all of them -/

@[simp] theorem replacedAll_skip (n : Nat) :
    replacedAll str by' n s = replacedAll str by' 0 (s.drop n) := by
  induction n generalizing s with
  | zero => rfl
  | succ n ih =>
    cases s with
    | nil => rfl
    | cons c s => rw [replacedAll, ih, drop_succ_cons]

@[simp] theorem countAll_skip (n : Nat) : countAll str n s = countAll str 0 (s.drop n) := by
  induction n generalizing s with
  | zero => rfl
  | succ n ih =>
    cases s with
    | nil => rfl
    | cons c s => rw [countAll, ih, drop_succ_cons]

theorem replacedAll_of_none (by' : List UInt8) (h : strstr str s = none) :
    replacedAll str by' 0 s = s ∧ countAll str 0 s = 0 := by
  induction s with
  | nil => exact ⟨rfl, rfl⟩
  | cons c s ih =>
    have hprefix : ¬ str.isPrefixOf (c :: s) = true := by
      intro hyes
      rw [strstr_cons_pos hyes] at h
      cases h
    rw [strstr_cons_neg hprefix, map_eq_none_iff] at h
    obtain ⟨h1, h2⟩ := ih h
    rw [replacedAll, countAll, if_neg hprefix, if_neg hprefix, h1, h2]
    exact ⟨rfl, rfl⟩

theorem replacedAll_of_some (by' : List UInt8) (hne : str ≠ []) (h : strstr str s = some i) :
    replacedAll str by' 0 s = s.take i ++ by' ++ replacedAll str by' 0 (s.drop (i + str.length)) ∧
      countAll str 0 s = countAll str 0 (s.drop (i + str.length)) + 1 := by
  induction s generalizing i with
  | nil =>
    have hle := strstr_le h
    have hpos := length_pos_of_ne_nil hne
    simp only [length_nil] at hle
    omega
  | cons c s ih =>
    have hpos := length_pos_of_ne_nil hne
    by_cases hprefix : str.isPrefixOf (c :: s) = true
    · rw [strstr_cons_pos hprefix] at h
      obtain rfl := some.inj h
      have hdrop : (c :: s).drop (0 + str.length) = s.drop (str.length - 1) := by
        obtain ⟨m, hm⟩ := Nat.exists_eq_succ_of_ne_zero (Nat.ne_of_gt hpos)
        rw [hm, Nat.zero_add, Nat.succ_eq_add_one, drop_succ_cons, Nat.add_sub_cancel]
      rw [replacedAll, countAll, if_pos hprefix, if_pos hprefix, replacedAll_skip, countAll_skip,
        hdrop]
      exact ⟨rfl, rfl⟩
    · rw [strstr_cons_neg hprefix] at h
      obtain ⟨j, hj, rfl⟩ := map_eq_some_iff.mp h
      obtain ⟨h1, h2⟩ := ih hj
      have hdrop : (c :: s).drop (j + 1 + str.length) = s.drop (j + str.length) := by
        rw [show j + 1 + str.length = (j + str.length) + 1 by omega, drop_succ_cons]
      rw [replacedAll, countAll, if_neg hprefix, if_neg hprefix, h1, h2, hdrop]
      exact ⟨rfl, rfl⟩

theorem length_replacedAll (hne : str ≠ []) (by' s : List UInt8) :
    (replacedAll str by' 0 s).length + countAll str 0 s * str.length =
      s.length + countAll str 0 s * by'.length := by
  induction hn : s.length using Nat.strongRecOn generalizing s with
  | ind n ih =>
    cases hfound : strstr str s with
    | none =>
      obtain ⟨h1, h2⟩ := replacedAll_of_none by' hfound
      rw [h1, h2, hn, Nat.zero_mul, Nat.zero_mul]
    | some i =>
      obtain ⟨h1, h2⟩ := replacedAll_of_some by' hne hfound
      have hle := strstr_le hfound
      have hpos := length_pos_of_ne_nil hne
      have hdrop : (s.drop (i + str.length)).length = n - (i + str.length) := by
        rw [length_drop, hn]
      have hrest := ih _ (by omega) (s.drop (i + str.length)) hdrop
      rw [h1, h2, Nat.add_mul, Nat.add_mul, length_append,
        length_append, length_take]
      omega

end Eina.Strbuf
