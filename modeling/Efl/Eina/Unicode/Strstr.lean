/-
`eina_unicode_strstr`.

The inner loop moves the pointer of the outer one, and nothing moves it back.  So where
the needle is found only in part, the search goes on behind the code point that ended the
part, and an occurrence that begins inside is passed over.  Where the part is ended by the
end of the haystack, the outer loop steps over the terminator.
-/
import Efl.Eina.Unicode.Basic

namespace Eina.Unicode

open List Option

/-- The inner loop: where `i` and `j` point when it ends. -/
def advance : List Nat → List Nat → Option (List Nat × List Nat)
  | _, [] => none
  | i, c :: j =>
    if c = 0 then some (i, c :: j)
    else
      match i with
      | [] => none
      | d :: i' => if d ≠ 0 ∧ c = d then advance i' j else some (d :: i', c :: j)

/-- The outer loop from `i` on, for a number of rounds; the inner `none` is a null pointer. -/
def strstrFrom (needle : List Nat) : Nat → List Nat → Option (Option (List Nat))
  | 0, _ => none
  | _ + 1, [] => none
  | fuel + 1, c :: i =>
    if c = 0 then some none
    else
      (advance (c :: i) needle).bind fun (i', j) =>
        if j.head? = some 0 then some (some (c :: i)) else strstrFrom needle fuel i'.tail

/-- `eina_unicode_strstr`, of two strings with their terminators. -/
def strstr (haystack needle : List Nat) : Option (Option (List Nat)) :=
  strstrFrom needle haystack.length haystack

/-! ### What is asked of it -/

def MatchAt (needle haystack : List Nat) (p : Nat) : Prop :=
  p ≤ haystack.length ∧ needle <+: haystack.drop p

instance (needle haystack : List Nat) (p : Nat) : Decidable (MatchAt needle haystack p) :=
  inferInstanceAs (Decidable (_ ∧ _))

/-- The first occurrence is returned, or null where there is none, and nothing is read behind a
terminator. -/
def Finds (haystack needle : List Nat) : Prop :=
  (∃ p, strstr (cstr haystack) (cstr needle) = some (some ((cstr haystack).drop p)) ∧
    MatchAt needle haystack p ∧ ∀ q < p, ¬ MatchAt needle haystack q) ∨
  strstr (cstr haystack) (cstr needle) = some none ∧ ∀ q, ¬ MatchAt needle haystack q

/-- A beginning of the needle, not all of it, and a code point that does not continue it. -/
def Piece (needle s : List Nat) : Prop :=
  ∃ q c, s = q ++ [c] ∧ q <+: needle ∧ q ≠ needle ∧ ¬ s <+: needle

/-- What is in front of the first occurrence, or all of the haystack where there is none, is made
of pieces. -/
def Passes (haystack needle : List Nat) : Prop :=
  (needle ≠ [] ∨ haystack ≠ []) ∧ ∃ (pieces : List (List Nat)) (rest : List Nat),
    haystack = pieces.flatten ++ rest ∧ (∀ s ∈ pieces, Piece needle s) ∧
      (needle <+: rest ∨ rest = []) ∧
      ∀ q < pieces.flatten.length, ¬ MatchAt needle haystack q

/-! ### One round -/

variable {q s n : List Nat} {needle haystack : List Nat} {fuel : Nat}

theorem advance_append (hq : 0 ∉ q) (i j : List Nat) : advance (q ++ i) (q ++ j) = advance i j := by
  induction q with
  | nil => rfl
  | cons c q ih =>
    obtain ⟨hc, hq⟩ := not_or.mp (mem_cons.not.mp hq)
    rw [cons_append, cons_append, advance, if_neg (Ne.symm hc)]
    rw [if_pos ⟨symm hc, rfl⟩]
    exact ih hq

/-- The needle ends, the haystack ends, or they differ. -/
def Stuck (s n : List Nat) : Prop := n = [] ∨ s = [] ∨ s.head? ≠ n.head?

theorem exists_stuck (s n : List Nat) : ∃ q s' n', s = q ++ s' ∧ n = q ++ n' ∧ Stuck s' n' := by
  induction n generalizing s with
  | nil => exact ⟨[], s, [], rfl, rfl, .inl rfl⟩
  | cons c n ih =>
    cases s with
    | nil => exact ⟨[], [], c :: n, rfl, rfl, .inr (.inl rfl)⟩
    | cons d s =>
      by_cases hcd : d = c
      · subst hcd
        obtain ⟨q, s', n', rfl, rfl, hstuck⟩ := ih s
        exact ⟨d :: q, s', n', rfl, rfl, hstuck⟩
      · exact ⟨[], d :: s, c :: n, rfl, rfl, .inr (.inr (by simpa using hcd))⟩

theorem advance_stuck (h : Stuck s n) (hn : 0 ∉ n) :
    advance (cstr s) (cstr n) = some (cstr s, cstr n) := by
  cases n with
  | nil => cases s <;> rfl
  | cons c n =>
    have hc : c ≠ 0 := fun h0 => hn (h0 ▸ mem_cons_self)
    cases s with
    | nil => simp [cstr, advance]
    | cons d s =>
      have hdc : ¬ (d ≠ 0 ∧ c = d) := by
        rintro ⟨-, rfl⟩
        simp [Stuck] at h
      rw [cstr, cstr, cons_append, cons_append, advance, if_neg hc]
      rw [if_neg hdc]

theorem round_eq (h : Stuck s n) (hs : 0 ∉ q ++ s) (hn : 0 ∉ q ++ n) (hne : q ++ s ≠ [])
    (fuel : Nat) : strstrFrom (cstr (q ++ n)) (fuel + 1) (cstr (q ++ s)) =
      if n = [] then some (some (cstr (q ++ s)))
      else strstrFrom (cstr (q ++ n)) fuel (cstr s).tail := by
  have hadvance : advance (cstr (q ++ s)) (cstr (q ++ n)) = some (cstr s, cstr n) := by
    rw [cstr, cstr, append_assoc, append_assoc,
      advance_append fun hmem => hs (mem_append_left _ hmem)]
    exact advance_stuck h fun hmem => hn (mem_append_right _ hmem)
  obtain ⟨c, t, hct⟩ := exists_cons_of_ne_nil hne
  have hc : c ≠ 0 := fun h0 => hs (hct ▸ h0 ▸ mem_cons_self)
  have hcells : cstr (q ++ s) = c :: cstr t := by
    rw [hct]
    rfl
  have hend : (cstr n).head? = some 0 ↔ n = [] := by
    cases n with
    | nil => simp [cstr]
    | cons d n =>
      have hd : d ≠ 0 := fun h0 => hn (mem_append_right _ (h0 ▸ mem_cons_self))
      simp [cstr, hd]
  rw [hcells] at hadvance ⊢
  rw [strstrFrom, if_neg hc, hadvance, bind_some]
  simp only [hend]

/-! ### All rounds -/

theorem strstrFrom_pieces {pieces : List (List Nat)} {rest : List Nat} (hn : 0 ∉ needle)
    (hpieces : ∀ s ∈ pieces, Piece needle s) (hs : 0 ∉ pieces.flatten ++ rest)
    (hrest : needle <+: rest ∧ rest ≠ [] ∨ rest = [])
    (hfuel : (pieces.flatten ++ rest).length < fuel) :
    strstrFrom (cstr needle) fuel (cstr (pieces.flatten ++ rest)) =
      some (if rest = [] then none else some (cstr rest)) := by
  induction pieces generalizing fuel with
  | nil =>
    obtain ⟨fuel, rfl⟩ := Nat.exists_eq_succ_of_ne_zero (Nat.ne_zero_of_lt hfuel)
    rcases hrest with ⟨⟨t, rfl⟩, hne⟩ | rfl
    · have hround := round_eq (q := needle) (.inl rfl) hs (by rwa [append_nil]) hne fuel
      rw [append_nil] at hround
      rw [flatten_nil, if_neg hne]
      exact hround
    · rfl
  | cons s pieces ih =>
    obtain ⟨q, c, rfl, ⟨n, rfl⟩, hne, hnot⟩ := hpieces s mem_cons_self
    obtain ⟨fuel, rfl⟩ := Nat.exists_eq_succ_of_ne_zero (Nat.ne_zero_of_lt hfuel)
    rw [flatten_cons, append_assoc, append_assoc] at hs hfuel ⊢
    have hn' : n ≠ [] := by
      rintro rfl
      exact hne (append_nil q).symm
    have hstuck : Stuck (c :: (pieces.flatten ++ rest)) n := by
      refine .inr (.inr ?_)
      obtain ⟨d, n, rfl⟩ := exists_cons_of_ne_nil hn'
      rintro heq
      obtain rfl : c = d := by simpa using heq
      exact hnot ⟨n, by simp⟩
    rw [singleton_append] at hs hfuel ⊢
    rw [round_eq hstuck hs hn (by simp), if_neg hn']
    refine ih (fun s hs => hpieces s (mem_cons_of_mem _ hs)) ?_ ?_
    · exact fun hmem => hs (mem_append_right _ (mem_cons_of_mem _ hmem))
    · simp only [length_append, length_cons] at hfuel ⊢
      omega

theorem pieces_of_strstrFrom (hn : 0 ∉ needle) {s : List Nat} (hs : 0 ∉ s)
    {r : Option (List Nat)} (h : strstrFrom (cstr needle) fuel (cstr s) = some r) :
    ∃ (pieces : List (List Nat)) (rest : List Nat), s = pieces.flatten ++ rest ∧
      (∀ s ∈ pieces, Piece needle s) ∧
      (r = none ∧ rest = [] ∨ r = some (cstr rest) ∧ needle <+: rest ∧ rest ≠ []) := by
  induction fuel generalizing s with
  | zero => simp [strstrFrom] at h
  | succ fuel ih =>
    by_cases hne : s = []
    · subst hne
      exact ⟨[], [], rfl, by simp, .inl ⟨(some.inj h).symm, rfl⟩⟩
    obtain ⟨q, s', n', rfl, rfl, hstuck⟩ := exists_stuck s needle
    rw [round_eq hstuck hs hn hne] at h
    by_cases hn' : n' = []
    · rw [if_pos hn'] at h
      subst hn'
      exact ⟨[], q ++ s', rfl, by simp, .inr ⟨(some.inj h).symm, by simp, hne⟩⟩
    rw [if_neg hn'] at h
    cases s' with
    | nil => cases fuel <;> simp [cstr, strstrFrom] at h
    | cons c t =>
      obtain ⟨pieces, rest, rfl, hpieces, hr⟩ :=
        ih (fun hmem => hs (mem_append_right _ (mem_cons_of_mem _ hmem))) h
      refine ⟨(q ++ [c]) :: pieces, rest, by simp, ?_, hr⟩
      refine forall_mem_cons.mpr ⟨⟨q, c, rfl, prefix_append q n', by simp [hn'], ?_⟩, hpieces⟩
      rintro ⟨t, ht⟩
      rw [append_assoc, append_cancel_left_eq] at ht
      subst ht
      simp [Stuck] at hstuck

/-- **The search does what it should exactly when what it passes over is made of pieces.** -/
theorem strstr_finds_iff (hh : 0 ∉ haystack) (hn : 0 ∉ needle) :
    Finds haystack needle ↔ Passes haystack needle := by
  have hcells : ∀ l r : List Nat, (cstr (l ++ r)).drop l.length = cstr r := by
    intro l r
    rw [cstr, append_assoc, drop_left]
    rfl
  constructor
  · rintro (⟨p, hrun, hmatch, hfirst⟩ | ⟨hrun, hnone⟩)
    · obtain ⟨pieces, rest, rfl, hpieces, ⟨hr, -⟩ | ⟨hr, hprefix, hne⟩⟩ :=
        pieces_of_strstrFrom hn hh hrun
      · simp at hr
      have hlen := congrArg length (some.inj hr)
      have hp : p = pieces.flatten.length := by
        have hle := hmatch.1
        simp only [cstr, length_drop, length_append] at hlen hle
        omega
      exact ⟨.inr (by simp [hne]), pieces, rest, rfl, hpieces, .inl hprefix, hp ▸ hfirst⟩
    · obtain ⟨pieces, rest, rfl, hpieces, ⟨-, rfl⟩ | ⟨hr, -⟩⟩ := pieces_of_strstrFrom hn hh hrun
      · refine ⟨.inl ?_, pieces, [], rfl, hpieces, .inr rfl, fun q _ => hnone q⟩
        rintro rfl
        exact hnone 0 ⟨Nat.zero_le _, nil_prefix⟩
      · simp at hr
  · rintro ⟨hne, pieces, rest, rfl, hpieces, hrest, hfirst⟩
    have hrest' : needle <+: rest ∧ rest ≠ [] ∨ rest = [] := by tauto
    have hrun := strstrFrom_pieces hn hpieces hh hrest'
      (show _ < (cstr (pieces.flatten ++ rest)).length by simp [cstr])
    by_cases h : rest = []
    · subst h
      refine .inr ⟨hrun, ?_⟩
      intro q hq
      by_cases hlt : q < pieces.flatten.length
      · exact hfirst q hlt hq
      -- only the empty needle is found at the end
      obtain ⟨-, hprefix⟩ := hq
      rw [append_nil, drop_eq_nil_of_le (Nat.le_of_not_lt hlt), prefix_nil] at hprefix
      subst hprefix
      have hpos : 0 < pieces.flatten.length := by
        rw [append_nil] at hne
        exact length_pos_of_ne_nil (hne.resolve_left fun h => h rfl)
      exact hfirst 0 hpos ⟨Nat.zero_le _, nil_prefix⟩
    · rw [if_neg h, ← hcells pieces.flatten rest] at hrun
      refine .inl ⟨_, hrun, ⟨by simp, ?_⟩, hfirst⟩
      rw [drop_left]
      exact hrest.resolve_right h

theorem strstr_finds_iff_sample : Finds [1, 3, 1, 2] [1, 2] ↔ Passes [1, 3, 1, 2] [1, 2] :=
  strstr_finds_iff (by decide) (by decide)

/-- **An occurrence that begins inside a part of the needle is not found.** -/
theorem strstr_misses : ¬ Finds [1, 1, 1, 2] [1, 1, 2] := by
  rintro (⟨p, hrun, -⟩ | ⟨-, hnone⟩)
  · have hnull : strstr (cstr [1, 1, 1, 2]) (cstr [1, 1, 2]) = some none := by decide
    rw [hnull] at hrun
    simp at hrun
  · exact hnone 1 (by decide)

end Eina.Unicode
