/-
`eolian_expression_value_to_literal`: strings and characters as C literals.

The escapes are those of C, and a byte that has none and is not printable is written as `\x` and
as few hexadecimal digits as it takes.  C takes all hexadecimal digits that follow, so the text
is wrong exactly where such a byte is followed by a digit of its own (`denotes_iff`).
-/
import Mathlib.Data.List.Chain
import Efl.Eolian.Expr.Basic

namespace Eolian

open List Option

/-- The byte as a `char`. -/
def signedChar (c : UInt8) : Int := if c < 128 then c.toNat else c.toNat - 256

/-- A digit of `%X`. -/
def hexDigit (n : Nat) : UInt8 := if n < 10 then .ofNat (48 + n) else .ofNat (55 + n)

/-- `%X` of an `unsigned char`. -/
def printHex (c : UInt8) : Text :=
  if c.toNat < 16 then [hexDigit c.toNat] else [hexDigit (c.toNat / 16), hexDigit (c.toNat % 16)]

/-- The letter of the escapes that C has for a byte. -/
def escapeLetter (c : UInt8) : Option UInt8 :=
  if c = 39 ∨ c = 34 ∨ c = 63 ∨ c = 92 then some c
  else if c = 7 then some 97
  else if c = 8 then some 98
  else if c = 12 then some 102
  else if c = 10 then some 110
  else if c = 13 then some 114
  else if c = 9 then some 116
  else if c = 11 then some 118
  else none

/-- `_append_char_escaped`: what is appended. -/
def appendCharEscaped (c : UInt8) : Text :=
  match escapeLetter c with
  | some e => [92, e]
  | none => if signedChar c < 32 ∨ 126 < signedChar c then 92 :: 120 :: printHex c else [c]

/-- A value of type string or char. -/
inductive TextValue where
  | string (s : Text)
  | char (c : UInt8)
  deriving DecidableEq, Repr

/-- The bytes of the value; a string ends at its first zero. -/
def TextValue.bytes : TextValue → Text
  | .string s => s.takeWhile (· ≠ 0)
  | .char c => [c]

/-- The quote that is written at both ends. -/
def TextValue.quote : TextValue → UInt8
  | .string _ => 34
  | .char _ => 39

/-- `eolian_expression_value_to_literal` -/
def valueToLiteral (v : TextValue) : Text :=
  v.quote :: (v.bytes.flatMap appendCharEscaped ++ [v.quote])

/-! ### Literals in C -/

/-- The value of a hexadecimal digit. -/
def hexValue (c : UInt8) : Option Nat :=
  if 48 ≤ c ∧ c ≤ 57 then some (c.toNat - 48)
  else if 65 ≤ c ∧ c ≤ 70 then some (c.toNat - 55)
  else if 97 ≤ c ∧ c ≤ 102 then some (c.toNat - 87)
  else none

def isHex (c : UInt8) : Bool := (hexValue c).isSome

/-- The number that hexadecimal digits stand for. -/
def hexNumber (digits : Text) : Nat :=
  digits.foldl (fun n c => 16 * n + (hexValue c).getD 0) 0

def isOctal (c : UInt8) : Bool := 48 ≤ c && c ≤ 55

/-- The number that octal digits stand for. -/
def octalNumber (digits : Text) : Nat := digits.foldl (fun n c => 8 * n + (c.toNat - 48)) 0

/-- The byte of an escape with one letter. -/
def simpleEscape (c : UInt8) : Option UInt8 :=
  if c = 39 ∨ c = 34 ∨ c = 63 ∨ c = 92 then some c
  else if c = 97 then some 7
  else if c = 98 then some 8
  else if c = 102 then some 12
  else if c = 110 then some 10
  else if c = 114 then some 13
  else if c = 116 then some 9
  else if c = 118 then some 11
  else none

/-- An escape behind its backslash: its byte, and what follows.  A hexadecimal escape takes all
    digits there are, an octal one three at most; the value has to be that of a byte. -/
def readEscape : Text → Option (UInt8 × Text)
  | [] => none
  | c :: rest =>
    if c = 120 then
      let digits := rest.takeWhile isHex
      if digits = [] ∨ 256 ≤ hexNumber digits then none
      else some (.ofNat (hexNumber digits), rest.dropWhile isHex)
    else if isOctal c then
      let digits := c :: (rest.take 2).takeWhile isOctal
      if 256 ≤ octalNumber digits then none
      else some (.ofNat (octalNumber digits), (c :: rest).drop digits.length)
    else (simpleEscape c).map (·, rest)

/-- What a literal denotes from a place in it up to its closing quote, which must be the end of
    the text. -/
def literalBytes (quote : UInt8) : Nat → Text → Option Text
  | 0, _ => none
  | _ + 1, [] => none
  | fuel + 1, c :: rest =>
    if c = quote then if rest = [] then some [] else none
    else if c = 10 then none
    else if c = 92 then
      (readEscape rest).bind fun (b, rest) => (literalBytes quote fuel rest).map (b :: ·)
    else (literalBytes quote fuel rest).map (c :: ·)

/-- What a text denotes as a C literal in the given quotes. -/
def readLiteral (quote : UInt8) : Text → Option Text
  | [] => none
  | c :: rest => if c = quote then literalBytes quote rest.length rest else none

/-- The literal of the value denotes its bytes. -/
def TextValue.Denotes (v : TextValue) : Prop :=
  readLiteral v.quote (valueToLiteral v) = some v.bytes

instance (v : TextValue) : Decidable v.Denotes := inferInstanceAs (Decidable (_ = _))

/-- The byte is written as a hexadecimal escape. -/
def hexEscaped (c : UInt8) : Bool :=
  (escapeLetter c).isNone && (decide (signedChar c < 32) || decide (126 < signedChar c))

/-- No byte that is written as a hexadecimal escape is followed by a hexadecimal digit. -/
def Apart (s : Text) : Prop := s.IsChain fun c d => ¬(hexEscaped c = true ∧ isHex d = true)

/-! ### What is written is read -/

variable {c d q e : UInt8} {s : Text} {n : Nat}

theorem escapeLetter_simple (h : escapeLetter c = some e) :
    e ≠ 120 ∧ isOctal e = false ∧ simpleEscape e = some c := by
  unfold escapeLetter at h
  split_ifs at h with h1 h2 h3 h4 h5 h6 h7 h8
  · obtain rfl := some.inj h
    rcases h1 with rfl | rfl | rfl | rfl <;> decide
  all_goals
    subst_vars
    obtain rfl := some.inj h
    decide

theorem plain_of_escapeLetter (h : escapeLetter c = none) :
    c ≠ 39 ∧ c ≠ 34 ∧ c ≠ 92 ∧ c ≠ 10 := by
  refine ⟨?_, ?_, ?_, ?_⟩ <;>
  · rintro rfl
    exact absurd h (by decide)

theorem hexDigit_value : ∀ n < 16, hexValue (hexDigit n) = some n := by decide

theorem printHex_spec (c : UInt8) :
    (∀ d ∈ printHex c, isHex d = true) ∧ hexNumber (printHex c) = c.toNat ∧ printHex c ≠ [] := by
  have hlt : c.toNat < 256 := c.toNat_lt
  rw [printHex]
  split
  · rename_i h
    simp [isHex, hexNumber, hexDigit_value _ h]
  have h1 := hexDigit_value (c.toNat / 16) (by omega)
  have h2 := hexDigit_value (c.toNat % 16) (by omega)
  simp [isHex, hexNumber, h1, h2]
  omega

theorem appendCharEscaped_of_isHex (h : isHex c = true) : appendCharEscaped c = [c] := by
  have hnone : escapeLetter c = none := by
    unfold escapeLetter
    split_ifs with h1
    · rcases h1 with rfl | rfl | rfl | rfl <;> exact absurd h (by decide)
    all_goals
      first
      | rfl
      | subst_vars
        exact absurd h (by decide)
  have hprint : ¬(signedChar c < 32 ∨ 126 < signedChar c) := by
    have hrange : 48 ≤ c.toNat ∧ c.toNat ≤ 102 := by
      unfold isHex hexValue at h
      simp only [UInt8.le_iff_toNat_le] at h
      split_ifs at h <;> simp_all <;> omega
    have hsmall : c < 128 := UInt8.lt_iff_toNat_lt.mpr (by simp; omega)
    rw [signedChar, if_pos hsmall]
    omega
  rw [appendCharEscaped, hnone]
  exact if_neg hprint

theorem hexEscaped_iff : hexEscaped c = true ↔
    escapeLetter c = none ∧ (signedChar c < 32 ∨ 126 < signedChar c) := by
  simp [hexEscaped]

theorem appendCharEscaped_stops (h : isHex c = false) (rest : Text) :
    (appendCharEscaped c ++ rest).takeWhile isHex = [] ∧
      (appendCharEscaped c ++ rest).dropWhile isHex = appendCharEscaped c ++ rest := by
  have h92 : isHex 92 = false := by decide
  rw [appendCharEscaped]
  split
  · simp [h92]
  split
  · simp [h92]
  · simp [h]

theorem takeWhile_escaped (hq : isHex q = false) (s : Text) :
    (s.flatMap appendCharEscaped ++ [q]).takeWhile isHex = s.takeWhile isHex ∧
      (s.flatMap appendCharEscaped ++ [q]).dropWhile isHex =
        (s.dropWhile isHex).flatMap appendCharEscaped ++ [q] := by
  induction s with
  | nil => simp [hq]
  | cons c s ih =>
    cases hc : isHex c with
    | true =>
      simp only [flatMap_cons, appendCharEscaped_of_isHex hc, nil_append,
        cons_append, takeWhile_cons_of_pos hc, dropWhile_cons_of_pos hc, ih,
        and_self]
    | false =>
      have hstop := appendCharEscaped_stops hc (s.flatMap appendCharEscaped ++ [q])
      simp only [flatMap_cons, append_assoc, hstop, hc, Bool.false_eq_true,
        not_false_eq_true, takeWhile_cons_of_neg, dropWhile_cons_of_neg, and_self]

/-! ### Reading the literal -/

/-- What is denoted by the text that is written for a string. -/
def reread (q : UInt8) (n : Nat) (s : Text) : Option Text :=
  literalBytes q n (s.flatMap appendCharEscaped ++ [q])

theorem reread_cons (hq : q = 34 ∨ q = 39) (hc : hexEscaped c = false) :
    reread q (n + 1) (c :: s) = (reread q n s).map (c :: ·) := by
  have h92 : (92 : UInt8) ≠ q := by rcases hq with rfl | rfl <;> decide
  cases he : escapeLetter c with
  | some e =>
    obtain ⟨h120, hoctal, hsimple⟩ := escapeLetter_simple he
    simp [appendCharEscaped, he, literalBytes, h92, readEscape, h120, hoctal, hsimple, reread]
  | none =>
    obtain ⟨h39, h34, h92', h10⟩ := plain_of_escapeLetter he
    have hcq : c ≠ q := by rcases hq with rfl | rfl <;> assumption
    have hprint : ¬(signedChar c < 32 ∨ 126 < signedChar c) := fun h =>
      absurd (hexEscaped_iff.mpr ⟨he, h⟩) (by simp [hc])
    simp [appendCharEscaped, he, hprint, literalBytes, hcq, h92', h10, reread]

theorem reread_hex (hq : q = 34 ∨ q = 39) (hc : hexEscaped c = true) :
    reread q (n + 1) (c :: s) =
      if 256 ≤ hexNumber (printHex c ++ s.takeWhile isHex) then none
      else (reread q n (s.dropWhile isHex)).map
        (.ofNat (hexNumber (printHex c ++ s.takeWhile isHex)) :: ·) := by
  have h92 : (92 : UInt8) ≠ q := by rcases hq with rfl | rfl <;> decide
  have hqhex : isHex q = false := by rcases hq with rfl | rfl <;> decide
  obtain ⟨he, hrange⟩ := hexEscaped_iff.mp hc
  obtain ⟨hall, -, hne⟩ := printHex_spec c
  obtain ⟨htake, hdrop⟩ := takeWhile_escaped hqhex s
  have htake' : (printHex c ++ (s.flatMap appendCharEscaped ++ [q])).takeWhile isHex =
      printHex c ++ s.takeWhile isHex := by
    rw [takeWhile_append_of_pos hall, htake]
  have hdrop' : (printHex c ++ (s.flatMap appendCharEscaped ++ [q])).dropWhile isHex =
      (s.dropWhile isHex).flatMap appendCharEscaped ++ [q] := by
    rw [dropWhile_append_of_pos hall, hdrop]
  have hwritten : appendCharEscaped c = 92 :: 120 :: printHex c := by
    rw [appendCharEscaped, he]
    exact if_pos hrange
  rw [reread, flatMap_cons, append_assoc, hwritten]
  simp only [cons_append, literalBytes, if_neg h92, readEscape, htake', hdrop',
    append_eq_nil_iff, hne, false_and, false_or]
  by_cases hbig : 256 ≤ hexNumber (printHex c ++ s.takeWhile isHex)
  · rw [if_pos hbig, if_pos hbig]
    rfl
  · rw [if_neg hbig, if_neg hbig]
    rfl

theorem length_reread (hq : q = 34 ∨ q = 39) : ∀ n s r, reread q n s = some r →
    r.length ≤ s.length := by
  intro n
  induction n with
  | zero =>
    intro s r h
    cases h
  | succ n ih =>
    intro s r h
    cases s with
    | nil =>
      simp [reread, literalBytes] at h
      simp [← h]
    | cons c s =>
      cases hc : hexEscaped c with
      | false =>
        rw [reread_cons hq hc] at h
        obtain ⟨r, hr, rfl⟩ := map_eq_some_iff.mp h
        have hle := ih s r hr
        simp
        omega
      | true =>
        rw [reread_hex hq hc] at h
        split at h
        · cases h
        obtain ⟨r, hr, rfl⟩ := map_eq_some_iff.mp h
        have hle := ih _ r hr
        have hdrop := (dropWhile_suffix isHex (l := s)).length_le
        simp
        omega

theorem apart_cons_of_hexEscaped (hc : hexEscaped c = true) :
    Apart (c :: s) ↔ s.takeWhile isHex = [] ∧ Apart s := by
  cases s with
  | nil => simp [Apart]
  | cons d s =>
    cases hd : isHex d <;> simp [hc, hd, Apart]

theorem apart_cons_of_not (hc : hexEscaped c = false) : Apart (c :: s) ↔ Apart s := by
  cases s with
  | nil => simp [Apart]
  | cons d s =>
    simp [hc, Apart]

theorem reread_iff (hq : q = 34 ∨ q = 39) : ∀ n s, s.length < n →
    (reread q n s = some s ↔ Apart s) := by
  intro n
  induction n with
  | zero =>
    omega
  | succ n ih =>
    intro s hn
    cases s with
    | nil => simp [reread, literalBytes, Apart]
    | cons c s =>
      simp only [length_cons] at hn
      cases hc : hexEscaped c with
      | false =>
        rw [reread_cons hq hc, apart_cons_of_not hc, ← ih s (by omega)]
        simp
      | true =>
        rw [reread_hex hq hc, apart_cons_of_hexEscaped hc, ← ih s (by omega)]
        obtain ⟨-, hnumber, -⟩ := printHex_spec c
        constructor
        · intro h
          split at h
          · cases h
          obtain ⟨r, hr, heq⟩ := map_eq_some_iff.mp h
          obtain ⟨-, rfl⟩ := cons.inj heq
          -- nothing is left out only where no digit follows
          have hle := length_reread hq _ _ _ hr
          have hsplit := congrArg length
            (takeWhile_append_dropWhile (p := isHex) (l := r))
          rw [length_append] at hsplit
          have htake : r.takeWhile isHex = [] := length_eq_zero_iff.mp (by omega)
          have hdrop : r.dropWhile isHex = r := by
            have hwhole := takeWhile_append_dropWhile (p := isHex) (l := r)
            rwa [htake] at hwhole
          rw [hdrop] at hr
          exact ⟨htake, hr⟩
        · rintro ⟨htake, hr⟩
          have hdrop : s.dropWhile isHex = s := by
            have hwhole := takeWhile_append_dropWhile (p := isHex) (l := s)
            rwa [htake] at hwhole
          have hlt : c.toNat < 256 := c.toNat_lt
          rw [htake, append_nil, hnumber, if_neg (by omega), hdrop, hr]
          simp

/-- **The literal of a value denotes its bytes** exactly when no byte that is written as a
    hexadecimal escape stands before a hexadecimal digit. -/
theorem denotes_iff (v : TextValue) : v.Denotes ↔ Apart v.bytes := by
  have hq : v.quote = 34 ∨ v.quote = 39 := by
    cases v
    · exact .inl rfl
    · exact .inr rfl
  have hlength : ∀ s : Text, s.length < (s.flatMap appendCharEscaped ++ [v.quote]).length := by
    intro s
    induction s with
    | nil => simp
    | cons c s ih =>
      have hpos : 0 < (appendCharEscaped c).length := by
        unfold appendCharEscaped
        split
        · simp
        · split <;> simp
      simp only [flatMap_cons, length_append, length_cons] at ih ⊢
      omega
  have hread : readLiteral v.quote (valueToLiteral v) = reread v.quote
      (v.bytes.flatMap appendCharEscaped ++ [v.quote]).length v.bytes := if_pos rfl
  rw [TextValue.Denotes, hread]
  exact reread_iff hq _ _ (hlength v.bytes)

/-- The string of the bytes 1 and `2` is read as one byte. -/
theorem control_digit_misread : ¬(TextValue.string [1, 50]).Denotes := by decide

end Eolian
