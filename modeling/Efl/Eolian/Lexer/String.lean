/-
Strings of the lexer, `read_string`.

What is left of the stream begins with the current character, and is zeros behind its end.  An
escape is read by `read_escape`, which leaves an escaped quote or backslash where it is: the loop
reads it once more, as the end of the string or as another escape (`reads_written_iff`).
-/
import Efl.Eolian.Expr.Literal

namespace Eolian.Lexer

open List

/-- `ls->current` -/
def current (input : Text) : UInt8 := input.headD 0

/-- What `eo_lexer_lex_error` reports: the message and the token it is near. -/
structure LexError where
  msg : String
  near : String
  deriving DecidableEq

def isNewline (c : UInt8) : Bool := c == 10 || c == 13

def isDigit (c : UInt8) : Bool := 48 ≤ c && c ≤ 57

def isXDigit (c : UInt8) : Bool := isDigit c || (65 ≤ c && c ≤ 70) || (97 ≤ c && c ≤ 102)

/-- `hex_val` -/
def hexVal (c : UInt8) : Nat :=
  if 97 ≤ c then c.toNat - 97 + 10 else if 65 ≤ c then c.toNat - 65 + 10 else c.toNat - 48

/-- `read_hex_esc`, from the `x` to the second digit -/
def readHexEsc (input : Text) : Except LexError (Nat × Text) :=
  if isXDigit (current input.tail) && isXDigit (current input.tail.tail) then
    .ok (hexVal (current input.tail) * 16 + hexVal (current input.tail.tail), input.tail.tail)
  else .error ⟨"hexadecimal digit expected", "<string>"⟩

/-- The loop of `read_dec_esc`, for `i` more digits -/
def readDecDigits : Nat → Nat → Text → Nat × Text
  | 0, r, input => (r, input)
  | i + 1, r, input =>
    if isDigit (current input) then
      readDecDigits i (r * 10 + ((current input).toNat - 48)) input.tail
    else (r, input)

/-- `read_dec_esc` -/
def readDecEsc (input : Text) : Except LexError (Nat × Text) :=
  let p := readDecDigits 3 0 input
  if 255 < p.1 then .error ⟨"decimal escape too large", "<string>"⟩ else .ok p

/-- `next_line` -/
def nextLine (input : Text) : Text :=
  if isNewline (current input.tail) && current input.tail != current input then input.tail.tail
  else input.tail

/-- The escapes of `read_escape` that are one letter. -/
def letterEscape (c : UInt8) : Option UInt8 :=
  if c = 97 then some 7
  else if c = 98 then some 8
  else if c = 102 then some 12
  else if c = 110 then some 10
  else if c = 114 then some 13
  else if c = 116 then some 9
  else if c = 118 then some 11
  else none

/-- `read_escape`: what is appended, and what is left. -/
def readEscape (input : Text) : Except LexError (Text × Text) :=
  match letterEscape (current input) with
  | some e => .ok ([e], input.tail)
  | none =>
    let c := current input
    if c = 120 then (readHexEsc input).map fun p => ([.ofNat p.1], p.2.tail)
    else if isNewline c then .ok ([10], nextLine input)
    -- the character stays where it is
    else if c = 92 ∨ c = 34 ∨ c = 39 then .ok ([c], input)
    else if c = 0 then .ok ([], input)
    else if isDigit c then (readDecEsc input).map fun p => ([.ofNat p.1], p.2)
    else .error ⟨"invalid escape sequence", "<string>"⟩

variable (i r : Nat)

theorem readDecDigits_le (input : Text) :
    (readDecDigits i r input).2.length ≤ input.length := by
  induction i generalizing r input with
  | zero => exact le_rfl
  | succ i ih =>
    rw [readDecDigits]
    split
    · exact le_trans (ih _ _) (by simp)
    · exact le_rfl

theorem ok_of_map {ε α β : Type} {x : Except ε α} {f : α → β} {b : β} (h : x.map f = .ok b) :
    ∃ a, x = .ok a ∧ f a = b := by
  cases x with
  | error e => cases h
  | ok a => exact ⟨a, rfl, Except.ok.inj h⟩

theorem readHexEsc_ok {input : Text} {p : Nat × Text} (h : readHexEsc input = .ok p) :
    ∃ a b, input.tail = a :: b :: p.2.tail ∧ isXDigit a = true ∧ isXDigit b = true := by
  unfold readHexEsc at h
  split at h
  · rename_i hdigits
    rw [Bool.and_eq_true] at hdigits
    cases h
    generalize input.tail = rest at hdigits
    match rest with
    | [] => exact absurd hdigits.1 (by decide)
    | [a] => exact absurd hdigits.2 (show ¬isXDigit 0 = true by decide)
    | a :: b :: rest => exact ⟨a, b, rfl, hdigits⟩
  · cases h

variable {p : Text × Text}

theorem readEscape_le {input : Text} (h : readEscape input = .ok p) :
    p.2.length ≤ input.length := by
  unfold readEscape at h
  dsimp only at h
  split at h
  · cases h
    simp
  split at h
  · obtain ⟨r, hr, rfl⟩ := ok_of_map h
    obtain ⟨a, b, htail, -, -⟩ := readHexEsc_ok hr
    have hlen := congrArg length htail
    simp only [length_tail, length_cons] at hlen ⊢
    omega
  split at h
  · cases h
    simp only [nextLine]
    split
    · simp
      omega
    · simp
  split at h
  · cases h
    exact Nat.le_refl _
  split at h
  · cases h
    exact le_rfl
  split at h
  · obtain ⟨r, hr, rfl⟩ := ok_of_map h
    unfold readDecEsc at hr
    dsimp only at hr
    split at hr
    · cases hr
    · cases hr
      exact readDecDigits_le _ _ _
  · cases h

/-- The loop of `read_string`: what is appended, and what is left behind the closing quote. -/
def readChars (input : Text) : Except LexError (Text × Text) :=
  match input with
  | [] => .error ⟨"unfinished string", "<eof>"⟩
  | c :: rest =>
    if c = 34 then .ok ([], rest)
    else if c = 0 then .error ⟨"unfinished string", "<eof>"⟩
    else if isNewline c then .error ⟨"unfinished string", "<string>"⟩
    else if c = 92 then
      match _h : readEscape rest with
      | .error e => .error e
      | .ok p => (readChars p.2).map fun q => (p.1 ++ q.1, q.2)
    else (readChars rest).map fun q => (c :: q.1, q.2)
termination_by input.length
decreasing_by
  · exact Nat.lt_succ_of_le (readEscape_le _h)
  · exact Nat.lt_succ_self _

/-- `read_string` -/
def readString (input : Text) : Except LexError (Text × Text) := readChars input.tail

inductive Token where
  | char (c : UInt8)
  | string (s : Text)
  deriving DecidableEq

/-- The case of a double quote in `lex` -/
def lexQuote (exprMode : Bool) (input : Text) : Except LexError (Token × Text) :=
  if exprMode then (readString input).map fun p => (.string p.1, p.2)
  else .ok (.char 34, input.tail)

/-! ### What is written -/

def special (c : UInt8) : Bool := c == 92 || c == 34 || c == 39

/-- A byte of a string as it is written. -/
def writeByte (c : UInt8) : Text :=
  if special c then [92, c]
  else if c = 10 then [92, 110]
  else if c = 13 then [92, 114]
  else if c < 32 ∨ c = 127 then [92, 120, hexDigit (c.toNat / 16), hexDigit (c.toNat % 16)]
  else [c]

/-- A string between its quotes. -/
def writeString (s : Text) : Text := 34 :: (s.flatMap writeByte ++ [34])

/-! ### One step of the loop -/

variable {c d : UInt8} {s t u v input rest : Text} {n : Nat}

theorem readChars_quote (rest : Text) : readChars (34 :: rest) = .ok ([], rest) := by
  rw [readChars]
  rfl

theorem readChars_escape (h : readEscape rest = .ok p) :
    readChars (92 :: rest) = (readChars p.2).map fun q => (p.1 ++ q.1, q.2) := by
  rw [readChars, if_neg (by decide), if_neg (by decide), if_neg (by decide), if_pos rfl]
  split
  · rename_i e he
    rw [h] at he
    cases he
  · rename_i q hq
    rw [h] at hq
    cases hq
    rfl

theorem readChars_error {e : LexError} (h : readEscape rest = .error e) :
    readChars (92 :: rest) = .error e := by
  rw [readChars, if_neg (by decide), if_neg (by decide), if_neg (by decide), if_pos rfl]
  split
  · rename_i e' he
    rw [h] at he
    cases he
    rfl
  · rename_i q hq
    rw [h] at hq
    cases hq

theorem readChars_other (h34 : c ≠ 34) (h0 : c ≠ 0) (h10 : c ≠ 10) (h13 : c ≠ 13) (h92 : c ≠ 92)
    (rest : Text) : readChars (c :: rest) = (readChars rest).map fun q => (c :: q.1, q.2) := by
  have hline : ¬isNewline c = true := by simp [isNewline, h10, h13]
  rw [readChars, if_neg h34, if_neg h0, if_neg hline, if_neg h92]

theorem readChars_special (h : special c = true) (rest : Text) :
    readChars (92 :: c :: rest) = (readChars (c :: rest)).map fun q => (c :: q.1, q.2) := by
  have hescape : readEscape (c :: rest) = .ok ([c], c :: rest) := by
    simp only [special, Bool.or_eq_true, beq_iff_eq] at h
    rcases h with (rfl | rfl) | rfl <;> rfl
  exact readChars_escape hescape

theorem hexVal_hexDigit : ∀ n < 16, isXDigit (hexDigit n) = true ∧ hexVal (hexDigit n) = n := by
  decide

theorem readChars_write (h : special c = false) (rest : Text) :
    readChars (writeByte c ++ rest) = (readChars rest).map fun q => (c :: q.1, q.2) := by
  have hspecial := h
  simp only [special, Bool.or_eq_false_iff, beq_eq_false_iff_ne] at hspecial
  rw [writeByte, h, if_neg (by simp)]
  split_ifs with h10 h13 hcontrol
  · have hescape : readEscape (110 :: rest) = .ok ([10], rest) := rfl
    rw [h10]
    exact readChars_escape hescape
  · have hescape : readEscape (114 :: rest) = .ok ([13], rest) := rfl
    rw [h13]
    exact readChars_escape hescape
  · have hlt : c.toNat < 256 := c.toNat_lt
    obtain ⟨hhi, hhi'⟩ := hexVal_hexDigit (c.toNat / 16) (by omega)
    obtain ⟨hlo, hlo'⟩ := hexVal_hexDigit (c.toNat % 16) (by omega)
    have hescape : readEscape (120 :: hexDigit (c.toNat / 16) :: hexDigit (c.toNat % 16) :: rest) =
        .ok ([c], rest) := by
      show (readHexEsc _).map _ = _
      rw [readHexEsc, if_pos (by simp [current, hhi, hlo])]
      simp [Except.map, current, hhi', hlo', Nat.div_add_mod']
    exact readChars_escape hescape
  · exact readChars_other hspecial.1.2 (by rintro rfl; simp at hcontrol) h10 h13 hspecial.1.1 rest

theorem readChars_writes (h : ∀ c ∈ s, special c = false) (rest : Text) :
    readChars (s.flatMap writeByte ++ rest) = (readChars rest).map fun q => (s ++ q.1, q.2) := by
  induction s with
  | nil => cases hread : readChars rest <;> simp [hread, Except.map]
  | cons c s ih =>
    rw [flatMap_cons, append_assoc, readChars_write (h c mem_cons_self),
      ih fun d hd => h d (mem_cons_of_mem _ hd)]
    cases readChars rest <;> rfl

/-! ### What is not written as it is read -/

/-- What is left of a string, with its end. -/
def tailOf (t : Text) : Text := t.flatMap writeByte ++ [34]

theorem tailOf_special (h : special c = true) : tailOf (c :: t) = 92 :: c :: tailOf t := by
  rw [tailOf, flatMap_cons, writeByte, if_pos h]
  rfl

theorem tailOf_other (h : special c = false) :
    readChars (tailOf (c :: t)) = (readChars (tailOf t)).map fun q => (c :: q.1, q.2) := by
  rw [tailOf, flatMap_cons, append_assoc]
  exact readChars_write h _

theorem tailOf_cons (h : tailOf t = d :: rest) (h34 : d ≠ 34) (h92 : d ≠ 92) :
    ∃ u, t = d :: u ∧ rest = tailOf u := by
  cases t with
  | nil => exact absurd (cons.inj h).1.symm h34
  | cons c u =>
    rw [tailOf, flatMap_cons, writeByte] at h
    split_ifs at h
    iterate 4 exact absurd (cons.inj h).1.symm h92
    obtain ⟨rfl, rfl⟩ := cons.inj h
    exact ⟨u, rfl, rfl⟩

theorem takeWhile_read (h : readChars (tailOf t) = .ok (v, [])) :
    v.takeWhile (fun c => !special c) = t.takeWhile (fun c => !special c) := by
  induction t generalizing v with
  | nil =>
    obtain ⟨rfl, -⟩ := Prod.mk.inj (Except.ok.inj ((readChars_quote []).symm.trans h))
    rfl
  | cons c t ih =>
    cases hc : special c with
    | false =>
      rw [tailOf_other hc] at h
      obtain ⟨⟨w, r⟩, hw, heq⟩ := ok_of_map h
      obtain ⟨rfl, rfl⟩ := Prod.mk.inj heq
      simp [hc, ih hw]
    | true =>
      rw [tailOf_special hc, readChars_special hc] at h
      obtain ⟨⟨w, r⟩, -, heq⟩ := ok_of_map h
      obtain ⟨rfl, rfl⟩ := Prod.mk.inj heq
      simp [hc]

theorem read_ne_append (h : readChars (tailOf t) = .ok (v, [])) (hd : special d = false)
    (hs : ∀ c ∈ s, special c = false) : v ≠ d :: (s ++ t) := by
  intro hv
  have htake := takeWhile_read h
  have hall : ∀ c ∈ d :: s, (!special c) = true := by
    intro c hc
    rcases mem_cons.mp hc with rfl | hc
    · simp [hd]
    · simp [hs c hc]
  rw [hv, ← cons_append, takeWhile_append_of_pos hall] at htake
  have hlen := congrArg length htake
  simp at hlen
  omega

theorem read_quotes (h : readChars (tailOf t) = .ok (v, [])) :
    List.replicate (n + 1) 39 ++ v ≠ t := by
  induction t generalizing n v with
  | nil => simp
  | cons c t ih =>
    intro heq
    obtain ⟨rfl, hrest⟩ := cons.inj heq
    rw [tailOf_special rfl, readChars_special rfl, readChars_other (by decide) (by decide)
      (by decide) (by decide) (by decide)] at h
    obtain ⟨q, hq, heq⟩ := ok_of_map h
    obtain ⟨⟨w, r⟩, hw, rfl⟩ := ok_of_map hq
    obtain ⟨rfl, rfl⟩ := Prod.mk.inj heq
    refine ih (n := n + 1) hw ?_
    rw [← hrest, replicate_succ', replicate_succ', append_assoc, append_assoc]
    rfl

theorem plain_of_isXDigit (h : isXDigit d = true) : special d = false ∧ d ≠ 34 ∧ d ≠ 92 := by
  refine ⟨?_, ?_, ?_⟩
  · by_contra hspecial
    simp only [special, Bool.not_eq_false, Bool.or_eq_true, beq_iff_eq] at hspecial
    rcases hspecial with (rfl | rfl) | rfl <;> exact absurd h (by decide)
  · rintro rfl
    exact absurd h (by decide)
  · rintro rfl
    exact absurd h (by decide)

theorem tailOf_digits (h : tailOf t = s ++ rest) (hs : ∀ d ∈ s, isXDigit d = true) :
    ∃ u, t = s ++ u ∧ rest = tailOf u := by
  induction s generalizing t with
  | nil => exact ⟨t, rfl, h.symm⟩
  | cons d s ih =>
    obtain ⟨-, h34, h92⟩ := plain_of_isXDigit (hs d mem_cons_self)
    obtain ⟨u, rfl, hu⟩ := tailOf_cons h h34 h92
    obtain ⟨u, rfl, hrest⟩ := ih hu.symm fun d hd => hs d (mem_cons_of_mem _ hd)
    exact ⟨u, rfl, hrest⟩

theorem read_ne_digits (htail : tailOf t = d :: s ++ rest) (hs : ∀ c ∈ d :: s, isXDigit c = true)
    (h : readChars rest = .ok (v, [])) : v ≠ t := by
  obtain ⟨u, rfl, rfl⟩ := tailOf_digits htail hs
  refine read_ne_append h (plain_of_isXDigit (hs d mem_cons_self)).1 fun c hc => ?_
  exact (plain_of_isXDigit (hs c (mem_cons_of_mem _ hc))).1

theorem letterEscape_ne {e : UInt8} (h : letterEscape c = some e) : e ≠ c := by
  unfold letterEscape at h
  split_ifs at h
  all_goals
    subst_vars
    cases h
    decide

theorem readDecDigits_spec (input : Text) :
    ∃ s, input = s ++ (readDecDigits i r input).2 ∧ (∀ d ∈ s, isDigit d = true) ∧
      (s = [] → (readDecDigits i r input).1 = r) := by
  induction i generalizing r input with
  | zero => exact ⟨[], rfl, by simp, fun _ => rfl⟩
  | succ i ih =>
    rw [readDecDigits]
    split
    · rename_i hdigit
      cases input with
      | nil => exact absurd hdigit (by decide)
      | cons c input =>
        obtain ⟨s, hinput, hs, -⟩ := ih (r * 10 + ((current (c :: input)).toNat - 48)) input
        refine ⟨c :: s, congrArg (c :: ·) hinput, ?_, by simp⟩
        intro d hd
        rcases mem_cons.mp hd with rfl | hd
        · exact hdigit
        · exact hs d hd
    · exact ⟨[], rfl, by simp, fun _ => rfl⟩

/-- A byte that is written as it is but read as an escape does not come back. -/
theorem read_escaped (hc : writeByte c = [c]) (h : readChars (92 :: c :: tailOf t) = .ok (v, [])) :
    v ≠ c :: t := by
  rintro rfl
  cases he : readEscape (c :: tailOf t) with
  | error e =>
    rw [readChars_error he] at h
    cases h
  | ok p =>
    rw [readChars_escape he] at h
    obtain ⟨⟨w, r⟩, hw, heq⟩ := ok_of_map h
    obtain ⟨hv, rfl⟩ := Prod.mk.inj heq
    unfold readEscape at he
    have hcur : current (c :: tailOf t) = c := rfl
    rw [hcur] at he
    cases hletter : letterEscape c with
    | some e =>
      rw [hletter] at he
      cases he
      exact letterEscape_ne hletter (cons.inj hv).1
    | none =>
      rw [hletter] at he
      dsimp only at he
      split_ifs at he with h120 hline hspecial hzero hdigit
      · obtain ⟨q, hq, rfl⟩ := ok_of_map he
        obtain ⟨a, b, htail, ha, hb⟩ := readHexEsc_ok hq
        refine read_ne_digits (s := [b]) htail ?_ hw (cons.inj hv).2
        simp [ha, hb]
      · simp only [isNewline, Bool.or_eq_true, beq_iff_eq] at hline
        rcases hline with rfl | rfl <;> exact absurd hc (by decide)
      · rcases hspecial with rfl | rfl | rfl <;> exact absurd hc (by decide)
      · rw [hzero] at hc
        exact absurd hc (by decide)
      obtain ⟨q, hq, rfl⟩ := ok_of_map he
      unfold readDecEsc at hq
      dsimp only at hq
      split at hq
      · cases hq
      cases hq
      rw [readDecDigits, if_pos (by rwa [hcur]), hcur, tail_cons] at hv hw
      obtain ⟨s, htail, hs, hnil⟩ := readDecDigits_spec 2 (0 * 10 + (c.toNat - 48)) (tailOf t)
      obtain ⟨hbyte, hrest⟩ := cons.inj hv
      cases s with
      | nil =>
        rw [hnil rfl] at hbyte
        have hnat := congrArg UInt8.toNat hbyte
        simp only [isDigit, Bool.and_eq_true, decide_eq_true_eq, UInt8.le_iff_toNat_le] at hdigit
        have h48 : (48 : UInt8).toNat = 48 := rfl
        have h57 : (57 : UInt8).toNat = 57 := rfl
        rw [UInt8.toNat_ofNat_of_lt' (by simp [UInt8.size]; omega)] at hnat
        omega
      | cons d s =>
        refine read_ne_digits htail (fun x hx => ?_) hw hrest
        rw [isXDigit, hs x hx]
        rfl

theorem writeByte_cases (c : UInt8) : writeByte c = [c] ∨ ∃ rest, writeByte c = 92 :: rest := by
  rw [writeByte]
  split_ifs
  iterate 4 exact .inr ⟨_, rfl⟩
  exact .inl rfl

/-- Backslashes before the end do not come back. -/
theorem read_backslashes (h : readChars (92 :: tailOf t) = .ok (v, [])) :
    List.replicate n 92 ++ v ≠ t := by
  induction t generalizing n v with
  | nil =>
    have hescape : readEscape (tailOf []) = .ok ([34], tailOf []) := rfl
    rw [readChars_escape hescape] at h
    obtain ⟨⟨w, r⟩, -, heq⟩ := ok_of_map h
    obtain ⟨rfl, -⟩ := Prod.mk.inj heq
    simp
  | cons c t ih =>
    intro heq
    by_cases hc : c = 92
    · subst hc
      rw [tailOf_special rfl, readChars_special rfl, readChars_special rfl] at h
      obtain ⟨q, hq, hv⟩ := ok_of_map h
      obtain ⟨⟨w, r⟩, hw, rfl⟩ := ok_of_map hq
      obtain ⟨rfl, rfl⟩ := Prod.mk.inj hv
      have hshift : replicate n 92 ++ 92 :: 92 :: w =
          92 :: (replicate (n + 1) 92 ++ w) := by
        rw [replicate_succ', append_assoc, ← cons_append, ← replicate_succ,
          replicate_succ', append_assoc]
        rfl
      exact ih hw (cons.inj (hshift.symm.trans heq)).2
    · cases n with
      | succ n => exact hc (cons.inj heq).1.symm
      | zero =>
        obtain rfl : v = c :: t := heq
        rcases writeByte_cases c with hself | ⟨rest, hescape⟩
        · rw [tailOf, flatMap_cons, hself] at h
          exact read_escaped hself h rfl
        -- the escape of the byte begins with a backslash, which is read as itself
        rw [tailOf, flatMap_cons, hescape, cons_append, cons_append,
          readChars_special rfl] at h
        obtain ⟨q, -, hv⟩ := ok_of_map h
        exact hc (cons.inj (Prod.mk.inj hv).1).1.symm

/-! ### Which strings come back -/

theorem not_special_of_read (h : readChars (tailOf s) = .ok (s, [])) :
    ∀ c ∈ s, special c = false := by
  induction s with
  | nil => simp
  | cons c s ih =>
    cases hc : special c with
    | false =>
      rw [tailOf_other hc] at h
      obtain ⟨⟨w, r⟩, hw, heq⟩ := ok_of_map h
      obtain ⟨hv, rfl⟩ := Prod.mk.inj heq
      obtain rfl := (cons.inj hv).2
      intro d hd
      rcases mem_cons.mp hd with rfl | hd
      · exact hc
      · exact ih hw d hd
    | true =>
      rw [tailOf_special hc, readChars_special hc] at h
      obtain ⟨⟨w, r⟩, hw, heq⟩ := ok_of_map h
      obtain ⟨hv, rfl⟩ := Prod.mk.inj heq
      obtain rfl := (cons.inj hv).2
      simp only [special, Bool.or_eq_true, beq_iff_eq] at hc
      rcases hc with (rfl | rfl) | rfl
      · exact absurd rfl (read_backslashes (n := 0) hw)
      · rw [readChars_quote] at hw
        simp [tailOf] at hw
      · rw [readChars_other (by decide) (by decide) (by decide) (by decide) (by decide)] at hw
        obtain ⟨⟨x, r⟩, hx, heq⟩ := ok_of_map hw
        obtain ⟨hv, rfl⟩ := Prod.mk.inj heq
        exact absurd hv (read_quotes (n := 0) hx)

/--
**A string that is written is read back, with the lexer behind its closing quote, if and only if it
has no backslash and no quote of either kind.**
-/
theorem reads_written_iff (s : Text) :
    (∀ rest, lexQuote true (writeString s ++ rest) = .ok (.string s, rest)) ↔
      ∀ c ∈ s, c ≠ 92 ∧ c ≠ 34 ∧ c ≠ 39 := by
  have hplain : (∀ c ∈ s, c ≠ 92 ∧ c ≠ 34 ∧ c ≠ 39) ↔ ∀ c ∈ s, special c = false := by
    simp [special, and_assoc]
  have hread (rest : Text) : lexQuote true (writeString s ++ rest) =
      (readChars (s.flatMap writeByte ++ 34 :: rest)).map fun p => (.string p.1, p.2) := by
    show (readChars (s.flatMap writeByte ++ [34] ++ rest)).map _ = _
    rw [append_assoc]
    rfl
  rw [hplain]
  constructor
  · intro h
    have hself := h []
    rw [hread] at hself
    obtain ⟨⟨v, r⟩, hv, heq⟩ := ok_of_map hself
    obtain ⟨hs, rfl⟩ := Prod.mk.inj heq
    cases hs
    exact not_special_of_read hv
  · intro h rest
    rw [hread, readChars_writes h, readChars_quote]
    simp [Except.map]

/-- The string of one double quote ends too early. -/
theorem quote_misread : ¬∀ (s : Text), (∀ c ∈ s, c ≠ 0) →
    ∀ rest, lexQuote true (writeString s ++ rest) = .ok (.string s, rest) := by
  intro h
  have hread : lexQuote true (writeString [34] ++ []) = .ok (.string [34], [34]) := by
    show (readChars [92, 34, 34]).map _ = _
    rw [readChars_special rfl, readChars_quote]
    rfl
  rw [h [34] (by simp)] at hread
  cases hread

end Eolian.Lexer
