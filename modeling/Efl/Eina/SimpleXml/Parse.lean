/-
`eina_simple_xml_parse`: a buffer of markup, told to a callback piece by piece.

The length that the callback gets is a difference of pointers, first as a `size_t` and then as
an `unsigned`.  A processing instruction loses one byte at its end where that is a question
mark, and in `<?>` this is the question mark that began it: the end falls before the start.
No other kind can be trimmed past its start.
-/
import Efl.Eina.SimpleXml.Basic

namespace Eina.SimpleXml

open Scan List Outcome

/-- `Eina_Simple_XML_Type` -/
inductive XmlType where
  | opens
  | openEmpty
  | close
  | data
  | cdata
  | error
  | processing
  | doctype
  | comment
  | ignored
  | doctypeChild
  deriving DecidableEq

/-- A call of the callback; `offset` and `length` are of type `unsigned`. -/
structure Invocation where
  type : XmlType
  /-- The place of `content` in the buffer. -/
  content : Nat
  offset : Nat
  length : Nat
  deriving DecidableEq

/-- The arguments of `CB(type, start, end)`. -/
def invocation (type : XmlType) (start stop : Nat) : Invocation where
  type := type
  content := start
  offset := start % 2 ^ 32
  length := (2 ^ 64 + stop - start) % 2 ^ 64 % 2 ^ 32

/-- Where the function goes on after a turn of its loop, with what the callback was told. -/
inductive Next where
  | stops (told : List Invocation) (ret : Bool)
  | goesOn (told : List Invocation) (itr : Nat)
  deriving DecidableEq

/-! ### The ends of tags -/

/-- `_eina_simple_xml_tag_end_find`, with `n` places left. -/
def tagEndFindFrom (b : List UInt8) : Bool → Nat → Nat → Outcome (Option Nat)
  | _, 0, _ => .returns none
  | insideQuote, n + 1, itr => do
    let c ← readAt b itr
    let insideQuote := if c = 34 then !insideQuote else insideQuote
    if !insideQuote && (c == 62 || c == 60) then .returns (some itr)
    else tagEndFindFrom b insideQuote n (itr + 1)

def tagEndFind (b : List UInt8) (itr itrEnd : Nat) : Outcome (Option Nat) :=
  tagEndFindFrom b false (itrEnd - itr) itr

/-- `_eina_simple_xml_tag_comment_end_find` and `_eina_simple_xml_tag_cdata_end_find`: a byte
    twice and then `>`, with `n` places left before `itrEnd`. -/
def closingFindFrom (b : List UInt8) (x : UInt8) (itrEnd : Nat) : Nat → Nat → Outcome (Option Nat)
  | 0, _ => .returns none
  | n + 1, itr => do
    let c ← readAt b itr
    let two ← if c = x ∧ itr + 1 < itrEnd then do
        let d ← readAt b (itr + 1)
        .returns (decide (d = x))
      else .returns false
    let three ← if two = true ∧ itr + 2 < itrEnd then do
        let d ← readAt b (itr + 2)
        .returns (decide (d = 62))
      else .returns false
    if three then .returns (some (itr + 2)) else closingFindFrom b x itrEnd n (itr + 1)

def tagCommentEndFind (b : List UInt8) (itr itrEnd : Nat) : Outcome (Option Nat) :=
  closingFindFrom b 45 itrEnd (itrEnd - itr) itr

def tagCdataEndFind (b : List UInt8) (itr itrEnd : Nat) : Outcome (Option Nat) :=
  closingFindFrom b 93 itrEnd (itrEnd - itr) itr

def tagDoctypeChildEndFind (b : List UInt8) (itr itrEnd : Nat) : Outcome (Option Nat) :=
  memchr b 62 itr (itrEnd - itr)

/-! ### The function -/

/-- `DOCTYPE` -/
def doctypeWord : List UInt8 := [68, 79, 67, 84, 89, 80, 69]

/-- `[CDATA[` -/
def cdataWord : List UInt8 := [91, 67, 68, 65, 84, 65, 91]

/-- Whether the declaration at `itr` is a document type: the word, and `>` or a space behind
    it. -/
def isDoctype (b : List UInt8) (itr : Nat) : Outcome Bool :=
  if itr + 10 < b.length then do
    if ← memcmp b (itr + 2) doctypeWord then do
      let c ← readAt b (itr + 9)
      .returns (c == 62 || isSpace c)
    else .returns false
  else .returns false

/-- The type of the tag at `itr`, and how far behind `<` its content begins. -/
def tagType (b : List UInt8) (itr : Nat) : Outcome (XmlType × Nat) := do
  let c ← readAt b (itr + 1)
  if c = 47 then .returns (.close, 1)
  else if c = 63 then .returns (.processing, 1)
  else if c = 33 then do
    if ← isDoctype b itr then .returns (.doctype, 8)
    else if ← (if itr + 7 < b.length then memcmp b (itr + 2) [45, 45] else .returns false) then
      .returns (.comment, 3)
    else if ← (if itr + 12 < b.length then memcmp b (itr + 2) cdataWord
        else .returns false) then
      .returns (.cdata, 8)
    else if itr + 3 < b.length then .returns (.doctypeChild, 1)
    else .returns (.opens, 0)
  else .returns (.opens, 0)

/-- The end that is looked for depends on the type. -/
def endFind (b : List UInt8) (type : XmlType) (itr : Nat) : Outcome (Option Nat) :=
  match type with
  | .cdata => tagCdataEndFind b itr b.length
  | .doctypeChild => tagDoctypeChildEndFind b itr b.length
  | .comment => tagCommentEndFind b itr b.length
  | _ => tagEndFind b itr b.length

/-- `p - n`; there is nothing before the buffer. -/
def back (p n : Nat) : Outcome Nat := if n ≤ p then .returns (p - n) else .undefined

/-- The closing characters that belong to the type are taken off the end. -/
def trim (b : List UInt8) (type : XmlType) (p : Nat) : Outcome (XmlType × Nat) :=
  match type with
  | .opens => do
    let q ← back p 1
    let c ← readAt b q
    .returns (if c = 47 then (.openEmpty, q) else (.opens, p))
  | .cdata => do
    let q ← back p 2
    .returns (.cdata, if ← memcmp b q [93, 93] then q else p)
  | .processing => do
    let q ← back p 1
    let c ← readAt b q
    .returns (.processing, if c = 63 then q else p)
  | .comment => do
    let q ← back p 2
    .returns (.comment, if ← memcmp b q [45, 45] then q else p)
  | type => .returns (type, p)

/-- The spaces at both sides, where they are to be stripped. -/
def stripped (b : List UInt8) (strip : Bool) (type : XmlType) (start stop : Nat) :
    Outcome (Nat × Nat) :=
  if strip = true ∧ type ≠ .error ∧ type ≠ .cdata then do
    let start ← whitespaceSkip b start stop
    let stop ← whitespaceUnskip b stop (start + 1)
    .returns (start, stop)
  else .returns (start, stop)

section

variable (b : List UInt8) (strip : Bool) (func : List Invocation → Invocation → Bool)

/-- `CB`: the callback is told, and where it agrees the function goes on. -/
def cb (told : List Invocation) (type : XmlType) (start stop : Nat)
    (rest : List Invocation → Outcome Next) : Outcome Next :=
  let call := invocation type start stop
  if func told call then rest (told ++ [call]) else .returns (.stops (told ++ [call]) false)

/-- A turn of the loop at `<`. -/
def tagTurn (told : List Invocation) (itr : Nat) : Outcome Next :=
  if b.length ≤ itr + 1 then
    cb func told .error itr b.length fun told => .returns (.stops told false)
  else do
    let (type, toff) ← tagType b itr
    match ← endFind b type (itr + 1 + toff) with
    | none => cb func told .error itr b.length fun told => .returns (.stops told false)
    | some p => do
      let c ← readAt b p
      let (type, toff) := if c = 60 then (XmlType.error, 0) else (type, toff)
      let (type, stop) ← trim b type p
      let (start, stop) ← stripped b strip type (itr + 1 + toff) stop
      cb func told type start stop fun told =>
        .returns (.goesOn told (if type = .error then p else p + 1))

/-- A turn of the loop at any other byte, once the spaces before the text are passed. -/
def textFrom (told : List Invocation) (itr : Nat) : Outcome Next := do
  let p ← memchr b 60 itr (b.length - itr)
  let p := p.getD b.length
  let stop ← if strip then whitespaceUnskip b p itr else .returns p
  let spaces (told : List Invocation) : Outcome Next :=
    if strip = true ∧ stop < p then
      cb func told .ignored stop p fun told => .returns (.goesOn told p)
    else .returns (.goesOn told p)
  if itr ≠ stop then cb func told .data itr stop spaces else spaces told

def textTurn (told : List Invocation) (itr : Nat) : Outcome Next :=
  if strip then do
    let p ← whitespaceSkip b itr b.length
    cb func told .ignored itr p fun told => textFrom b strip func told p
  else textFrom b strip func told itr

/-- The loop of `eina_simple_xml_parse`, from `itr` on. -/
def parseLoop : Nat → List Invocation → Nat → Outcome (List Invocation × Bool)
  | 0, _, _ => .running
  | fuel + 1, told, itr =>
    if itr < b.length then do
      let c ← readAt b itr
      match ← (if c = 60 then tagTurn b strip func told itr
          else textTurn b strip func told itr) with
      | .stops told ret => .returns (told, ret)
      | .goesOn told itr => parseLoop fuel told itr
    else .returns (told, true)

/-- `eina_simple_xml_parse`: what the callback was told, and what is returned. -/
def parse (fuel : Nat) : Outcome (List Invocation × Bool) := parseLoop b strip func fuel [] 0

end

/-! ### How the buffer is read from the front -/

/-- The tag at `i` ends at `p`. -/
def TagEnds (b : List UInt8) (i p : Nat) : Prop :=
  ∃ type toff, tagType b i = .returns (type, toff) ∧
    endFind b type (i + 1 + toff) = .returns (some p)

/-- What stands at `i` is text up to `j`, or a tag that is closed right before `j`, or by the `<`
    of the next one at `j`. -/
inductive Follows (b : List UInt8) (i : Nat) : Nat → Prop
  | text {c : UInt8} {j : Nat} (hc : b[i]? = some c) (hne : c ≠ 60)
      (hj : First b (fun x => decide (x = 60)) i b.length j) : Follows b i j
  | closed {c : UInt8} {p : Nat} (hc : b[i]? = some 60) (hi : i + 1 < b.length)
      (hp : TagEnds b i p) (hd : b[p]? = some c) (hne : c ≠ 60) : Follows b i (p + 1)
  | cut {p : Nat} (hc : b[i]? = some 60) (hi : i + 1 < b.length) (hp : TagEnds b i p)
      (hd : b[p]? = some 60) : Follows b i p

/-- The places at which a piece of text or a tag starts. -/
inductive Starts (b : List UInt8) : Nat → Prop
  | first : Starts b 0
  | next {i j : Nat} (h : Starts b i) (hj : Follows b i j) : Starts b j

/-- `<?>` stands at `i`. -/
def Bare (b : List UInt8) (i : Nat) : Prop := [60, 63, 62] <+: b.drop i

/-- None of the tags is `<?>`. -/
def NoneBare (b : List UInt8) : Prop := ∀ i, Starts b i → ¬Bare b i

/-! ### What is asked of a run -/

/-- The ranges lie before `e`, in increasing order and apart from each other. -/
structure Told (told : List Invocation) (e : Nat) : Prop where
  inside : ∀ c ∈ told, c.offset + c.length ≤ e
  ordered : told.Pairwise fun c d => c.offset + c.length ≤ d.offset

/-- The call returns without reading outside of the buffer, and what it told the callback are
    ranges of the buffer in order. -/
def ParseSafe (b : List UInt8) (strip : Bool) (func : List Invocation → Invocation → Bool) : Prop :=
  ∃ told ret, Outcome.Ends (parse b strip func) (told, ret) ∧ Told told b.length

/-! ### The ends that are found -/

variable {b : List UInt8} {i j p start stop : Nat} {type : XmlType} {toff : Nat} {strip : Bool}
  {func : List Invocation → Invocation → Bool} {told : List Invocation} {c : UInt8}

/-- An end that is found: at `>`, or at the `<` of the next tag. -/
structure EndAt (b : List UInt8) (start p : Nat) : Prop where
  ge : start ≤ p
  inside : p < b.length
  byte : b[p]? = some 62 ∨ b[p]? = some 60

theorem tagEndFindFrom_spec : ∀ n inside i, i + n ≤ b.length →
    ∃ r, tagEndFindFrom b inside n i = .returns r ∧ ∀ p, r = some p → EndAt b i p := by
  intro n
  induction n with
  | zero =>
    intro inside i _
    exact ⟨none, rfl, by simp⟩
  | succ n ih =>
    intro inside i hlen
    obtain ⟨c, hc, hread⟩ := exists_readAt (show i < b.length by omega)
    simp only [tagEndFindFrom, hread, Outcome.returns_bind]
    generalize (if c = 34 then !inside else inside) = inside
    by_cases hend : (!inside && (c == 62 || c == 60)) = true
    · refine ⟨some i, if_pos hend, ?_⟩
      intro p hp
      cases hp
      simp only [Bool.and_eq_true, Bool.or_eq_true, beq_iff_eq] at hend
      refine ⟨Nat.le_refl i, by omega, ?_⟩
      rcases hend.2 with rfl | rfl
      · exact .inl hc
      · exact .inr hc
    · obtain ⟨r, hr, hp⟩ := ih inside (i + 1) (by omega)
      refine ⟨r, by rw [if_neg hend, hr], ?_⟩
      intro p hrp
      obtain ⟨h1, h2, h3⟩ := hp p hrp
      exact ⟨by omega, h2, h3⟩

theorem closingFindFrom_spec (x : UInt8) : ∀ n i, i + n = b.length →
    ∃ r, closingFindFrom b x b.length n i = .returns r ∧
      ∀ p, r = some p → i + 2 ≤ p ∧ p < b.length ∧ b[p]? = some 62 := by
  intro n
  induction n with
  | zero =>
    intro i _
    exact ⟨none, rfl, by simp⟩
  | succ n ih =>
    intro i hlen
    obtain ⟨c, hc, hread⟩ := exists_readAt (show i < b.length by omega)
    have hnext : ∃ r, closingFindFrom b x b.length n (i + 1) = .returns r ∧
        ∀ p, r = some p → i + 2 ≤ p ∧ p < b.length ∧ b[p]? = some 62 := by
      obtain ⟨r, hr, hp⟩ := ih (i + 1) (by omega)
      refine ⟨r, hr, ?_⟩
      intro p hrp
      obtain ⟨h1, h2, h3⟩ := hp p hrp
      exact ⟨by omega, h2, h3⟩
    simp only [closingFindFrom, hread]
    by_cases h1 : c = x ∧ i + 1 < b.length
    swap
    · simpa [h1] using hnext
    obtain ⟨d, hd, hread1⟩ := exists_readAt h1.2
    by_cases h2 : d = x ∧ i + 2 < b.length
    swap
    · simpa [h1.1, hread1, h2] using hnext
    obtain ⟨f, hf, hread2⟩ := exists_readAt h2.2
    by_cases h3 : f = 62
    · refine ⟨some (i + 2), ?_, ?_⟩
      · simp [h1.1, h1.2, hread1, h2.1, h2.2, hread2, h3]
      · intro p hp
        cases hp
        rw [← h3]
        exact ⟨Nat.le_refl _, h2.2, hf⟩
    · simpa [h1.1, hread1, hread2, h3] using hnext

/-- **The end of a tag**, where it is found, is behind the two bytes that belong to it. -/
theorem endFind_spec (type : XmlType) (hstart : start ≤ b.length) :
    ∃ r, endFind b type start = .returns r ∧ ∀ p, r = some p → EndAt b start p ∧
      ((type = .cdata ∨ type = .comment) → start + 2 ≤ p) := by
  have hsum : start + (b.length - start) = b.length := by omega
  have hclosing : ∀ x, ∃ r, closingFindFrom b x b.length (b.length - start) start = .returns r ∧
      ∀ p, r = some p → EndAt b start p ∧
        ((type = .cdata ∨ type = .comment) → start + 2 ≤ p) := by
    intro x
    obtain ⟨r, hr, hp⟩ := closingFindFrom_spec x (b.length - start) start hsum
    refine ⟨r, hr, ?_⟩
    intro p hrp
    obtain ⟨h1, h2, h3⟩ := hp p hrp
    exact ⟨⟨by omega, h2, .inl h3⟩, fun _ => h1⟩
  have hother : ∀ f : Outcome (Option Nat), type ≠ .cdata → type ≠ .comment →
      (∃ r, f = .returns r ∧ ∀ p, r = some p → EndAt b start p) →
      ∃ r, f = .returns r ∧ ∀ p, r = some p → EndAt b start p ∧
        ((type = .cdata ∨ type = .comment) → start + 2 ≤ p) := by
    intro f h1 h2 ⟨r, hr, hp⟩
    refine ⟨r, hr, ?_⟩
    intro p hrp
    refine ⟨hp p hrp, ?_⟩
    rintro (h | h)
    · exact absurd h h1
    · exact absurd h h2
  cases type with
  | cdata => exact hclosing 93
  | comment => exact hclosing 45
  | doctypeChild =>
    refine hother _ (by decide) (by decide) ?_
    obtain ⟨j, hj, hfound⟩ := memchr_spec b 62 (i := start) (n := b.length - start) (by omega)
    rw [hsum] at hj hfound
    refine ⟨_, hfound, ?_⟩
    intro p hp
    split at hp
    · rename_i hlt
      cases hp
      obtain ⟨x, hx, heq⟩ := hj.here hlt
      rw [of_decide_eq_true heq] at hx
      exact ⟨hj.ge, hlt, .inl hx⟩
    · cases hp
  | _ =>
    exact hother _ (by decide) (by decide)
      (tagEndFindFrom_spec (b.length - start) false start (by omega))

/-- What is known of a tag at `i` by its type. -/
def TypeAt (b : List UInt8) (i : Nat) : XmlType → Nat → Prop
  | .opens, toff => toff = 0
  | .close, toff => toff = 1
  | .processing, toff => toff = 1 ∧ b[i + 1]? = some 63
  | .doctype, toff => toff = 8 ∧ i + 10 < b.length
  | .comment, toff => toff = 3 ∧ i + 7 < b.length
  | .cdata, toff => toff = 8 ∧ i + 12 < b.length
  | .doctypeChild, toff => toff = 1 ∧ i + 3 < b.length
  | _, _ => False

theorem TypeAt.content_le (h : TypeAt b i type toff) (hi : i + 1 < b.length) :
    i + 1 + toff ≤ b.length := by
  cases type <;> simp only [TypeAt] at h <;> omega

theorem isDoctype_spec (b : List UInt8) (i : Nat) :
    ∃ r, isDoctype b i = .returns r ∧ (r = true → i + 10 < b.length) := by
  rw [isDoctype]
  by_cases hlen : i + 10 < b.length
  swap
  · exact ⟨false, if_neg hlen, by simp⟩
  have hcmp := memcmp_eq (b := b) (i := i + 2) doctypeWord
    (by simp only [doctypeWord, length_cons, length_nil]; omega)
  obtain ⟨c, hc, hread⟩ := exists_readAt (show i + 9 < b.length by omega)
  rw [if_pos hlen, hcmp, Outcome.returns_bind]
  split
  · exact ⟨c == 62 || isSpace c, by rw [hread, Outcome.returns_bind], fun _ => hlen⟩
  · exact ⟨false, rfl, by simp⟩

theorem memcmp_within (b : List UInt8) (i : Nat) (xs : List UInt8) (n : Nat)
    (hn : 2 + xs.length ≤ n + 1) :
    ∃ r, (if i + n < b.length then memcmp b (i + 2) xs else .returns false) = .returns r ∧
      (r = true → i + n < b.length) := by
  by_cases hlen : i + n < b.length
  · exact ⟨_, by rw [if_pos hlen, memcmp_eq _ (by omega)], fun _ => hlen⟩
  · exact ⟨false, if_neg hlen, by simp⟩

theorem tagType_spec (hi : i + 1 < b.length) :
    ∃ type toff, tagType b i = .returns (type, toff) ∧ TypeAt b i type toff := by
  obtain ⟨c, hc, hread⟩ := exists_readAt hi
  rw [tagType, hread, Outcome.returns_bind]
  by_cases h1 : c = 47
  · exact ⟨.close, 1, if_pos h1, rfl⟩
  rw [if_neg h1]
  by_cases h2 : c = 63
  · exact ⟨.processing, 1, if_pos h2, rfl, by rw [← h2]; exact hc⟩
  rw [if_neg h2]
  by_cases h3 : c = 33
  swap
  · exact ⟨.opens, 0, if_neg h3, rfl⟩
  obtain ⟨r1, hr1, hdoctype⟩ := isDoctype_spec b i
  obtain ⟨r2, hr2, hcomment⟩ := memcmp_within b i [45, 45] 7
    (by decide)
  obtain ⟨r3, hr3, hcdata⟩ := memcmp_within b i cdataWord 12
    (by decide)
  rw [if_pos h3, hr1]
  cases r1 with
  | true => exact ⟨.doctype, 8, rfl, rfl, hdoctype rfl⟩
  | false =>
    simp only [hr2]
    cases r2 with
    | true => exact ⟨.comment, 3, rfl, rfl, hcomment rfl⟩
    | false =>
      simp only [hr3]
      cases r3 with
      | true => exact ⟨.cdata, 8, rfl, rfl, hcdata rfl⟩
      | false =>
        by_cases h4 : i + 3 < b.length
        · exact ⟨.doctypeChild, 1, by simp [h4], rfl, h4⟩
        · exact ⟨.opens, 0, by simp [h4], rfl⟩

/-! ### What is trimmed off -/

theorem back_one (hp : 0 < p) (hlen : p ≤ b.length) :
    ∃ c, back p 1 = .returns (p - 1) ∧ b[p - 1]? = some c ∧ readAt b (p - 1) = .returns c := by
  obtain ⟨c, hc, hread⟩ := exists_readAt (show p - 1 < b.length by omega)
  exact ⟨c, if_pos hp, hc, hread⟩

theorem trim_closing (type : XmlType) (x : UInt8) (hp : 2 ≤ p) (hlen : p ≤ b.length) :
    ∃ stop, (do
      let q ← back p 2
      .returns (type, if ← memcmp b q [x, x] then q else p)) = .returns (type, stop) ∧
        p - 2 ≤ stop ∧ stop ≤ p := by
  have hback : back p 2 = .returns (p - 2) := if_pos hp
  have hcmp := memcmp_eq (b := b) (i := p - 2) [x, x]
    (by simp only [length_cons, length_nil]; omega)
  rw [hback, Outcome.returns_bind, hcmp, Outcome.returns_bind]
  split
  · exact ⟨p - 2, rfl, Nat.le_refl _, Nat.sub_le p 2⟩
  · exact ⟨p, rfl, Nat.sub_le p 2, Nat.le_refl p⟩

/-- **Trimming** does not pass the start of the content, except in `<?>`. -/
theorem trim_spec (htype : TypeAt b i type toff) (hi : b[i]? = some 60)
    (hle : i + 1 + toff ≤ p) (hc : b[p]? = some 62)
    (hclosing : (type = .cdata ∨ type = .comment) → i + 1 + toff + 2 ≤ p) :
    ∃ type' stop, trim b type p = .returns (type', stop) ∧ type' ≠ .error ∧ stop ≤ p ∧
      (i + 1 + toff ≤ stop ∨ (Bare b i ∧ toff = 1 ∧ type' = .processing ∧ stop = i + 1)) := by
  have hlen : p < b.length := (List.getElem?_eq_some_iff.mp hc).1
  have hkept : ∀ type' stop, trim b type p = .returns (type', stop) → type' ≠ .error →
      i + 1 + toff ≤ stop → stop ≤ p →
      ∃ type' stop, trim b type p = .returns (type', stop) ∧ type' ≠ .error ∧ stop ≤ p ∧
        (i + 1 + toff ≤ stop ∨ (Bare b i ∧ toff = 1 ∧ type' = .processing ∧ stop = i + 1)) := by
    intro type' stop htrim hne hge hle
    exact ⟨type', stop, htrim, hne, hle, .inl hge⟩
  cases type with
  | opens =>
    obtain ⟨d, hback, hd, hread⟩ := back_one (show 0 < p by omega) (Nat.le_of_lt hlen)
    by_cases hslash : d = 47
    · refine hkept .openEmpty (p - 1) ?_ (by decide) ?_ (by omega)
      · simp only [trim, hback, hread, Outcome.returns_bind, if_pos hslash]
      · rcases Nat.eq_or_lt_of_le hle with heq | hlt
        · have hplace : p - 1 = i := by
            simp only [TypeAt] at htype
            omega
          rw [hplace, hi, hslash] at hd
          cases hd
        · omega
    · refine hkept .opens p ?_ (by decide) hle (Nat.le_refl p)
      simp only [trim, hback, hread, Outcome.returns_bind, if_neg hslash]
  | cdata =>
    have hroom := hclosing (.inl rfl)
    obtain ⟨stop, htrim, hge, hlestop⟩ := trim_closing .cdata 93
      (show 2 ≤ p by omega) (Nat.le_of_lt hlen)
    exact hkept .cdata stop htrim (by decide) (by omega) hlestop
  | comment =>
    have hroom := hclosing (.inr rfl)
    obtain ⟨stop, htrim, hge, hlestop⟩ := trim_closing .comment 45
      (show 2 ≤ p by omega) (Nat.le_of_lt hlen)
    exact hkept .comment stop htrim (by decide) (by omega) hlestop
  | processing =>
    obtain ⟨rfl, hsecond⟩ := htype
    obtain ⟨d, hback, hd, hread⟩ := back_one (show 0 < p by omega) (Nat.le_of_lt hlen)
    by_cases hmark : d = 63
    · have htrim : trim b .processing p = .returns (.processing, p - 1) := by
        simp only [trim, hback, hread, Outcome.returns_bind, if_pos hmark]
      rcases Nat.eq_or_lt_of_le hle with heq | hlt
      · -- the question mark at the end is the one that began the tag
        subst heq
        refine ⟨_, _, htrim, by decide, by omega, .inr ⟨?_, rfl, rfl, by omega⟩⟩
        have h0 := (List.getElem?_eq_some_iff.mp hi)
        have h1 := (List.getElem?_eq_some_iff.mp hsecond)
        have h2 := (List.getElem?_eq_some_iff.mp hc)
        obtain ⟨hl0, h0⟩ := h0
        obtain ⟨hl1, h1⟩ := h1
        obtain ⟨hl2, h2⟩ := h2
        refine ⟨b.drop (i + 3), ?_⟩
        rw [drop_eq_getElem_cons hl0, drop_eq_getElem_cons hl1,
          drop_eq_getElem_cons hl2, h0, h1, h2]
        rfl
      · exact hkept _ _ htrim (by decide) (by omega) (by omega)
    · refine hkept .processing p ?_ (by decide) hle (Nat.le_refl p)
      simp only [trim, hback, hread, Outcome.returns_bind, if_neg hmark]
  | close => exact hkept .close p rfl (by decide) hle (Nat.le_refl p)
  | doctype => exact hkept .doctype p rfl (by decide) hle (Nat.le_refl p)
  | doctypeChild => exact hkept .doctypeChild p rfl (by decide) hle (Nat.le_refl p)
  | openEmpty => exact htype.elim
  | data => exact htype.elim
  | error => exact htype.elim
  | ignored => exact htype.elim

theorem stripped_spec (strip : Bool) (type : XmlType) (hle : start ≤ stop)
    (hlen : stop ≤ b.length) :
    ∃ start' stop', stripped b strip type start stop = .returns (start', stop') ∧
      start ≤ start' ∧ start' ≤ stop' ∧ stop' ≤ stop := by
  rw [stripped]
  split
  · obtain ⟨s, hskip, hs⟩ := whitespaceSkip_spec hle hlen
    obtain ⟨e, hback, he, hstop, hkeep⟩ := findBack_spec b (fun c => !isSpace c) (s + 1) stop hlen
    have hunskip : whitespaceUnskip b stop (s + 1) = .returns e := hback
    refine ⟨s, e, ?_, hs.ge, ?_, he⟩
    · rw [hskip, Outcome.returns_bind, hunskip, Outcome.returns_bind]
    · have hsle := hs.le
      by_cases h : s + 1 < stop
      · omega
      · rw [hkeep (by omega)]
        exact hsle
  · exact ⟨start, stop, rfl, Nat.le_refl _, hle, Nat.le_refl _⟩

theorem stripped_bare : stripped b strip .processing (i + 2) (i + 1) = .returns (i + 2, i + 1) := by
  have hskip : whitespaceSkip b (i + 2) (i + 1) = .returns (i + 2) :=
    whitespaceSkip_of_le (by omega)
  have hunskip : whitespaceUnskip b (i + 1) (i + 2 + 1) = .returns (i + 1) := by
    rw [whitespaceUnskip, findBack, if_neg (by omega)]
  rw [stripped, hskip, Outcome.returns_bind, hunskip]
  split <;> rfl

/-! ### Turns of the loop -/

/-- The callback is told of ranges one after another. -/
def cbs (func : List Invocation → Invocation → Bool) (told : List Invocation) :
    List (XmlType × Nat × Nat) → (List Invocation → Outcome Next) → Outcome Next
  | [], rest => rest told
  | (type, start, stop) :: calls, rest =>
    cb func told type start stop fun told => cbs func told calls rest

/-- Ranges from `i` on that follow each other up to `j`. -/
def Spans (i : Nat) : List (XmlType × Nat × Nat) → Nat → Prop
  | [], j => i ≤ j
  | (_, start, stop) :: calls, j => i ≤ start ∧ start ≤ stop ∧ Spans stop calls j

/-- The loop's turn at `i`, where `c` stands. -/
def turn (b : List UInt8) (strip : Bool) (func : List Invocation → Invocation → Bool)
    (told : List Invocation) (i : Nat) (c : UInt8) : Outcome Next :=
  if c = 60 then tagTurn b strip func told i else textTurn b strip func told i

theorem textFrom_eq (strip : Bool) (hi : i ≤ b.length) :
    ∃ calls j, First b (fun x => decide (x = 60)) i b.length j ∧ Spans i calls j ∧
      ∀ func told, textFrom b strip func told i =
        cbs func told calls fun told => .returns (.goesOn told j) := by
  have hsum : i + (b.length - i) = b.length := by omega
  obtain ⟨j, hj, hfound⟩ := memchr_spec b 60 (i := i) (n := b.length - i) (by omega)
  rw [hsum] at hj hfound
  have hget : (if j < b.length then some j else none).getD b.length = j := by
    have hle := hj.le
    split
    · rfl
    · simp only [Option.getD_none]
      omega
  obtain ⟨stop, hback, hstop, hgt, hkeep⟩ :=
    findBack_spec b (fun c => !isSpace c) i j hj.le
  have hge := hj.ge
  cases strip with
  | false =>
    refine ⟨if i ≠ j then [(.data, i, j)] else [], j, hj, ?_, ?_⟩
    · split
      · exact ⟨Nat.le_refl i, hge, Nat.le_refl j⟩
      · exact hge
    · intro func told
      simp only [textFrom, hfound, Outcome.returns_bind, hget, Bool.false_eq_true,
        if_false]
      split <;> rfl
  | true =>
    refine ⟨(if i ≠ stop then [(.data, i, stop)] else []) ++
      (if stop < j then [(.ignored, stop, j)] else []), j, hj, ?_, ?_⟩
    · by_cases h1 : i = stop <;> by_cases h2 : stop < j <;> simp [h1, h2, Spans] <;> omega
    · have hunskip : whitespaceUnskip b j i = .returns stop := hback
      simp only [textFrom, hfound, Outcome.returns_bind, hget, hunskip]
      by_cases h1 : i = stop <;> by_cases h2 : stop < j <;> simp [h1, h2, cbs]

/-- **A turn at text** goes on at the next `<`. -/
theorem textTurn_eq (strip : Bool) (hc : b[i]? = some c) (hne : c ≠ 60) :
    ∃ calls j, First b (fun x => decide (x = 60)) i b.length j ∧ i < j ∧ Spans i calls j ∧
      ∀ func told, textTurn b strip func told i =
        cbs func told calls fun told => .returns (.goesOn told j) := by
  have hi : i < b.length := (List.getElem?_eq_some_iff.mp hc).1
  have hafter : ∀ j, First b (fun x => decide (x = 60)) i b.length j → i < j := by
    intro j hj
    refine Nat.lt_of_le_of_ne hj.ge ?_
    rintro rfl
    obtain ⟨x, hx, heq⟩ := hj.here hi
    rw [hc] at hx
    cases hx
    exact hne (of_decide_eq_true heq)
  cases strip with
  | false =>
    obtain ⟨calls, j, hj, hspans, heq⟩ := textFrom_eq false (Nat.le_of_lt hi)
    exact ⟨calls, j, hj, hafter j hj, hspans, heq⟩
  | true =>
    obtain ⟨s, hskip, hs⟩ := whitespaceSkip_spec (Nat.le_of_lt hi) (Nat.le_refl b.length)
    obtain ⟨calls, j, hj, hspans, heq⟩ := textFrom_eq true hs.le
    have hj' : First b (fun x => decide (x = 60)) i b.length j := by
      refine ⟨Nat.le_trans hs.ge hj.ge, hj.le, ?_, hj.here⟩
      intro k x hik hkj hx
      by_cases hks : k < s
      · have hspace := hs.before k x hik hks hx
        by_contra hx60
        simp only [Bool.not_eq_false, decide_eq_true_eq] at hx60
        rw [hx60] at hspace
        exact absurd hspace (by decide)
      · exact hj.before k x (by omega) hkj hx
    refine ⟨(.ignored, i, s) :: calls, j, hj', hafter j hj',
      ⟨Nat.le_refl i, hs.ge, hspans⟩, ?_⟩
    intro func told
    simp only [textTurn, if_true, hskip, Outcome.returns_bind, heq, cbs]

/-- **A turn at a tag** that has an end goes on behind it. -/
theorem tagTurn_eq (strip : Bool) (hc : b[i]? = some 60) (hi : i + 1 < b.length)
    (hp : TagEnds b i p) :
    ∃ calls j, Follows b i j ∧ i < j ∧ j ≤ b.length ∧
      (Spans i calls j ∨ (Bare b i ∧ calls = [(.processing, i + 2, i + 1)])) ∧
      ∀ func told, tagTurn b strip func told i =
        cbs func told calls fun told => .returns (.goesOn told j) := by
  obtain ⟨type, toff, htype, hfind⟩ := hp
  obtain ⟨type', toff', htype', hat⟩ := tagType_spec hi
  rw [htype] at htype'
  cases htype'
  have hcontent := hat.content_le hi
  obtain ⟨r, hr, hbounds⟩ := endFind_spec type hcontent
  rw [hfind] at hr
  cases hr
  obtain ⟨hend, hclosing⟩ := hbounds p rfl
  have hge := hend.ge
  have hlt := hend.inside
  have hturn : ¬b.length ≤ i + 1 := by omega
  have hp : TagEnds b i p := ⟨type, toff, htype, hfind⟩
  rcases hend.byte with hbyte | hbyte
  · obtain ⟨type', stop, htrim, hne, hstop, hcase⟩ := trim_spec hat hc hge hbyte hclosing
    rcases hcase with hle | ⟨hbare, rfl, rfl, rfl⟩
    · obtain ⟨s, e, hstrip, hs, hse, he⟩ :=
        stripped_spec strip type' hle (by omega : stop ≤ b.length)
      refine ⟨[(type', s, e)], p + 1, .closed hc hi hp hbyte (by decide), by omega, hlt,
        .inl ⟨by omega, hse, (by omega : e ≤ p + 1)⟩, ?_⟩
      intro func told
      simp only [tagTurn, if_neg hturn, htype, Outcome.returns_bind, hfind,
        readAt_of_getElem? hbyte, if_neg (show ¬(62 : UInt8) = 60 by decide), htrim, hstrip, cbs,
        if_neg hne]
    · refine ⟨[(.processing, i + 2, i + 1)], p + 1, .closed hc hi hp hbyte (by decide), by omega,
        hlt, Or.inr ⟨hbare, rfl⟩, ?_⟩
      intro func told
      simp only [tagTurn, if_neg hturn, htype, Outcome.returns_bind, hfind,
        readAt_of_getElem? hbyte, if_neg (show ¬(62 : UInt8) = 60 by decide), htrim, stripped_bare,
        cbs, if_neg hne]
  · refine ⟨[(.error, i + 1, p)], p, .cut hc hi hp hbyte, by omega, Nat.le_of_lt hlt,
      .inl ⟨by omega, by omega, Nat.le_refl p⟩, ?_⟩
    intro func told
    have hstrip : stripped b strip .error (i + 1) p = .returns (i + 1, p) := by
      rw [stripped, if_neg (by simp)]
    simp only [tagTurn, if_neg hturn, htype, Outcome.returns_bind, hfind,
      readAt_of_getElem? hbyte, if_true, trim, hstrip, cbs]

/-- **A turn at a tag without an end** tells the rest of the buffer as an error. -/
theorem tagTurn_endless (hend : i + 1 < b.length → ∀ p, ¬TagEnds b i p) :
    tagTurn b strip func told i =
      cbs func told [(.error, i, b.length)] fun told => .returns (.stops told false) := by
  by_cases hi : i + 1 < b.length
  · obtain ⟨type, toff, htype, hat⟩ := tagType_spec hi
    obtain ⟨r, hr, -⟩ := endFind_spec type (hat.content_le hi)
    cases r with
    | some p => exact absurd ⟨type, toff, htype, hr⟩ (hend hi p)
    | none =>
      simp only [tagTurn, if_neg (show ¬b.length ≤ i + 1 by omega), htype, Outcome.returns_bind,
        hr, cbs]
  · simp only [tagTurn, if_pos (show b.length ≤ i + 1 by omega), cbs]

theorem TagEnds.unique {p p' : Nat} (h : TagEnds b i p) (h' : TagEnds b i p') : p = p' := by
  obtain ⟨type, toff, htype, hp⟩ := h
  obtain ⟨type', toff', htype', hp'⟩ := h'
  rw [htype] at htype'
  cases htype'
  rw [hp] at hp'
  cases hp'
  rfl

theorem Follows.unique {j' : Nat} (h : Follows b i j) (h' : Follows b i j') : j = j' := by
  cases h with
  | text hc hne hj =>
    cases h' with
    | text _ _ hj' => exact hj.unique hj'
    | closed hc' =>
      rw [hc] at hc'
      cases hc'
      exact absurd rfl hne
    | cut hc' =>
      rw [hc] at hc'
      cases hc'
      exact absurd rfl hne
  | closed hc hi hp hd hne =>
    cases h' with
    | text hc' hne' =>
      rw [hc] at hc'
      cases hc'
      exact absurd rfl hne'
    | closed _ _ hp' => rw [hp.unique hp']
    | cut _ _ hp' hd' =>
      rw [hp.unique hp', hd'] at hd
      cases hd
      exact absurd rfl hne
  | cut hc hi hp hd =>
    cases h' with
    | text hc' hne' =>
      rw [hc] at hc'
      cases hc'
      exact absurd rfl hne'
    | closed _ _ hp' hd' hne' =>
      rw [hp.unique hp', hd'] at hd
      cases hd
      exact absurd rfl hne'
    | cut _ _ hp' => exact hp.unique hp'

/-- **What a turn does**: it tells ranges that follow each other and goes on behind them, or it
    tells the rest as an error; a bare `<?>` alone is told as a range that ends before it
    starts. -/
theorem turn_cases (strip : Bool) (hc : b[i]? = some c) :
    (∃ calls j, Follows b i j ∧ i < j ∧ j ≤ b.length ∧
      (Spans i calls j ∨ (Bare b i ∧ calls = [(.processing, i + 2, i + 1)])) ∧
      ∀ func told, turn b strip func told i c =
        cbs func told calls fun told => .returns (.goesOn told j)) ∨
    ((∀ j, ¬Follows b i j) ∧ ∀ func told, turn b strip func told i c =
      cbs func told [(.error, i, b.length)] fun told => .returns (.stops told false)) := by
  by_cases hlt : c = 60
  swap
  · obtain ⟨calls, j, hj, hij, hspans, heq⟩ := textTurn_eq strip hc hlt
    refine .inl ⟨calls, j, .text hc hlt hj, hij, hj.le, .inl hspans, ?_⟩
    intro func told
    rw [turn, if_neg hlt, heq]
  subst hlt
  by_cases hend : i + 1 < b.length ∧ ∃ p, TagEnds b i p
  · obtain ⟨hi, p, hp⟩ := hend
    obtain ⟨calls, j, hj, hij, hle, hspans, heq⟩ := tagTurn_eq strip hc hi hp
    refine .inl ⟨calls, j, hj, hij, hle, hspans, ?_⟩
    intro func told
    rw [turn, if_pos rfl, heq]
  · refine .inr ⟨?_, ?_⟩
    · intro j hj
      cases hj with
      | text hc' hne =>
        rw [hc] at hc'
        cases hc'
        exact hne rfl
      | closed _ hi hp => exact hend ⟨hi, _, hp⟩
      | cut _ hi hp => exact hend ⟨hi, _, hp⟩
    · intro func told
      rw [turn, if_pos rfl, tagTurn_endless fun hi p hp => hend ⟨hi, p, hp⟩]

theorem parseLoop_turn (hc : b[i]? = some c) (fuel : Nat) :
    parseLoop b strip func (fuel + 1) told i = turn b strip func told i c >>= fun next =>
      match next with
      | .stops told ret => .returns (told, ret)
      | .goesOn told itr => parseLoop b strip func fuel told itr := by
  have hi : i < b.length := (List.getElem?_eq_some_iff.mp hc).1
  rw [parseLoop, if_pos hi, readAt_of_getElem? hc]
  rfl

theorem parseLoop_end (hi : ¬i < b.length) (fuel : Nat) :
    parseLoop b strip func (fuel + 1) told i = .returns (told, true) := by
  rw [parseLoop, if_neg hi]

/-! ### Runs -/

theorem Told.le (h : Told told i) (hij : i ≤ j) : Told told j where
  inside := fun c hc => Nat.le_trans (h.inside c hc) hij
  ordered := h.ordered

theorem Told.push (h : Told told i) (type : XmlType) (hs : i ≤ start)
    (hle : start ≤ stop) (hstop : stop < 2 ^ 32) :
    Told (told ++ [invocation type start stop]) stop := by
  have hoffset : (invocation type start stop).offset = start := Nat.mod_eq_of_lt (by omega)
  have hlength : (invocation type start stop).length = stop - start := by
    simp only [invocation]
    omega
  constructor
  · intro c hc
    rcases mem_append.mp hc with hc | hc
    · have hbefore := h.inside c hc
      omega
    · rw [mem_singleton.mp hc]
      omega
  · refine pairwise_append.mpr ⟨h.ordered, pairwise_singleton _ _, ?_⟩
    intro c hc d hd
    have hbefore := h.inside c hc
    rw [mem_singleton.mp hd]
    omega

theorem Spans.le : ∀ {calls : List (XmlType × Nat × Nat)} {i : Nat}, Spans i calls j → i ≤ j := by
  intro calls
  induction calls with
  | nil => exact fun h => h
  | cons call calls ih =>
    intro i h
    obtain ⟨h1, h2, h3⟩ := h
    exact Nat.le_trans h1 (Nat.le_trans h2 (ih h3))

/-- **Ranges that follow each other are told in order**, as far as the callback agrees. -/
theorem Told.cbs (func : List Invocation → Invocation → Bool)
    (rest : List Invocation → Outcome Next) (hj : j < 2 ^ 32) :
    ∀ (calls : List (XmlType × Nat × Nat)) (i : Nat) (told : List Invocation), Told told i →
      Spans i calls j →
      (∃ told', Told told' j ∧ SimpleXml.cbs func told calls rest =
        .returns (.stops told' false)) ∨
      (∃ told', Told told' j ∧ SimpleXml.cbs func told calls rest = rest told') := by
  intro calls
  induction calls with
  | nil =>
    intro i told h hspans
    exact .inr ⟨told, h.le hspans, rfl⟩
  | cons call calls ih =>
    obtain ⟨type, start, stop⟩ := call
    intro i told h ⟨hs, hle, hspans⟩
    have hstop : stop ≤ j := hspans.le
    have hpush := h.push type hs hle (by omega)
    simp only [SimpleXml.cbs, cb]
    split
    · exact ih stop _ hpush hspans
    · exact .inl ⟨_, hpush.le hstop, rfl⟩

/-- **Where no tag is `<?>` the loop ends** with ranges in order, whatever the callback says. -/
theorem NoneBare.parseLoop_ends (hnone : NoneBare b) (hlen : b.length < 2 ^ 32) :
    ∀ n i told, b.length - i ≤ n → Starts b i → i ≤ b.length → Told told i →
      ∃ told' ret, Outcome.Ends (fun fuel => parseLoop b strip func fuel told i) (told', ret) ∧
        Told told' b.length := by
  intro n
  induction n with
  | zero =>
    intro i told hn _ hle htold
    exact ⟨told, true, (ends_const _).succ (parseLoop_end (by omega)), htold.le hle⟩
  | succ n ih =>
    intro i told hn hstarts hle htold
    by_cases hi : i < b.length
    swap
    · exact ⟨told, true, (ends_const _).succ (parseLoop_end hi), htold.le hle⟩
    obtain ⟨c, hc⟩ := exists_getElem? hi
    rcases turn_cases strip hc with
      ⟨calls, j, hj, hij, hjlen, hspans | ⟨hbare, -⟩, heq⟩ | ⟨-, heq⟩
    · rcases Told.cbs func (fun told => .returns (.goesOn told j))
        (by omega) calls i told htold hspans with ⟨told', htold', hcbs⟩ | ⟨told', htold', hcbs⟩
      · refine ⟨told', false, (ends_const _).succ fun fuel => ?_, htold'.le hjlen⟩
        rw [parseLoop_turn hc, heq, hcbs, Outcome.returns_bind]
      obtain ⟨told'', ret, hends, hfinal⟩ :=
        ih j told' (by omega) (hstarts.next hj) hjlen htold'
      refine ⟨told'', ret, hends.succ fun fuel => ?_, hfinal⟩
      rw [parseLoop_turn hc, heq, hcbs, Outcome.returns_bind]
    · exact absurd hbare (hnone i hstarts)
    rcases Told.cbs func (fun told => .returns (.stops told false)) hlen
      [(.error, i, b.length)] i told htold ⟨Nat.le_refl i, hle, Nat.le_refl _⟩ with
      ⟨told', htold', hcbs⟩ | ⟨told', htold', hcbs⟩ <;>
    · refine ⟨told', false, (ends_const _).succ fun fuel => ?_, htold'⟩
      rw [parseLoop_turn hc, heq, hcbs, Outcome.returns_bind]

section

variable (hfunc : ∀ told call, func told call = true)

include hfunc

theorem cbs_all {rest : List Invocation → Outcome Next} : ∀ calls told,
    cbs func told calls rest =
      rest (told ++ calls.map fun call => invocation call.1 call.2.1 call.2.2) := by
  intro calls
  induction calls with
  | nil =>
    simp [cbs]
  | cons call calls ih =>
    intro told
    simp only [cbs, cb, hfunc, if_true, ih, map_cons, append_assoc,
      singleton_append]

theorem parseLoop_prefix : ∀ fuel told i told' ret,
    parseLoop b strip func fuel told i = .returns (told', ret) → told <+: told' := by
  intro fuel
  induction fuel with
  | zero =>
    intro told i told' ret h
    cases h
  | succ fuel ih =>
    intro told i told' ret h
    by_cases hi : i < b.length
    swap
    · rw [parseLoop_end hi] at h
      cases h
      exact prefix_refl told
    obtain ⟨c, hc⟩ := exists_getElem? hi
    rw [parseLoop_turn hc] at h
    rcases turn_cases strip hc with ⟨calls, j, -, -, -, -, heq⟩ | ⟨-, heq⟩
    · rw [heq, cbs_all hfunc] at h
      exact (prefix_append _ _).trans (ih _ _ _ _ h)
    rw [heq, cbs_all hfunc] at h
    cases h
    exact prefix_append _ _

theorem Starts.reached {r : List Invocation × Bool} (hends : Outcome.Ends (parse b strip func) r)
    (h : Starts b i) :
    ∃ told, Outcome.Ends (fun fuel => parseLoop b strip func fuel told i) r := by
  induction h with
  | first => exact ⟨[], hends⟩
  | next _ hj ih =>
    rename_i i j _
    obtain ⟨told, hrest⟩ := ih
    obtain ⟨c, hc⟩ : ∃ c, b[i]? = some c := by
      cases hj with
      | text hc => exact ⟨_, hc⟩
      | closed hc => exact ⟨_, hc⟩
      | cut hc => exact ⟨_, hc⟩
    rcases turn_cases strip hc with ⟨calls, j', hj', -, -, -, heq⟩ | ⟨hnone, -⟩
    · refine ⟨told ++ calls.map fun call => invocation call.1 call.2.1 call.2.2,
        hrest.rest (k := 1) fun fuel => ?_⟩
      rw [parseLoop_turn hc, heq, cbs_all hfunc, Outcome.returns_bind, hj.unique hj']
    · exact absurd hj (hnone j)

end

/-- **`<?>` is told with a length of `2 ^ 32 - 1`.** -/
theorem tagTurn_bare (h : Bare b i) : tagTurn b strip func told i =
    cbs func told [(.processing, i + 2, i + 1)] fun told => .returns (.goesOn told (i + 3)) := by
  have hlen := length_le_of_prefix h (by decide)
  simp only [length_cons] at hlen
  have h1 : b[i + 1]? = some 63 := getElem?_of_prefix h (by decide)
  have h2 : b[i + 2]? = some 62 := getElem?_of_prefix h (by decide)
  have htype : tagType b i = .returns (.processing, 1) := by
    simp only [tagType, readAt_of_getElem? h1, Outcome.returns_bind,
      if_neg (show ¬(63 : UInt8) = 47 by decide), if_true]
  have hend : endFind b .processing (i + 1 + 1) = .returns (some (i + 2)) := by
    have hplaces : b.length - (i + 2) = b.length - (i + 3) + 1 := by omega
    simp only [endFind, tagEndFind, hplaces, tagEndFindFrom,
      readAt_of_getElem? h2]
    rfl
  have htrim : trim b .processing (i + 2) = .returns (.processing, i + 1) := by
    have hback : back (i + 2) 1 = .returns (i + 1) := if_pos (by omega)
    simp only [trim, hback, readAt_of_getElem? h1, Outcome.returns_bind, if_true]
  simp only [tagTurn, if_neg (show ¬b.length ≤ i + 1 by omega), htype, Outcome.returns_bind, hend,
    readAt_of_getElem? h2, if_neg (show ¬(62 : UInt8) = 60 by decide), htrim, stripped_bare]
  rfl

/-- **Every range that the callback is told of lies in the buffer**, they are in order, nothing
    else is read and the call returns, exactly when no tag of the buffer is `<?>`. -/
theorem parse_safe_iff (buf : Buffer) (strip : Bool) (func : List Invocation → Invocation → Bool)
    (hfunc : ∀ told call, func told call = true) :
    ParseSafe buf.bytes strip func ↔ NoneBare buf.bytes := by
  have hsmall := buf.small
  constructor
  · rintro ⟨told, ret, hends, htold⟩ i hstarts hbare
    obtain ⟨seen, n, hn⟩ := hstarts.reached hfunc hends
    have hfirst : buf.bytes[i]? = some 60 := by
      have h0 := getElem?_of_prefix hbare (k := 0) (by decide)
      simpa using h0
    have hlast := hn (n + 1) (by omega)
    simp only [parseLoop_turn hfirst, turn, tagTurn_bare hbare, cbs_all hfunc] at hlast
    have hfront := parseLoop_prefix hfunc _ _ _ _ _ hlast
    have hmem : invocation .processing (i + 2) (i + 1) ∈ told :=
      hfront.subset (by simp)
    have hinside := htold.inside _ hmem
    have hlen := length_le_of_prefix hbare (by decide)
    simp only [length_cons] at hlen
    simp only [invocation] at hinside
    omega
  · intro hnone
    exact hnone.parseLoop_ends hsmall _ 0 [] (Nat.le_refl _) .first (Nat.zero_le _)
      ⟨by simp, List.Pairwise.nil⟩

/-- A buffer without a question mark. -/
theorem parse_safe_tag : ParseSafe [60, 97, 62] true fun _ _ => true :=
  (parse_safe_iff ⟨[60, 97, 62], by decide⟩ true (fun _ _ => true) fun _ _ => rfl).mpr
    fun i _ hbare => by
      have hmark : (63 : UInt8) ∈ [60, 97, 62] :=
        (drop_suffix i _).subset (hbare.subset (by decide))
      exact absurd hmark (by decide)

/-- `<?>` alone. -/
theorem bare_unsafe : ¬ParseSafe [60, 63, 62] false fun _ _ => true := by
  rintro ⟨told, ret, ⟨n, hn⟩, htold⟩
  have hrun := hn (n + 2) (by omega)
  have htold' : told = [invocation .processing 2 1] := by
    cases hrun
    rfl
  have hinside := htold.inside (invocation .processing 2 1) (by rw [htold']; simp)
  exact absurd hinside (by decide)

end Eina.SimpleXml
