/-
`eina_simple_xml_attributes_parse`: the pairs of a key and a value that a tag carries.

`tmp` is the temporary buffer of the stack, whose bytes are indeterminate at first.  What the
callback answers may depend on all that it was told before.

The loop does not move on where a key would begin with the equals sign; it looks for the
closing quote one byte too far; and the size of the temporary buffer is an `unsigned`, which
is zero for a buffer of the greatest length.  Where none of these happens, the call returns, stays
inside of its buffers and reports pieces of the buffer in their order (`attributesParse_safe_iff`).
-/
import Efl.Eina.SimpleXml.Basic

namespace Eina.SimpleXml

open Scan List Outcome

/-- A key and its value, as the strings that the callback gets. -/
abbrev Pair := List UInt8 × List UInt8

/-- The string at an offset of a block. -/
def cString (m : List UInt8) (off : Nat) : Outcome (List UInt8) :=
  if 0 ∈ m.drop off then .returns ((m.drop off).takeWhile (· ≠ 0)) else .undefined

/-- What one turn of the loop finds before it writes anything. -/
inductive Found where
  /-- The function returns. -/
  | ends (ret : Bool)
  /-- `continue` with `itr` as it was. -/
  | again
  | pair (key keyEnd value valueEnd : Nat)
  deriving DecidableEq

/-- Where a key ends: at the equals sign or at a space. -/
def keyStop (c : UInt8) : Bool := c == 61 || isSpace c

def isQuote (c : UInt8) : Bool := c == 34 || c == 39

/-- The value from its first byte on, `none` where its closing quote is not found. -/
def valueBounds (b : List UInt8) (value : Nat) : Outcome (Option (Nat × Nat)) := do
  let c ← readAt b value
  if isQuote c then
    -- `itr_end - value` bytes from `value + 1` on
    match ← memchr b c (value + 1) (b.length - value) with
    | none => .returns none
    | some valueEnd => .returns (some (value + 1, valueEnd))
  else do
    let valueEnd ← whitespaceFind b value b.length
    .returns (some (value, valueEnd))

/-- The place behind the equals sign, `none` where there is none. -/
def behindEquals (b : List UInt8) (keyEnd : Nat) : Outcome (Option Nat) := do
  let c ← readAt b keyEnd
  if c = 61 then .returns (some (keyEnd + 1))
  else
    match ← memchr b 61 keyEnd (b.length - keyEnd) with
    | none => .returns none
    | some value => .returns (some (value + 1))

/-- A turn of the loop up to the value's end. -/
def attributeFind (b : List UInt8) (itr : Nat) : Outcome Found := do
  let key ← whitespaceSkip b itr b.length
  if key = b.length then .returns (.ends true)
  else do
    let keyEnd ← find b keyStop (b.length - key) key
    if keyEnd = b.length then .returns (.ends false)
    else if keyEnd = key then .returns .again
    else
      match ← behindEquals b keyEnd with
      | none => .returns (.ends false)
      | some behind => do
        let value ← whitespaceSkip b behind b.length
        if value = b.length then .returns (.ends false)
        else
          match ← valueBounds b value with
          | none => .returns (.ends false)
          | some (value, valueEnd) => .returns (.pair key keyEnd value valueEnd)

/-- The pair is copied to the temporary buffer; the strings are read from there. -/
def pairCopy (b tmp : List UInt8) (key keyEnd value valueEnd : Nat) :
    Outcome (List UInt8 × Pair) := do
  let name ← slice b key (keyEnd - key)
  let tmp ← write tmp 0 name
  let tmp ← write tmp (keyEnd - key) [0]
  let tval := keyEnd - key + 1
  let content ← slice b value (valueEnd - value)
  let tmp ← write tmp tval content
  let tmp ← write tmp (tval + (valueEnd - value)) [0]
  let k ← cString tmp 0
  let v ← cString tmp tval
  .returns (tmp, k, v)

variable (b : List UInt8) (func : List Pair → Pair → Bool)

/-- The loop of `eina_simple_xml_attributes_parse`, from `itr` on. -/
def attributesLoop : Nat → Nat → List UInt8 → List Pair → Outcome (List Pair × Bool)
  | 0, _, _, _ => .running
  | fuel + 1, itr, tmp, told =>
    if itr < b.length then do
      match ← attributeFind b itr with
      | .ends ret => .returns (told, ret)
      | .again => attributesLoop fuel itr tmp told
      | .pair key keyEnd value valueEnd => do
        let (tmp, pair) ← pairCopy b tmp key keyEnd value valueEnd
        if func told pair then attributesLoop fuel (valueEnd + 1) tmp (told ++ [pair])
        else .returns (told ++ [pair], false)
    else .returns (told, true)

/-- `alloca(buflen + 1)`, with what happens to stand there. -/
def tmpbuf (junk : Nat → UInt8) : List UInt8 :=
  (List.range ((b.length + 1) % 2 ^ 32)).map junk

/-- `eina_simple_xml_attributes_parse`: what the callback was told, and what is returned. -/
def attributesParse (junk : Nat → UInt8) (fuel : Nat) : Outcome (List Pair × Bool) :=
  attributesLoop b func fuel 0 (tmpbuf b junk) []

/-! ### How the buffer reads from the front -/

/-- From `i` on, the first word that may be a key stands at `k` and ends before `e`. -/
structure KeyAt (i k e : Nat) : Prop where
  key : First b (fun c => !isSpace c) i b.length k
  keyEnd : First b keyStop k b.length e
  inside : e < b.length

/-- The value of a key that ends before `e` begins at `v`. -/
structure ValueAt (e v : Nat) : Prop where
  equals : ∃ q, First b (fun c => decide (c = 61)) e b.length q ∧ q < b.length ∧
    First b (fun c => !isSpace c) (q + 1) b.length v
  inside : v < b.length

/-- The attribute that follows `i`: a key, and a value that is quoted or ends at a space. -/
inductive Attribute (i : Nat) : Nat → Nat → Nat → Nat → Prop
  | quoted {k e v w : Nat} {c : UInt8} (hkey : KeyAt b i k e) (hne : k ≠ e)
      (hvalue : ValueAt b e v) (hc : b[v]? = some c) (hquote : isQuote c = true)
      (hend : First b (fun x => decide (x = c)) (v + 1) b.length w) (hw : w < b.length) :
      Attribute i k e (v + 1) w
  | bare {k e v w : Nat} {c : UInt8} (hkey : KeyAt b i k e) (hne : k ≠ e)
      (hvalue : ValueAt b e v) (hc : b[v]? = some c) (hquote : isQuote c = false)
      (hend : First b isSpace v b.length w) : Attribute i k e v w

/-- The next attribute has an equals sign where its key would begin. -/
def Nameless (i : Nat) : Prop := ∃ k, KeyAt b i k k

/-- The next attribute has a quote that no quote closes. -/
def Unclosed (i : Nat) : Prop :=
  ∃ k e v c, KeyAt b i k e ∧ k ≠ e ∧ ValueAt b e v ∧ b[v]? = some c ∧ isQuote c = true ∧
    First b (fun x => decide (x = c)) (v + 1) b.length b.length

/-- The string that a piece of the buffer is copied to. -/
def piece (i j : Nat) : List UInt8 := ((b.drop i).take (j - i)).takeWhile (· ≠ 0)

/-- The places at which the reading of attributes stands, with the pairs that it has passed:
    it goes on behind each pair that the callback accepts. -/
inductive Reads : Nat → List Pair → Prop
  | start : Reads 0 []
  | next {i k e v w : Nat} {told : List Pair} (h : Reads i told) (hi : i < b.length)
      (hpair : Attribute b i k e v w)
      (hgoes : func told (piece b k e, piece b v w) = true) :
      Reads (w + 1) (told ++ [(piece b k e, piece b v w)])

/-- No attribute that is read lacks its key or its closing quote, and where there is one the
    temporary buffer has its size. -/
def Well : Prop :=
  ∀ i told, Reads b func i told → i < b.length →
    ¬Nameless b i ∧ ¬Unclosed b i ∧
      ((∃ k e v w, Attribute b i k e v w) → b.length + 1 < 2 ^ 32)

/-! ### What is asked of a run -/

/-- The pairs are pieces of the buffer before `j`, each key before its value and each pair behind
    the one before it. -/
inductive InOrder : List Pair → Nat → Prop
  | nil : InOrder [] 0
  | snoc {told : List Pair} {i a c j : Nat} {k v : List UInt8} (h : InOrder told i)
      (ha : i ≤ a) (hk : k <+: b.drop a) (hc : a + k.length < c) (hv : v <+: b.drop c)
      (hj : c + v.length ≤ j) : InOrder (told ++ [(k, v)]) j

/-- The call returns without leaving its buffers, and the pairs stand in the buffer in order. -/
def AttributesSafe (junk : Nat → UInt8) : Prop :=
  ∃ told ret j, Outcome.Ends (attributesParse b func junk) (told, ret) ∧ InOrder b told j

variable {b func} {i k e v w : Nat} {told : List Pair} {tmp : List UInt8} {junk : Nat → UInt8}
  {r : List Pair × Bool}

/-! ### The turns of the loop -/

theorem find_eq {p : UInt8 → Bool} {i j : Nat} (hle : i ≤ b.length)
    (h : First b p i b.length j) : find b p (b.length - i) i = .returns j := by
  have hsum : i + (b.length - i) = b.length := by omega
  exact find_of_first (by omega) (by rwa [hsum])

theorem KeyAt.le_key (h : KeyAt b i k e) : i ≤ k := h.key.ge

theorem KeyAt.le (h : KeyAt b i k e) : k ≤ e := h.keyEnd.ge

theorem ValueAt.lt (h : ValueAt b e v) : e < v := by
  obtain ⟨q, hq, -, hv⟩ := h.equals
  have heq := hq.ge
  have hqv := hv.ge
  omega

theorem behindEquals_spec (h : e < b.length) :
    ∃ q, First b (fun c => decide (c = 61)) e b.length q ∧
      behindEquals b e = .returns (if q < b.length then some (q + 1) else none) := by
  obtain ⟨c, hc, hread⟩ := exists_readAt h
  simp only [behindEquals, hread, returns_bind]
  by_cases heq : c = 61
  · refine ⟨e, First.refl hc (by simp [heq]) (by omega), ?_⟩
    rw [if_pos heq, if_pos h]
  have hsum : e + (b.length - e) = b.length := by omega
  obtain ⟨q, hq, hfound⟩ := memchr_spec b 61 (i := e) (n := b.length - e) (by omega)
  rw [hsum] at hq hfound
  refine ⟨q, hq, ?_⟩
  rw [if_neg heq, hfound, returns_bind]
  by_cases hlt : q < b.length
  · rw [if_pos hlt, if_pos hlt]
  · rw [if_neg hlt, if_neg hlt]

theorem ValueAt.behindEquals_eq (h : ValueAt b e v) :
    ∃ behind, behindEquals b e = .returns (some behind) ∧ behind ≤ b.length ∧
      First b (fun c => !isSpace c) behind b.length v := by
  obtain ⟨q, hq, hlt, hv⟩ := h.equals
  obtain ⟨q', hq', hfound⟩ := behindEquals_spec (Nat.lt_of_le_of_lt hq.ge hlt)
  rw [hq'.unique hq, if_pos hlt] at hfound
  exact ⟨q + 1, hfound, hlt, hv⟩

theorem KeyAt.le_length (h : KeyAt b i k e) : i ≤ b.length := by
  have hlt := h.inside
  have hle := h.le
  have hle' := h.le_key
  omega

theorem KeyAt.attributeFind_eq (h : KeyAt b i k e) (hne : k ≠ e) (hvalue : ValueAt b e v) :
    attributeFind b i = valueBounds b v >>= fun r =>
      match r with
      | none => .returns (.ends false)
      | some (value, valueEnd) => .returns (.pair k e value valueEnd) := by
  have hke := h.le
  have hlt := h.inside
  obtain ⟨behind, hbehind, hle, hskip⟩ := hvalue.behindEquals_eq
  have hkey : whitespaceSkip b i b.length = .returns k := find_eq h.le_length h.key
  have hval : whitespaceSkip b behind b.length = .returns v := find_eq hle hskip
  simp only [attributeFind, hkey, returns_bind, if_neg (show k ≠ b.length by omega),
    find_eq (show k ≤ b.length by omega) h.keyEnd, if_neg (show e ≠ b.length by omega),
    if_neg (symm hne), hbehind, hval, if_neg (Nat.ne_of_lt hvalue.inside)]

/-- **A key that begins with the equals sign keeps the loop where it is.** -/
theorem attributeFind_of_nameless (h : Nameless b i) : attributeFind b i = .returns .again := by
  obtain ⟨k, h⟩ := h
  have hlt := h.inside
  have hkey : whitespaceSkip b i b.length = .returns k := find_eq h.le_length h.key
  simp only [attributeFind, hkey, returns_bind, if_neg (show k ≠ b.length by omega),
    find_eq (show k ≤ b.length by omega) h.keyEnd, if_true]

/-- **A quote that no quote closes is looked for outside of the buffer.** -/
theorem attributeFind_of_unclosed (h : Unclosed b i) : attributeFind b i = .undefined := by
  obtain ⟨k, e, v, c, hkey, hne, hvalue, hc, hquote, hnone⟩ := h
  have hbounds : valueBounds b v = .undefined := by
    simp only [valueBounds, readAt_of_getElem? hc, returns_bind, hquote, memchr,
      hnone.find_undefined (b.length - v) (by omega)]
    rfl
  rw [hkey.attributeFind_eq hne hvalue, hbounds]
  rfl

theorem Attribute.attributeFind_eq (h : Attribute b i k e v w) :
    attributeFind b i = .returns (.pair k e v w) := by
  cases h with
  | @quoted v _ c hkey hne hvalue hc hquote hend hw =>
    have hfound : memchr b c (v + 1) (b.length - v) = .returns (some w) := by
      simp only [memchr, hend.find_eq hw (b.length - v) (by omega), returns_bind]
      rw [if_pos (by omega)]
    rw [hkey.attributeFind_eq hne hvalue]
    simp only [valueBounds, readAt_of_getElem? hc, returns_bind, hquote, if_true, hfound]
  | @bare _ _ c hkey hne hvalue hc hquote hend =>
    have hv := hvalue.inside
    have hfound : whitespaceFind b v b.length = .returns w := find_eq (by omega) hend
    rw [hkey.attributeFind_eq hne hvalue]
    simp only [valueBounds, readAt_of_getElem? hc, returns_bind, hquote,
      Bool.false_eq_true, if_false, hfound]

/-- What a turn finds: nothing more, no name, no end of the value, or an attribute. -/
theorem attributeFind_cases (hi : i ≤ b.length) :
    (∃ ret, attributeFind b i = .returns (.ends ret)) ∨ Nameless b i ∨ Unclosed b i ∨
      ∃ k e v w, Attribute b i k e v w := by
  obtain ⟨k, hskip, hk⟩ := whitespaceSkip_spec hi (Nat.le_refl b.length)
  by_cases hkend : k = b.length
  · refine .inl ⟨true, ?_⟩
    simp only [attributeFind, hskip, returns_bind, if_pos hkend]
  have hksum : k + (b.length - k) = b.length := by
    have hle := hk.le
    omega
  obtain ⟨e, hfind, he⟩ := find_spec b keyStop (b.length - k) k (by omega)
  rw [hksum] at he
  by_cases heend : e = b.length
  · refine .inl ⟨false, ?_⟩
    simp only [attributeFind, hskip, returns_bind, if_neg hkend, hfind, if_pos heend]
  have hkey : KeyAt b i k e := ⟨hk, he, Nat.lt_of_le_of_ne he.le heend⟩
  by_cases hne : k = e
  · subst hne
    exact .inr (.inl ⟨k, hkey⟩)
  obtain ⟨q, hq, hbehind⟩ := behindEquals_spec hkey.inside
  by_cases hqend : q < b.length
  · rw [if_pos hqend] at hbehind
    obtain ⟨v, hvskip, hv⟩ := whitespaceSkip_spec hqend (Nat.le_refl b.length)
    by_cases hvend : v = b.length
    · refine .inl ⟨false, ?_⟩
      simp only [attributeFind, hskip, returns_bind, if_neg hkend, hfind, if_neg heend,
        if_neg (Ne.symm hne), hbehind, hvskip, if_pos hvend]
    have hvlt : v < b.length := Nat.lt_of_le_of_ne hv.le hvend
    have hvalue : ValueAt b e v := ⟨⟨q, hq, hqend, hv⟩, hvlt⟩
    obtain ⟨c, hc⟩ := exists_getElem? hvlt
    cases hquote : isQuote c with
    | true =>
      have hsum : v + 1 + (b.length - (v + 1)) = b.length := by omega
      obtain ⟨w, -, hw⟩ := find_spec b (fun x => decide (x = c)) (b.length - (v + 1)) (v + 1)
        (by omega)
      rw [hsum] at hw
      rcases Nat.lt_or_eq_of_le hw.le with hlt | rfl
      · exact .inr (.inr (.inr
          ⟨k, e, v + 1, w, .quoted hkey hne hvalue hc hquote hw hlt⟩))
      · exact .inr (.inr (.inl ⟨k, e, v, c, hkey, hne, hvalue, hc, hquote, hw⟩))
    | false =>
      obtain ⟨w, -, hw⟩ := whitespaceFind_spec (Nat.le_of_lt hvlt) (Nat.le_refl b.length)
      exact .inr (.inr (.inr ⟨k, e, v, w, .bare hkey hne hvalue hc hquote hw⟩))
  · refine .inl ⟨false, ?_⟩
    rw [if_neg hqend] at hbehind
    simp only [attributeFind, hskip, returns_bind, if_neg hkend, hfind, if_neg heend,
      if_neg (Ne.symm hne), hbehind]

/-! ### The temporary buffer -/

theorem Attribute.bounds (h : Attribute b i k e v w) :
    i ≤ k ∧ k < e ∧ e < v ∧ v ≤ w ∧ w ≤ b.length := by
  cases h with
  | quoted hkey hne hvalue hc hquote hend hw =>
    have h1 := hkey.le_key
    have h2 := hkey.le
    have h3 := hvalue.lt
    have h4 := hend.ge
    omega
  | bare hkey hne hvalue hc hquote hend =>
    have h1 := hkey.le_key
    have h2 := hkey.le
    have h3 := hvalue.lt
    have h4 := hend.ge
    have h5 := hend.le
    omega

theorem cString_of_append (front xs rest : List UInt8) :
    cString (front ++ (xs ++ 0 :: rest)) front.length = .returns (xs.takeWhile (· ≠ 0)) := by
  have hdrop : (front ++ (xs ++ 0 :: rest)).drop front.length = xs ++ 0 :: rest :=
    drop_left
  have hmem : 0 ∈ xs ++ 0 :: rest := by simp
  rw [cString, hdrop, if_pos hmem]
  congr 1
  rw [takeWhile_append]
  split
  · rename_i hall
    rw [takeWhile_cons_of_neg (by simp), append_nil]
    exact ( takeWhile_prefix _).eq_of_length hall |>.symm
  · rfl

/-- **Key, value and both of the closing zeros fit into `buflen + 1` bytes.** -/
theorem Attribute.pairCopy_eq (h : Attribute b i k e v w) (htmp : tmp.length = b.length + 1) :
    ∃ tmp', pairCopy b tmp k e v w = .returns (tmp', piece b k e, piece b v w) ∧
      tmp'.length = b.length + 1 := by
  obtain ⟨hik, hke, hev, hvw, hw⟩ := h.bounds
  have hname : ((b.drop k).take (e - k)).length = e - k := by
    rw [length_take, length_drop]
    omega
  have hcontent : ((b.drop v).take (w - v)).length = w - v := by
    rw [length_take, length_drop]
    omega
  generalize hn : (b.drop k).take (e - k) = name at hname
  generalize hx : (b.drop v).take (w - v) = content at hcontent
  -- the block is cut where the four writes begin and end
  obtain ⟨o1, o2, o3, o4, rest, rfl, h1, h2, h3, h4⟩ :
      ∃ o1 o2 o3 o4 rest, tmp = o1 ++ (o2 ++ (o3 ++ (o4 ++ rest))) ∧ o1.length = e - k ∧
        o2.length = 1 ∧ o3.length = w - v ∧ o4.length = 1 := by
    refine ⟨tmp.take (e - k), (tmp.drop (e - k)).take 1,
      ((tmp.drop (e - k)).drop 1).take (w - v), (((tmp.drop (e - k)).drop 1).drop (w - v)).take 1,
      (((tmp.drop (e - k)).drop 1).drop (w - v)).drop 1, ?_, ?_, ?_, ?_, ?_⟩
    · rw [take_append_drop, take_append_drop, take_append_drop,
        take_append_drop]
    all_goals
      simp only [length_take, length_drop]
      omega
  have hw1 := write_append [] (o2 ++ (o3 ++ (o4 ++ rest))) (show o1.length = name.length by omega)
  have hw2 := write_append name (o3 ++ (o4 ++ rest)) (show o2.length = [(0 : UInt8)].length from h2)
  have hw3 := write_append (name ++ [0]) (o4 ++ rest) (show o3.length = content.length by omega)
  have hw4 := write_append (name ++ [0] ++ content) rest
    (show o4.length = [(0 : UInt8)].length from h4)
  have hs1 := cString_of_append [] name (content ++ 0 :: rest)
  have hs2 := cString_of_append (name ++ [0]) content rest
  refine ⟨name ++ 0 :: (content ++ 0 :: rest), ?_, ?_⟩
  · have hread1 : slice b k (e - k) = .returns name := by
      rw [slice, if_pos (by omega), hn]
    have hread2 : slice b v (w - v) = .returns content := by
      rw [slice, if_pos (by omega), hx]
    simp only [length_append, length_nil, length_cons, nil_append,
      append_assoc, cons_append, hname, hcontent] at hw1 hw2 hw3 hw4 hs1 hs2
    rw [show e - k + (w - v + 1) = e - k + 1 + (w - v) by omega] at hw4
    simp only [pairCopy, hread1, hread2, returns_bind, hw1, hw2, hw3, hw4, hs1, hs2, piece,
      hn, hx]
  · simp only [length_append, length_cons] at htmp ⊢
    omega

/-! ### Runs -/

theorem piece_prefix : piece b i k <+: b.drop i :=
  ( takeWhile_prefix _).trans ( take_prefix _ _)

theorem length_piece_le : (piece b i k).length ≤ k - i := by
  have hle := ( takeWhile_prefix (· ≠ 0) (l := (b.drop i).take (k - i))).length_le
  rw [length_take] at hle
  unfold piece
  omega

theorem InOrder.next (h : InOrder b told i) (hpair : Attribute b i k e v w) :
    InOrder b (told ++ [(piece b k e, piece b v w)]) (w + 1) := by
  obtain ⟨hik, hke, hev, hvw, -⟩ := hpair.bounds
  have hname := length_piece_le (b := b) (i := k) (k := e)
  have hcontent := length_piece_le (b := b) (i := v) (k := w)
  exact h.snoc hik piece_prefix (by omega) piece_prefix (by omega)

theorem attributesLoop_end (hi : ¬i < b.length) (fuel : Nat) :
    attributesLoop b func (fuel + 1) i tmp told = .returns (told, true) := by
  rw [attributesLoop, if_neg hi]

theorem Attribute.attributesLoop_eq (h : Attribute b i k e v w)
    (func : List Pair → Pair → Bool) (told : List Pair) (hi : i < b.length)
    (htmp : tmp.length = b.length + 1) :
    ∃ tmp', tmp'.length = b.length + 1 ∧ ∀ fuel,
      attributesLoop b func (fuel + 1) i tmp told =
        if func told (piece b k e, piece b v w) then
          attributesLoop b func fuel (w + 1) tmp' (told ++ [(piece b k e, piece b v w)])
        else .returns (told ++ [(piece b k e, piece b v w)], false) := by
  obtain ⟨tmp', hcopy, hlength⟩ := h.pairCopy_eq htmp
  refine ⟨tmp', hlength, ?_⟩
  intro fuel
  rw [attributesLoop, if_pos hi, h.attributeFind_eq]
  simp only [hcopy, returns_bind]

/-- **Where the reading goes well the loop ends**, however far it has come. -/
theorem Well.attributesLoop_ends (hwell : Well b func) : ∀ n i told tmp, b.length + 1 - i ≤ n →
    Reads b func i told → InOrder b told i → tmp.length = (b.length + 1) % 2 ^ 32 →
    ∃ told' ret j, Outcome.Ends (fun fuel => attributesLoop b func fuel i tmp told) (told', ret) ∧
      InOrder b told' j := by
  intro n
  induction n with
  | zero =>
    intro i told tmp hn _ horder _
    exact ⟨told, true, i, (ends_const _).succ (attributesLoop_end (by omega)), horder⟩
  | succ n ih =>
    intro i told tmp hn hreads horder htmp
    by_cases hi : i < b.length
    swap
    · exact ⟨told, true, i, (ends_const _).succ (attributesLoop_end hi), horder⟩
    obtain ⟨hnamed, hclosed, hsize⟩ := hwell i told hreads hi
    rcases attributeFind_cases (Nat.le_of_lt hi) with ⟨ret, hfind⟩ | hbad | hbad | hpair
    · refine ⟨told, ret, i, (ends_const _).succ fun fuel => ?_, horder⟩
      rw [attributesLoop, if_pos hi, hfind, returns_bind]
    · exact absurd hbad hnamed
    · exact absurd hbad hclosed
    · have hsize := hsize hpair
      obtain ⟨k, e, v, w, hpair⟩ := hpair
      obtain ⟨hik, hke, hev, hvw, hw⟩ := hpair.bounds
      rw [Nat.mod_eq_of_lt hsize] at htmp
      obtain ⟨tmp', htmp', hturn⟩ := hpair.attributesLoop_eq func told hi htmp
      by_cases hgoes : func told (piece b k e, piece b v w) = true
      · obtain ⟨told', ret, j, hends, horder'⟩ := ih (w + 1) _ tmp' (by omega)
          (hreads.next hi hpair hgoes) (horder.next hpair)
          (by rw [htmp', Nat.mod_eq_of_lt hsize])
        refine ⟨told', ret, j, hends.succ fun fuel => ?_, horder'⟩
        rw [hturn, if_pos hgoes]
      · refine ⟨_, false, w + 1, (ends_const _).succ fun fuel => ?_, horder.next hpair⟩
        rw [hturn, if_neg hgoes]

theorem Attribute.pairCopy_undefined (h : Attribute b i k e v w) (htmp : tmp.length = 0) :
    pairCopy b tmp k e v w = .undefined := by
  obtain ⟨hik, hke, hev, hvw, hw⟩ := h.bounds
  have hname : ((b.drop k).take (e - k)).length = e - k := by
    rw [length_take, length_drop]
    omega
  have hread : slice b k (e - k) = .returns ((b.drop k).take (e - k)) := if_pos (by omega)
  have hwrite : write tmp 0 ((b.drop k).take (e - k)) = .undefined := by
    rw [write, if_neg (by omega)]
  rw [pairCopy, hread, returns_bind, hwrite]
  rfl

theorem Attribute.room (h : Attribute b i k e v w) (hlen : b.length < 2 ^ 32)
    (hi : i < b.length) (htmp : tmp.length = (b.length + 1) % 2 ^ 32)
    (hends : Outcome.Ends (fun fuel => attributesLoop b func fuel i tmp told) r) :
    b.length + 1 < 2 ^ 32 := by
  by_contra hfull
  have heq : b.length + 1 = 2 ^ 32 := by omega
  rw [heq] at htmp
  refine not_ends_undefined (fun fuel => ?_) hends
  rw [attributesLoop, if_pos hi, h.attributeFind_eq, returns_bind]
  simp only [h.pairCopy_undefined htmp]
  rfl

theorem Reads.reached (hlen : b.length < 2 ^ 32)
    (hends : Outcome.Ends (attributesParse b func junk) r) (h : Reads b func i told) :
    ∃ tmp, tmp.length = (b.length + 1) % 2 ^ 32 ∧
      Outcome.Ends (fun fuel => attributesLoop b func fuel i tmp told) r := by
  induction h with
  | start => exact ⟨tmpbuf b junk, by simp [tmpbuf], hends⟩
  | next _ hi hpair hgoes ih =>
    obtain ⟨tmp, htmp, hrest⟩ := ih
    have hsize := hpair.room hlen hi htmp hrest
    rw [Nat.mod_eq_of_lt hsize] at htmp
    obtain ⟨tmp', htmp', hturn⟩ := hpair.attributesLoop_eq _ _ hi htmp
    refine ⟨tmp', by rw [htmp', Nat.mod_eq_of_lt hsize], hrest.rest (k := 1) fun fuel => ?_⟩
    rw [hturn, if_pos hgoes]

/-- **The call returns, stays inside of its buffers and reports pieces of the buffer in order**
    exactly when no attribute that it reads lacks its key or its closing quote, and the length
    of the buffer is not the greatest. -/
theorem attributesParse_safe_iff (buf : Buffer) (func : List Pair → Pair → Bool)
    (junk : Nat → UInt8) :
    AttributesSafe buf.bytes func junk ↔ Well buf.bytes func := by
  constructor
  · rintro ⟨told, ret, j, hends, -⟩ i seen hreads hi
    obtain ⟨tmp, htmp, hrest⟩ := hreads.reached buf.small hends
    refine ⟨fun hbad => ?_, fun hbad => ?_, ?_⟩
    · refine not_ends_again rfl (fun fuel => ?_) hrest
      rw [attributesLoop, if_pos hi, attributeFind_of_nameless hbad, returns_bind]
    · refine not_ends_undefined (fun fuel => ?_) hrest
      rw [attributesLoop, if_pos hi, attributeFind_of_unclosed hbad]
      rfl
    · rintro ⟨k, e, v, w, hpair⟩
      exact hpair.room buf.small hi htmp hrest
  · intro hwell
    exact hwell.attributesLoop_ends _ 0 [] _ (Nat.le_refl _) .start .nil (by simp [tmpbuf])

/-- `=` alone keeps the loop at its first place for ever. -/
theorem equals_unsafe : ¬AttributesSafe [61] (fun _ _ => true) fun _ => 0 := by
  rintro ⟨told, ret, j, hends, -⟩
  exact not_ends_again rfl (fun fuel => rfl) hends

end Eina.SimpleXml
