/-
`eina_unicode.c`: UTF-8 and codepoints.

A string in memory is the list of what it consists of with its terminator; reading
behind that is undefined.  A codepoint is a natural number: all that occur here are
less than 2 ^ 31, so it does not matter whether `Eina_Unicode` is signed.  The indices
and lengths of strings are `int`s, and what overflows one is undefined.
-/
import Mathlib.Data.BitVec

namespace Eina.Unicode

abbrev Byte := BitVec 8

/-- `ERROR_REPLACEMENT_BASE` -/
def errorReplacementBase : Nat := 0xDC80

/-- `ERROR_REPLACEMENT_END` -/
def errorReplacementEnd : Nat := 0xDCFF

/-- `EINA_UNICODE_UTF8_BYTES_PER_CHAR` -/
def utf8BytesPerChar : Nat := 6

/-- `EINA_IS_INVALID_BYTE` -/
def isInvalidByte (d : Byte) : Bool := d == 192 || d == 193 || 245 ≤ d

/-- `EINA_IS_CONTINUATION_BYTE` -/
def isContinuationByte (d : Byte) : Bool := d &&& 0xC0 == 0x80

/-- A string with its terminator. -/
def cstr {α : Type} [Zero α] (s : List α) : List α := s ++ [0]

/-! ### Decoding -/

/-- `buf[ind++]` -/
def read (buf : List Byte) (ind : Nat) : Option Byte :=
  if ind + 1 < 2 ^ 31 then buf[ind]? else none

/-- The last `k` bytes of a sequence are read into `r`; the inner `none` is a jump to `error`. -/
def readRest (buf : List Byte) : Nat → Nat → Nat → Option (Option (Nat × Nat))
  | 0, ind, r => some (some (r, ind))
  | k + 1, ind, r =>
    (read buf ind).bind fun d =>
      if d = 0 || isInvalidByte d || !isContinuationByte d then some none
      else readRest buf k (ind + 1) (r ||| ((d &&& 0x3f).toNat <<< (6 * k)))

/-- A sequence of `k + 1` bytes with what its first byte carries; up to `most` it is overlong. -/
def readSequence (buf : List Byte) (ind k : Nat) (lead : Byte) (most : Nat) :
    Option (Option (Nat × Nat)) :=
  (readRest buf k ind (lead.toNat <<< (6 * k))).map fun found =>
    found.bind fun (r, ind) => if r ≤ most then none else some (r, ind)

/-- The sequence that starts with `d`, by its first bits. -/
def sequenceFrom (buf : List Byte) (ind : Nat) (d : Byte) : Option (Option (Nat × Nat)) :=
  if d &&& 0xe0 = 0xc0 then readSequence buf ind 1 (d &&& 0x1f) 0x7F
  else if d &&& 0xf0 = 0xe0 then readSequence buf ind 2 (d &&& 0x0f) 0x7FF
  else if d &&& 0xf8 = 0xf0 then readSequence buf ind 3 (d &&& 0x07) 0xFFFF
  else if d &&& 0xfc = 0xf8 then readSequence buf ind 4 (d &&& 0x03) 0x1FFFFF
  else if d &&& 0xfe = 0xfc then readSequence buf ind 5 (d &&& 0x01) 0x3FFFFFF
  else some none

/-- `eina_unicode_utf8_next_get` and `_eina_unicode_utf8_next_get`: the codepoint, and the index
behind it. -/
def utf8NextGet (buf : List Byte) (iindex : Nat) : Option (Nat × Nat) :=
  (read buf iindex).bind fun d =>
    if d = 0 then some (0, iindex)
    else if d &&& 0x80 = 0 then some (d.toNat, iindex + 1)
    else (sequenceFrom buf (iindex + 1) d).map fun found =>
      found.getD (errorReplacementBase ||| d.toNat, iindex + 1)

/-- The loop of `eina_unicode_utf8_get_len` from `ind` on. -/
def getLenFrom (buf : List Byte) : Nat → Nat → Option Nat
  | 0, _ => none
  | fuel + 1, ind =>
    (utf8NextGet buf ind).bind fun (r, ind) =>
      if r = 0 then some 0 else (getLenFrom buf fuel ind).map (· + 1)

/-- `eina_unicode_utf8_get_len` -/
def utf8GetLen (buf : List Byte) : Option Nat := getLenFrom buf buf.length 0

/-- So many codepoints from `ind` on. -/
def decodeFrom (buf : List Byte) : Nat → Nat → Option (List Nat)
  | 0, _ => some []
  | len + 1, ind =>
    (utf8NextGet buf ind).bind fun (r, ind) => (decodeFrom buf len ind).map (r :: ·)

/-- `eina_unicode_utf8_to_unicode`: the codepoints with a terminator, and their number. -/
def utf8ToUnicode (utf : List Byte) : Option (List Nat × Nat) :=
  (utf8GetLen utf).bind fun len => (decodeFrom utf len 0).map fun us => (cstr us, len)

/-! ### Encoding -/

/-- The last `k` bytes of the sequence of a codepoint. -/
def restBytes (u : Nat) : Nat → List Byte
  | 0 => []
  | k + 1 => ((0x80 : Byte) ||| BitVec.ofNat 8 ((u >>> (6 * k)) &&& 0x3F)) :: restBytes u k

/-- The bytes of one codepoint. -/
def encode (u : Nat) : List Byte :=
  if u ≤ 0x7F then [BitVec.ofNat 8 u]
  else if u ≤ 0x7FF then ((0xC0 : Byte) ||| BitVec.ofNat 8 (u >>> 6)) :: restBytes u 1
  else if u ≤ 0xFFFF then
    if errorReplacementBase ≤ u ∧ u ≤ errorReplacementEnd then [BitVec.ofNat 8 (u &&& 0xFF)]
    else ((0xE0 : Byte) ||| BitVec.ofNat 8 (u >>> 12)) :: restBytes u 2
  else if u ≤ 0x1FFFFF then
    ((0xF0 : Byte) ||| BitVec.ofNat 8 ((u >>> 18) &&& 0x07)) :: restBytes u 3
  else if u ≤ 0x3FFFFFF then
    ((0xF8 : Byte) ||| BitVec.ofNat 8 ((u >>> 24) &&& 0x03)) :: restBytes u 4
  else ((0xFC : Byte) ||| BitVec.ofNat 8 ((u >>> 30) &&& 0x01)) :: restBytes u 5

/-- The loop over the codepoints, of which at most `ulen` are encoded. -/
def encodeLoop : List Nat → Nat → Option (List Byte)
  | [], _ => none
  | u :: uni, ulen =>
    if u = 0 then some []
    else
      match ulen with
      | 0 => some []
      | ulen + 1 => (encodeLoop uni ulen).map (encode u ++ ·)

/-- `eina_unicode_unicode_to_utf8_range`: the bytes with a terminator, and their number.  There are
none where the size of the memory overflows, or is negative and so not to be had. -/
def unicodeToUtf8Range (uni : List Nat) (ulen : Int) : Option (List Byte × Nat) :=
  let size := (ulen + 1) * utf8BytesPerChar
  if 0 ≤ size ∧ size < 2 ^ 31 then
    (encodeLoop uni ulen.toNat).map fun buf => (cstr buf, buf.length)
  else none

/-- `eina_unicode_strlen` -/
def strlen : List Nat → Option Nat
  | [] => none
  | u :: uni => if u = 0 then some 0 else (strlen uni).map (· + 1)

/-- `eina_unicode_unicode_to_utf8`; the length becomes an `int`. -/
def unicodeToUtf8 (uni : List Nat) : Option (List Byte × Nat) :=
  (strlen uni).bind fun len => unicodeToUtf8Range uni (BitVec.ofNat 32 len).toInt

example : utf8NextGet (cstr [0xE2, 0x82, 0xAC, 0x41]) 0 = some (0x20AC, 3) := by decide

end Eina.Unicode
