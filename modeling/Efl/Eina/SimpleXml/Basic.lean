/-
The parser of simple XML: what is parsed, and the helpers that both of its loops use.

A pointer into the buffer is its offset from `buf`, and `itr_end` is the length of the buffer.
-/
import Mathlib.Algebra.Group.Nat.Defs
import Efl.Lib.Scan

namespace Eina.SimpleXml

open Scan

/-- `isspace` of the C locale. -/
def isSpace (c : UInt8) : Bool := c == 32 || (9 ≤ c && c ≤ 13)

/-- What is given to be parsed; `buflen` is an `unsigned`. -/
structure Buffer where
  bytes : List UInt8
  small : bytes.length < 2 ^ 32

/-- `_eina_simple_xml_whitespace_find` -/
def whitespaceFind (b : List UInt8) (itr itrEnd : Nat) : Outcome Nat :=
  find b isSpace (itrEnd - itr) itr

/-- `_eina_simple_xml_whitespace_skip` -/
def whitespaceSkip (b : List UInt8) (itr itrEnd : Nat) : Outcome Nat :=
  find b (fun c => !isSpace c) (itrEnd - itr) itr

/-- `_eina_simple_xml_whitespace_unskip` -/
def whitespaceUnskip (b : List UInt8) (itr itrStart : Nat) : Outcome Nat :=
  findBack b (fun c => !isSpace c) itrStart itr

variable {b : List UInt8} {itr itrEnd : Nat}

theorem whitespaceFind_spec (h : itr ≤ itrEnd) (hend : itrEnd ≤ b.length) :
    ∃ j, whitespaceFind b itr itrEnd = .returns j ∧ First b isSpace itr itrEnd j := by
  have hsum : itr + (itrEnd - itr) = itrEnd := by omega
  have hspec := find_spec b isSpace (itrEnd - itr) itr (by omega)
  rwa [hsum] at hspec

theorem whitespaceSkip_spec (h : itr ≤ itrEnd) (hend : itrEnd ≤ b.length) :
    ∃ j, whitespaceSkip b itr itrEnd = .returns j ∧
      First b (fun c => !isSpace c) itr itrEnd j := by
  have hsum : itr + (itrEnd - itr) = itrEnd := by omega
  have hspec := find_spec b (fun c => !isSpace c) (itrEnd - itr) itr (by omega)
  rwa [hsum] at hspec

theorem whitespaceSkip_of_le (h : itrEnd ≤ itr) : whitespaceSkip b itr itrEnd = .returns itr := by
  rw [whitespaceSkip, Nat.sub_eq_zero_of_le h]
  rfl

end Eina.SimpleXml
