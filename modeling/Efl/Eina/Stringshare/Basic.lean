/-
`eina_stringshare.c`: four ways to keep a string.

The empty string and the strings of one `char` are static.  Strings of two or three
are kept in one bucket for each first byte: three parallel arrays, sorted, in which a
string is found by binary search.  All others go into a common share.

The arrays are lists as long as the memory they have; `count` of their elements are in
use.  Writing behind the memory of an array, and reading behind that of a string, is
undefined.  What the allocator answers is an argument of the calls.
-/
import Mathlib.Algebra.Group.Int.Defs
import Efl.Eina.Share.Run
import Efl.Lib.Bisect

namespace Eina

open Superfast Share

namespace Stringshare

/-- What the allocator answers during one call. -/
structure Memory where
  bucket : Bool
  strings : Bool
  lengths : Bool
  references : Bool
  block : Option Addr

/-- A pointer to a string; the address of a single is an offset into the table. -/
inductive Ptr where
  | empty
  | single (offset : Int)
  | small (addr : Addr)
  | node (p : NodeAddr)
deriving DecidableEq

/-- `struct _Eina_Stringshare_Small_Bucket` -/
structure Bucket where
  strings : List Addr
  lengths : List Byte
  references : List (BitVec 32)
  count : Nat
  size : Nat

/-- `struct _Eina_Stringshare_Small`, with the strings that are allocated. -/
structure Small where
  buckets : Byte → Option Bucket
  text : Addr → Option (List Byte)

end Stringshare

open Stringshare

/-- `stringshare_share` and `_eina_small_share` -/
structure Stringshare where
  share : Share
  small : Small

namespace Stringshare

/-- `EINA_STRINGSHARE_SMALL_BUCKET_STEP` -/
def step : Nat := 8

/-- `_eina_stringshare_single`: every byte and a terminator. -/
def single : List Byte := (List.range 256).flatMap fun i => [BitVec.ofNat 8 i, 0]

/-! ### Arrays -/

/-- `realloc`; new elements have any value. -/
def realloc {α : Type} (fill : α) (xs : List α) (size : Nat) : List α :=
  xs.take size ++ List.replicate (size - xs.length) fill

/-- `memmove(xs + dst, xs + src, n)` -/
def memmove {α : Type} (xs : List α) (dst src n : Nat) : Option (List α) :=
  if dst + n ≤ xs.length ∧ src + n ≤ xs.length then
    some (xs.take dst ++ (xs.drop src).take n ++ xs.drop (dst + n))
  else none

/-- `xs[idx] = v` -/
def write {α : Type} (xs : List α) (idx : Nat) (v : α) : Option (List α) :=
  if idx < xs.length then some (xs.set idx v) else none

/-- The elements from `idx` on make room, and `v` is written. -/
def insertElement {α : Type} (xs : List α) (count idx : Nat) (v : α) : Option (List α) :=
  if 0 < count - idx then (memmove xs (idx + 1) idx (count - idx)).bind fun xs => write xs idx v
  else write xs idx v

/-! ### The small buckets -/

/-- Two `char`s, which are signed. -/
def cmpChar (cur p : Byte) : Int :=
  if p.toInt < cur.toInt then 1 else if cur.toInt < p.toInt then -1 else 0

/-- `_eina_stringshare_small_cmp`; `pstr` and `plength` are without the first `char`. -/
def smallCmp (text : Addr → Option (List Byte)) (b : Bucket) (pstr : List Byte) (plength : Byte)
    (i : Nat) : Option Int :=
  b.lengths[i]?.bind fun len =>
    let curPlength := len - 1
    if plength < curPlength then some 1
    else if curPlength < plength then some (-1)
    else
      b.strings[i]?.bind fun a => (text a).bind fun t =>
        t[1]?.bind fun cur0 => pstr[0]?.bind fun p0 =>
          if cmpChar cur0 p0 ≠ 0 then some (cmpChar cur0 p0)
          else if plength = 1 then some 0
          else t[2]?.bind fun cur1 => pstr[1]?.map fun p1 => cmpChar cur1 p1

/-- `_eina_stringshare_small_bucket_find`: the index, and whether the string is there. -/
def smallBucketFind (text : Addr → Option (List Byte)) (b : Bucket) (str : List Byte)
    (length : Byte) : Option (Nat × Bool) :=
  if b.count = 0 then some (0, false)
  else Bisect.bisect (smallCmp text b (str.drop 1) (length - 1)) b.count 0 b.count

/-- `_eina_stringshare_small_bucket_resize` -/
def smallBucketResize (b : Bucket) (size : Nat) (mem : Memory) : Bucket × Bool :=
  if mem.strings then
    let b := { b with strings := realloc 0 b.strings size }
    if mem.lengths then
      let b := { b with lengths := realloc 0 b.lengths size }
      if mem.references then
        ({ b with references := realloc 0 b.references size, size := size }, true)
      else (b, false)
    else (b, false)
  else (b, false)

/-- The bucket of a first byte, made if there is none. -/
def bucketFor (s : Small) (c : Byte) (mem : Memory) : Option Bucket :=
  match s.buckets c with
  | some b => some b
  | none => if mem.bucket then some ⟨[], [], [], 0, 0⟩ else none

def setBucket (s : Small) (c : Byte) (b : Option Bucket) : Small :=
  { s with buckets := Function.update s.buckets c b }

/-- The bucket gets room for one more string. -/
def makeRoom (b : Bucket) (mem : Memory) : Bucket × Bool :=
  if b.size ≤ b.count + 1 then smallBucketResize b (b.size + step) mem else (b, true)

/-- The arrays of a bucket with one more string. -/
def insertEntry (b : Bucket) (idx : Nat) (a : Addr) (length : Byte) : Option Bucket :=
  (insertElement b.strings b.count idx a).bind fun strings =>
    (insertElement b.lengths b.count idx length).bind fun lengths =>
      (insertElement b.references b.count idx 1).map fun references =>
        ⟨strings, lengths, references, b.count + 1, b.size⟩

/-- `_eina_stringshare_small_bucket_insert_at` -/
def smallBucketInsertAt (s : Small) (c : Byte) (str : List Byte) (length : Byte) (idx : Nat)
    (mem : Memory) : Option (Small × Option Addr) :=
  match bucketFor s c mem with
  | none => some (s, none)
  | some b =>
    let (b, room) := makeRoom b mem
    if room then
      match mem.block with
      | none => some (setBucket s c (some b), none)
      | some a =>
        (insertEntry b idx a length).map fun b =>
          ({ setBucket s c (some b) with
            text := Function.update s.text a (some (str.take length.toNat ++ [0])) }, some a)
    else some (setBucket s c (some b), none)

/-- The elements behind `idx` close the gap; `count` is what is left. -/
def removeElement {α : Type} (xs : List α) (count idx : Nat) : Option (List α) :=
  if idx = count then some xs else memmove xs idx (idx + 1) (count - idx)

/-- The arrays of a bucket with one string less, and less memory if much is unused. -/
def removeEntry (b : Bucket) (idx : Nat) (mem : Memory) : Option Bucket :=
  (removeElement b.strings (b.count - 1) idx).bind fun strings =>
    (removeElement b.lengths (b.count - 1) idx).bind fun lengths =>
      (removeElement b.references (b.count - 1) idx).map fun references =>
        let b : Bucket := ⟨strings, lengths, references, b.count - 1, b.size⟩
        if b.count + step < b.size then (smallBucketResize b (b.size - step) mem).1 else b

/-- `_eina_stringshare_small_bucket_remove_at` -/
def smallBucketRemoveAt (s : Small) (c : Byte) (b : Bucket) (idx : Nat) (mem : Memory) :
    Option Small :=
  b.references[idx]?.bind fun r =>
    if 1 < r then
      some (setBucket s c (some { b with references := b.references.set idx (r - 1) }))
    else
      b.strings[idx]?.bind fun a =>
        let s := { s with text := Function.update s.text a none }
        if b.count = 1 then some (setBucket s c none)
        else (removeEntry b idx mem).map fun b => setBucket s c (some b)

/-- `_eina_stringshare_small_add` -/
def smallAdd (s : Small) (str : List Byte) (length : Byte) (mem : Memory) :
    Option (Small × Option Addr) :=
  str[0]?.bind fun c =>
    match s.buckets c with
    | none => smallBucketInsertAt s c str length 0 mem
    | some b =>
      (smallBucketFind s.text b str length).bind fun (i, found) =>
        if found then
          b.references[i]?.bind fun r => b.strings[i]?.map fun a =>
            (setBucket s c (some { b with references := b.references.set i (r + 1) }), some a)
        else smallBucketInsertAt s c str length i mem

/-- `_eina_stringshare_small_del`; `false` is the branch that logs an error. -/
def smallDel (s : Small) (str : List Byte) (length : Byte) (mem : Memory) :
    Option (Small × Bool) :=
  str[0]?.bind fun c =>
    match s.buckets c with
    | none => some (s, false)
    | some b =>
      (smallBucketFind s.text b str length).bind fun (i, found) =>
        if found then (smallBucketRemoveAt s c b i mem).map fun s => (s, true)
        else some (s, false)

/-! ### The calls -/

/-- `eina_stringshare_init` -/
def new : Stringshare := ⟨Share.new, ⟨fun _ => none, fun _ => none⟩⟩

/-- The memory behind a pointer. -/
def memory (s : Stringshare) : Ptr → Option (List Byte)
  | .empty => some [0]
  | .single offset => if 0 ≤ offset ∧ offset < 512 then some (single.drop offset.toNat) else none
  | .small a => s.small.text a
  | .node p => (s.share.node p).map Node.str

/-- How `eina_stringshare_del` and `eina_stringshare_ref` tell the four kinds apart. -/
def lengthClass (m : List Byte) : Option Nat :=
  m[0]?.bind fun c0 => if c0 = 0 then some 0 else
    m[1]?.bind fun c1 => if c1 = 0 then some 1 else
      m[2]?.bind fun c2 => if c2 = 0 then some 2 else
        m[3]?.map fun c3 => if c3 = 0 then 3 else 4

/-- `eina_stringshare_add_length` -/
def addLength (s : Stringshare) (str : Option (List Byte)) (slen : BitVec 32) (mem : Memory) :
    Option (Stringshare × Option Ptr) :=
  match str with
  | none => some (s, none)
  | some str =>
    if slen = 0 then some (s, some .empty)
    else if slen = 1 then
      str[0]?.map fun c => (s, some (.single (2 * c.toInt)))
    else if slen < 4 then
      (smallAdd s.small str (slen.setWidth 8) mem).map fun (small, a) =>
        ({ s with small := small }, a.map .small)
    else
      (s.share.addLength (some str) slen 1 mem.block).map fun (share, p) =>
        ({ s with share := share }, p.map .node)

/-- `eina_stringshare_add`; the `size_t` of `strlen` becomes an `unsigned int`. -/
def add (s : Stringshare) (str : Option (List Byte)) (mem : Memory) :
    Option (Stringshare × Option Ptr) :=
  match str with
  | none => some (s, none)
  | some str => s.addLength (some str) (BitVec.ofNat 32 str.length) mem

/-- `eina_stringshare_ref`; a pointer that is not one into the share is undefined. -/
def ref (s : Stringshare) (str : Option Ptr) (mem : Memory) :
    Option (Stringshare × Option Ptr) :=
  match str with
  | none => some (s, none)
  | some p =>
    (s.memory p).bind fun m => (lengthClass m).bind fun slen =>
      if slen < 2 then some (s, some p)
      else if slen < 4 then
        (smallAdd s.small m (BitVec.ofNat 8 slen) mem).map fun (small, a) =>
          ({ s with small := small }, a.map .small)
      else
        match p with
        | .node q => (s.share.ref (some q)).map fun (share, q) =>
          ({ s with share := share }, q.map .node)
        | _ => none

/-- `eina_stringshare_del`; `false` is a branch that logs an error. -/
def del (s : Stringshare) (str : Option Ptr) (mem : Memory) : Option (Stringshare × Bool) :=
  match str with
  | none => some (s, true)
  | some p =>
    (s.memory p).bind fun m => (lengthClass m).bind fun slen =>
      if slen < 2 then some (s, true)
      else if slen < 4 then
        (smallDel s.small m (BitVec.ofNat 8 slen) mem).map fun (small, done) =>
          ({ s with small := small }, done)
      else
        match p with
        | .node q => (s.share.del (some q)).map fun (share, done) =>
          ({ s with share := share }, done)
        | _ => none

end Stringshare

end Eina
