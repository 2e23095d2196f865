/-
String buffers.

One implementation serves `Eina_Strbuf`, `Eina_UStrbuf` and `Eina_Binbuf`: it is given the
size of a unit and moves bytes.  The functions are written over a heap of blocks, so that a
read or a write outside of a block, an indeterminate byte that is copied along, and a
request that is refused can be seen.

A loop of `eina_strbuf_replace_all` that does not end has no result.  Left out are the
functions that make a string by escaping or formatting before they append or insert it.
-/
import Efl.Lib.CMemory

namespace Eina.Strbuf

open CMemory

/-! ### Units -/

/-- The three instances of the template. -/
inductive Kind
  | strbuf
  | ustrbuf
  | binbuf
  deriving Repr, DecidableEq

namespace Kind

/-- `_STRBUF_DATA_TYPE` -/
abbrev Unit : Kind → Type
  | strbuf => UInt8
  | ustrbuf => UInt32
  | binbuf => UInt8

/-- `_STRBUF_CSIZE` -/
def csize : Kind → Nat
  | strbuf => 1
  | ustrbuf => 4
  | binbuf => 1

/-- The bytes of a unit, here from the least significant one on. -/
def bytes : (k : Kind) → k.Unit → List UInt8
  | strbuf, u => [u]
  | ustrbuf, u => [u.toUInt8, (u >>> 8).toUInt8, (u >>> 16).toUInt8, (u >>> 24).toUInt8]
  | binbuf, u => [u]

def zero : (k : Kind) → k.Unit
  | strbuf => (0 : UInt8)
  | ustrbuf => (0 : UInt32)
  | binbuf => (0 : UInt8)

instance (k : Kind) : DecidableEq k.Unit :=
  match k with
  | strbuf => inferInstanceAs (DecidableEq UInt8)
  | ustrbuf => inferInstanceAs (DecidableEq UInt32)
  | binbuf => inferInstanceAs (DecidableEq UInt8)

/-- Units as they lie in memory. -/
def cells (k : Kind) (units : List k.Unit) : List Cell := (units.flatMap k.bytes).map some

/-- The string in a piece of memory: the units before the first zero. -/
def string (k : Kind) (units : List k.Unit) : List k.Unit := units.takeWhile (· ≠ k.zero)

/-- `_STRBUF_STRLEN_FUNC` -/
def strlen (k : Kind) (units : List k.Unit) : Nat := (k.string units).length

end Kind

/-! ### The buffer -/

/-- `_Eina_Strbuf` -/
structure EflStrbuf where
  buf : Option Nat
  len : Nat
  size : Nat
  step : Nat
  ro : Bool

structure World where
  heap : Heap
  strbuf : EflStrbuf

/-- The number of values of a `size_t`. -/
def word : Nat := 2 ^ 64

def initSize : Nat := 32
def initStep : Nat := 32
def maxStep : Nat := 4096

/-- A call that may fail, and does not end well where it uses memory it must not use. -/
abbrev Outcome := Option (World × Bool)

/-- `_eina_strbuf_common_init` -/
def init (csize : Nat) (w : World) : World × Bool :=
  let r := w.heap.calloc (csize * initSize)
  ({ heap := r.1,
     strbuf := { buf := r.2, len := 0, size := initSize, step := initStep, ro := false } },
    r.2.isSome)

/-- `_eina_strbuf_common_manage_init`, for memory that is given to the buffer or is read only. -/
def manageInit (h : Heap) (str len : Nat) (ro : Bool) : World :=
  { heap := h
    strbuf := { buf := some str, len := len, size := len + 1, step := initStep, ro := ro } }

namespace EflStrbuf

variable (b : EflStrbuf)

def newStep (size : Nat) : Nat :=
  let delta := if b.size < size then size - b.size else b.size - size
  if delta ≤ b.step ∧ b.size < size then b.step
  else min ((delta / initStep + 1) * initStep) maxStep

def newSize (size : Nat) : Nat := ((size / b.newStep size + 1) * b.newStep size) % word

/-- Whether `_eina_strbuf_common_resize` has something to do, the terminator counted. -/
def resizes (csize size : Nat) : Bool :=
  decide (size ≠ b.size) && decide (b.size ≠ (b.newSize size * csize) % word)

end EflStrbuf

namespace World

variable (csize : Nat) (w : World)

/-- The copy `_eina_strbuf_common_resize` makes of a read-only buffer. -/
def copyRo (h : Heap) (b : EflStrbuf) (p : Nat) : Option Heap :=
  if b.ro then (h.read b.buf 0 b.len).bind (h.write (some p) 0) else some h

/-- What `_eina_strbuf_common_resize` does once `realloc` has answered. -/
def reallocated (size' : Nat) : Heap × Option Nat → Outcome
  | (h, none) => some ({ w with heap := h }, false)
  | (h, some p) =>
    (copyRo h w.strbuf p).map fun h' =>
      let b' :=
        { buf := some p, len := w.strbuf.len, size := w.strbuf.newSize size',
          step := w.strbuf.newStep size', ro := false }
      ({ heap := h', strbuf := b' }, true)

/-- `_eina_strbuf_common_resize` -/
def resize (size : Nat) : Outcome :=
  let size' := (size + 1) % word
  if w.strbuf.resizes csize size' then
    (w.heap.realloc (if w.strbuf.ro then none else w.strbuf.buf)
      ((w.strbuf.newSize size' * csize) % word)).bind (w.reallocated size')
  else some (w, true)

/-- `_eina_strbuf_common_grow` -/
def grow (size : Nat) : Outcome :=
  if (size + 1) % word < w.strbuf.size then some (w, true) else w.resize csize size

/-- What is done once there is room. -/
def withRoom (size : Nat) (k : World → Option World) : Outcome :=
  (w.grow csize size).bind fun r => if r.2 then (k r.1).map fun w' => (w', true) else some r

/-- `memcpy` into the buffer, at a unit. -/
def put (pos : Nat) (cs : List Cell) : Option World :=
  (w.heap.write w.strbuf.buf (pos * csize) cs).map fun h => { w with heap := h }

/-- `memmove` inside of the buffer, by units. -/
def shift (dst src n : Nat) : Option World :=
  (w.heap.move w.strbuf.buf (dst * csize) (src * csize) (n * csize)).map fun h =>
    { w with heap := h }

/-- The length changes, and the unit there is set to zero. -/
def finish (len : Nat) : Option World :=
  World.put csize { w with strbuf := { w.strbuf with len := len } } len
    (List.replicate csize (some 0))

/-- `_eina_strbuf_common_insert_length` -/
def insertRoom (cs : List Cell) (len pos : Nat) : Outcome :=
  w.withRoom csize (w.strbuf.len + len) fun w =>
    (w.shift csize (len + pos) pos (w.strbuf.len - pos)).bind fun w =>
      (w.put csize pos (cs.take (len * csize))).bind fun w =>
        w.finish csize (w.strbuf.len + len)

/-- What `eina_strbuf_common_append_n`, `_append_length` and `_append_char` do with a given
length. -/
def appendUnits (cs : List Cell) (len : Nat) : Outcome :=
  w.withRoom csize (w.strbuf.len + len) fun w =>
    (w.put csize w.strbuf.len (cs.take (len * csize))).bind fun w =>
      w.finish csize (w.strbuf.len + len)

/-- The copy that a function makes of a read-only buffer before it changes it.  It is as long as
`size` says, in bytes, and `cleared` says whether the function remembers that it made one. -/
def ownCopy (cleared : Bool) : Outcome :=
  if w.strbuf.ro then
    match w.heap.malloc w.strbuf.size with
    | (h, none) => some ({ w with heap := h }, false)
    | (h, some dest) =>
      (h.read w.strbuf.buf 0 w.strbuf.len).bind fun cs =>
        (h.write (some dest) 0 cs).map fun h =>
          ({ heap := h, strbuf := { w.strbuf with buf := some dest, ro := !cleared } }, true)
  else some (w, true)

/-- What is done once the buffer is the own one. -/
def withOwn (cleared : Bool) (k : World → Outcome) : Outcome :=
  (w.ownCopy cleared).bind fun r => if r.2 then k r.1 else some r

end World

/-! ### The functions of all instances -/

section

variable (k : Kind) (w : World)

/-- `eina_strbuf_common_append`, which copies the terminator of the string too. -/
def append (str : List k.Unit) : Outcome :=
  let len := k.strlen str
  w.withRoom k.csize (w.strbuf.len + len) fun w =>
    (w.put k.csize w.strbuf.len
        ((k.cells (str ++ [k.zero])).take ((len + 1) * k.csize))).map fun w =>
      { w with strbuf := { w.strbuf with len := w.strbuf.len + len } }

/-- `eina_strbuf_common_append_n` -/
def appendN (str : List k.Unit) (maxlen : Nat) : Outcome :=
  w.appendUnits k.csize (k.cells (str ++ [k.zero])) (min (k.strlen str) maxlen)

/-- `eina_strbuf_common_append_length`, which appends slices and buffers too. -/
def appendLength (units : List k.Unit) : Outcome :=
  w.appendUnits k.csize (k.cells units) units.length

/-- `eina_strbuf_common_append_char` -/
def appendChar (c : k.Unit) : Outcome := w.appendUnits k.csize (k.cells [c]) 1

/-- `eina_strbuf_common_insert` -/
def insert (str : List k.Unit) (pos : Nat) : Outcome :=
  if w.strbuf.len ≤ pos then append k w str
  else w.insertRoom k.csize (k.cells (str ++ [k.zero])) (k.strlen str) pos

/-- `eina_strbuf_common_insert_n` -/
def insertN (str : List k.Unit) (maxlen pos : Nat) : Outcome :=
  if w.strbuf.len ≤ pos then appendN k w str maxlen
  else w.insertRoom k.csize (k.cells (str ++ [k.zero])) (min (k.strlen str) maxlen) pos

/-- `eina_strbuf_common_insert_length` -/
def insertLength (units : List k.Unit) (pos : Nat) : Outcome :=
  if w.strbuf.len ≤ pos then appendLength k w units
  else w.insertRoom k.csize (k.cells units) units.length pos

/-- `eina_strbuf_common_insert_char` -/
def insertChar (c : k.Unit) (pos : Nat) : Outcome :=
  if w.strbuf.len ≤ pos then appendChar k w c else w.insertRoom k.csize (k.cells [c]) 1 pos

/-- `eina_strbuf_common_remove` -/
def remove (start stop : Nat) : Outcome :=
  let stop := if w.strbuf.len ≤ stop then w.strbuf.len else stop
  if stop ≤ start then some (w, true)
  else
    w.withOwn true fun w =>
      if stop - start = w.strbuf.len then
        (w.heap.free w.strbuf.buf).map fun h => init k.csize { w with heap := h }
      else
        (w.shift k.csize start stop (w.strbuf.len - stop + 1)).bind fun w =>
          let len := w.strbuf.len - (stop - start)
          World.resize k.csize { w with strbuf := { w.strbuf with len := len } } len

/-- `eina_strbuf_common_expand`: where the slice starts in the buffer, and its length. -/
def expand (n : Nat) : Option (World × Option (Nat × Nat)) :=
  let slice := fun (w : World) => some (w.strbuf.len * k.csize, w.strbuf.size - w.strbuf.len - 1)
  if (w.strbuf.len + n) % word < w.strbuf.size then some (w, slice w)
  else
    (w.grow k.csize ((w.strbuf.len + n) % word)).map fun r =>
      if r.2 then (r.1, slice r.1) else (r.1, none)

/-- `eina_strbuf_common_string_steal`: the block the caller gets. -/
def stringSteal : Option (World × Option Nat) :=
  (w.ownCopy true).map fun r =>
    if r.2 then ((init k.csize r.1).1, r.1.strbuf.buf) else (r.1, none)

end

/-! ### The functions of strings of bytes -/

/-- The string from an offset on, which ends with a zero inside of the block. -/
def cString (h : Heap) (p : Option Nat) (offset : Nat) : Option (List UInt8) :=
  p.bind fun id => (h.blocks id).bind fun cells => go (cells.drop offset)
where
  go : List Cell → Option (List UInt8)
    | [] => none
    | none :: _ => none
    | some 0 :: _ => some []
    | some c :: rest => (go rest).map (c :: ·)

/-- `strstr`: the offset of the first occurrence. -/
@[grind =]
def strstr (needle : List UInt8) : List UInt8 → Option Nat
  | [] => if needle.isPrefixOf [] then some 0 else none
  | c :: hay =>
    if needle.isPrefixOf (c :: hay) then some 0 else (strstr needle hay).map (· + 1)

/-- The search of `eina_strbuf_replace` for the occurrence number `n + 1`, from a position on. -/
def findNth (str s : List UInt8) : Nat → Nat → Option Nat
  | n, pos =>
    match strstr str (s.drop pos) with
    | none => none
    | some i =>
      if s.length ≤ pos + i then none
      else
        match n with
        | 0 => some (pos + i)
        | n + 1 => findNth str s n (pos + i + 1)

/-- The search of `eina_strbuf_replace_last`: the occurrence found last, from a position on.  It
takes no more rounds than there are positions. -/
def findLast (str s : List UInt8) : Nat → Nat → Option Nat → Option Nat
  | 0, _, spos => spos
  | fuel + 1, pos, spos =>
    match strstr str (s.drop pos) with
    | none => spos
    | some i =>
      if s.length ≤ pos + i then spos else findLast str s fuel (pos + i + 1) (some (pos + i))

section

variable (w : World)

/-- The new string goes where `len1` bytes of the buffer were. -/
def insertAndEnd (pos len1 : Nat) (by' : List UInt8) : Option World :=
  (w.put 1 pos (by'.map some)).bind fun w => w.finish 1 (w.strbuf.len + by'.length - len1)

/-- What is done to the buffer once it is the own one. -/
def replaceHere (pos : Nat) (str by' : List UInt8) : Outcome :=
  let len1 := str.length
  let len2 := by'.length
  if len1 = len2 then (insertAndEnd w pos len1 by').map fun w => (w, true)
  else
    w.withRoom 1 (w.strbuf.len + len2 - len1) fun w =>
      (w.shift 1 (pos + len2) (pos + len1) (w.strbuf.len - pos - len1)).bind fun w =>
        insertAndEnd w pos len1 by'

/-- What `eina_strbuf_replace` and `eina_strbuf_replace_last` do at the position they found. -/
def replaceAt (cleared : Bool) (pos : Nat) (str by' : List UInt8) : Outcome :=
  w.withOwn cleared fun w => replaceHere w pos str by'

/-- `eina_strbuf_replace` -/
def replace (str by' : List UInt8) (n : Nat) : Outcome :=
  match n with
  | 0 => some (w, false)
  | n + 1 =>
    (cString w.heap w.strbuf.buf 0).bind fun s =>
      match findNth (Kind.strbuf.string str) s n 0 with
      | none => some (w, false)
      | some pos => replaceAt w true pos (Kind.strbuf.string str) (Kind.strbuf.string by')

/-- `eina_strbuf_replace_last` -/
def replaceLast (str by' : List UInt8) : Outcome :=
  (cString w.heap w.strbuf.buf 0).bind fun s =>
    match findLast (Kind.strbuf.string str) s (s.length + 1) 0 none with
    | none => some (w, false)
    | some pos => replaceAt w false pos (Kind.strbuf.string str) (Kind.strbuf.string by')

/-- The loop of `eina_strbuf_replace_all` for two strings of one length: it goes on in the block the
first occurrence was found in.  The count is a number here, and an `int` in `replaceAllInt`. -/
def replaceSame (str by' : List UInt8) (p : Option Nat) :
    Nat → World → Option Nat → Nat → Option (World × Nat)
  | _, w, none, n => some (w, n)
  | 0, _, some _, _ => none
  | fuel + 1, w, some spos, n =>
    (w.heap.write p spos (by'.map some)).bind fun h =>
      (cString h p (spos + by'.length)).bind fun s =>
        replaceSame str by' p fuel { w with heap := h }
          ((strstr str s).map (· + (spos + by'.length))) (n + 1)

/-- The loop for two lengths, from `tmp` to the buffer: `startTmp` and `start` are what was copied,
`spos` is the next occurrence.  It returns `start`, `startTmp`, the length and the count. -/
def replaceOther (str by' : List UInt8) (tmp : Option Nat) :
    Nat → World → Option Nat → Nat → Nat → Nat → Nat → Option (World × Nat × Nat × Nat × Nat)
  | _, w, none, startTmp, start, len, n => some (w, startTmp, start, len, n)
  | 0, _, some _, _, _, _, _ => none
  | fuel + 1, w, some spos, startTmp, start, len, n =>
    let len' := len + by'.length - str.length
    let pos := start + spos - startTmp
    (w.grow 1 len').bind fun r =>
      -- the count includes the occurrence there was no room for
      if r.2 = false then some (r.1, startTmp, start, len, n + 1)
      else
        (r.1.heap.read tmp startTmp (spos - startTmp)).bind fun cs =>
          (r.1.put 1 start cs).bind fun w =>
            (w.put 1 pos (by'.map some)).bind fun w =>
              (cString w.heap tmp (spos + str.length)).bind fun s =>
                replaceOther str by' tmp fuel w
                  ((strstr str s).map (· + (spos + str.length)))
                  (spos + str.length) (pos + by'.length) len' (n + 1)

/-- `eina_strbuf_replace_all`, whose loop may take so many rounds: the number of occurrences it says
it replaced. -/
def replaceWithin (rounds : Nat) (str by' : List UInt8) : Option (World × Nat) :=
  let str := Kind.strbuf.string str
  let by' := Kind.strbuf.string by'
  (cString w.heap w.strbuf.buf 0).bind fun s =>
    match strstr str s with
    | none => some (w, 0)
    | some spos =>
      if s.length ≤ spos then some (w, 0)
      else
        (w.ownCopy true).bind fun r =>
          if r.2 = false then some (r.1, 0)
          else if str.length = by'.length then
            replaceSame str by' w.strbuf.buf rounds r.1 (some spos) 0
          -- the difference of two pointers into two blocks
          else if r.1.strbuf.buf ≠ w.strbuf.buf then none
          else
            match r.1.heap.malloc r.1.strbuf.size with
            | (h, none) => some ({ r.1 with heap := h }, 0)
            | (h, some p) =>
              let tmp := r.1.strbuf.buf
              (replaceOther str by' tmp rounds
                { heap := h, strbuf := { r.1.strbuf with buf := some p } } (some spos)
                0 0 r.1.strbuf.len 0).bind fun (w, startTmp, start, len, n) =>
                  (w.heap.read tmp startTmp (len - start)).bind fun cs =>
                    (w.put 1 start cs).bind fun w =>
                      (w.finish 1 len).bind fun w =>
                        (w.heap.free tmp).map fun h => ({ w with heap := h }, n)

/-- `eina_strbuf_replace_all` with a round for each byte of the string and one more. -/
def replaceAll (str by' : List UInt8) : Option (World × Nat) :=
  (cString w.heap w.strbuf.buf 0).bind fun s => replaceWithin w (s.length + 1) str by'

/-- The bytes of the buffer. -/
def content (w : World) : Option (List UInt8) :=
  (w.heap.read w.strbuf.buf 0 w.strbuf.len).bind fun cs => cs.mapM id

/-- The length without the spaces at the end. -/
def trimEnd (isspace : UInt8 → Bool) (bytes : List UInt8) : Nat :=
  (bytes.reverse.dropWhile isspace).length

/-- The number of spaces at the beginning. -/
def trimStart (isspace : UInt8 → Bool) (bytes : List UInt8) : Nat :=
  (bytes.takeWhile isspace).length

/-- The bytes of the buffer from one position to another become its contents. -/
def keep (start stop : Nat) (w : World) : Option World :=
  (w.shift 1 0 start (stop - start)).bind fun w => w.finish 1 (stop - start)

/-- `eina_strbuf_trim` -/
def trim (isspace : UInt8 → Bool) : Option World :=
  (content w).bind fun bytes =>
    let stop := trimEnd isspace bytes
    keep (trimStart isspace (bytes.take stop)) stop w

/-- `eina_strbuf_ltrim` -/
def ltrim (isspace : UInt8 → Bool) : Option World :=
  (content w).bind fun bytes => keep (trimStart isspace bytes) w.strbuf.len w

/-- `eina_strbuf_rtrim` -/
def rtrim (isspace : UInt8 → Bool) : Option World :=
  (content w).bind fun bytes => w.finish 1 (trimEnd isspace bytes)

end

end Eina.Strbuf
