/-
The reading end of a pipe.

In up to sixteen rounds `_core_pipe_read` reads the length of a message, then the message, and
hands it to the handler; a round that cannot go on leaves `len`, `already_read` and `passed_data`
for the next call.  The handler may enter the same function again, so the calls in progress are a
stack, and a step is what happens between two points where something outside decides: an answer of
`read`, a block from `malloc`, the handler coming back.

The descriptor of the writing end, `pollfd`, `timerfd` and the data of the handler are left out:
the functions here do not look at them.
-/
import Efl.Lib.Runs
import Mathlib.Tactic.Ring

namespace Core.Pipe

/-! ### The length as bytes -/

/-- The native order of the bytes of an `unsigned int`. -/
inductive ByteOrder
  | little
  | big
  deriving Repr, DecidableEq

/-- The bytes from the least significant one on. -/
def bytesOf (n : Nat) : List UInt8 :=
  [UInt8.ofNat n, UInt8.ofNat (n / 256), UInt8.ofNat (n / 65536), UInt8.ofNat (n / 16777216)]

def natOf (bs : List UInt8) : Nat := bs.foldr (fun b n => b.toNat + 256 * n) 0

def ByteOrder.bytes : ByteOrder → Nat → List UInt8
  | little, n => bytesOf n
  | big, n => (bytesOf n).reverse

def ByteOrder.nat : ByteOrder → List UInt8 → Nat
  | little, bs => natOf bs
  | big, bs => natOf bs.reverse

/-- What memory holds after bytes are stored at an offset. -/
def store (memory : List UInt8) (offset : Nat) (bs : List UInt8) : List UInt8 :=
  memory.take offset ++ bs ++ memory.drop (offset + bs.length)

/-! ### The pipe -/

/-- The fields of `_Core_Pipe` that the reading end uses.  `fdRead` says whether the descriptor
is open, `freed` whether the record was given back. -/
structure CorePipe where
  fdRead : Bool := true
  fdHandler : Bool := true
  len : Nat := 0
  handling : Nat := 0
  alreadyRead : Nat := 0
  passedData : Option (List UInt8) := none
  message : Nat := 0
  deleteMe : Bool := false
  freed : Bool := false
  deriving Repr, DecidableEq

inductive Errno
  | eintr
  | eagain
  | other
  deriving Repr, DecidableEq

/-- An answer of `read`: a number of bytes, zero at the end of the file, or an error. -/
inductive Reply
  | count (k : Nat)
  | error (e : Errno)
  deriving Repr, DecidableEq

/-- `CORE_CALLBACK_RENEW` and `CORE_CALLBACK_CANCEL`. -/
inductive Result
  | renew
  | cancel
  deriving Repr, DecidableEq

/-- What `_core_pipe_read` does when the handler comes back: the next round, or a return,
with or without closing the pipe first. -/
inductive Rest
  | again
  | renew
  | close
  deriving Repr, DecidableEq

/-- A call of `_core_pipe_read` in round `i`: at the read of the length, at the read of the data,
or inside of the handler. -/
inductive Frame
  | length (i : Nat)
  | data (i : Nat)
  | handler (i : Nat) (rest : Rest)
  deriving Repr, DecidableEq

/-- The pipe, the bytes not read yet, the calls in progress, and what the handler was called
with. -/
structure Machine where
  pipe : CorePipe := {}
  content : List UInt8 := []
  stack : List Frame := []
  calls : List (Option (List UInt8) × Nat) := []
  deriving Repr, DecidableEq

/-- What the world does: bytes are written, `_core_pipe_read` is called, `read` answers (for the
data after `malloc` did), the handler comes back, the pipe is deleted. -/
inductive Op
  | written (bs : List UInt8)
  | read
  | length (reply : Reply)
  | data (block : Option (List UInt8)) (reply : Reply)
  | handled
  | del
  deriving Repr, DecidableEq

namespace Machine

/-- `_core_pipe_del` -/
def del (m : Machine) : Machine :=
  if 0 < m.pipe.handling then { m with pipe := { m.pipe with deleteMe := true } }
  else { m with pipe := { m.pipe with
          deleteMe := true, fdHandler := false, fdRead := false, freed := true } }

/-- `_core_pipe_unhandle` -/
def unhandle (m : Machine) : Machine :=
  let m' := { m with pipe := { m.pipe with handling := m.pipe.handling - 1 } }
  if m.pipe.deleteMe then m'.del else m'

/-- The call on top returns. -/
def leave (m : Machine) (below : List Frame) (result : Result) : Machine × Option Result :=
  ({ m with stack := below }.unhandle, some result)

/-- The beginning of round `i`. -/
def round (m : Machine) (below : List Frame) (i : Nat) : Machine × Option Result :=
  if 16 ≤ i then m.leave below .renew
  else if m.pipe.len = 0 then ({ m with stack := .length i :: below }, none)
  else ({ m with stack := .data i :: below }, none)

/-- What follows a call of `_core_pipe_handler_call` in round `i`. -/
def resume (m : Machine) (below : List Frame) (i : Nat) : Rest → Machine × Option Result
  | .again => m.round below (i + 1)
  | .renew => m.leave below .renew
  | .close =>
    { m with pipe := { m.pipe with fdRead := false, fdHandler := false } }.leave below .cancel

/-- `_core_pipe_handler_call`, which forgets the message before the handler sees it. -/
def handlerCall (m : Machine) (below : List Frame) (i : Nat) (buf : Option (List UInt8))
    (len : Nat) (rest : Rest) : Machine × Option Result :=
  let p := { m.pipe with
    passedData := none, alreadyRead := 0, len := 0, message := m.pipe.message + 1 }
  if m.pipe.deleteMe then { m with pipe := p }.resume below i rest
  else ({ m with pipe := p, stack := .handler i rest :: below, calls := m.calls ++ [(buf, len)] },
    none)

/-- The read of the length has answered. -/
def lengthRead (order : ByteOrder) (m : Machine) (below : List Frame) (i : Nat) :
    Reply → Machine × Option Result
  | .count k =>
    let len := order.nat (store (order.bytes m.pipe.len) 0 (m.content.take k))
    let m' := { m with pipe := { m.pipe with len := len }, content := m.content.drop k }
    if k = 4 then
      -- a length of zero is handed on at once, and the call ends
      if len = 0 then m'.handlerCall below i none 0 .renew
      else ({ m' with stack := .data i :: below }, none)
    else if 0 < k then m'.leave below .cancel
    else if i = 0 then m'.handlerCall below i none 0 .close
    else m'.leave below .renew
  | .error _ => m.leave below .renew

/-- The read of the data has answered. -/
def dataRead (m : Machine) (below : List Frame) (i : Nat) (buf : List UInt8) :
    Reply → Machine × Option Result
  | .count k =>
    let buf' := store buf m.pipe.alreadyRead (m.content.take k)
    let m' := { m with
      pipe := { m.pipe with passedData := some buf' }, content := m.content.drop k }
    if k = m.pipe.len - m.pipe.alreadyRead then
      m'.handlerCall below i (some buf') m.pipe.len .again
    else if 0 < k then
      { m' with pipe := { m'.pipe with alreadyRead := m.pipe.alreadyRead + k } }.leave below
        .renew
    else m'.leave below .renew
  | .error _ => { m with pipe := { m.pipe with passedData := some buf } }.leave below .renew

/-- `read` gives what is there, and no more than was asked for. -/
def CanAnswer (m : Machine) (request : Nat) : Reply → Prop
  | .count k => k ≤ request ∧ k ≤ m.content.length
  | .error _ => True

instance (m : Machine) (request : Nat) (reply : Reply) : Decidable (m.CanAnswer request reply) := by
  unfold CanAnswer
  cases reply <;> exact inferInstance

/-- The call on top, at the read of the data: `malloc` gives a block of the length asked for, where
there is none yet. -/
def dataStep (m : Machine) (below : List Frame) (i : Nat) (block : Option (List UInt8))
    (reply : Reply) : Option (Machine × Option Result) :=
  match m.pipe.passedData, block with
  | some buf, _ =>
    if m.CanAnswer (m.pipe.len - m.pipe.alreadyRead) reply then
      some (m.dataRead below i buf reply)
    else none
  | none, some buf =>
    if buf.length = m.pipe.len ∧ m.CanAnswer (m.pipe.len - m.pipe.alreadyRead) reply then
      some (m.dataRead below i buf reply)
    else none
  | none, none => some (m.handlerCall below i none 0 .close)

/-- `_core_pipe_read` is entered by the main loop, or by a handler. -/
def CanEnter (m : Machine) : Prop :=
  m.pipe.freed = false ∧ m.pipe.fdRead = true ∧
    match m.stack with
    | [] => True
    | .handler _ _ :: _ => True
    | _ => False

instance (m : Machine) : Decidable m.CanEnter := by
  unfold CanEnter
  rcases m.stack with _ | ⟨_ | _ | _, _⟩ <;> exact inferInstance

/-- One step, where it is possible, and what `_core_pipe_read` returns in it. -/
def step (order : ByteOrder) (m : Machine) : Op → Option (Machine × Option Result)
  | .written bs => some ({ m with content := m.content ++ bs }, none)
  | .read =>
    if m.CanEnter then
      some ({ m with pipe := { m.pipe with handling := m.pipe.handling + 1 } }.round m.stack 0)
    else none
  | .length reply =>
    match m.stack with
    | .length i :: below =>
      if m.CanAnswer 4 reply then some (m.lengthRead order below i reply) else none
    | _ => none
  | .data block reply =>
    match m.stack with
    | .data i :: below => m.dataStep below i block reply
    | _ => none
  | .handled =>
    match m.stack with
    | .handler i rest :: below => some (m.resume below i rest)
    | _ => none
  | .del =>
    match m.stack with
    | [] => if m.pipe.freed then none else some (m.del, none)
    | .handler _ _ :: _ => if m.pipe.freed then none else some (m.del, none)
    | _ => none

end Machine

end Core.Pipe
