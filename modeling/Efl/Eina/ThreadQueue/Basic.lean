/-
`Eina_Thread_Queue`: messages in blocks of memory, from writers to readers.

One step is an atomic operation, or what is done under a lock up to the next place where the
thread may have to wait.  A block is told by its address, and a field of the blocks is a function
of the address.  A message is told by its number in the order of the sends; what a writer or a
reader has done with it is kept beside the memory.  `int`s wrap around.

Between the two accesses to a block in `_eina_thread_queue_msg_fetch_done` another reader may give
the block back.  `doneFirst` then looks at a block that is free, whose fields are what they were;
what it reads decides nothing, since `ref` was not zero.

Writers are not told apart: a send and the `send_done` that belongs to it are those of the
message.  There is no parent queue and no file descriptor, and no other queue uses the pool.
The count of what is pending is left out, as is the text of errors.
-/
import Mathlib.Logic.Function.Basic
import Mathlib.Data.Int.Init

namespace Eina

namespace ThreadQueue

abbrev Addr := Nat

/-- `Eina_Thread_Queue_Msg`, and which message it is the head of. -/
structure Header where
  size : Int
  id : Nat
  deriving DecidableEq

/-- How far the writer of a message is. -/
inductive Phase where
  /-- In `eina_thread_queue_send`, before `lock_non_0_ref` of the block is taken. -/
  | locking
  | writing
  /-- In `eina_thread_queue_send_done`, before `lock_non_0_ref` is released. -/
  | releasing
  /-- In `eina_thread_queue_send_done`, before the semaphore is released. -/
  | waking
  | sent
  deriving DecidableEq

/-- What became of a message. -/
inductive Fate (R : Type) where
  | unread
  | held (reader : R)
  /-- It was passed to `eina_thread_queue_wait_done`. -/
  | passed
  deriving DecidableEq

/-- Where a reader is. -/
inductive Reading where
  | idle
  /-- Before `_eina_thread_queue_msg_fetch`. -/
  | fetching (poll : Bool)
  /-- In `_eina_thread_queue_msg_fetch`, before `lock_non_0_ref` of the block is taken. -/
  | waiting (poll : Bool) (blk : Addr)
  /-- In `eina_thread_queue_poll`, with a message. -/
  | polled
  /-- In `_eina_thread_queue_msg_fetch_done`, before `first` is read. -/
  | dropped (blk : Addr) (ref : Int)
  /-- In `_eina_thread_queue_msg_block_free`. -/
  | freeing (blk : Addr)
  deriving DecidableEq

end ThreadQueue

open ThreadQueue

/--
`Eina_Thread_Queue`, the blocks and the pool.  `locked` is `lock_non_0_ref` of a block.  `made` and
`freed` count how often an address was that of a new block and of one that was given back, and
`fetched` is what the readers got, in this order.
-/
structure ThreadQueue (R : Type) where
  data : Option Addr
  last : Option Addr
  read : Option Addr
  lockRead : Bool
  lockWrite : Bool
  sem : Nat
  blkNext : Addr → Option Addr
  locked : Addr → Bool
  ref : Addr → Int
  blkSize : Addr → Int
  blkFirst : Addr → Int
  blkLast : Addr → Int
  full : Addr → Bool
  blkData : Addr → Int → Header
  blockPool : List Addr
  blockPoolCount : Nat
  made : Addr → Nat
  freed : Addr → Nat
  sends : Nat
  home : Nat → Addr
  offset : Nat → Int
  asked : Nat → Int
  phase : Nat → Phase
  fate : Nat → Fate R
  reader : R → Reading
  fetched : List (Option Nat)

namespace ThreadQueue

open Function (update)

variable {R : Type}

/-- What an `int` holds after `n` was assigned to it. -/
def int (n : Int) : Int := Int.bmod n 4294967296

/-- `MIN_SIZE`, where a block takes 72 bytes and the head of a message 4. -/
def minSize : Int := 4096 - 72 + 4

/-- `((size + 7) >> 3) << 3` -/
def roundUp (size : Int) : Int := int (size + 7) / 8 * 8

/-- `malloc` may give the address to a block. -/
def Spare (q : ThreadQueue R) (blk : Addr) : Prop := q.made blk ≤ q.freed blk ∧ blk ∉ q.blockPool

instance (q : ThreadQueue R) (blk : Addr) : Decidable (q.Spare blk) :=
  inferInstanceAs (Decidable (q.made blk ≤ q.freed blk ∧ blk ∉ q.blockPool))

/-! ### Blocks -/

/-- A block that `_eina_thread_queue_msg_block_new` takes from the pool. -/
def blockReuse (q : ThreadQueue R) (blk : Addr) : ThreadQueue R :=
  { q with
    blkFirst := update q.blkFirst blk 0
    blkLast := update q.blkLast blk 0
    ref := update q.ref blk 0
    full := update q.full blk false
    blockPool := q.blockPool.tail
    blkNext := update q.blkNext blk none
    blockPoolCount := q.blockPoolCount - 1
    made := update q.made blk (q.made blk + 1) }

/-- A block that `_eina_thread_queue_msg_block_new` allocates. -/
def blockMalloc (q : ThreadQueue R) (size : Int) (blk : Addr) : ThreadQueue R :=
  { q with
    blkNext := update q.blkNext blk none
    locked := update q.locked blk false
    blkSize := update q.blkSize blk size
    blkFirst := update q.blkFirst blk 0
    blkLast := update q.blkLast blk 0
    ref := update q.ref blk 0
    full := update q.full blk false
    made := update q.made blk (q.made blk + 1) }

/-- `_eina_thread_queue_msg_block_new`; `fresh` is what `malloc` returns. -/
def blockNew (q : ThreadQueue R) (size : Int) (fresh : Addr) : Option (ThreadQueue R × Addr) :=
  match q.blockPool with
  | blk :: _ =>
    if size ≤ q.blkSize blk then some (q.blockReuse blk, blk)
    else if q.Spare fresh then some (q.blockMalloc size fresh, fresh) else none
  | [] => if q.Spare fresh then some (q.blockMalloc size fresh, fresh) else none

/-- `_eina_thread_queue_msg_block_real_free`, which waits for `lock_non_0_ref`. -/
def blockRealFree (q : ThreadQueue R) (blk : Addr) : Option (ThreadQueue R) :=
  if q.locked blk then none else some { q with freed := update q.freed blk (q.freed blk + 1) }

/-- `_eina_thread_queue_msg_block_free` -/
def blockFree (q : ThreadQueue R) (blk : Addr) : Option (ThreadQueue R) :=
  if q.blkSize blk = minSize then
    if q.blockPoolCount < 20 then
      some
        { q with
          blockPoolCount := q.blockPoolCount + 1
          blkNext := update q.blkNext blk q.blockPool.head?
          blockPool := blk :: q.blockPool
          freed := update q.freed blk (q.freed blk + 1) }
    else q.blockRealFree blk
  else q.blockRealFree blk

/-! ### Writers -/

/-- A new block where there is none. -/
def blockFirst (q : ThreadQueue R) (size : Int) (fresh : Addr) : Option (ThreadQueue R) :=
  match q.data with
  | some _ => some q
  | none =>
    (q.blockNew size fresh).map fun (q, new) => { q with data := some new, last := some new }

/-- A new block after `blk`, which becomes the last one. -/
def blockAppend (q : ThreadQueue R) (blk : Addr) (size : Int) (fresh : Addr) :
    Option (ThreadQueue R × Addr) :=
  (q.blockNew size fresh).map fun (q, new) =>
    ({ q with blkNext := update q.blkNext blk (some new), last := some new }, new)

/-- The end of a block goes behind a message of `size` bytes. -/
def reserve (q : ThreadQueue R) (blk : Addr) (size : Int) : ThreadQueue R :=
  let last := int (q.blkLast blk + size)
  { q with
    blkLast := update q.blkLast blk last
    full := if last = q.blkSize blk then update q.full blk true else q.full }

/-- The first half of `_eina_thread_queue_msg_alloc`: the block and the place of the message. -/
def msgAlloc (q : ThreadQueue R) (size : Int) (fresh : Addr) :
    Option (ThreadQueue R × Addr × Int) :=
  let blockSize := if size < minSize then minSize else size
  (q.blockFirst blockSize fresh).bind fun q =>
  q.last.bind fun blk =>
  (if q.full blk then q.blockAppend blk blockSize fresh else some (q, blk)).bind fun (q, blk) =>
  if size ≤ int (q.blkSize blk - q.blkLast blk) then
    some (q.reserve blk size, blk, int (int (q.blkLast blk + size) - size))
  else
    (q.blockAppend blk blockSize fresh).map fun (q, blk) => (q.reserve blk size, blk, 0)

/--
The message is put into its block.  Where it is the only open one there, `lock_non_0_ref` has to be
taken.
-/
def place (q : ThreadQueue R) (blk : Addr) (pos size : Int) : ThreadQueue R :=
  let ref := q.ref blk + 1
  { q with
    blkData := update q.blkData blk (update (q.blkData blk) pos ⟨roundUp size, q.sends⟩)
    ref := update q.ref blk ref
    lockWrite := decide (ref = 1)
    sends := q.sends + 1
    home := update q.home q.sends blk
    offset := update q.offset q.sends pos
    asked := update q.asked q.sends size
    phase := update q.phase q.sends (if ref = 1 then .locking else .writing)
    fate := update q.fate q.sends .unread }

/-- `eina_thread_queue_send`, up to where it may have to wait for `lock_non_0_ref`. -/
def send (q : ThreadQueue R) (size : Int) (fresh : Addr) : Option (ThreadQueue R) :=
  if q.lockWrite then none
  else (q.msgAlloc (roundUp size) fresh).map fun (q, blk, pos) => q.place blk pos size

/-- The rest of `eina_thread_queue_send`. -/
def sendLock (q : ThreadQueue R) (id : Nat) : Option (ThreadQueue R) :=
  if q.phase id = .locking ∧ q.locked (q.home id) = false then
    some
      { q with
        locked := update q.locked (q.home id) true
        lockWrite := false
        phase := update q.phase id .writing }
  else none

/-- `_eina_thread_queue_msg_alloc_done`, up to the release of `lock_non_0_ref`. -/
def msgAllocDone (q : ThreadQueue R) (id : Nat) : Option (ThreadQueue R) :=
  if q.phase id = .writing then
    let ref := q.ref (q.home id) - 1
    some
      { q with
        ref := update q.ref (q.home id) ref
        phase := update q.phase id (if ref = 0 then .releasing else .waking) }
  else none

/-- `lock_non_0_ref` is released. -/
def sendRelease (q : ThreadQueue R) (id : Nat) : Option (ThreadQueue R) :=
  if q.phase id = .releasing then
    some { q with locked := update q.locked (q.home id) false, phase := update q.phase id .waking }
  else none

/-- `_eina_thread_queue_wake` -/
def wake (q : ThreadQueue R) (id : Nat) : Option (ThreadQueue R) :=
  if q.phase id = .waking then some { q with sem := q.sem + 1, phase := update q.phase id .sent }
  else none

/-! ### Readers -/

/-- The first block is taken from the writers. -/
def detach (q : ThreadQueue R) (blk : Addr) : ThreadQueue R :=
  { q with
    read := some blk
    last := if q.last = some blk then q.blkNext blk else q.last
    data := q.blkNext blk
    blkNext := update q.blkNext blk none }

section

variable [DecidableEq R]

/-- The first message of the block that is read. -/
def take (q : ThreadQueue R) (r : R) (poll : Bool) (blk : Addr) : ThreadQueue R :=
  let head := q.blkData blk (q.blkFirst blk)
  let first := int (q.blkFirst blk + head.size)
  { q with
    blkFirst := update q.blkFirst blk first
    read := if q.blkLast blk ≤ first then none else q.read
    ref := update q.ref blk (q.ref blk + 1)
    fate := update q.fate head.id (.held r)
    reader := update q.reader r (if poll then .polled else .idle)
    fetched := q.fetched ++ [some head.id] }

/-- The semaphore of `eina_thread_queue_wait`. -/
def wait (q : ThreadQueue R) (r : R) : Option (ThreadQueue R) :=
  if q.reader r = .idle ∧ 0 < q.sem then
    some { q with sem := q.sem - 1, reader := update q.reader r (.fetching false) }
  else none

/-- `eina_thread_queue_poll` is called. -/
def poll (q : ThreadQueue R) (r : R) : Option (ThreadQueue R) :=
  if q.reader r = .idle then some { q with reader := update q.reader r (.fetching true) } else none

/-- `_eina_thread_queue_msg_fetch`, up to where it may have to wait for `lock_non_0_ref`. -/
def msgFetch (q : ThreadQueue R) (r : R) : Option (ThreadQueue R) :=
  match q.reader r, q.lockRead, q.read with
  | .fetching poll, false, some blk => some (q.take r poll blk)
  | .fetching poll, false, none =>
    if q.lockWrite then none
    else
      match q.data with
      | none =>
        some { q with reader := update q.reader r .idle, fetched := q.fetched ++ [none] }
      | some blk =>
        if 0 < q.ref blk then
          some
            { q with
              lockRead := true
              lockWrite := true
              reader := update q.reader r (.waiting poll blk) }
        else some ((q.detach blk).take r poll blk)
  | _, _, _ => none

/-- The rest of `_eina_thread_queue_msg_fetch`. -/
def fetchLock (q : ThreadQueue R) (r : R) : Option (ThreadQueue R) :=
  match q.reader r with
  | .waiting poll blk =>
    if q.locked blk then none
    else some { (q.detach blk).take r poll blk with lockRead := false, lockWrite := false }
  | _ => none

/-- The semaphore of `eina_thread_queue_poll`. -/
def pollWait (q : ThreadQueue R) (r : R) : Option (ThreadQueue R) :=
  if q.reader r = .polled ∧ 0 < q.sem then
    some { q with sem := q.sem - 1, reader := update q.reader r .idle }
  else none

/-- `_eina_thread_queue_msg_fetch_done`, up to the reading of `first`. -/
def msgFetchDone (q : ThreadQueue R) (r : R) (id : Nat) : Option (ThreadQueue R) :=
  if q.reader r = .idle ∧ q.fate id = .held r then
    let ref := q.ref (q.home id) - 1
    some
      { q with
        ref := update q.ref (q.home id) ref
        fate := update q.fate id .passed
        reader := update q.reader r (.dropped (q.home id) ref) }
  else none

/-- Whether the block is given back. -/
def doneFirst (q : ThreadQueue R) (r : R) : Option (ThreadQueue R) :=
  match q.reader r with
  | .dropped blk ref =>
    some
      { q with
        reader := update q.reader r
          (if q.blkLast blk ≤ q.blkFirst blk ∧ ref = 0 then .freeing blk else .idle) }
  | _ => none

/-- The rest of `_eina_thread_queue_msg_fetch_done`. -/
def doneFree (q : ThreadQueue R) (r : R) : Option (ThreadQueue R) :=
  match q.reader r with
  | .freeing blk =>
    (q.blockFree blk).map fun q => { q with reader := update q.reader r .idle }
  | _ => none

/-! ### Runs -/

inductive Op (R : Type) where
  /-- `fresh` is what `malloc` returns where it is called. -/
  | send (size : Int) (fresh : Addr)
  | sendLock (id : Nat)
  | msgAllocDone (id : Nat)
  | sendRelease (id : Nat)
  | wake (id : Nat)
  | wait (r : R)
  | poll (r : R)
  | msgFetch (r : R)
  | fetchLock (r : R)
  | pollWait (r : R)
  | msgFetchDone (r : R) (id : Nat)
  | doneFirst (r : R)
  | doneFree (r : R)

/-- A step, where it is possible. -/
def step (q : ThreadQueue R) : Op R → Option (ThreadQueue R)
  -- every message has a head, and its size is an `int`
  | .send size fresh => if 4 ≤ size ∧ size ≤ 2147483647 then q.send size fresh else none
  | .sendLock id => q.sendLock id
  | .msgAllocDone id => q.msgAllocDone id
  | .sendRelease id => q.sendRelease id
  | .wake id => q.wake id
  | .wait r => q.wait r
  | .poll r => q.poll r
  | .msgFetch r => q.msgFetch r
  | .fetchLock r => q.fetchLock r
  | .pollWait r => q.pollWait r
  | .msgFetchDone r id => q.msgFetchDone r id
  | .doneFirst r => q.doneFirst r
  | .doneFree r => q.doneFree r

end

/--
`eina_thread_queue_new`; `memory` is what is in the memory, and `pool` are the blocks other queues
have left in the pool.
-/
def new (memory : Addr → Int → Header) (pool : List Addr) : ThreadQueue R where
  data := none
  last := none
  read := none
  lockRead := false
  lockWrite := false
  sem := 0
  blkNext := fun _ => none
  locked := fun _ => false
  ref := fun _ => 0
  blkSize := fun _ => minSize
  blkFirst := fun _ => 0
  blkLast := fun _ => 0
  full := fun _ => false
  blkData := memory
  blockPool := pool
  blockPoolCount := pool.length
  made := fun _ => 0
  freed := fun _ => 0
  sends := 0
  home := fun _ => 0
  offset := fun _ => 0
  asked := fun _ => 0
  phase := fun _ => .sent
  fate := fun _ => .passed
  reader := fun _ => .idle
  fetched := []

end ThreadQueue

end Eina
