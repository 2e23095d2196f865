/-
The writing end of a pipe.

`core_pipe_write` writes the length of a message and then the message, and tries again where it is
interrupted.  A short write lowers `already_written`, a `size_t`, instead of raising it, so that the
next write begins in front of the buffer.
-/
import Efl.Core.Pipe.Basic

namespace Core.Pipe

/-- What `write` does: it takes so many bytes at most, or fails. -/
inductive Answer
  | count (k : Nat)
  | epipe
  | eintr
  | other
  deriving DecidableEq

/-- The memory of the caller, with the message. -/
structure Buffer where
  memory : Nat → UInt8
  address : Nat
  message : List UInt8
  small : message.length < 2 ^ 32
  start : address < 2 ^ 64
  fits : address + message.length ≤ 2 ^ 64
  holds : message = (List.range message.length).map fun j => memory ((address + j) % 2 ^ 64)

/-- What a call has done: the bytes in the pipe, and the address and size of the data writes. -/
structure Written where
  content : List UInt8 := []
  ranges : List (Nat × Nat) := []
  fdWrite : Bool
  ok : Bool := false

variable (order : ByteOrder) (b : Buffer) (answer : Nat → Answer)

/-- The loop for the length, with `retry + 1` tries: the next answer, where it was written. -/
def writeLength (nbytes : Nat) : Nat → Nat → Written → Option Nat × Written
  | 0, _, w => (none, w)
  | tries + 1, i, w =>
    match answer i with
    | .count k =>
      let ret := min k 4
      let w := { w with content := w.content ++ (order.bytes nbytes).take ret }
      if ret = 4 then (some (i + 1), w)
      else if 0 < ret then (none, w)
      else writeLength nbytes tries (i + 1) w
    | .epipe => (none, { w with fdWrite := false })
    | .eintr | .other => writeLength nbytes tries (i + 1) w

/-- The loop for the data. -/
def writeData : Nat → Nat → Nat → Written → Written
  | 0, _, _, w => w
  | tries + 1, i, already, w =>
    let address := (b.address + already) % 2 ^ 64
    let count := (b.message.length + 2 ^ 64 - already) % 2 ^ 64
    let w := { w with ranges := w.ranges ++ [(address, count)] }
    match answer i with
    | .count k =>
      let ret := min k count
      let put := (List.range ret).map fun j => b.memory ((address + j) % 2 ^ 64)
      let w := { w with content := w.content ++ put }
      if ret = count then { w with ok := true }
      -- lowered where it should be raised
      else writeData tries (i + 1) ((already + 2 ^ 64 - ret) % 2 ^ 64) w
    | .epipe => { w with fdWrite := false }
    | .eintr | .other => writeData tries (i + 1) already w

/-- `core_pipe_write`, with `Core_PIPE_WRITE_RETRY` as 6. -/
def corePipeWrite (p : CorePipe) (fdWrite : Bool) : Written :=
  if p.deleteMe || !fdWrite then { fdWrite := fdWrite }
  else
    match writeLength order answer b.message.length 7 0 { fdWrite := fdWrite } with
    | (none, w) => w
    | (some i, w) => writeData b answer 7 i 0 w

/-! ### When the data is written right -/

/-- The loops go on with the same write. -/
def Answer.idle : Answer → Bool
  | .count k => k == 0
  | .epipe => false
  | .eintr | .other => true

/-- The first of some answers that is not idle. -/
def ending : Nat → Nat → Option Nat
  | 0, _ => none
  | tries + 1, i => if (answer i).idle then ending tries (i + 1) else some i

def Answer.Full (a : Answer) : Prop := ∃ k, a = .count k ∧ 4 ≤ k

def Answer.Short (n : Nat) (a : Answer) : Prop := ∃ k, a = .count k ∧ 0 < k ∧ k < n

/-- A data write is short and not the last that is tried. -/
def Shortened (n : Nat) : Prop :=
  ∃ i ∈ ending answer 7 0, (answer i).Full ∧ ∃ j ∈ ending answer 6 (i + 1), (answer j).Short n

def Buffer.Inside (r : Nat × Nat) : Prop :=
  b.address ≤ r.1 ∧ r.1 + r.2 ≤ b.address + b.message.length

/-- What the caller is promised. -/
def Written.Right (w : Written) : Prop :=
  (w.ok = true → w.content = order.bytes b.message.length ++ b.message) ∧
    ∀ r ∈ w.ranges, b.Inside r

variable {order b answer} {w : Written} {tries i n : Nat}

theorem writeLength_spec (order : ByteOrder) (answer : Nat → Answer) (tries i n : Nat)
    (w : Written) : (∃ j ∈ ending answer tries i, (answer j).Full ∧
      writeLength order answer n tries i w =
        (some (j + 1), { w with content := w.content ++ order.bytes n })) ∨
    (∀ j ∈ ending answer tries i, ¬(answer j).Full) ∧
      ∃ c f, writeLength order answer n tries i w =
        (none, { w with content := c, fdWrite := f }) := by
  induction tries generalizing i w with
  | zero => exact .inr ⟨by simp [ending], _, _, rfl⟩
  | succ tries ih =>
    unfold writeLength ending
    cases hanswer : answer i with
    | count k =>
      by_cases hzero : k = 0
      · subst hzero
        simpa [Answer.idle] using ih (i := i + 1) (w := w)
      have hidle : (Answer.count k).idle = false := by simpa [Answer.idle] using hzero
      simp only [hidle, Bool.false_eq_true, if_false, Option.mem_some_iff, forall_eq', hanswer]
      by_cases hfull : 4 ≤ k
      · have hlen : (order.bytes n).length = 4 := by cases order <;> rfl
        refine .inl ⟨i, rfl, ⟨k, hanswer, hfull⟩, ?_⟩
        rw [min_eq_right hfull, if_pos rfl, List.take_of_length_le hlen.le]
      · refine .inr ⟨?_, w.content ++ (order.bytes n).take (min k 4), w.fdWrite, ?_⟩
        · rintro ⟨l, hl, hle⟩
          obtain rfl := Answer.count.inj hl
          exact hfull hle
        · rw [if_neg (by omega), if_pos (by omega)]
    | epipe => exact .inr ⟨by simp [Answer.idle, Answer.Full, hanswer], _, _, rfl⟩
    | eintr | other => simpa [Answer.idle] using ih (i := i + 1) (w := w)

theorem ranges_writeData {already : Nat} {r : Nat × Nat} (hr : r ∈ w.ranges) :
    r ∈ (writeData b answer tries i already w).ranges := by
  induction tries generalizing i already w with
  | zero => exact hr
  | succ tries ih =>
    have hold : r ∈ w.ranges ++ [((b.address + already) % 2 ^ 64,
      (b.message.length + 2 ^ 64 - already) % 2 ^ 64)] := List.mem_append_left _ hr
    unfold writeData
    dsimp only
    split
    · split
      · exact hold
      · exact ih hold
    · exact hold
    · exact ih hold
    · exact ih hold

theorem writeData_outside {k : Nat} (hpos : 0 < k) (hlt : k < b.message.length) :
    ¬(writeData b answer (tries + 1) i (2 ^ 64 - k) w).Right order b := by
  have hsmall := b.small
  intro hright
  have hmem : ((b.address + (2 ^ 64 - k)) % 2 ^ 64, b.message.length + k) ∈
      (writeData b answer (tries + 1) i (2 ^ 64 - k) w).ranges := by
    have hcount : (b.message.length + 2 ^ 64 - (2 ^ 64 - k)) % 2 ^ 64 = b.message.length + k := by
      omega
    unfold writeData
    rw [hcount]
    dsimp only
    split
    · split
      · simp
      · exact ranges_writeData (by simp)
    · simp
    · exact ranges_writeData (by simp)
    · exact ranges_writeData (by simp)
  obtain ⟨hlow, hhigh⟩ := hright.2 _ hmem
  omega

theorem writeData_right (hcontent : w.content = order.bytes b.message.length) (hok : w.ok = false)
    (hinside : ∀ r ∈ w.ranges, b.Inside r) :
    (writeData b answer tries i 0 w).Right order b ↔
      ∀ j ∈ ending answer (tries - 1) i, ¬(answer j).Short b.message.length := by
  induction tries generalizing i w with
  | zero => exact iff_of_true ⟨by simp [writeData, hok], hinside⟩ (by simp [ending])
  | succ tries ih =>
    have hsmall := b.small
    have hcount : (b.message.length + 2 ^ 64 - 0) % 2 ^ 64 = b.message.length := by omega
    have haddress : (b.address + 0) % 2 ^ 64 = b.address := Nat.mod_eq_of_lt b.start
    have hnext : ∀ r ∈ w.ranges ++ [(b.address, b.message.length)], b.Inside r := by
      intro r hr
      rcases List.mem_append.mp hr with hr | hr
      · exact hinside r hr
      · rw [List.mem_singleton.mp hr]
        exact ⟨le_rfl, le_rfl⟩
    -- a try that does not get on
    have hagain {w' : Written} (hidle : (answer i).idle = true)
        (hc : w'.content = order.bytes b.message.length) (ho : w'.ok = false)
        (hr : w'.ranges = w.ranges ++ [(b.address, b.message.length)]) :
        (writeData b answer tries (i + 1) 0 w').Right order b ↔
          ∀ j ∈ ending answer tries i, ¬(answer j).Short b.message.length := by
      rw [ih hc ho (by rw [hr]; exact hnext)]
      cases tries with
      | zero => simp [ending]
      | succ tries => rw [ending, if_pos hidle, Nat.add_sub_cancel]
    have hlast (hidle : (answer i).idle = false) (hshort : ¬(answer i).Short b.message.length) :
        ∀ j ∈ ending answer tries i, ¬(answer j).Short b.message.length := by
      cases tries with
      | zero => simp [ending]
      | succ tries => simpa [ending, hidle] using hshort
    unfold writeData
    rw [hcount, haddress, Nat.add_sub_cancel]
    cases hanswer : answer i with
    | epipe =>
      refine iff_of_true ⟨by simp [hok], hnext⟩ (hlast (by rw [hanswer]; rfl) ?_)
      simp [hanswer, Answer.Short]
    | eintr | other => exact hagain (by rw [hanswer]; rfl) hcontent hok rfl
    | count k =>
      dsimp only
      by_cases hall : b.message.length ≤ k
      · rw [min_eq_right hall, if_pos rfl]
        refine iff_of_true ⟨fun _ => ?_, hnext⟩ ?_
        · rw [hcontent, ← b.holds]
        · by_cases hzero : k = 0
          · rintro j - ⟨l, -, hpos, hlt⟩
            omega
          refine hlast (by simpa [hanswer, Answer.idle] using hzero) ?_
          rintro ⟨l, hl, -, hlt⟩
          obtain rfl := Answer.count.inj (hanswer.symm.trans hl)
          omega
      · rw [min_eq_left (by omega), if_neg (by omega)]
        by_cases hzero : k = 0
        · subst hzero
          exact hagain (by rw [hanswer]; rfl) (by simpa using hcontent) hok rfl
        have hpos := pos_of_ne_zero hzero
        have halready : (0 + 2 ^ 64 - k) % 2 ^ 64 = 2 ^ 64 - k := by omega
        rw [halready]
        cases tries with
        | zero => exact iff_of_true ⟨by simp [writeData, hok], hnext⟩ (by simp [ending])
        | succ tries =>
          refine iff_of_false (writeData_outside hpos (by omega)) fun hnone => ?_
          have hidle : (answer i).idle = false := by simpa [hanswer, Answer.idle] using hzero
          refine hnone i ?_ ⟨k, hanswer, hpos, by omega⟩
          rw [ending, hidle]
          rfl

/-- **The message is written right, and from its buffer only, exactly if no data write is short
while another one is tried.** -/
theorem corePipeWrite_iff (order : ByteOrder) (b : Buffer) (answer : Nat → Answer) (p : CorePipe)
    (fdWrite : Bool) : (corePipeWrite order b answer p fdWrite).Right order b ↔
      p.deleteMe = true ∨ fdWrite = false ∨ ¬Shortened answer b.message.length := by
  unfold corePipeWrite
  by_cases hclosed : (p.deleteMe || !fdWrite) = true
  · rw [if_pos hclosed]
    refine iff_of_true ⟨by simp, by simp⟩ ?_
    simpa [or_assoc] using (.inl (by simpa using hclosed) :
      (p.deleteMe = true ∨ fdWrite = false) ∨ ¬Shortened answer b.message.length)
  rw [if_neg hclosed]
  have hopen : ¬(p.deleteMe = true ∨ fdWrite = false) := by simpa using hclosed
  rw [← or_assoc, or_iff_right hopen]
  rcases writeLength_spec order answer 7 0 b.message.length { fdWrite := fdWrite } with
    ⟨i, hi, hfull, hlength⟩ | ⟨hnone, c, f, hlength⟩
  · rw [hlength]
    rw [writeData_right rfl rfl (by simp)]
    constructor
    · rintro hnone ⟨l, hl, -, j, hj, hshort⟩
      obtain rfl := Option.mem_unique hi hl
      exact hnone j hj hshort
    · intro hnot j hj hshort
      exact hnot ⟨i, hi, hfull, j, hj, hshort⟩
  · rw [hlength]
    refine iff_of_true ⟨by simp, by simp⟩ ?_
    rintro ⟨i, hi, hfull, -⟩
    exact hnone i hi hfull

/-- Three bytes. -/
def threeBytes : Buffer where
  memory := fun j => UInt8.ofNat j
  address := 100
  message := [100, 101, 102]
  small := by decide
  start := by decide
  fits := by decide
  holds := by decide

/-- The length is written, one byte of three, and what begins one byte in front of the buffer. -/
theorem corePipeWrite_short : ¬∀ (b : Buffer) (answer : Nat → Answer),
    (corePipeWrite .little b answer {} true).Right .little b := by
  intro hall
  have hright := hall threeBytes fun i => if i = 1 then .count 1 else .count 4
  have hmem : ((99, 4) : Nat × Nat) ∈ (corePipeWrite .little threeBytes
    (fun i => if i = 1 then .count 1 else .count 4) {} true).ranges := by decide
  have hlow := (hright.2 _ hmem).1
  revert hlow
  decide

end Core.Pipe
