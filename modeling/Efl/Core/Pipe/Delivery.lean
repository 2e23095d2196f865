/-
What the handler of a pipe is called with.

The bytes written so far are the framed messages handed to the handler, then what was read of the
message at hand, then what was not read yet (`Decodes`).  That does not look at the calls in
progress, so it holds across a handler that reads on.
-/
import Efl.Core.Pipe.Basic
import Efl.Lib.Framing

namespace Core.Pipe

open Framing Runs List Option

/-! ### The header -/

theorem natOf_bytesOf {n : Nat} (h : n < 4294967296) : natOf (bytesOf n) = n := by
  simp only [natOf, bytesOf, foldr_cons, foldr_nil, UInt8.toNat_ofNat']
  omega

variable {bs : List UInt8}

theorem bytesOf_natOf (h : bs.length = 4) : bytesOf (natOf bs) = bs := by
  match bs, h with
  | [a, b, c, d], _ =>
    have ha := a.toNat_lt
    have hb := b.toNat_lt
    have hc := c.toNat_lt
    have hd := d.toNat_lt
    simp only [natOf, bytesOf, foldr_cons, cons.injEq, and_true]
    refine ⟨?_, ?_, ?_, ?_⟩
    all_goals
      apply UInt8.toNat_inj.mp
      rw [UInt8.toNat_ofNat']
      omega

theorem natOf_lt (h : bs.length = 4) : natOf bs < 4294967296 := by
  match bs, h with
  | [a, b, c, d], _ =>
    have ha := a.toNat_lt
    have hb := b.toNat_lt
    have hc := c.toNat_lt
    have hd := d.toNat_lt
    simp only [natOf, foldr_cons, foldr_nil]
    omega

namespace ByteOrder

variable (order : ByteOrder)

theorem nat_bytes {n : Nat} (h : n < 4294967296) : order.nat (order.bytes n) = n := by
  cases order with
  | little => exact natOf_bytesOf h
  | big =>
    exact natOf_bytesOf h

theorem bytes_nat {bs : List UInt8} (h : bs.length = 4) : order.bytes (order.nat bs) = bs := by
  cases order with
  | little => exact bytesOf_natOf h
  | big =>
    rw [bytes, nat, bytesOf_natOf (by rw [length_reverse, h]), reverse_reverse]

theorem nat_lt {bs : List UInt8} (h : bs.length = 4) : order.nat bs < 4294967296 := by
  cases order with
  | little => exact natOf_lt h
  | big => exact natOf_lt (by rw [length_reverse, h])

@[simp] theorem length_bytes (n : Nat) : (order.bytes n).length = 4 := by
  cases order with
  | little => rfl
  | big => rw [bytes]; rfl

/-- The native length of four bytes as a header. -/
def header : Header UInt8 where
  enc := order.bytes
  width := 4
  bound := 4294967296
  width_pos := by decide
  length_enc := order.length_bytes
  enc_inj := by
    intro m n hm hn h
    rw [← order.nat_bytes hm, h, order.nat_bytes hn]

end ByteOrder

/-- The content of a pipe that was given the messages. -/
def framed (order : ByteOrder) (msgs : List (List UInt8)) : List UInt8 := frames order.header msgs

/-! ### Storing bytes -/

variable {memory : List UInt8} {offset : Nat}

theorem length_store (h : offset + bs.length ≤ memory.length) :
    (store memory offset bs).length = memory.length := by
  simp only [store, length_append, length_take, length_drop]
  omega

theorem take_store (h : offset ≤ memory.length) :
    (store memory offset bs).take (offset + bs.length) = memory.take offset ++ bs := by
  have hlen : (memory.take offset ++ bs).length = offset + bs.length := by
    rw [length_append, length_take, min_eq_left h]
  rw [store, take_append_of_le_length (by omega), ← hlen, take_length]

theorem store_all (h : bs.length = memory.length) :
    store memory 0 bs = bs := by
  rw [store, h]
  simp

/-! ### What the decoder holds -/

/-- What the handler gets for a message. -/
def callOf (msg : List UInt8) : Option (List UInt8) × Nat :=
  if msg = [] then (none, 0) else (some msg, msg.length)

/-- What was read of the message at hand, its header included. -/
def CorePipe.pending (order : ByteOrder) (p : CorePipe) : List UInt8 :=
  if p.len = 0 then [] else order.bytes p.len ++ (p.passedData.getD []).take p.alreadyRead

/-- The handler got the messages that were read, and the decoder holds the one at hand. -/
structure Decodes (order : ByteOrder) (arrived : List UInt8) (m : Machine) : Prop where
  live : m.pipe.deleteMe = false
  kept : m.pipe.freed = false ∧ m.pipe.fdRead = true
  /-- Between two messages the decoder is empty. -/
  idle : m.pipe.len = 0 → m.pipe.alreadyRead = 0 ∧ m.pipe.passedData = none
  busy : m.pipe.len ≠ 0 → m.pipe.alreadyRead < m.pipe.len
  block : ∀ buf, m.pipe.passedData = some buf → buf.length = m.pipe.len
  fresh : m.pipe.passedData = none → m.pipe.alreadyRead = 0
  bounded : m.pipe.len < 4294967296
  stream : ∃ msgs, Fits order.header msgs ∧ m.calls = msgs.map callOf ∧
    framed order msgs ++ m.pipe.pending order ++ m.content = arrived

/-- A call below the top waits for its handler, and none is about to close the pipe. -/
def Waits : Frame → Prop
  | .handler _ rest => rest ≠ .close
  | _ => False

/-- What the read of the frame on top is for. -/
def TopOk (len : Nat) : Frame → Prop
  | .length _ => len = 0
  | .data _ => len ≠ 0
  | .handler _ rest => rest ≠ .close

theorem Waits.topOk {len : Nat} {f : Frame} (h : Waits f) : TopOk len f := by
  cases f with
  | length i => exact h.elim
  | data i => exact h.elim
  | handler i rest => exact h

structure Good (order : ByteOrder) (arrived : List UInt8) (m : Machine) : Prop
    extends Decodes order arrived m where
  top : ∀ f below, m.stack = f :: below → TopOk m.pipe.len f ∧ ∀ g ∈ below, Waits g

/-- A step keeps the invariant and does not make the main loop drop the pipe. -/
def Fine (order : ByteOrder) (arrived : List UInt8) (r : Machine × Option Result) : Prop :=
  Good order arrived r.1 ∧ r.2 ≠ some .cancel

section

variable {order : ByteOrder} {arrived : List UInt8} {m : Machine} {below : List Frame} {i : Nat}
  {rest : Rest}

theorem good_of_top {f : Frame} (h : Decodes order arrived m) (hstack : m.stack = f :: below)
    (hf : TopOk m.pipe.len f) (hbelow : ∀ g ∈ below, Waits g) : Good order arrived m := by
  refine { h with top := ?_ }
  intro g rest hparts
  rw [hstack] at hparts
  obtain ⟨rfl, rfl⟩ := cons.inj hparts
  exact ⟨hf, hbelow⟩

theorem good_of_waits (h : Decodes order arrived m) (hstack : ∀ g ∈ m.stack, Waits g) :
    Good order arrived m := by
  refine { h with top := ?_ }
  intro f rest hf
  rw [hf] at hstack
  exact ⟨(hstack f mem_cons_self).topOk, fun g hg => hstack g (mem_cons_of_mem _ hg)⟩

theorem leave_fine (h : Decodes order arrived m) (hbelow : ∀ g ∈ below, Waits g) :
    Fine order arrived (m.leave below .renew) := by
  have hleave : m.leave below .renew =
      ({ m with stack := below, pipe := { m.pipe with handling := m.pipe.handling - 1 } },
        some .renew) := by
    rw [Machine.leave, Machine.unhandle, if_neg (by simp [h.live])]
  rw [hleave]
  exact ⟨good_of_waits { h with } hbelow, by simp⟩

theorem round_fine (h : Decodes order arrived m) (hbelow : ∀ g ∈ below, Waits g) :
    Fine order arrived (m.round below i) := by
  unfold Machine.round
  split_ifs with hi hlen
  · exact leave_fine h hbelow
  · exact ⟨good_of_top { h with } rfl hlen hbelow, by simp⟩
  · exact ⟨good_of_top { h with } rfl hlen hbelow, by simp⟩

theorem resume_fine (h : Decodes order arrived m) (hbelow : ∀ g ∈ below, Waits g)
    (hrest : rest ≠ .close) : Fine order arrived (m.resume below i rest) := by
  cases rest with
  | again => exact round_fine h hbelow
  | renew => exact leave_fine h hbelow
  | close => exact absurd rfl hrest

theorem handlerCall_fine (msg : List UInt8) {msgs : List (List UInt8)}
    (hlive : m.pipe.deleteMe = false) (hkept : m.pipe.freed = false ∧ m.pipe.fdRead = true)
    (hbelow : ∀ g ∈ below, Waits g) (hrest : rest ≠ .close)
    (hfits : Fits order.header (msgs ++ [msg])) (hcalls : m.calls = msgs.map callOf)
    (hstream : framed order (msgs ++ [msg]) ++ m.content = arrived) :
    Fine order arrived (m.handlerCall below i (callOf msg).1 (callOf msg).2 rest) := by
  rw [Machine.handlerCall, if_neg (by simp [hlive])]
  refine ⟨good_of_top ?_ rfl hrest hbelow, by simp⟩
  refine ⟨hlive, hkept, fun _ => ⟨rfl, rfl⟩, fun hlen => absurd rfl hlen, ?_, fun _ => rfl,
    by simp, msgs ++ [msg], hfits, ?_, ?_⟩
  · intro buf hbuf
    simp at hbuf
  · simp [hcalls]
  · simpa [CorePipe.pending] using hstream

/-! ### The two reads -/

/-- The answers the reads of a working pipe get. -/
def Answered : Op → Prop
  | .length (.count k) => k = 4
  | .length (.error e) => e = .eagain
  | .data block (.count k) => block.isSome = true ∧ 0 < k
  | .data block (.error e) => block.isSome = true ∧ (e = .eagain ∨ e = .eintr)
  | .del => False
  | _ => True

instance : (op : Op) → Decidable (Answered op)
  | .length (.count k) => inferInstanceAs (Decidable (k = 4))
  | .length (.error e) => inferInstanceAs (Decidable (e = .eagain))
  | .data block (.count k) => inferInstanceAs (Decidable (block.isSome = true ∧ 0 < k))
  | .data block (.error _) => inferInstanceAs (Decidable (block.isSome = true ∧ (_ ∨ _)))
  | .del => inferInstanceAs (Decidable False)
  | .written _ | .read | .handled => inferInstanceAs (Decidable True)

variable {reply : Reply}

/-- A read of the length does. -/
theorem lengthRead_fine (h : Decodes order arrived m) (hbelow : ∀ g ∈ below, Waits g)
    (hlen : m.pipe.len = 0) (hcan : m.CanAnswer 4 reply) (hok : Answered (.length reply)) :
    Fine order arrived (m.lengthRead order below i reply) := by
  cases reply with
  | error e => exact leave_fine h hbelow
  | count k =>
    obtain rfl : k = 4 := hok
    obtain ⟨hready, hnone⟩ := h.idle hlen
    obtain ⟨msgs, hfits, hcalls, hstream⟩ := h.stream
    have hbs : (m.content.take 4).length = 4 := by
      rw [length_take, min_eq_left hcan.2]
    have hstore : store (order.bytes m.pipe.len) 0 (m.content.take 4) = m.content.take 4 :=
      store_all (by rw [hbs, order.length_bytes])
    have hsplit : order.bytes (order.nat (m.content.take 4)) ++ m.content.drop 4 = m.content := by
      rw [order.bytes_nat hbs, take_append_drop]
    simp only [CorePipe.pending, hlen] at hstream
    rw [Machine.lengthRead]
    simp only [hstore, if_true]
    split_ifs with hzero
    · have hfits' : Fits order.header (msgs ++ [[]]) := by
        refine hfits.append ?_
        intro msg hmsg
        rw [mem_singleton.mp hmsg]
        show (0 : Nat) < 4294967296
        omega
      have hstream' : framed order (msgs ++ [[]]) ++ m.content.drop 4 = arrived := by
        rw [hzero] at hsplit
        rw [framed, frames_append, ← hstream]
        simp only [frames_cons, append_assoc]
        exact congrArg _ hsplit
      exact handlerCall_fine [] h.live h.kept hbelow (by simp) hfits' hcalls hstream'
    · refine ⟨good_of_top ?_ rfl hzero hbelow, by simp⟩
      refine ⟨h.live, h.kept, fun hl => absurd hl hzero, ?_, ?_, fun _ => hready,
        order.nat_lt hbs, msgs, hfits, hcalls, ?_⟩
      · intro hl
        rw [hready]
        exact pos_of_ne_zero hl
      · intro buf hbuf
        exact absurd (hnone.symm.trans hbuf) (by simp)
      · rw [← hstream]
        simp only [CorePipe.pending, if_neg hzero, hready,
          append_assoc]
        exact congrArg _ hsplit

/-- A read of data keeps what has arrived and decodes it, however much of it is read. -/
theorem dataRead_fine {block : List UInt8} (h : Decodes order arrived m)
    (hbelow : ∀ g ∈ below, Waits g) (hlen : m.pipe.len ≠ 0) (hblock : block.length = m.pipe.len)
    (hbuf : block.take m.pipe.alreadyRead = (m.pipe.passedData.getD []).take m.pipe.alreadyRead)
    (hcan : m.CanAnswer (m.pipe.len - m.pipe.alreadyRead) reply)
    (hok : Answered (.data (some block) reply)) :
    Fine order arrived (m.dataRead below i block reply) := by
  obtain ⟨msgs, hfits, hcalls, hstream⟩ := h.stream
  simp only [CorePipe.pending, if_neg hlen, ← hbuf] at hstream
  cases reply with
  | error e =>
    refine leave_fine ⟨h.live, h.kept, fun hl => absurd hl hlen, h.busy, ?_, ?_, h.bounded, msgs,
      hfits, hcalls, ?_⟩ hbelow
    · intro buf hsome
      rw [← some.inj hsome]
      exact hblock
    · intro hnone
      simp at hnone
    · simpa only [CorePipe.pending, if_neg hlen, getD_some] using hstream
  | count k =>
    obtain ⟨hk, hthere⟩ := hcan
    have hpos : 0 < k := hok.2
    have hbs : (m.content.take k).length = k := by
      rw [length_take, min_eq_left hthere]
    have hstored : (store block m.pipe.alreadyRead (m.content.take k)).length = m.pipe.len := by
      rw [length_store (by rw [hbs]; omega), hblock]
    have htake : (store block m.pipe.alreadyRead (m.content.take k)).take
        (m.pipe.alreadyRead + k) = block.take m.pipe.alreadyRead ++ m.content.take k := by
      have hfront : (store block m.pipe.alreadyRead (m.content.take k)).take
          (m.pipe.alreadyRead + (m.content.take k).length) =
            block.take m.pipe.alreadyRead ++ m.content.take k := take_store (by omega)
      rwa [hbs] at hfront
    have hmore : framed order msgs ++ (order.bytes m.pipe.len ++
        (store block m.pipe.alreadyRead (m.content.take k)).take (m.pipe.alreadyRead + k)) ++
          m.content.drop k = arrived := by
      rw [htake, ← hstream]
      simp only [append_assoc, take_append_drop]
    rw [Machine.dataRead]
    split_ifs with hfull
    · -- the last bytes of the message
      set msg := store block m.pipe.alreadyRead (m.content.take k) with hmsg
      have hwhole : m.pipe.alreadyRead + k = msg.length := by omega
      have hcall : callOf msg = (some msg, m.pipe.len) := by
        have hne : msg ≠ [] := by
          intro hnil
          rw [hnil] at hstored
          exact hlen hstored.symm
        rw [callOf, if_neg hne, hstored]
      have hfits' : Fits order.header (msgs ++ [msg]) := by
        refine hfits.append ?_
        intro x hx
        rw [mem_singleton.mp hx, hstored]
        exact h.bounded
      have hstream' : framed order (msgs ++ [msg]) ++ m.content.drop k = arrived := by
        rw [framed, frames_append]
        simp only [frames_cons, frames_nil, append_nil, hstored]
        rw [hwhole, take_length] at hmore
        exact hmore
      set m' : Machine :=
        { m with pipe := { m.pipe with passedData := some msg }, content := m.content.drop k }
      have hgoal : Fine order arrived
          (m'.handlerCall below i (callOf msg).1 (callOf msg).2 .again) :=
        handlerCall_fine msg h.live h.kept hbelow (by simp) hfits' hcalls hstream'
      rw [hcall] at hgoal
      exact hgoal
    · -- some bytes of it
      refine leave_fine ⟨h.live, h.kept, fun hl => absurd hl hlen, ?_, ?_, ?_, h.bounded, msgs,
        hfits, hcalls, ?_⟩ hbelow
      · intro
        show m.pipe.alreadyRead + k < m.pipe.len
        omega
      · intro buf hsome
        rw [← some.inj hsome]
        exact hstored
      · intro hnone
        simp at hnone
      · simpa only [CorePipe.pending, if_neg hlen, getD_some] using hmore

theorem data_fine {block : Option (List UInt8)} {r : Machine × Option Result}
    (h : Decodes order arrived m) (hbelow : ∀ g ∈ below, Waits g) (hlen : m.pipe.len ≠ 0)
    (hok : Answered (.data block reply)) (hstep : m.dataStep below i block reply = some r) :
    Fine order arrived r := by
  cases block with
  | none =>
    cases reply with
    | count k => exact absurd hok.1 (by simp)
    | error e => exact absurd hok.1 (by simp)
  | some fresh =>
    have hok' : ∀ buf, Answered (.data (some buf) reply) := by
      intro buf
      cases reply with
      | count k => exact ⟨rfl, hok.2⟩
      | error e => exact ⟨rfl, hok.2⟩
    cases hp : m.pipe.passedData with
    | some buf =>
      simp only [Machine.dataStep, hp, ite_none_right_eq_some] at hstep
      obtain ⟨hcan, hr⟩ := hstep
      rw [← some.inj hr]
      refine dataRead_fine h hbelow hlen (h.block buf hp) ?_ hcan (hok' buf)
      rw [hp, getD_some]
    | none =>
      simp only [Machine.dataStep, hp, ite_none_right_eq_some] at hstep
      obtain ⟨⟨hsize, hcan⟩, hr⟩ := hstep
      rw [← some.inj hr]
      refine dataRead_fine h hbelow hlen hsize ?_ hcan (hok' fresh)
      rw [h.fresh hp, take_zero, take_zero]

end

/-! ### Runs -/

/-- What a step writes to the pipe. -/
def Op.bytes : Op → List UInt8
  | .written bs => bs
  | _ => []

@[simp] theorem Op.bytes_read : Op.read.bytes = [] := rfl

@[simp] theorem Op.bytes_length (reply : Reply) : (Op.length reply).bytes = [] := rfl

@[simp] theorem Op.bytes_data (block : Option (List UInt8)) (reply : Reply) :
    (Op.data block reply).bytes = [] := rfl

@[simp] theorem Op.bytes_handled : Op.handled.bytes = [] := rfl

/-- What a run writes to the pipe. -/
def written (ops : List Op) : List UInt8 := ops.flatMap Op.bytes

theorem written_eq_foldl (ops : List Op) (arrived : List UInt8) :
    ops.foldl (fun a op => a ++ op.bytes) arrived = arrived ++ written ops := by
  induction ops generalizing arrived with
  | nil => exact (append_nil arrived).symm
  | cons op ops ih =>
    rw [foldl_cons, ih, append_assoc]
    rfl

theorem good_start (order : ByteOrder) : Good order [] {} := by
  refine good_of_waits ⟨rfl, ⟨rfl, rfl⟩, fun _ => ⟨rfl, rfl⟩, fun h => absurd rfl h, ?_,
    fun _ => rfl, by simp, [], ?_, rfl, rfl⟩ ?_
  · intro buf hbuf
    simp at hbuf
  · intro msg hmsg
    exact absurd hmsg not_mem_nil
  · intro g hg
    exact absurd hg not_mem_nil

variable {order : ByteOrder} {arrived : List UInt8} {m : Machine} {msgs : List (List UInt8)}

theorem Decodes.written (h : Decodes order arrived m) (bs : List UInt8) :
    Decodes order (arrived ++ bs) { m with content := m.content ++ bs } := by
  obtain ⟨msgs, hfits, hcalls, hstream⟩ := h.stream
  refine { h with stream := ⟨msgs, hfits, hcalls, ?_⟩ }
  rw [← hstream]
  simp only [append_assoc]

/-- **What one step keeps.** -/
theorem step_fine {op : Op} {r : Machine × Option Result} (h : Good order arrived m)
    (hok : Answered op) (hstep : m.step order op = some r) :
    Fine order (arrived ++ op.bytes) r := by
  cases op with
  | written bs =>
    rw [← some.inj hstep]
    exact ⟨{ h.toDecodes.written bs with top := h.top }, by simp⟩
  | read =>
    simp only [Machine.step, ite_none_right_eq_some] at hstep
    obtain ⟨⟨-, -, henter⟩, hr⟩ := hstep
    rw [← some.inj hr, Op.bytes_read, append_nil]
    refine round_fine { h.toDecodes with } ?_
    intro g hg
    cases hs : m.stack with
    | nil =>
      rw [hs] at hg
      exact absurd hg not_mem_nil
    | cons f below =>
      obtain ⟨htop, hbelow⟩ := h.top f below hs
      rw [hs] at hg henter
      rcases mem_cons.mp hg with rfl | hg'
      · cases g with
        | handler i rest => exact htop
        | length i => exact henter.elim
        | data i => exact henter.elim
      · exact hbelow g hg'
  | length reply =>
    simp only [Machine.step] at hstep
    split at hstep
    · rename_i i below hs
      obtain ⟨htop, hbelow⟩ := h.top _ _ hs
      obtain ⟨hcan, hr⟩ := ite_none_right_eq_some.mp hstep
      rw [← some.inj hr, Op.bytes_length, append_nil]
      exact lengthRead_fine h.toDecodes hbelow htop hcan hok
    · simp at hstep
  | data block reply =>
    simp only [Machine.step] at hstep
    split at hstep
    · rename_i i below hs
      obtain ⟨htop, hbelow⟩ := h.top _ _ hs
      rw [Op.bytes_data, append_nil]
      exact data_fine h.toDecodes hbelow htop hok hstep
    · simp at hstep
  | handled =>
    simp only [Machine.step] at hstep
    split at hstep
    · rename_i i rest below hs
      obtain ⟨htop, hbelow⟩ := h.top _ _ hs
      rw [← some.inj hstep, Op.bytes_handled, append_nil]
      exact resume_fine h.toDecodes hbelow htop
    · simp at hstep
  | del => exact hok.elim

/-- **What every run keeps.** -/
theorem run_good {ops : List Op} {rs : List (Option Result)} (hok : ∀ op ∈ ops, Answered op)
    (hrun : run (Machine.step order) {} ops = some (m, rs)) :
    Good order (written ops) m ∧ ∀ r ∈ rs, r ≠ some .cancel := by
  have hstep : ∀ (s : Machine) (a : List UInt8) (op : Op) (s' : Machine) (r : Option Result),
      Good order a s → Answered op → s.step order op = some (s', r) →
        Good order (a ++ op.bytes) s' ∧ r ≠ some .cancel := by
    intro s a op s' r hs hop hs'
    exact step_fine hs hop hs'
  have hall := run_relates hstep ops {} [] m rs
    (good_start order) hok hrun
  rw [written_eq_foldl] at hall
  exact hall

/-! ### What was handed over -/

theorem Decodes.initial {more : List UInt8} (h : Decodes order arrived m)
    (hmsgs : Fits order.header msgs) (harrived : arrived ++ more = framed order msgs) :
    m.calls <+: msgs.map callOf := by
  obtain ⟨read, hfits, hcalls, hstream⟩ := h.stream
  rw [← hstream, append_assoc, append_assoc] at harrived
  obtain ⟨rest, hrest, -⟩ := frames_append_eq hmsgs read _ hfits harrived
  rw [hcalls, hrest, map_append]
  exact prefix_append _ _

theorem Decodes.complete (h : Decodes order arrived m)
    (hmsgs : Fits order.header msgs) (harrived : arrived = framed order msgs)
    (hread : m.content = []) :
    m.calls = msgs.map callOf := by
  obtain ⟨read, hfits, hcalls, hstream⟩ := h.stream
  rw [harrived, hread, append_nil] at hstream
  obtain ⟨rest, hrest, hpending⟩ := frames_append_eq hmsgs read _ hfits hstream
  have hrestFits : Fits order.header rest := by
    intro x hx
    exact hmsgs x (by rw [hrest]; exact mem_append_right _ hx)
  cases rest with
  | nil => rw [hcalls, hrest, append_nil]
  | cons x xs =>
    exfalso
    by_cases hlen : m.pipe.len = 0
    · rw [CorePipe.pending, if_pos hlen] at hpending
      have hwidth := congrArg length hpending
      simp only [frames_cons, length_append, length_nil] at hwidth
      have hfour : (order.header.enc x.length).length = 4 := order.length_bytes _
      omega
    · rw [CorePipe.pending, if_neg hlen] at hpending
      refine short_ne_frames hrestFits (show m.pipe.len < order.header.bound from h.bounded) ?_
        hpending
      rw [length_take]
      have hbusy := h.busy hlen
      omega

/-! ### Reading on

From every state the machine can be carried on until nothing is left to read.
-/

namespace Machine

variable (m : Machine) (below : List Frame) (i : Nat)

@[simp] theorem content_del : m.del.content = m.content := by
  unfold del
  split <;> rfl

@[simp] theorem content_unhandle : m.unhandle.content = m.content := by
  unfold unhandle
  split
  · exact content_del _
  · rfl

@[simp] theorem content_leave (result : Result) : (m.leave below result).1.content = m.content := by
  rw [leave, content_unhandle]

@[simp] theorem content_round : (m.round below i).1.content = m.content := by
  unfold round
  split
  · exact content_leave _ _ _
  · split <;> rfl

@[simp] theorem content_resume (rest : Rest) : (m.resume below i rest).1.content = m.content := by
  cases rest with
  | again => exact content_round _ _ _
  | renew => exact content_leave _ _ _
  | close => exact content_leave _ _ _

@[simp] theorem content_handlerCall (buf : Option (List UInt8)) (len : Nat) (rest : Rest) :
    (m.handlerCall below i buf len rest).1.content = m.content := by
  unfold handlerCall
  split
  · exact content_resume _ _ _ _
  · rfl

theorem content_lengthRead (order : ByteOrder) (k : Nat) :
    (m.lengthRead order below i (.count k)).1.content = m.content.drop k := by
  rw [lengthRead]
  split_ifs
  · exact content_handlerCall _ _ _ _ _ _
  · rfl
  · exact content_leave _ _ _
  · exact content_handlerCall _ _ _ _ _ _
  · exact content_leave _ _ _

theorem content_dataRead (buf : List UInt8) (k : Nat) :
    (m.dataRead below i buf (.count k)).1.content = m.content.drop k := by
  rw [dataRead]
  split_ifs
  · exact content_handlerCall _ _ _ _ _ _
  · exact content_leave _ _ _
  · exact content_leave _ _ _

end Machine

/-- The call on top is at a read. -/
def Reading (m : Machine) : Prop :=
  ∃ i below, m.stack = .length i :: below ∨ m.stack = .data i :: below

/-- Steps of a working pipe that write nothing. -/
def Reads (ops : List Op) : Prop := ∀ op ∈ ops, Answered op ∧ op.bytes = []

section

variable {order : ByteOrder} {arrived : List UInt8} {m : Machine} {below : List Frame} {i : Nat}
  {msgs : List (List UInt8)}

theorem round_reading (h : m.pipe.deleteMe = false) :
    Reading (m.round below i).1 ∨ (m.round below i).1.stack = below := by
  unfold Machine.round
  split_ifs with hi hlen
  · right
    rw [Machine.leave, Machine.unhandle, if_neg (by simp [h])]
  · exact .inl ⟨i, below, .inl rfl⟩
  · exact .inl ⟨i, below, .inr rfl⟩

theorem resume_reading {rest : Rest} (h : m.pipe.deleteMe = false) (hrest : rest ≠ .close) :
    Reading (m.resume below i rest).1 ∨ (m.resume below i rest).1.stack = below := by
  cases rest with
  | again => exact round_reading h
  | renew =>
    right
    rw [Machine.resume, Machine.leave, Machine.unhandle, if_neg (by simp [h])]
  | close => exact absurd rfl hrest

/-- The handlers that are running return, after which the pipe reads. -/
theorem exists_reading : ∀ (n : Nat) (m : Machine), m.stack.length = n → Good order arrived m →
    ∃ ops m' rs, Reads ops ∧ run (Machine.step order) m ops = some (m', rs) ∧
      m'.content = m.content ∧ Reading m' ∧ Good order arrived m' := by
  intro n
  induction n with
  | zero =>
    intro m hn h
    have hnil : m.stack = [] := length_eq_zero_iff.mp hn
    have henter : m.CanEnter := ⟨h.kept.1, h.kept.2, by rw [hnil]; trivial⟩
    set r := { m with pipe := { m.pipe with handling := m.pipe.handling + 1 } }.round m.stack 0
    have hstep : m.step order .read = some r := by rw [Machine.step, if_pos henter]
    have hgood := (step_fine h (show Answered .read from trivial) hstep).1
    rw [Op.bytes_read, append_nil] at hgood
    refine ⟨[.read], r.1, [r.2], ?_, ?_, ?_, ?_, hgood⟩
    · intro op hop
      rw [mem_singleton.mp hop]
      exact ⟨trivial, rfl⟩
    · simp only [run, hstep, map_some]
    · exact Machine.content_round _ _ _
    · have hround : r.1 = (Machine.round
          { m with pipe := { m.pipe with handling := m.pipe.handling + 1 } } m.stack 0).1 := rfl
      rw [hround, Machine.round, if_neg (by decide)]
      split
      · exact ⟨0, m.stack, .inl rfl⟩
      · exact ⟨0, m.stack, .inr rfl⟩
  | succ n ih =>
    intro m hn h
    obtain ⟨f, below, hs⟩ := exists_cons_of_length_eq_add_one hn
    obtain ⟨htop, -⟩ := h.top f below hs
    cases f with
    | length i => exact ⟨[], m, [], fun _ hop => absurd hop not_mem_nil, rfl, rfl,
        ⟨i, below, .inl hs⟩, h⟩
    | data i => exact ⟨[], m, [], fun _ hop => absurd hop not_mem_nil, rfl, rfl,
        ⟨i, below, .inr hs⟩, h⟩
    | handler i rest =>
      have hstep : m.step order .handled = some (m.resume below i rest) := by
        simp only [Machine.step, hs]
      have hgood := (step_fine h (show Answered .handled from trivial) hstep).1
      rw [Op.bytes_handled, append_nil] at hgood
      have hcontent := Machine.content_resume m below i rest
      have hone : Reads [.handled] := by
        intro op hop
        rw [mem_singleton.mp hop]
        exact ⟨trivial, rfl⟩
      have hresume : Reading (m.resume below i rest).1 ∨
          (m.resume below i rest).1.stack = below := resume_reading h.live htop
      rcases hresume with hread | hbelow
      · refine ⟨[.handled], _, [(m.resume below i rest).2], hone, ?_, hcontent, hread, hgood⟩
        simp only [run, hstep, map_some]
      have hlen : (m.resume below i rest).1.stack.length = n := by
        rw [hbelow]
        rw [hs, length_cons] at hn
        omega
      obtain ⟨ops, m', rs, hops, hrun, hsame, hread, hgood'⟩ := ih _ hlen hgood
      refine ⟨.handled :: ops, m', (m.resume below i rest).2 :: rs, ?_, ?_, ?_, hread, hgood'⟩
      · intro op hop
        rcases mem_cons.mp hop with rfl | hop'
        · exact ⟨trivial, rfl⟩
        · exact hops op hop'
      · simp only [run, hstep, hrun, map_some]
      · rw [hsame, hcontent]

/-- A pipe that reads gets nearer to the end of what is left. -/
theorem exists_read (h : Good order arrived m) (hread : Reading m)
    (hmsgs : Fits order.header msgs) (harrived : arrived = framed order msgs)
    (hleft : m.content ≠ []) :
    ∃ op r, Answered op ∧ op.bytes = [] ∧ m.step order op = some r ∧
      r.1.content.length < m.content.length := by
  have hpos : 0 < m.content.length := length_pos_of_ne_nil hleft
  obtain ⟨i, below, hs | hs⟩ := hread
  · -- a whole header is there
    have hlen : m.pipe.len = 0 := (h.top _ _ hs).1
    have hfour : 4 ≤ m.content.length := by
      obtain ⟨read, hfits, -, hstream⟩ := h.stream
      rw [CorePipe.pending, if_pos hlen, append_nil, harrived] at hstream
      obtain ⟨rest, -, hcontent⟩ := frames_append_eq hmsgs read _ hfits hstream
      cases rest with
      | nil => exact absurd hcontent hleft
      | cons x xs =>
        have hwidth : (order.header.enc x.length).length = 4 := order.length_bytes _
        rw [hcontent, frames_cons, length_append]
        omega
    refine ⟨.length (.count 4), m.lengthRead order below i (.count 4), rfl, rfl, ?_, ?_⟩
    · simp only [Machine.step, hs]
      rw [if_pos (show m.CanAnswer 4 (.count 4) from ⟨le_refl 4, hfour⟩)]
    · rw [Machine.content_lengthRead, length_drop]
      omega
  · have hlen : m.pipe.len ≠ 0 := (h.top _ _ hs).1
    have hbusy := h.busy hlen
    set k := min (m.pipe.len - m.pipe.alreadyRead) m.content.length with hk
    have hcan : m.CanAnswer (m.pipe.len - m.pipe.alreadyRead) (.count k) := ⟨by omega, by omega⟩
    have hkpos : 0 < k := by omega
    have hstep : ∃ buf, m.dataStep below i (some (replicate m.pipe.len 0)) (.count k) =
        some (m.dataRead below i buf (.count k)) := by
      cases hp : m.pipe.passedData with
      | some buf =>
        refine ⟨buf, ?_⟩
        simp only [Machine.dataStep, hp]
        rw [if_pos hcan]
      | none =>
        refine ⟨replicate m.pipe.len 0, ?_⟩
        simp only [Machine.dataStep, hp]
        rw [if_pos ⟨length_replicate, hcan⟩]
    obtain ⟨buf, hstep⟩ := hstep
    refine ⟨.data (some (replicate m.pipe.len 0)) (.count k),
      m.dataRead below i buf (.count k), ⟨rfl, hkpos⟩, rfl, ?_, ?_⟩
    · simp only [Machine.step, hs]
      exact hstep
    · rw [Machine.content_dataRead, length_drop]
      omega

theorem exists_finish (hmsgs : Fits order.header msgs)
    (harrived : arrived = framed order msgs) : ∀ (n : Nat) (m : Machine), m.content.length ≤ n →
      Good order arrived m → ∃ ops m' rs, Reads ops ∧
        run (Machine.step order) m ops = some (m', rs) ∧ m'.content = [] ∧
          Good order arrived m' := by
  intro n
  induction n with
  | zero =>
    intro m hn h
    refine ⟨[], m, [], fun _ hop => absurd hop not_mem_nil, rfl, ?_, h⟩
    exact length_eq_zero_iff.mp (Nat.le_zero.mp hn)
  | succ n ih =>
    intro m hn h
    by_cases hleft : m.content = []
    · exact ⟨[], m, [], fun _ hop => absurd hop not_mem_nil, rfl, hleft, h⟩
    obtain ⟨before, m1, rs1, hbefore, hrun1, hsame, hread, h1⟩ := exists_reading _ m rfl h
    obtain ⟨op, r, hop, hquiet, hstep, hless⟩ :=
      exists_read h1 hread hmsgs harrived (by rw [hsame]; exact hleft)
    have h2 := (step_fine h1 hop hstep).1
    rw [hquiet, append_nil] at h2
    rw [hsame] at hless
    obtain ⟨after, m', rs2, hafter, hrun2, hdone, h'⟩ := ih r.1 (by omega) h2
    refine ⟨before ++ op :: after, m', rs1 ++ r.2 :: rs2, ?_, ?_, hdone, h'⟩
    · intro op' hop'
      rcases mem_append.mp hop' with hb | ha
      · exact hbefore op' hb
      rcases mem_cons.mp ha with rfl | ha'
      · exact ⟨hop, hquiet⟩
      · exact hafter op' ha'
    · rw [run_append, hrun1]
      simp only [bind_some, run, hstep, hrun2, map_some]

end

/-! ### The handler and the messages -/

/-- **The handler of a pipe gets every message once, in order, with its bytes**, however the bytes
arrive, the reads are answered and the calls are nested, and the pipe is never dropped: at any time
it was called for the first messages, once all bytes were read for all of them, and what is left can
always be read. -/
theorem read_delivers (order : ByteOrder) (msgs : List (List UInt8)) (ops : List Op) (m : Machine)
    (rs : List (Option Result)) (more : List UInt8)
    (hmsgs : ∀ msg ∈ msgs, msg.length < 2 ^ 32)
    (hwritten : written ops ++ more = framed order msgs)
    (hok : ∀ op ∈ ops, Answered op)
    (hrun : run (Machine.step order) {} ops = some (m, rs)) :
    m.calls <+: msgs.map callOf ∧
    (m.content = [] → more = [] → m.calls = msgs.map callOf) ∧
    (more = [] → ∃ ops' m' rs', (∀ op ∈ ops', Answered op ∧ op.bytes = []) ∧
      run (Machine.step order) m ops' = some (m', rs') ∧ m'.calls = msgs.map callOf) ∧
    ∀ r ∈ rs, r ≠ some .cancel := by
  have hfits : Fits order.header msgs := hmsgs
  obtain ⟨h, hresults⟩ := run_good hok hrun
  refine ⟨h.initial hfits hwritten, ?_, ?_, hresults⟩
  · intro hread hnone
    rw [hnone, append_nil] at hwritten
    exact h.complete hfits hwritten hread
  · intro hnone
    rw [hnone, append_nil] at hwritten
    obtain ⟨ops', m', rs', hops', hrun', hdone, h'⟩ := exists_finish hfits hwritten _ m le_rfl h
    exact ⟨ops', m', rs', hops', hrun', h'.complete hfits hwritten hdone⟩

/-- Two messages, the second one empty, in four short reads. -/
def shortReads : List Op :=
  [.written [3, 0, 0, 0, 7, 8], .read, .length (.count 4), .data (some [0, 0, 0]) (.count 1),
    .written [9, 0, 0, 0, 0], .read, .data (some []) (.error .eintr), .read,
    .data (some []) (.count 2), .handled, .length (.count 4)]

theorem read_delivers_short :
    ∃ m rs, run (Machine.step .little) {} shortReads = some (m, rs) ∧
      m.calls = [[7, 8, 9], []].map callOf := by
  obtain ⟨⟨m, rs⟩, hrun⟩ : ∃ p, run (Machine.step .little) {} shortReads = some p :=
    isSome_iff_exists.mp (by decide)
  have hread : (run (Machine.step .little) {} shortReads).map (fun p => p.1.content) = some [] := by
    decide
  rw [hrun] at hread
  refine ⟨m, rs, hrun, ?_⟩
  exact (read_delivers .little [[7, 8, 9], []] shortReads m rs [] (by decide) rfl (by decide)
    hrun).2.1 (some.inj hread) rfl

end Core.Pipe
