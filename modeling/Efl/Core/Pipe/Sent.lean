/-
A pipe from one end to the other: what `core_pipe_write` puts in, the handler takes out.
-/
import Efl.Core.Pipe.Delivery
import Efl.Core.Pipe.Write

namespace Core.Pipe

open Framing Runs List

/-- A message, and the answers its writes get. -/
structure Send where
  buffer : Buffer
  answer : Nat → Answer

/-- What the call puts into the pipe. -/
def Send.written (order : ByteOrder) (s : Send) : Written :=
  corePipeWrite order s.buffer s.answer {} true

/-- The call says that it succeeded, and none of its data writes was short with another one
tried. -/
def Send.Whole (order : ByteOrder) (s : Send) : Prop :=
  (s.written order).ok = true ∧ ¬Shortened s.answer s.buffer.message.length

/-- Such a call puts in a header and its message. -/
theorem Send.Whole.content {order : ByteOrder} {s : Send} (h : s.Whole order) :
    (s.written order).content = order.bytes s.buffer.message.length ++ s.buffer.message := by
  obtain ⟨hok, hwhole⟩ := h
  unfold Send.written corePipeWrite at hok ⊢
  rw [if_neg (by decide)] at hok ⊢
  rcases writeLength_spec order s.answer 7 0 s.buffer.message.length { fdWrite := true } with
    ⟨i, hi, hfull, hlength⟩ | ⟨-, c, f, hlength⟩
  · rw [hlength] at hok ⊢
    refine And.left (?_ : Written.Right order s.buffer _) hok
    exact (writeData_right rfl rfl (by simp)).mpr fun j hj hshort =>
      hwhole ⟨i, hi, hfull, j, hj, hshort⟩
  · rw [hlength] at hok
    cases hok

/-- What is to be delivered. -/
def messages (sends : List Send) : List (List UInt8) := sends.map fun s => s.buffer.message

/-- What the senders put into the pipe, one after the other. -/
def sent (order : ByteOrder) (sends : List Send) : List UInt8 :=
  sends.flatMap fun s => (s.written order).content

theorem sent_eq {order : ByteOrder} {sends : List Send} (h : ∀ s ∈ sends, s.Whole order) :
    sent order sends = framed order (messages sends) := by
  induction sends with
  | nil => rfl
  | cons s sends ih =>
    have hrest := ih fun x hx => h x (mem_cons_of_mem _ hx)
    rw [sent, flatMap_cons, (h s mem_cons_self).content, ← sent, hrest]
    show _ = frames order.header (s.buffer.message :: messages sends)
    rw [frames_cons, append_assoc]
    rfl

/--
**What was sent is handed over**, whatever pieces it is read in and however the handler reads on:
the messages in their order, and all of them once nothing is left to read.
-/
theorem sent_delivered {order : ByteOrder} {sends : List Send} (hsends : ∀ s ∈ sends, s.Whole order)
    {ops : List Op} {m : Machine} {rs : List (Option Result)} {more : List UInt8}
    (hok : ∀ op ∈ ops, Answered op) (hrun : run (Machine.step order) {} ops = some (m, rs))
    (hwritten : written ops ++ more = sent order sends) :
    m.calls <+: (messages sends).map callOf ∧
      (m.content = [] → more = [] → m.calls = (messages sends).map callOf) := by
  obtain ⟨hgood, -⟩ := run_good hok hrun
  rw [sent_eq hsends] at hwritten
  have hfits : Fits order.header (messages sends) := by
    intro msg hmsg
    obtain ⟨s, -, rfl⟩ := mem_map.mp hmsg
    exact s.buffer.small
  refine ⟨hgood.initial hfits hwritten, fun hread hmore => ?_⟩
  rw [hmore, append_nil] at hwritten
  exact hgood.complete hfits hwritten hread

/-- Two bytes of the memory that `threeBytes` is in. -/
def twoBytes : Buffer where
  memory := fun j => UInt8.ofNat j
  address := 7
  message := [7, 8]
  small := by decide
  start := by decide
  fits := by decide
  holds := by decide

def bothSends : List Send := [⟨threeBytes, fun _ => .count 4⟩, ⟨twoBytes, fun _ => .count 4⟩]

theorem bothSends_whole : ∀ s ∈ bothSends, s.Whole .little := by
  have hwhole : ∀ {buffer : Buffer}, ((⟨buffer, fun _ => .count 4⟩ : Send).written .little).ok =
      true → buffer.message.length ≤ 4 → (⟨buffer, fun _ => .count 4⟩ : Send).Whole .little := by
    intro buffer hok hlen
    refine ⟨hok, ?_⟩
    rintro ⟨i, -, -, j, -, k, hk, -, hlt⟩
    obtain rfl := Answer.count.inj hk
    dsimp only at hlt
    omega
  rw [bothSends, forall_mem_cons, forall_mem_singleton]
  exact ⟨hwhole (by decide) (by decide), hwhole (by decide) (by decide)⟩

/-- The first message comes in two pieces, the second while its handler runs. -/
def twoPieces : List Op :=
  [.written [3, 0, 0, 0, 100, 101], .read, .length (.count 4), .data (some [0, 0, 0]) (.count 2),
    .written [102, 2, 0, 0, 0, 7, 8], .read, .data (some [0, 0, 0]) (.count 1), .read,
    .length (.count 4), .data (some [0, 0]) (.count 2)]

/-- Both messages are handed over, in their order. -/
theorem sent_delivered_two : ∃ m rs, run (Machine.step .little) {} twoPieces = some (m, rs) ∧
    m.content = [] ∧ m.calls = [callOf [100, 101, 102], callOf [7, 8]] := by
  have hanswered : ∀ op ∈ twoPieces, Answered op := by decide
  obtain ⟨m, rs, hrun⟩ : ∃ m rs, run (Machine.step .little) {} twoPieces = some (m, rs) :=
    ⟨_, _, rfl⟩
  have hread : (run (Machine.step .little) {} twoPieces).map (fun p => p.1.content) = some [] := by
    decide
  rw [hrun] at hread
  have hread : m.content = [] := Option.some.inj hread
  exact ⟨m, rs, hrun, hread, (sent_delivered bothSends_whole hanswered hrun
    (by decide : written twoPieces ++ [] = sent .little bothSends)).2 hread rfl⟩

end Core.Pipe
