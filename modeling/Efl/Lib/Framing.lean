/-
Messages on a byte stream, each behind a header that gives its length.

A header has a fixed width and tells the lengths below a bound apart.  That is enough for
the stream to be read back in one way only: whatever messages a reader has taken off the
front of a framed list are the first messages of the list.
-/
import Mathlib.Data.List.Basic

namespace Framing

open List

/-- The headers of the lengths below `bound`, all of one width. -/
structure Header (α : Type) where
  enc : Nat → List α
  width : Nat
  bound : Nat
  width_pos : 0 < width
  length_enc : ∀ n, (enc n).length = width
  enc_inj : ∀ m n, m < bound → n < bound → enc m = enc n → m = n

variable {α : Type} (H : Header α)

/-- A message behind its header. -/
def frame (msg : List α) : List α := H.enc msg.length ++ msg

/-- The messages one after the other. -/
def frames (msgs : List (List α)) : List α := msgs.flatMap (frame H)

@[simp] theorem frames_nil : frames H [] = [] := rfl

@[simp] theorem frames_cons (msg : List α) (msgs : List (List α)) :
    frames H (msg :: msgs) = H.enc msg.length ++ (msg ++ frames H msgs) := by
  simp [frames, frame]

theorem frames_append (xs ys : List (List α)) :
    frames H (xs ++ ys) = frames H xs ++ frames H ys := by
  simp [frames]

/-- Every message is one whose length has a header. -/
def Fits (msgs : List (List α)) : Prop := ∀ msg ∈ msgs, msg.length < H.bound

variable {H} {msgs : List (List α)} {n : Nat}

theorem Fits.append {xs ys : List (List α)} (hxs : Fits H xs) (hys : Fits H ys) :
    Fits H (xs ++ ys) := by
  intro msg hmsg
  rcases mem_append.mp hmsg with h | h
  · exact hxs msg h
  · exact hys msg h

theorem header_eq {msg t u : List α} (hn : n < H.bound) (hm : msg.length < H.bound)
    (h : H.enc n ++ t = H.enc msg.length ++ u) : n = msg.length ∧ t = u := by
  have hlen : (H.enc n).length = (H.enc msg.length).length := by
    rw [H.length_enc, H.length_enc]
  obtain ⟨henc, htu⟩ := append_inj h hlen
  exact ⟨H.enc_inj n msg.length hn hm henc, htu⟩

/-- **What was read off a framed list is the beginning of the list.** -/
theorem frames_append_eq (hmsgs : Fits H msgs) :
    ∀ (read : List (List α)) (t : List α), Fits H read → frames H read ++ t = frames H msgs →
      ∃ rest, msgs = read ++ rest ∧ t = frames H rest := by
  intro read
  induction read generalizing msgs with
  | nil =>
    intro t _ h
    exact ⟨msgs, rfl, h⟩
  | cons x read ih =>
    intro t hread h
    have hx : x.length < H.bound := hread x mem_cons_self
    cases msgs with
    | nil =>
      have hlen := congrArg length h
      have hpos := H.width_pos
      simp only [frames_cons, frames_nil, length_append, length_nil,
        H.length_enc] at hlen
      omega
    | cons y ys =>
      have hy : y.length < H.bound := hmsgs y mem_cons_self
      rw [frames_cons, frames_cons, append_assoc, append_assoc] at h
      obtain ⟨hxy, hrest⟩ := header_eq hx hy h
      obtain ⟨rfl, htail⟩ := append_inj hrest hxy
      obtain ⟨rest, hys, ht⟩ := ih (fun z hz => hmsgs z (mem_cons_of_mem _ hz)) t
        (fun z hz => hread z (mem_cons_of_mem _ hz)) htail
      exact ⟨rest, by rw [hys]; rfl, ht⟩

theorem short_ne_frames {part : List α} (hmsgs : Fits H msgs)
    (hn : n < H.bound) (hpart : part.length < n) : H.enc n ++ part ≠ frames H msgs := by
  intro h
  cases msgs with
  | nil =>
    have hlen := congrArg length h
    have hpos := H.width_pos
    simp only [frames_nil, length_append, length_nil, H.length_enc] at hlen
    omega
  | cons y ys =>
    rw [frames_cons] at h
    obtain ⟨hny, hrest⟩ := header_eq hn (hmsgs y mem_cons_self) h
    have hlen := congrArg length hrest
    rw [length_append] at hlen
    omega

end Framing
