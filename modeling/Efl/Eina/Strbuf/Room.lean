/-
Making room in a string buffer.

The sizes are units and the blocks are bytes.  `Room` says that the units of a sequence are
at the front of the block, and that the block is as large as `size` says.  Resizing keeps
whatever prefix of the block fits into the new one; what was behind it is indeterminate.
`NoWrap` says of the size a call needs that it is still a `size_t` once it is rounded up and
counted in bytes.
-/
import Efl.Eina.Strbuf.Basic
import Mathlib.Tactic.Linarith
import Mathlib.Tactic.Ring

namespace Eina.Strbuf

open CMemory List Option Heap

variable {k : Kind}

/-! ### Units in memory -/

namespace Kind

theorem csize_pos (k : Kind) : 0 < k.csize := by
  cases k <;> decide

theorem csize_le (k : Kind) : k.csize ≤ 4 := by
  cases k <;> decide

@[simp] theorem length_bytes (u : k.Unit) : (k.bytes u).length = k.csize := by
  cases k <;> rfl

theorem bytes_zero (k : Kind) : k.bytes k.zero = List.replicate k.csize 0 := by
  cases k <;> rfl

@[simp] theorem cells_nil (k : Kind) : k.cells [] = [] := rfl

theorem cells_append (xs ys : List k.Unit) : k.cells (xs ++ ys) = k.cells xs ++ k.cells ys := by
  simp [cells]

@[simp] theorem length_cells (xs : List k.Unit) : (k.cells xs).length = xs.length * k.csize := by
  induction xs with
  | nil => simp
  | cons x xs ih =>
    have hcons : k.cells (x :: xs) = (k.bytes x).map some ++ k.cells xs := by simp [cells]
    rw [hcons, length_append, ih, length_map, length_bytes, length_cons]
    ring

theorem cells_zero (k : Kind) : k.cells [k.zero] = List.replicate k.csize (some 0) := by
  simp [cells, bytes_zero]

theorem take_cells (xs : List k.Unit) (n : Nat) :
    (k.cells xs).take (n * k.csize) = k.cells (xs.take n) := by
  by_cases hn : n ≤ xs.length
  · have hsplit : k.cells xs = k.cells (xs.take n) ++ k.cells (xs.drop n) := by
      rw [← cells_append, take_append_drop]
    have hlen : (k.cells (xs.take n)).length = n * k.csize := by
      rw [length_cells, length_take, min_eq_left hn]
    rw [hsplit, ← hlen, take_left]
  · have hle : xs.length ≤ n := by omega
    rw [take_of_length_le hle, take_of_length_le]
    rw [length_cells]
    exact Nat.mul_le_mul_right _ hle

theorem string_prefix (xs : List k.Unit) : ∃ t, xs = k.string xs ++ t :=
  ⟨xs.dropWhile (· ≠ k.zero), (takeWhile_append_dropWhile ..).symm⟩

end Kind

/-! ### Sizes -/

namespace EflStrbuf

variable {b : EflStrbuf} {csize size : Nat}

/-- The size a request for `size` units and a terminator is rounded up to is a `size_t`, in
bytes. -/
def NoWrap (b : EflStrbuf) (csize size : Nat) : Prop :=
  ((size + 1) / b.newStep (size + 1) + 1) * b.newStep (size + 1) * csize < word

instance (b : EflStrbuf) (csize size : Nat) : Decidable (b.NoWrap csize size) := by
  unfold NoWrap
  exact inferInstance

theorem newStep_spec (hpos : 0 < b.step) (hmax : b.step ≤ maxStep) :
    0 < b.newStep size ∧ b.newStep size ≤ maxStep := by
  have hrounded : ∀ d : Nat, 0 < min ((d / initStep + 1) * initStep) maxStep := by
    intro d
    exact lt_min (mul_pos (Nat.succ_pos _) (by decide)) (by decide)
  unfold newStep
  dsimp only
  split_ifs
  · exact ⟨hpos, hmax⟩
  · exact ⟨hrounded _, min_le_right _ _⟩
  · exact ⟨hpos, hmax⟩
  · exact ⟨hrounded _, min_le_right _ _⟩

theorem rounded_spec (size : Nat) (hpos : 0 < b.step) (hmax : b.step ≤ maxStep) :
    size < (size / b.newStep size + 1) * b.newStep size ∧
      (size / b.newStep size + 1) * b.newStep size ≤ size + maxStep := by
  obtain ⟨hstep, hstepMax⟩ : 0 < b.newStep size ∧ b.newStep size ≤ maxStep :=
    newStep_spec hpos hmax
  have hdiv := Nat.div_add_mod size (b.newStep size)
  have hmod := Nat.mod_lt size hstep
  have heq : (size / b.newStep size + 1) * b.newStep size =
      b.newStep size * (size / b.newStep size) + b.newStep size := by ring
  omega

theorem NoWrap.units (h : b.NoWrap csize size) (hcsize : 0 < csize) :
    ((size + 1) / b.newStep (size + 1) + 1) * b.newStep (size + 1) < word :=
  lt_of_le_of_lt (Nat.le_mul_of_pos_right _ hcsize) h

theorem newSize_spec (hpos : 0 < b.step) (hmax : b.step ≤ maxStep) (hcsize : 0 < csize)
    (hwrap : b.NoWrap csize size) :
    size + 1 < b.newSize (size + 1) ∧ b.newSize (size + 1) ≤ size + 1 + maxStep ∧
      b.newSize (size + 1) * csize < word := by
  obtain ⟨hlt, hle⟩ := rounded_spec (size + 1) hpos hmax
  rw [newSize, Nat.mod_eq_of_lt (hwrap.units hcsize)]
  exact ⟨hlt, hle, hwrap⟩

theorem NoWrap.lt (h : b.NoWrap csize size) (hpos : 0 < b.step) (hmax : b.step ≤ maxStep)
    (hcsize : 0 < csize) : size + 1 < word := by
  obtain ⟨hlt, -⟩ := rounded_spec (size + 1) hpos hmax
  exact lt_of_le_of_lt hlt.le (h.units hcsize)

theorem noWrap_of_lt (hpos : 0 < b.step) (hmax : b.step ≤ maxStep)
    (h : (size + 1 + maxStep) * csize < word) : b.NoWrap csize size := by
  obtain ⟨-, hle⟩ := rounded_spec (size + 1) hpos hmax
  exact lt_of_le_of_lt (Nat.mul_le_mul_right _ hle) h

end EflStrbuf

/-! ### Room -/

/-- The units are at the front of the block, and there is room for `n` units and a terminator. -/
structure Room (k : Kind) (w : World) (xs : List k.Unit) (n id : Nat) (rest : List Cell) :
    Prop where
  buf : w.strbuf.buf = some id
  fresh : id < w.heap.asked
  own : w.heap.locked id = false ∧ w.heap.Later
  block : w.heap.blocks id = some (k.cells xs ++ rest)
  len : w.strbuf.len = xs.length
  room : n + 1 ≤ w.strbuf.size
  size : w.strbuf.size * k.csize ≤ (k.cells xs ++ rest).length
  step : 0 < w.strbuf.step ∧ w.strbuf.step ≤ maxStep
  max : (k.cells xs ++ rest).length < maxSize
  /-- A read-only buffer of an own block comes from `eina_strbuf_replace_last`. -/
  ro : w.strbuf.ro = true → k.csize = 1

/-- The buffer holds the units and a terminator, in a block of its own. -/
def Owned (k : Kind) (w : World) (xs : List k.Unit) : Prop :=
  ∃ id rest, Room k w xs xs.length id (k.cells [k.zero] ++ rest)

/-- Blocks that are not the buffer's stay what they are. -/
structure Frame (w w' : World) : Prop where
  granted : w'.heap.granted = w.heap.granted
  locked : w'.heap.locked = w.heap.locked
  asked : w.heap.asked ≤ w'.heap.asked
  blocks : ∀ c < w.heap.asked, w.strbuf.buf ≠ some c →
    w'.strbuf.buf ≠ some c ∧ w'.heap.blocks c = w.heap.blocks c

/-- No request in sight is refused. -/
def Generous (h : Heap) : Prop := ∀ i, h.granted i = true

theorem Frame.refl (w : World) : Frame w w := ⟨rfl, rfl, le_rfl, fun _ _ hne => ⟨hne, rfl⟩⟩

theorem Frame.trans {w w1 w2 : World} (h : Frame w w1) (h' : Frame w1 w2) : Frame w w2 := by
  refine ⟨h'.granted.trans h.granted, h'.locked.trans h.locked, h.asked.trans h'.asked, ?_⟩
  intro c hc hne
  obtain ⟨hne1, hsame1⟩ := h.blocks c hc hne
  obtain ⟨hne2, hsame2⟩ := h'.blocks c (lt_of_lt_of_le hc h.asked) hne1
  exact ⟨hne2, hsame2.trans hsame1⟩

theorem Frame.of_put {w : World} {id : Nat} (hbuf : w.strbuf.buf = some id) (cells : List Cell)
    (b : EflStrbuf) (hb : b.buf = some id) :
    Frame w { heap := w.heap.put id cells, strbuf := b } := by
  refine ⟨rfl, rfl, le_rfl, ?_⟩
  intro c _ hne
  rw [hbuf] at hne
  have hcid : c ≠ id := fun h => hne (by rw [h])
  refine ⟨?_, put_of_ne _ hcid _⟩
  rw [hb]
  exact hne

theorem Generous.frame {w w' : World} (h : Frame w w') (hg : Generous w.heap) :
    Generous w'.heap := by
  intro i
  rw [h.granted]
  exact hg i

/-- Only the number of requests changes. -/
structure Asked (w w' : World) : Prop where
  strbuf : w'.strbuf = w.strbuf
  blocks : w'.heap.blocks = w.heap.blocks
  granted : w'.heap.granted = w.heap.granted
  locked : w'.heap.locked = w.heap.locked
  asked : w'.heap.asked = w.heap.asked + 1

/-- The block of the buffer begins with some bytes, and there is room for `n` units and a
terminator. -/
structure Space (k : Kind) (w : World) (a : List Cell) (n id : Nat) (rest : List Cell) : Prop where
  buf : w.strbuf.buf = some id
  fresh : id < w.heap.asked
  own : w.heap.locked id = false ∧ w.heap.Later
  block : w.heap.blocks id = some (a ++ rest)
  room : n + 1 ≤ w.strbuf.size
  size : w.strbuf.size * k.csize ≤ (a ++ rest).length
  step : 0 < w.strbuf.step ∧ w.strbuf.step ≤ maxStep
  max : (a ++ rest).length < maxSize

/-- The next block, for room for a size, is refused. -/
def Denied (k : Kind) (w : World) (size : Nat) : Prop :=
  ∃ w1, w.resize k.csize size = some (w1, false) ∧ Asked w w1 ∧
    (w.heap.granted w.heap.asked = false ∨ maxSize ≤ w.strbuf.newSize (size + 1) * k.csize)

section

variable {w : World} {xs : List k.Unit} {n m id : Nat} {rest : List Cell} {a c : List Cell}

/-! ### Resizing -/

theorem newSize_eqs (hstep : 0 < w.strbuf.step ∧ w.strbuf.step ≤ maxStep)
    (hwrap : w.strbuf.NoWrap k.csize m) :
    (m + 1) % word = m + 1 ∧ m + 1 < w.strbuf.newSize (m + 1) ∧
      (w.strbuf.newSize (m + 1) * k.csize) % word = w.strbuf.newSize (m + 1) * k.csize ∧
      w.strbuf.newSize (m + 1) ≤ w.strbuf.newSize (m + 1) * k.csize := by
  have hpos := k.csize_pos
  obtain ⟨hnew, -, hbytes⟩ := EflStrbuf.newSize_spec hstep.1 hstep.2 hpos hwrap
  exact ⟨Nat.mod_eq_of_lt (hwrap.lt hstep.1 hstep.2 hpos), hnew, Nat.mod_eq_of_lt hbytes,
    Nat.le_mul_of_pos_right _ hpos⟩

/-- **What `_eina_strbuf_common_resize` does to a buffer of its own**: nothing, or it moves to a
larger or smaller block that begins with the same bytes, or the request is refused. -/
theorem resize_spec (hro : w.strbuf.ro = false) (hbuf : w.strbuf.buf = some id)
    (hblock : w.heap.blocks id = some (a ++ c))
    (hown : w.heap.locked id = false ∧ w.heap.Later)
    (hstep : 0 < w.strbuf.step ∧ w.strbuf.step ≤ maxStep) (hwrap : w.strbuf.NoWrap k.csize m)
    (ha : a.length ≤ (m + 1) * k.csize) :
    (w.resize k.csize m = some (w, true) ∧ m + 1 ≤ w.strbuf.size) ∨
      (∃ w' c', w.resize k.csize m = some (w', true) ∧ Frame w w' ∧
        Space k w' a m w.heap.asked c' ∧ w'.strbuf.len = w.strbuf.len ∧ w'.strbuf.ro = false ∧
        w'.heap.asked = w.heap.asked + 1) ∨
      Denied k w m := by
  obtain ⟨hm, hnew, hmod, hle⟩ := newSize_eqs hstep hwrap
  set ns := w.strbuf.newSize (m + 1) with hns
  by_cases hres : w.strbuf.resizes k.csize (m + 1) = true
  · right
    have hunfold : w.resize k.csize m =
        (w.heap.realloc (some id) (ns * k.csize)).bind (w.reallocated (m + 1)) := by
      simp only [World.resize, hm, hres, if_true, hro, Bool.false_eq_true, if_false, hbuf, ← hns,
        hmod]
    rcases w.heap.realloc_cases hblock hown.1 with ⟨hlim, hre⟩ | ⟨hcause, hre⟩
    · left
      have hfit : a.length ≤ ns * k.csize :=
        ha.trans (Nat.mul_le_mul_right _ (Nat.le_of_lt hnew))
      obtain ⟨c', hc'⟩ := resized_append hfit
      have hlen : (a ++ c').length = ns * k.csize := by rw [← hc', length_resized]
      rw [hre, hc'] at hunfold
      simp only [bind_some, World.reallocated, World.copyRo, hro] at hunfold
      refine ⟨_, c', hunfold, ⟨rfl, rfl, Nat.le_succ _, ?_⟩,
        ⟨rfl, Nat.lt_succ_self _, ⟨hown.2 _ le_rfl, hown.2.mono rfl (Nat.le_succ _)⟩,
          put_self _ _ _, le_of_lt hnew, hlen.ge, EflStrbuf.newStep_spec hstep.1 hstep.2,
          by rw [hlen]; exact hlim⟩, rfl, rfl, rfl⟩
      intro d hd hne
      rw [hbuf] at hne
      have hdid : d ≠ id := fun h => hne (by rw [h])
      have hdasked : d ≠ w.heap.asked := ne_of_lt hd
      refine ⟨fun h => hdasked (some.inj h).symm, ?_⟩
      rw [put_of_ne _ hdasked]
      exact Function.update_of_ne hdid _ _
    · right
      rw [hre] at hunfold
      exact ⟨_, hunfold, ⟨rfl, rfl, rfl, rfl, rfl⟩, hcause⟩
  · left
    have hfalse : w.strbuf.resizes k.csize (m + 1) = false := by simpa using hres
    refine ⟨?_, ?_⟩
    · simp only [World.resize, hm, hfalse, Bool.false_eq_true, if_false]
    · have hor : m + 1 = w.strbuf.size ∨ w.strbuf.size = ns * k.csize := by
        simp only [EflStrbuf.resizes, ← hns, hmod, Bool.and_eq_false_iff, decide_eq_false_iff_not,
          not_not] at hfalse
        exact hfalse
      omega

/-- The buffer moves to a block of its own, and every block stays what it is. -/
structure Copies (w w' : World) : Prop where
  granted : w'.heap.granted = w.heap.granted
  locked : w'.heap.locked = w.heap.locked
  asked : w.heap.asked < w'.heap.asked
  buf : w'.strbuf.buf = some w.heap.asked
  blocks : ∀ c < w.heap.asked, w'.heap.blocks c = w.heap.blocks c

theorem Copies.frame {w' : World} (h : Copies w w') : Frame w w' := by
  refine ⟨h.granted, h.locked, le_of_lt h.asked, ?_⟩
  intro c hc _
  refine ⟨?_, h.blocks c hc⟩
  rw [h.buf]
  intro heq
  exact absurd (some.inj heq) (ne_of_gt hc)

theorem Copies.own {w' : World} (h : Copies w w') (hlater : w.heap.Later) :
    w'.heap.locked w.heap.asked = false ∧ w'.heap.Later := by
  refine ⟨?_, hlater.mono h.locked h.asked.le⟩
  rw [h.locked]
  exact hlater _ le_rfl

/-- **What it does to a read-only buffer**: as many bytes as there are units are copied to a new
block, or the request is refused. -/
theorem resize_ro_spec (hro : w.strbuf.ro = true)
    (hbuf : w.strbuf.buf = some id) (hfresh : id < w.heap.asked)
    (hlater : w.heap.Later) (hblock : w.heap.blocks id = some (a ++ c))
    (hlen : w.strbuf.len = a.length)
    (hstep : 0 < w.strbuf.step ∧ w.strbuf.step ≤ maxStep) (hwrap : w.strbuf.NoWrap k.csize m)
    (ha : a.length ≤ m) (hsize : w.strbuf.size ≤ m) :
    (∃ w' c', w.resize k.csize m = some (w', true) ∧ Copies w w' ∧
        Space k w' a m w.heap.asked c' ∧ w'.strbuf.len = w.strbuf.len ∧ w'.strbuf.ro = false) ∨
      Denied k w m := by
  obtain ⟨hm, hnew, hmod, hle⟩ := newSize_eqs hstep hwrap
  set ns := w.strbuf.newSize (m + 1) with hns
  have hres : w.strbuf.resizes k.csize (m + 1) = true := by
    have h1 : m + 1 ≠ w.strbuf.size := by omega
    have h2 : w.strbuf.size ≠ ns * k.csize := by omega
    simp only [EflStrbuf.resizes, ← hns, hmod, Bool.and_eq_true, decide_eq_true_eq]
    exact ⟨h1, h2⟩
  have hunfold : w.resize k.csize m =
      w.reallocated (m + 1) (w.heap.malloc (ns * k.csize)) := by
    simp only [World.resize, hm, hres, if_true, hro, ← hns, hmod, Heap.realloc, bind_some]
  rcases w.heap.newBlock_cases (replicate (ns * k.csize) none) with
    ⟨-, hlim, hmalloc⟩ | ⟨hcause, hmalloc⟩
  · left
    rw [length_replicate] at hlim
    have hfit : a.length ≤ ns * k.csize := by omega
    set h1 : Heap := { w.heap.put w.heap.asked (replicate (ns * k.csize) none) with
      asked := w.heap.asked + 1 } with hh1
    have hne : id ≠ w.heap.asked := ne_of_lt hfresh
    have hread : h1.read (some id) 0 a.length = some a := by
      refine read_part (a := []) (c := c) ?_ rfl rfl
      rw [put_of_ne _ hne, hblock]
      rfl
    have hsplit : replicate (ns * k.csize) (none : Cell) =
        replicate a.length none ++ replicate (ns * k.csize - a.length) none := by
      rw [← replicate_add, Nat.add_sub_cancel' hfit]
    have hwrite : h1.write (some w.heap.asked) 0 a =
        some (h1.put w.heap.asked
          (a ++ replicate (ns * k.csize - a.length) none)) := by
      refine write_part (a := []) (b := replicate a.length none) ?_
        (hlater _ le_rfl) rfl (by simp)
      rw [put_self, hsplit]
      rfl
    have htotal : (a ++ replicate (ns * k.csize - a.length) (none : Cell)).length =
        ns * k.csize := by
      rw [length_append, length_replicate, Nat.add_sub_cancel' hfit]
    rw [show w.heap.malloc (ns * k.csize) = (h1, some w.heap.asked) from hmalloc] at hunfold
    simp only [World.reallocated, World.copyRo, hro, hbuf, hlen, hread, bind_some,
      hwrite] at hunfold
    have hcopies : ∀ d < w.heap.asked, h1.blocks d = w.heap.blocks d := fun d hd =>
      put_of_ne _ (ne_of_lt hd) _
    refine ⟨_, _, hunfold, ⟨rfl, rfl, Nat.lt_succ_self _, rfl, fun d hd => ?_⟩,
      ⟨rfl, Nat.lt_succ_self _, ⟨hlater _ le_rfl, hlater.mono rfl (Nat.le_succ _)⟩,
        put_self _ _ _, le_of_lt hnew, htotal.ge, EflStrbuf.newStep_spec hstep.1 hstep.2,
        by rw [htotal]; exact hlim⟩, hlen.symm, rfl⟩
    rw [put_of_ne _ (ne_of_lt hd)]
    exact hcopies d hd
  · right
    rw [show w.heap.malloc (ns * k.csize) = ({ w.heap with asked := w.heap.asked + 1 }, none) from
      hmalloc] at hunfold
    rw [length_replicate] at hcause
    exact ⟨_, hunfold, ⟨rfl, rfl, rfl, rfl, rfl⟩, hcause⟩

end

/-! ### Growing -/

/-- A request for a size, with a step more, is one for less than the largest object. -/
def Small (csize size : Nat) : Prop := (size + 1 + maxStep) * csize < maxSize

instance (csize size : Nat) : Decidable (Small csize size) := by
  unfold Small
  exact inferInstance

/-- The next request is refused, or it is one for too much. -/
def Refused (k : Kind) (w : World) (size : Nat) : Prop :=
  w.heap.granted w.heap.asked = false ∨ ¬ Small k.csize size

/-- What `_eina_strbuf_common_grow` asks for is refused, whether or not its size wrapped. -/
def World.Refuses (w : World) (csize size : Nat) : Prop :=
  size + 1 < word ∧ w.strbuf.size ≤ size + 1 ∧ w.strbuf.resizes csize (size + 1) = true ∧
    ¬ w.heap.Grants ((w.strbuf.newSize (size + 1) * csize) % word)

instance (w : World) (csize size : Nat) : Decidable (w.Refuses csize size) := by
  unfold World.Refuses
  exact inferInstance

/-- The size a call needs does not wrap, or it is refused. -/
def World.Fits (w : World) (csize size : Nat) : Prop :=
  w.strbuf.NoWrap csize size ∨ w.Refuses csize size

instance (w : World) (csize size : Nat) : Decidable (w.Fits csize size) := by
  unfold World.Fits
  exact inferInstance

/-- The buffer is the caller's memory, which holds the units. -/
structure Borrowed (k : Kind) (w : World) (xs : List k.Unit) (caller : Nat) (rest : List Cell) :
    Prop where
  ro : w.strbuf.ro = true
  buf : w.strbuf.buf = some caller
  fresh : caller < w.heap.asked
  later : w.heap.Later
  block : w.heap.blocks caller = some (k.cells xs ++ rest)
  len : w.strbuf.len = xs.length
  size : w.strbuf.size = xs.length + 1
  step : w.strbuf.step = initStep
  max : xs.length * k.csize < maxSize

section

variable {w w' : World} {xs : List k.Unit} {n id caller : Nat} {rest : List Cell}

theorem Small.noWrap {b : EflStrbuf} (h : Small k.csize n) (hpos : 0 < b.step)
    (hmax : b.step ≤ maxStep) : b.NoWrap k.csize n := by
  have hlt : maxSize < word := by decide
  refine EflStrbuf.noWrap_of_lt hpos hmax ?_
  unfold Small at h
  omega

theorem Denied.refused (h : Denied k w n) (hstep : 0 < w.strbuf.step ∧ w.strbuf.step ≤ maxStep)
    (hwrap : w.strbuf.NoWrap k.csize n) :
    ∃ w1, w.resize k.csize n = some (w1, false) ∧ Asked w w1 ∧ Refused k w n := by
  obtain ⟨w1, hresize, hasked, hno | hlarge⟩ := h
  · exact ⟨w1, hresize, hasked, .inl hno⟩
  refine ⟨w1, hresize, hasked, .inr ?_⟩
  obtain ⟨-, hle, -⟩ := EflStrbuf.newSize_spec hstep.1 hstep.2 k.csize_pos hwrap
  have hmul : w.strbuf.newSize (n + 1) * k.csize ≤ (n + 1 + maxStep) * k.csize :=
    Nat.mul_le_mul_right _ hle
  unfold Small
  omega

theorem Asked.le (h : Asked w w') : w.heap.asked ≤ w'.heap.asked := by
  rw [h.asked]
  exact Nat.le_succ _

theorem Room.asked (h : Room k w xs n id rest) (ha : Asked w w') : Room k w' xs n id rest := by
  obtain ⟨h1, h2, ⟨h3, h4⟩, h5, h6, h7, h8, h9, h10, h11⟩ := h
  rw [← ha.strbuf] at h1 h6 h7 h8 h9 h11
  rw [← ha.blocks] at h5
  exact ⟨h1, h2.trans_le ha.le, ⟨by rw [ha.locked]; exact h3, h4.mono ha.locked ha.le⟩, h5, h6, h7,
    h8, h9, h10, h11⟩

theorem Owned.asked (h : Owned k w xs) (ha : Asked w w') : Owned k w' xs := by
  obtain ⟨id, rest, hroom⟩ := h
  exact ⟨id, rest, hroom.asked ha⟩

theorem grow_space {m : Nat} {a : List Cell} (h : Space k w a m id rest)
    (hro : w.strbuf.ro = false) (ha : a.length ≤ (n + 1) * k.csize)
    (hwrap : w.strbuf.NoWrap k.csize n) :
    (∃ w1 id rest, w.grow k.csize n = some (w1, true) ∧ Frame w w1 ∧ Space k w1 a n id rest ∧
        w1.strbuf.len = w.strbuf.len ∧ w1.strbuf.ro = false ∧
        w1.heap.asked ≤ w.heap.asked + 1) ∨
      ∃ w1, w.grow k.csize n = some (w1, false) ∧ Asked w w1 ∧ Refused k w n := by
  have hmod : (n + 1) % word = n + 1 := Nat.mod_eq_of_lt (hwrap.lt h.step.1 h.step.2 k.csize_pos)
  unfold World.grow
  rw [hmod]
  by_cases hsmall : n + 1 < w.strbuf.size
  · rw [if_pos hsmall]
    exact .inl ⟨w, id, _, rfl, Frame.refl w, { h with room := le_of_lt hsmall }, rfl, hro,
      Nat.le_succ _⟩
  rw [if_neg hsmall]
  rcases resize_spec hro h.buf h.block h.own h.step hwrap ha with
    ⟨hsame, hfits⟩ | ⟨w', c', hresize, hframe, hspace, hlen, hro', hasked⟩ | hdenied
  · exact .inl ⟨w, id, _, hsame, Frame.refl w, { h with room := hfits }, rfl, hro,
      Nat.le_succ _⟩
  · exact .inl ⟨w', _, c', hresize, hframe, hspace, hlen, hro', hasked.le⟩
  · exact .inr (hdenied.refused h.step hwrap)

theorem Space.toRoom (h : Space k w (k.cells xs) n id rest) (hlen : w.strbuf.len = xs.length)
    (hone : w.strbuf.ro = true → k.csize = 1) : Room k w xs n id rest :=
  ⟨h.buf, h.fresh, h.own, h.block, hlen, h.room, h.size, h.step, h.max, hone⟩

theorem grow_own {m : Nat} {b : List Cell} (hroom : Room k w xs m id (b ++ rest))
    (hro : w.strbuf.ro = false) (hb : b.length ≤ k.csize) (hwrap : w.strbuf.NoWrap k.csize n)
    (hn : xs.length ≤ n) :
    (∃ w1 id rest, w.grow k.csize n = some (w1, true) ∧ Frame w w1 ∧
        Room k w1 xs n id (b ++ rest) ∧ w1.strbuf.ro = false) ∨
      ∃ w1, w.grow k.csize n = some (w1, false) ∧ Asked w w1 ∧ Refused k w n := by
  have hspace : Space k w (k.cells xs ++ b) m id rest := by
    obtain ⟨h1, h2, h3, h4, -, h6, h7, h8, h9, -⟩ := hroom
    rw [← append_assoc] at h4 h7 h9
    exact ⟨h1, h2, h3, h4, h6, h7, h8, h9⟩
  have hkept : (k.cells xs ++ b).length ≤ (n + 1) * k.csize := by
    have hmul : (xs.length + 1) * k.csize ≤ (n + 1) * k.csize :=
      Nat.mul_le_mul_right _ (by omega)
    rw [add_mul] at hmul
    rw [length_append, Kind.length_cells]
    omega
  rcases grow_space hspace hro hkept hwrap with
    ⟨w1, id1, rest1, hgrow, hframe, ⟨h1, h2, h3, h4, h5, h6, h7, h8⟩, hlen, hro1, -⟩ | hrefused
  · rw [append_assoc] at h4 h6 h8
    refine .inl ⟨w1, id1, rest1, hgrow, hframe,
      ⟨h1, h2, h3, h4, hlen.trans hroom.len, h5, h6, h7, h8, fun h => ?_⟩, hro1⟩
    rw [hro1] at h
    simp at h
  · exact .inr hrefused

/-- Growing gives room for what is asked, or is refused and changes nothing. -/
theorem grow_room {m : Nat} (hroom : Room k w xs m id rest) (hwrap : w.strbuf.NoWrap k.csize n)
    (hn : xs.length ≤ n) :
    (∃ w1 id rest, w.grow k.csize n = some (w1, true) ∧ Frame w w1 ∧ Room k w1 xs n id rest ∧
        (w1.strbuf.ro = true → w.strbuf.ro = true)) ∨
      ∃ w1, w.grow k.csize n = some (w1, false) ∧ Asked w w1 ∧ Refused k w n := by
  cases hro : w.strbuf.ro with
  | false =>
    rcases grow_own (b := []) hroom hro (Nat.zero_le _) hwrap hn with
      ⟨w1, id1, rest1, hgrow, hframe, hroom1, hro1⟩ | hrefused
    · refine .inl ⟨w1, id1, rest1, hgrow, hframe, hroom1, fun h => ?_⟩
      rw [hro1] at h
      exact h
    · exact .inr hrefused
  | true =>
    have hmod : (n + 1) % word = n + 1 :=
      Nat.mod_eq_of_lt (hwrap.lt hroom.step.1 hroom.step.2 k.csize_pos)
    have hone := hroom.ro hro
    unfold World.grow
    rw [hmod]
    by_cases hsmall : n + 1 < w.strbuf.size
    · rw [if_pos hsmall]
      exact .inl ⟨w, id, _, rfl, Frame.refl w, { hroom with room := le_of_lt hsmall },
        fun _ => rfl⟩
    rw [if_neg hsmall]
    have hbytes : (k.cells xs).length = xs.length := by rw [Kind.length_cells, hone, mul_one]
    by_cases hfull : w.strbuf.size = n + 1
    · have hresize : w.resize k.csize n = some (w, true) := by
        have hno : w.strbuf.resizes k.csize (n + 1) = false := by
          simp [EflStrbuf.resizes, hfull]
        simp only [World.resize, hmod, hno, Bool.false_eq_true, if_false]
      exact .inl ⟨w, id, _, hresize, Frame.refl w, { hroom with room := hfull.ge },
        fun _ => rfl⟩
    · rcases resize_ro_spec hro hroom.buf hroom.fresh
        hroom.own.2 hroom.block (by rw [hroom.len, hbytes]) hroom.step hwrap
        (by rw [hbytes]; exact hn) (by omega) with
        ⟨w', c', hresize, hcopies, hspace, hlen, -⟩ | hdenied
      · exact .inl ⟨w', _, c', hresize, hcopies.frame,
          hspace.toRoom (hlen.trans hroom.len) fun _ => hone, fun _ => rfl⟩
      · exact .inr (hdenied.refused hroom.step hwrap)

/-- A size that wraps or cannot be had is refused. -/
theorem grow_refuses {cells : List Cell} (h : w.Refuses k.csize n) (hbuf : w.strbuf.buf = some id)
    (hblock : w.heap.blocks id = some cells) (hfree : w.heap.locked id = false)
    (hstep : 0 < w.strbuf.step ∧ w.strbuf.step ≤ maxStep) :
    ∃ w1, w.grow k.csize n = some (w1, false) ∧ Asked w w1 ∧ Refused k w n := by
  obtain ⟨hlt, hsize, hres, hno⟩ := h
  have hmod : (n + 1) % word = n + 1 := Nat.mod_eq_of_lt hlt
  have hrefused : Refused k w n := by
    by_cases hg : w.heap.granted w.heap.asked = true
    · right
      intro hsmall
      have hwrap := hsmall.noWrap hstep.1 hstep.2
      obtain ⟨-, hle, hbytes⟩ := EflStrbuf.newSize_spec hstep.1 hstep.2 k.csize_pos hwrap
      refine hno ⟨hg, ?_⟩
      rw [Nat.mod_eq_of_lt hbytes]
      exact lt_of_le_of_lt (Nat.mul_le_mul_right _ hle) hsmall
    · exact .inl (by simpa using hg)
  have hgrow : w.grow k.csize n =
      (w.heap.realloc (if w.strbuf.ro then none else w.strbuf.buf)
        ((w.strbuf.newSize (n + 1) * k.csize) % word)).bind (w.reallocated (n + 1)) := by
    rw [World.grow, hmod, if_neg (not_lt.mpr hsize), World.resize, hmod]
    simp only [hres, if_true]
  have hasked : Asked w { w with heap := { w.heap with asked := w.heap.asked + 1 } } :=
    ⟨rfl, rfl, rfl, rfl, rfl⟩
  refine ⟨_, ?_, hasked, hrefused⟩
  rw [hgrow]
  cases hro : w.strbuf.ro with
  | true =>
    have hmalloc : w.heap.malloc ((w.strbuf.newSize (n + 1) * k.csize) % word) =
        ({ w.heap with asked := w.heap.asked + 1 }, none) := by
      rw [Heap.malloc, Heap.newBlock, length_replicate]
      exact if_neg hno
    rw [if_pos rfl, Heap.realloc, hmalloc]
    rfl
  | false =>
    rw [if_neg (by simp), hbuf, Heap.realloc, writable_eq _ hfree, hblock, map_some]
    rw [if_neg (show ¬ (_ ∧ _) from hno)]
    rfl

/-- A borrowed string is copied before it grows. -/
theorem grow_borrowed (h : Borrowed k w xs caller rest) (hwrap : w.strbuf.NoWrap k.csize n)
    (hn : xs.length < n) (hone : k.csize = 1 ∨ xs = []) :
    (∃ w1 id rest', w.grow k.csize n = some (w1, true) ∧ Copies w w1 ∧ Room k w1 xs n id rest' ∧
        w1.strbuf.ro = false) ∨
      ∃ w1, w.grow k.csize n = some (w1, false) ∧ Asked w w1 ∧ Refused k w n := by
  have hstep : 0 < w.strbuf.step ∧ w.strbuf.step ≤ maxStep := by
    rw [h.step]
    exact ⟨by decide, by decide⟩
  have hmod : (n + 1) % word = n + 1 := Nat.mod_eq_of_lt (hwrap.lt hstep.1 hstep.2 k.csize_pos)
  have hbytes : (k.cells xs).length = xs.length := by
    rw [Kind.length_cells]
    rcases hone with hc | hnil
    · rw [hc, mul_one]
    · rw [hnil, length_nil, zero_mul]
  have hsize := h.size
  unfold World.grow
  rw [if_neg (by omega)]
  rcases resize_ro_spec h.ro h.buf h.fresh h.later h.block
    (by rw [h.len, hbytes]) hstep hwrap (by rw [hbytes]; omega) (by omega) with
    ⟨w', c', hresize, hcopies, hspace, hlen, hro'⟩ | hdenied
  · refine .inl ⟨w', _, c', hresize, hcopies, hspace.toRoom (hlen.trans h.len) fun hro => ?_,
      hro'⟩
    rw [hro'] at hro
    simp at hro
  · exact Or.inr (hdenied.refused hstep hwrap)

end

end Eina.Strbuf
