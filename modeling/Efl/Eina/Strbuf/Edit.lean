/-
What the functions of all string buffers do to a sequence of units.

Every change is a few moves inside of one block.  The block is cut where the move begins
and where it ends, and the pieces are put together again as the bytes of another sequence
with a terminator behind it.
-/
import Efl.Eina.Strbuf.Room

namespace Eina.Strbuf

open CMemory List Option Kind

variable {k : Kind}

/-! ### Moves inside of the block -/

section

variable {w : World} {id pos len dst src n csize : Nat} {a b c a' b' c' cs : List Cell}
  (cells : List Cell)

/-- The world with other contents of the block and another length. -/
def World.set (w : World) (id : Nat) (cells : List Cell) (len : Nat) : World :=
  { heap := w.heap.put id cells, strbuf := { w.strbuf with len := len } }

theorem put_at (hbuf : w.strbuf.buf = some id) (hfree : w.heap.locked id = false)
    (hblock : w.heap.blocks id = some (a ++ (b ++ c))) (hpos : pos * csize = a.length)
      (hlen : cs.length = b.length) :
    w.put csize pos cs = some (w.set id (a ++ (cs ++ c)) w.strbuf.len) := by
  rw [World.put, hbuf, Heap.write_part hblock hfree hpos hlen]
  rfl

theorem shift_at (hbuf : w.strbuf.buf = some id) (hfree : w.heap.locked id = false)
    (hblock : w.heap.blocks id = some (a ++ (b ++ c)))
    (hsrc : src * csize = a.length) (hn : n * csize = b.length)
    (hsame : a ++ (b ++ c) = a' ++ (b' ++ c')) (hdst : dst * csize = a'.length)
    (hlen : b.length = b'.length) :
    w.shift csize dst src n = some (w.set id (a' ++ (b ++ c')) w.strbuf.len) := by
  have hblock' : w.heap.blocks id = some (a' ++ (b' ++ c')) := by rw [hblock, hsame]
  rw [World.shift, Heap.move, hbuf, Heap.read_part hblock hsrc hn, bind_some,
    Heap.write_part hblock' hfree hdst hlen]
  rfl

theorem finish_at (hbuf : w.strbuf.buf = some id) (hfree : w.heap.locked id = false)
    (hblock : w.heap.blocks id = some (a ++ (b ++ c))) (hlen : len * csize = a.length)
    (hb : b.length = csize) :
    w.finish csize len = some (w.set id (a ++ (List.replicate csize (some 0) ++ c)) len) := by
  rw [World.finish, World.put]
  simp only [hbuf]
  rw [Heap.write_part hblock hfree hlen (by rw [length_replicate, hb])]
  simp [World.set, hbuf]

@[simp] theorem set_len : (w.set id cells len).strbuf.len = len := rfl

@[simp] theorem set_blocks :
    (w.set id cells len).heap.blocks id = some cells := Heap.put_self _ _ _

@[simp] theorem set_set (cells cells' : List Cell) (len' : Nat) :
    (w.set id cells len).set id cells' len' = w.set id cells' len' := by
  simp [World.set]

end

section

variable {w : World} {xs ys : List k.Unit} {n id pos : Nat} {rest : List Cell}

theorem Room.set (h : Room k w xs n id rest) {cells r : List Cell}
    (hcells : cells = k.cells ys ++ (k.cells [k.zero] ++ r))
    (hlen : cells.length = (k.cells xs ++ rest).length) (hfits : ys.length + 1 ≤ w.strbuf.size) :
    Owned k (w.set id cells ys.length) ys ∧ Frame w (w.set id cells ys.length) := by
  refine ⟨⟨id, r, ?_⟩, Frame.of_put h.buf _ _ h.buf⟩
  refine ⟨h.buf, h.fresh, h.own, ?_, rfl, hfits, ?_, h.step, ?_, h.ro⟩
  · rw [set_blocks, hcells]
  · rw [← hcells, hlen]
    exact h.size
  · rw [← hcells, hlen]
    exact h.max

theorem Room.length_rest (h : Room k w xs n id rest) :
    (n + 1) * k.csize ≤ xs.length * k.csize + rest.length := by
  have hsize := h.size
  rw [length_append, length_cells] at hsize
  exact (Nat.mul_le_mul_right _ h.room).trans hsize

theorem Room.appendUnits (h : Room k w xs (xs.length + ys.length) id rest) :
    ∃ w', (w.put k.csize w.strbuf.len (k.cells ys)).bind
        (fun w1 => w1.finish k.csize (w1.strbuf.len + ys.length)) = some w' ∧
      Owned k w' (xs ++ ys) ∧ Frame w w' ∧ w'.strbuf.ro = w.strbuf.ro := by
  have hrest := h.length_rest
  have hexpand : (xs.length + ys.length + 1) * k.csize =
      xs.length * k.csize + (ys.length * k.csize + k.csize) := by ring
  obtain ⟨r1, r2, r3, hr, hr1, hr2⟩ :
      ∃ x y z, rest = x ++ (y ++ z) ∧ x.length = ys.length * k.csize ∧ y.length = k.csize :=
    exists_split (by omega)
  have hblock := h.block
  rw [hr] at hblock
  have hput : w.put k.csize w.strbuf.len (k.cells ys) =
      some (w.set id (k.cells xs ++ (k.cells ys ++ (r2 ++ r3))) w.strbuf.len) :=
    put_at h.buf h.own.1 hblock (by rw [h.len, length_cells])
      (by rw [length_cells, hr1])
  have hlast : w.strbuf.len + ys.length = (xs ++ ys).length := by rw [h.len, length_append]
  set w1 := w.set id (k.cells xs ++ (k.cells ys ++ (r2 ++ r3))) w.strbuf.len with hw1
  have hblock1 : w1.heap.blocks id = some (k.cells (xs ++ ys) ++ (r2 ++ r3)) := by
    rw [set_blocks, cells_append, append_assoc]
  have hfinish : w1.finish k.csize (xs ++ ys).length =
      some (w1.set id (k.cells (xs ++ ys) ++ (replicate k.csize (some 0) ++ r3))
        (xs ++ ys).length) :=
    finish_at h.buf h.own.1 hblock1 (by rw [length_cells]) hr2
  have hcells : k.cells (xs ++ ys) ++ (replicate k.csize (some 0) ++ r3) =
      k.cells (xs ++ ys) ++ (k.cells [k.zero] ++ r3) := by rw [cells_zero]
  obtain ⟨howned, hframe⟩ := h.set hcells
    (by
      rw [hr]
      simp only [length_append, length_replicate, length_cells, hr1, hr2]
      ring)
    (by
      rw [length_append]
      exact h.room)
  rw [hput, bind_some, set_len, hlast, hfinish, set_set]
  exact ⟨_, rfl, howned, hframe, rfl⟩

theorem Room.append (h : Room k w xs (xs.length + ys.length) id rest) :
    ∃ w', (w.put k.csize w.strbuf.len (k.cells (ys ++ [k.zero]))).map
        (fun w1 => { w1 with strbuf := { w1.strbuf with len := w1.strbuf.len + ys.length } }) =
          some w' ∧
      Owned k w' (xs ++ ys) ∧ Frame w w' ∧ w'.strbuf.ro = w.strbuf.ro := by
  have hrest := h.length_rest
  have hexpand : (xs.length + ys.length + 1) * k.csize =
      xs.length * k.csize + (ys.length * k.csize + k.csize) := by ring
  obtain ⟨r2, r3, hr, hr2⟩ : ∃ y z, rest = y ++ z ∧ y.length = ys.length * k.csize + k.csize :=
    exists_front (by omega)
  have hblock := h.block
  rw [hr] at hblock
  have hput : w.put k.csize w.strbuf.len (k.cells (ys ++ [k.zero])) =
      some (w.set id (k.cells xs ++ (k.cells (ys ++ [k.zero]) ++ r3)) w.strbuf.len) :=
    put_at h.buf h.own.1 hblock (by rw [h.len, length_cells]) (by
      rw [length_cells, hr2, length_append, length_singleton]
      ring)
  have hlast : w.strbuf.len + ys.length = (xs ++ ys).length := by rw [h.len, length_append]
  have hcells : k.cells xs ++ (k.cells (ys ++ [k.zero]) ++ r3) =
      k.cells (xs ++ ys) ++ (k.cells [k.zero] ++ r3) := by
    rw [cells_append, cells_append]
    simp only [append_assoc]
  obtain ⟨howned, hframe⟩ := h.set hcells
    (by
      rw [hr]
      simp only [length_append, length_singleton, length_cells, hr2]
      ring)
    (by
      rw [length_append]
      exact h.room)
  rw [← hlast] at howned hframe
  rw [hput]
  exact ⟨_, rfl, howned, hframe, rfl⟩

/-- **Units are replaced where there is room**: what is behind them moves, by as much as the new
ones are longer or shorter. -/
theorem Room.splice {as us bs vs : List k.Unit} (h : Room k w (as ++ (us ++ bs)) n id rest)
    (hn : (as ++ (vs ++ bs)).length ≤ n) :
    ∃ w', (w.shift k.csize (vs.length + as.length) (as.length + us.length) bs.length).bind
        (fun w1 => (w1.put k.csize as.length (k.cells vs)).bind
          fun w2 => w2.finish k.csize (w2.strbuf.len + vs.length - us.length)) = some w' ∧
      Owned k w' (as ++ (vs ++ bs)) ∧ Frame w w' ∧ w'.strbuf.ro = w.strbuf.ro := by
  have hsize := h.size
  have hroom := Nat.mul_le_mul_right k.csize h.room
  simp only [length_append, length_cells] at hsize hn
  have hneed : (as.length + (vs.length + bs.length) + 1) * k.csize ≤ (n + 1) * k.csize :=
    Nat.mul_le_mul_right _ (by omega)
  have hexpand : (as.length + (vs.length + bs.length) + 1) * k.csize =
      as.length * k.csize + (vs.length * k.csize + bs.length * k.csize) + k.csize := by ring
  have hexpand' : (as.length + (us.length + bs.length)) * k.csize =
      as.length * k.csize + (us.length * k.csize + bs.length * k.csize) := by ring
  have hcells : k.cells (as ++ (us ++ bs)) ++ rest =
      (k.cells as ++ k.cells us) ++ (k.cells bs ++ rest) := by
    simp only [cells_append, append_assoc]
  -- what is behind the place goes where the new units end
  obtain ⟨p, q, r, hcut, hp, hq⟩ : ∃ p q r, k.cells us ++ (k.cells bs ++ rest) = p ++ (q ++ r) ∧
      p.length = vs.length * k.csize ∧ q.length = bs.length * k.csize :=
    exists_split (by
      simp only [length_append, length_cells]
      omega)
  have hcutlen := congrArg List.length hcut
  simp only [length_append, length_cells, hq] at hcutlen
  have hsame : (k.cells as ++ k.cells us) ++ (k.cells bs ++ rest) =
      (k.cells as ++ p) ++ (q ++ r) := by
    rw [append_assoc, hcut, append_assoc]
  have hshift : w.shift k.csize (vs.length + as.length) (as.length + us.length) bs.length =
      some (w.set id ((k.cells as ++ p) ++ (k.cells bs ++ r)) w.strbuf.len) :=
    shift_at h.buf h.own.1 (h.block.trans (congrArg some hcells))
      (by
        rw [length_append, length_cells, length_cells]
        ring)
      (by rw [length_cells]) hsame
      (by
        rw [length_append, length_cells, hp]
        ring)
      (by rw [length_cells, hq])
  set w1 := w.set id ((k.cells as ++ p) ++ (k.cells bs ++ r)) w.strbuf.len with hw1
  have hblock1 : w1.heap.blocks id = some (k.cells as ++ (p ++ (k.cells bs ++ r))) := by
    rw [hw1, set_blocks, append_assoc]
  have hput : w1.put k.csize as.length (k.cells vs) =
      some (w1.set id (k.cells as ++ (k.cells vs ++ (k.cells bs ++ r))) w1.strbuf.len) :=
    put_at h.buf h.own.1 hblock1 (by rw [length_cells]) (by rw [length_cells, hp])
  obtain ⟨r2, r3, hr, hr2⟩ : ∃ y z, r = y ++ z ∧ y.length = k.csize :=
    exists_front (by omega)
  set w2 := w1.set id (k.cells as ++ (k.cells vs ++ (k.cells bs ++ r))) w1.strbuf.len with hw2
  have hblock2 : w2.heap.blocks id = some (k.cells (as ++ (vs ++ bs)) ++ (r2 ++ r3)) := by
    rw [hw2, set_blocks, hr]
    simp only [cells_append, append_assoc]
  have hfinish : w2.finish k.csize (as ++ (vs ++ bs)).length =
      some (w2.set id (k.cells (as ++ (vs ++ bs)) ++ (replicate k.csize (some 0) ++ r3))
        (as ++ (vs ++ bs)).length) :=
    finish_at h.buf h.own.1 hblock2 (by rw [length_cells]) hr2
  have hlen := h.len
  have hlast : w2.strbuf.len + vs.length - us.length = (as ++ (vs ++ bs)).length := by
    rw [hw2, set_len, hw1, set_len]
    simp only [length_append] at hlen ⊢
    omega
  have hcells' : k.cells (as ++ (vs ++ bs)) ++ (List.replicate k.csize (some 0) ++ r3) =
      k.cells (as ++ (vs ++ bs)) ++ (k.cells [k.zero] ++ r3) := by rw [cells_zero]
  obtain ⟨howned, hframe⟩ := h.set hcells'
    (by
      rw [hr] at hcutlen
      simp only [length_append, length_replicate, length_cells] at hcutlen ⊢
      have hmul : (as.length + (vs.length + bs.length)) * k.csize =
          as.length * k.csize + (vs.length * k.csize + bs.length * k.csize) := by ring
      omega)
    (by
      have hroom := h.room
      simp only [length_append]
      omega)
  rw [hshift, bind_some, hput, bind_some, hlast, hfinish, set_set, set_set]
  exact ⟨_, rfl, howned, hframe, rfl⟩

theorem Room.keep {as ms bs : List k.Unit} (h : Room k w (as ++ (ms ++ bs)) n id rest)
    (hn : (as ++ (ms ++ bs)).length ≤ n) :
    ∃ w', (w.shift k.csize 0 as.length ms.length).bind
        (fun w1 => w1.finish k.csize ms.length) = some w' ∧
      Owned k w' ms ∧ Frame w w' ∧ w'.strbuf.ro = w.strbuf.ro := by
  have hsize := h.size
  have hroom := Nat.mul_le_mul_right k.csize h.room
  have hneed : ((as ++ (ms ++ bs)).length + 1) * k.csize ≤ (n + 1) * k.csize :=
    Nat.mul_le_mul_right _ (by omega)
  have hexpand : ((as ++ (ms ++ bs)).length + 1) * k.csize =
      as.length * k.csize + (ms.length * k.csize + bs.length * k.csize) + k.csize := by
    simp only [length_append]
    ring
  have hcells : k.cells (as ++ (ms ++ bs)) ++ rest =
      k.cells as ++ (k.cells ms ++ (k.cells bs ++ rest)) := by
    simp only [cells_append, append_assoc]
  rw [hcells] at hsize
  simp only [length_append, length_cells] at hsize
  obtain ⟨p, q, r, hcut, hp, hq⟩ :
      ∃ p q r, k.cells as ++ (k.cells ms ++ (k.cells bs ++ rest)) = p ++ (q ++ r) ∧
        p.length = ms.length * k.csize ∧ q.length = k.csize :=
    exists_split (by
      simp only [length_append, length_cells]
      omega)
  have hcutlen := congrArg length hcut
  simp only [length_append, length_cells, hp, hq] at hcutlen
  have hsame : k.cells as ++ (k.cells ms ++ (k.cells bs ++ rest)) = [] ++ (p ++ (q ++ r)) := by
    rw [hcut, nil_append]
  have hshift : w.shift k.csize 0 as.length ms.length =
      some (w.set id ([] ++ (k.cells ms ++ (q ++ r))) w.strbuf.len) :=
    shift_at h.buf h.own.1 (h.block.trans (congrArg some hcells)) (by rw [length_cells])
      (by rw [length_cells]) hsame (by rw [zero_mul, length_nil])
      (by rw [length_cells, hp])
  set w1 := w.set id ([] ++ (k.cells ms ++ (q ++ r))) w.strbuf.len with hw1
  have hblock1 : w1.heap.blocks id = some (k.cells ms ++ (q ++ r)) := by
    rw [set_blocks, nil_append]
  have hfinish : w1.finish k.csize ms.length =
      some (w1.set id (k.cells ms ++ (replicate k.csize (some 0) ++ r)) ms.length) :=
    finish_at h.buf h.own.1 hblock1 (by rw [length_cells]) hq
  have hcells' : k.cells ms ++ (replicate k.csize (some 0) ++ r) =
      k.cells ms ++ (k.cells [k.zero] ++ r) := by rw [cells_zero]
  obtain ⟨howned, hframe⟩ := h.set hcells'
    (by
      rw [hcells]
      simp only [length_append, length_replicate, length_cells]
      omega)
    (by
      have hroom := h.room
      simp only [length_append] at hn
      omega)
  rw [hshift, bind_some, hfinish, set_set]
  exact ⟨_, rfl, howned, hframe, rfl⟩

theorem Room.close {as us bs : List k.Unit}
    (h : Room k w (as ++ (us ++ bs)) n id (k.cells [k.zero] ++ rest)) :
    ∃ r, w.shift k.csize as.length (as.length + us.length) (bs.length + 1) =
        some (w.set id (k.cells (as ++ bs) ++ (k.cells [k.zero] ++ r)) w.strbuf.len) ∧
      (k.cells (as ++ bs) ++ (k.cells [k.zero] ++ r)).length =
        (k.cells (as ++ (us ++ bs)) ++ (k.cells [k.zero] ++ rest)).length := by
  have hcells : k.cells (as ++ (us ++ bs)) ++ (k.cells [k.zero] ++ rest) =
      (k.cells as ++ k.cells us) ++ (k.cells (bs ++ [k.zero]) ++ rest) := by
    simp only [cells_append, append_assoc]
  obtain ⟨q, r, hcut, hq⟩ : ∃ q r, k.cells us ++ (k.cells (bs ++ [k.zero]) ++ rest) = q ++ r ∧
      q.length = (bs.length + 1) * k.csize :=
    exists_front (by
      simp only [length_append, length_cells, length_singleton]
      omega)
  have hlen : (k.cells (bs ++ [k.zero])).length = (bs.length + 1) * k.csize := by
    rw [length_cells, length_append, length_singleton]
  have hmoved : (k.cells as ++ k.cells us) ++ (k.cells (bs ++ [k.zero]) ++ rest) =
      k.cells as ++ (q ++ r) := by rw [append_assoc, hcut]
  have hshift : w.shift k.csize as.length (as.length + us.length) (bs.length + 1) =
      some (w.set id (k.cells as ++ (k.cells (bs ++ [k.zero]) ++ r)) w.strbuf.len) :=
    shift_at h.buf h.own.1 (h.block.trans (congrArg some hcells))
      (by
        rw [length_append, length_cells, length_cells]
        ring)
      hlen.symm hmoved (by rw [length_cells]) (by rw [hlen, hq])
  have hsame : k.cells as ++ (k.cells (bs ++ [k.zero]) ++ r) =
      k.cells (as ++ bs) ++ (k.cells [k.zero] ++ r) := by
    simp only [cells_append, append_assoc]
  refine ⟨r, by rw [hshift, hsame], ?_⟩
  have hcutlen := congrArg length hcut
  rw [hcells, ← hsame]
  simp only [length_append] at hcutlen ⊢
  omega

end

end Eina.Strbuf
