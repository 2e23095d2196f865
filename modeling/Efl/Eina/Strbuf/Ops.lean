/-
What the calls of all string buffers do to the units.

A call that adds units makes room and then moves and copies; whatever happened while room
was made, the second part sees a block with the units in front and room behind them.  So a
call is described by what its second part does with such a block (`Makes`), and a buffer of
its own and a buffer over the memory of a caller differ only in how the room is made.
-/
import Efl.Eina.Strbuf.Edit

namespace Eina.Strbuf

open CMemory List Option Kind

variable {k : Kind}

/-! ### The calls -/

/-- The units at a position, or at the end where there is no such position. -/
def insertAt {α : Type} (pos : Nat) (ys xs : List α) : List α := xs.take pos ++ ys ++ xs.drop pos

/-- What is left once the units from one position to another are gone. -/
def removed {α : Type} (start stop : Nat) (xs : List α) : List α :=
  if stop ≤ start then xs else xs.take start ++ xs.drop stop

/-- The calls that add units.  The ones that prepend insert at position 0, and slices and other
buffers are added by the calls that are given a length. -/
inductive Text (k : Kind)
  | append (str : List k.Unit)
  | appendN (str : List k.Unit) (maxlen : Nat)
  | appendLength (units : List k.Unit)
  | appendChar (c : k.Unit)
  | insert (str : List k.Unit) (pos : Nat)
  | insertN (str : List k.Unit) (maxlen pos : Nat)
  | insertLength (units : List k.Unit) (pos : Nat)
  | insertChar (c : k.Unit) (pos : Nat)

namespace Text

def call (w : World) : Text k → Outcome
  | append str => Strbuf.append k w str
  | appendN str maxlen => Strbuf.appendN k w str maxlen
  | appendLength units => Strbuf.appendLength k w units
  | appendChar c => Strbuf.appendChar k w c
  | insert str pos => Strbuf.insert k w str pos
  | insertN str maxlen pos => Strbuf.insertN k w str maxlen pos
  | insertLength units pos => Strbuf.insertLength k w units pos
  | insertChar c pos => Strbuf.insertChar k w c pos

/-- The units a call adds. -/
def units : Text k → List k.Unit
  | append str => k.string str
  | appendN str maxlen => (k.string str).take maxlen
  | appendLength units => units
  | appendChar c => [c]
  | insert str _ => k.string str
  | insertN str maxlen _ => (k.string str).take maxlen
  | insertLength units _ => units
  | insertChar c _ => [c]

/-- Where it adds them. -/
def pos (len : Nat) : Text k → Nat
  | append _ | appendN _ _ | appendLength _ | appendChar _ => len
  | insert _ pos | insertN _ _ pos | insertLength _ pos | insertChar _ pos => pos

end Text

/-! ### What is done once there is room -/

/-- Where there is room, the units become others. -/
def Makes (k : Kind) (xs zs : List k.Unit) (f : World → Option World) : Prop :=
  ∀ w n id rest, Room k w xs n id rest → zs.length ≤ n →
    ∃ w', f w = some w' ∧ Owned k w' zs ∧ Frame w w' ∧ w'.strbuf.ro = w.strbuf.ro

namespace Kind

variable (str : List k.Unit)

theorem take_string :
    (str ++ [k.zero]).take (k.strlen str + 1) = k.string str ++ [k.zero] := by
  unfold strlen string
  induction str with
  | nil => simp
  | cons c str ih =>
    by_cases hc : c = k.zero
    · simp [hc]
    simp only [ne_eq, hc, not_false_eq_true, decide_true, takeWhile_cons_of_pos,
      length_cons, cons_append, take_succ_cons]
    rw [ih]

theorem take_string_of_le {n : Nat} (hn : n ≤ k.strlen str) :
    (str ++ [k.zero]).take n = (k.string str).take n := by
  have h := congrArg (take n) (take_string str)
  rw [take_take, min_eq_left (by omega), take_append_of_le_length hn] at h
  exact h

end Kind

section

variable {w : World} {xs ys : List k.Unit} {n id pos : Nat} {rest : List Cell} {start stop : Nat}
  {cs : List Cell} {len : Nat} {m : Nat} (t : Text k)

theorem makes_append (str : List k.Unit) :
    Makes k xs (xs ++ k.string str) fun w =>
      (w.put k.csize w.strbuf.len
          ((k.cells (str ++ [k.zero])).take ((k.strlen str + 1) * k.csize))).map fun w =>
        { w with strbuf := { w.strbuf with len := w.strbuf.len + k.strlen str } } := by
  intro w n id rest h hn
  rw [length_append] at hn
  rw [take_cells, take_string]
  exact Room.append { h with room := (Nat.succ_le_succ hn).trans h.room }

theorem makes_appendUnits (hcs : cs.take (len * k.csize) = k.cells ys)
    (hlen : ys.length = len) :
    Makes k xs (xs ++ ys) fun w =>
      (w.put k.csize w.strbuf.len (cs.take (len * k.csize))).bind fun w =>
        w.finish k.csize (w.strbuf.len + len) := by
  intro w n id rest h hn
  rw [length_append] at hn
  rw [hcs, ← hlen]
  exact Room.appendUnits { h with room := (Nat.succ_le_succ hn).trans h.room }

theorem makes_insertRoom (hcs : cs.take (len * k.csize) = k.cells ys)
    (hlen : ys.length = len) (hpos : pos ≤ xs.length) :
    Makes k xs (insertAt pos ys xs) fun w =>
      (w.shift k.csize (len + pos) pos (w.strbuf.len - pos)).bind fun w =>
        (w.put k.csize pos (cs.take (len * k.csize))).bind fun w =>
          w.finish k.csize (w.strbuf.len + len) := by
  intro w n id rest h hn
  have hlast : (xs.drop pos).length = w.strbuf.len - pos := by rw [length_drop, h.len]
  have hfront : (xs.take pos).length = pos := by rw [length_take, min_eq_left hpos]
  have hxs : xs = xs.take pos ++ ([] ++ xs.drop pos) := by
    rw [nil_append, take_append_drop]
  rw [hxs] at h
  have hzs : insertAt pos ys xs = xs.take pos ++ (ys ++ xs.drop pos) := by
    rw [insertAt, append_assoc]
  rw [hzs] at hn ⊢
  have hspec := Room.splice h hn
  rw [hlast, hfront, hlen] at hspec
  rw [hcs]
  exact hspec

/-- **What a call does that adds units**: it makes room for them and puts them where they belong. -/
theorem Text.call_eq (hlen : w.strbuf.len = xs.length) :
    ∃ f, t.call w = w.withRoom k.csize (xs.length + t.units.length) f ∧
      Makes k xs (insertAt (t.pos xs.length) t.units xs) f := by
  have hend : ∀ (ys : List k.Unit) {p : Nat}, xs.length ≤ p → insertAt p ys xs = xs ++ ys := by
    intro ys p hp
    rw [insertAt, take_of_length_le hp, drop_eq_nil_of_le hp, append_nil]
  have hshort : ∀ (str : List k.Unit) (maxlen : Nat),
      (k.cells (str ++ [k.zero])).take (min (k.strlen str) maxlen * k.csize) =
          k.cells ((k.string str).take maxlen) ∧
        ((k.string str).take maxlen).length = min (k.strlen str) maxlen := by
    intro str maxlen
    have hcount : ((k.string str).take maxlen).length = min (k.strlen str) maxlen := by
      rw [length_take, min_comm]
      rfl
    refine ⟨?_, hcount⟩
    rw [take_cells, take_string_of_le str (min_le_left _ _)]
    refine congrArg _ (take_eq_take_iff.mpr ?_)
    unfold Kind.strlen
    omega
  have hstr : ∀ str : List k.Unit,
      (k.cells (str ++ [k.zero])).take (k.strlen str * k.csize) = k.cells (k.string str) := by
    intro str
    rw [take_cells, take_string_of_le str le_rfl]
    exact congrArg _ (take_of_length_le le_rfl)
  have hall : ∀ ys : List k.Unit, (k.cells ys).take (ys.length * k.csize) = k.cells ys := by
    intro ys
    rw [take_cells, take_length]
  have happend : ∀ str : List k.Unit, ∃ f,
      Strbuf.append k w str = w.withRoom k.csize (xs.length + (k.string str).length) f ∧
        Makes k xs (xs ++ k.string str) f := by
    intro str
    refine ⟨_, ?_, makes_append str⟩
    rw [Strbuf.append, hlen]
    rfl
  have hunits : ∀ (cs : List Cell) (len : Nat) (ys : List k.Unit),
      cs.take (len * k.csize) = k.cells ys → ys.length = len → ∃ f,
        w.appendUnits k.csize cs len = w.withRoom k.csize (xs.length + ys.length) f ∧
          Makes k xs (xs ++ ys) f := by
    intro cs len ys hcs hys
    refine ⟨_, ?_, makes_appendUnits hcs hys⟩
    rw [World.appendUnits, hlen, hys]
  have hroom : ∀ (cs : List Cell) (len : Nat) (ys : List k.Unit) (p : Nat),
      cs.take (len * k.csize) = k.cells ys → ys.length = len → ¬ xs.length ≤ p → ∃ f,
        w.insertRoom k.csize cs len p = w.withRoom k.csize (xs.length + ys.length) f ∧
          Makes k xs (insertAt p ys xs) f := by
    intro cs len ys p hcs hys hp
    refine ⟨_, ?_, makes_insertRoom hcs hys (Nat.le_of_not_le hp)⟩
    rw [World.insertRoom, hlen, hys]
  cases t with
  | append str =>
    rw [show Text.pos xs.length (.append str) = xs.length from rfl, hend _ le_rfl]
    exact happend str
  | appendN str maxlen =>
    rw [show Text.pos xs.length (.appendN str maxlen) = xs.length from rfl, hend _ le_rfl]
    exact hunits _ _ _ (hshort str maxlen).1 (hshort str maxlen).2
  | appendLength units =>
    rw [show Text.pos xs.length (.appendLength units) = xs.length from rfl, hend _ le_rfl]
    exact hunits _ _ _ (hall units) rfl
  | appendChar c =>
    rw [show Text.pos xs.length (.appendChar c) = xs.length from rfl, hend _ le_rfl]
    exact hunits _ _ _ (hall [c]) rfl
  | insert str pos =>
    simp only [call, Strbuf.insert, hlen, Text.pos]
    split
    · rename_i hp
      rw [hend _ hp]
      exact happend str
    · rename_i hp
      exact hroom _ _ _ _ (hstr str) rfl hp
  | insertN str maxlen pos =>
    simp only [call, Strbuf.insertN, hlen, Text.pos]
    split
    · rename_i hp
      rw [hend _ hp]
      exact hunits _ _ _ (hshort str maxlen).1 (hshort str maxlen).2
    · rename_i hp
      exact hroom _ _ _ _ (hshort str maxlen).1 (hshort str maxlen).2 hp
  | insertLength units pos =>
    simp only [call, Strbuf.insertLength, hlen, Text.pos]
    split
    · rename_i hp
      rw [hend _ hp]
      exact hunits _ _ _ (hall units) rfl
    · rename_i hp
      exact hroom _ _ _ _ (hall units) rfl hp
  | insertChar c pos =>
    simp only [call, Strbuf.insertChar, hlen, Text.pos]
    split
    · rename_i hp
      rw [hend _ hp]
      exact hunits _ _ _ (hall [c]) rfl
    · rename_i hp
      exact hroom _ _ _ _ (hall [c]) rfl hp

/-! ### Adding to a buffer -/

/-- The units are others, or nothing has changed and a request was refused. -/
def Changes (k : Kind) (w : World) (ys : List k.Unit) (n : Nat) (r : Outcome) : Prop :=
  (∃ w', r = some (w', true) ∧ Owned k w' ys ∧ Frame w w' ∧
      (w'.strbuf.ro = true → w.strbuf.ro = true)) ∨
    ∃ w', r = some (w', false) ∧ Asked w w' ∧ Refused k w n

/-- The blocks there were stay what they are, and the buffer is in none of them. -/
structure Kept (w w' : World) : Prop where
  granted : w'.heap.granted = w.heap.granted
  locked : w'.heap.locked = w.heap.locked
  asked : w.heap.asked ≤ w'.heap.asked
  blocks : ∀ c < w.heap.asked,
    w'.strbuf.buf ≠ some c ∧ w'.heap.blocks c = w.heap.blocks c

theorem Copies.kept {w1 w' : World} (h : Copies w w1) (hframe : Frame w1 w') : Kept w w' := by
  refine ⟨hframe.granted.trans h.granted, hframe.locked.trans h.locked,
    h.asked.le.trans hframe.asked, ?_⟩
  intro c hc
  have hne : w1.strbuf.buf ≠ some c := by
    rw [h.buf]
    intro heq
    exact absurd (some.inj heq) (ne_of_gt hc)
  obtain ⟨hne', hsame⟩ := hframe.blocks c (hc.trans h.asked) hne
  exact ⟨hne', hsame.trans (h.blocks c hc)⟩

theorem withRoom_owned {f : World → Option World} (hroom : Room k w xs m id rest)
    (hfits : w.Fits k.csize n) (hn : xs.length ≤ n) (hys : ys.length ≤ n) (hf : Makes k xs ys f) :
    Changes k w ys n (w.withRoom k.csize n f) := by
  unfold World.withRoom
  have hgrows := hfits.elim (fun hwrap => grow_room hroom hwrap hn) fun hrefuses =>
    .inr (grow_refuses hrefuses hroom.buf hroom.block hroom.own.1 hroom.step)
  rcases hgrows with
    ⟨w1, id1, rest1, hgrow, hframe, hroom1, hro⟩ | ⟨w1, hgrow, hasked, hrefused⟩
  · obtain ⟨w', hw', howned, hframe', hro'⟩ := hf w1 n id1 rest1 hroom1 hys
    refine .inl ⟨w', ?_, howned, hframe.trans hframe', ?_⟩
    · rw [hgrow, bind_some, if_pos rfl, hw', map_some]
    · rw [hro']
      exact hro
  · refine .inr ⟨w1, ?_, hasked, hrefused⟩
    rw [hgrow, bind_some, if_neg (by simp)]

/-- **Adding units to a buffer of its own.** -/
theorem Text.call_owned (h : Owned k w xs)
    (hfits : w.Fits k.csize (xs.length + t.units.length)) :
    Changes k w (insertAt (t.pos xs.length) t.units xs) (xs.length + t.units.length)
      (t.call w) := by
  obtain ⟨id, rest, hroom⟩ := h
  obtain ⟨f, hcall, hf⟩ := t.call_eq hroom.len
  have hlen : (insertAt (t.pos xs.length) t.units xs).length = xs.length + t.units.length := by
    simp only [insertAt, length_append, length_take, length_drop]
    omega
  rw [hcall]
  exact withRoom_owned hroom hfits (Nat.le_add_right _ _) hlen.le hf

/-- **Adding units to the memory of a caller**: it is copied first. -/
theorem Text.call_borrowed {caller : Nat} (h : Borrowed k w xs caller rest)
    (hwrap : w.strbuf.NoWrap k.csize (xs.length + t.units.length)) (hne : t.units ≠ [])
    (hone : k.csize = 1 ∨ xs = []) :
    (∃ w', t.call w = some (w', true) ∧ Owned k w' (insertAt (t.pos xs.length) t.units xs) ∧
        Kept w w' ∧ w'.strbuf.ro = false) ∨
      ∃ w', t.call w = some (w', false) ∧ Asked w w' ∧
        Refused k w (xs.length + t.units.length) := by
  obtain ⟨f, hcall, hf⟩ := t.call_eq h.len
  have hlen : (insertAt (t.pos xs.length) t.units xs).length = xs.length + t.units.length := by
    simp only [insertAt, length_append, length_take, length_drop]
    omega
  have hmore : xs.length < xs.length + t.units.length :=
    Nat.lt_add_of_pos_right (length_pos_of_ne_nil hne)
  rw [hcall, World.withRoom]
  rcases grow_borrowed h hwrap hmore hone with
    ⟨w1, id1, rest1, hgrow, hcopies, hroom1, hro1⟩ | ⟨w1, hgrow, hasked, hrefused⟩
  · obtain ⟨w', hw', howned, hframe, hro⟩ := hf w1 _ id1 rest1 hroom1 hlen.le
    refine .inl ⟨w', ?_, howned, hcopies.kept hframe, hro.trans hro1⟩
    rw [hgrow, bind_some, if_pos rfl, hw', map_some]
  · refine .inr ⟨w1, ?_, hasked, hrefused⟩
    rw [hgrow, bind_some, if_neg (by simp)]

/-! ### Room for the caller to write into -/

/-- **The slice begins behind the units**, and is as long as was asked for. -/
theorem expand_owned (h : Owned k w xs) (hro : w.strbuf.ro = false)
    (hfits : w.Fits k.csize (xs.length + n)) :
    (∃ w' len, expand k w n = some (w', some (xs.length * k.csize, len)) ∧ n ≤ len ∧
        Owned k w' xs ∧ Frame w w' ∧ w'.strbuf.ro = false) ∨
      ∃ w', expand k w n = some (w', none) ∧ Asked w w' ∧ Refused k w (xs.length + n) := by
  obtain ⟨id, rest, hroom⟩ := h
  have hlt : xs.length + n + 1 < word := by
    rcases hfits with hwrap | hrefuses
    · exact hwrap.lt hroom.step.1 hroom.step.2 k.csize_pos
    · exact hrefuses.1
  have hmod : (xs.length + n) % word = xs.length + n := Nat.mod_eq_of_lt (by omega)
  have hslice : ∀ {w1 : World} {id1 : Nat} {rest1 : List Cell},
      Room k w1 xs (xs.length + n) id1 (k.cells [k.zero] ++ rest1) →
        n ≤ w1.strbuf.size - w1.strbuf.len - 1 ∧ Owned k w1 xs := by
    intro w1 id1 rest1 hroom1
    have hsize := hroom1.room
    refine ⟨?_, id1, rest1, { hroom1 with room := by omega }⟩
    rw [hroom1.len]
    omega
  have hgrown : w.strbuf.size ≤ xs.length + n →
      (∃ w1 id1 rest1, w.grow k.csize (xs.length + n) = some (w1, true) ∧ Frame w w1 ∧
          Room k w1 xs (xs.length + n) id1 (k.cells [k.zero] ++ rest1) ∧
          w1.strbuf.ro = false) ∨
        ∃ w1, w.grow k.csize (xs.length + n) = some (w1, false) ∧ Asked w w1 ∧
          Refused k w (xs.length + n) := by
    intro
    rcases hfits with hwrap | hrefuses
    · exact grow_own hroom hro (by simp) hwrap (Nat.le_add_right _ _)
    · exact .inr (grow_refuses hrefuses hroom.buf hroom.block hroom.own.1 hroom.step)
  unfold expand
  rw [hroom.len, hmod]
  by_cases hsmall : xs.length + n < w.strbuf.size
  · obtain ⟨hn, howned⟩ := hslice { hroom with room := hsmall }
    refine .inl ⟨w, w.strbuf.size - w.strbuf.len - 1, ?_, hn, howned, Frame.refl w, hro⟩
    rw [if_pos hsmall, ← hroom.len]
  rw [if_neg hsmall]
  rcases hgrown (Nat.le_of_not_lt hsmall) with
    ⟨w1, id1, rest1, hgrow, hframe, hroom1, hro1⟩ | ⟨w1, hgrow, hasked, hrefused⟩
  · obtain ⟨hn, howned⟩ := hslice hroom1
    refine .inl ⟨w1, w1.strbuf.size - w1.strbuf.len - 1, ?_, hn, howned, hframe, hro1⟩
    rw [hgrow, map_some, if_pos rfl, ← hroom1.len]
  · refine .inr ⟨w1, ?_, hasked, hrefused⟩
    rw [hgrow]
    rfl

/-! ### Taking units out -/

theorem init_spec (hgrants : w.heap.Grants (k.csize * initSize)) (hlater : w.heap.Later) :
    ∃ w', init k.csize w = (w', true) ∧ Owned k w' [] ∧ w'.strbuf.ro = false ∧
      w'.strbuf.buf = some w.heap.asked ∧ w'.heap.granted = w.heap.granted ∧
      w'.heap.locked = w.heap.locked ∧ w'.heap.asked = w.heap.asked + 1 ∧
      ∀ c < w.heap.asked, w'.heap.blocks c = w.heap.blocks c := by
  have hcalloc : w.heap.calloc (k.csize * initSize) =
      ({ w.heap.put w.heap.asked (replicate (k.csize * initSize) (some 0)) with
        asked := w.heap.asked + 1 }, some w.heap.asked) := by
    rw [Heap.calloc, Heap.newBlock, length_replicate]
    exact if_pos hgrants
  have hsplit : replicate (k.csize * initSize) (some 0) =
      k.cells [] ++ (k.cells [k.zero] ++ replicate (k.csize * (initSize - 1)) (some 0)) := by
    rw [cells_zero, ← replicate_add, cells_nil, nil_append]
    have hinit : initSize = initSize - 1 + 1 := by decide
    rw [hinit]
    simp only [Nat.add_sub_cancel]
    rw [Nat.mul_succ, Nat.add_comm]
  have hlen : (replicate (k.csize * initSize) (some (0 : UInt8))).length =
      k.csize * initSize := length_replicate
  have hroom : 0 + 1 ≤ initSize := by decide
  have hstep : 0 < initStep ∧ initStep ≤ maxStep := by decide
  refine ⟨
    { heap := { w.heap.put w.heap.asked (replicate (k.csize * initSize) (some 0)) with
        asked := w.heap.asked + 1 }
      strbuf :=
        { buf := some w.heap.asked, len := 0, size := initSize, step := initStep, ro := false } },
    by rw [init, hcalloc]; rfl,
    ⟨w.heap.asked, replicate (k.csize * (initSize - 1)) (some 0), ?_⟩, rfl, rfl, rfl, rfl, rfl, ?_⟩
  · refine ⟨rfl, Nat.lt_succ_self _, ⟨hlater _ le_rfl, hlater.mono rfl (Nat.le_succ _)⟩, ?_,
      rfl, hroom, ?_, hstep, ?_, fun h => ?_⟩
    · rw [← hsplit]
      exact Heap.put_self _ _ _
    · rw [← hsplit, hlen, mul_comm]
    · rw [← hsplit, hlen]
      exact hgrants.2
    · simp at h
  · intro c hc
    exact Heap.put_of_ne _ (ne_of_lt hc) _

/-- What taking units out asks for is granted: all the memory a buffer begins with where every
unit goes, and where some stay, the block these are moved to. -/
def RemoveGranted (k : Kind) (w : World) (start stop : Nat) : Prop :=
  let stop := min stop w.strbuf.len
  let len := w.strbuf.len - (stop - start)
  start < stop →
    if len = 0 then w.heap.Grants (k.csize * initSize)
    else w.strbuf.resizes k.csize (len + 1) = true →
      w.heap.Grants (w.strbuf.newSize (len + 1) * k.csize)

instance (w : World) (start stop : Nat) : Decidable (RemoveGranted k w start stop) := by
  unfold RemoveGranted
  exact inferInstance

theorem removed_of_le (h : min stop xs.length ≤ start) :
    removed start stop xs = xs := by
  unfold removed
  split
  · rfl
  · have hlong : xs.length ≤ start := by omega
    rw [take_of_length_le hlong, drop_eq_nil_of_le (by omega), append_nil]

theorem ownCopy_eq (hro : w.strbuf.ro = false) (cleared : Bool) :
    w.ownCopy cleared = some (w, true) := by
  rw [World.ownCopy, if_neg (by rw [hro]; simp)]

theorem withOwn_eq (hro : w.strbuf.ro = false) (cleared : Bool) (f : World → Outcome) :
    w.withOwn cleared f = f w := by
  rw [World.withOwn, ownCopy_eq hro]
  rfl

/-- **Taking units out of a buffer of its own.** -/
theorem remove_owned (h : Owned k w xs) (hro : w.strbuf.ro = false)
    (hgranted : RemoveGranted k w start stop) :
    ∃ w', remove k w start stop = some (w', true) ∧ Owned k w' (removed start stop xs) ∧
      Frame w w' ∧ w'.strbuf.ro = false := by
  have howned := h
  obtain ⟨id, rest, hroom⟩ := h
  have hstop : (if w.strbuf.len ≤ stop then w.strbuf.len else stop) = min stop w.strbuf.len := by
    split_ifs <;> omega
  have hdrop : xs.drop stop = xs.drop (min stop w.strbuf.len) := by
    by_cases hle : stop ≤ w.strbuf.len
    · rw [min_eq_left hle]
    · rw [Nat.min_eq_right (by omega), hroom.len, drop_length,
        drop_eq_nil_of_le (by rw [← hroom.len]; omega)]
  unfold remove
  rw [hstop]
  set stop' := min stop w.strbuf.len with hstop'
  have hle' : stop' ≤ xs.length := by
    rw [← hroom.len]
    omega
  by_cases hnone : stop' ≤ start
  · rw [if_pos hnone]
    refine ⟨w, rfl, ?_, Frame.refl w, hro⟩
    have hsame : removed start stop xs = xs := by
      refine removed_of_le ?_
      rw [← hroom.len]
      exact hnone
    rw [hsame]
    exact howned
  rw [if_neg hnone]
  have hlt : start < stop' := Nat.lt_of_not_le hnone
  specialize hgranted hlt
  have hresult : removed start stop xs = xs.take start ++ xs.drop stop' := by
    rw [removed, if_neg (by omega), hdrop]
  rw [hresult]
  rw [withOwn_eq hro]
  by_cases hall : stop' - start = w.strbuf.len
  · -- the block is given back, and the buffer begins anew
    rw [if_pos hall]
    rw [if_pos (by omega)] at hgranted
    rw [hroom.buf, Heap.free, Heap.writable_eq _ hroom.own.1, hroom.block, map_some,
      map_some]
    set h1 : Heap := { w.heap with blocks := Function.update w.heap.blocks id none } with hh1
    have hempty : xs.take start ++ xs.drop stop' = [] := by
      have hlen := hroom.len
      rw [append_eq_nil_iff]
      refine ⟨?_, drop_eq_nil_of_le (by omega)⟩
      rw [show start = 0 by omega, take_zero]
    obtain ⟨w', hinit, hown', hro', hbuf, hgr, hlocked, hasked, hsame⟩ :=
      init_spec (w := { w with heap := h1 }) hgranted hroom.own.2
    rw [hinit, hempty]
    refine ⟨w', rfl, hown', ⟨hgr, hlocked, ?_, ?_⟩, hro'⟩
    · rw [hasked]
      exact Nat.le_succ _
    · intro c hc hne
      rw [hroom.buf] at hne
      have hcid : c ≠ id := fun heq => hne (by rw [heq])
      refine ⟨?_, (hsame c hc).trans (Function.update_of_ne hcid _ _)⟩
      rw [hbuf]
      exact fun heq => absurd (some.inj heq) (ne_of_gt hc)
  · rw [if_neg hall]
    rw [if_neg (by omega)] at hgranted
    have hbs : (xs.drop stop').length + 1 = w.strbuf.len - stop' + 1 := by
      rw [length_drop, hroom.len]
    have hcut : xs = xs.take start ++ ((xs.drop start).take (stop' - start) ++ xs.drop stop') := by
      have hstop2 : xs.drop stop' = (xs.drop start).drop (stop' - start) := by
        rw [drop_drop]
        congr 1
        omega
      rw [hstop2, take_append_drop, take_append_drop]
    set as := xs.take start with has
    set us := (xs.drop start).take (stop' - start) with hus
    set bs := xs.drop stop' with hbsdef
    have haslen : as.length = start := by
      rw [length_take]
      omega
    have huslen : us.length = stop' - start := by
      rw [length_take, length_drop]
      omega
    rw [hcut] at hroom
    obtain ⟨r, hshift, hlen⟩ := hroom.close
    rw [haslen, huslen, hbs, Nat.add_sub_cancel' (by omega)] at hshift
    rw [hshift]
    set len' := w.strbuf.len - (stop' - start) with hlen'
    have hlenEq : len' = (as ++ bs).length := by
      have h1 := hroom.len
      simp only [length_append] at h1 ⊢
      omega
    set w1 : World :=
      { heap := w.heap.put id (k.cells (as ++ bs) ++ (k.cells [k.zero] ++ r)),
        strbuf := { w.strbuf with len := len' } } with hw1
    have hframe : Frame w w1 := Frame.of_put hroom.buf _ _ hroom.buf
    have hblock : w1.heap.blocks id = some ((k.cells (as ++ bs) ++ k.cells [k.zero]) ++ r) := by
      rw [append_assoc]
      exact Heap.put_self _ _ _
    have hkept : (k.cells (as ++ bs) ++ k.cells [k.zero]).length = (len' + 1) * k.csize := by
      rw [length_append, length_cells, length_cells, ← hlenEq,
        length_singleton]
      ring
    have hbytes : w.strbuf.size * k.csize < maxSize := lt_of_le_of_lt hroom.size hroom.max
    have hsize : len' + 1 ≤ w.strbuf.size := by
      have h1 := hroom.room
      simp only [length_append] at h1 hlenEq
      omega
    have hwrap : w1.strbuf.NoWrap k.csize len' := by
      refine EflStrbuf.noWrap_of_lt hroom.step.1 hroom.step.2 ?_
      have hw : maxSize + maxStep * 4 < word := by decide
      have hmul : (len' + 1) * k.csize ≤ w.strbuf.size * k.csize := Nat.mul_le_mul_right _ hsize
      have hstep : maxStep * k.csize ≤ maxStep * 4 := Nat.mul_le_mul_left _ k.csize_le
      rw [add_mul]
      omega
    rcases resize_spec (w := w1) hro hroom.buf hblock hroom.own hroom.step hwrap hkept.le with
      ⟨hsame, hfits⟩ | ⟨w', c', hresize, hframe', hspace, hlen2, hro', -⟩ | ⟨_, hresize, -, hcause⟩
    · refine ⟨w1, hsame, ⟨id, r, hroom.buf, hroom.fresh, hroom.own, ?_, hlenEq, ?_, ?_, hroom.step,
        ?_, hroom.ro⟩, hframe, hro⟩
      · rw [hblock, append_assoc]
      · rw [← hlenEq]
        exact hsize
      · rw [hlen]
        exact hroom.size
      · rw [hlen]
        exact hroom.max
    · obtain ⟨hbuf, hfresh, hown, hblock', hfits, hsize', hstep, hmax⟩ := hspace
      rw [append_assoc] at hblock' hsize' hmax
      refine ⟨w', hresize, ⟨_, c', hbuf, hfresh, hown, hblock', hlen2.trans hlenEq,
        hlenEq ▸ hfits, hsize', hstep, hmax, fun h => ?_⟩, hframe.trans hframe', hro'⟩
      rw [hro'] at h
      simp at h
    · by_cases hres : w.strbuf.resizes k.csize (len' + 1) = true
      · obtain ⟨hgr, hsmall⟩ := hgranted hres
        rcases hcause with hno | hlarge
        · exact absurd (hgr.symm.trans hno) (by simp)
        · exact absurd hsmall (not_lt.mpr hlarge)
      · have hmod : (len' + 1) % word = len' + 1 :=
          Nat.mod_eq_of_lt (hwrap.lt hroom.step.1 hroom.step.2 k.csize_pos)
        have hkeep : World.resize k.csize w1 len' = some (w1, true) := by
          rw [World.resize, hmod]
          exact if_neg hres
        rw [hkeep] at hresize
        exact absurd (congrArg Prod.snd (some.inj hresize)) (by simp)

end

end Eina.Strbuf
