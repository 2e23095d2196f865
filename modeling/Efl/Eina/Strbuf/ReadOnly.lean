/-
Buffers over memory of a caller that is only to be read.

Such a buffer is copied when it is changed, by the function that changes it or where room is
made, and from then on it is a buffer like others.  Next to it runs a buffer that held the
same units from the beginning.  The memory of the caller is locked, so that a call which
writes to it has no result.

The copies are as long as the buffer in units and bytes alike, without a terminator, and not
every function makes one or remembers that it did; so the two runs agree as long as each call
on the memory of the caller copies what it goes on to read.
-/
import Efl.Eina.Strbuf.Run

namespace Eina.Strbuf

open CMemory List Option Heap

variable {k : Kind}

/-! ### Calls and what is seen after them -/

inductive Call : Kind → Type
  | add {k : Kind} (t : Text k) : Call k
  | remove {k : Kind} (start stop : Nat) : Call k
  | stringSteal {k : Kind} : Call k
  | replaceFirst (str by' : List UInt8) : Call .strbuf
  | replaceLast (str by' : List UInt8) : Call .strbuf
  | replaceAll (str by' : List UInt8) : Call .strbuf

/-- What a call returns; of a block that is stolen, the units and the terminator. -/
inductive Reply
  | bool (b : Bool)
  | count (n : Nat)
  | stolen (cells : Option (List Cell))
  deriving Repr, DecidableEq

/-- What is seen of a buffer after a call. -/
structure Seen where
  reply : Reply
  len : Nat
  units : Option (List Cell)
  terminator : Option (List Cell)
  deriving Repr, DecidableEq

namespace Call

def perform (w : World) : Call k → Option (World × Reply)
  | .add t => (t.call w).map fun r => (r.1, .bool r.2)
  | .remove start stop => (Strbuf.remove k w start stop).map fun r => (r.1, .bool r.2)
  | .stringSteal =>
    (Strbuf.stringSteal k w).map fun r =>
      (r.1, .stolen (r.1.heap.read r.2 0 ((w.strbuf.len + 1) * k.csize)))
  | .replaceFirst str by' => (replace w str by' 1).map fun r => (r.1, .bool r.2)
  | .replaceLast str by' => (Strbuf.replaceLast w str by').map fun r => (r.1, .bool r.2)
  | .replaceAll str by' => (Strbuf.replaceAll w str by').map fun r => (r.1, .count r.2)

/-- The unit behind the last one. -/
def terminator (k : Kind) (w : World) : Option (List Cell) :=
  w.heap.read w.strbuf.buf (w.strbuf.len * k.csize) k.csize

def look (k : Kind) (w : World) (r : Reply) : Seen :=
  { reply := r
    len := w.strbuf.len
    units := w.heap.read w.strbuf.buf 0 (w.strbuf.len * k.csize)
    terminator := terminator k w }

/-- A call, and a look at the buffer. -/
def step (w : World) (c : Call k) : Option (World × Seen) :=
  (c.perform w).map fun p => (p.1, look k p.1 p.2)

/-- What a call makes of the units, and what it returns. -/
def meaning : {k : Kind} → Call k → List k.Unit → List k.Unit × Reply
  | _, .add t, xs => (insertAt (t.pos xs.length) t.units xs, .bool true)
  | _, .remove start stop, xs => (removed start stop xs, .bool true)
  | k, .stringSteal, xs => ([], .stolen (some (k.cells (xs ++ [k.zero]))))
  | _, .replaceFirst str by', xs =>
    match placeNth (Kind.strbuf.string str) 1 xs with
    | none => (xs, .bool false)
    | some pos =>
      (replacedAt pos (Kind.strbuf.string str) (Kind.strbuf.string by') xs, .bool true)
  | _, .replaceLast str by', xs =>
    match placeLast (Kind.strbuf.string str) xs with
    | none => (xs, .bool false)
    | some pos =>
      (replacedAt pos (Kind.strbuf.string str) (Kind.strbuf.string by') xs, .bool true)
  | _, .replaceAll str by', xs =>
    (replacedString (Kind.strbuf.string str) (Kind.strbuf.string by') xs,
      .count (countAll (Kind.strbuf.string str) 0 (Kind.strbuf.string xs)))

/-! ### What the calls need -/

/-- The buffer is the memory of the caller. -/
def isLent (w : World) : Bool := w.strbuf.buf.any w.heap.locked

/-- There is a terminator behind the units. -/
def Terminated (k : Kind) (w : World) : Prop := terminator k w = some (k.cells [k.zero])

instance (w : World) : Decidable (Terminated k w) := by
  unfold Terminated
  exact inferInstance

/-- The bytes of a buffer. -/
def held (w : World) : List UInt8 := (content w).getD []

/-- What replacing one occurrence needs: sizes that are not too large, and for a read-only buffer a
string that ends before the bytes do, or else a terminator. -/
def ReplaceOk (w : World) (str by' : List UInt8) : Prop :=
  (str.length < by'.length → Small 1 (w.strbuf.len + by'.length - str.length)) ∧
    (w.strbuf.ro = true → w.strbuf.size < maxSize ∧
      (Terminated .strbuf w ∨
        ((0 : UInt8) ∈ held w ∧ occurrences str (Kind.strbuf.string (held w)) ≠ [])))

instance (w : World) (str by' : List UInt8) : Decidable (ReplaceOk w str by') := by
  unfold ReplaceOk
  exact inferInstance

/-- Nothing that `eina_strbuf_replace_all` would replace. -/
def Absent (str s : List UInt8) : Prop := ∀ i ∈ strstr str s, s.length ≤ i

instance (str s : List UInt8) : Decidable (Absent str s) := by
  unfold Absent
  exact inferInstance

/-- **What a call asks of the state it is made in.**  Sizes are not too large.  What is added to the
memory of the caller is not empty, and its units are bytes or there are none.  From a read-only
buffer everything is removed or nothing; it is not stolen, and no more than one occurrence is
replaced in it. -/
def Ok (w : World) : Call k → Prop
  | .add t =>
    Small k.csize (w.strbuf.len + t.units.length) ∧
      (isLent w = true → t.units.length ≠ 0 ∧ (k.csize = 1 ∨ w.strbuf.len = 0))
  | .remove start stop =>
    Small k.csize w.strbuf.len ∧
      (w.strbuf.ro = true → (min stop w.strbuf.len ≤ start ∧ Terminated k w) ∨
        (w.strbuf.size < maxSize ∧ start = 0 ∧ w.strbuf.len ≠ 0 ∧ w.strbuf.len ≤ stop))
  | .stringSteal => w.strbuf.ro = false
  | .replaceFirst str by' | .replaceLast str by' =>
    ReplaceOk w (Kind.strbuf.string str) (Kind.strbuf.string by')
  | .replaceAll str by' =>
    (Kind.strbuf.string str = [] → Kind.strbuf.string (held w) = []) ∧
      ((Kind.strbuf.string str).length < (Kind.strbuf.string by').length →
        Small 1 (replacedString (Kind.strbuf.string str) (Kind.strbuf.string by')
          (held w)).length) ∧
      (w.strbuf.ro = true →
        Terminated .strbuf w ∧ Absent (Kind.strbuf.string str) (Kind.strbuf.string (held w)))

instance (w : World) : (c : Call k) → Decidable (c.Ok w)
  | .add t => inferInstanceAs (Decidable (Small k.csize _ ∧ (_ → _ ∧ (_ ∨ _))))
  | .remove _ stop => inferInstanceAs (Decidable (Small k.csize _ ∧ (_ → (_ ∧ _) ∨ _)))
  | .stringSteal => inferInstanceAs (Decidable (w.strbuf.ro = false))
  | .replaceFirst _ _ => inferInstanceAs (Decidable (ReplaceOk w _ _))
  | .replaceLast _ _ => inferInstanceAs (Decidable (ReplaceOk w _ _))
  | .replaceAll _ _ => inferInstanceAs (Decidable ((_ → _) ∧ (_ → Small 1 _) ∧ (_ → _ ∧ _)))

end Call

/-! ### Where every request is granted -/

section

variable {w : World} {xs ys : List k.Unit} {n : Nat}

theorem Small.mono {csize m : Nat} (h : Small csize n) (hle : m ≤ n) : Small csize m := by
  refine lt_of_le_of_lt (Nat.mul_le_mul_right _ ?_) h
  omega

theorem Owned.step (h : Owned k w xs) : 0 < w.strbuf.step ∧ w.strbuf.step ≤ maxStep := by
  obtain ⟨id, rest, hroom⟩ := h
  exact hroom.step

theorem not_refused (hg : Generous w.heap) (hsmall : Small k.csize n) : ¬ Refused k w n := by
  intro h
  rcases h with hno | hlarge
  · rw [hg] at hno
    cases hno
  · exact hlarge hsmall

theorem Changes.done {r : Outcome} (h : Changes k w ys n r) (hg : Generous w.heap)
    (hsmall : Small k.csize n) :
    ∃ w', r = some (w', true) ∧ Owned k w' ys ∧ Frame w w' ∧
      (w'.strbuf.ro = true → w.strbuf.ro = true) := by
  rcases h with hdone | ⟨w', -, -, hrefused⟩
  · exact hdone
  · exact absurd hrefused (not_refused hg hsmall)

theorem grants_init (hg : Generous w.heap) : w.heap.Grants (k.csize * initSize) := by
  refine ⟨hg _, ?_⟩
  have hle := k.csize_le
  have hmul : k.csize * initSize ≤ 4 * initSize := Nat.mul_le_mul_right _ hle
  have hmax : 4 * initSize < maxSize := by decide
  exact lt_of_le_of_lt hmul hmax

theorem removeGranted_of_generous (start stop : Nat) (h : Owned k w xs) (hg : Generous w.heap)
    (hsmall : Small k.csize w.strbuf.len) : RemoveGranted k w start stop := by
  intro
  split
  · exact grants_init hg
  intro
  refine ⟨hg _, ?_⟩
  have hsmall' := hsmall.mono (Nat.sub_le w.strbuf.len (min stop w.strbuf.len - start))
  have hwrap := hsmall'.noWrap h.step.1 h.step.2
  obtain ⟨-, hle, -⟩ := EflStrbuf.newSize_spec h.step.1 h.step.2 k.csize_pos hwrap
  exact lt_of_le_of_lt (Nat.mul_le_mul_right _ hle) hsmall'

theorem stringSteal_owned (h : Owned k w xs) (hro : w.strbuf.ro = false) (hg : Generous w.heap) :
    ∃ w', Call.perform w (.stringSteal : Call k) =
        some (w', .stolen (some (k.cells (xs ++ [k.zero])))) ∧
      Owned k w' [] ∧ Frame w w' ∧ w'.strbuf.ro = false := by
  obtain ⟨id, rest, hroom⟩ := h
  obtain ⟨w', hinit, howned, hro', hbuf, hgr, hlocked, hasked, hsame⟩ :=
    init_spec (grants_init hg) hroom.own.2
  have hsteal : stringSteal k w = some (w', some id) := by
    rw [stringSteal, ownCopy_eq hro, map_some, if_pos rfl, hinit, hroom.buf]
  have hread : w'.heap.read (some id) 0 ((w.strbuf.len + 1) * k.csize) =
      some (k.cells (xs ++ [k.zero])) := by
    have hblock : w'.heap.blocks id = some ([] ++ (k.cells (xs ++ [k.zero]) ++ rest)) := by
      rw [hsame id hroom.fresh, hroom.block, Kind.cells_append]
      simp only [append_assoc, nil_append]
    refine read_part hblock rfl ?_
    rw [Kind.length_cells, length_append, length_singleton, hroom.len]
  refine ⟨w', ?_, howned, ⟨hgr, hlocked, ?_, ?_⟩, hro'⟩
  · rw [Call.perform, hsteal, map_some]
    rw [hread]
  · rw [hasked]
    exact Nat.le_succ _
  · intro c hc _
    refine ⟨?_, hsame c hc⟩
    rw [hbuf]
    exact fun heq => absurd (some.inj heq) (ne_of_gt hc)

end

/-! ### A buffer of its own -/

section

variable {w : World} {xs : List UInt8}

theorem replaceAt_granted {str by' : List UInt8} {pos : Nat} (cleared : Bool)
    (h : Owned .strbuf w xs) (hro : w.strbuf.ro = false) (hg : Generous w.heap)
    (hmem : pos ∈ occurrences str (Kind.strbuf.string xs))
    (hsmall : str.length < by'.length → Small 1 (w.strbuf.len + by'.length - str.length)) :
    ∃ w', replaceAt w cleared pos str by' = some (w', true) ∧
      Owned .strbuf w' (replacedAt pos str by' xs) ∧ Frame w w' ∧ w'.strbuf.ro = false := by
  obtain ⟨as, bs, hxs, rfl, hresult⟩ := split_of_mem hmem by'
  have hstep := h.step
  obtain ⟨id, rest, hroom⟩ := h
  rw [hresult, replaceAt, withOwn_eq hro]
  rw [hxs] at hroom
  by_cases hlonger : str.length < by'.length
  · have hfit := hsmall hlonger
    have hchange := replaceHere_spec hroom le_rfl
      (fun _ => .inl (Small.noWrap (k := .strbuf) hfit hstep.1 hstep.2))
    obtain ⟨w', hw', howned, hframe, hro'⟩ := hchange.done hg hfit
    refine ⟨w', hw', howned, hframe, ?_⟩
    by_contra hne
    rw [hro' (by simpa using hne)] at hro
    cases hro
  · obtain ⟨w', hw', howned, hframe, hro'⟩ :=
      replaceHere_shorter hroom le_rfl (Nat.le_of_not_lt hlonger)
    exact ⟨w', hw', howned, hframe, hro'.trans hro⟩

end

variable (c : Call k)

/-- **Each call on a buffer of its own does what it means.** -/
theorem Call.perform_own {w : World} {xs : List k.Unit} (h : Owned k w xs)
    (hro : w.strbuf.ro = false) (hg : Generous w.heap) (hok : c.Ok w) :
    ∃ w', c.perform w = some (w', (c.meaning xs).2) ∧ Owned k w' (c.meaning xs).1 ∧ Frame w w' ∧
      w'.strbuf.ro = false := by
  have hclear : ∀ {w' : World}, (w'.strbuf.ro = true → w.strbuf.ro = true) →
      w'.strbuf.ro = false := by
    intro w' himp
    by_contra hne
    rw [himp (by simpa using hne)] at hro
    cases hro
  cases c with
  | add t =>
    have hsmall := hok.1
    rw [h.len] at hsmall
    have hchange := t.call_owned h (.inl (hsmall.noWrap h.step.1 h.step.2))
    obtain ⟨w', hw', howned, hframe, hro'⟩ := hchange.done hg hsmall
    refine ⟨w', ?_, howned, hframe, hclear hro'⟩
    rw [perform, hw']
    rfl
  | remove start stop =>
    obtain ⟨w', hw', hspec⟩ :=
      remove_owned h hro (removeGranted_of_generous start stop h hg hok.1)
    refine ⟨w', ?_, hspec⟩
    rw [perform, hw']
    rfl
  | stringSteal => exact stringSteal_owned h hro hg
  | replaceFirst str by' =>
    obtain ⟨id, rest, hroom⟩ := id h
    rw [perform, replace_eq by' 1 hroom.cString, meaning]
    cases hplace : placeNth (Kind.strbuf.string str) 1 xs with
    | none => exact ⟨w, rfl, h, Frame.refl w, hro⟩
    | some pos =>
      obtain ⟨w', hw', hspec⟩ :=
        replaceAt_granted true h hro hg (placeNth_mem hplace) hok.1
      refine ⟨w', ?_, hspec⟩
      dsimp only
      rw [hw', map_some]
  | replaceLast str by' =>
    obtain ⟨id, rest, hroom⟩ := id h
    rw [perform, replaceLast_eq by' hroom.cString, meaning]
    cases hplace : placeLast (Kind.strbuf.string str) xs with
    | none => exact ⟨w, rfl, h, Frame.refl w, hro⟩
    | some pos =>
      obtain ⟨w', hw', hspec⟩ :=
        replaceAt_granted false h hro hg (placeLast_mem hplace) hok.1
      refine ⟨w', ?_, hspec⟩
      dsimp only
      rw [hw', map_some]
  | replaceAll str by' =>
    have hheld : held w = xs := by
      rw [held, content_owned h]
      rfl
    obtain ⟨hempty, hsmall, -⟩ := hok
    rw [hheld] at hempty hsmall
    have hok' : ReplaceAllOk w (Kind.strbuf.string str) (Kind.strbuf.string by')
        (Kind.strbuf.string xs) := by
      refine ⟨hempty, fun _ _ => .inr ⟨fun i _ => hg _, fun hlonger => ?_⟩⟩
      have hfit := hsmall hlonger
      rw [replacedString, length_append, length_drop] at hfit
      rw [h.len, add_comm]
      exact hfit
    rcases replaceAll_owned h hro hok' with ⟨w', hw', hspec⟩ | ⟨w', -, -, hno⟩
    · refine ⟨w', ?_, hspec⟩
      rw [perform, hw']
      rfl
    · rw [hg] at hno
      cases hno

/-! ### A read-only buffer -/

/-- The units are in a block that is not to be written to.  It may be one the buffer made itself,
where `eina_strbuf_replace_last` did not remember that it made one. -/
structure ReadOnly (k : Kind) (w : World) (xs : List k.Unit) (id : Nat) (rest : List Cell) :
    Prop where
  ro : w.strbuf.ro = true
  buf : w.strbuf.buf = some id
  fresh : id < w.heap.asked
  later : w.heap.Later
  block : w.heap.blocks id = some (k.cells xs ++ rest)
  len : w.strbuf.len = xs.length
  room : xs.length + 1 ≤ w.strbuf.size
  step : 0 < w.strbuf.step ∧ w.strbuf.step ≤ maxStep

section

variable {w : World} {xs : List k.Unit} {id : Nat} {rest : List Cell}

theorem Borrowed.readOnly (h : Borrowed k w xs id rest) : ReadOnly k w xs id rest := by
  have hstep : 0 < initStep ∧ initStep ≤ maxStep := by decide
  refine ⟨h.ro, h.buf, h.fresh, h.later, h.block, h.len, h.size.ge, ?_⟩
  rw [h.step]
  exact hstep

theorem Room.readOnly {n : Nat} (h : Room k w xs n id rest) (hro : w.strbuf.ro = true)
    (hn : xs.length ≤ n) : ReadOnly k w xs id rest :=
  ⟨hro, h.buf, h.fresh, h.own.2, h.block, h.len, (Nat.succ_le_succ hn).trans h.room, h.step⟩

/-- The first change makes a copy, and the block of the caller is left alone. -/
theorem ReadOnly.ownCopy (h : ReadOnly k w xs id rest) (hg : Generous w.heap)
    (hmax : w.strbuf.size < maxSize) (cleared : Bool) :
    ∃ w1, w.ownCopy cleared = some (w1, true) ∧ Copies w w1 ∧
      w1.strbuf = { w.strbuf with buf := some w.heap.asked, ro := !cleared } ∧
      w1.heap.blocks w.heap.asked = some ((k.cells xs ++ rest).take xs.length ++
        List.replicate (w.strbuf.size - xs.length) none) := by
  have hroom := h.room
  have hne : id ≠ w.heap.asked := ne_of_lt h.fresh
  set a := (k.cells xs ++ rest).take xs.length with ha
  have hsplit : k.cells xs ++ rest = [] ++ (a ++ (k.cells xs ++ rest).drop xs.length) := by
    rw [take_append_drop, nil_append]
  have halen : a.length = xs.length := by
    rw [length_take, length_append, Kind.length_cells]
    have hle : xs.length ≤ xs.length * k.csize := Nat.le_mul_of_pos_right _ k.csize_pos
    omega
  have hmalloc : w.heap.malloc w.strbuf.size =
      ({ w.heap.put w.heap.asked (replicate w.strbuf.size none) with
        asked := w.heap.asked + 1 }, some w.heap.asked) := by
    rw [Heap.malloc, Heap.newBlock, length_replicate]
    exact if_pos ⟨hg _, hmax⟩
  set h1 : Heap := { w.heap.put w.heap.asked (replicate w.strbuf.size none) with
    asked := w.heap.asked + 1 } with hh1
  have hread : h1.read w.strbuf.buf 0 w.strbuf.len = some a := by
    have hold : h1.blocks id = some ([] ++ (a ++ (k.cells xs ++ rest).drop xs.length)) := by
      rw [← hsplit, ← h.block]
      exact put_of_ne _ hne _
    rw [h.buf]
    exact read_part hold rfl (by rw [h.len, halen])
  have hnew : replicate w.strbuf.size (none : Cell) =
      [] ++ (replicate xs.length none ++ replicate (w.strbuf.size - xs.length) none) := by
    rw [← replicate_add]
    congr 1
    omega
  have hblock1 : h1.blocks w.heap.asked = some ([] ++ (replicate xs.length none ++
      replicate (w.strbuf.size - xs.length) none)) := by
    rw [← hnew]
    exact put_self _ _ _
  have hwrite : h1.write (some w.heap.asked) 0 a = some (h1.put w.heap.asked
      ([] ++ (a ++ replicate (w.strbuf.size - xs.length) none))) :=
    write_part hblock1 (h.later _ le_rfl) rfl (by rw [halen, length_replicate])
  set cells' : List Cell := [] ++ (a ++ replicate (w.strbuf.size - xs.length) none) with hcells
  refine ⟨
    { heap := h1.put w.heap.asked cells'
      strbuf := { w.strbuf with buf := some w.heap.asked, ro := !cleared } },
    ?_, ?_, rfl, put_self _ _ _⟩
  · rw [World.ownCopy, if_pos h.ro, hmalloc]
    dsimp only
    rw [hread, bind_some, hwrite, map_some]
  · refine ⟨rfl, rfl, Nat.lt_succ_self _, rfl, ?_⟩
    intro c hc
    have hcne : c ≠ w.heap.asked := ne_of_lt hc
    exact (put_of_ne _ hcne _).trans (put_of_ne _ hcne _)

theorem ReadOnly.copied (h : ReadOnly k w xs id rest) (hone : k.csize = 1) (hg : Generous w.heap)
    (hmax : w.strbuf.size < maxSize) (cleared : Bool) :
    ∃ w1 rest', w.ownCopy cleared = some (w1, true) ∧ Copies w w1 ∧
      Room k w1 xs xs.length w.heap.asked rest' ∧ w1.strbuf.ro = !cleared := by
  obtain ⟨w1, hcopy, hcopies, hstrbuf, hblock⟩ := h.ownCopy hg hmax cleared
  have hroom := h.room
  have hlen : (k.cells xs).length = xs.length := by rw [Kind.length_cells, hone, mul_one]
  have htake : (k.cells xs ++ rest).take xs.length = k.cells xs := by
    rw [← hlen, take_left]
  rw [htake] at hblock
  have htotal : (k.cells xs ++
      replicate (w.strbuf.size - xs.length) (none : Cell)).length = w.strbuf.size := by
    rw [length_append, length_replicate]
    omega
  refine ⟨w1, _, hcopy, hcopies, ⟨hcopies.buf, hcopies.asked, hcopies.own h.later, hblock, ?_, ?_,
    ?_, ?_, ?_, fun _ => hone⟩, by rw [hstrbuf]⟩
  · rw [hstrbuf]
    exact h.len
  · rw [hstrbuf]
    exact hroom
  · rw [hstrbuf, htotal, hone, mul_one]
  · rw [hstrbuf]
    exact h.step
  · rw [htotal]
    exact hmax

theorem ReadOnly.removeAll (h : ReadOnly k w xs id rest) (hg : Generous w.heap)
    (hmax : w.strbuf.size < maxSize) (hne : w.strbuf.len ≠ 0) {stop : Nat}
    (hstop : w.strbuf.len ≤ stop) :
    ∃ w', remove k w 0 stop = some (w', true) ∧ Owned k w' [] ∧ Kept w w' ∧
      w'.strbuf.ro = false := by
  obtain ⟨w1, hcopy, hcopies, hstrbuf, hblock⟩ := h.ownCopy hg hmax true
  have hlen1 : w1.strbuf.len = w.strbuf.len := by rw [hstrbuf]
  have hfree1 := (hcopies.own h.later).1
  set h2 : Heap :=
    { w1.heap with blocks := Function.update w1.heap.blocks w.heap.asked none } with hh2
  have hg1 : Generous w1.heap := hg.frame hcopies.frame
  obtain ⟨w', hinit, howned, hro, hbuf, hgr, hlocked, hasked, hsame⟩ :=
    init_spec (w := { w1 with heap := h2 }) (grants_init hg1) (hcopies.own h.later).2
  refine ⟨w', ?_, howned, ⟨hgr.trans hcopies.granted, hlocked.trans hcopies.locked, ?_, ?_⟩, hro⟩
  · rw [remove]
    rw [if_pos hstop, if_neg (by omega), World.withOwn, hcopy, bind_some, if_pos rfl]
    rw [if_pos (by rw [hlen1, Nat.sub_zero]), hcopies.buf, Heap.free, writable_eq _ hfree1,
      hblock, map_some, map_some, hinit]
  · rw [hasked]
    exact hcopies.asked.le.trans (Nat.le_succ _)
  · intro c hc
    have hc1 : c < w1.heap.asked := hc.trans hcopies.asked
    refine ⟨?_, ?_⟩
    · rw [hbuf]
      exact fun heq => absurd (some.inj heq) (ne_of_gt hc1)
    · rw [hsame c hc1]
      exact (Function.update_of_ne (ne_of_lt hc) _ _).trans (hcopies.blocks c hc)

end

/-- **Replacing one occurrence in a read-only buffer.** -/
theorem ReadOnly.replaceAt {w : World} {xs str by' : List UInt8} {id pos : Nat} {rest : List Cell}
    (cleared : Bool) (h : ReadOnly .strbuf w xs id rest) (hg : Generous w.heap)
    (hmax : w.strbuf.size < maxSize) (hmem : pos ∈ occurrences str (Kind.strbuf.string xs))
    (hsmall : str.length < by'.length → Small 1 (w.strbuf.len + by'.length - str.length)) :
    ∃ w', Strbuf.replaceAt w cleared pos str by' = some (w', true) ∧
      Owned .strbuf w' (replacedAt pos str by' xs) ∧ Kept w w' := by
  obtain ⟨as, bs, hxs, rfl, hresult⟩ := split_of_mem hmem by'
  obtain ⟨w1, rest', hcopy, hcopies, hroom, -⟩ := h.copied rfl hg hmax cleared
  have hg1 : Generous w1.heap := hg.frame hcopies.frame
  have hlen1 : w1.strbuf.len = w.strbuf.len := by rw [hroom.len, h.len]
  rw [hresult, Strbuf.replaceAt, World.withOwn, hcopy]
  rw [hxs] at hroom
  by_cases hlonger : str.length < by'.length
  · have hfit := hsmall hlonger
    rw [← hlen1] at hfit
    have hchange := replaceHere_spec hroom le_rfl
      (fun _ => .inl (Small.noWrap (k := .strbuf) hfit hroom.step.1 hroom.step.2))
    obtain ⟨w', hw', howned, hframe, -⟩ := hchange.done hg1 hfit
    exact ⟨w', hw', howned, hcopies.kept hframe⟩
  · obtain ⟨w', hw', howned, hframe, -⟩ :=
      replaceHere_shorter hroom le_rfl (Nat.le_of_not_lt hlonger)
    exact ⟨w', hw', howned, hcopies.kept hframe⟩

/-! ### One call -/

/-- The buffer is the memory of the caller, or one of its own. -/
def Lent (k : Kind) (caller : Nat) (w : World) (xs : List k.Unit) : Prop :=
  (∃ rest, Borrowed k w xs caller rest) ∨ (Owned k w xs ∧ w.strbuf.buf ≠ some caller)

/-- The memory of the caller is what it was, and every request is granted. -/
structure Stands (caller : Nat) (cells : List Cell) (w : World) : Prop where
  locked : w.heap.locked caller = true
  fresh : caller < w.heap.asked
  block : w.heap.blocks caller = some cells
  generous : Generous w.heap

/-- What is seen of the buffer is the units. -/
structure Shows (k : Kind) (w : World) (xs : List k.Unit) : Prop where
  len : w.strbuf.len = xs.length
  units : w.heap.read w.strbuf.buf 0 (w.strbuf.len * k.csize) = some (k.cells xs)
  terminator : Call.Terminated k w

section

variable {w w' : World} {xs ys : List k.Unit} {caller id : Nat} {cells rest : List Cell}

theorem Owned.shows (h : Owned k w xs) : Shows k w xs :=
  ⟨h.holds.len, h.holds.units, h.holds.terminator⟩

theorem ReadOnly.shows (h : ReadOnly k w xs id rest) (hterm : Call.Terminated k w) :
    Shows k w xs := by
  refine ⟨h.len, ?_, hterm⟩
  rw [h.buf]
  exact read_part (a := []) h.block rfl (by rw [h.len, Kind.length_cells])

theorem Stands.kept (h : Stands caller cells w) (hkept : Kept w w') :
    Stands caller cells w' ∧ w'.strbuf.buf ≠ some caller := by
  obtain ⟨hne, hsame⟩ := hkept.blocks caller h.fresh
  refine ⟨⟨?_, h.fresh.trans_le hkept.asked, hsame.trans h.block, ?_⟩, hne⟩
  · rw [hkept.locked]
    exact h.locked
  · intro i
    rw [hkept.granted]
    exact h.generous i

theorem Stands.frame (h : Stands caller cells w) (hne : w.strbuf.buf ≠ some caller)
    (hframe : Frame w w') : Stands caller cells w' ∧ w'.strbuf.buf ≠ some caller := by
  obtain ⟨hne', hsame⟩ := hframe.blocks caller h.fresh hne
  refine ⟨⟨?_, h.fresh.trans_le hframe.asked, hsame.trans h.block, h.generous.frame hframe⟩, hne'⟩
  rw [hframe.locked]
  exact h.locked

theorem Lent.readOnly (h : Lent k caller w xs) (hro : w.strbuf.ro = true) :
    ∃ id rest, ReadOnly k w xs id rest := by
  rcases h with ⟨rest, hborrowed⟩ | ⟨⟨id, rest, hroom⟩, -⟩
  · exact ⟨caller, rest, hborrowed.readOnly⟩
  · exact ⟨id, _, hroom.readOnly hro le_rfl⟩

theorem Lent.len (h : Lent k caller w xs) : w.strbuf.len = xs.length := by
  rcases h with ⟨rest, hborrowed⟩ | ⟨howned, -⟩
  · exact hborrowed.len
  · exact howned.len

end

section

variable {w : World} {xs : List UInt8} {id caller : Nat} {rest : List Cell}

theorem ReadOnly.terminated (h : ReadOnly .strbuf w xs id rest)
    (hterm : Call.Terminated .strbuf w) : ∃ r, rest = some 0 :: r := by
  have hread : w.heap.read (some id) (xs.length * 1) 1 = some [some 0] := by
    rw [← h.buf, ← h.len]
    exact hterm
  rw [Heap.read, bind_some, h.block, bind_some] at hread
  split at hread
  · have hdrop : (Kind.strbuf.cells xs ++ rest).drop (xs.length * 1) = rest := by
      rw [mul_one, ← length_cells_strbuf, drop_left]
    rw [hdrop] at hread
    cases rest with
    | nil => simp at hread
    | cons c r =>
      have hc : c = some 0 := by simpa using hread
      exact ⟨r, by rw [hc]⟩
  · cases hread

theorem Lent.held (h : Lent .strbuf caller w xs) : Call.held w = xs := by
  have hcontent : content w = some xs := by
    rcases h with ⟨rest, hborrowed⟩ | ⟨howned, -⟩
    · have hblock := hborrowed.block
      rw [cells_strbuf] at hblock
      exact content_of_block hborrowed.buf hblock hborrowed.len
    · exact content_owned howned
  rw [Call.held, hcontent]
  rfl

theorem ReadOnly.cString (h : ReadOnly .strbuf w xs id rest)
    (hends : (0 : UInt8) ∈ xs ∨ Call.Terminated .strbuf w) :
    Strbuf.cString w.heap w.strbuf.buf 0 = some (Kind.strbuf.string xs) := by
  have hblock := h.block
  rw [cells_strbuf] at hblock
  refine cString_of_block h.buf hblock ?_
  rcases hends with hmem | hterm
  · exact .inl hmem
  · exact .inr (h.terminated hterm)

theorem replacedString_absent {str : List UInt8} (by' : List UInt8)
    (hempty : str = [] → Kind.strbuf.string xs = [])
    (habsent : Call.Absent str (Kind.strbuf.string xs)) :
    replacedString str by' xs = xs ∧ countAll str 0 (Kind.strbuf.string xs) = 0 := by
  obtain ⟨htail, -⟩ := tail_string xs
  have hsame : replacedAll str by' 0 (Kind.strbuf.string xs) = Kind.strbuf.string xs ∧
      countAll str 0 (Kind.strbuf.string xs) = 0 := by
    cases hfound : strstr str (Kind.strbuf.string xs) with
    | none => exact replacedAll_of_none by' hfound
    | some i =>
      have hle := habsent i hfound
      have hfits := strstr_le hfound
      have hs := hempty (length_eq_zero_iff.mp (by omega))
      rw [hs]
      exact ⟨rfl, rfl⟩
  refine ⟨?_, hsame.2⟩
  rw [replacedString, hsame.1]
  exact htail.symm

end

/-- **Each allowed call on a buffer over the memory of a caller does what it means**, and leaves
that memory alone. -/
theorem Call.perform_lent {w : World} {xs : List k.Unit} {caller : Nat} {cells : List Cell}
    (h : Lent k caller w xs) (hs : Stands caller cells w) (hok : c.Ok w) :
    ∃ w', c.perform w = some (w', (c.meaning xs).2) ∧ Lent k caller w' (c.meaning xs).1 ∧
      Stands caller cells w' ∧ Shows k w' (c.meaning xs).1 := by
  have hlen := h.len
  cases hro : w.strbuf.ro with
  | false =>
    -- it is a buffer of its own
    have howned : Owned k w xs ∧ w.strbuf.buf ≠ some caller := by
      rcases h with ⟨rest, hborrowed⟩ | howned
      · rw [hborrowed.ro] at hro
        cases hro
      · exact howned
    obtain ⟨w', hw', howned', hframe, -⟩ := c.perform_own howned.1 hro hs.generous hok
    obtain ⟨hs', hne'⟩ := hs.frame howned.2 hframe
    exact ⟨w', hw', .inr ⟨howned', hne'⟩, hs', howned'.shows⟩
  | true =>
    obtain ⟨id, rest, hread⟩ := h.readOnly hro
    have hsame : Terminated k w → Lent k caller w xs ∧ Stands caller cells w ∧ Shows k w xs :=
      fun hterm => ⟨h, hs, hread.shows hterm⟩
    have hkept : ∀ {w' : World} {ys : List k.Unit}, Owned k w' ys → Kept w w' →
        Lent k caller w' ys ∧ Stands caller cells w' ∧ Shows k w' ys := by
      intro w' ys howned hkept
      obtain ⟨hs', hne'⟩ := hs.kept hkept
      exact ⟨Or.inr ⟨howned, hne'⟩, hs', howned.shows⟩
    cases c with
    | add t =>
      obtain ⟨hsmall, hlent⟩ := hok
      rw [hlen] at hsmall hlent
      rcases h with ⟨rest', hborrowed⟩ | ⟨howned, hne⟩
      · have hislent : isLent w = true := by
          rw [isLent, hborrowed.buf]
          exact hs.locked
        obtain ⟨hne, hone⟩ := hlent hislent
        have hstep := hborrowed.readOnly.step
        rcases t.call_borrowed hborrowed (hsmall.noWrap hstep.1 hstep.2)
            (fun hnil => hne (by rw [hnil]; rfl))
            (hone.imp_right length_eq_zero_iff.mp) with
          ⟨w', hw', howned', hkept', -⟩ | ⟨w', -, -, hrefused⟩
        · refine ⟨w', ?_, hkept howned' hkept'⟩
          rw [perform, hw']
          rfl
        · exact absurd hrefused (not_refused hs.generous hsmall)
      · have hchange := t.call_owned howned (Or.inl (hsmall.noWrap howned.step.1 howned.step.2))
        obtain ⟨w', hw', howned', hframe, -⟩ := hchange.done hs.generous hsmall
        obtain ⟨hs', hne'⟩ := hs.frame hne hframe
        refine ⟨w', ?_, .inr ⟨howned', hne'⟩, hs', howned'.shows⟩
        rw [perform, hw']
        rfl
    | remove start stop =>
      rcases hok.2 hro with ⟨hnone, hterm⟩ | ⟨hmax, rfl, hne, hstop⟩
      · have hremove : Strbuf.remove k w start stop = some (w, true) := by
          rw [Strbuf.remove]
          rw [if_pos]
          split_ifs <;> omega
        rw [hlen] at hnone
        have hresult : (Call.meaning (.remove start stop) xs).1 = xs := removed_of_le hnone
        rw [hresult]
        refine ⟨w, ?_, hsame hterm⟩
        rw [perform, hremove]
        rfl
      · obtain ⟨w', hw', howned', hkept', -⟩ :=
          hread.removeAll hs.generous hmax hne hstop
        have hresult : (Call.meaning (.remove 0 stop) xs).1 = [] := by
          rw [hlen] at hne hstop
          show removed 0 stop xs = []
          rw [removed, if_neg (by omega)]
          exact drop_eq_nil_of_le hstop
        rw [hresult]
        refine ⟨w', ?_, hkept howned' hkept'⟩
        rw [perform, hw']
        rfl
    | stringSteal =>
      have hno : w.strbuf.ro = false := hok
      rw [hro] at hno
      cases hno
    | replaceFirst str by' =>
      obtain ⟨hsmall, hends⟩ := hok
      obtain ⟨hmax, hends⟩ := hends hro
      rw [h.held] at hends
      have hcstring := hread.cString (hends.symm.imp_left And.left)
      rw [perform, replace_eq by' 1 hcstring, meaning]
      cases hplace : placeNth (Kind.strbuf.string str) 1 xs with
      | none =>
        rcases hends with hterm | ⟨-, hfound⟩
        · exact ⟨w, rfl, hsame hterm⟩
        rw [placeNth, getElem?_eq_none_iff, Nat.le_zero,
          length_eq_zero_iff] at hplace
        exact absurd hplace hfound
      | some pos =>
        obtain ⟨w', hw', howned', hkept'⟩ :=
          hread.replaceAt true hs.generous hmax (placeNth_mem hplace) hsmall
        refine ⟨w', ?_, hkept howned' hkept'⟩
        dsimp only
        rw [hw', map_some]
    | replaceLast str by' =>
      obtain ⟨hsmall, hends⟩ := hok
      obtain ⟨hmax, hends⟩ := hends hro
      rw [h.held] at hends
      have hcstring := hread.cString (hends.symm.imp_left And.left)
      rw [perform, replaceLast_eq by' hcstring, meaning]
      cases hplace : placeLast (Kind.strbuf.string str) xs with
      | none =>
        rcases hends with hterm | ⟨-, hfound⟩
        · exact ⟨w, rfl, hsame hterm⟩
        · exact absurd (getLast?_eq_none_iff.mp hplace) hfound
      | some pos =>
        obtain ⟨w', hw', howned', hkept'⟩ :=
          hread.replaceAt false hs.generous hmax (placeLast_mem hplace) hsmall
        refine ⟨w', ?_, hkept howned' hkept'⟩
        dsimp only
        rw [hw', map_some]
    | replaceAll str by' =>
      obtain ⟨hempty, -, habsent⟩ := hok
      obtain ⟨hterm, habsent⟩ := habsent hro
      rw [h.held] at hempty habsent
      obtain ⟨hresult, hcount⟩ := replacedString_absent (Kind.strbuf.string by') hempty
        habsent
      have hcall : Strbuf.replaceAll w str by' = some (w, 0) := by
        have hcstring := hread.cString (.inr hterm)
        rw [Strbuf.replaceAll, hcstring, bind_some, replaceWithin, hcstring, bind_some]
        cases hfound : strstr (Kind.strbuf.string str) (Kind.strbuf.string xs) with
        | none => rfl
        | some i =>
          dsimp only
          rw [if_pos (habsent i hfound)]
      have hmeaning : Call.meaning (.replaceAll str by') xs = (xs, .count 0) := by
        rw [meaning, hresult, hcount]
      rw [hmeaning]
      refine ⟨w, ?_, hsame hterm⟩
      rw [perform, hcall, map_some]

/-! ### Two runs -/

section

variable {w t : World} {xs : List k.Unit} {caller : Nat} {cells : List Cell}

/-- A call that is allowed on the borrowed string is allowed on the copy. -/
theorem Call.Ok.transfer {c : Call k} (hok : c.Ok w) (h : Lent k caller w xs) (ht : Owned k t xs)
    (hro : t.strbuf.ro = false) : c.Ok t := by
  have hlen : t.strbuf.len = w.strbuf.len := by rw [ht.len, h.len]
  have hnot : ∀ {P : Prop}, t.strbuf.ro = true → P := by
    intro P htrue
    rw [hro] at htrue
    cases htrue
  have hheld : ∀ {u : World} {ys : List UInt8}, Owned .strbuf u ys → held u = ys := by
    intro u ys hu
    rw [held, content_owned hu]
    rfl
  cases c with
  | add t' =>
    refine ⟨by rw [hlen]; exact hok.1, fun hlent => ?_⟩
    obtain ⟨id, rest, hroom⟩ := ht
    rw [isLent, hroom.buf] at hlent
    exact absurd (hroom.own.1.symm.trans hlent) (by simp)
  | remove start stop => exact ⟨by rw [hlen]; exact hok.1, hnot⟩
  | stringSteal => exact hro
  | replaceFirst str by' => exact ⟨by rw [hlen]; exact hok.1, hnot⟩
  | replaceLast str by' => exact ⟨by rw [hlen]; exact hok.1, hnot⟩
  | replaceAll str by' =>
    obtain ⟨h1, h2, -⟩ := hok
    rw [h.held] at h1 h2
    refine ⟨?_, ?_, hnot⟩
    · rw [hheld ht]
      exact h1
    · rw [hheld ht]
      exact h2

theorem Shows.look_eq (h : Shows k w xs) (r : Reply) :
    Call.look k w r =
      { reply := r, len := xs.length, units := some (k.cells xs),
        terminator := some (k.cells [k.zero]) } := by
  obtain ⟨hlen, hunits, hterm⟩ := h
  rw [Call.look, hunits, hterm, hlen]

/-- **One call on both buffers**: the same is seen. -/
theorem Call.step_lent (c : Call k) (h : Lent k caller w xs) (hs : Stands caller cells w)
    (ht : Owned k t xs) (hro : t.strbuf.ro = false) (hg : Generous t.heap) (hok : c.Ok w) :
    ∃ w' t' r ys, c.step w = some (w', r) ∧ c.step t = some (t', r) ∧
      r.terminator = some (k.cells [k.zero]) ∧ Lent k caller w' ys ∧ Stands caller cells w' ∧
      Owned k t' ys ∧ t'.strbuf.ro = false ∧ Generous t'.heap := by
  obtain ⟨w', hw', hlent', hs', hshows⟩ := c.perform_lent h hs hok
  obtain ⟨t', ht', howned', hframe, hro'⟩ := c.perform_own ht hro hg (hok.transfer h ht hro)
  refine ⟨w', t', look k w' (c.meaning xs).2, (c.meaning xs).1, ?_, ?_, ?_, hlent', hs', howned',
    hro', hg.frame hframe⟩
  · rw [step, hw', map_some]
  · rw [step, ht', map_some, howned'.shows.look_eq, hshows.look_eq]
  · rw [hshows.look_eq]

/-- **A buffer over the memory of a caller shows what a buffer of its own shows**: where every call
may be made, both can make all of them, the same is seen after each, a terminator among it, and the
memory of the caller is never written to. -/
theorem read_only_run {h : Heap} {str : Nat} {rest : List Cell}
    (hblock : h.blocks str = some (k.cells xs ++ rest)) (hlocked : h.locked str = true)
    (hfresh : str < h.asked) (hlater : h.Later) (hmax : xs.length * k.csize < maxSize)
    (hgranted : Generous h) (ht : Begins k t xs) (htgranted : Generous t.heap)
    (calls : List (Call k))
    (hok : Runs.Meets (fun w c => Call.Ok w c) (fun w c => Call.step w c)
      (manageInit h str xs.length true) calls) :
    ∃ w' t' seen,
      Runs.run (fun w c => Call.step w c) (manageInit h str xs.length true) calls =
        some (w', seen) ∧
      Runs.run (fun w c => Call.step w c) t calls = some (t', seen) ∧
      (∀ r ∈ seen, r.terminator = some (k.cells [k.zero])) ∧
      w'.heap.blocks str = h.blocks str := by
  have hborrowed : Borrowed k (manageInit h str xs.length true) xs str rest :=
    ⟨rfl, rfl, hfresh, hlater, hblock, rfl, rfl, rfl, hmax⟩
  have hstands : Stands str (k.cells xs ++ rest) (manageInit h str xs.length true) :=
    ⟨hlocked, hfresh, hblock, hgranted⟩
  obtain ⟨howned, hro⟩ := ht.owned
  have hstep : ∀ (w t : World) (c : Call k),
      (∃ ys, Lent k str w ys ∧ Stands str (k.cells xs ++ rest) w ∧ Owned k t ys ∧
        t.strbuf.ro = false ∧ Generous t.heap) → c.Ok w →
      ∃ w' r t', Call.step w c = some (w', r) ∧
        (Call.step t c = some (t', r) ∧ r.terminator = some (k.cells [k.zero])) ∧
        ∃ ys, Lent k str w' ys ∧ Stands str (k.cells xs ++ rest) w' ∧ Owned k t' ys ∧
          t'.strbuf.ro = false ∧ Generous t'.heap := by
    intro w t c hR hc
    obtain ⟨ys, hlent, hs, hown, hro, hg⟩ := hR
    obtain ⟨w', t', r, zs, hw', ht', hterm, hrest⟩ := c.step_lent hlent hs hown hro hg hc
    exact ⟨w', r, t', hw', ⟨ht', hterm⟩, zs, hrest⟩
  obtain ⟨w', seen, t', hrun, htrace, ys, -, hs', -⟩ :=
    Runs.run_simulates hstep calls (manageInit h str xs.length true) t
      ⟨xs, .inl ⟨rest, hborrowed⟩, hstands, howned, hro, htgranted⟩ hok
  refine ⟨w', t', seen, hrun, ?_, ?_, hs'.block.trans hblock.symm⟩
  · exact Runs.run_of_traces (fun _ _ _ _ h => h.1) calls t t' seen htrace
  · exact Runs.traces_forall (fun _ _ _ _ h => h.2) calls t t' seen htrace

end

/-! ### A caller's string -/

/-- The string "ab" of a caller, in memory that is only to be read. -/
def callerHeap : Heap :=
  { blocks := fun i => if i = 0 then some [some 97, some 98, some 0] else none
    locked := fun i => decide (i = 0)
    asked := 1 }

theorem callerHeap_later : callerHeap.Later := by
  intro i hi
  have h1 : 1 ≤ i := hi
  exact decide_eq_false (by omega)

theorem callerHeap_begins : Begins .strbuf
    (manageInit { callerHeap with locked := fun _ => false } 0 2 false) ([97, 98] : List UInt8) :=
  Begins.manage _ 0 _ [] rfl (by decide) rfl (fun _ _ => rfl) (by decide) rfl

/-- A byte is added, all are removed, and a byte is added again. -/
def sampleCalls : List (Call .strbuf) :=
  [.remove 2 1, .add (.appendChar (99 : UInt8)), .replaceAll [98] [100, 101], .remove 0 9,
    .add (.append [97]), .stringSteal]

theorem read_only_run_sample :
    ∃ w' t' seen,
      Runs.run (fun w c => Call.step w c) (manageInit callerHeap 0 2 true) sampleCalls =
        some (w', seen) ∧
      Runs.run (fun w c => Call.step w c)
          (manageInit { callerHeap with locked := fun _ => false } 0 2 false) sampleCalls =
        some (t', seen) ∧
      (∀ r ∈ seen, r.terminator = some (Kind.strbuf.cells [Kind.strbuf.zero])) ∧
      w'.heap.blocks 0 = callerHeap.blocks 0 := by
  have hblock : callerHeap.blocks 0 =
      some (Kind.strbuf.cells ([97, 98] : List UInt8) ++ [some 0]) := rfl
  exact read_only_run hblock rfl (by decide) callerHeap_later (by decide) (fun _ => rfl)
    callerHeap_begins (fun _ => rfl) sampleCalls (by decide)

/-- One byte is to be replaced by another one. -/
def writingCalls : List (Call .strbuf) := [.replaceAll [97] [99]]

/-- **Replacing all occurrences by strings of the same length writes to the memory of the caller**:
the buffer is copied, and the loop goes on where the first occurrence was found. -/
theorem replaceAll_writes_to_the_caller :
    ¬ ∀ (h : Heap) (str : Nat) (xs : List UInt8) (rest : List Cell) (t : World),
      h.blocks str = some (xs.map some ++ rest) → h.locked str = true → str < h.asked → h.Later →
      xs.length < maxSize → Generous h → Begins .strbuf t xs → Generous t.heap →
      ∀ calls : List (Call .strbuf), ∃ w' t' seen,
        Runs.run (fun w c => Call.step w c) (manageInit h str xs.length true) calls =
          some (w', seen) ∧
        Runs.run (fun w c => Call.step w c) t calls = some (t', seen) ∧
        (∀ r ∈ seen, r.terminator = some (Kind.strbuf.cells [Kind.strbuf.zero])) ∧
        w'.heap.blocks str = h.blocks str := by
  intro h
  obtain ⟨w', t', seen, hrun, -⟩ :=
    h callerHeap 0 [97, 98] [some 0] _ rfl rfl (by decide) callerHeap_later (by decide)
      (fun _ => rfl) callerHeap_begins (fun _ => rfl) writingCalls
  have hnone : (Runs.run (fun w c => Call.step w c) (manageInit callerHeap 0 2 true)
      writingCalls).isSome = false := by
    decide
  have hsome := congrArg isSome hrun
  exact absurd (hnone.symm.trans hsome) (by simp)

end Eina.Strbuf
