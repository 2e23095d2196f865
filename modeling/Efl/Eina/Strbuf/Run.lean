/-
Any run of calls on a string buffer.

The buffer stands for a sequence of units.  Each call is either refused, and the sequence
stays what it was, or does to the sequence what its name says.  The one call that may return
without success and yet change the buffer is the one that removes: it gives the memory back,
or moves the units, before it asks for other memory.
-/
import Efl.Eina.Strbuf.ReplaceAll
import Efl.Lib.Runs

namespace Eina.Strbuf

open CMemory List Option

/-! ### Calls -/

/-- The calls of a buffer; some are there for strings of bytes only. -/
inductive Op : Kind → Type
  | add {k : Kind} (t : Text k) : Op k
  | remove {k : Kind} (start stop : Nat) : Op k
  | expand {k : Kind} (n : Nat) : Op k
  | replace (str by' : List UInt8) (n : Nat) : Op .strbuf
  | replaceLast (str by' : List UInt8) : Op .strbuf
  | replaceAll (str by' : List UInt8) : Op .strbuf
  | trim : Op .strbuf
  | ltrim : Op .strbuf
  | rtrim : Op .strbuf

/-- What a call returns. -/
inductive Answer
  | bool (b : Bool)
  | slice (s : Option (Nat × Nat))
  | count (n : Nat)
  | done
  deriving Repr, DecidableEq

variable {k : Kind}

/-- One call, where `isspace` is the one of the C library. -/
def step (isspace : UInt8 → Bool) (w : World) : Op k → Option (World × Answer)
  | .add t => (t.call w).map fun r => (r.1, .bool r.2)
  | .remove start stop => (remove k w start stop).map fun r => (r.1, .bool r.2)
  | .expand n => (expand k w n).map fun r => (r.1, .slice r.2)
  | .replace str by' n => (replace w str by' n).map fun r => (r.1, .bool r.2)
  | .replaceLast str by' => (replaceLast w str by').map fun r => (r.1, .bool r.2)
  | .replaceAll str by' => (replaceAll w str by').map fun r => (r.1, .count r.2)
  | .trim => (trim w isspace).map fun w => (w, .done)
  | .ltrim => (ltrim w isspace).map fun w => (w, .done)
  | .rtrim => (rtrim w isspace).map fun w => (w, .done)

/-! ### What the calls mean -/

/-- What a call makes of the units, where it finds something to do. -/
def Op.result (isspace : UInt8 → Bool) : {k : Kind} → Op k → List k.Unit → Option (List k.Unit)
  | _, .add t, xs => some (insertAt (t.pos xs.length) t.units xs)
  | _, .remove start stop, xs => some (removed start stop xs)
  | _, .expand _, xs => some xs
  | _, .replace str by' n, xs =>
    (placeNth (Kind.strbuf.string str) n xs).map fun pos =>
      replacedAt pos (Kind.strbuf.string str) (Kind.strbuf.string by') xs
  | _, .replaceLast str by', xs =>
    (placeLast (Kind.strbuf.string str) xs).map fun pos =>
      replacedAt pos (Kind.strbuf.string str) (Kind.strbuf.string by') xs
  | _, .replaceAll str by', xs =>
    some (replacedString (Kind.strbuf.string str) (Kind.strbuf.string by') xs)
  | _, .trim, xs => some ((List.rdropWhile isspace xs).dropWhile isspace)
  | _, .ltrim, xs => some (List.dropWhile isspace xs)
  | _, .rtrim, xs => some (List.rdropWhile isspace xs)

/-- What a call says that did something: the slice begins behind the units and is as long as was
asked for. -/
def Op.Says : {k : Kind} → Op k → List k.Unit → Answer → Prop
  | k, .expand n, xs, a => ∃ len, a = .slice (some (xs.length * k.csize, len)) ∧ n ≤ len
  | _, .replaceAll str _, xs, a =>
    a = .count (countAll (Kind.strbuf.string str) 0 (Kind.strbuf.string xs))
  | _, .trim, _, a | _, .ltrim, _, a | _, .rtrim, _, a => a = .done
  | _, _, _, a => a = .bool true

/-- What a call says that did nothing. -/
def Answer.Fails (a : Answer) : Prop := a = .bool false ∨ a = .slice none ∨ a = .count 0

/-- **What a call may do to the units**: what it is for, or nothing. -/
def Next (isspace : UInt8 → Bool) (xs : List k.Unit) (op : Op k) (ys : List k.Unit) (a : Answer) :
    Prop :=
  (op.result isspace xs = some ys ∧ op.Says xs a) ∨ (ys = xs ∧ a.Fails)

/-- **What is seen of a buffer that holds the units.** -/
structure Holds (k : Kind) (w : World) (xs : List k.Unit) : Prop where
  len : w.strbuf.len = xs.length
  size : w.strbuf.len + 1 ≤ w.strbuf.size
  units : w.heap.read w.strbuf.buf 0 (w.strbuf.len * k.csize) = some (k.cells xs)
  terminator : w.heap.read w.strbuf.buf (w.strbuf.len * k.csize) k.csize = some (k.cells [k.zero])
  /-- The block is as large as the buffer says. -/
  whole : (w.heap.read w.strbuf.buf 0 (w.strbuf.size * k.csize)).isSome = true

/-- A new buffer, or one that was given a string of somebody else to keep. -/
inductive Begins (k : Kind) (w : World) : List k.Unit → Prop
  | new (w0 : World) : w0.heap.Later → init k.csize w0 = (w, true) → Begins k w []
  | manage (h : Heap) (str : Nat) (xs : List k.Unit) (rest : List Cell) :
      h.blocks str = some (k.cells xs ++ (k.cells [k.zero] ++ rest)) → str < h.asked →
      h.locked str = false → h.Later → (k.cells xs ++ (k.cells [k.zero] ++ rest)).length < maxSize →
      w = manageInit h str xs.length false → Begins k w xs

/-- **What a call asks of the state it is made in**: the size it needs does not wrap or is refused,
the memory for taking units out is granted, and not all occurrences of an empty string are to be
replaced. -/
def Op.Ok (w : World) : Op k → Prop
  | .add t => w.Fits k.csize (w.strbuf.len + t.units.length)
  | .remove start stop => RemoveGranted k w start stop
  | .expand n => w.Fits k.csize (w.strbuf.len + n)
  | .replace str by' _ | .replaceLast str by' =>
    (Kind.strbuf.string str).length < (Kind.strbuf.string by').length →
      w.Fits 1 (w.strbuf.len + (Kind.strbuf.string by').length - (Kind.strbuf.string str).length)
  | .replaceAll str by' =>
    ReplaceAllOk w (Kind.strbuf.string str) (Kind.strbuf.string by')
      ((cString w.heap w.strbuf.buf 0).getD [])
  | .trim | .ltrim | .rtrim => True

instance (w : World) : (op : Op k) → Decidable (op.Ok w)
  | .add t => inferInstanceAs (Decidable (w.Fits k.csize (w.strbuf.len + t.units.length)))
  | .remove start stop => inferInstanceAs (Decidable (RemoveGranted k w start stop))
  | .expand n => inferInstanceAs (Decidable (w.Fits k.csize (w.strbuf.len + n)))
  | .replace _ _ _ => inferInstanceAs (Decidable (_ → World.Fits w 1 _))
  | .replaceLast _ _ => inferInstanceAs (Decidable (_ → World.Fits w 1 _))
  | .replaceAll _ _ => inferInstanceAs (Decidable (ReplaceAllOk w _ _ _))
  | .trim | .ltrim | .rtrim => inferInstanceAs (Decidable True)

/-! ### One call -/

section

variable {w : World} {xs ys : List k.Unit} {n : Nat}

theorem Owned.len (h : Owned k w xs) : w.strbuf.len = xs.length := by
  obtain ⟨id, rest, hroom⟩ := h
  exact hroom.len

theorem Owned.holds (h : Owned k w xs) : Holds k w xs := by
  obtain ⟨id, rest, hroom⟩ := h
  refine ⟨hroom.len, by rw [hroom.len]; exact hroom.room, ?_, ?_, ?_⟩
  · rw [hroom.buf, hroom.len]
    exact Heap.read_part (a := []) hroom.block rfl (by rw [Kind.length_cells])
  · rw [hroom.buf, hroom.len]
    refine Heap.read_part hroom.block (by rw [Kind.length_cells]) ?_
    rw [Kind.length_cells, length_singleton, one_mul]
  · rw [hroom.buf, Heap.read, bind_some, hroom.block, bind_some,
      if_pos (by rw [zero_add]; exact hroom.size)]
    rfl

theorem Begins.owned (h : Begins k w xs) : Owned k w xs ∧ w.strbuf.ro = false := by
  cases h with
  | new w0 hlater hinit =>
    have hgrants : w0.heap.Grants (k.csize * initSize) := by
      by_contra hno
      have hcalloc : w0.heap.calloc (k.csize * initSize) =
          ({ w0.heap with asked := w0.heap.asked + 1 }, none) := by
        rw [Heap.calloc, Heap.newBlock, length_replicate]
        exact if_neg hno
      rw [init, hcalloc] at hinit
      exact absurd (congrArg Prod.snd hinit) (by simp)
    obtain ⟨w', hinit', howned, hro, -⟩ := init_spec hgrants hlater
    have hw : w = w' := congrArg Prod.fst (hinit.symm.trans hinit')
    rw [hw]
    exact ⟨howned, hro⟩
  | manage h str _ rest hblock hfresh hfree hlater hmax hw =>
    rw [hw]
    have hstep : 0 < initStep ∧ initStep ≤ maxStep := by decide
    refine ⟨⟨str, rest, rfl, hfresh, ⟨hfree, hlater⟩, hblock, rfl, le_rfl, ?_, hstep, hmax, ?_⟩,
      rfl⟩
    · show (xs.length + 1) * k.csize ≤ _
      simp only [length_append, Kind.length_cells, length_singleton, add_mul]
      omega
    · intro hro
      cases hro

theorem Changes.next {isspace : UInt8 → Bool} {op : Op k} {r : Outcome}
    (h : Owned k w xs) (hro : w.strbuf.ro = false) (hresult : op.result isspace xs = some ys)
    (hreply : op.Says xs (.bool true)) (hr : Changes k w ys n r) :
    ∃ w' a ys', r.map (fun r => (r.1, Answer.bool r.2)) = some (w', a) ∧
      Next isspace xs op ys' a ∧ Owned k w' ys' ∧ w'.strbuf.ro = false := by
  rcases hr with ⟨w', rfl, howned, -, hro'⟩ | ⟨w', rfl, hasked, -⟩
  · refine ⟨w', .bool true, ys, rfl, .inl ⟨hresult, hreply⟩, howned, ?_⟩
    by_contra hne
    rw [hro' (by simpa using hne)] at hro
    cases hro
  · refine ⟨w', .bool false, xs, rfl, .inr ⟨rfl, .inl rfl⟩, h.asked hasked, ?_⟩
    rw [hasked.strbuf]
    exact hro

end

variable (isspace : UInt8 → Bool)

/-- **One call on a buffer that holds the units.** -/
theorem step_spec {w : World} {xs : List k.Unit} (op : Op k)
    (h : Owned k w xs) (hro : w.strbuf.ro = false) (hok : op.Ok w) :
    ∃ w' a ys, step isspace w op = some (w', a) ∧ Next isspace xs op ys a ∧ Owned k w' ys ∧
      w'.strbuf.ro = false := by
  cases op with
  | add t =>
    have hfits : w.Fits k.csize (xs.length + t.units.length) := by
      rw [← h.len]
      exact hok
    exact Changes.next h hro rfl rfl (t.call_owned h hfits)
  | remove start stop =>
    obtain ⟨w', hw', howned, -, hro'⟩ := remove_owned h hro hok
    refine ⟨w', .bool true, _, ?_, .inl ⟨rfl, rfl⟩, howned, hro'⟩
    rw [step, hw', map_some]
  | expand n =>
    have hfits : w.Fits k.csize (xs.length + n) := by
      rw [← h.len]
      exact hok
    rcases expand_owned h hro hfits with
      ⟨w', len, hw', hlen, howned, -, hro'⟩ | ⟨w', hw', hasked, -⟩
    · refine ⟨w', _, xs, ?_, .inl ⟨rfl, len, rfl, hlen⟩, howned, hro'⟩
      rw [step, hw', map_some]
    refine ⟨w', .slice none, xs, ?_, .inr ⟨rfl, .inr (.inl rfl)⟩, h.asked hasked, ?_⟩
    · rw [step, hw', map_some]
    · rw [hasked.strbuf]
      exact hro
  | replace str by' n =>
    obtain ⟨id, rest, hroom⟩ := id h
    rw [step, replace_eq by' n hroom.cString]
    cases hplace : placeNth (Kind.strbuf.string str) n xs with
    | none => exact ⟨w, .bool false, xs, rfl, .inr ⟨rfl, .inl rfl⟩, h, hro⟩
    | some pos =>
      refine Changes.next h hro ?_ rfl
        (replaceAt_owned true h hro (placeNth_mem hplace) hok)
      rw [Op.result, hplace, map_some]
  | replaceLast str by' =>
    obtain ⟨id, rest, hroom⟩ := id h
    rw [step, replaceLast_eq by' hroom.cString]
    cases hplace : placeLast (Kind.strbuf.string str) xs with
    | none => exact ⟨w, .bool false, xs, rfl, .inr ⟨rfl, .inl rfl⟩, h, hro⟩
    | some pos =>
      refine Changes.next h hro ?_ rfl
        (replaceAt_owned false h hro (placeLast_mem hplace) hok)
      rw [Op.result, hplace, map_some]
  | replaceAll str by' =>
    have hok' : ReplaceAllOk w (Kind.strbuf.string str) (Kind.strbuf.string by')
        (Kind.strbuf.string xs) := by
      obtain ⟨id, rest, hroom⟩ := id h
      rw [Op.Ok, hroom.cString] at hok
      exact hok
    rcases replaceAll_owned h hro hok' with ⟨w', hw', howned, -, hro'⟩ | ⟨w', hw', hasked, -⟩
    · refine ⟨w', _, _, ?_, .inl ⟨rfl, rfl⟩, howned, hro'⟩
      rw [step, hw', map_some]
    refine ⟨w', .count 0, xs, ?_, .inr ⟨rfl, .inr (.inr rfl)⟩, h.asked hasked, ?_⟩
    · rw [step, hw', map_some]
    · rw [hasked.strbuf]
      exact hro
  | trim =>
    obtain ⟨w', hw', howned, -, hro'⟩ := trim_owned isspace h
    refine ⟨w', .done, _, ?_, .inl ⟨rfl, rfl⟩, howned, hro'.trans hro⟩
    rw [step, hw', map_some]
  | ltrim =>
    obtain ⟨w', hw', howned, -, hro'⟩ := ltrim_owned isspace h
    refine ⟨w', .done, _, ?_, .inl ⟨rfl, rfl⟩, howned, hro'.trans hro⟩
    rw [step, hw', map_some]
  | rtrim =>
    obtain ⟨w', hw', howned, -, hro'⟩ := rtrim_owned isspace h
    refine ⟨w', .done, _, ?_, .inl ⟨rfl, rfl⟩, howned, hro'.trans hro⟩
    rw [step, hw', map_some]

/-! ### Runs -/

/-- **After every run of calls that may be made, the buffer holds what the calls made of the
units.** -/
theorem run_holds {w : World} {xs : List k.Unit} (hbegins : Begins k w xs)
    (ops : List (Op k)) (hok : Runs.Meets (fun w op => Op.Ok w op) (step isspace) w ops) :
    ∃ w' answers ys, Runs.run (step isspace) w ops = some (w', answers) ∧
      Runs.Traces (Next isspace) xs ops ys answers ∧ Holds k w' ys := by
  have hstep : ∀ (w : World) (xs : List k.Unit) (op : Op k),
      Owned k w xs ∧ w.strbuf.ro = false → op.Ok w →
        ∃ w' a ys, step isspace w op = some (w', a) ∧ Next isspace xs op ys a ∧
          (Owned k w' ys ∧ w'.strbuf.ro = false) := by
    intro w xs op h hop
    exact step_spec isspace op h.1 h.2 hop
  obtain ⟨w', answers, ys, hrun, htrace, howned, -⟩ :=
    Runs.run_simulates hstep ops w xs hbegins.owned hok
  exact ⟨w', answers, ys, hrun, htrace, howned.holds⟩

/-- A new buffer where so many requests are granted. -/
def newBuffer (k : Kind) (granted : Nat) : World :=
  (init k.csize
    { heap := { granted := fun i => decide (i < granted) }
      strbuf := { buf := none, len := 0, size := 0, step := 0, ro := false } }).1

/-- Bytes are added, taken out, replaced and trimmed. -/
def sampleOps : List (Op .strbuf) :=
  [.add (.append [97, 98, 97]), .add (.insertChar (32 : UInt8) 0), .remove 1 2,
    .replaceAll [97] [120, 121, 122], .expand 40, .rtrim]

theorem run_holds_sample :
    ∃ w' answers ys, Runs.run (step (· == 32)) (newBuffer .strbuf 9) sampleOps = some
      (w', answers) ∧
      Runs.Traces (Next (· == 32)) [] sampleOps ys answers ∧ Holds .strbuf w' ys :=
  run_holds (· == 32) (Begins.new _ (fun _ _ => rfl) rfl) sampleOps (by decide)

/-- Two bytes are added and taken out again, and the memory for the empty buffer is refused. -/
def lossOps : List (Op .strbuf) := [.add (.append [97, 98]), .remove 0 2]

/-- **The call that removes everything may lose the buffer**: it returns that it failed, and there
is no memory left. -/
theorem remove_loses_the_buffer :
    ¬ ∀ (isspace : UInt8 → Bool) (w : World) (xs : List UInt8), Begins .strbuf w xs →
      ∀ ops : List (Op .strbuf), ∃ w' answers ys,
        Runs.run (step isspace) w ops = some (w', answers) ∧
          Runs.Traces (Next (k := .strbuf) isspace) xs ops ys answers ∧ Holds .strbuf w' ys := by
  intro h
  obtain ⟨w', answers, ys, hrun, -, hholds⟩ :=
    h (· == 32) (newBuffer .strbuf 1) [] (Begins.new _ (fun _ _ => rfl) rfl) lossOps
  have hnone : (Runs.run (step (· == 32)) (newBuffer .strbuf 1) lossOps).map
      (fun p => (p.1.strbuf.buf, p.2)) = some (none, [.bool true, .bool false]) := by
    decide
  rw [hrun] at hnone
  have hbuf : w'.strbuf.buf = none := congrArg Prod.fst (some.inj hnone)
  have hunits := hholds.units
  rw [hbuf] at hunits
  cases hunits

/-! ### All occurrences -/

/-- `eina_strbuf_replace_all` with the count that it returns: `n` is an `int`, and the call is
undefined where it overflows. -/
def replaceAllInt (w : World) (str by' : List UInt8) : Option (World × Int) :=
  (replaceAll w str by').bind fun r => if r.2 < 2 ^ 31 then some (r.1, r.2) else none

/-- **All occurrences in the string of a buffer are replaced and counted**, where requests are
granted and an `int` can count them. -/
theorem replaceAll_holds {w : World} {xs str by' : List UInt8} (h : Owned .strbuf w xs)
    (hro : w.strbuf.ro = false) (hne : Kind.strbuf.string str ≠ []) (hgranted : Generous w.heap)
    (hsmall : Small 1
      (replacedString (Kind.strbuf.string str) (Kind.strbuf.string by') xs).length)
    (hcount : countAll (Kind.strbuf.string str) 0 (Kind.strbuf.string xs) < 2 ^ 31) :
    ∃ w', replaceAllInt w str by' =
        some (w', (countAll (Kind.strbuf.string str) 0 (Kind.strbuf.string xs) : Int)) ∧
      Holds .strbuf w' (replacedString (Kind.strbuf.string str) (Kind.strbuf.string by') xs) := by
  have hok : ReplaceAllOk w (Kind.strbuf.string str) (Kind.strbuf.string by')
      (Kind.strbuf.string xs) := by
    refine ⟨fun hnil => absurd hnil hne, fun _ _ => .inr ⟨fun i _ => hgranted _, fun _ => ?_⟩⟩
    rw [replacedString, length_append, length_drop, add_comm] at hsmall
    rw [h.len]
    exact hsmall
  rcases replaceAll_owned h hro hok with ⟨w', hcall, howned, -⟩ | ⟨-, -, -, hrefused⟩
  · refine ⟨w', ?_, howned.holds⟩
    rw [replaceAllInt, hcall, bind_some, if_pos hcount]
  · rw [hgranted] at hrefused
    cases hrefused

/-- A buffer that was given three bytes. -/
def threeBytes (c : UInt8) : World :=
  manageInit
    { blocks := fun i => if i = 0 then some [some 97, some c, some 97, some 0] else none
      asked := 1 } 0 3 false

theorem threeBytes_owned (c : UInt8) :
    Owned .strbuf (threeBytes c) ([97, c, 97] : List UInt8) :=
  (Begins.manage (k := .strbuf) _ 0 [97, c, 97] [] rfl (Nat.lt_succ_self 0) rfl (fun _ _ => rfl)
    (show 4 < maxSize by decide) rfl).owned.1

theorem replaceAll_holds_longer :
    ∃ w', replaceAllInt (threeBytes 98) [97] [99, 99] = some (w', 2) ∧
      Holds .strbuf w' ([99, 99, 98, 99, 99] : List UInt8) :=
  replaceAll_holds (threeBytes_owned 98) rfl (by decide) (fun _ => rfl) (by decide) (by decide)

/-- What is behind a zero in the content is not searched. -/
theorem replaceAll_stops : ¬∀ (w : World) (xs str by' : List UInt8), Owned .strbuf w xs →
    w.strbuf.ro = false → Kind.strbuf.string str ≠ [] → Generous w.heap →
    (replaceAllInt w str by').map Prod.snd =
      some (countAll (Kind.strbuf.string str) 0 xs : Int) := by
  intro hall
  have hcount := hall _ _ [97] [98] (threeBytes_owned 0) rfl (by decide) fun _ => rfl
  revert hcount
  decide

/-! ### Whether a replacement ends -/

/-- **The loop of `eina_strbuf_replace_all` ends unless nothing is to be put in the place of nothing
in a string that has something.** -/
theorem replaceWithin_ends_iff {w : World} {xs : List UInt8} (h : Owned .strbuf w xs)
    (hro : w.strbuf.ro = false) (hsmall : Small 1 (Kind.strbuf.string by').length) :
    (∃ rounds, (replaceWithin w rounds str by').isSome = true) ↔
      (Kind.strbuf.string str = [] → Kind.strbuf.string by' = [] → Kind.strbuf.string xs = []) := by
  refine ⟨fun hends hstr hby => ?_, replaceWithin_ends h hro hsmall⟩
  by_contra hne
  obtain ⟨rounds, hends⟩ := hends
  rw [replaceWithin_nothing h hro hstr hby hne] at hends
  cases hends

theorem replaceWithin_ends_iff_empty :
    (∃ rounds, (replaceWithin (threeBytes 98) rounds [] [99]).isSome = true) ↔
      (([] : List UInt8) = [] → ([99] : List UInt8) = [] → ([97, 98, 97] : List UInt8) = []) :=
  replaceWithin_ends_iff (threeBytes_owned 98) rfl (by decide)

/-- An empty string is found over and over again. -/
theorem replaceWithin_goes_on : ¬∀ (w : World) (xs str by' : List UInt8), Owned .strbuf w xs →
    w.strbuf.ro = false → Small 1 (Kind.strbuf.string by').length →
    ∃ rounds, (replaceWithin w rounds str by').isSome = true := by
  intro hall
  obtain ⟨rounds, hends⟩ := hall _ _ [] [] (threeBytes_owned 98) rfl (by decide)
  rw [replaceWithin_nothing (threeBytes_owned 98) rfl rfl rfl (by decide)] at hends
  cases hends

end Eina.Strbuf
