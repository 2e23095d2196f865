/-
How much memory an inline array has.

The number of bytes that is asked for is computed in 32 bits: the number of members is rounded up
to a multiple of the step and multiplied by the size of a member, and both may wrap around.
`Good` says that the array owns as many bytes as it asked for last and that these hold its members.
`Call.Room` says when this stays so.
-/
import Efl.Eina.Inarray.Basic
import Mathlib.Tactic.Linarith
import Mathlib.Tactic.Ring

namespace Eina.Inarray

open CMemory Option Function Heap

/-! ### The block of an array -/

/-- The bytes that a pointer owns. -/
def blockAt (h : Heap) : Option Nat → Option (List Cell)
  | none => some []
  | some id => h.writable id

theorem realloc_cases {h : Heap} {p : Option Nat} {cells : List Cell} {n : Nat}
    (hp : blockAt h p = some cells) (hlater : h.Later) (hn : n < maxSize) : ∃ h' p',
    realloc h p n = some (h', p') ∧ h'.Later ∧
      ((p.isSome ∧ n = 0 ∧ p' = none ∧ blockAt h' p = none) ∨
      ((n = 0 → p = none) ∧ h.granted h.asked = false ∧ p' = none ∧ blockAt h' p = some cells) ∨
      (h.granted h.asked = true ∧ p'.isSome ∧
        blockAt h' p' = some (Heap.resized cells n))) := by
  have hnew : h.locked h.asked = false := hlater _ (le_rfl)
  cases p with
  | none =>
    obtain rfl : cells = [] := (some.inj hp).symm
    have hresized : Heap.resized ([] : List Cell) n = List.replicate n none := by
      simp [Heap.resized]
    have hrealloc : realloc h none n = some (h.malloc n) := by simp [realloc, Heap.realloc]
    rw [hrealloc, Heap.malloc]
    rcases h.newBlock_cases (List.replicate n none) with ⟨hg, -, hblock⟩ | ⟨hrefused, hblock⟩
    · rw [hblock, hresized]
      refine ⟨_, _, rfl, hlater.mono rfl (Nat.le_succ _), .inr (.inr ⟨hg, rfl, ?_⟩)⟩
      simp [blockAt, Heap.writable, hnew]
    · rw [hblock]
      refine ⟨_, _, rfl, hlater.mono rfl (Nat.le_succ _), .inr (.inl ⟨fun _ => rfl, ?_⟩)⟩
      rw [List.length_replicate] at hrefused
      exact ⟨hrefused.resolve_right (by omega), rfl, rfl⟩
  | some id =>
    have hcells : h.writable id = some cells := hp
    have hfree : h.locked id = false := by
      by_contra hlocked
      simp [Heap.writable, hlocked] at hcells
    by_cases hzero : n = 0
    · have hrealloc : realloc h (some id) n =
          some ({ h with blocks := update h.blocks id none }, none) := by
        simp [realloc, hzero, Heap.free, hcells]
      refine ⟨_, _, hrealloc, hlater.mono rfl (le_rfl), .inl ⟨rfl, hzero, rfl, ?_⟩⟩
      simp [blockAt, Heap.writable]
    · have hrealloc : realloc h (some id) n = h.realloc (some id) n := by simp [realloc, hzero]
      rw [hrealloc]
      by_cases hg : h.granted h.asked = true
      · have hblock : h.realloc (some id) n = some
            ({ Heap.put { h with blocks := update h.blocks id none } h.asked
                (Heap.resized cells n) with asked := h.asked + 1 }, some h.asked) := by
          simp only [Heap.realloc, hcells, map_some, if_pos (And.intro hg hn)]
        rw [hblock]
        refine ⟨_, _, rfl, hlater.mono rfl (Nat.le_succ _), .inr (.inr ⟨hg, rfl, ?_⟩)⟩
        simp [blockAt, Heap.writable, hnew]
      · have hblock : h.realloc (some id) n = some ({ h with asked := h.asked + 1 }, none) := by
          simp only [Heap.realloc, hcells, map_some, if_neg (fun h => hg (And.left h))]
        rw [hblock]
        exact ⟨_, _, rfl, hlater.mono rfl (Nat.le_succ _),
          .inr (.inl ⟨fun h0 => absurd h0 hzero, by simpa using hg, rfl, hcells⟩)⟩

namespace World

variable {w w' : World} {n : Nat}

/-- The bytes that the array owns. -/
def block (w : World) : Option (List Cell) := blockAt w.heap w.array.members

/-- The array owns what it asked for last, and its members lie in there. -/
structure Good (w : World) : Prop where
  memberSize_pos : 0 < w.array.memberSize
  step_pos : 0 < w.array.step
  owns : ∃ cells, w.block = some cells ∧
    cells.length = (w.array.max * w.array.memberSize) % word ∧
    w.array.len * w.array.memberSize ≤ cells.length
  empty : w.array.members = none → w.array.max = 0
  later : w.heap.Later

variable {h : Heap} {step : Nat}

theorem good_setup (hh : h.Later) {memberSize : Nat} (hms : 0 < memberSize) :
    Good ⟨h, EinaInarray.setup memberSize step⟩ := by
  refine ⟨hms, ?_, ⟨[], rfl, ?_, ?_⟩, fun _ => rfl, hh⟩
  · unfold EinaInarray.setup
    dsimp only
    split <;> omega
  · simp [EinaInarray.setup]
  · simp [EinaInarray.setup]

theorem Good.len_lt (hw : Good w) : w.array.len < word := by
  obtain ⟨cells, -, hlen, hfits⟩ := hw.owns
  have hwrap := Nat.mod_lt (w.array.max * w.array.memberSize) word_pos
  have hle : w.array.len ≤ w.array.len * w.array.memberSize :=
    Nat.le_mul_of_pos_right _ hw.memberSize_pos
  omega

theorem Good.len_le_max (hw : Good w) : w.array.len ≤ w.array.max := by
  obtain ⟨cells, -, hlen, hfits⟩ := hw.owns
  have hwrap := Nat.mod_le (w.array.max * w.array.memberSize) word
  exact le_of_mul_le_mul_right (by omega) hw.memberSize_pos

/-- The size in bytes that an array with `n` members asks for. -/
def asks (w : World) (n : Nat) : Nat := (w.array.newMax n * w.array.memberSize) % word

theorem Good.resizeMembers_cases (hw : Good w) (n : Nat) : ∃ w' ok,
    w.resizeMembers n = some (w', ok) ∧ w'.heap.Later ∧
      ((n < w.array.max ∧ ok = true ∧ w' = w) ∨
      (w.array.max ≤ n ∧ 0 < w.array.newMax n ∧ (w.asks n = 0 → w.array.members = none) ∧
        w.heap.granted w.heap.asked = false ∧ ok = false ∧ w'.array = w.array ∧
        w'.block = w.block) ∨
      (w.array.max ≤ n ∧ w.array.members ≠ none ∧ w.asks n = 0 ∧ 0 < w.array.newMax n ∧ ok = false ∧
        w'.block = none) ∨
      (w.array.max ≤ n ∧ ok = true ∧ ∃ p cells,
        w'.array = { w.array with members := p, max := w.array.newMax n } ∧
        (p = none → w.array.newMax n = 0) ∧ (p ≠ none → w.heap.granted w.heap.asked = true) ∧
        w.block = some cells ∧ w'.block = some (Heap.resized cells (w.asks n)))) := by
  obtain ⟨cells, hcells, -, -⟩ := hw.owns
  by_cases hlt : n < w.array.max
  · exact ⟨w, true, by rw [resizeMembers, if_pos hlt], hw.later, .inl ⟨hlt, rfl, rfl⟩⟩
  have hle : w.array.max ≤ n := Nat.le_of_not_lt hlt
  have hasks : w.asks n < maxSize :=
    lt_of_lt_of_le (Nat.mod_lt _ word_pos) (by decide)
  obtain ⟨h', p', hrealloc, hlater, hcases⟩ := realloc_cases hcells hw.later hasks
  have hresize : w.resizeMembers n = some (if p' = none ∧ 0 < w.array.newMax n
      then ({ w with heap := h' }, false)
      else (⟨h', { w.array with members := p', max := w.array.newMax n }⟩, true)) := by
    rw [asks] at hrealloc
    simp only [resizeMembers, if_neg hlt, hrealloc, map_some]
  rw [hresize]
  rcases hcases with ⟨hsome, hzero, rfl, hfreed⟩ | ⟨hnull, hrefused, rfl, hkept⟩ |
    ⟨hg, hsome, hblock⟩
  · by_cases hmax : 0 < w.array.newMax n
    · rw [if_pos ⟨rfl, hmax⟩]
      have hp : w.array.members ≠ none := fun h => by simp [h] at hsome
      exact ⟨_, _, rfl, hlater, .inr (.inr (.inl ⟨hle, hp, hzero, hmax, rfl, hfreed⟩))⟩
    · rw [if_neg (fun h => hmax h.2)]
      refine ⟨_, _, rfl, hlater, .inr (.inr (.inr ⟨hle, rfl, none, cells, rfl, ?_⟩))⟩
      refine ⟨fun _ => by omega, fun h => absurd rfl h, hcells, ?_⟩
      rw [hzero]
      simp [World.block, blockAt, Heap.resized]
  · by_cases hmax : 0 < w.array.newMax n
    · rw [if_pos ⟨rfl, hmax⟩]
      refine ⟨_, _, rfl, hlater,
        .inr (.inl ⟨hle, hmax, hnull, hrefused, rfl, rfl, ?_⟩)⟩
      exact hkept.trans hcells.symm
    rw [if_neg (fun h => hmax h.2)]
    refine ⟨_, _, rfl, hlater, Or.inr (.inr (.inr ⟨hle, rfl, none, cells, rfl, ?_⟩))⟩
    refine ⟨fun _ => by omega, fun h => absurd rfl h, hcells, ?_⟩
    have hzero : w.array.newMax n = 0 := by omega
    have hasks0 : w.asks n = 0 := by simp [asks, hzero]
    have hmembers : w.array.members = none := hnull hasks0
    rw [block, hmembers] at hcells
    obtain rfl : cells = [] := (some.inj hcells).symm
    rw [hasks0]
    rfl
  · have hp' : p' ≠ none := fun h => by simp [h] at hsome
    rw [if_neg (fun h => hp' h.1)]
    refine ⟨_, _, rfl, hlater, .inr (.inr (.inr ⟨hle, rfl, p', cells, rfl, ?_⟩))⟩
    exact ⟨fun h => absurd h hp', fun _ => hg, hcells, hblock⟩

/-! ### Room for the members -/

/-- The least multiple of the step that is not below a number. -/
def roundUp (n step : Nat) : Nat := (n + step - 1) / step * step

variable {n : Nat}

theorem roundUp_of_dvd (hstep : 0 < step) (h : n % step = 0) :
    roundUp n step = n := by
  have hdiv := Nat.div_add_mod n step
  have hn : n + step - 1 = (step - 1) + n / step * step := by
    rw [mul_comm]
    omega
  rw [roundUp, hn, Nat.add_mul_div_right _ _ hstep, Nat.div_eq_of_lt (by omega), zero_add]
  omega

theorem roundUp_of_not_dvd (hstep : 0 < step) (h : n % step ≠ 0) :
    roundUp n step = (n / step + 1) * step := by
  have hdiv := Nat.div_add_mod n step
  have hlt := Nat.mod_lt n hstep
  have hn : n + step - 1 = (n % step - 1) + (n / step + 1) * step := by
    rw [add_mul, mul_comm]
    omega
  rw [roundUp, hn, Nat.add_mul_div_right _ _ hstep, Nat.div_eq_of_lt (by omega), zero_add]

theorem le_roundUp (hstep : 0 < step) : n ≤ roundUp n step := by
  by_cases h : n % step = 0
  · rw [roundUp_of_dvd hstep h]
  have hdiv := Nat.div_add_mod n step
  have hlt := Nat.mod_lt n hstep
  rw [roundUp_of_not_dvd hstep h, add_mul, mul_comm]
  omega

/-- The number of members that an array has room for once it has room for `n` of them, as it is
before it wraps around. -/
def most (w : World) (n : Nat) : Nat :=
  if n < w.array.max then w.array.max else roundUp n w.array.step

/-- What the size of the block in bytes loses when it wraps around is room to spare. -/
def Spare (w : World) (n : Nat) : Prop :=
  word * (w.most n * w.array.memberSize / word) ≤ (w.most n - n) * w.array.memberSize

/-- More memory is needed, and the request for it is refused.  For no bytes at all nothing is
refused, unless there is no block yet. -/
def Refused (w : World) (n : Nat) : Prop :=
  w.array.max ≤ n ∧ 0 < w.most n % word ∧
    ((w.most n * w.array.memberSize) % word = 0 → w.array.members = none) ∧
    w.heap.granted w.heap.asked = false

/-- There is room for `n` members, or the array is told that there is none. -/
def Room (w : World) (n : Nat) : Prop := Spare w n ∨ Refused w n

theorem Good.newMax_eq (hw : Good w) (hn : n < word) :
    w.array.newMax n = roundUp n w.array.step % word := by
  unfold EinaInarray.newMax
  by_cases h : n % w.array.step = 0
  · rw [if_pos h, roundUp_of_dvd hw.step_pos h, Nat.mod_eq_of_lt hn]
  · rw [if_neg h, roundUp_of_not_dvd hw.step_pos h]

theorem Good.asks_eq (hw : Good w) (hn : n < word) :
    w.asks n = (roundUp n w.array.step * w.array.memberSize) % word := by
  rw [asks, hw.newMax_eq hn, Nat.mod_mul_mod]

theorem Good.le_most (hw : Good w) (n : Nat) : n ≤ w.most n := by
  unfold most
  by_cases h : n < w.array.max
  · rw [if_pos h]
    exact le_of_lt h
  · rw [if_neg h]
    exact le_roundUp hw.step_pos

theorem Good.spare_iff (hw : Good w) :
    Spare w n ↔ n * w.array.memberSize ≤ (w.most n * w.array.memberSize) % word := by
  have hdiv := Nat.div_add_mod (w.most n * w.array.memberSize) word
  have hle := Nat.mul_le_mul_right w.array.memberSize (hw.le_most n)
  rw [Spare, Nat.sub_mul]
  omega

/-- An array that was given room for `n` members. -/
structure Resized (w : World) (n : Nat) (w' : World) : Prop where
  memberSize : w'.array.memberSize = w.array.memberSize
  step : w'.array.step = w.array.step
  len : w'.array.len = w.array.len
  owns : ∃ cells, w'.block = some cells ∧
    cells.length = (w.most n * w.array.memberSize) % word ∧
    cells.length = (w'.array.max * w.array.memberSize) % word
  empty : w'.array.members = none → w'.array.max = 0 ∧ w.array.max ≤ n
  /-- What still fits into the block has stayed there. -/
  keeps : ∀ a b, w.block = some (a ++ b) →
    a.length ≤ (w.most n * w.array.memberSize) % word → ∃ c, w'.block = some (a ++ c)
  later : w'.heap.Later

theorem Good.room_cases (hw : Good w) (hn : n < word) :
    (∃ w', w.resizeMembers n = some (w', false) ∧ Refused w n ∧ w'.array = w.array ∧
      w'.block = w.block ∧ w'.heap.Later) ∨
    (∃ w', w.resizeMembers n = some (w', false) ∧ ¬Room w n ∧ w'.block = none) ∨
    ∃ w', w.resizeMembers n = some (w', true) ∧ ¬Refused w n ∧ Resized w n w' := by
  obtain ⟨w', ok, hresize, hlater, hcases⟩ := hw.resizeMembers_cases n
  have hmost : w.array.max ≤ n → w.most n = roundUp n w.array.step := by
    intro hle
    rw [most, if_neg (not_lt.mpr hle)]
  rcases hcases with ⟨hlt, rfl, rfl⟩ | ⟨hle, hmax, hnull, hrefused, rfl, harray, hblock⟩ |
    ⟨hle, hp, hzero, hmax, rfl, hblock⟩ | ⟨hle, rfl, p, cells, harray, hp, hg, hold, hblock⟩
  · obtain ⟨cells, hcells, hlen, -⟩ := hw.owns
    have hmax : w'.most n = w'.array.max := by rw [most, if_pos hlt]
    refine Or.inr (.inr ⟨w', hresize, fun h => absurd h.1 (not_le.mpr hlt), ?_⟩)
    refine ⟨rfl, rfl, rfl, ⟨cells, hcells, by rw [hlen, hmax], hlen⟩, ?_, ?_, hlater⟩
    · intro hp
      have := hw.empty hp
      omega
    · intro a b hab _
      exact ⟨b, hab⟩
  · rw [hw.newMax_eq hn, ← hmost hle] at hmax
    rw [hw.asks_eq hn, ← hmost hle] at hnull
    exact .inl ⟨w', hresize, ⟨hle, hmax, hnull, hrefused⟩, harray, hblock, hlater⟩
  · rw [hw.asks_eq hn, ← hmost hle] at hzero
    refine .inr (.inl ⟨w', hresize, ?_, hblock⟩)
    rintro (hspare | ⟨-, -, hnull, -⟩)
    · rw [hw.spare_iff, hzero] at hspare
      have hn0 : n = 0 := by
        rcases mul_eq_zero.mp (Nat.le_zero.mp hspare) with h | h
        · exact h
        · exact absurd h (ne_of_gt hw.memberSize_pos)
      rw [hn0] at hmax
      simp [EinaInarray.newMax] at hmax
    · exact hp (hnull hzero)
  · have hbytes : w.asks n = (w.most n * w.array.memberSize) % word := by
      rw [hw.asks_eq hn, hmost hle]
    refine .inr (.inr ⟨w', hresize, ?_, ?_⟩)
    · rintro ⟨-, hpos, -, hrefused⟩
      rw [hw.newMax_eq hn, ← hmost hle] at hp
      by_cases hpn : p = none
      · have := hp hpn
        omega
      · exact absurd (hg hpn) (by simp [hrefused])
    · refine ⟨by rw [harray], by rw [harray], by rw [harray], ⟨_, hblock, ?_, ?_⟩, ?_, ?_, hlater⟩
      · rw [length_resized, hbytes]
      · rw [length_resized, asks, harray]
      · intro hnone
        rw [harray] at hnone ⊢
        exact ⟨hp hnone, hle⟩
      · intro a b hab hlen
        obtain rfl := some.inj (hold.symm.trans hab)
        obtain ⟨c, hc⟩ := resized_append (hbytes ▸ hlen)
        exact ⟨c, by rw [hblock, hc]⟩

/-! ### Copying into the block -/

variable {cells : List Cell} {cs : List Cell} {offset : Nat} {h' : Heap}

theorem blockAt_put {id : Nat} {cells' : List Cell} (hid : h.writable id = some cells) :
    blockAt (h.put id cells') (some id) = some cells' := by
  have hfree : h.locked id = false := by
    by_contra hlocked
    simp [Heap.writable, hlocked] at hid
  rw [blockAt, Heap.writable, put_locked, hfree]
  exact put_self ..

theorem block_write (hblock : w.block = some cells)
    (hw : w.heap.write w.array.members offset cs = some h') :
    ∃ cells', ({ w with heap := h' } : World).block = some cells' ∧
      cells'.length = cells.length := by
  obtain ⟨id, old, cells', hp, hold, -, hlen, rfl⟩ := write_cases hw
  rw [block, hp] at hblock
  obtain rfl := some.inj (hold.symm.trans hblock)
  refine ⟨cells', ?_, hlen⟩
  rw [block, hp]
  exact blockAt_put hold

theorem exists_members (hblock : w.block = some cells) (hpos : 0 < cells.length) :
    ∃ id, w.array.members = some id ∧ w.heap.writable id = some cells := by
  cases hp : w.array.members with
  | none =>
    rw [block, hp] at hblock
    rw [← some.inj hblock] at hpos
    exact absurd hpos (lt_irrefl _)
  | some id =>
    rw [block, hp] at hblock
    exact ⟨id, rfl, hblock⟩

theorem write_fits {d : List Cell} {i : Nat} (hblock : w.block = some cells) (hpos : 0 < d.length)
    (hfits : i + d.length ≤ cells.length) :
    ∃ h', w.heap.write w.array.members i d = some h' := by
  obtain ⟨id, hp, hcells⟩ := exists_members hblock (by omega)
  rw [hp, Heap.write, bind_some, hcells, bind_some, if_pos hfits]
  exact ⟨_, rfl⟩

theorem move_fits {i j k : Nat} (hblock : w.block = some cells) (hpos : 0 < k)
    (hdst : i + k ≤ cells.length) (hsrc : j + k ≤ cells.length) :
    ∃ h', w.heap.move w.array.members i j k = some h' := by
  obtain ⟨id, hp, hcells⟩ := exists_members hblock (by omega)
  have hread : w.heap.read w.array.members j k = some ((cells.drop j).take k) := by
    have hblocks : w.heap.blocks id = some cells := by
      unfold Heap.writable at hcells
      by_cases hlocked : w.heap.locked id = true
      · simp [hlocked] at hcells
      · rwa [if_neg hlocked] at hcells
    rw [hp, Heap.read, bind_some, hblocks, bind_some, if_pos hsrc]
  rw [Heap.move, hread]
  have hlen : ((cells.drop j).take k).length = k := read_length hread
  exact write_fits hblock (by omega) (by omega)

theorem move_none {dst src k : Nat} (hblock : w.block = some cells)
    (hdst : cells.length < dst + k) :
    w.heap.move w.array.members dst src k = none := by
  by_contra hsome
  obtain ⟨h', hmove⟩ := ne_none_iff_exists'.mp hsome
  obtain ⟨cs, hread, hwrite⟩ := bind_eq_some_iff.mp hmove
  obtain ⟨id, old, -, hp, hold, hfits, -, -⟩ := write_cases hwrite
  rw [block, hp] at hblock
  obtain rfl := some.inj (hold.symm.trans hblock)
  rw [read_length hread] at hfits
  omega

theorem write_later {p : Option Nat}
    (hwrite : h.write p offset cs = some h') (hlater : h.Later) : h'.Later := by
  obtain ⟨id, -, cells', -, -, -, -, rfl⟩ := write_cases hwrite
  exact hlater.mono rfl (le_rfl)

variable {position : Nat} {data : List Cell}

theorem copyTo_cases (hblock : w.block = some cells)
    (h : w.copyTo position data = some w') : w'.array = w.array ∧
      (∃ cells', w'.block = some cells' ∧ cells'.length = cells.length) ∧
      (w.heap.Later → w'.heap.Later) := by
  obtain ⟨h', hwrite, rfl⟩ := map_eq_some_iff.mp h
  exact ⟨rfl, block_write hblock hwrite, write_later hwrite⟩

variable {count : Nat}

theorem moveUp_cases (hblock : w.block = some cells) (h : w.moveUp position count = some w') :
    w'.array = w.array ∧
      (∃ cells', w'.block = some cells' ∧ cells'.length = cells.length) ∧
      (w.heap.Later → w'.heap.Later) := by
  unfold moveUp at h
  by_cases hlt : position < w.array.len
  · rw [if_pos hlt] at h
    obtain ⟨h', hmove, rfl⟩ := map_eq_some_iff.mp h
    obtain ⟨cs, -, hwrite⟩ := bind_eq_some_iff.mp hmove
    exact ⟨rfl, block_write hblock hwrite, write_later hwrite⟩
  · rw [if_neg hlt] at h
    obtain rfl := some.inj h
    exact ⟨rfl, ⟨cells, hblock, rfl⟩, id⟩

/-! ### The calls -/

/-- The calls that make room. -/
inductive Call
  | resize (newSize : Nat)
  | push (data : List Cell)
  | grow (size : Nat)
  | allocAt (position memberCount : Nat)

/-- A call, and whether it reports success. -/
def Call.run (w : World) : Call → Option (World × Bool)
  | .resize newSize => w.resize newSize
  | .push data => (w.push data).map fun r => (r.1, decide (r.2 ≠ -1))
  | .grow size => (w.grow size).map fun r => (r.1, decide (r.2 ≠ null))
  | .allocAt position memberCount =>
    (w.allocAt position memberCount).map fun r => (r.1, decide (r.2 ≠ null))

/-- The numbers are `unsigned int`, and a datum is as large as a member. -/
def Call.Given (w : World) : Call → Prop
  | .resize newSize => newSize < word
  | .push data => data.length = w.array.memberSize
  | .grow size => size < word
  | .allocAt position memberCount => position < word ∧ memberCount < word

/-- The block is large enough for the members. -/
def Enough (w : World) : Prop :=
  ∃ cells, w.block = some cells ∧ w.array.len * w.array.memberSize ≤ cells.length

/-- The array still owns its block, with the length and the maximum it had. -/
def Kept (w w' : World) : Prop :=
  w'.array.len = w.array.len ∧ w'.array.max = w.array.max ∧
    w'.array.members = w.array.members ∧ w'.block = w.block

/-- There is enough memory where success is reported, and no change of the array where it is
not. -/
def Ends (w : World) (r : Option (World × Bool)) : Prop :=
  ∃ w' ok, r = some (w', ok) ∧ if ok = true then Enough w' else Kept w w'

/-- A call ends well. -/
def Call.Right (w : World) (c : Call) : Prop := Ends w (c.run w)

/-- When a call ends well. -/
def Call.Room (w : World) : Call → Prop
  | .resize newSize => World.Room w newSize
  | .push _ => w.array.len + 1 < word ∧ World.Room w (w.array.len + 1)
  | .grow size => size = 0 ∨ World.Room w ((w.array.len + size) % word)
  | .allocAt position memberCount =>
    w.array.len < position ∨ memberCount = 0 ∨
      (World.Room w ((w.array.len + memberCount) % word) ∧
        (position = w.array.len ∨ w.array.len + memberCount < word))

/-! ### When a call ends well -/

/-- A call that makes room for `n` members, and then does what `k` says, ends well if there is
room, provided that what `k` does ends well exactly if the block is large enough. -/
theorem Good.ends_iff (hw : Good w) (hn : n < word) {r : Option (World × Bool)}
    {k : World → Option (World × Bool)}
    (hrefused : ∀ w', w.resizeMembers n = some (w', false) → r = some (w', false))
    (hgrown : ∀ w', w.resizeMembers n = some (w', true) → r = k w')
    (hk : ∀ w', Resized w n w' → (Ends w (k w') ↔ Spare w n)) : Ends w r ↔ Room w n := by
  rcases hw.room_cases hn with ⟨w', hresize, href, harray, hblock, -⟩ |
    ⟨w', hresize, hroom, hblock⟩ |
    ⟨w', hresize, href, hresized⟩
  · refine iff_of_true ⟨w', false, hrefused w' hresize, ?_⟩ (.inr href)
    exact ⟨by rw [harray], by rw [harray], by rw [harray], hblock⟩
  · refine iff_of_false ?_ hroom
    rintro ⟨w2, ok, hr, hend⟩
    rw [hrefused w' hresize] at hr
    obtain ⟨rfl, rfl⟩ := Prod.mk.inj (some.inj hr)
    obtain ⟨cells, hcells, -⟩ := hw.owns
    have hkept : Kept w w' := by simpa using hend
    replace hkept := hkept.2.2.2
    rw [hblock, hcells] at hkept
    simp at hkept
  · rw [hgrown w' hresize, hk w' hresized]
    exact ⟨.inl, fun h => h.resolve_right href⟩

theorem Resized.enough_iff (hw : Good w) (h : Resized w n w') (w2 : World)
    (hsize : w2.array.memberSize = w'.array.memberSize)
    (hblock : ∃ cells cells', w'.block = some cells ∧ w2.block = some cells' ∧
      cells'.length = cells.length) : Enough (w2.setLen n) ↔ Spare w n := by
  obtain ⟨cells, hcells, hlen, -⟩ := h.owns
  obtain ⟨old, new, hold, hnew, hnewlen⟩ := hblock
  obtain rfl := some.inj (hcells.symm.trans hold)
  rw [hw.spare_iff, ← hlen, ← hnewlen]
  constructor
  · rintro ⟨c, hc, hfits⟩
    obtain rfl := some.inj (hnew.symm.trans hc)
    rw [← h.memberSize, ← hsize]
    exact hfits
  · intro hfits
    refine ⟨new, hnew, ?_⟩
    rw [← h.memberSize, ← hsize] at hfits
    exact hfits

theorem Good.resize_right (hw : Good w) (hn : n < word) :
    Ends w (w.resize n) ↔ Room w n := by
  refine hw.ends_iff hn (k := fun w' => some (w'.setLen n, true)) ?_ ?_ fun w' hres => ?_
  · intro w' h
    simp [resize, h]
  · intro w' h
    simp [resize, h]
  · obtain ⟨cells, hcells, -, -⟩ := hres.owns
    rw [← hres.enough_iff hw w' rfl ⟨cells, cells, hcells, hcells, rfl⟩]
    constructor
    · rintro ⟨w2, ok, hr, hend⟩
      obtain ⟨rfl, rfl⟩ := Prod.mk.inj (some.inj hr)
      exact hend
    · intro hend
      exact ⟨_, true, rfl, hend⟩

theorem Resized.null_spare (hw : Good w) (h : Resized w n w') (hp : w'.array.members = none)
    (hspare : Spare w n) : n = 0 ∧ w.array.len = 0 := by
  obtain ⟨cells, hcells, hlen, -⟩ := h.owns
  have hn : n = 0 := by
    rw [block, hp] at hcells
    rw [hw.spare_iff, ← hlen, ← some.inj hcells] at hspare
    rcases mul_eq_zero.mp (Nat.le_zero.mp hspare) with h | h
    · exact h
    · exact absurd h (ne_of_gt hw.memberSize_pos)
  have hmax := (h.empty hp).2
  have hle := hw.len_le_max
  exact ⟨hn, by omega⟩

variable {size : Nat} {c : Call}

theorem add_mod_ne {len : Nat} (hlen : len < word) (hpos : 0 < size) (hsize : size < word) :
    (len + size) % word ≠ len := by
  by_cases hlt : len + size < word
  · rw [Nat.mod_eq_of_lt hlt]
    omega
  · rw [Nat.mod_eq_sub_mod (by omega), Nat.mod_eq_of_lt (by omega)]
    omega

theorem Good.add_right (hw : Good w) (hpos : 0 < size) (hsize : size < word) {w' w2 : World}
    (hres : Resized w ((w.array.len + size) % word) w') (harray : w2.array = w'.array)
    (hblock : ∃ cells cells', w'.block = some cells ∧ w2.block = some cells' ∧ cells'.length =
      cells.length) :
    Ends w (some (w2.setLen ((w.array.len + size) % word), decide (w2.get position ≠ null))) ↔
      Spare w ((w.array.len + size) % word) := by
  have hne := add_mod_ne hw.len_lt hpos hsize
  rw [← hres.enough_iff hw w2 (by rw [harray]) hblock]
  constructor
  · rintro ⟨w3, ok, hr, hend⟩
    obtain ⟨rfl, rfl⟩ := Prod.mk.inj (some.inj hr)
    by_cases hok : w2.get position ≠ null
    · rwa [if_pos (decide_eq_true hok)] at hend
    · rw [if_neg (by simpa using hok)] at hend
      exact absurd hend.1 hne
  · intro hend
    refine ⟨_, _, rfl, ?_⟩
    have hok : w2.get position ≠ null := by
      intro hnull
      have hp : w'.array.members = none := by
        rw [← harray]
        exact (Prod.mk.inj hnull).1
      have hspare := (hres.enough_iff hw w2 (by rw [harray]) hblock).mp hend
      obtain ⟨hn, hlen⟩ := hres.null_spare hw hp hspare
      omega
    rwa [if_pos (decide_eq_true hok)]

theorem Good.grow_right (hw : Good w) (hsize : size < word) :
    Call.Right w (.grow size) ↔ Call.Room w (.grow size) := by
  by_cases hzero : size = 0
  · refine iff_of_true ⟨w, false, ?_, rfl, rfl, rfl, rfl⟩ (.inl hzero)
    simp [Call.run, grow, hzero]
  rw [Call.Room, or_iff_right hzero]
  refine hw.ends_iff (Nat.mod_lt _ word_pos)
    (k := fun w' => some (w'.setLen ((w.array.len + size) % word),
      decide (w'.get w.array.len ≠ null))) ?_ ?_ fun w' hres => ?_
  · intro w' h
    simp [Call.run, grow, hzero, h]
  · intro w' h
    simp [Call.run, grow, hzero, h]
  · obtain ⟨cells, hcells, -, -⟩ := hres.owns
    exact hw.add_right (pos_of_ne_zero hzero) hsize hres rfl
      ⟨cells, cells, hcells, hcells, rfl⟩

theorem toInt_ne (hn : n + 1 < word) : toInt n ≠ -1 := by
  unfold toInt
  split <;> omega

theorem Good.push_right (hw : Good w)
    (hdata : data.length = w.array.memberSize) :
    Call.Right w (.push data) ↔ Call.Room w (.push data) := by
  have hrun : ∀ w' ok, w.resizeMembers ((w.array.len + 1) % word) = some (w', ok) →
      Call.run w (.push data) = if ok = true then
        (w'.copyTo w'.array.len data).map fun w2 => (w2.setLen ((w.array.len + 1) % word),
          decide (toInt (((w.array.len + 1) % word + word - 1) % word) ≠ -1))
      else some (w', false) := by
    intro w' ok h
    cases ok <;> simp [Call.run, push, h, comp_def]
  by_cases hlt : w.array.len + 1 < word
  · rw [Call.Room, and_iff_right hlt]
    rw [Nat.mod_eq_of_lt hlt] at hrun
    refine hw.ends_iff hlt (fun w' h => hrun w' false h) (fun w' h => hrun w' true h)
      fun w' hres => ?_
    have hok : toInt ((w.array.len + 1 + word - 1) % word) ≠ -1 := by
      rw [show w.array.len + 1 + word - 1 = w.array.len + word by omega, Nat.add_mod_right,
        Nat.mod_eq_of_lt hw.len_lt]
      exact toInt_ne hlt
    obtain ⟨cells, hcells, hlen, -⟩ := hres.owns
    simp only [if_true, decide_eq_true hok]
    constructor
    · rintro ⟨w2, ok, hr, hend⟩
      obtain ⟨w3, hcopy, heq⟩ := map_eq_some_iff.mp hr
      obtain ⟨rfl, rfl⟩ := Prod.mk.inj heq
      obtain ⟨harray, ⟨cells', hcells', hlen'⟩, -⟩ := copyTo_cases hcells hcopy
      exact (hres.enough_iff hw w3 (by rw [harray])
        ⟨cells, cells', hcells, hcells', hlen'⟩).mp hend
    · intro hspare
      have hfits := hw.spare_iff.mp hspare
      have hwrap := Nat.mod_lt (w.most (w.array.len + 1) * w.array.memberSize) word_pos
      rw [add_mul] at hfits
      have hoffset : w'.array.offset w'.array.len = w.array.len * w.array.memberSize := by
        rw [EinaInarray.offset, hres.len, hres.memberSize]
        exact Nat.mod_eq_of_lt (by omega)
      have hms := hw.memberSize_pos
      obtain ⟨h', hwrite⟩ := write_fits (i := w'.array.offset w'.array.len) (d := data)
        hcells (by omega) (by omega)
      have hcopy : w'.copyTo w'.array.len data = some { w' with heap := h' } := by
        rw [copyTo, hwrite, map_some]
      obtain ⟨cells', hcells', hlen'⟩ := block_write hcells hwrite
      refine ⟨_, _, by rw [hcopy, map_some], ?_⟩
      exact (hres.enough_iff hw { w' with heap := h' } rfl
        ⟨cells, cells', hcells, hcells', hlen'⟩).mpr hspare
  · refine iff_of_false ?_ (fun h => hlt h.1)
    have hlast : w.array.len = word - 1 := by
      have := hw.len_lt
      omega
    have hle := hw.len_le_max
    have hmax : 0 < w.array.max := by
      have : 0 < word - 1 := by decide
      omega
    have hzero : (w.array.len + 1) % word = 0 := by
      rw [hlast]
      decide
    have hresize : w.resizeMembers ((w.array.len + 1) % word) = some (w, true) := by
      rw [hzero, resizeMembers, if_pos hmax]
    rintro ⟨w2, ok, hr, hend⟩
    rw [hrun w true hresize] at hr
    obtain ⟨w3, -, heq⟩ := map_eq_some_iff.mp hr
    obtain ⟨rfl, rfl⟩ := Prod.mk.inj heq
    have hres : toInt (((w.array.len + 1) % word + word - 1) % word) = -1 := by
      rw [hzero]
      decide
    rw [if_neg (by simp [hres])] at hend
    have hlen : (w.array.len + 1) % word = w.array.len := hend.1
    have hpos : 0 < word - 1 := by decide
    omega

theorem Resized.moveUp_fits (hw : Good w) (hpos : position ≤ w.array.len)
    (hres : Resized w (w.array.len + count) w') (hspare : Spare w (w.array.len + count)) :
    ∃ w2, w'.moveUp position count = some w2 := by
  obtain ⟨cells, hcells, hlen, -⟩ := hres.owns
  have hfits := hw.spare_iff.mp hspare
  have hwrap := Nat.mod_lt (w.most (w.array.len + count) * w.array.memberSize) word_pos
  rw [add_mul] at hfits
  have hsplit : (w.array.len - position) * w.array.memberSize + position * w.array.memberSize =
      w.array.len * w.array.memberSize := by
    rw [← add_mul, Nat.sub_add_cancel hpos]
  unfold moveUp EinaInarray.offset
  rw [hres.len, hres.memberSize]
  by_cases hmoves : position < w.array.len
  · have hsome : 0 < (w.array.len - position) * w.array.memberSize :=
      mul_pos (by omega) hw.memberSize_pos
    rw [if_pos hmoves]
    dsimp only
    rw [Nat.mod_eq_of_lt (by omega),
      Nat.mod_eq_of_lt (by omega),
      Nat.mod_eq_of_lt (by omega)]
    obtain ⟨h', hmove⟩ := move_fits
      (i := position * w.array.memberSize + count * w.array.memberSize)
      (j := position * w.array.memberSize) hcells hsome (by omega) (by omega)
    rw [hmove]
    exact ⟨_, rfl⟩
  · rw [if_neg hmoves]
    exact ⟨_, rfl⟩

theorem Good.moveUp_wraps (hw : Good w) (hpos : position < w.array.len) (hcount : count < word)
    (hwrap : word ≤ w.array.len + count) :
    w.moveUp position count = none := by
  obtain ⟨cells, hcells, hlen, hfits⟩ := hw.owns
  have hbytes := Nat.mod_lt (w.array.max * w.array.memberSize) word_pos
  have hms := hw.memberSize_pos
  -- the members that stay below the new length, and those above it
  obtain ⟨low, hlow⟩ : ∃ low, w.array.len + count = word + low :=
    ⟨_, (Nat.add_sub_of_le hwrap).symm⟩
  obtain ⟨high, hhigh⟩ : ∃ high, w.array.len = low + high := ⟨w.array.len - low, by omega⟩
  have hdown : count * w.array.memberSize + high * w.array.memberSize =
      word * w.array.memberSize := by
    rw [← add_mul]
    congr 1
    omega
  have hsplit : w.array.len * w.array.memberSize =
      low * w.array.memberSize + high * w.array.memberSize := by
    rw [hhigh, add_mul]
  have hhighpos : 0 < high * w.array.memberSize := mul_pos (by omega) hms
  have hword : word * w.array.memberSize = word * (w.array.memberSize - 1) + word := by
    rw [← Nat.mul_succ, Nat.succ_eq_add_one, Nat.sub_add_cancel hms]
  have hcountmod : (count * w.array.memberSize) % word = word - high * w.array.memberSize := by
    have heq : count * w.array.memberSize =
        (word - high * w.array.memberSize) + word * (w.array.memberSize - 1) := by omega
    rw [heq, Nat.add_mul_mod_self_left, Nat.mod_eq_of_lt (by omega)]
  have hmoved : (w.array.len - position) * w.array.memberSize +
      position * w.array.memberSize = w.array.len * w.array.memberSize := by
    rw [← add_mul, Nat.sub_add_cancel (le_of_lt hpos)]
  unfold moveUp EinaInarray.offset
  rw [if_pos hpos]
  dsimp only
  rw [hcountmod, Nat.mod_eq_of_lt (by omega),
    Nat.mod_eq_of_lt (by omega)]
  rw [move_none hcells (by omega), map_none]

theorem Good.allocAt_right (hw : Good w) (hcount : count < word) :
    Call.Right w (.allocAt position count) ↔ Call.Room w (.allocAt position count) := by
  by_cases hbehind : w.array.len < position
  · refine iff_of_true ⟨w, false, ?_, rfl, rfl, rfl, rfl⟩ (.inl hbehind)
    simp [Call.run, allocAt, hbehind]
  by_cases hzero : count = 0
  · refine iff_of_true ⟨w, false, ?_, rfl, rfl, rfl, rfl⟩ (.inr (.inl hzero))
    simp [Call.run, allocAt, hzero]
  rw [Call.Room, or_iff_right hbehind, or_iff_right hzero]
  have hrun : ∀ w' ok, w.resizeMembers ((w.array.len + count) % word) = some (w', ok) →
      Call.run w (.allocAt position count) = if ok = true then
        (w'.moveUp position count).map fun w2 => (w2.setLen ((w.array.len + count) % word),
          decide (w2.get position ≠ Inarray.null))
      else some (w', false) := by
    intro w' ok h
    cases ok <;> simp [Call.run, allocAt, hbehind, hzero, h, comp_def]
  have hpos : 0 < count := pos_of_ne_zero hzero
  by_cases hwraps : position < w.array.len ∧ word ≤ w.array.len + count
  · refine iff_of_false ?_ (fun h => by omega)
    rintro ⟨w2, ok, hr, -⟩
    have hlt := hw.len_lt
    have hle := hw.len_le_max
    have hresize : w.resizeMembers ((w.array.len + count) % word) = some (w, true) := by
      rw [Nat.mod_eq_sub_mod hwraps.2, Nat.mod_eq_of_lt (by omega), resizeMembers,
        if_pos (by omega)]
    rw [hrun w true hresize, hw.moveUp_wraps hwraps.1 hcount hwraps.2] at hr
    simp at hr
  · rw [and_iff_left (by omega)]
    refine hw.ends_iff (Nat.mod_lt _ word_pos) (fun w' h => hrun w' false h)
      (fun w' h => hrun w' true h) fun w' hres => ?_
    obtain ⟨cells, hcells, -, -⟩ := hres.owns
    have hmoved : ∀ w2, w'.moveUp position count = some w2 →
        (Ends w (some (w2.setLen ((w.array.len + count) % word),
          decide (w2.get position ≠ Inarray.null))) ↔ Spare w ((w.array.len + count) % word)) := by
      intro w2 hmove
      obtain ⟨harray, ⟨cells', hcells', hlen'⟩, -⟩ := moveUp_cases hcells hmove
      exact hw.add_right hpos hcount hres harray ⟨cells, cells', hcells, hcells', hlen'⟩
    constructor
    · rintro ⟨w3, ok, hr, hend⟩
      obtain ⟨w2, hmove, heq⟩ := map_eq_some_iff.mp hr
      exact (hmoved w2 hmove).mp ⟨w3, ok, congrArg some heq, hend⟩
    · intro hspare
      have hmoves : ∃ w2, w'.moveUp position count = some w2 := by
        by_cases hlast : position < w.array.len
        · have hlt : w.array.len + count < word := by omega
          rw [Nat.mod_eq_of_lt hlt] at hres hspare
          exact hres.moveUp_fits hw (le_of_lt hlast) hspare
        · refine ⟨w', ?_⟩
          rw [moveUp, hres.len, if_neg hlast]
      obtain ⟨w2, hmove⟩ := hmoves
      rw [hmove]
      exact (hmoved w2 hmove).mpr hspare

theorem Good.right_iff (hw : Good w) (hc : c.Given w) : c.Right w ↔ c.Room w := by
  cases c with
  | resize newSize => exact hw.resize_right hc
  | push data => exact hw.push_right hc
  | grow size => exact hw.grow_right hc
  | allocAt position count => exact hw.allocAt_right hc.2

/-! ### Arrays stay good -/

/-- An array with another number of members, whose block has other contents. -/
structure Filled (w : World) (n : Nat) (w' : World) : Prop where
  array : w'.array = { w.array with len := n }
  block : ∀ cells, w.block = some cells →
    ∃ cells', w'.block = some cells' ∧ cells'.length = cells.length
  later : w.heap.Later → w'.heap.Later

theorem Good.of_kept (hw : Good w) (harray : w'.array = w.array) (hblock : w'.block = w.block)
    (hlater : w'.heap.Later) : Good w' := by
  refine ⟨?_, ?_, ?_, ?_, hlater⟩
  · rw [harray]
    exact hw.memberSize_pos
  · rw [harray]
    exact hw.step_pos
  · rw [harray, hblock]
    exact hw.owns
  · rw [harray]
    exact hw.empty

theorem Good.of_filled (hw : Good w) {w1 : World} (hres : Resized w n w1) (h : Filled w1 n w')
    (hfits : ∀ cells, w'.block = some cells →
      w'.array.len * w'.array.memberSize ≤ cells.length) : Good w' := by
  obtain ⟨harray, hblock, hlater⟩ := h
  obtain ⟨cells, hcells, -, hmax⟩ := hres.owns
  obtain ⟨cells', hcells', hlen'⟩ := hblock cells hcells
  have hms : w'.array.memberSize = w.array.memberSize := by rw [harray, ← hres.memberSize]
  have hmax' : w'.array.max = w1.array.max := by rw [harray]
  refine ⟨hms ▸ hw.memberSize_pos, ?_, ⟨cells', hcells', ?_, hfits cells' hcells'⟩, ?_,
    hlater hres.later⟩
  · rw [harray]
    exact hres.step ▸ hw.step_pos
  · rw [hlen', hmax, hms, hmax']
  · rw [harray]
    exact fun hp => (hres.empty hp).1

theorem Filled.of_setLen {w2 : World} (harray : w2.array = w.array)
    (hblock : ∀ cells, w.block = some cells →
      ∃ cells', w2.block = some cells' ∧ cells'.length = cells.length)
    (hlater : w.heap.Later → w2.heap.Later) : Filled w n (w2.setLen n) :=
  ⟨by rw [setLen, harray], hblock, hlater⟩

/-- A call does nothing, or cannot enlarge the block, or gives an array that has room for `n`
members another length. -/
theorem Call.run_cases (hc : c.Given w) {ok : Bool} (hrun : c.run w = some (w', ok)) :
    w' = w ∨ ∃ n < word, w.resizeMembers n = some (w', false) ∨
      ∃ w1, w.resizeMembers n = some (w1, true) ∧ Filled w1 n w' := by
  cases c with
  | resize newSize =>
    obtain ⟨⟨w1, grown⟩, hresize, heq⟩ := map_eq_some_iff.mp hrun
    refine .inr ⟨newSize, hc, ?_⟩
    cases grown with
    | false =>
      obtain ⟨rfl, -⟩ := Prod.mk.inj heq
      exact .inl hresize
    | true =>
      obtain ⟨rfl, -⟩ := Prod.mk.inj heq
      exact .inr ⟨w1, hresize, .of_setLen rfl (fun cells hcells => ⟨cells, hcells, rfl⟩) id⟩
  | push data =>
    obtain ⟨⟨w3, r⟩, hpush, heq⟩ := map_eq_some_iff.mp hrun
    obtain ⟨rfl, -⟩ := Prod.mk.inj heq
    obtain ⟨⟨w1, grown⟩, hresize, hrest⟩ := bind_eq_some_iff.mp hpush
    refine .inr ⟨(w.array.len + 1) % word, Nat.mod_lt _ word_pos, ?_⟩
    cases grown with
    | false =>
      obtain ⟨rfl, -⟩ := Prod.mk.inj (some.inj hrest)
      exact .inl hresize
    | true =>
      obtain ⟨w2, hcopy, heq⟩ := map_eq_some_iff.mp hrest
      obtain ⟨rfl, -⟩ := Prod.mk.inj heq
      obtain ⟨h', hwrite, rfl⟩ := map_eq_some_iff.mp hcopy
      exact .inr ⟨w1, hresize, .of_setLen rfl (fun cells hcells => block_write hcells hwrite)
        (write_later hwrite)⟩
  | grow size =>
    obtain ⟨⟨w3, r⟩, hgrow, heq⟩ := map_eq_some_iff.mp hrun
    obtain ⟨rfl, -⟩ := Prod.mk.inj heq
    unfold World.grow at hgrow
    by_cases hzero : size = 0
    · rw [if_pos hzero] at hgrow
      exact .inl (Prod.mk.inj (some.inj hgrow)).1.symm
    · rw [if_neg hzero] at hgrow
      obtain ⟨⟨w1, grown⟩, hresize, heq⟩ := map_eq_some_iff.mp hgrow
      refine .inr ⟨(w.array.len + size) % word, Nat.mod_lt _ word_pos, ?_⟩
      cases grown with
      | false =>
        obtain ⟨rfl, -⟩ := Prod.mk.inj heq
        exact .inl hresize
      | true =>
        obtain ⟨rfl, -⟩ := Prod.mk.inj heq
        exact .inr ⟨w1, hresize, .of_setLen rfl (fun cells hcells => ⟨cells, hcells, rfl⟩) id⟩
  | allocAt position count =>
    obtain ⟨⟨w3, r⟩, halloc, heq⟩ := map_eq_some_iff.mp hrun
    obtain ⟨rfl, -⟩ := Prod.mk.inj heq
    unfold World.allocAt at halloc
    by_cases hbehind : w.array.len < position
    · rw [if_pos hbehind] at halloc
      exact .inl (Prod.mk.inj (some.inj halloc)).1.symm
    rw [if_neg hbehind] at halloc
    by_cases hzero : count = 0
    · rw [if_pos hzero] at halloc
      exact .inl (Prod.mk.inj (some.inj halloc)).1.symm
    · rw [if_neg hzero] at halloc
      obtain ⟨⟨w1, grown⟩, hresize, hrest⟩ := bind_eq_some_iff.mp halloc
      refine .inr ⟨(w.array.len + count) % word, Nat.mod_lt _ word_pos, ?_⟩
      cases grown with
      | false =>
        obtain ⟨rfl, -⟩ := Prod.mk.inj (some.inj hrest)
        exact .inl hresize
      | true =>
        obtain ⟨w2, hmove, heq⟩ := map_eq_some_iff.mp hrest
        obtain ⟨rfl, -⟩ := Prod.mk.inj heq
        by_cases hlt : position < w1.array.len
        · rw [moveUp, if_pos hlt] at hmove
          obtain ⟨h', hcells, rfl⟩ := map_eq_some_iff.mp hmove
          obtain ⟨cs, -, hwrite⟩ := bind_eq_some_iff.mp hcells
          exact .inr ⟨w1, hresize, .of_setLen rfl (fun cells hcells => block_write hcells hwrite)
            (write_later hwrite)⟩
        · rw [moveUp, if_neg hlt] at hmove
          obtain rfl := some.inj hmove
          exact .inr ⟨w1, hresize, .of_setLen rfl (fun cells hcells => ⟨cells, hcells, rfl⟩) id⟩

/-- **A call that ends well leaves a good array.** -/
theorem Good.after (hw : Good w) (hc : c.Given w) (hright : c.Right w) :
    ∃ w' ok, c.run w = some (w', ok) ∧ Good w' := by
  obtain ⟨w', ok, hrun, hend⟩ := hright
  refine ⟨w', ok, hrun, ?_⟩
  obtain ⟨old, hold, -, hfits⟩ := hw.owns
  rcases Call.run_cases hc hrun with rfl | ⟨n, hn, hresize | ⟨w1, hresize, hfilled⟩⟩
  · exact hw
  · rcases hw.room_cases hn with ⟨w2, hroom, -, harray, hblock, hlater⟩ | ⟨w2, hroom, -, hblock⟩ |
      ⟨w2, hroom, -, -⟩
    · obtain ⟨rfl, -⟩ := Prod.mk.inj (some.inj (hresize.symm.trans hroom))
      exact hw.of_kept harray hblock hlater
    · -- the block was given back, which is not an end that is right
      obtain ⟨rfl, -⟩ := Prod.mk.inj (some.inj (hresize.symm.trans hroom))
      by_cases hok : ok = true
      · rw [if_pos hok] at hend
        obtain ⟨cells, hcells, -⟩ := hend
        simp [hblock] at hcells
      · rw [if_neg hok] at hend
        have hkept := hend.2.2.2
        rw [hblock, hold] at hkept
        simp at hkept
    · simp [hresize] at hroom
  · rcases hw.room_cases hn with ⟨w2, hroom, -⟩ | ⟨w2, hroom, -⟩ | ⟨w2, hroom, -, hres⟩
    · simp [hresize] at hroom
    · simp [hresize] at hroom
    · obtain ⟨rfl, -⟩ := Prod.mk.inj (some.inj (hresize.symm.trans hroom))
      refine hw.of_filled hres hfilled fun cells hcells => ?_
      by_cases hok : ok = true
      · rw [if_pos hok] at hend
        obtain ⟨cells', hcells', hlen⟩ := hend
        obtain rfl := some.inj (hcells.symm.trans hcells')
        exact hlen
      · rw [if_neg hok] at hend
        rw [hend.2.2.2, hold] at hcells
        obtain rfl := some.inj hcells
        rw [hend.1, hfilled.array]
        exact hres.memberSize ▸ hfits

/-! ### When the calls are right -/

/--
**When the calls of an inline array are right.**  A call of `eina_inarray_resize`,
`eina_inarray_push`, `eina_inarray_grow` or `eina_inarray_alloc_at` ends well, with a block that is
large enough for the members where it reports success, and with the block and the fields as they
were where it does not, if and only if the room it asks for does not get lost when it wraps around.
Such a call leaves an array that owns what it asked for last.
-/
theorem memory_exact (hw : Good w) (hc : c.Given w) : (c.Right w ↔ c.Room w) ∧
    (c.Room w → ∃ w' ok, c.run w = some (w', ok) ∧ Good w') :=
  ⟨hw.right_iff hc, fun hroom => hw.after hc ((hw.right_iff hc).mpr hroom)⟩

/-- An array of three members of 16 bytes, with room for one more. -/
def small : World where
  heap := { blocks := update (fun _ => none) 0 (some (List.replicate 64 (some 7))), asked := 1 }
  array := { memberSize := 16, len := 3, max := 4, step := 4, members := some 0 }

theorem good_small : Good small :=
  ⟨by decide, by decide, ⟨List.replicate 64 (some 7), rfl, by decide, by decide⟩, by decide,
    fun _ _ => rfl⟩

/-- Two more members need a larger block. -/
theorem memory_exact_small : Call.Right small (.allocAt 1 2) ∧
    ∃ w' ok, Call.run small (.allocAt 1 2) = some (w', ok) ∧ Good w' := by
  have hgiven : Call.Given small (.allocAt 1 2) := ⟨by decide, by decide⟩
  have hspare : Spare small 5 := show _ ≤ _ by decide
  obtain ⟨hiff, hafter⟩ := memory_exact good_small hgiven
  have hroom : Call.Room small (.allocAt 1 2) := .inr (.inr ⟨.inl hspare, .inr (by decide)⟩)
  exact ⟨hiff.mpr hroom, hafter hroom⟩

/-- A new array of members of 64 KiB. -/
def wide : World := ⟨{}, EinaInarray.setup 65536 1⟩

/-- The size of 65536 members of 64 KiB wraps around to nothing. -/
theorem wide_lacks_memory : Good wide ∧ Call.Given wide (.resize 65536) ∧
    ¬Call.Right wide (.resize 65536) := by
  have hgood : Good wide := good_setup (fun _ _ => rfl) (by decide)
  have hgiven : Call.Given wide (.resize 65536) := show 65536 < word by decide
  refine ⟨hgood, hgiven, fun hright => ?_⟩
  rcases (hgood.right_iff hgiven).mp hright with hspare | ⟨-, -, -, hrefused⟩
  · exact absurd hspare (show ¬_ ≤ _ by decide)
  · exact absurd hrefused (by decide)

end World

end Eina.Inarray
