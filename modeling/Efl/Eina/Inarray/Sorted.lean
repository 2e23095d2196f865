/-
Sorted inline arrays.

`Holds` says which members an array holds.  Inserting at a position puts the datum there, or the
request for room is refused.  The binary search ends at the last member it looked at, with the
answer of the comparison; all the members on the side that the answer points away from were ruled
out on the way, so that the datum belongs right next to that member.
-/
import Efl.Eina.Inarray.Size
import Efl.Lib.Compare

namespace Eina.Inarray

open CMemory Compare List Option

namespace World

variable {w w' : World} {xs : List (List Cell)} {data : List Cell} {compare : CompareCb}

/-! ### The members of an array -/

/-- The array holds these members. -/
structure Holds (w : World) (xs : List (List Cell)) : Prop where
  good : Good w
  len : w.array.len = xs.length
  size : ∀ x ∈ xs, x.length = w.array.memberSize
  block : ∃ rest, w.block = some (xs.flatten ++ rest)

theorem length_flatten_of {k : Nat} (h : ∀ x ∈ xs, x.length = k) :
    xs.flatten.length = xs.length * k := by
  induction xs with
  | nil => simp
  | cons x xs ih =>
    rw [flatten_cons, length_append, h x mem_cons_self,
      ih fun y hy => h y (mem_cons_of_mem _ hy), length_cons, add_mul, one_mul,
      add_comm]

variable {a b c : List Cell}

theorem read_block {offset k : Nat} (hblock : w.block = some (a ++ (b ++ c))) (hpos : 0 < b.length)
    (hoffset : offset = a.length) (hk : k = b.length) :
    w.heap.read w.array.members offset k = some b := by
  obtain ⟨id, hp, hcells⟩ := exists_members hblock (by
    rw [length_append, length_append]
    omega)
  rw [hp]
  refine Heap.read_part (c := c) ?_ hoffset hk
  unfold Heap.writable at hcells
  by_cases hlocked : w.heap.locked id = true
  · simp [hlocked] at hcells
  · rwa [if_neg hlocked] at hcells

theorem write_block {d : List Cell} {offset : Nat} (hblock : w.block = some (a ++ (b ++ c)))
    (hpos : 0 < b.length) (hoffset : offset = a.length) (hlen : d.length = b.length) :
    ∃ h', w.heap.write w.array.members offset d = some h' ∧
      ({ w with heap := h' } : World).block = some (a ++ (d ++ c)) := by
  obtain ⟨id, hp, hcells⟩ := exists_members hblock (by
    rw [length_append, length_append]
    omega)
  have hlocked : w.heap.locked id = false := by
    by_contra hlocked
    simp [Heap.writable, hlocked] at hcells
  refine ⟨_, hp ▸ Heap.write_part ((w.heap.writable_eq hlocked).symm.trans hcells) hlocked hoffset
    hlen, ?_⟩
  rw [World.block, hp]
  exact blockAt_put hcells

variable {i : Nat} {start stop : Nat} {x : List Cell}

theorem Holds.offset (hw : Holds w xs) (hi : i ≤ xs.length) :
    w.array.offset i = i * w.array.memberSize := by
  obtain ⟨cells, -, hlen, hfits⟩ := hw.good.owns
  have hwrap := Nat.mod_lt (w.array.max * w.array.memberSize) word_pos
  have hle : i * w.array.memberSize ≤ w.array.len * w.array.memberSize :=
    Nat.mul_le_mul_right _ (hw.len ▸ hi)
  exact Nat.mod_eq_of_lt (by omega)

theorem flatten_split (xs : List (List Cell)) (i : Nat) :
    xs.flatten = (xs.take i).flatten ++ (xs.drop i).flatten := by
  rw [← flatten_append, take_append_drop]

theorem Holds.length_take (hw : Holds w xs) (hi : i ≤ xs.length) :
    (xs.take i).flatten.length = i * w.array.memberSize := by
  rw [length_flatten_of fun x hx => hw.size x (mem_of_mem_take hx), List.length_take,
    min_eq_left hi]

theorem Holds.read (hw : Holds w xs) (hi : i < xs.length) :
    w.heap.read w.array.members (i * w.array.memberSize) w.array.memberSize = some xs[i] := by
  obtain ⟨rest, hblock⟩ := hw.block
  have hsize := hw.size xs[i] (getElem_mem hi)
  rw [flatten_split xs, drop_eq_getElem_cons hi, flatten_cons, append_assoc,
    append_assoc] at hblock
  refine read_block hblock ?_ (hw.length_take (le_of_lt hi)).symm hsize.symm
  rw [hsize]
  exact hw.good.memberSize_pos

theorem Holds.member (hw : Holds w xs) (hi : i < xs.length) :
    w.member i = some xs[i] := by
  rw [World.member, hw.offset (le_of_lt hi)]
  exact hw.read hi

/-! ### Inserting at a position -/

/-- The members behind the place move up by one. -/
theorem moveUp_block (hblock : w.block = some (a ++ (b ++ c)))
    (ha : a.length = i * w.array.memberSize)
    (hb : b.length = (w.array.len - i) * w.array.memberSize) (hms : 0 < w.array.memberSize)
    (hc : w.array.memberSize ≤ c.length) (hsmall : (a ++ (b ++ c)).length < word) :
    ∃ w' x c', w.moveUp i 1 = some w' ∧ w'.array = w.array ∧ x.length = w.array.memberSize ∧
      w'.block = some (a ++ (x ++ (b ++ c'))) := by
  rw [length_append, length_append] at hsmall
  unfold World.moveUp
  by_cases hlt : i < w.array.len
  · have hpos : 0 < b.length := by
      rw [hb]
      exact mul_pos (by omega) hms
    have hread := read_block hblock hpos rfl rfl
    obtain ⟨x, y, c', hsplit, hx, hy⟩ := exists_split (l := b ++ c) (a := w.array.memberSize)
      (b := b.length) (by rw [length_append]; omega)
    rw [hsplit, ← append_assoc] at hblock
    obtain ⟨h', hwrite, hblock'⟩ := write_block hblock (by omega) rfl hy.symm
    have hmove : w.heap.move w.array.members (a.length + w.array.memberSize) a.length b.length =
        some h' := by
      rw [Heap.move, hread, bind_some, ← hwrite, length_append, hx]
    refine ⟨{ w with heap := h' }, x, c', ?_, rfl, hx, ?_⟩
    · rw [if_pos hlt]
      dsimp only [EinaInarray.offset]
      rw [← hb, ← ha, one_mul, Nat.mod_eq_of_lt (by omega),
        Nat.mod_eq_of_lt (by omega),
        Nat.mod_eq_of_lt (by omega), hmove]
      rfl
    · rw [hblock', append_assoc]
  · obtain ⟨x, c', rfl, hx⟩ := exists_front hc
    have hnil : b = [] := by
      rw [← length_eq_zero_iff, hb, Nat.sub_eq_zero_of_le (not_lt.mp hlt), zero_mul]
    refine ⟨w, x, c', if_neg hlt, rfl, hx, ?_⟩
    rw [hblock, hnil]
    rfl

/-- An insertion at a place. -/
theorem Holds.insertAt (hw : Holds w xs) (hdata : data.length = w.array.memberSize)
    (hlt : w.array.len + 1 < word) (hroom : Room w (w.array.len + 1)) (hi : i ≤ xs.length) : ∃ w',
    (Refused w (w.array.len + 1) ∧ w.insertAt i data = some (w', false) ∧ Holds w' xs ∧
      w'.array = w.array) ∨
    (¬Refused w (w.array.len + 1) ∧ w.insertAt i data = some (w', true) ∧
      Holds w' (xs.take i ++ data :: xs.drop i)) := by
  have hbehind : ¬w.array.len < i := not_lt.mpr (hw.len ▸ hi)
  have hmod : (w.array.len + 1) % word = w.array.len + 1 := Nat.mod_eq_of_lt hlt
  rcases hw.good.room_cases hlt with ⟨w1, hresize, href, harray, hblock, hlater⟩ |
    ⟨w1, hresize, hnone, -⟩ | ⟨w1, hresize, href, hres⟩
  · refine ⟨w1, .inl ⟨href, ?_, ⟨hw.good.of_kept harray hblock hlater, ?_, ?_, ?_⟩, harray⟩⟩
    · simp [World.insertAt, hbehind, hmod, hresize]
    · rw [harray]
      exact hw.len
    · rw [harray]
      exact hw.size
    · rw [hblock]
      exact hw.block
  · exact absurd hroom hnone
  · have hspare : Spare w (w.array.len + 1) := hroom.resolve_right href
    have hfits := hw.good.spare_iff.mp hspare
    have hwrap := Nat.mod_lt (w.most (w.array.len + 1) * w.array.memberSize) word_pos
    rw [add_mul] at hfits
    obtain ⟨rest, hold⟩ := hw.block
    have hflat : xs.flatten.length = w.array.len * w.array.memberSize := by
      rw [length_flatten_of hw.size, hw.len]
    obtain ⟨c, hblock⟩ := hres.keeps _ _ hold (by omega)
    obtain ⟨cells, hcells, hlen, -⟩ := hres.owns
    obtain rfl := some.inj (hcells.symm.trans hblock)
    rw [length_append] at hlen
    have hsplit := flatten_split xs i
    have htake := hw.length_take hi
    have hdrop : (xs.drop i).flatten.length = (w.array.len - i) * w.array.memberSize := by
      rw [length_flatten_of fun x hx => hw.size x (mem_of_mem_drop hx), length_drop,
        hw.len]
    rw [hsplit, append_assoc] at hblock
    obtain ⟨w2, x, c', hmove, harray2, hx, hblock2⟩ := moveUp_block hblock
      (by rw [htake, hres.memberSize])
      (by rw [hdrop, hres.len, hres.memberSize]) (hres.memberSize ▸ hw.good.memberSize_pos)
      (by rw [hres.memberSize]; omega)
      (by rw [← append_assoc, ← hsplit, length_append]; omega)
    have hms : w2.array.memberSize = w.array.memberSize := by rw [harray2, hres.memberSize]
    rw [hres.memberSize] at hx
    have hoffset : w2.array.offset i = (xs.take i).flatten.length := by
      rw [htake, ← hw.offset hi, EinaInarray.offset, hms]
      rfl
    obtain ⟨h', hwrite, hblock3⟩ := write_block hblock2
      (hx ▸ hw.good.memberSize_pos) hoffset (hdata.trans hx.symm)
    have hcopy : w2.copyTo i data = some { w2 with heap := h' } := by
      rw [copyTo, hwrite, map_some]
    have hinsert : w.insertAt i data =
        some (({ w2 with heap := h' } : World).setLen (w.array.len + 1), true) := by
      simp [World.insertAt, hbehind, hmod, hresize, hmove, hcopy]
    have hmembers : (xs.take i ++ data :: xs.drop i).flatten =
        (xs.take i).flatten ++ (data ++ (xs.drop i).flatten) := by
      rw [flatten_append, flatten_cons]
    refine ⟨_, .inr ⟨href, hinsert, ?_, ?_, ?_, c', ?_⟩⟩
    · obtain ⟨-, ⟨cells2, hcells2, hlen2⟩, hlater2⟩ := moveUp_cases hcells hmove
      obtain ⟨-, ⟨cells3, hcells3, hlen3⟩, hlater3⟩ := copyTo_cases hcells2 hcopy
      have hfilled : Filled w1 (w.array.len + 1)
          (({ w2 with heap := h' } : World).setLen (w.array.len + 1)) := by
        refine ⟨by rw [setLen, harray2], fun c hc => ?_, fun h => hlater3 (hlater2 h)⟩
        obtain rfl := some.inj (hcells.symm.trans hc)
        exact ⟨cells3, hcells3, hlen3.trans hlen2⟩
      refine hw.good.of_filled hres hfilled fun cells hcells => ?_
      obtain rfl := some.inj (hcells.symm.trans hblock3)
      show (w.array.len + 1) * w2.array.memberSize ≤ _
      rw [hsplit, length_append] at hflat
      rw [hms, add_mul]
      simp only [length_append]
      omega
    · show w.array.len + 1 = _
      rw [length_append, length_cons, List.length_take, length_drop, hw.len]
      omega
    · intro y hy
      show y.length = w2.array.memberSize
      rw [hms]
      rcases mem_append.mp hy with hy | hy
      · exact hw.size y (mem_of_mem_take hy)
      rcases mem_cons.mp hy with rfl | hy
      · exact hdata
      · exact hw.size y (mem_of_mem_drop hy)
    · rw [hmembers, append_assoc, append_assoc]
      exact hblock3

/-! ### Searching -/

/-- The result of a search: a position that holds an equal member, if there is one. -/
def Answers (compare : CompareCb) (data : List Cell) (xs : List (List Cell)) (r : Int) : Prop :=
  (r = -1 ∧ ∀ x ∈ xs, compare data x ≠ 0) ∨
    (r ≠ -1 ∧ ∃ i x, r = toInt i ∧ xs[i]? = some x ∧ compare data x = 0)

theorem Holds.toInt_ne (hw : Holds w xs) (hi : i < xs.length) : toInt i ≠ -1 := by
  have hlt := hw.good.len_lt
  rw [hw.len] at hlt
  exact World.toInt_ne (by omega)

theorem Holds.searchFrom (hw : Holds w xs) (compare : CompareCb) (data : List Cell) :
    ∀ (n i : Nat), i + n = xs.length → (∀ j x, j < i → xs[j]? = some x → compare data x ≠ 0) →
      ∃ r, w.searchFrom data compare i = some r ∧ Answers compare data xs r := by
  intro n
  induction n with
  | zero =>
    intro i hi hbefore
    refine ⟨-1, ?_, .inl ⟨rfl, fun x hx => ?_⟩⟩
    · rw [World.searchFrom, if_neg (by rw [hw.len]; omega)]
    · obtain ⟨j, hj, rfl⟩ := getElem_of_mem hx
      exact hbefore j _ (by omega) (getElem?_eq_getElem hj)
  | succ n ih =>
    intro i hi hbefore
    have hlt : i < xs.length := by omega
    rw [World.searchFrom, if_pos (by rw [hw.len]; exact hlt), hw.member hlt, bind_some]
    by_cases heq : compare data xs[i] = 0
    · rw [if_pos heq]
      exact ⟨_, rfl, .inr ⟨hw.toInt_ne hlt, i, _, rfl, getElem?_eq_getElem hlt, heq⟩⟩
    rw [if_neg heq]
    refine ih (i + 1) (by omega) fun j x hj hx => ?_
    rcases lt_or_eq_of_le (Nat.le_of_lt_succ hj) with hj | rfl
    · exact hbefore j x hj hx
    · rw [getElem?_eq_getElem hlt] at hx
      exact some.inj hx ▸ heq

theorem Holds.search (hw : Holds w xs) (compare : CompareCb) (data : List Cell) :
    ∃ r, w.search data compare = some r ∧ Answers compare data xs r :=
  hw.searchFrom compare data xs.length 0 (zero_add _) fun _ _ hj => absurd hj (Nat.not_lt_zero _)

/-- The members that are smaller and larger than the datum, as far as a binary search knows: the
ones before `start` and the ones from `stop` on. -/
structure Ruled (compare : CompareCb) (data : List Cell) (xs : List (List Cell))
    (start stop : Nat) : Prop where
  below : ∀ j x, j < start → xs[j]? = some x → 0 < compare data x
  above : ∀ j x, stop ≤ j → xs[j]? = some x → compare data x < 0

theorem Ruled.up (hcompare : Total compare) (hsorted : Sorted compare xs)
    (h : Ruled compare data xs start stop) (hx : xs[i]? = some x)
    (hlt : 0 < compare data x) : Ruled compare data xs (i + 1) stop := by
  refine ⟨fun j y hj hy => ?_, h.above⟩
  have hyx : compare y x ≤ 0 := hsorted.get_le hcompare (Nat.le_of_lt_succ hj) hy hx
  by_contra hle
  have := hcompare.trans (not_lt.mp hle) hyx
  omega

theorem Ruled.down (hcompare : Total compare) (hsorted : Sorted compare xs)
    (h : Ruled compare data xs start stop) (hx : xs[i]? = some x)
    (hlt : compare data x < 0) : Ruled compare data xs start i := by
  refine ⟨h.below, fun j y hj hy => ?_⟩
  have hxy : compare x y ≤ 0 := hsorted.get_le hcompare hj hx hy
  by_contra hle
  have hyd : compare y data ≤ 0 := hcompare.le_swap.mpr (not_lt.mp hle)
  have hxd := (hcompare.swap data x).mp hlt
  have := hcompare.trans hxy hyd
  omega

/-- The binary search ends next to the place of the datum. -/
theorem Holds.nearLoop (hcompare : Total compare) (hsorted : Sorted compare xs) (hw : Holds w xs) :
    ∀ (n start last : Nat), last + 1 - start ≤ n → start ≤ last → last < xs.length →
      Ruled compare data xs start (last + 1) → ∃ i x, xs[i]? = some x ∧
        w.nearLoop data compare start last = some (i, compare data x) ∧
        (0 < compare data x → Ruled compare data xs (i + 1) (i + 1)) ∧
        (compare data x < 0 → Ruled compare data xs i i) := by
  intro n
  induction n with
  | zero =>
    omega
  | succ n ih =>
    intro start last hn hle hlast hruled
    have hmiddle : start + (last - start) / 2 ≤ last := by omega
    generalize hm : start + (last - start) / 2 = middle at hmiddle
    have hlt : middle < xs.length := by omega
    have hx : xs[middle]? = some xs[middle] := List.getElem?_eq_getElem hlt
    rw [World.nearLoop]
    rw [hm, hw.member, bind_some]
    rcases lt_trichotomy (compare data xs[middle]) 0 with hneg | hzero | hpos
    · rw [if_neg (by omega), if_neg (by omega)]
      have hdown := hruled.down hcompare hsorted hx hneg
      by_cases hgo : 0 < middle ∧ start ≤ middle - 1
      · rw [if_pos hgo.1, if_pos hgo.2]
        refine ih start (middle - 1) (by omega) hgo.2 (by omega) ?_
        rwa [Nat.sub_add_cancel hgo.1]
      · have hstart : start = middle := by omega
        rw [hstart] at hdown
        refine ⟨middle, xs[middle], hx, ?_, fun h => by omega, fun _ => hdown⟩
        by_cases h0 : 0 < middle
        · rw [if_pos h0, if_neg fun h => hgo ⟨h0, h⟩]
        · rw [if_neg h0]
    · rw [if_pos hzero]
      exact ⟨middle, xs[middle], hx, rfl, fun h => by omega, fun h => by omega⟩
    · rw [if_neg (by omega), if_pos hpos]
      have hup := hruled.up hcompare hsorted hx hpos
      by_cases hgo : middle + 1 ≤ last
      · rw [if_pos hgo]
        exact ih (middle + 1) last (by omega) hgo hlast hup
      rw [if_neg hgo]
      have hend : last = middle := by omega
      rw [hend] at hup
      exact ⟨middle, xs[middle], hx, rfl, fun _ => hup, fun h => by omega⟩

theorem Holds.near (hcompare : Total compare) (hsorted : Sorted compare xs) (hw : Holds w xs)
    (data : List Cell) : ∃ i cmp, w.searchSortedNear data compare = some (i, cmp) ∧
      (cmp = 0 → ∃ x, xs[i]? = some x ∧ compare data x = 0) ∧
      (0 < cmp → i < xs.length ∧ Ruled compare data xs (i + 1) (i + 1)) ∧
      (cmp < 0 → i ≤ xs.length ∧ Ruled compare data xs i i) := by
  have hall : Ruled compare data xs 0 xs.length := by
    refine ⟨fun j x hj => absurd hj (Nat.not_lt_zero j), fun j x hj hx => ?_⟩
    rw [getElem?_eq_none hj] at hx
    simp at hx
  by_cases h0 : xs.length = 0
  · refine ⟨0, -1, ?_, by simp, by simp, fun _ => ⟨Nat.zero_le _, h0 ▸ hall⟩⟩
    rw [searchSortedNear, if_pos (hw.len.trans h0)]
  have hpos : 0 < xs.length := pos_of_ne_zero h0
  have hlen0 : w.array.len ≠ 0 := by
    rw [hw.len]
    exact h0
  by_cases h1 : xs.length = 1
  · have hx : xs[0]? = some xs[0] := getElem?_eq_getElem hpos
    have hread := hw.read hpos
    rw [zero_mul] at hread
    refine ⟨0, compare data xs[0], ?_, fun h => ⟨xs[0], hx, h⟩, fun h => ⟨hpos, ?_⟩,
      fun h => ⟨Nat.zero_le _, hall.down hcompare hsorted hx h⟩⟩
    · rw [searchSortedNear, if_neg hlen0, if_pos (hw.len.trans h1), hread, map_some]
    · rw [h1] at hall
      exact hall.up hcompare hsorted hx h
  · obtain ⟨i, x, hx, hloop, hup, hdown⟩ := hw.nearLoop hcompare hsorted xs.length 0
      (xs.length - 1) (by omega) (Nat.zero_le _) (by omega) (by
        rw [Nat.sub_add_cancel hpos]
        exact hall)
    have hi : i < xs.length := (List.getElem?_eq_some_iff.mp hx).1
    refine ⟨i, compare data x, ?_, fun h => ⟨x, hx, h⟩, fun h => ⟨hi, hup h⟩,
      fun h => ⟨le_of_lt hi, hdown h⟩⟩
    rw [searchSortedNear, if_neg hlen0, if_neg (by rw [hw.len]; exact h1), hw.len]
    exact hloop

theorem Ruled.none_equal (h : Ruled compare data xs i i) :
    ∀ x ∈ xs, compare data x ≠ 0 := by
  intro x hx
  obtain ⟨j, hj, rfl⟩ := getElem_of_mem hx
  have hget := getElem?_eq_getElem hj
  rcases lt_or_ge j i with hlt | hge
  · have := h.below j _ hlt hget
    omega
  · have := h.above j _ hge hget
    omega

theorem Holds.searchSorted (hcompare : Total compare) (hsorted : Sorted compare xs)
    (hw : Holds w xs) (data : List Cell) :
    ∃ r, w.searchSorted data compare = some r ∧ Answers compare data xs r := by
  obtain ⟨i, cmp, hnear, hzero, hup, hdown⟩ := hw.near hcompare hsorted data
  rw [World.searchSorted, hnear, map_some]
  rcases lt_trichotomy cmp 0 with hneg | heq | hpos
  · rw [if_neg (by dsimp only; omega)]
    exact ⟨_, rfl, .inl ⟨rfl, (hdown hneg).2.none_equal⟩⟩
  · rw [if_pos heq]
    obtain ⟨x, hx, hcmp⟩ := hzero heq
    have hi : i < xs.length := (List.getElem?_eq_some_iff.mp hx).1
    exact ⟨_, rfl, .inr ⟨hw.toInt_ne hi, i, x, rfl, hx, hcmp⟩⟩
  · rw [if_neg (by dsimp only; omega)]
    exact ⟨_, rfl, .inl ⟨rfl, (hup hpos).2.none_equal⟩⟩

/-! ### Inserting where the datum belongs -/

/-- The datum is added once, at the position that is returned, and the members are still sorted;
or the request for room is refused, and nothing changes. -/
def Inserted (compare : CompareCb) (data : List Cell) (w : World) (xs : List (List Cell))
    (r : Option (World × Int)) : Prop :=
  ∃ w',
    (Refused w (w.array.len + 1) ∧ r = some (w', -1) ∧ Holds w' xs ∧ w'.array = w.array) ∨
    (¬Refused w (w.array.len + 1) ∧ ∃ i ≤ xs.length, r = some (w', toInt i) ∧
      Holds w' (xs.take i ++ data :: xs.drop i) ∧ Sorted compare (xs.take i ++ data :: xs.drop i))

theorem Holds.inserted (hcompare : Total compare) (hsorted : Sorted compare xs) (hw : Holds w xs)
    (hdata : data.length = w.array.memberSize) (hlt : w.array.len + 1 < word)
    (hroom : Room w (w.array.len + 1)) (hi : i ≤ xs.length) (hbelongs : Belongs compare data xs i) :
    Inserted compare data w xs
      ((w.insertAt i data).map fun r => (r.1, if r.2 then toInt i else -1)) := by
  obtain ⟨w', ⟨href, hinsert, hholds, harray⟩ | ⟨href, hinsert, hholds⟩⟩ :=
    hw.insertAt hdata hlt hroom hi
  · refine ⟨w', .inl ⟨href, ?_, hholds, harray⟩⟩
    rw [hinsert]
    rfl
  · refine ⟨w', .inr ⟨href, i, hi, ?_, hholds, hbelongs.sorted hcompare hi hsorted⟩⟩
    rw [hinsert]
    rfl

theorem Ruled.belongs (hcompare : Total compare) (h : Ruled compare data xs i i) :
    Belongs compare data xs i := by
  refine ⟨fun k y hk hy => ?_, fun y hy => ?_⟩
  · have := h.below k y (by omega) hy
    exact hcompare.le_swap.mpr (by omega)
  · have := (hcompare.swap data y).mp (h.above i y (le_rfl) hy)
    omega

theorem Holds.insertSorted (hcompare : Total compare) (hsorted : Sorted compare xs)
    (hw : Holds w xs) (hdata : data.length = w.array.memberSize) (hlt : w.array.len + 1 < word)
    (hroom : Room w (w.array.len + 1)) :
    Inserted compare data w xs (w.insertSorted data compare) := by
  obtain ⟨i, cmp, hnear, hzero, hup, hdown⟩ := hw.near hcompare hsorted data
  rw [World.insertSorted, hnear, bind_some]
  rcases lt_trichotomy cmp 0 with hneg | heq | hpos
  · rw [if_neg (by omega)]
    obtain ⟨hi, hruled⟩ := hdown hneg
    exact hw.inserted hcompare hsorted hdata hlt hroom hi (hruled.belongs hcompare)
  · rw [if_neg (by omega)]
    obtain ⟨x, hx, hcmp⟩ := hzero heq
    have hi : i < xs.length := (List.getElem?_eq_some_iff.mp hx).1
    refine hw.inserted hcompare hsorted hdata hlt hroom (le_of_lt hi) ⟨?_, ?_⟩
    · intro k y hk hy
      have hyx : compare y x ≤ 0 := hsorted.get_le hcompare (by omega) hy hx
      exact hcompare.trans hyx (hcompare.le_swap.mpr (by omega))
    · intro y hy
      obtain rfl := some.inj (hx.symm.trans hy)
      exact hcompare.le_swap.mp (by omega)
  · obtain ⟨hi, hruled⟩ := hup hpos
    have hword : (i + 1) % word = i + 1 := Nat.mod_eq_of_lt (by
      rw [hw.len] at hlt
      omega)
    rw [if_pos hpos, hword]
    exact hw.inserted hcompare hsorted hdata hlt hroom hi (hruled.belongs hcompare)

theorem Holds.largerFrom (hw : Holds w xs) (compare : CompareCb) (data : List Cell) :
    ∀ (n i : Nat), i + n = xs.length → (∀ j x, j < i → xs[j]? = some x → compare x data ≤ 0) →
      (w.largerFrom data compare (i * w.array.memberSize)
          (xs.length * w.array.memberSize) = some none ∧ ∀ x ∈ xs, compare x data ≤ 0) ∨
        ∃ j x, xs[j]? = some x ∧ 0 < compare x data ∧
          (∀ k y, k < j → xs[k]? = some y → compare y data ≤ 0) ∧
          w.largerFrom data compare (i * w.array.memberSize) (xs.length * w.array.memberSize) =
            some (some (j * w.array.memberSize)) := by
  have hms := hw.good.memberSize_pos
  intro n
  induction n with
  | zero =>
    intro i hi hbefore
    refine .inl ⟨?_, fun x hx => ?_⟩
    · rw [World.largerFrom, if_neg]
      rintro ⟨hlt, -⟩
      rw [show i = xs.length by omega] at hlt
      exact absurd hlt (lt_irrefl _)
    · obtain ⟨j, hj, rfl⟩ := getElem_of_mem hx
      exact hbefore j _ (by omega) (getElem?_eq_getElem hj)
  | succ n ih =>
    intro i hi hbefore
    have hlt : i < xs.length := by omega
    rw [World.largerFrom, if_pos ⟨mul_lt_mul_of_pos_right hlt hms, hms⟩, hw.read hlt,
      bind_some]
    by_cases hle : compare xs[i] data ≤ 0
    · rw [if_pos hle, ← Nat.succ_mul]
      refine ih (i + 1) (by omega) fun j x hj hx => ?_
      rcases lt_or_eq_of_le (Nat.le_of_lt_succ hj) with hj | rfl
      · exact hbefore j x hj hx
      · rw [getElem?_eq_getElem hlt] at hx
        exact some.inj hx ▸ hle
    · rw [if_neg hle]
      exact .inr ⟨i, _, getElem?_eq_getElem hlt, by omega, hbefore, rfl⟩

theorem Holds.push_eq (hw : Holds w xs) (hlt : w.array.len + 1 < word)
    (hroom : Room w (w.array.len + 1)) : w.push data =
      (w.insertAt xs.length data).map fun r => (r.1, if r.2 then toInt xs.length else -1) := by
  have hmod : (w.array.len + 1) % word = w.array.len + 1 := Nat.mod_eq_of_lt hlt
  have hres : (w.array.len + 1 + word - 1) % word = w.array.len := by
    rw [show w.array.len + 1 + word - 1 = w.array.len + word by omega, Nat.add_mod_right]
    exact Nat.mod_eq_of_lt hw.good.len_lt
  unfold World.push World.insertAt
  rw [← hw.len, if_neg (lt_irrefl _)]
  dsimp only
  rw [hmod, hres]
  rcases hw.good.room_cases hlt with ⟨w1, hresize, -⟩ | ⟨w1, -, hnone, -⟩ | ⟨w1, hresize, -, hgrown⟩
  · rw [hresize]
    rfl
  · exact absurd hroom hnone
  · have hstay : w1.moveUp w.array.len 1 = some w1 := by
      rw [World.moveUp, hgrown.len, if_neg (lt_irrefl _)]
    rw [hresize, bind_some, bind_some, if_pos rfl, if_pos rfl, hstay,
      bind_some, hgrown.len, Option.map_map]
    rfl

theorem Holds.insert (hcompare : Total compare) (hsorted : Sorted compare xs)
    (hw : Holds w xs) (hdata : data.length = w.array.memberSize) (hlt : w.array.len + 1 < word)
    (hroom : Room w (w.array.len + 1)) :
    Inserted compare data w xs (w.insert data compare) := by
  have hms := hw.good.memberSize_pos
  have hend : (w.array.len * w.array.memberSize) % word = xs.length * w.array.memberSize := by
    rw [hw.len]
    exact hw.offset (le_rfl)
  unfold World.insert
  dsimp only
  rw [hend]
  have hloop := hw.largerFrom compare data xs.length 0 (zero_add _)
    fun j _ hj => absurd hj (Nat.not_lt_zero j)
  rw [zero_mul] at hloop
  rcases hloop with ⟨hnone, hall⟩ | ⟨j, x, hx, hlarger, hbefore, hsome⟩
  · rw [hnone]
    rw [hw.push_eq hlt hroom]
    refine hw.inserted hcompare hsorted hdata hlt hroom (le_rfl) ⟨?_, ?_⟩
    · intro k y _ hy
      exact hall y (mem_of_getElem? hy)
    · intro y hy
      simp at hy
  · have hj : j < xs.length := (List.getElem?_eq_some_iff.mp hx).1
    have hposition : j * w.array.memberSize % word / w.array.memberSize = j := by
      have := hw.offset (le_of_lt hj)
      rw [EinaInarray.offset] at this
      rw [this, Nat.mul_div_cancel _ hms]
    rw [hsome, bind_some]
    dsimp only
    rw [hposition]
    refine hw.inserted hcompare hsorted hdata hlt hroom (le_of_lt hj) ⟨?_, ?_⟩
    · intro k y hk hy
      exact hbefore k y (by omega) hy
    · intro y hy
      obtain rfl := some.inj (hx.symm.trans hy)
      omega

/--
**Sorted inline arrays.**  Where room for one more member does not get lost, `eina_inarray_insert`
and `eina_inarray_insert_sorted` each add the datum once, where it belongs, and return its
position, or return -1 and leave the array alone since the request for room is refused.
`eina_inarray_search_sorted` and `eina_inarray_search` find an equal member if there is one.
-/
theorem sorted_exact (hcompare : Total compare) (hw : Holds w xs) (hsorted : Sorted compare xs)
    (hdata : data.length = w.array.memberSize) :
    (w.array.len + 1 < word → Room w (w.array.len + 1) →
      Inserted compare data w xs (w.insert data compare) ∧
        Inserted compare data w xs (w.insertSorted data compare)) ∧
    ∃ r s, w.searchSorted data compare = some r ∧ w.search data compare = some s ∧
      Answers compare data xs r ∧ Answers compare data xs s ∧ (r = -1 ↔ s = -1) := by
  refine ⟨fun hlt hroom => ⟨hw.insert hcompare hsorted hdata hlt hroom,
    hw.insertSorted hcompare hsorted hdata hlt hroom⟩, ?_⟩
  obtain ⟨r, hr, hanswers⟩ := hw.searchSorted hcompare hsorted data
  obtain ⟨s, hs, hanswers'⟩ := hw.search compare data
  refine ⟨r, s, hr, hs, hanswers, hanswers', ?_⟩
  rcases hanswers with ⟨rfl, hnone⟩ | ⟨hr, i, x, -, hx, hzero⟩
  · rcases hanswers' with ⟨rfl, -⟩ | ⟨-, j, y, -, hy, hzero⟩
    · exact Iff.rfl
    · exact absurd hzero (hnone y (mem_of_getElem? hy))
  · rcases hanswers' with ⟨-, hnone⟩ | ⟨hs, -⟩
    · exact absurd hzero (hnone x (mem_of_getElem? hx))
    · exact iff_of_false hr hs

/-- Members of one byte are compared by its value. -/
def byteCb (a b : List Cell) : Int :=
  let value := fun (x : List Cell) => ((x.head?.join.getD 0).toNat : Int)
  value a - value b

theorem total_byteCb : Total byteCb := by
  constructor
  · unfold byteCb
    dsimp only
    omega
  · unfold byteCb at *
    dsimp only at *
    omega

/-- Two members of one byte, in a block for four. -/
def twoBytes : World where
  heap := { Heap.put {} 0 [some 1, some 3, none, none] with asked := 1 }
  array := ⟨1, 2, 4, 4, some 0⟩

theorem holds_twoBytes : Holds twoBytes [[some 1], [some 3]] := by
  have hblock : twoBytes.block = some [some 1, some 3, none, none] := by
    simp [twoBytes, World.block, blockAt, Heap.writable]
  refine ⟨⟨by decide, by decide, ⟨_, hblock, rfl, by decide⟩, fun h => absurd h (by decide),
    fun _ _ => rfl⟩, rfl, by decide, [none, none], hblock⟩

theorem sorted_exact_twoBytes : Inserted byteCb [some 2] twoBytes [[some 1], [some 3]]
    (twoBytes.insertSorted [some 2] byteCb) := by
  refine ((sorted_exact total_byteCb holds_twoBytes (by decide) rfl).1 (by decide)
    (.inl ?_)).2
  show _ ≤ _
  decide

/-- An empty array of members of one byte, for which no memory is left. -/
def noMemory : World := ⟨{ granted := fun _ => false }, EinaInarray.setup 1 4⟩

theorem holds_noMemory : Holds noMemory [] :=
  ⟨good_setup (fun _ _ => rfl) (by decide), rfl, by simp, [], rfl⟩

theorem refused_noMemory : Refused noMemory 1 := ⟨by decide, by decide, fun _ => rfl, rfl⟩

theorem Inserted.of_refused {r : Option (World × Int)} (h : Inserted compare data w xs r)
    (href : Refused w (w.array.len + 1)) : ∃ w', r = some (w', -1) ∧ Holds w' xs := by
  obtain ⟨w', ⟨-, hr, hholds, -⟩ | ⟨hgranted, -⟩⟩ := h
  · exact ⟨w', hr, hholds⟩
  · exact absurd href hgranted

theorem noMemory_refuses : Total byteCb ∧ Holds noMemory [] ∧
    (∃ w', noMemory.insert [some 2] byteCb = some (w', -1) ∧ Holds w' []) ∧
    ∃ w', noMemory.insertSorted [some 2] byteCb = some (w', -1) ∧ Holds w' [] := by
  have hroom : Room noMemory (noMemory.array.len + 1) := .inr refused_noMemory
  refine ⟨total_byteCb, holds_noMemory, ?_, ?_⟩
  · exact (holds_noMemory.insert total_byteCb sorted_nil rfl (by decide) hroom).of_refused
      refused_noMemory
  · exact (holds_noMemory.insertSorted total_byteCb sorted_nil rfl (by decide) hroom).of_refused
      refused_noMemory

end World

end Eina.Inarray
