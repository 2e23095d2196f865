/-
What replacing and trimming do to the bytes of a buffer.

A C string ends at its first zero, and the bytes of a buffer may go on behind it; the
functions that replace look at the string and move all of the bytes.  The loops of
`eina_strbuf_replace_all` are followed with the part of the string that is still to be
searched: in one block where the strings are of one length, from the old block to a new one
where they are not.
-/
import Efl.Eina.Strbuf.Ops
import Efl.Eina.Strbuf.Search
import Mathlib.Data.List.DropRight

namespace Eina.Strbuf

open CMemory List Option

/-! ### Strings in memory -/

theorem cells_strbuf (xs : List UInt8) : Kind.strbuf.cells xs = xs.map some := by
  unfold Kind.cells
  congr 1
  induction xs with
  | nil => rfl
  | cons x xs ih =>
    rw [flatMap_cons, ih]
    rfl

theorem exists_string (xs : List UInt8) :
    ∃ tl, xs ++ [0] = Kind.strbuf.string xs ++ (0 :: tl) ∧ (0 : UInt8) ∉ Kind.strbuf.string xs := by
  unfold Kind.string
  induction xs with
  | nil => exact ⟨[], rfl, by simp⟩
  | cons x xs ih =>
    by_cases hx : x = 0
    · refine ⟨xs ++ [0], ?_, ?_⟩ <;> simp [hx, Kind.zero]
    obtain ⟨tl, htl, hnot⟩ := ih
    have htake : takeWhile (· ≠ Kind.strbuf.zero) (x :: xs) =
        x :: takeWhile (· ≠ Kind.strbuf.zero) xs :=
      takeWhile_cons_of_pos (by
        rw [decide_eq_true_eq]
        exact hx)
    rw [htake]
    refine ⟨tl, ?_, ?_⟩
    · rw [cons_append, cons_append, ← htl]
    · rw [mem_cons, not_or]
      exact ⟨fun h => hx h.symm, hnot⟩

theorem cells_strbuf_append (xs ys : List UInt8) :
    Kind.strbuf.cells (xs ++ ys) = Kind.strbuf.cells xs ++ Kind.strbuf.cells ys := by
  rw [cells_strbuf, cells_strbuf, cells_strbuf, map_append]

theorem length_cells_strbuf (xs : List UInt8) : (Kind.strbuf.cells xs).length = xs.length := by
  rw [cells_strbuf, length_map]

variable {t : List UInt8}

theorem cString_go {r : List Cell} (ht : (0 : UInt8) ∉ t) :
    cString.go (t.map some ++ (some 0 :: r)) = some t := by
  induction t with
  | nil => rw [map_nil, nil_append, cString.go]
  | cons c t ih =>
    rw [mem_cons, not_or] at ht
    rw [map_cons, cons_append, cString.go, ih ht.2, map_some]
    intro hc
    exact ht.1 hc.symm

theorem cString_at {h : Heap} {id offset : Nat} {a r : List Cell}
    (hblock : h.blocks id = some (a ++ (t.map some ++ (some 0 :: r))))
    (hoffset : offset = a.length) (ht : (0 : UInt8) ∉ t) :
    cString h (some id) offset = some t := by
  rw [cString, bind_some, hblock, bind_some, hoffset, drop_left, cString_go ht]

section

variable {w : World} {xs : List UInt8} {n id : Nat} {rest : List Cell}

/-- The bytes up to the first zero are read as a C string. -/
theorem cString_of_block (hbuf : w.strbuf.buf = some id)
    (hblock : w.heap.blocks id = some (xs.map some ++ rest))
    (hends : (0 : UInt8) ∈ xs ∨ ∃ r, rest = some 0 :: r) :
    cString w.heap w.strbuf.buf 0 = some (Kind.strbuf.string xs) := by
  obtain ⟨tl, htl, hnot⟩ := Strbuf.exists_string xs
  rw [hbuf]
  rcases hends with hmem | ⟨r, rfl⟩
  · -- what is behind the string is a zero of the bytes
    have hcut : ∃ tl', xs = Kind.strbuf.string xs ++ (0 :: tl') := by
      rcases eq_nil_or_concat tl with rfl | ⟨tl', z, rfl⟩
      · have hxs : xs = Kind.strbuf.string xs := append_cancel_right htl
        rw [hxs] at hmem
        exact absurd hmem hnot
      · refine ⟨tl', ?_⟩
        rw [concat_eq_append, ← cons_append, ← append_assoc] at htl
        exact (append_inj' htl rfl).1
    obtain ⟨tl', htl'⟩ := hcut
    have hcells : xs.map some ++ rest =
        [] ++ ((Kind.strbuf.string xs).map some ++ (some 0 :: (tl'.map some ++ rest))) := by
      nth_rewrite 1 [htl']
      simp
    exact cString_at (hblock.trans (congrArg some hcells)) rfl hnot
  · have hcells : xs.map some ++ (some 0 :: r) =
        [] ++ ((Kind.strbuf.string xs).map some ++ (some 0 :: (tl.map some ++ r))) := by
      have hmap := congrArg (map some) htl
      rw [map_append] at hmap
      have hsplit : xs.map some ++ (some 0 :: r) = (xs.map some ++ [some 0]) ++ r := by simp
      rw [hsplit]
      refine (congrArg (· ++ r) hmap).trans ?_
      simp
    exact cString_at (hblock.trans (congrArg some hcells)) rfl hnot

theorem Room.cString (h : Room .strbuf w xs n id (Kind.strbuf.cells [Kind.strbuf.zero] ++ rest)) :
    Strbuf.cString w.heap w.strbuf.buf 0 = some (Kind.strbuf.string xs) := by
  have hblock := h.block
  rw [cells_strbuf] at hblock
  exact cString_of_block h.buf hblock (.inr ⟨rest, rfl⟩)

theorem split_of_string {as ms bs : List UInt8} (h : Kind.strbuf.string xs = as ++ (ms ++ bs)) :
    ∃ cs, xs = as ++ (ms ++ cs) := by
  obtain ⟨t, ht⟩ := Kind.string_prefix (k := .strbuf) xs
  refine ⟨bs ++ t, ?_⟩
  have hxs : xs = Kind.strbuf.string xs ++ t := ht
  rw [h] at hxs
  rw [hxs]
  simp only [append_assoc]

end

/-! ### Replacing one occurrence -/

section

variable {w : World} {as us bs vs : List UInt8} {n id : Nat} {rest : List Cell}

/-- A piece is replaced by another where it stands. -/
theorem Room.overwrite (h : Room .strbuf w (as ++ (us ++ bs)) n id rest)
    (hlen : us.length = vs.length) (hn : (as ++ (us ++ bs)).length ≤ n) :
    ∃ w', insertAndEnd w as.length us.length vs = some w' ∧
      Owned .strbuf w' (as ++ (vs ++ bs)) ∧ Frame w w' ∧ w'.strbuf.ro = w.strbuf.ro := by
  have hsame : (as ++ (vs ++ bs)).length = (as ++ (us ++ bs)).length := by
    simp only [length_append, hlen]
  have hcells : Kind.strbuf.cells (as ++ (us ++ bs)) ++ rest =
      Kind.strbuf.cells as ++ (Kind.strbuf.cells us ++ (Kind.strbuf.cells bs ++ rest)) := by
    simp only [cells_strbuf_append, append_assoc]
  have hsize := h.size
  have hroom := h.room
  have hrest : 1 ≤ rest.length := by
    rw [length_append, length_cells_strbuf, show Kind.strbuf.csize = 1 from rfl] at hsize
    omega
  obtain ⟨r1, r2, r3, hr, hr1, hr2⟩ := exists_split (b := 1) (by omega)
  obtain rfl := length_eq_zero_iff.mp hr1
  rw [nil_append] at hr
  have hput : w.put 1 as.length (vs.map some) = some (w.set id
      (Kind.strbuf.cells as ++ (vs.map some ++ (Kind.strbuf.cells bs ++ rest))) w.strbuf.len) :=
    put_at h.buf h.own.1 (h.block.trans (congrArg some hcells))
      (by rw [length_cells_strbuf, mul_one])
      (by rw [length_map, length_cells_strbuf, hlen])
  set w1 := w.set id (Kind.strbuf.cells as ++ (vs.map some ++ (Kind.strbuf.cells bs ++ rest)))
    w.strbuf.len with hw1
  have hlast : w1.strbuf.len + vs.length - us.length = (as ++ (vs ++ bs)).length := by
    rw [set_len, h.len]
    omega
  have hblock : w1.heap.blocks id = some (Kind.strbuf.cells (as ++ (vs ++ bs)) ++ (r2 ++ r3)) := by
    rw [set_blocks, hr, ← cells_strbuf]
    simp only [cells_strbuf_append, append_assoc]
  have hfinish := finish_at (w := w1) h.buf h.own.1 hblock
    (show (as ++ (vs ++ bs)).length * 1 = _ by rw [length_cells_strbuf, mul_one]) hr2
  have htotal : (Kind.strbuf.cells (as ++ (vs ++ bs)) ++
      (Kind.strbuf.cells [Kind.strbuf.zero] ++ r3)).length =
        (Kind.strbuf.cells (as ++ (us ++ bs)) ++ rest).length := by
    rw [hr]
    simp only [length_append, length_cells_strbuf, hr2, hlen, length_singleton]
  obtain ⟨howned, hframe⟩ := h.set rfl htotal (by omega)
  rw [insertAndEnd, hput, bind_some, hlast, hfinish, set_set]
  exact ⟨_, rfl, howned, hframe, rfl⟩

theorem grow_small {k : Kind} {xs : List k.Unit} (h : Room k w xs n id rest) {m : Nat}
    (hm : m + 1 < w.strbuf.size) : w.grow k.csize m = some (w, true) := by
  have hpos := k.csize_pos
  have hsize := h.size
  have hmax := h.max
  have hle : w.strbuf.size ≤ w.strbuf.size * k.csize := Nat.le_mul_of_pos_right _ hpos
  have hword : maxSize < word := by decide
  rw [World.grow, Nat.mod_eq_of_lt (by omega), if_pos hm]

theorem makes_replace :
    Makes .strbuf (as ++ (us ++ bs)) (as ++ (vs ++ bs)) fun w =>
      (w.shift 1 (as.length + vs.length) (as.length + us.length)
          (w.strbuf.len - as.length - us.length)).bind fun w =>
        insertAndEnd w as.length us.length vs := by
  intro w n id rest h hn
  obtain ⟨w', hw', hspec⟩ := h.splice hn
  have hlen := h.len
  simp only [length_append] at hlen
  have hbs : bs.length = w.strbuf.len - as.length - us.length := by omega
  rw [hbs, add_comm vs.length, cells_strbuf] at hw'
  exact ⟨w', hw', hspec⟩

theorem replaceHere_shorter (h : Room .strbuf w (as ++ (us ++ bs)) n id rest)
    (hn : (as ++ (us ++ bs)).length ≤ n) (hle : vs.length ≤ us.length) :
    ∃ w', replaceHere w as.length us vs = some (w', true) ∧ Owned .strbuf w' (as ++ (vs ++ bs)) ∧
      Frame w w' ∧ w'.strbuf.ro = w.strbuf.ro := by
  have hlen := h.len
  have hroom := h.room
  have hn' := hn
  simp only [length_append] at hlen hn'
  unfold replaceHere
  by_cases hsame : us.length = vs.length
  · rw [if_pos hsame]
    obtain ⟨w', hw', hspec⟩ := h.overwrite hsame hn
    refine ⟨w', ?_, hspec⟩
    rw [hw', map_some]
  rw [if_neg hsame]
  have hmakes : Makes .strbuf (as ++ (us ++ bs)) (as ++ (vs ++ bs)) _ := makes_replace
  obtain ⟨w', hw', hspec⟩ := hmakes w n id rest h (by
    simp only [length_append]
    omega)
  have hgrow : w.grow 1 (w.strbuf.len + vs.length - us.length) = some (w, true) :=
    grow_small h (by omega)
  refine ⟨w', ?_, hspec⟩
  rw [World.withRoom, hgrow]
  exact congrArg (Option.map _) hw'

/-- **Replacing bytes by others**, where those that are replaced are in the buffer. -/
theorem replaceHere_spec (h : Room .strbuf w (as ++ (us ++ bs)) n id rest)
    (hn : (as ++ (us ++ bs)).length ≤ n)
    (hfits : us.length < vs.length → w.Fits 1 (w.strbuf.len + vs.length - us.length)) :
    Changes .strbuf w (as ++ (vs ++ bs)) (w.strbuf.len + vs.length - us.length)
      (replaceHere w as.length us vs) := by
  by_cases hlonger : us.length < vs.length
  · have hlen := h.len
    simp only [length_append] at hlen
    unfold replaceHere
    rw [if_neg (ne_of_lt hlonger)]
    refine withRoom_owned h (hfits hlonger) ?_ ?_ makes_replace
    · simp only [length_append]
      omega
    · simp only [length_append]
      omega
  · obtain ⟨w', hw', howned, hframe, hro⟩ :=
      replaceHere_shorter h hn (Nat.le_of_not_lt hlonger)
    refine .inl ⟨w', hw', howned, hframe, fun h => ?_⟩
    rw [hro] at h
    exact h

end

/-- Where `eina_strbuf_replace` replaces something. -/
def placeNth (str : List UInt8) (n : Nat) (xs : List UInt8) : Option Nat :=
  match n with
  | 0 => none
  | n + 1 => (occurrences str (Kind.strbuf.string xs))[n]?

/-- Where `eina_strbuf_replace_last` does. -/
def placeLast (str xs : List UInt8) : Option Nat :=
  (occurrences str (Kind.strbuf.string xs)).getLast?

section

variable {w : World} {xs str : List UInt8} {pos n id : Nat} {rest : List Cell} (by' : List UInt8)

theorem split_of_mem (h : pos ∈ occurrences str (Kind.strbuf.string xs)) (by' : List UInt8) :
    ∃ as bs, xs = as ++ (str ++ bs) ∧ as.length = pos ∧
      replacedAt pos str by' xs = as ++ (by' ++ bs) := by
  obtain ⟨as, bs, hsplit, hlen⟩ := occurrences_split h
  obtain ⟨cs, hxs⟩ := split_of_string hsplit
  refine ⟨as, cs, hxs, hlen, ?_⟩
  have hdrop : xs.drop (pos + str.length) = cs := by
    rw [hxs, ← append_assoc, ← hlen, ← length_append, drop_left]
  have htake : xs.take pos = as := by rw [hxs, ← hlen, take_left]
  rw [replacedAt, hdrop, htake, append_assoc]

theorem placeNth_mem (h : placeNth str n xs = some pos) :
    pos ∈ occurrences str (Kind.strbuf.string xs) := by
  cases n with
  | zero => cases h
  | succ n => exact mem_of_getElem? h

theorem placeLast_mem (h : placeLast str xs = some pos) :
    pos ∈ occurrences str (Kind.strbuf.string xs) := mem_of_getLast? h

/-- **Which occurrence `eina_strbuf_replace` replaces.** -/
theorem replace_eq (n : Nat)
    (h : cString w.heap w.strbuf.buf 0 = some (Kind.strbuf.string xs)) :
    replace w str by' n =
      match placeNth (Kind.strbuf.string str) n xs with
      | none => some (w, false)
      | some pos => replaceAt w true pos (Kind.strbuf.string str) (Kind.strbuf.string by') := by
  cases n with
  | zero => rfl
  | succ n =>
    rw [replace, h, bind_some, findNth_eq, drop_zero]
    have hid : (occurrences (Kind.strbuf.string str) (Kind.strbuf.string xs)).map (· + 0) =
        occurrences (Kind.strbuf.string str) (Kind.strbuf.string xs) := by simp
    rw [hid]
    rfl

/-- **Which occurrence `eina_strbuf_replace_last` replaces.** -/
theorem replaceLast_eq
    (h : cString w.heap w.strbuf.buf 0 = some (Kind.strbuf.string xs)) :
    replaceLast w str by' =
      match placeLast (Kind.strbuf.string str) xs with
      | none => some (w, false)
      | some pos => replaceAt w false pos (Kind.strbuf.string str) (Kind.strbuf.string by') := by
  rw [replaceLast, h, bind_some, findLast_eq _ _ _ _ _ (by omega), drop_zero,
    or_none]
  have hid : (occurrences (Kind.strbuf.string str) (Kind.strbuf.string xs)).map (· + 0) =
      occurrences (Kind.strbuf.string str) (Kind.strbuf.string xs) := by simp
  rw [hid]
  rfl

/-- **Replacing what was found in a buffer of its own.** -/
theorem replaceAt_owned {by' : List UInt8} (cleared : Bool) (h : Owned .strbuf w xs)
    (hro : w.strbuf.ro = false) (hmem : pos ∈ occurrences str (Kind.strbuf.string xs))
    (hfits : str.length < by'.length → w.Fits 1 (w.strbuf.len + by'.length - str.length)) :
    Changes .strbuf w (replacedAt pos str by' xs) (w.strbuf.len + by'.length - str.length)
      (replaceAt w cleared pos str by') := by
  obtain ⟨as, bs, hxs, rfl, hresult⟩ := split_of_mem hmem by'
  obtain ⟨id, rest, hroom⟩ := h
  rw [hresult, replaceAt, withOwn_eq hro]
  rw [hxs] at hroom
  exact replaceHere_spec hroom le_rfl hfits

end

/-! ### Trimming -/

section

variable {w : World} {xs : List UInt8}

theorem content_of_block {id : Nat} {rest : List Cell} (hbuf : w.strbuf.buf = some id)
    (hblock : w.heap.blocks id = some (xs.map some ++ rest)) (hlen : w.strbuf.len = xs.length) :
    content w = some xs := by
  have hread : w.heap.read w.strbuf.buf 0 w.strbuf.len = some (xs.map some) := by
    rw [hbuf]
    exact Heap.read_part (a := []) hblock rfl (by rw [hlen, length_map])
  rw [content, hread, bind_some]
  clear hread hblock hlen
  induction xs with
  | nil => rfl
  | cons x xs ih =>
    rw [map_cons, mapM_cons, ih]
    rfl

theorem content_owned (h : Owned .strbuf w xs) : content w = some xs := by
  obtain ⟨id, rest, hroom⟩ := h
  have hblock := hroom.block
  rw [cells_strbuf] at hblock
  exact content_of_block hroom.buf hblock hroom.len

variable (isspace : UInt8 → Bool)

theorem take_trimEnd (xs : List UInt8) :
    xs.take (trimEnd isspace xs) = xs.rdropWhile isspace := by
  obtain ⟨t, ht⟩ := rdropWhile_prefix (p := isspace) (l := xs)
  have hlen : trimEnd isspace xs = (xs.rdropWhile isspace).length := by
    rw [trimEnd, rdropWhile, length_reverse]
  rw [hlen]
  nth_rewrite 2 [← ht]
  exact take_left

theorem drop_trimStart (xs : List UInt8) :
    xs.drop (trimStart isspace xs) = xs.dropWhile isspace := by
  have h : xs = xs.takeWhile isspace ++ xs.dropWhile isspace :=
    (takeWhile_append_dropWhile ..).symm
  nth_rewrite 2 [h]
  exact drop_left

theorem trimStart_le (xs : List UInt8) :
    trimStart isspace xs ≤ xs.length := ( takeWhile_prefix isspace).length_le

theorem trimEnd_le (xs : List UInt8) :
    trimEnd isspace xs ≤ xs.length := by
  have h := length_dropWhile_le isspace xs.reverse
  rw [length_reverse] at h
  exact h

theorem keep_owned {start stop : Nat} (h : Owned .strbuf w xs) (hle : start ≤ stop)
    (hstop : stop ≤ xs.length) :
    ∃ w', keep start stop w = some w' ∧ Owned .strbuf w' ((xs.take stop).drop start) ∧
      Frame w w' ∧ w'.strbuf.ro = w.strbuf.ro := by
  obtain ⟨id, rest, hroom⟩ := h
  have hcut : xs = xs.take start ++ ((xs.take stop).drop start ++ xs.drop stop) := by
    have hmin : xs.take start = (xs.take stop).take start := by
      rw [take_take, min_eq_left hle]
    rw [hmin, ← append_assoc, take_append_drop, take_append_drop]
  have hlen : ((xs.take stop).drop start).length = stop - start := by
    rw [length_drop, length_take, min_eq_left hstop]
  have hstart : (xs.take start).length = start := by
    rw [length_take]
    omega
  have hroom' := hroom
  rw [hcut] at hroom'
  obtain ⟨w', hw', hspec⟩ := hroom'.keep (by rw [← hcut])
  rw [hlen, hstart] at hw'
  exact ⟨w', hw', hspec⟩

theorem trim_owned (h : Owned .strbuf w xs) :
    ∃ w', trim w isspace = some w' ∧
      Owned .strbuf w' ((xs.rdropWhile isspace).dropWhile isspace) ∧ Frame w w' ∧
      w'.strbuf.ro = w.strbuf.ro := by
  have hle := trimStart_le isspace (xs.take (trimEnd isspace xs))
  rw [length_take] at hle
  have hstart : trimStart isspace (xs.take (trimEnd isspace xs)) ≤ trimEnd isspace xs := by omega
  obtain ⟨w', hw', hspec⟩ := keep_owned h hstart (trimEnd_le isspace xs)
  rw [drop_trimStart, take_trimEnd] at hspec
  rw [trim, content_owned h]
  exact ⟨w', hw', hspec⟩

theorem ltrim_owned (h : Owned .strbuf w xs) :
    ∃ w', ltrim w isspace = some w' ∧ Owned .strbuf w' (xs.dropWhile isspace) ∧ Frame w w' ∧
      w'.strbuf.ro = w.strbuf.ro := by
  have hlen : w.strbuf.len = xs.length := by
    obtain ⟨id, rest, hroom⟩ := h
    exact hroom.len
  obtain ⟨w', hw', hspec⟩ := keep_owned h (trimStart_le isspace xs) le_rfl
  rw [take_length, drop_trimStart] at hspec
  rw [ltrim, content_owned h, hlen]
  exact ⟨w', hw', hspec⟩

/-- `eina_strbuf_rtrim` drops the spaces at the end. -/
theorem rtrim_owned (h : Owned .strbuf w xs) :
    ∃ w', rtrim w isspace = some w' ∧ Owned .strbuf w' (xs.rdropWhile isspace) ∧ Frame w w' ∧
      w'.strbuf.ro = w.strbuf.ro := by
  rw [rtrim, content_owned h]
  obtain ⟨id, rest, hroom⟩ := h
  have hle := trimEnd_le isspace xs
  have htake := take_trimEnd isspace xs
  have hlen : (xs.rdropWhile isspace).length = trimEnd isspace xs := by
    rw [← htake, length_take, min_eq_left hle]
  have hbytes : Kind.strbuf.cells xs ++ (Kind.strbuf.cells [Kind.strbuf.zero] ++ rest) =
      Kind.strbuf.cells (xs.rdropWhile isspace) ++
        (Kind.strbuf.cells (xs.drop (trimEnd isspace xs) ++ [0]) ++ rest) := by
    nth_rewrite 1 [← take_append_drop (trimEnd isspace xs) xs]
    rw [htake]
    simp only [cells_strbuf_append, append_assoc]
    rfl
  have hblock := hroom.block
  rw [hbytes] at hblock
  obtain ⟨r1, r2, r3, hr, hr1, hr2⟩ :=
    exists_split (l := Kind.strbuf.cells (xs.drop (trimEnd isspace xs) ++ [0]) ++ rest)
      (a := 0) (b := 1) (by
        rw [length_append, length_cells_strbuf, length_append, length_singleton]
        omega)
  obtain rfl := length_eq_zero_iff.mp hr1
  rw [nil_append] at hr
  rw [hr] at hblock hbytes
  have hfinish := finish_at hroom.buf hroom.own.1 hblock
    (show trimEnd isspace xs * 1 = _ by rw [length_cells_strbuf, hlen, mul_one]) hr2
  have htotal : (Kind.strbuf.cells (xs.rdropWhile isspace) ++
      (Kind.strbuf.cells [Kind.strbuf.zero] ++ r3)).length =
        (Kind.strbuf.cells xs ++ (Kind.strbuf.cells [Kind.strbuf.zero] ++ rest)).length := by
    rw [hbytes]
    simp only [length_append, length_cells_strbuf, hr2, length_singleton]
  obtain ⟨howned, hframe⟩ := hroom.set rfl htotal (by
    have hsize := hroom.room
    omega)
  rw [hlen] at howned hframe
  exact ⟨_, hfinish, howned, hframe, rfl⟩

end

end Eina.Strbuf
