/-
One small bucket.

The strings of a bucket have the same first byte, and the comparison sorts them by
their length and then by the one or two bytes that follow, as signed numbers.  `key`
puts these into one number, so that the comparison is that of the keys
(`smallCmp_eq`) and a bucket is sorted when its keys increase.

`BucketOk` says what is in the three arrays: the strings `as` with their lengths and
counters, in order, and behind them whatever the memory holds.
-/
import Efl.Eina.Stringshare.Basic

namespace Eina.Stringshare

open Superfast Share List Option

/-! ### The order of a bucket -/

/-- A string of two or three bytes without a NUL, of the bucket `c`. -/
def Fits (c : Byte) (x : List Byte) : Prop :=
  (0 : Byte) ∉ x ∧ ((∃ y, x = [c, y]) ∨ ∃ y z, x = [c, y, z])

/-- What a bucket is sorted by. -/
def key : List Byte → Int
  | [_, y] => 2 * 2 ^ 18 + (y.toInt + 128) * 2 ^ 9
  | [_, y, z] => 3 * 2 ^ 18 + (y.toInt + 128) * 2 ^ 9 + (z.toInt + 128)
  | _ => 0

theorem toInt_bounds (y : Byte) : -128 ≤ y.toInt ∧ y.toInt ≤ 127 := by
  have hle := BitVec.le_toInt y
  have hlt := BitVec.toInt_lt (x := y)
  omega

variable {c : Byte} {x : List Byte}

theorem key_injective {x' : List Byte} (hx : Fits c x) (hx' : Fits c x') (h : key x = key x') :
    x = x' := by
  obtain ⟨-, ⟨y, rfl⟩ | ⟨y, z, rfl⟩⟩ := hx
  · obtain ⟨-, ⟨y', rfl⟩ | ⟨y', z', rfl⟩⟩ := hx'
    · have hy : y.toInt = y'.toInt := by
        simp only [key] at h
        omega
      rw [BitVec.eq_of_toInt_eq hy]
    · have h1 := toInt_bounds y
      have h2 := toInt_bounds y'
      have h3 := toInt_bounds z'
      simp only [key] at h
      omega
  · obtain ⟨-, ⟨y', rfl⟩ | ⟨y', z', rfl⟩⟩ := hx'
    · have h1 := toInt_bounds y
      have h2 := toInt_bounds y'
      have h3 := toInt_bounds z
      simp only [key] at h
      omega
    · have h1 := toInt_bounds z
      have h2 := toInt_bounds z'
      simp only [key] at h
      have hy : y.toInt = y'.toInt := by omega
      have hz : z.toInt = z'.toInt := by omega
      rw [BitVec.eq_of_toInt_eq hy, BitVec.eq_of_toInt_eq hz]

theorem Fits.length (h : Fits c x) : x.length = 2 ∨ x.length = 3 := by
  obtain ⟨-, ⟨y, rfl⟩ | ⟨y, z, rfl⟩⟩ := h
  · exact .inl rfl
  · exact .inr rfl

/-- How the string `t` of a bucket compares with `x`. -/
def order (t x : List Byte) : Int :=
  if key x < key t then 1 else if key t < key x then -1 else 0

variable {t : List Byte}

theorem order_pos : 0 < order t x ↔ key x < key t := by
  unfold order
  split
  · simp_all
  · split <;> simp_all

theorem order_neg : order t x < 0 ↔ key t < key x := by
  unfold order
  split
  · constructor
    · intro h'
      exact absurd h' (by omega)
    · omega
  · split <;> simp_all

theorem order_eq_zero (ht : Fits c t) (hx : Fits c x) :
    order t x = 0 ↔ t = x := by
  constructor
  · intro h
    have h1 : ¬ 0 < order t x := by omega
    have h2 : ¬ order t x < 0 := by omega
    rw [order_pos] at h1
    rw [order_neg] at h2
    exact key_injective ht hx (by omega)
  · rintro rfl
    simp [order]

theorem cmpChar_cases (y p : Byte) :
    (p.toInt < y.toInt ∧ cmpChar y p = 1) ∨ (y.toInt < p.toInt ∧ cmpChar y p = -1) ∨
      (y.toInt = p.toInt ∧ cmpChar y p = 0) := by
  unfold cmpChar
  by_cases h1 : p.toInt < y.toInt
  · exact .inl ⟨h1, if_pos h1⟩
  rw [if_neg h1]
  by_cases h2 : y.toInt < p.toInt
  · exact .inr (.inl ⟨h2, if_pos h2⟩)
  · rw [if_neg h2]
    exact .inr (.inr ⟨by omega, rfl⟩)

variable {a : Addr} {text : Addr → Option (List Byte)}

/-- **The comparison is that of the keys.** -/
theorem smallCmp_eq {b : Bucket} {i : Nat} {more : List Byte}
    (hlen : b.lengths[i]? = some (BitVec.ofNat 8 t.length)) (hstr : b.strings[i]? = some a)
    (htext : text a = some (t ++ [0])) (ht : Fits c t) (hx : Fits c x) :
    smallCmp text b ((x ++ more).drop 1) (BitVec.ofNat 8 x.length - 1) i = some (order t x) := by
  rw [smallCmp, hlen]
  obtain ⟨-, ⟨y, rfl⟩ | ⟨y, z, rfl⟩⟩ := ht
  · obtain ⟨-, ⟨p, rfl⟩ | ⟨p, q, rfl⟩⟩ := hx
    · rcases cmpChar_cases y p with ⟨h, hc⟩ | ⟨h, hc⟩ | ⟨h, hc⟩
      · have hkey : key [c, p] < key [c, y] := by simp only [key]; omega
        simp [hstr, htext, hc, order, hkey]
      · have hkey : key [c, y] < key [c, p] := by simp only [key]; omega
        have hkey' : ¬ key [c, p] < key [c, y] := by omega
        simp [hstr, htext, hc, order, hkey, hkey']
      · have hkey : key [c, y] = key [c, p] := by simp only [key, h]
        simp [hstr, htext, hc, order, hkey]
    · have h1 := toInt_bounds y
      have h2 := toInt_bounds p
      have h3 := toInt_bounds q
      have hkey : key [c, y] < key [c, p, q] := by simp only [key]; omega
      have hkey' : ¬ key [c, p, q] < key [c, y] := by omega
      simp [order, hkey, hkey']
  · obtain ⟨-, ⟨p, rfl⟩ | ⟨p, q, rfl⟩⟩ := hx
    · have h1 := toInt_bounds y
      have h2 := toInt_bounds p
      have h3 := toInt_bounds z
      have hkey : key [c, p] < key [c, y, z] := by simp only [key]; omega
      simp [order, hkey]
    · have h3 := toInt_bounds z
      have h4 := toInt_bounds q
      rcases cmpChar_cases y p with ⟨h, hc⟩ | ⟨h, hc⟩ | ⟨h, hc⟩
      · have hkey : key [c, p, q] < key [c, y, z] := by simp only [key]; omega
        simp [hstr, htext, hc, order, hkey]
      · have hkey : key [c, y, z] < key [c, p, q] := by simp only [key]; omega
        have hkey' : ¬ key [c, p, q] < key [c, y, z] := by omega
        simp [hstr, htext, hc, order, hkey, hkey']
      · rcases cmpChar_cases z q with ⟨h', hc'⟩ | ⟨h', hc'⟩ | ⟨h', hc'⟩
        · have hkey : key [c, p, q] < key [c, y, z] := by simp only [key]; omega
          simp [hstr, htext, hc, hc', order, hkey]
        · have hkey : key [c, y, z] < key [c, p, q] := by simp only [key]; omega
          have hkey' : ¬ key [c, p, q] < key [c, y, z] := by omega
          simp [hstr, htext, hc, hc', order, hkey, hkey']
        · have hkey : key [c, y, z] = key [c, p, q] := by simp only [key, h, h']
          simp [hstr, htext, hc, hc', order, hkey]

/-! ### The arrays -/

section Arrays

variable {α : Type}

theorem realloc_of_le (fill : α) {xs ys : List α} (hys : ∃ junk, ys = xs ++ junk) {size : Nat}
    (h : xs.length ≤ size) : (∃ junk', realloc fill ys size = xs ++ junk') ∧
      (realloc fill ys size).length = size := by
  obtain ⟨junk, rfl⟩ := hys
  constructor
  · refine ⟨junk.take (size - xs.length) ++
      replicate (size - (xs ++ junk).length) fill, ?_⟩
    rw [realloc, take_append, take_of_length_le h, append_assoc]
  · rw [realloc, length_append, length_take, length_replicate]
    omega

/-- An element is put between two parts of an array. -/
theorem insertElement_eq (l r junk : List α) (v : α) (h : junk ≠ []) :
    ∃ junk', insertElement (l ++ r ++ junk) (l.length + r.length) l.length v =
      some (l ++ v :: r ++ junk') ∧ junk'.length + 1 = junk.length := by
  obtain ⟨j, junk', rfl⟩ := exists_cons_of_ne_nil h
  have hsub : l.length + r.length - l.length = r.length := by omega
  rw [insertElement, hsub]
  cases r with
  | nil =>
    rw [write]
    simp
  | cons x r =>
    have hlen : l.length + 1 + (x :: r).length ≤ (l ++ x :: r ++ j :: junk').length ∧
        l.length + (x :: r).length ≤ (l ++ x :: r ++ j :: junk').length := by
      simp only [length_append, length_cons]
      omega
    have htake : (l ++ x :: r ++ j :: junk').take (l.length + 1) = l ++ [x] := by
      rw [append_assoc, take_append]
      simp
    have hslice : ((l ++ x :: r ++ j :: junk').drop l.length).take (x :: r).length = x :: r := by
      rw [append_assoc, drop_left, take_left]
    have hdrop : (l ++ x :: r ++ j :: junk').drop (l.length + 1 + (x :: r).length) = junk' := by
      have heq : l.length + 1 + (x :: r).length = (l ++ x :: r ++ [j]).length := by
        simp only [length_append, length_cons, length_nil]
        omega
      have happ : l ++ x :: r ++ j :: junk' = (l ++ x :: r ++ [j]) ++ junk' := by simp
      rw [heq, happ, drop_left]
    rw [memmove, if_pos hlen, htake, hdrop, bind_some, write]
    simp

/-- An element is taken out of an array. -/
theorem removeElement_eq (l r junk : List α) (x : α) :
    ∃ junk', removeElement (l ++ x :: r ++ junk) (l.length + r.length) l.length =
      some (l ++ r ++ junk') ∧ junk'.length = junk.length + 1 := by
  rw [removeElement]
  cases r with
  | nil =>
    simp
  | cons y r =>
    have hne : l.length ≠ l.length + (y :: r).length := by simp
    have hsub : l.length + (y :: r).length - l.length = (y :: r).length := by omega
    have hlen : l.length + (y :: r).length ≤ (l ++ x :: y :: r ++ junk).length ∧
        l.length + 1 + (y :: r).length ≤ (l ++ x :: y :: r ++ junk).length := by
      simp only [length_append, length_cons]
      omega
    have htake : (l ++ x :: y :: r ++ junk).take l.length = l := by
      rw [append_assoc, take_left]
    have hslice : ((l ++ x :: y :: r ++ junk).drop (l.length + 1)).take (y :: r).length =
        y :: r := by
      have happ : l ++ x :: y :: r ++ junk = (l ++ [x]) ++ (y :: r ++ junk) := by simp
      have heq : l.length + 1 = (l ++ [x]).length := by simp
      rw [happ, heq, drop_left, take_left]
    rw [if_neg hne, hsub, memmove, if_pos hlen, htake, hslice]
    refine ⟨_, rfl, ?_⟩
    rw [length_drop]
    simp only [length_append, length_cons]
    omega

theorem set_middle (l r : List α) (x v : α) : (l ++ x :: r).set l.length v = l ++ v :: r := by
  simp

end Arrays

/-! ### What is in a bucket -/

/-- The bucket has the strings `as`, in order, with their lengths and counters. -/
structure BucketOk (b : Bucket) (as : List Addr) (name : Addr → List Byte)
    (held : Addr → Nat) : Prop where
  count : b.count = as.length
  strings : ∃ junk, b.strings = as ++ junk
  lengths : ∃ junk, b.lengths = (as.map fun a => BitVec.ofNat 8 (name a).length) ++ junk
  references : ∃ junk, b.references = (as.map fun a => BitVec.ofNat 32 (held a)) ++ junk
  room : b.size ≤ b.strings.length ∧ b.size ≤ b.lengths.length ∧ b.size ≤ b.references.length
  full : as.length ≤ b.size
  sorted : as.Pairwise fun a a' => key (name a) < key (name a')

variable {b : Bucket} {as : List Addr} {name name' : Addr → List Byte} {held held' : Addr → Nat}
  {size : Nat}

theorem BucketOk.congr (h : BucketOk b as name held) (hname : ∀ a ∈ as, name' a = name a)
    (hheld : ∀ a ∈ as, held' a = held a) : BucketOk b as name' held' := by
  have hlen : (as.map fun a => BitVec.ofNat 8 (name' a).length) =
      as.map fun a => BitVec.ofNat 8 (name a).length :=
    map_congr_left fun a ha => by rw [hname a ha]
  have href : (as.map fun a => BitVec.ofNat 32 (held' a)) =
      as.map fun a => BitVec.ofNat 32 (held a) :=
    map_congr_left fun a ha => by rw [hheld a ha]
  refine ⟨h.count, h.strings, ?_, ?_, h.room, h.full, ?_⟩
  · rw [hlen]
    exact h.lengths
  · rw [href]
    exact h.references
  · refine List.Pairwise.imp_of_mem ?_ h.sorted
    intro a a' ha ha' hlt
    rw [hname a ha, hname a' ha']
    exact hlt

theorem BucketOk.nodup (h : BucketOk b as name held) : as.Nodup :=
  h.sorted.imp fun hlt heq => by
    rw [heq] at hlt
    exact absurd hlt (lt_irrefl _)

/-- What the search of a bucket finds. -/
def Place (as : List Addr) (name : Addr → List Byte) (x : List Byte) : Nat × Bool → Prop
  | (i, true) => ∃ l a r, as = l ++ a :: r ∧ l.length = i ∧ name a = x
  | (i, false) => ∃ l r, as = l ++ r ∧ l.length = i ∧ (∀ a ∈ l, key (name a) < key x) ∧
      ∀ a ∈ r, key x < key (name a)

/-- **The search of a bucket finds the string, or its place.** -/
theorem smallBucketFind_spec (h : BucketOk b as name held)
    (htext : ∀ a ∈ as, text a = some (name a ++ [0]) ∧ Fits c (name a)) (hx : Fits c x)
    (more : List Byte) :
    ∃ r, smallBucketFind text b (x ++ more) (BitVec.ofNat 8 x.length) = some r ∧
      Place as name x r := by
  rw [smallBucketFind]
  by_cases hzero : b.count = 0
  · rw [if_pos hzero]
    have hnil : as = [] := eq_nil_of_length_eq_zero (by rw [← h.count, hzero])
    exact ⟨_, rfl, [], [], hnil, rfl, by simp, by simp⟩
  rw [if_neg hzero]
  obtain ⟨js, hstrings⟩ := h.strings
  obtain ⟨jl, hlengths⟩ := h.lengths
  have hcount := h.count
  set f : Nat → Int := fun i => order (name (as.getD i 0)) x with hf
  have hget : ∀ i (hi : i < as.length), as.getD i 0 = as[i] := by
    intro i hi
    rw [getD_eq_getElem?_getD, getElem?_eq_getElem]
    rfl
  have hcmp : ∀ i < b.count, smallCmp text b ((x ++ more).drop 1)
      (BitVec.ofNat 8 x.length - 1) i = some (f i) := by
    intro i hi
    rw [hcount] at hi
    have hmem : as[i] ∈ as := getElem_mem hi
    have hs : b.strings[i]? = some as[i] := by
      rw [hstrings, getElem?_append_left hi, getElem?_eq_getElem]
    have hl : b.lengths[i]? = some (BitVec.ofNat 8 (name as[i]).length) := by
      rw [hlengths, getElem?_append_left (by rw [length_map]; exact hi),
        getElem?_map, List.getElem?_eq_getElem]
      rfl
    rw [smallCmp_eq hl hs (htext _ hmem).1 (htext _ hmem).2 hx, hf]
    simp only [hget i hi]
  have hlt : ∀ i j, i < j → j < b.count → key (name (as.getD i 0)) < key (name (as.getD j 0)) := by
    intro i j hij hj
    rw [hcount] at hj
    rw [hget i, hget j]
    exact pairwise_iff_getElem.mp h.sorted i j (by omega) hj hij
  obtain ⟨⟨i, found⟩, hr, hfound⟩ := Bisect.bisect_spec hcmp
    (by
      intro i j hij hj hpos
      have := hlt i j hij hj
      simp only [hf, order_pos] at hpos ⊢
      omega)
    (by
      intro i j hij hj hneg
      have := hlt i j hij hj
      simp only [hf, order_neg] at hneg ⊢
      omega) b.count 0 b.count (by omega) (by omega) (by omega) (by omega)
    (fun j hj hj' => absurd hj (by omega))
  refine ⟨(i, found), hr, ?_⟩
  cases found with
  | true =>
    obtain ⟨hi, hzero⟩ := hfound
    rw [hcount] at hi
    refine ⟨as.take i, as[i], as.drop (i + 1), ?_, ?_, ?_⟩
    · rw [getElem_cons_drop, take_append_drop]
    · rw [length_take, min_eq_left hi.le]
    · simp only [hf, hget i hi] at hzero
      exact (order_eq_zero (htext _ (getElem_mem hi)).2 hx).mp hzero
  | false =>
    obtain ⟨hi, hbefore, hbehind⟩ := hfound
    rw [hcount] at hi
    refine ⟨as.take i, as.drop i, (take_append_drop i as).symm, ?_, ?_, ?_⟩
    · rw [length_take, min_eq_left hi]
    · intro a ha
      obtain ⟨j, hj, rfl⟩ := mem_take_iff_getElem.mp ha
      have hneg := hbefore j (by omega)
      simp only [hf, order_neg, hget j (by omega)] at hneg
      exact hneg
    · intro a ha
      obtain ⟨j, hj, rfl⟩ := mem_drop_iff_getElem.mp ha
      have hpos := hbehind (i + j) (by omega) (by omega)
      simp only [hf, order_pos, hget (i + j) (by omega)] at hpos
      exact hpos

/-! ### One string more, one string less -/

/-- The answers with which a call is not refused. -/
def Memory.Granted (mem : Memory) : Prop :=
  mem.bucket = true ∧ mem.strings = true ∧ mem.lengths = true ∧ mem.references = true ∧
    mem.block.isSome

/-- A bucket grows, or stays as it is where memory is refused. -/
theorem BucketOk.grow (h : BucketOk b as name held) (hsize : b.size ≤ size)
    (mem : Memory) : BucketOk (smallBucketResize b size mem).1 as name held ∧
      ((smallBucketResize b size mem).2 = true → (smallBucketResize b size mem).1.size = size) ∧
      ((smallBucketResize b size mem).2 = false → ¬ mem.Granted) := by
  have hfit : as.length ≤ size := h.full.trans hsize
  obtain ⟨hs, hl, hr⟩ := h.room
  obtain ⟨hs', hslen⟩ := realloc_of_le (0 : Addr) h.strings hfit
  obtain ⟨hl', hllen⟩ := realloc_of_le (0 : Byte) h.lengths ((length_map ..).trans_le hfit)
  obtain ⟨hr', hrlen⟩ := realloc_of_le (0 : BitVec 32) h.references ((length_map ..).trans_le hfit)
  unfold smallBucketResize
  by_cases hm : mem.strings = true
  · rw [if_pos hm]
    by_cases hm' : mem.lengths = true
    · simp only [if_pos hm']
      by_cases hm'' : mem.references = true
      · simp only [if_pos hm'']
        exact ⟨⟨h.count, hs', hl', hr', ⟨hslen.ge, hllen.ge, hrlen.ge⟩, hfit, h.sorted⟩,
          fun _ => trivial, fun hf => absurd hf (by simp)⟩
      · simp only [if_neg hm'']
        exact ⟨⟨h.count, hs', hl', h.references, ⟨hsize.trans hslen.ge, hsize.trans hllen.ge, hr⟩,
          h.full, h.sorted⟩, fun hf => absurd hf (by simp), fun _ hg => hm'' hg.2.2.2.1⟩
    · simp only [if_neg hm']
      exact ⟨⟨h.count, hs', h.lengths, h.references, ⟨hsize.trans hslen.ge, hl, hr⟩,
        h.full, h.sorted⟩, fun hf => absurd hf (by simp), fun _ hg => hm' hg.2.2.1⟩
  · rw [if_neg hm]
    exact ⟨h, fun hf => absurd hf (by simp), fun _ hg => hm hg.2.1⟩

theorem BucketOk.makeRoom (h : BucketOk b as name held) (mem : Memory) :
    BucketOk (makeRoom b mem).1 as name held ∧
      ((makeRoom b mem).2 = true → as.length + 1 < (makeRoom b mem).1.size) ∧
      ((makeRoom b mem).2 = false → ¬ mem.Granted) := by
  have hfull := h.full
  have hcount := h.count
  unfold Stringshare.makeRoom
  by_cases hroom : b.size ≤ b.count + 1
  · rw [if_pos hroom]
    obtain ⟨hok, hyes, hno⟩ := h.grow (Nat.le_add_right b.size step) mem
    refine ⟨hok, ?_, hno⟩
    intro htrue
    rw [hyes htrue]
    show _ < b.size + 8
    omega
  · rw [if_neg hroom]
    refine ⟨h, ?_, fun hf => absurd hf (by simp)⟩
    intro
    show _ < b.size
    omega

theorem ne_nil_of_room {α : Type} {xs data junk : List α} (h : xs = data ++ junk) {n : Nat}
    (hn : data.length < n) (hle : n ≤ xs.length) : junk ≠ [] := by
  rintro rfl
  rw [h, append_nil] at hle
  omega

variable {l r : List Addr} {mem : Memory}

/-- **A string is put in its place.** -/
theorem BucketOk.insertEntry (h : BucketOk b (l ++ r) name held)
    (hroom : (l ++ r).length + 1 < b.size) (hname : ∀ a' ∈ l ++ r, name' a' = name a')
    (hheld : ∀ a' ∈ l ++ r, held' a' = held a') (hnamea : name' a = x) (hhelda : held' a = 1)
    (hl : ∀ a' ∈ l, key (name a') < key x) (hr : ∀ a' ∈ r, key x < key (name a')) :
    ∃ b', Stringshare.insertEntry b l.length a (BitVec.ofNat 8 x.length) = some b' ∧
      BucketOk b' (l ++ a :: r) name' held' := by
  have h' := h.congr hname hheld
  obtain ⟨js, hstrings⟩ := h'.strings
  obtain ⟨jl, hlengths⟩ := h'.lengths
  obtain ⟨jr, hreferences⟩ := h'.references
  obtain ⟨hs, hlen, href⟩ := h'.room
  have hcount : b.count = l.length + r.length := by rw [h.count, length_append]
  rw [length_append] at hroom
  have hsne := ne_nil_of_room hstrings (by rw [length_append]; omega) hs
  have hlne := ne_nil_of_room hlengths
    (by rw [length_map, length_append]; omega) hlen
  have hrne := ne_nil_of_room hreferences
    (by rw [length_map, length_append]; omega) href
  obtain ⟨js', hs', hslen⟩ := insertElement_eq l r js a hsne
  obtain ⟨jl', hl', hllen⟩ := insertElement_eq (l.map fun a => BitVec.ofNat 8 (name' a).length)
    (r.map fun a => BitVec.ofNat 8 (name' a).length) jl (BitVec.ofNat 8 x.length) hlne
  obtain ⟨jr', hr', hrlen⟩ := insertElement_eq (l.map fun a => BitVec.ofNat 32 (held' a))
    (r.map fun a => BitVec.ofNat 32 (held' a)) jr 1 hrne
  rw [length_map, length_map, ← map_append, ← hlengths, ← hcount] at hl'
  rw [length_map, length_map, ← map_append, ← hreferences, ← hcount] at hr'
  rw [← hstrings, ← hcount] at hs'
  refine ⟨⟨_, _, _, b.count + 1, b.size⟩, by
    rw [Stringshare.insertEntry, hs', bind_some, hl', bind_some, hr',
      map_some], ?_, ⟨js', rfl⟩, ⟨jl', ?_⟩, ⟨jr', ?_⟩, ⟨?_, ?_, ?_⟩, ?_, ?_⟩
  · simp only [length_append, length_cons]
    omega
  · simp only [map_append, map_cons, hnamea]
  · simp only [map_append, map_cons, hhelda]
    rfl
  · rw [hstrings] at hs
    simp only [length_append, length_cons] at hs ⊢
    omega
  · rw [hlengths] at hlen
    simp only [length_append, length_cons, length_map] at hlen ⊢
    omega
  · rw [hreferences] at href
    simp only [length_append, length_cons, length_map] at href ⊢
    omega
  · simp only [length_append, length_cons]
    omega
  · have hsorted := h'.sorted
    rw [pairwise_append] at hsorted
    obtain ⟨hsl, hsr, hslr⟩ := hsorted
    rw [pairwise_append, pairwise_cons]
    refine ⟨hsl, ⟨?_, hsr⟩, ?_⟩
    · intro a' ha'
      rw [hnamea, hname a' (mem_append_right l ha')]
      exact hr a' ha'
    · intro a' ha' a'' ha''
      rcases mem_cons.mp ha'' with rfl | ha''
      · rw [hnamea, hname a' (mem_append_left r ha')]
        exact hl a' ha'
      · exact hslr a' ha' a'' ha''

/-- The answers with which the arrays shrink together or not at all. -/
def Memory.ShrinksWhole (mem : Memory) : Prop :=
  mem.strings = true → mem.lengths = true ∧ mem.references = true

instance (mem : Memory) : Decidable mem.ShrinksWhole :=
  inferInstanceAs (Decidable (_ → _))

theorem BucketOk.shrink (h : BucketOk b as name held) (hfit : as.length ≤ size)
    (hmem : mem.ShrinksWhole) :
    BucketOk (smallBucketResize b size mem).1 as name held := by
  unfold smallBucketResize
  by_cases hm : mem.strings = true
  · obtain ⟨hm', hm''⟩ := hmem hm
    obtain ⟨hs', hslen⟩ := realloc_of_le (0 : Addr) h.strings hfit
    obtain ⟨hl', hllen⟩ := realloc_of_le (0 : Byte) h.lengths ((length_map ..).trans_le hfit)
    obtain ⟨hr', hrlen⟩ :=
      realloc_of_le (0 : BitVec 32) h.references ((length_map ..).trans_le hfit)
    simp only [if_pos hm, if_pos hm', if_pos hm'']
    exact ⟨h.count, hs', hl', hr', ⟨hslen.ge, hllen.ge, hrlen.ge⟩, hfit, h.sorted⟩
  · rw [if_neg hm]
    exact h

/-- **A string is taken out.** -/
theorem BucketOk.removeEntry (h : BucketOk b (l ++ a :: r) name held)
    (hmem : mem.ShrinksWhole) :
    ∃ b', Stringshare.removeEntry b l.length mem = some b' ∧ BucketOk b' (l ++ r) name held := by
  obtain ⟨js, hstrings⟩ := h.strings
  obtain ⟨jl, hlengths⟩ := h.lengths
  obtain ⟨jr, hreferences⟩ := h.references
  obtain ⟨hs, hlen, href⟩ := h.room
  have hfull := h.full
  have hcount : b.count - 1 = l.length + r.length := by
    rw [h.count, length_append, length_cons]
    omega
  obtain ⟨js', hs', hslen⟩ := removeElement_eq l r js a
  obtain ⟨jl', hl', hllen⟩ := removeElement_eq (l.map fun a => BitVec.ofNat 8 (name a).length)
    (r.map fun a => BitVec.ofNat 8 (name a).length) jl (BitVec.ofNat 8 (name a).length)
  obtain ⟨jr', hr', hrlen⟩ := removeElement_eq (l.map fun a => BitVec.ofNat 32 (held a))
    (r.map fun a => BitVec.ofNat 32 (held a)) jr (BitVec.ofNat 32 (held a))
  rw [map_append, map_cons] at hlengths hreferences
  rw [length_map, length_map, ← hlengths, ← hcount] at hl'
  rw [length_map, length_map, ← hreferences, ← hcount] at hr'
  rw [← hstrings, ← hcount] at hs'
  rw [hstrings] at hs
  rw [hlengths] at hlen
  rw [hreferences] at href
  simp only [length_append, length_cons, length_map] at hs hlen href hfull
  have hok : BucketOk ⟨l ++ r ++ js',
      (l.map fun a => BitVec.ofNat 8 (name a).length) ++
        (r.map fun a => BitVec.ofNat 8 (name a).length) ++ jl',
      (l.map fun a => BitVec.ofNat 32 (held a)) ++ (r.map fun a => BitVec.ofNat 32 (held a)) ++ jr',
      b.count - 1, b.size⟩ (l ++ r) name held := by
    refine ⟨?_, ⟨js', rfl⟩, ⟨jl', ?_⟩, ⟨jr', ?_⟩, ⟨?_, ?_, ?_⟩, ?_, ?_⟩
    · rw [length_append]
      exact hcount
    · simp only [map_append]
    · simp only [map_append]
    · simp only [length_append]
      omega
    · simp only [length_append, length_map]
      omega
    · simp only [length_append, length_map]
      omega
    · simp only [length_append]
      omega
    · exact h.sorted.sublist (by simp)
  rw [Stringshare.removeEntry, hs', hl', hr']
  refine ⟨_, rfl, ?_⟩
  simp only
  by_cases hmuch : b.count - 1 + step < b.size
  · rw [if_pos hmuch]
    refine hok.shrink ?_ hmem
    rw [length_append]
    omega
  · rw [if_neg hmuch]
    exact hok

theorem BucketOk.setReference {v : BitVec 32} (h : BucketOk b (l ++ a :: r) name held)
    (hheld : ∀ a' ∈ l ++ r, held' a' = held a') (hv : v = BitVec.ofNat 32 (held' a)) :
    BucketOk { b with references := b.references.set l.length v } (l ++ a :: r) name held' := by
  obtain ⟨jr, hreferences⟩ := h.references
  have hset : b.references.set l.length v =
      ((l ++ a :: r).map fun a => BitVec.ofNat 32 (held' a)) ++ jr := by
    have hl : (l.map fun a => BitVec.ofNat 32 (held' a)) =
        l.map fun a => BitVec.ofNat 32 (held a) :=
      map_congr_left fun a' ha' => by rw [hheld a' (mem_append_left r ha')]
    have hr : (r.map fun a => BitVec.ofNat 32 (held' a)) =
        r.map fun a => BitVec.ofNat 32 (held a) :=
      map_congr_left fun a' ha' => by rw [hheld a' (mem_append_right l ha')]
    have hlen : l.length = (l.map fun a => BitVec.ofNat 32 (held a)).length :=
      (length_map ..).symm
    rw [hreferences, map_append, map_cons, map_append, map_cons, hl, hr, ← hv,
      append_assoc, append_assoc, hlen, cons_append, set_middle, cons_append]
  refine ⟨h.count, h.strings, h.lengths, ⟨jr, hset⟩, ?_, h.full, h.sorted⟩
  refine ⟨h.room.1, h.room.2.1, ?_⟩
  rw [length_set]
  exact h.room.2.2

theorem BucketOk.get (h : BucketOk b (l ++ a :: r) name held) :
    b.strings[l.length]? = some a ∧ b.references[l.length]? = some (BitVec.ofNat 32 (held a)) := by
  obtain ⟨js, hstrings⟩ := h.strings
  obtain ⟨jr, hreferences⟩ := h.references
  constructor
  · rw [hstrings]
    simp
  · have hlen : l.length = (l.map fun a => BitVec.ofNat 32 (held a)).length :=
      (length_map ..).symm
    rw [hreferences]
    simp

end Eina.Stringshare
