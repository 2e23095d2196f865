/-
From bytes to codepoints and back.

The decoder cuts a string into units, of which each has a codepoint (`Units`).  The
codepoint of a unit is encoded as its bytes again, but for the three bytes of a
codepoint of the range 0xDC80..0xDCFF: that range stands for single bytes, and the
decoder lets it through.  Such bytes are never a part of another unit, since no byte
that follows in a unit is 0xED.
-/
import Efl.Eina.Unicode.Sequence

namespace Eina.Unicode

open List Option

set_option maxRecDepth 4000

/-! ### Units -/

/-- A string in the parts it is decoded in. -/
structure Units (s : List Byte) (units : List (List Byte × Nat)) : Prop where
  bytes : s = units.flatMap Prod.fst
  reads : ∀ e ∈ units, ∃ d ds, e.1 = d :: ds ∧ (∀ x ∈ ds, isContinuationByte x = true) ∧
    Reads d ds e.2
  /-- Reserved bytes are a unit of their own. -/
  whole : ∀ pre bs post, s = pre ++ (bs ++ post) → Reserved bs → ∃ e ∈ units, Reserved e.1

/-- What the decoder reads from a place on. -/
def Decodes (buf : List Byte) (ind : Nat) (units : List (List Byte × Nat)) : Prop :=
  (∀ fuel, units.length < fuel → getLenFrom buf fuel ind = some units.length) ∧
    decodeFrom buf units.length ind = some (units.map Prod.snd)

variable {d : Byte}

theorem follow_of_reserved {bs t t' : List Byte} (h : Reserved bs) (heq : d :: t = bs ++ t') :
    d = 0xED ∧ Follow t 2 := by
  obtain ⟨x, y, rfl, hx, hy⟩ := h
  obtain ⟨rfl, rfl⟩ := List.cons.inj heq
  refine ⟨rfl, [x, y], t', rfl, rfl, ?_⟩
  intro z hz
  rcases mem_pair.mp hz with rfl | rfl
  · rcases hx with rfl | rfl
    · rfl
    · rfl
  · exact hy

theorem reserved_place {ds t before bs post : List Byte}
    (hall : ∀ x ∈ ds, isContinuationByte x = true) (h : d :: (ds ++ t) = before ++ (bs ++ post))
    (hres : Reserved bs) : (∃ a, t = a ++ (bs ++ post)) ∨ d :: (ds ++ t) = bs ++ post := by
  obtain ⟨x, y, rfl, -⟩ := hres
  rw [← cons_append, append_eq_append_iff] at h
  rcases h with ⟨a, rfl, ht⟩ | ⟨c, hc, ht⟩
  · exact Or.inl ⟨a, ht⟩
  cases c with
  | nil => exact Or.inl ⟨[], ht.symm⟩
  | cons z c =>
    obtain ⟨rfl, -⟩ := List.cons.inj ht
    cases before with
    | nil =>
      right
      rw [ht, ← cons_append, hc]
      rfl
    | cons w before =>
      obtain ⟨-, rfl⟩ := List.cons.inj hc
      have hcont := hall 0xED (by simp)
      exact absurd rfl (continuation_ne 0xED hcont)

/-- **A string is decoded in units.** -/
theorem exists_units : ∀ (n : Nat) (s pre : List Byte), s.length = n → (0 : Byte) ∉ s →
    pre.length + s.length + 1 < 2 ^ 31 →
    ∃ units, Units s units ∧ Decodes (pre ++ cstr s) pre.length units := by
  intro n
  induction n using Nat.strong_induction_on with
  | _ n ih =>
    intro s pre hn hs hlen
    cases s with
    | nil =>
      refine ⟨[], ⟨rfl, by simp, ?_⟩, ?_, rfl⟩
      · intro pre bs post hparts hres
        obtain ⟨x, y, rfl, -⟩ := hres
        simp at hparts
      · intro fuel hfuel
        obtain ⟨fuel, rfl⟩ := Nat.exists_eq_succ_of_ne_zero (Nat.ne_of_gt hfuel)
        rw [getLenFrom, utf8NextGet, cstr, nil_append, read_at _ _ _ (by simpa using hlen)]
        rfl
    | cons d t =>
      rw [mem_cons, not_or] at hs
      rw [length_cons] at hn hlen
      obtain ⟨ds, t', u, rfl, hall, hreads, hnext, hED⟩ :=
        utf8NextGet_spec d (fun h => hs.1 h.symm) pre t (by omega)
      rw [length_append] at hn hlen
      obtain ⟨units, hunits, hlenFrom, hfrom⟩ := ih t'.length (by omega) t' (pre ++ d :: ds) rfl
        (fun h => hs.2 (mem_append_right _ h)) (by simp; omega)
      have hbuf : pre ++ d :: ds ++ cstr t' = pre ++ cstr (d :: (ds ++ t')) := by
        simp [cstr]
      rw [hbuf, length_append] at hlenFrom hfrom
      refine ⟨(d :: ds, u) :: units, ⟨?_, ?_, ?_⟩, ?_, ?_⟩
      · rw [flatMap_cons, ← hunits.bytes]
        rfl
      · intro e he
        rcases mem_cons.mp he with rfl | he
        · exact ⟨d, ds, rfl, hall, hreads⟩
        · exact hunits.reads e he
      · intro before bs post hparts hres
        rcases reserved_place hall hparts hres with ⟨a, rfl⟩ | hfirst
        · obtain ⟨e, he, hreserved⟩ := hunits.whole a bs post rfl hres
          exact ⟨e, mem_cons_of_mem _ he, hreserved⟩
        obtain ⟨hd, hfollow⟩ := follow_of_reserved hres hfirst
        have htwo := hED hd hfollow
        refine ⟨_, mem_cons_self, ?_⟩
        obtain ⟨x, y, rfl, hxy⟩ := hres
        obtain ⟨-, hds⟩ := List.cons.inj hfirst
        obtain ⟨rfl, -⟩ := append_inj hds htwo
        exact ⟨x, y, by rw [hd], hxy⟩
      · intro fuel hfuel
        obtain ⟨fuel, rfl⟩ := Nat.exists_eq_succ_of_ne_zero (Nat.ne_zero_of_lt hfuel)
        rw [getLenFrom, hnext, bind_some]
        simp only [if_neg hreads.1]
        rw [hlenFrom fuel (by simpa using hfuel)]
        rfl
      · rw [length_cons, decodeFrom, hnext, bind_some]
        simp only [hfrom]
        rfl

theorem encode_le {e : List Byte × Nat} {ds : List Byte} (he : e.1 = d :: ds) (h : Reads d ds e.2) :
    (encode e.2).length ≤ e.1.length ∧
      (Reserved e.1 → (encode e.2).length < e.1.length) := by
  rw [he]
  rcases h.2 with ⟨hno, heq⟩ | ⟨hyes, hone⟩
  · exact ⟨by rw [heq], fun hr => absurd hr hno⟩
  have hlen : (d :: ds).length = 3 := by
    obtain ⟨x, y, heq, -⟩ := hyes
    rw [heq]
    rfl
  rw [hone, hlen]
  exact ⟨by decide, fun _ => by decide⟩

variable {units : List (List Byte × Nat)}

theorem encode_units
    (h : ∀ e ∈ units, ∃ d ds, e.1 = d :: ds ∧ (∀ x ∈ ds, isContinuationByte x = true) ∧
      Reads d ds e.2) :
    (units.flatMap fun e => encode e.2) = units.flatMap Prod.fst ↔
        ∀ e ∈ units, ¬ Reserved e.1 := by
  have hle : ∀ us : List (List Byte × Nat), (∀ e ∈ us, e ∈ units) →
      (us.flatMap fun e => encode e.2).length ≤ (us.flatMap Prod.fst).length ∧
        ((∃ e ∈ us, Reserved e.1) →
          (us.flatMap fun e => encode e.2).length < (us.flatMap Prod.fst).length) := by
    intro us
    induction us with
    | nil =>
      intro _
      exact ⟨Nat.le_refl _, fun ⟨e, he, _⟩ => absurd he (by simp)⟩
    | cons e us ih =>
      intro hmem
      obtain ⟨d, ds, he, -, hreads⟩ := h e (hmem e mem_cons_self)
      obtain ⟨hle, hlt⟩ := encode_le he hreads
      obtain ⟨ihle, ihlt⟩ := ih fun e' he' => hmem e' (mem_cons_of_mem _ he')
      simp only [flatMap_cons, length_append]
      refine ⟨by omega, ?_⟩
      rintro ⟨e', he', hres⟩
      rcases mem_cons.mp he' with rfl | he'
      · have := hlt hres
        omega
      · have := ihlt ⟨e', he', hres⟩
        omega
  constructor
  · intro heq e he hres
    have hlt := (hle units fun _ h => h).2 ⟨e, he, hres⟩
    rw [heq] at hlt
    exact absurd hlt (Nat.lt_irrefl _)
  · intro hno
    refine flatMap_congr ?_
    intro e he
    obtain ⟨d, ds, heq, -, hreads⟩ := h e he
    rw [heq]
    rcases hreads.2 with ⟨-, henc⟩ | ⟨hyes, -⟩
    · exact henc
    · exact absurd (heq ▸ hyes) (hno e he)

/-! ### The encoder -/

variable {us : List Nat}

theorem strlen_cstr (h : 0 ∉ us) : strlen (cstr us) = some us.length := by
  induction us with
  | nil => rfl
  | cons u us ih =>
    rw [mem_cons, not_or] at h
    rw [cstr, cons_append, strlen, if_neg (fun heq => h.1 heq.symm)]
    rw [cstr] at ih
    rw [ih h.2]
    rfl

theorem encodeLoop_cstr (h : 0 ∉ us) (n : Nat) :
    encodeLoop (cstr us) n = some ((us.take n).flatMap encode) := by
  induction us generalizing n with
  | nil =>
    rw [take_nil]
    rfl
  | cons u us ih =>
    rw [mem_cons, not_or] at h
    have hne : ¬ u = 0 := fun heq => h.1 heq.symm
    rw [cstr, cons_append, encodeLoop.eq_def]
    simp only [if_neg hne]
    cases n with
    | zero => rfl
    | succ n =>
      have ih := ih h.2 n
      rw [cstr] at ih
      simp only [ih]
      rfl

/-- **The encoder on a string of codepoints**, whose number becomes an `int`. -/
theorem unicodeToUtf8_cstr (h : 0 ∉ us) :
    (unicodeToUtf8 (cstr us) = none ∧ 2 ^ 31 ≤ (us.length + 1) * 6) ∨
      ∃ n, (n + 1) * 6 < 2 ^ 31 ∧ (us.length < 2 ^ 31 → n = us.length) ∧
        unicodeToUtf8 (cstr us) =
          some (cstr ((us.take n).flatMap encode), ((us.take n).flatMap encode).length) := by
  have hint : us.length < 2 ^ 31 → (BitVec.ofNat 32 us.length).toInt = us.length := by
    intro hlt
    rw [BitVec.toInt_eq_toNat_cond, BitVec.toNat_ofNat, Nat.mod_eq_of_lt (by omega),
      if_pos (by omega)]
  rw [unicodeToUtf8, strlen_cstr h, bind_some, unicodeToUtf8Range, utf8BytesPerChar]
  generalize hulen : (BitVec.ofNat 32 us.length).toInt = ulen at hint ⊢
  by_cases hsize : 0 ≤ (ulen + 1) * (6 : Nat) ∧ (ulen + 1) * (6 : Nat) < 2 ^ 31
  · rw [if_pos hsize, encodeLoop_cstr h]
    refine Or.inr ⟨ulen.toNat, by omega, ?_, rfl⟩
    intro hlt
    rw [hint hlt]
    rfl
  · rw [if_neg hsize]
    refine Or.inl ⟨rfl, ?_⟩
    by_contra hlt
    have := hint (by omega)
    omega

/-! ### Bytes, codepoints, bytes -/

/-- The bytes of the codepoints of a string are the string. -/
def BytesReturn (s : List Byte) : Prop :=
  ∃ us len, utf8ToUnicode (cstr s) = some (us, len) ∧ unicodeToUtf8 us = some (cstr s, s.length)

/-- The number of codepoints is one that the encoder has memory for. -/
def Encodable (s : List Byte) : Prop :=
  ∃ len, utf8GetLen (cstr s) = some len ∧ (len + 1) * utf8BytesPerChar < 2 ^ 31

/-- The bytes of a codepoint of the reserved range occur in a string. -/
def HasReserved (s : List Byte) : Prop := ∃ pre bs post, s = pre ++ (bs ++ post) ∧ Reserved bs

variable {s : List Byte}

theorem Units.hasReserved_iff (h : Units s units) :
    HasReserved s ↔ ∃ e ∈ units, Reserved e.1 := by
  constructor
  · rintro ⟨pre, bs, post, heq, hres⟩
    exact h.whole pre bs post heq hres
  · rintro ⟨e, he, hres⟩
    obtain ⟨l, r, rfl⟩ := append_of_mem he
    refine ⟨l.flatMap Prod.fst, e.1, r.flatMap Prod.fst, ?_, hres⟩
    rw [h.bytes, flatMap_append, flatMap_cons]

theorem Units.length_le (h : Units s units) :
    units.length ≤ s.length := by
  have hle : ∀ us : List (List Byte × Nat), (∀ e ∈ us, e ∈ units) →
      us.length ≤ (us.flatMap Prod.fst).length := by
    intro us
    induction us with
    | nil => exact fun _ => Nat.le_refl _
    | cons e us ih =>
      intro hmem
      obtain ⟨d, ds, he, -, -⟩ := h.reads e (hmem e mem_cons_self)
      have ih := ih fun e' he' => hmem e' (mem_cons_of_mem _ he')
      rw [length_cons, flatMap_cons, length_append, he, length_cons]
      omega
  rw [h.bytes]
  exact hle units fun _ he => he

theorem exists_units_cstr (hs : (0 : Byte) ∉ s) (hlen : s.length + 1 < 2 ^ 31) :
    ∃ units, Units s units ∧ utf8GetLen (cstr s) = some units.length ∧
      utf8ToUnicode (cstr s) = some (cstr (units.map Prod.snd), units.length) ∧
      0 ∉ units.map Prod.snd := by
  obtain ⟨units, hunits, hgetLen, hfrom⟩ := exists_units s.length s [] rfl hs (by simpa using hlen)
  have hcount := hunits.length_le
  have hget : utf8GetLen (cstr s) = some units.length :=
    hgetLen (cstr s).length (by rw [cstr, length_append, length_singleton]; omega)
  have hfrom : decodeFrom (cstr s) units.length 0 = some (units.map Prod.snd) := hfrom
  refine ⟨units, hunits, hget, ?_, ?_⟩
  · rw [utf8ToUnicode, hget, bind_some, hfrom]
    rfl
  · intro h0
    obtain ⟨e, he, h0⟩ := mem_map.mp h0
    obtain ⟨d, ds, -, -, hreads⟩ := hunits.reads e he
    exact hreads.1 h0

variable {buf : List Byte} {k most : Nat} {lead : Byte}

theorem readSequence_pos {ind r i : Nat}
    (h : readSequence buf ind k lead most = some (some (r, i))) :
    r ≠ 0 := by
  obtain ⟨found, -, hfound⟩ := map_eq_some_iff.mp h
  obtain ⟨⟨r', i'⟩, -, hif⟩ := bind_eq_some_iff.mp hfound
  by_cases hmost : r' ≤ most
  · simp [hmost] at hif
  simp only [if_neg hmost] at hif
  obtain ⟨rfl, -⟩ := Prod.mk.inj (some.inj hif)
  omega

theorem utf8NextGet_zero {ind i : Nat} (h : utf8NextGet buf ind = some (0, i)) :
    read buf ind = some 0 := by
  obtain ⟨d, hd, hrest⟩ := bind_eq_some_iff.mp h
  by_cases hd0 : d = 0
  · rw [hd, hd0]
  rw [if_neg hd0] at hrest
  by_cases hascii : d &&& 0x80 = 0
  · rw [if_pos hascii] at hrest
    obtain ⟨h0, -⟩ := Prod.mk.inj (some.inj hrest)
    exact absurd (BitVec.eq_of_toNat_eq h0) hd0
  rw [if_neg hascii] at hrest
  obtain ⟨found, hfound, hval⟩ := map_eq_some_iff.mp hrest
  exfalso
  cases found with
  | none =>
    obtain ⟨h0, -⟩ := Prod.mk.inj hval
    rw [(replaced d hascii).1] at h0
    omega
  | some p =>
    obtain ⟨r, j⟩ := p
    obtain ⟨rfl, -⟩ := Prod.mk.inj hval
    rw [sequenceFrom] at hfound
    split_ifs at hfound
    · exact readSequence_pos hfound rfl
    · exact readSequence_pos hfound rfl
    · exact readSequence_pos hfound rfl
    · exact readSequence_pos hfound rfl
    · exact readSequence_pos hfound rfl
    · simp at hfound

theorem read_of_getLenFrom : ∀ (fuel ind len : Nat),
    getLenFrom buf fuel ind = some len → ∃ i, read buf i = some 0 := by
  intro fuel
  induction fuel with
  | zero =>
    intro ind len h
    simp [getLenFrom] at h
  | succ fuel ih =>
    intro ind len h
    obtain ⟨⟨r, i⟩, hnext, hrest⟩ := bind_eq_some_iff.mp h
    by_cases hr : r = 0
    · subst hr
      exact ⟨ind, utf8NextGet_zero hnext⟩
    simp only [if_neg hr] at hrest
    obtain ⟨len', hlen', -⟩ := map_eq_some_iff.mp hrest
    exact ih i len' hlen'

theorem short_of_utf8GetLen (hs : (0 : Byte) ∉ s) {len : Nat} (h : utf8GetLen (cstr s) = some len) :
    s.length + 1 < 2 ^ 31 := by
  obtain ⟨i, hi⟩ := read_of_getLenFrom _ _ _ h
  rw [read] at hi
  by_cases hlt : i + 1 < 2 ^ 31
  · rw [if_pos hlt] at hi
    have hge : s.length ≤ i := by
      by_contra hlt'
      rw [cstr, List.getElem?_append_left (by omega)] at hi
      exact hs (mem_of_getElem? hi)
    omega
  · rw [if_neg hlt] at hi
    simp at hi

/-- **The bytes of a string return exactly if it can be encoded and has no reserved bytes.** -/
theorem bytesReturn_iff (s : List Byte) (hs : (0 : Byte) ∉ s) :
    BytesReturn s ↔ Encodable s ∧ ¬ HasReserved s := by
  by_cases hlen : s.length + 1 < 2 ^ 31
  · obtain ⟨units, hunits, hget, hdecode, h0⟩ := exists_units_cstr hs hlen
    have hcount := hunits.length_le
    have hmap : (units.map Prod.snd).length = units.length := length_map _
    have hflat : ((units.map Prod.snd).flatMap encode) = units.flatMap fun e => encode e.2 :=
      flatMap_map _ _ _
    have henc : Encodable s ↔ (units.length + 1) * 6 < 2 ^ 31 := by
      constructor
      · rintro ⟨len, hlen, hsize⟩
        obtain rfl := some.inj (hget.symm.trans hlen)
        exact hsize
      · intro hsize
        exact ⟨_, hget, hsize⟩
    have hno : ¬ HasReserved s ↔ ∀ e ∈ units, ¬ Reserved e.1 := by
      rw [hunits.hasReserved_iff]
      exact ⟨fun h e he hr => h ⟨e, he, hr⟩, fun h ⟨e, he, hr⟩ => h e he hr⟩
    rw [henc, hno, ← encode_units hunits.reads, ← hunits.bytes, ← hflat]
    rcases unicodeToUtf8_cstr h0 with ⟨hnone, hlarge⟩ | ⟨n, hsize, hn, hsome⟩
    · refine iff_of_false ?_ (fun h => by omega)
      rintro ⟨us, len, hus, hbytes⟩
      obtain ⟨rfl, -⟩ := Prod.mk.inj (some.inj (hdecode.symm.trans hus))
      rw [hnone] at hbytes
      simp at hbytes
    · have hn : n = (units.map Prod.snd).length := hn (by omega)
      subst hn
      rw [take_length] at hsome
      rw [hmap] at hsize
      constructor
      · rintro ⟨us, len, hus, hbytes⟩
        obtain ⟨rfl, -⟩ := Prod.mk.inj (some.inj (hdecode.symm.trans hus))
        obtain ⟨heq, -⟩ := Prod.mk.inj (some.inj (hsome.symm.trans hbytes))
        exact ⟨hsize, append_cancel_right heq⟩
      · rintro ⟨-, heq⟩
        rw [heq] at hsome
        exact ⟨_, _, hdecode, hsome⟩
  · refine iff_of_false ?_ ?_
    · rintro ⟨us, len, hus, -⟩
      obtain ⟨len', hget, -⟩ := bind_eq_some_iff.mp hus
      exact hlen (short_of_utf8GetLen hs hget)
    · rintro ⟨⟨len, hget, -⟩, -⟩
      exact hlen (short_of_utf8GetLen hs hget)

/-- A euro sign, a byte that follows nothing, and a sequence that is cut off. -/
theorem bytesReturn_sample : BytesReturn [0xE2, 0x82, 0xAC, 0x80, 0xF0, 0x9F] ↔
    Encodable [0xE2, 0x82, 0xAC, 0x80, 0xF0, 0x9F] ∧
      ¬ HasReserved [0xE2, 0x82, 0xAC, 0x80, 0xF0, 0x9F] :=
  bytesReturn_iff [0xE2, 0x82, 0xAC, 0x80, 0xF0, 0x9F] (by decide)

/-- **The bytes of U+DC80 come back as one byte.** -/
theorem reserved_shrinks : ¬ BytesReturn [0xED, 0xB2, 0x80] := by
  rintro ⟨us, len, hus, hbytes⟩
  have hdecode : utf8ToUnicode (cstr [0xED, 0xB2, 0x80]) = some ([0xDC80, 0], 1) := by
    decide
  have hencode : unicodeToUtf8 [0xDC80, 0] = some (cstr [0x80], 1) := by
    decide
  obtain ⟨rfl, -⟩ := Prod.mk.inj (some.inj (hdecode.symm.trans hus))
  obtain ⟨-, hlen⟩ := Prod.mk.inj (some.inj (hencode.symm.trans hbytes))
  exact absurd hlen (by decide)

/-! ### Codepoints, bytes, codepoints -/

/-- A codepoint of Unicode that does not stand for a single byte. -/
def Plain (u : Nat) : Prop :=
  1 ≤ u ∧ u ≤ 0x10FFFF ∧ ¬ (errorReplacementBase ≤ u ∧ u ≤ errorReplacementEnd)

theorem lead_two : ∀ x : Byte, x.toNat < 32 → (0xC0 ||| x) ≠ 0 ∧ (0xC0 ||| x) &&& 0x80 ≠ 0 ∧
    (0xC0 ||| x) &&& 0xe0 = 0xc0 ∧ (0xC0 ||| x) &&& 0x1f = x := by
  decide

theorem lead_three : ∀ x : Byte, x.toNat < 16 → (0xE0 ||| x) ≠ 0 ∧ (0xE0 ||| x) &&& 0x80 ≠ 0 ∧
    (0xE0 ||| x) &&& 0xe0 ≠ 0xc0 ∧ (0xE0 ||| x) &&& 0xf0 = 0xe0 ∧ (0xE0 ||| x) &&& 0x0f = x := by
  decide

theorem lead_four : ∀ x : Byte, x.toNat < 8 → (0xF0 ||| x) ≠ 0 ∧ (0xF0 ||| x) &&& 0x80 ≠ 0 ∧
    (0xF0 ||| x) &&& 0xe0 ≠ 0xc0 ∧ (0xF0 ||| x) &&& 0xf0 ≠ 0xe0 ∧
    (0xF0 ||| x) &&& 0xf8 = 0xf0 ∧ (0xF0 ||| x) &&& 0x07 = x := by
  decide

theorem ofNat_toNat_of_lt {n : Nat} (h : n < 256) : (BitVec.ofNat 8 n).toNat = n := by
  rw [BitVec.toNat_ofNat, Nat.mod_eq_of_lt h]

variable {u : Nat}

theorem readSequence_restBytes (pre post : List Byte) (hlead : lead.toNat = u / 2 ^ (6 * k))
    (hmost : most < u) (hlen : pre.length + k + 1 < 2 ^ 31) :
    readSequence (pre ++ (restBytes u k ++ post)) pre.length k lead most =
      some (some (u, pre.length + k)) := by
  rw [readSequence, Nat.shiftLeft_eq, readRest_restBytes u k _ pre hlen, hlead, map_some,
    bind_some]
  have hval : u / 2 ^ (6 * k) * 2 ^ (6 * k) + u % 2 ^ (6 * k) = u := Nat.div_add_mod' _ _
  simp only [hval, if_neg (Nat.not_le.mpr hmost)]

theorem utf8NextGet_sequence (hd : d ≠ 0 ∧ d &&& 0x80 ≠ 0)
    (hform : ∀ buf ind, sequenceFrom buf ind d = readSequence buf ind k lead most)
    (henc : encode u = d :: restBytes u k) (hlead : lead.toNat = u / 2 ^ (6 * k)) (hmost : most < u)
    (pre post : List Byte) (hlen : pre.length + (encode u).length + 1 < 2 ^ 31) :
    utf8NextGet (pre ++ (encode u ++ post)) pre.length =
      some (u, pre.length + (encode u).length) := by
  have hcount : (encode u).length = k + 1 := by rw [henc, length_cons, length_restBytes]
  rw [hcount] at hlen ⊢
  have hread := readSequence_restBytes (pre ++ [d]) post hlead hmost (by simp; omega)
  rw [append_assoc, singleton_append, length_append, length_singleton] at hread
  rw [henc, cons_append, utf8NextGet, read_at _ _ _ (by omega), bind_some, if_neg hd.1,
    if_neg hd.2, hform, hread, map_some, getD_some, Nat.add_assoc, Nat.add_comm 1 k]

/-- **A codepoint is read back from its bytes.** -/
theorem utf8NextGet_encode (h : Plain u) (pre post : List Byte)
    (hlen : pre.length + (encode u).length + 1 < 2 ^ 31) :
    utf8NextGet (pre ++ (encode u ++ post)) pre.length =
      some (u, pre.length + (encode u).length) := by
  obtain ⟨hpos, hmax, hout⟩ := h
  by_cases h1 : u ≤ 0x7F
  · have henc : encode u = [BitVec.ofNat 8 u] := by rw [encode, if_pos h1]
    have hto : (BitVec.ofNat 8 u).toNat = u := ofNat_toNat_of_lt (by omega)
    have hascii : ∀ d : Byte, d.toNat ≤ 0x7F → d &&& 0x80 = 0 := by decide
    rw [henc] at hlen ⊢
    rw [length_singleton] at hlen ⊢
    rw [singleton_append, utf8NextGet, read_at _ _ _ (by omega), bind_some, if_neg,
      if_pos (hascii _ (by omega)), hto]
    intro h0
    rw [h0] at hto
    have : (0 : Byte).toNat = 0 := rfl
    omega
  · by_cases h2 : u ≤ 0x7FF
    · have hto : (BitVec.ofNat 8 (u >>> 6)).toNat = u / 2 ^ (6 * 1) := by
        rw [Nat.shiftRight_eq_div_pow, ofNat_toNat_of_lt (by omega)]
      obtain ⟨hne, h80, he0, hcar⟩ := lead_two (BitVec.ofNat 8 (u >>> 6)) (by omega)
      refine utf8NextGet_sequence ⟨hne, h80⟩ (fun buf ind => ?_) ?_ hto (Nat.not_le.mp h1) pre post
        hlen
      · rw [sequenceFrom, if_pos he0, hcar]
      · rw [encode, if_neg h1, if_pos h2]
    · by_cases h3 : u ≤ 0xFFFF
      · have hto : (BitVec.ofNat 8 (u >>> 12)).toNat = u / 2 ^ (6 * 2) := by
          rw [Nat.shiftRight_eq_div_pow, ofNat_toNat_of_lt (by omega)]
        obtain ⟨hne, h80, he0, hf0, hcar⟩ := lead_three (BitVec.ofNat 8 (u >>> 12)) (by omega)
        refine utf8NextGet_sequence ⟨hne, h80⟩ (fun buf ind => ?_) ?_ hto (Nat.not_le.mp h2) pre
          post hlen
        · rw [sequenceFrom, if_neg he0, if_pos hf0, hcar]
        · rw [encode, if_neg h1, if_neg h2, if_pos h3, if_neg hout]
      · have hmask : (u >>> 18) &&& 0x07 = u / 2 ^ (6 * 3) := by
          rw [Nat.shiftRight_eq_div_pow, show 0x07 = 2 ^ 3 - 1 from rfl,
            Nat.and_two_pow_sub_one_eq_mod, Nat.mod_eq_of_lt (by omega)]
        have hto : (BitVec.ofNat 8 ((u >>> 18) &&& 0x07)).toNat = u / 2 ^ (6 * 3) := by
          rw [hmask, ofNat_toNat_of_lt (by omega)]
        obtain ⟨hne, h80, he0, hf0, hf8, hcar⟩ :=
          lead_four (BitVec.ofNat 8 ((u >>> 18) &&& 0x07)) (by omega)
        refine utf8NextGet_sequence ⟨hne, h80⟩ (fun buf ind => ?_) ?_ hto (Nat.not_le.mp h3) pre
          post hlen
        · rw [sequenceFrom, if_neg he0, if_neg hf0, if_pos hf8, hcar]
        · rw [encode, if_neg h1, if_neg h2, if_neg h3, if_pos (by omega)]

theorem zero_notMem_restBytes (u k : Nat) : (0 : Byte) ∉ restBytes u k := by
  induction k with
  | zero => simp [restBytes]
  | succ k ih =>
    rw [restBytes, mem_cons, not_or, restByte_eq]
    refine ⟨?_, ih⟩
    intro h0
    have hcont := (carries (u / 2 ^ (6 * k))).1
    rw [← h0] at hcont
    exact absurd hcont (by decide)

theorem lead_ne_zero : ∀ x : Byte, (0 : Byte) ≠ 0xC0 ||| x ∧ (0 : Byte) ≠ 0xE0 ||| x ∧
    (0 : Byte) ≠ 0xF0 ||| x := by
  decide

theorem encode_bytes (h : Plain u) : (0 : Byte) ∉ encode u ∧ 0 < (encode u).length ∧
    (encode u).length ≤ 4 := by
  obtain ⟨hpos, hmax, hout⟩ := h
  rw [encode]
  by_cases h1 : u ≤ 0x7F
  · rw [if_pos h1]
    refine ⟨?_, by simp, by simp⟩
    intro h0
    have hto := ofNat_toNat_of_lt (n := u) (by omega)
    rw [← mem_singleton.mp h0] at hto
    have : (0 : Byte).toNat = 0 := rfl
    omega
  · rw [if_neg h1]
    by_cases h2 : u ≤ 0x7FF
    · rw [if_pos h2, mem_cons, not_or, length_cons, length_restBytes]
      exact ⟨⟨(lead_ne_zero _).1, zero_notMem_restBytes u 1⟩, by omega, by omega⟩
    rw [if_neg h2]
    by_cases h3 : u ≤ 0xFFFF
    · rw [if_pos h3, if_neg hout, mem_cons, not_or, length_cons, length_restBytes]
      exact ⟨⟨(lead_ne_zero _).2.1, zero_notMem_restBytes u 2⟩, by omega, by omega⟩
    · rw [if_neg h3, if_pos (by omega), mem_cons, not_or, length_cons, length_restBytes]
      exact ⟨⟨(lead_ne_zero _).2.2, zero_notMem_restBytes u 3⟩, by omega, by omega⟩

theorem encodes_bytes (h : ∀ u ∈ us, Plain u) :
    (0 : Byte) ∉ us.flatMap encode ∧ us.length ≤ (us.flatMap encode).length ∧
      (us.flatMap encode).length ≤ 4 * us.length := by
  induction us with
  | nil => exact ⟨by simp, by simp, by simp⟩
  | cons u us ih =>
    obtain ⟨h0, hpos, hle⟩ := encode_bytes (h u mem_cons_self)
    obtain ⟨ih0, ihpos, ihle⟩ := ih fun v hv => h v (mem_cons_of_mem _ hv)
    rw [flatMap_cons, mem_append, not_or, length_append, length_cons]
    exact ⟨⟨h0, ih0⟩, by omega, by omega⟩

/-- **What was encoded is decoded.** -/
theorem decodes_encode : ∀ (us : List Nat) (pre : List Byte), (∀ u ∈ us, Plain u) →
    pre.length + (us.flatMap encode).length + 1 < 2 ^ 31 →
    (∀ fuel, us.length < fuel →
      getLenFrom (pre ++ cstr (us.flatMap encode)) fuel pre.length = some us.length) ∧
      decodeFrom (pre ++ cstr (us.flatMap encode)) us.length pre.length = some us := by
  intro us
  induction us with
  | nil =>
    intro pre _ hlen
    refine ⟨?_, rfl⟩
    intro fuel hfuel
    obtain ⟨fuel, rfl⟩ := Nat.exists_eq_succ_of_ne_zero (Nat.ne_of_gt hfuel)
    have hread : read (pre ++ (0 : Byte) :: []) pre.length = some 0 :=
      read_at pre 0 [] (by simpa using hlen)
    have hbuf : pre ++ cstr (([] : List Nat).flatMap encode) = pre ++ (0 : Byte) :: [] := rfl
    rw [getLenFrom, hbuf, utf8NextGet, hread]
    rfl
  | cons u us ih =>
    intro pre hplain hlen
    rw [flatMap_cons, length_append] at hlen
    have hu := hplain u mem_cons_self
    have hnext := utf8NextGet_encode hu pre (cstr (us.flatMap encode)) (by omega)
    have hbuf : pre ++ cstr ((u :: us).flatMap encode) =
        pre ++ (encode u ++ cstr (us.flatMap encode)) := by
      simp [cstr]
    obtain ⟨ihlen, ihfrom⟩ := ih (pre ++ encode u)
      (fun v hv => hplain v (mem_cons_of_mem _ hv)) (by rw [length_append]; omega)
    rw [append_assoc, length_append] at ihlen ihfrom
    have hne : ¬ u = 0 := by
      have := hu.1
      omega
    rw [hbuf]
    refine ⟨?_, ?_⟩
    · intro fuel hfuel
      obtain ⟨fuel, rfl⟩ := Nat.exists_eq_succ_of_ne_zero (Nat.ne_zero_of_lt hfuel)
      rw [getLenFrom, hnext, bind_some]
      simp only [if_neg hne]
      rw [ihlen fuel (by simpa using hfuel)]
      rfl
    · rw [length_cons, decodeFrom, hnext, bind_some]
      simp only [ihfrom]
      rfl

theorem utf8ToUnicode_encode (h : ∀ u ∈ us, Plain u)
    (hlen : (us.flatMap encode).length + 1 < 2 ^ 31) :
    utf8ToUnicode (cstr (us.flatMap encode)) = some (cstr us, us.length) := by
  obtain ⟨hget, hfrom⟩ := decodes_encode us [] h (by simpa using hlen)
  have hcount := (encodes_bytes h).2.1
  have hget : utf8GetLen (cstr (us.flatMap encode)) = some us.length :=
    hget _ (by rw [cstr, length_append, length_singleton]; omega)
  have hfrom : decodeFrom (cstr (us.flatMap encode)) us.length 0 = some us := hfrom
  rw [utf8ToUnicode, hget, bind_some, hfrom]
  rfl

/-- The codepoints of their bytes are the codepoints, and the length is that of the bytes before the
terminator. -/
def CodepointsReturn (us : List Nat) : Prop :=
  ∃ bytes, unicodeToUtf8 (cstr us) = some (cstr bytes, bytes.length) ∧ (0 : Byte) ∉ bytes ∧
    utf8ToUnicode (cstr bytes) = some (cstr us, us.length)

/-- **Codepoints return exactly if the size of the memory for their bytes is an `int`.** -/
theorem codepointsReturn_iff (us : List Nat) (h : ∀ u ∈ us, Plain u) :
    CodepointsReturn us ↔ (us.length + 1) * utf8BytesPerChar < 2 ^ 31 := by
  have h0 : 0 ∉ us := by
    intro hmem
    exact absurd (h 0 hmem).1 (by decide)
  rw [utf8BytesPerChar]
  rcases unicodeToUtf8_cstr h0 with ⟨hnone, hlarge⟩ | ⟨n, hsize, hn, hsome⟩
  · refine iff_of_false ?_ (by omega)
    rintro ⟨bytes, hbytes, -⟩
    rw [hnone] at hbytes
    simp at hbytes
  have htake : ∀ u ∈ us.take n, Plain u := fun u hu => h u (mem_of_mem_take hu)
  obtain ⟨hnul, -, hle⟩ := encodes_bytes htake
  rw [length_take] at hle
  have hdecode := utf8ToUnicode_encode htake (by omega)
  constructor
  · rintro ⟨bytes, hbytes, -, hus⟩
    obtain ⟨hbytes, -⟩ := Prod.mk.inj (some.inj (hsome.symm.trans hbytes))
    have hbytes := append_cancel_right hbytes
    subst hbytes
    obtain ⟨-, hlen⟩ := Prod.mk.inj (some.inj (hdecode.symm.trans hus))
    rw [length_take] at hlen
    omega
  · intro hfit
    have hn : n = us.length := hn (by omega)
    rw [hn, take_length] at hsome hnul hdecode
    exact ⟨_, hsome, hnul, hdecode⟩

theorem codepointsReturn_sample : CodepointsReturn [0x41, 0xE9, 0x20AC, 0x10FFFF] ↔
    ([0x41, 0xE9, 0x20AC, 0x10FFFF].length + 1) * utf8BytesPerChar < 2 ^ 31 :=
  codepointsReturn_iff [0x41, 0xE9, 0x20AC, 0x10FFFF] (by
    intro u hu
    simp only [mem_cons, not_mem_nil, or_false] at hu
    unfold Plain errorReplacementBase errorReplacementEnd
    omega)

/-- **The size of the memory for the bytes of 357913941 codepoints is no `int`.** -/
theorem many_codepoints_lost : ¬ CodepointsReturn (List.replicate 357913941 0x41) := by
  have h0 : 0 ∉ List.replicate 357913941 0x41 := by
    intro hmem
    exact absurd (eq_of_mem_replicate hmem) (by decide)
  rintro ⟨bytes, hbytes, -⟩
  rw [unicodeToUtf8, strlen_cstr h0, bind_some, length_replicate, unicodeToUtf8Range,
    if_neg (by decide)] at hbytes
  simp at hbytes

end Eina.Unicode
