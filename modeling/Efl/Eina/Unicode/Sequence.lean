/-
One sequence of bytes and its codepoint.

The last `k` bytes of a sequence carry six bits each, so the codepoint is what the
first byte carries times 2 ^ (6 * k), and a number less than that.  Both directions are
inductions on `k` (`readRest_restBytes`, `readRest_spec`); the forms of a sequence
differ in their first bytes only.
-/
import Mathlib.Tactic.Ring
import Efl.Eina.Unicode.Basic

namespace Eina.Unicode

open List Option

set_option maxRecDepth 4000

variable {buf s t pre post : List Byte} {r k ind : Nat} {d : Byte} (u : Nat)

/-! ### Bytes -/

theorem continuation_not_bad : ∀ d : Byte, isContinuationByte d = true →
    (d = 0 || isInvalidByte d || !isContinuationByte d) = false := by
  decide

theorem continuation_join : ∀ d : Byte, isContinuationByte d = true →
    0x80 ||| (d &&& 0x3f) = d := by
  decide

theorem continuation_ne : ∀ d : Byte, isContinuationByte d = true → d ≠ 0xED := by
  decide

theorem carried_lt : ∀ d : Byte, (d &&& 0x3f).toNat < 64 := by
  decide

theorem continuation_of_carried : ∀ x : Byte, x.toNat < 64 →
    isContinuationByte (0x80 ||| x) = true ∧ (0x80 ||| x) &&& 0x3f = x := by
  decide

theorem and_low_six : u &&& 0x3F = u % 64 := Nat.and_two_pow_sub_one_eq_mod u 6

theorem restByte_eq (u k : Nat) : (u >>> (6 * k)) &&& 0x3F = u / 2 ^ (6 * k) % 64 := by
  rw [and_low_six, Nat.shiftRight_eq_div_pow]

theorem carries : isContinuationByte (0x80 ||| BitVec.ofNat 8 (u % 64)) = true ∧
    ((0x80 ||| BitVec.ofNat 8 (u % 64)) &&& 0x3f).toNat = u % 64 := by
  have htoNat : (BitVec.ofNat 8 (u % 64)).toNat = u % 64 := by
    rw [BitVec.toNat_ofNat, Nat.mod_eq_of_lt (by omega)]
  obtain ⟨hcont, hand⟩ := continuation_of_carried (BitVec.ofNat 8 (u % 64)) (by omega)
  exact ⟨hcont, by rw [hand, htoNat]⟩

theorem pow_step (k : Nat) : 2 ^ (6 * (k + 1)) = 64 * 2 ^ (6 * k) := by
  rw [Nat.mul_succ, Nat.pow_add, mul_comm]

theorem join_digit (hi dig k : Nat) (hdig : dig < 64) :
    hi * 2 ^ (6 * (k + 1)) ||| (dig <<< (6 * k)) = (hi * 64 + dig) * 2 ^ (6 * k) := by
  have hlt : dig * 2 ^ (6 * k) < 2 ^ (6 * (k + 1)) := by
    rw [pow_step]
    exact mul_lt_mul_of_pos_right hdig (Nat.two_pow_pos _)
  rw [Nat.shiftLeft_eq, mul_comm, ← Nat.two_pow_add_eq_or_of_lt hlt]
  ring

/-! ### The last bytes -/

theorem length_restBytes (u k : Nat) : (restBytes u k).length = k := by
  induction k with
  | zero => rfl
  | succ k ih => rw [restBytes, length_cons, ih]

theorem read_at (pre : List Byte) (d : Byte) (post : List Byte) (hlen : pre.length + 1 < 2 ^ 31) :
    read (pre ++ d :: post) pre.length = some d := by
  rw [read, if_pos hlen, getElem?_append_right (le_rfl), Nat.sub_self]
  rfl

/-- **The last bytes of a sequence are read back.** -/
theorem readRest_restBytes : ∀ (k hi : Nat) (pre : List Byte),
    pre.length + k + 1 < 2 ^ 31 →
    readRest (pre ++ (restBytes u k ++ post)) k pre.length (hi * 2 ^ (6 * k)) =
      some (some (hi * 2 ^ (6 * k) + u % 2 ^ (6 * k), pre.length + k)) := by
  intro k
  induction k with
  | zero =>
    intro hi pre _
    rw [readRest, pow_zero, Nat.mod_one]
    rfl
  | succ k ih =>
    intro hi pre hlen
    obtain ⟨hcont, hcarried⟩ := carries (u / 2 ^ (6 * k))
    rw [restBytes, restByte_eq, cons_append, readRest, read_at _ _ _ (by omega),
      bind_some, continuation_not_bad _ hcont, if_neg (by simp), hcarried,
      join_digit hi _ k (Nat.mod_lt _ (by decide))]
    have hnext := ih (hi * 64 + u / 2 ^ (6 * k) % 64)
      (pre ++ [0x80 ||| BitVec.ofNat 8 (u / 2 ^ (6 * k) % 64)]) (by simp; omega)
    rw [append_assoc, singleton_append, length_append, length_singleton]
      at hnext
    rw [hnext]
    have hmod : u % 2 ^ (6 * (k + 1)) = u % 2 ^ (6 * k) + 2 ^ (6 * k) * (u / 2 ^ (6 * k) % 64) := by
      rw [Nat.mul_succ, Nat.pow_add, Nat.mod_mul]
    have hval : (hi * 64 + u / 2 ^ (6 * k) % 64) * 2 ^ (6 * k) + u % 2 ^ (6 * k) =
        hi * 2 ^ (6 * (k + 1)) + u % 2 ^ (6 * (k + 1)) := by
      rw [hmod]
      ring
    rw [hval, add_assoc, add_comm 1]

/-- The last `k` bytes carry `v`. -/
def Carries (ds : List Byte) (k v : Nat) : Prop :=
  v < 2 ^ (6 * k) ∧ ∀ hi, restBytes (hi * 2 ^ (6 * k) + v) k = ds

theorem carries_cons {ds : List Byte} {v : Nat} (h : Carries ds k v)
    (hd : isContinuationByte d = true) :
    Carries (d :: ds) (k + 1) ((d &&& 0x3f).toNat * 2 ^ (6 * k) + v) := by
  obtain ⟨hv, hrest⟩ := h
  have hlt := carried_lt d
  refine ⟨?_, ?_⟩
  · rw [pow_step]
    have hmul : ((d &&& 0x3f).toNat + 1) * 2 ^ (6 * k) ≤ 64 * 2 ^ (6 * k) :=
      Nat.mul_le_mul_right _ hlt
    rw [Nat.succ_mul] at hmul
    omega
  · intro hi
    have hval : hi * 2 ^ (6 * (k + 1)) + ((d &&& 0x3f).toNat * 2 ^ (6 * k) + v) =
        (hi * 64 + (d &&& 0x3f).toNat) * 2 ^ (6 * k) + v := by
      ring
    have hdiv : ((hi * 64 + (d &&& 0x3f).toNat) * 2 ^ (6 * k) + v) / 2 ^ (6 * k) =
        hi * 64 + (d &&& 0x3f).toNat := by
      rw [add_comm, Nat.add_mul_div_right _ _ (Nat.two_pow_pos _), Nat.div_eq_of_lt hv,
        zero_add]
    have hdig : (hi * 64 + (d &&& 0x3f).toNat) % 64 = (d &&& 0x3f).toNat := by
      omega
    rw [hval, restBytes, restByte_eq, hdiv, hdig, hrest, BitVec.ofNat_toNat, BitVec.setWidth_eq,
      continuation_join d hd]

/-- `k` continuation bytes stand at the front. -/
def Follow (t : List Byte) (k : Nat) : Prop :=
  ∃ ds t', t = ds ++ t' ∧ ds.length = k ∧ ∀ d ∈ ds, isContinuationByte d = true

/-- **What is read of the last bytes**: all of them, or a byte that does not follow. -/
theorem readRest_spec : ∀ (k hi : Nat) (pre t : List Byte), pre.length + t.length + 1 < 2 ^ 31 →
    (readRest (pre ++ cstr t) k pre.length (hi * 2 ^ (6 * k)) = some none ∧ ¬ Follow t k) ∨
      ∃ ds t' v, t = ds ++ t' ∧ ds.length = k ∧ (∀ d ∈ ds, isContinuationByte d = true) ∧
        Carries ds k v ∧ readRest (pre ++ cstr t) k pre.length (hi * 2 ^ (6 * k)) =
          some (some (hi * 2 ^ (6 * k) + v, pre.length + k)) := by
  intro k
  induction k with
  | zero =>
    intro hi pre t _
    exact .inr ⟨[], t, 0, rfl, rfl, by simp, ⟨one_pos, fun _ => rfl⟩, rfl⟩
  | succ k ih =>
    intro hi pre t hlen
    cases t with
    | nil =>
      left
      refine ⟨?_, ?_⟩
      · rw [cstr, nil_append, readRest, read_at _ _ _ (by simpa using hlen)]
        rfl
      · rintro ⟨ds, t', heq, hds, -⟩
        obtain ⟨rfl, -⟩ := append_eq_nil_iff.mp heq.symm
        simp at hds
    | cons d t =>
      rw [length_cons] at hlen
      rw [cstr, cons_append, readRest, read_at _ _ _ (by omega), bind_some]
      by_cases hd : isContinuationByte d = true
      · rw [continuation_not_bad d hd, join_digit hi _ k (carried_lt d)]
        have hnext := ih (hi * 64 + (d &&& 0x3f).toNat) (pre ++ [d]) t (by simp; omega)
        rw [append_assoc, length_append] at hnext
        rcases hnext with ⟨hread, hno⟩ | ⟨ds, t', v, rfl, hk, hall, hv, hread⟩
        · left
          refine ⟨hread, ?_⟩
          rintro ⟨ds, t', heq, hds, hall⟩
          cases ds with
          | nil => simp at hds
          | cons d' ds =>
            obtain ⟨-, rfl⟩ := cons.inj heq
            exact hno ⟨ds, t', rfl, Nat.succ.inj hds,
              fun x hx => hall x (mem_cons_of_mem _ hx)⟩
        · right
          refine ⟨d :: ds, t', _, rfl, by rw [length_cons, hk], ?_, carries_cons hv hd, ?_⟩
          · intro x hx
            rcases mem_cons.mp hx with rfl | hx
            · exact hd
            · exact hall x hx
          · have hval : hi * 2 ^ (6 * (k + 1)) + ((d &&& 0x3f).toNat * 2 ^ (6 * k) + v) =
                (hi * 64 + (d &&& 0x3f).toNat) * 2 ^ (6 * k) + v := by
              ring
            rw [hval, ← add_assoc, add_right_comm]
            exact hread
      · left
        refine ⟨?_, ?_⟩
        · rw [if_pos (by simp [hd])]
        · rintro ⟨ds, t', heq, hds, hall⟩
          cases ds with
          | nil => simp at hds
          | cons d' ds =>
            obtain ⟨rfl, -⟩ := cons.inj heq
            exact hd (hall d mem_cons_self)

/-! ### Sequences -/

/-- The three bytes of a codepoint of the range that stands for single bytes. -/
def Reserved (bs : List Byte) : Prop :=
  ∃ x y, bs = [0xED, x, y] ∧ (x = 0xB2 ∨ x = 0xB3) ∧ isContinuationByte y = true

theorem readSequence_spec (k most : Nat) (lead : Byte) (pre t : List Byte)
    (hlen : pre.length + t.length + 1 < 2 ^ 31) :
    (readSequence (pre ++ cstr t) pre.length k lead most = some none ∧
      (Follow t k → lead.toNat * 2 ^ (6 * k) ≤ most)) ∨
      ∃ ds t' v, t = ds ++ t' ∧ ds.length = k ∧ (∀ d ∈ ds, isContinuationByte d = true) ∧
        Carries ds k v ∧ most < lead.toNat * 2 ^ (6 * k) + v ∧
        readSequence (pre ++ cstr t) pre.length k lead most =
          some (some (lead.toNat * 2 ^ (6 * k) + v, pre.length + k)) := by
  rw [readSequence, Nat.shiftLeft_eq]
  rcases readRest_spec k lead.toNat pre t hlen with
    ⟨hread, hno⟩ | ⟨ds, t', v, heq, hk, hall, hv, hread⟩
  · rw [hread]
    exact .inl ⟨rfl, fun hf => absurd hf hno⟩
  rw [hread]
  by_cases hmost : lead.toNat * 2 ^ (6 * k) + v ≤ most
  · left
    refine ⟨?_, fun _ => by omega⟩
    simp only [map_some, bind_some, if_pos hmost]
  · right
    refine ⟨ds, t', v, heq, hk, hall, hv, by omega, ?_⟩
    simp only [map_some, bind_some, if_neg hmost]

theorem lead_shift {ds : List Byte} {v : Nat} (hv : Carries ds k v) (hi : Nat) :
    (hi * 2 ^ (6 * k) + v) >>> (6 * k) = hi := by
  rw [Nat.shiftRight_eq_div_pow, add_comm, Nat.add_mul_div_right _ _ (Nat.two_pow_pos _),
    Nat.div_eq_of_lt hv.1, zero_add]

theorem ofNat_lead (lead : Byte) : BitVec.ofNat 8 lead.toNat = lead := by
  rw [BitVec.ofNat_toNat, BitVec.setWidth_eq]

/-- The bytes that start with `d`, their codepoint `u`, and the bytes of that. -/
def Reads (d : Byte) (ds : List Byte) (u : Nat) : Prop :=
  u ≠ 0 ∧ ((¬ Reserved (d :: ds) ∧ encode u = d :: ds) ∨
    (Reserved (d :: ds) ∧ (encode u).length = 1))

theorem not_reserved_of_length {bs : List Byte} (h : bs.length ≠ 3) : ¬ Reserved bs := by
  rintro ⟨x, y, rfl, -⟩
  exact h rfl

theorem two_lead : ∀ d : Byte, d &&& 0xe0 = 0xc0 →
    (d &&& 0x1f).toNat < 32 ∧ 0xC0 ||| (d &&& 0x1f) = d ∧ d ≠ 0xED := by
  decide

theorem three_lead : ∀ d : Byte, d &&& 0xf0 = 0xe0 →
    (d &&& 0x0f).toNat < 16 ∧ 0xE0 ||| (d &&& 0x0f) = d ∧
      ((d &&& 0x0f).toNat = 13 ↔ d = 0xED) := by
  decide

theorem four_lead : ∀ d : Byte, d &&& 0xf8 = 0xf0 →
    (d &&& 0x07).toNat < 8 ∧ 0xF0 ||| (d &&& 0x07) = d := by
  decide

theorem five_lead : ∀ d : Byte, d &&& 0xfc = 0xf8 →
    (d &&& 0x03).toNat < 4 ∧ 0xF8 ||| (d &&& 0x03) = d := by
  decide

theorem six_lead : ∀ d : Byte, d &&& 0xfe = 0xfc →
    (d &&& 0x01).toNat < 2 ∧ 0xFC ||| (d &&& 0x01) = d := by
  decide

theorem three_of_ED : (0xED : Byte) &&& 0xe0 ≠ 0xc0 ∧ (0xED : Byte) &&& 0xf0 = 0xe0 := by
  decide

section Forms

variable {ds : List Byte} {v : Nat}

theorem reads_two (h : d &&& 0xe0 = 0xc0) (hv : Carries ds 1 v) (hds : ds.length = 1)
    (hmost : 0x7F < (d &&& 0x1f).toNat * 2 ^ (6 * 1) + v) :
    Reads d ds ((d &&& 0x1f).toNat * 2 ^ (6 * 1) + v) := by
  obtain ⟨hlt, hjoin, -⟩ := two_lead d h
  have hv1 := hv.1
  refine ⟨by omega, .inl ⟨not_reserved_of_length (by simp [hds]), ?_⟩⟩
  rw [encode, if_neg (by omega), if_pos (by omega), hv.2, lead_shift hv, ofNat_lead, hjoin]

theorem reserved_iff (h : d &&& 0xf0 = 0xe0) (hv : Carries ds 2 v) (hds : ds.length = 2)
    (hall : ∀ d ∈ ds, isContinuationByte d = true) :
    Reserved (d :: ds) ↔ errorReplacementBase ≤ (d &&& 0x0f).toNat * 2 ^ (6 * 2) + v ∧
      (d &&& 0x0f).toNat * 2 ^ (6 * 2) + v ≤ errorReplacementEnd := by
  obtain ⟨-, -, hED⟩ := three_lead d h
  obtain ⟨x, y, rfl⟩ := length_eq_two.mp hds
  have hv1 := hv.1
  have hrest := hv.2 0
  rw [zero_mul, zero_add, restBytes, restByte_eq] at hrest
  obtain ⟨hx, hrest⟩ := List.cons.inj hrest
  have hcarried := (carries (v / 2 ^ (6 * 1))).2
  rw [hx] at hcarried
  rw [errorReplacementBase, errorReplacementEnd]
  constructor
  · rintro ⟨x', y', heq, hx', -⟩
    obtain ⟨hd, heq⟩ := cons.inj heq
    obtain ⟨rfl, -⟩ := cons.inj heq
    rw [hED.mpr hd]
    rcases hx' with rfl | rfl
    · have hcar : ((0xB2 : Byte) &&& 0x3f).toNat = 50 := rfl
      omega
    · have hcar : ((0xB3 : Byte) &&& 0x3f).toNat = 51 := rfl
      omega
  · intro hrange
    have hlead : (d &&& 0x0f).toNat = 13 := by omega
    have hdigit : v / 2 ^ (6 * 1) % 64 = 50 ∨ v / 2 ^ (6 * 1) % 64 = 51 := by omega
    refine ⟨x, y, by rw [hED.mp hlead], ?_, hall y (by simp)⟩
    rw [← hx]
    rcases hdigit with hdigit | hdigit
    · left
      rw [hdigit]
      rfl
    · right
      rw [hdigit]
      rfl

theorem reads_three (h : d &&& 0xf0 = 0xe0) (hv : Carries ds 2 v) (hds : ds.length = 2)
    (hall : ∀ d ∈ ds, isContinuationByte d = true)
    (hmost : 0x7FF < (d &&& 0x0f).toNat * 2 ^ (6 * 2) + v) :
    Reads d ds ((d &&& 0x0f).toNat * 2 ^ (6 * 2) + v) := by
  obtain ⟨hlt, hjoin, -⟩ := three_lead d h
  have hv1 := hv.1
  have hreserved := reserved_iff h hv hds hall
  refine ⟨by omega, ?_⟩
  rw [encode, if_neg (by omega), if_neg (by omega), if_pos (by omega)]
  by_cases hin : errorReplacementBase ≤ (d &&& 0x0f).toNat * 2 ^ (6 * 2) + v ∧
      (d &&& 0x0f).toNat * 2 ^ (6 * 2) + v ≤ errorReplacementEnd
  · rw [if_pos hin]
    exact .inr ⟨hreserved.mpr hin, rfl⟩
  · rw [if_neg hin, hv.2, lead_shift hv, ofNat_lead, hjoin]
    exact .inl ⟨fun hr => hin (hreserved.mp hr), rfl⟩

theorem reads_four (h : d &&& 0xf8 = 0xf0) (hv : Carries ds 3 v) (hds : ds.length = 3)
    (hmost : 0xFFFF < (d &&& 0x07).toNat * 2 ^ (6 * 3) + v) :
    Reads d ds ((d &&& 0x07).toNat * 2 ^ (6 * 3) + v) := by
  obtain ⟨hlt, hjoin⟩ := four_lead d h
  have hv1 := hv.1
  have hmask : (d &&& 0x07).toNat &&& 0x07 = (d &&& 0x07).toNat :=
    Nat.and_two_pow_sub_one_of_lt_two_pow (n := 3) hlt
  refine ⟨by omega, .inl ⟨not_reserved_of_length (by simp [hds]), ?_⟩⟩
  rw [encode, if_neg (by omega), if_neg (by omega), if_neg (by omega), if_pos (by omega), hv.2,
    lead_shift hv, hmask, ofNat_lead, hjoin]

theorem reads_five (h : d &&& 0xfc = 0xf8) (hv : Carries ds 4 v) (hds : ds.length = 4)
    (hmost : 0x1FFFFF < (d &&& 0x03).toNat * 2 ^ (6 * 4) + v) :
    Reads d ds ((d &&& 0x03).toNat * 2 ^ (6 * 4) + v) := by
  obtain ⟨hlt, hjoin⟩ := five_lead d h
  have hv1 := hv.1
  have hmask : (d &&& 0x03).toNat &&& 0x03 = (d &&& 0x03).toNat :=
    Nat.and_two_pow_sub_one_of_lt_two_pow (n := 2) hlt
  refine ⟨by omega, .inl ⟨not_reserved_of_length (by simp [hds]), ?_⟩⟩
  rw [encode, if_neg (by omega), if_neg (by omega), if_neg (by omega), if_neg (by omega),
    if_pos (by omega), hv.2, lead_shift hv, hmask, ofNat_lead, hjoin]

theorem reads_six (h : d &&& 0xfe = 0xfc) (hv : Carries ds 5 v) (hds : ds.length = 5)
    (hmost : 0x3FFFFFF < (d &&& 0x01).toNat * 2 ^ (6 * 5) + v) :
    Reads d ds ((d &&& 0x01).toNat * 2 ^ (6 * 5) + v) := by
  obtain ⟨hlt, hjoin⟩ := six_lead d h
  have hmask : (d &&& 0x01).toNat &&& 0x01 = (d &&& 0x01).toNat :=
    Nat.and_two_pow_sub_one_of_lt_two_pow (n := 1) hlt
  refine ⟨by omega, .inl ⟨not_reserved_of_length (by simp [hds]), ?_⟩⟩
  rw [encode, if_neg (by omega), if_neg (by omega), if_neg (by omega), if_neg (by omega),
    if_neg (by omega), hv.2, lead_shift hv, hmask, ofNat_lead, hjoin]

end Forms

/-- **The sequence that starts with `d`**, or none. -/
theorem sequenceFrom_spec (d : Byte) (pre t : List Byte)
    (hlen : pre.length + t.length + 1 < 2 ^ 31) :
    (sequenceFrom (pre ++ cstr t) pre.length d = some none ∧ ¬ (d = 0xED ∧ Follow t 2)) ∨
      ∃ ds t' u, t = ds ++ t' ∧ (d = 0xED → ds.length = 2) ∧
        (∀ d ∈ ds, isContinuationByte d = true) ∧
        Reads d ds u ∧ sequenceFrom (pre ++ cstr t) pre.length d =
          some (some (u, pre.length + ds.length)) := by
  obtain ⟨hED2, hED3⟩ := three_of_ED
  rw [sequenceFrom]
  by_cases h2 : d &&& 0xe0 = 0xc0
  · rw [if_pos h2]
    have hne := (two_lead d h2).2.2
    rcases readSequence_spec 1 0x7F (d &&& 0x1f) pre t hlen with
      ⟨hread, -⟩ | ⟨ds, t', v, heq, hk, hall, hv, hmost, hread⟩
    · exact .inl ⟨hread, fun h => hne h.1⟩
    · exact .inr ⟨ds, t', _, heq, fun h => absurd h hne, hall,
        reads_two h2 hv hk hmost, by rw [hread, hk]⟩
  · rw [if_neg h2]
    by_cases h3 : d &&& 0xf0 = 0xe0
    · rw [if_pos h3]
      have hED := (three_lead d h3).2.2
      rcases readSequence_spec 2 0x7FF (d &&& 0x0f) pre t hlen with
        ⟨hread, hno⟩ | ⟨ds, t', v, heq, hk, hall, hv, hmost, hread⟩
      · refine .inl ⟨hread, ?_⟩
        rintro ⟨hd, hf⟩
        have hle := hno hf
        rw [hED.mpr hd] at hle
        omega
      · exact .inr ⟨ds, t', _, heq, fun _ => hk, hall,
          reads_three h3 hv hk hall hmost, by rw [hread, hk]⟩
    · rw [if_neg h3]
      have hne : d ≠ 0xED := fun heq => h3 (heq ▸ hED3)
      by_cases h4 : d &&& 0xf8 = 0xf0
      · rw [if_pos h4]
        rcases readSequence_spec 3 0xFFFF (d &&& 0x07) pre t hlen with
          ⟨hread, -⟩ | ⟨ds, t', v, heq, hk, hall, hv, hmost, hread⟩
        · exact .inl ⟨hread, fun h => hne h.1⟩
        · exact .inr ⟨ds, t', _, heq, fun h => absurd h hne, hall,
            reads_four h4 hv hk hmost, by rw [hread, hk]⟩
      · rw [if_neg h4]
        by_cases h5 : d &&& 0xfc = 0xf8
        · rw [if_pos h5]
          rcases readSequence_spec 4 0x1FFFFF (d &&& 0x03) pre t hlen with
            ⟨hread, -⟩ | ⟨ds, t', v, heq, hk, hall, hv, hmost, hread⟩
          · exact .inl ⟨hread, fun h => hne h.1⟩
          · exact .inr ⟨ds, t', _, heq, fun h => absurd h hne, hall,
              reads_five h5 hv hk hmost, by rw [hread, hk]⟩
        · rw [if_neg h5]
          by_cases h6 : d &&& 0xfe = 0xfc
          · rw [if_pos h6]
            rcases readSequence_spec 5 0x3FFFFFF (d &&& 0x01) pre t hlen with
              ⟨hread, -⟩ | ⟨ds, t', v, heq, hk, hall, hv, hmost, hread⟩
            · exact .inl ⟨hread, fun h => hne h.1⟩
            · exact .inr ⟨ds, t', _, heq, fun h => absurd h hne, hall,
                reads_six h6 hv hk hmost, by rw [hread, hk]⟩
          · rw [if_neg h6]
            exact .inl ⟨rfl, fun h => hne h.1⟩

/-! ### One step of the decoder -/

theorem ascii : ∀ d : Byte, d &&& 0x80 = 0 → d.toNat ≤ 0x7F ∧ d ≠ 0xED := by
  decide

theorem replaced : ∀ d : Byte, d &&& 0x80 ≠ 0 →
    errorReplacementBase ||| d.toNat = 0xDC00 + d.toNat ∧ 0x80 ≤ d.toNat := by
  decide

theorem reads_ascii (h : d &&& 0x80 = 0) (h0 : d ≠ 0) : Reads d [] d.toNat := by
  obtain ⟨hle, -⟩ := ascii d h
  refine ⟨fun heq => h0 (BitVec.eq_of_toNat_eq heq), .inl ⟨not_reserved_of_length (by simp), ?_⟩⟩
  rw [encode, if_pos hle, ofNat_lead]

theorem reads_replaced (h : d &&& 0x80 ≠ 0) : Reads d [] (errorReplacementBase ||| d.toNat) := by
  obtain ⟨heq, hge⟩ := replaced d h
  have hbyte : (0xDC00 + d.toNat) &&& 0xFF = d.toNat := by
    rw [show 0xFF = 2 ^ 8 - 1 from rfl, Nat.and_two_pow_sub_one_eq_mod]
    omega
  rw [heq]
  refine ⟨by omega, .inl ⟨not_reserved_of_length (by simp), ?_⟩⟩
  rw [encode, if_neg (by omega), if_neg (by omega), if_pos (by omega), errorReplacementBase,
    errorReplacementEnd, if_pos (by omega), hbyte, ofNat_lead]

/-- **One step of the decoder** reads a byte and some that follow it; a sequence that is reserved
is read as one. -/
theorem utf8NextGet_spec (d : Byte) (hd : d ≠ 0) (pre t : List Byte)
    (hlen : pre.length + t.length + 2 < 2 ^ 31) :
    ∃ ds t' u, t = ds ++ t' ∧ (∀ d ∈ ds, isContinuationByte d = true) ∧ Reads d ds u ∧
      utf8NextGet (pre ++ cstr (d :: t)) pre.length = some (u, pre.length + (d :: ds).length) ∧
      (d = 0xED → Follow t 2 → ds.length = 2) := by
  rw [utf8NextGet, cstr, cons_append, read_at _ _ _ (by omega), bind_some, if_neg hd]
  by_cases hascii : d &&& 0x80 = 0
  · rw [if_pos hascii]
    exact ⟨[], t, _, rfl, by simp, reads_ascii hascii hd, rfl, fun h => absurd h (ascii d hascii).2⟩
  rw [if_neg hascii]
  have hseq := sequenceFrom_spec d (pre ++ [d]) t (by simp; omega)
  rw [append_assoc, singleton_append, length_append, length_singleton] at hseq
  rcases hseq with ⟨hread, hno⟩ | ⟨ds, t', u, heq, htwo, hall, hreads, hread⟩
  · refine ⟨[], t, _, rfl, by simp, reads_replaced hascii, ?_, fun h hf => absurd ⟨h, hf⟩ hno⟩
    rw [cstr] at hread
    rw [hread]
    rfl
  · refine ⟨ds, t', u, heq, hall, hreads, ?_, fun h _ => htwo h⟩
    rw [cstr] at hread
    rw [hread, map_some, getD_some, length_cons]
    have hadd : pre.length + 1 + ds.length = pre.length + (ds.length + 1) := by omega
    rw [hadd]

end Eina.Unicode
