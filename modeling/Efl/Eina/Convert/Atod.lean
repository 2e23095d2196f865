/-
`eina_convert_atod`: what it reads of its buffer.

The characters are numbers, and one outside of the buffer has no value.  The remaining length is
counted by hand in the source, and so it is here.  The mantissa and the exponent are integers
without bound; nothing that is read depends on them.
-/
import Mathlib.Order.Basic

namespace Eina.Convert

/-- The character at `i` of a buffer of `size` characters. -/
def charAt (src : Nat → Int) (size i : Nat) : Option Int := if i < size then some (src i) else none

/-- `DBG`, whose `%s` reads up to the NUL when debug messages are printed. -/
def dbg (debug : Bool) (src : Nat → Int) (size : Nat) : Option Unit :=
  if debug = true → ∃ i < size, src i = 0 then some () else none

/-- `HEXA_TO_INT` -/
def hexaToInt (c : Int) : Int := if 97 ≤ c then c - 97 + 10 else c - 48

/-- `!strncmp(str, "0x", 2)` -/
def hexPrefix (get : Nat → Option Int) (str : Nat) : Option Bool := do
  if (← get str) = 48 then return decide ((← get (str + 1)) = 120) else return false

/-- The loop over the fraction: `str`, `length`, the mantissa and the number of decimals. -/
def fraction (get : Nat → Option Int) : Nat → Nat → Int → Int → Option (Nat × Nat × Int × Int)
  | str, 0, mantisse, nbrDecimals => some (str, 0, mantisse, nbrDecimals)
  | str, length + 1, mantisse, nbrDecimals => do
    let c ← get str
    if c = 112 then return (str, length + 1, mantisse, nbrDecimals)
    fraction get (str + 1) length (mantisse * 16 + hexaToInt c) (nbrDecimals + 1)

/-- The loop over the digits of the exponent. -/
def exponent (get : Nat → Option Int) : Nat → Nat → Int → Option Int
  | _, 0, e => some e
  | str, length + 1, e => do
    let c ← get str
    if c = 0 then return e
    exponent get (str + 1) length (e * 10 + (c - 48))

/-- The part of `eina_convert_atod` from the `p` on. -/
def atodExponent (debug : Bool) (src : Nat → Int) (size str length : Nat)
    (mantisse nbrDecimals : Int) : Option (Option (Int × Int)) := do
  let get := charAt src size
  if (← get str) ≠ 112 then
    dbg debug src size
    return none
  if length - 1 = 0 then return none
  let c ← get (str + 1)
  -- `strchr("-+", '\0')` finds the end of its string
  let e ← if c = 45 ∨ c = 43 ∨ c = 0 then exponent get (str + 2) (length - 2) 0
    else exponent get (str + 1) (length - 1) 0
  return some (mantisse, (if c = 45 then -e else e) - 4 * nbrDecimals)

/-- The part of `eina_convert_atod` behind the sign. -/
def atodMantisse (debug : Bool) (src : Nat → Int) (size : Nat) (sign : Int) (str length : Nat) :
    Option (Option (Int × Int)) := do
  let get := charAt src size
  if length ≤ 2 then return none
  if !(← hexPrefix get str) then
    dbg debug src size
    return none
  let mantisse := hexaToInt (← get (str + 2))
  if length - 3 = 0 then return none
  let (str, length, mantisse, nbrDecimals) ←
    if (← get (str + 3)) = 46 then fraction get (str + 4) (length - 4) mantisse 0
    else some (str + 3, length - 3, mantisse, 0)
  atodExponent debug src size str length (sign * mantisse) nbrDecimals

/-- `eina_convert_atod`: `*m` and `*e`; no value where it reads outside of the buffer. -/
def atod (debug : Bool) (src : Nat → Int) (length : Int) : Option (Option (Int × Int)) := do
  if length ≤ 0 then return none
  let size := length.toNat
  if (← charAt src size 0) = 45 then atodMantisse debug src size (-1) 1 (size - 1)
  else atodMantisse debug src size 1 0 size

variable {debug : Bool} {src : Nat → Int} {size str length : Nat} {m n : Int}

/-! ### The loops -/

theorem charAt_eq (h : str < size) : charAt src size str = some (src str) := if_pos h

theorem exponent_isSome (e : Int) (h : str + length = size) :
    (exponent (charAt src size) str length e).isSome := by
  induction length generalizing str e with
  | zero => rfl
  | succ length ih =>
    simp only [exponent, charAt_eq (show str < size by omega), Option.bind_eq_bind,
      Option.bind_some]
    split
    · rfl
    · exact ih _ (by omega)

theorem fraction_eq (h : str + length = size) : ∃ str' length' m' n',
    fraction (charAt src size) str length m n = some (str', length', m', n') ∧
      str' + length' = size ∧ (length' = 0 ↔ ∀ i, str ≤ i → i < size → src i ≠ 112) ∧
        (length' ≠ 0 → src str' = 112) := by
  induction length generalizing str m n with
  | zero => exact ⟨str, 0, m, n, rfl, h, ⟨fun _ i hi hlt => by omega, fun _ => rfl⟩, by simp⟩
  | succ length ih =>
    simp only [fraction, charAt_eq (show str < size by omega), Option.bind_eq_bind,
      Option.bind_some]
    by_cases hp : src str = 112
    · rw [if_pos hp]
      refine ⟨str, length + 1, m, n, rfl, h, ?_, fun _ => hp⟩
      exact ⟨fun hzero => absurd hzero (by simp),
        fun hall => absurd hp (hall str (Nat.le_refl _) (by omega))⟩
    rw [if_neg hp]
    obtain ⟨str', length', m', n', hloop, hsize, hend, hfound⟩ :=
      ih (show str + 1 + length = size by omega)
    refine ⟨str', length', m', n', hloop, hsize, hend.trans ?_, hfound⟩
    constructor
    · intro hall i hi hlt
      rcases Nat.eq_or_lt_of_le hi with rfl | hi
      · exact hp
      · exact hall i hi hlt
    · intro hall i hi hlt
      exact hall i (by omega) hlt

/-! ### The function -/

theorem atodExponent_isSome (h : str + length = size) :
    (atodExponent debug src size str length m n).isSome ↔
      0 < length ∧ (src str ≠ 112 → (dbg debug src size).isSome) := by
  unfold atodExponent
  by_cases hzero : length = 0
  · have hread : charAt src size str = none := if_neg (by omega)
    simp [hread, hzero]
  have hread : charAt src size str = some (src str) := charAt_eq (by omega)
  simp only [hread, Option.bind_eq_bind, Option.bind_some]
  by_cases hp : src str = 112
  · rw [if_neg (not_not.mpr hp)]
    refine iff_of_true ?_ ⟨Nat.pos_of_ne_zero hzero, absurd hp⟩
    split
    · rfl
    have hloop : (exponent (charAt src size) (str + 2) (length - 2) 0).isSome :=
      exponent_isSome 0 (by omega)
    have hloop' : (exponent (charAt src size) (str + 1) (length - 1) 0).isSome :=
      exponent_isSome 0 (by omega)
    rw [charAt_eq (by omega), Option.bind_some]
    split
    · rw [Option.eq_some_of_isSome hloop]
      rfl
    · rw [Option.eq_some_of_isSome hloop']
      rfl
  rw [if_pos hp]
  cases hdbg : dbg debug src size with
  | none => simp [hp]
  | some u => simp [Nat.pos_of_ne_zero hzero]

/-- What stands behind the sign is a number whose fraction goes on to the end of the buffer. -/
def RunsOut (src : Nat → Int) (size str : Nat) : Prop :=
  str + 3 < size ∧ src str = 48 ∧ src (str + 1) = 120 ∧ src (str + 3) = 46 ∧
    ∀ i, str + 4 ≤ i → i < size → src i ≠ 112

/-- What stands behind the sign has no `0x`, or no `p` behind its only digit. -/
def Complains (src : Nat → Int) (size str : Nat) : Prop :=
  str + 2 < size ∧ (¬(src str = 48 ∧ src (str + 1) = 120) ∨
    str + 3 < size ∧ src (str + 3) ≠ 46 ∧ src (str + 3) ≠ 112)

theorem hexPrefix_eq (h : str + 1 < size) : hexPrefix (charAt src size) str =
    some (decide (src str = 48 ∧ src (str + 1) = 120)) := by
  simp only [hexPrefix, charAt_eq h, charAt_eq (Nat.lt_of_succ_lt h), Option.bind_eq_bind,
    Option.bind_some]
  split <;> simp [*]

theorem atodMantisse_isSome (sign : Int) (h : str + length = size) :
    (atodMantisse debug src size sign str length).isSome ↔ ¬RunsOut src size str ∧
      (Complains src size str → (dbg debug src size).isSome) := by
  unfold atodMantisse
  by_cases hshort : length ≤ 2
  · rw [if_pos hshort]
    exact iff_of_true rfl ⟨fun hout => by have := hout.1; omega, fun hc => by have := hc.1; omega⟩
  rw [if_neg hshort]
  by_cases hhex : src str = 48 ∧ src (str + 1) = 120
  · have hpre : hexPrefix (charAt src size) str = some true := by
      rw [hexPrefix_eq (by omega), decide_eq_true hhex]
    have hdigit : charAt src size (str + 2) = some (src (str + 2)) := charAt_eq (by omega)
    simp only [hpre, hdigit, Option.bind_eq_bind, Option.bind_some, Bool.not_true,
      Bool.false_eq_true, if_false]
    by_cases hend : length - 3 = 0
    · rw [if_pos hend]
      refine iff_of_true rfl ⟨fun hout => by have := hout.1; omega, ?_⟩
      rintro ⟨-, hc | hc⟩
      · exact absurd hhex hc
      · omega
    have hdot : charAt src size (str + 3) = some (src (str + 3)) := charAt_eq (by omega)
    simp only [if_neg hend, hdot, Option.bind_some]
    by_cases hfraction : src (str + 3) = 46
    · obtain ⟨str', length', m, n, hloop, hsize, hnone, hfound⟩ :=
        fraction_eq
          (show str + 4 + (length - 4) = size by omega)
      -- behind the loop the check of `length` is missing
      have hout : RunsOut src size str ↔ length' = 0 :=
        ⟨fun hout => hnone.mpr hout.2.2.2.2, fun hzero =>
          ⟨by omega, hhex.1, hhex.2, hfraction, hnone.mp hzero⟩⟩
      have hcomplains : ¬Complains src size str := fun hc =>
        hc.2.elim (absurd hhex) fun hc => hc.2.1 hfraction
      rw [if_pos hfraction, hloop, Option.bind_some, atodExponent_isSome hsize, hout,
        Nat.pos_iff_ne_zero]
      exact and_congr_right fun hzero =>
        iff_of_true (absurd (hfound hzero)) fun hc => absurd hc hcomplains
    have hout : ¬RunsOut src size str := fun hout => hfraction hout.2.2.2.1
    have hcomplains : Complains src size str ↔ src (str + 3) ≠ 112 :=
      ⟨fun hc => (hc.2.resolve_left (not_not.mpr hhex)).2.2,
        fun hp => ⟨by omega, .inr ⟨by omega, hfraction, hp⟩⟩⟩
    rw [if_neg hfraction]
    rw [atodExponent_isSome (by omega), hcomplains]
    exact and_congr_left' (iff_of_true (Nat.pos_of_ne_zero hend) hout)
  · have hpre : hexPrefix (charAt src size) str = some false := by
      rw [hexPrefix_eq (by omega), decide_eq_false hhex]
    have hcomplains : Complains src size str := ⟨by omega, .inl hhex⟩
    have hnot : ¬RunsOut src size str := fun hout => hhex ⟨hout.2.1, hout.2.2.1⟩
    simp only [hpre]
    cases hdbg : dbg debug src size with
    | none => simp [hcomplains]
    | some u => simp [hnot]

/-- The offset behind the sign. -/
def signEnd (src : Nat → Int) : Nat := if src 0 = 45 then 1 else 0

/--
**What is read lies in the buffer** exactly when the fraction does not go on to its end, and the
message about a missing `0x` or `p`, where it is printed, finds a NUL in the buffer.
-/
theorem atod_inBounds_iff (debug : Bool) (src : Nat → Int) (length : Int) :
    (atod debug src length).isSome ↔ ¬RunsOut src length.toNat (signEnd src) ∧
      (Complains src length.toNat (signEnd src) → debug = true →
        ∃ i < length.toNat, src i = 0) := by
  have hdbg : (dbg debug src length.toNat).isSome ↔
      (debug = true → ∃ i < length.toNat, src i = 0) := by
    rw [dbg, Option.isSome_ite]
  unfold atod
  by_cases hlength : length ≤ 0
  · rw [if_pos hlength]
    exact iff_of_true rfl ⟨fun hout => by have := hout.1; omega, fun hc => by have := hc.1; omega⟩
  have hread : charAt src length.toNat 0 = some (src 0) := charAt_eq (by omega)
  simp only [if_neg hlength, hread, Option.bind_eq_bind, Option.bind_some, signEnd, ← hdbg]
  split
  · exact atodMantisse_isSome _ (by omega)
  · exact atodMantisse_isSome _ (by omega)

/-- The four characters `0x1.`, with the character behind them. -/
theorem atod_reads_behind : ¬∀ (debug : Bool) (src : Nat → Int) (length : Int),
    (atod debug src length).isSome := by
  intro h
  have hread := h false (fun i => [48, 120, 49, 46].getD i 0) 4
  exact absurd hread (by decide)

end Eina.Convert
