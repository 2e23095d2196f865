/-
Which comparisons agree with C.

What is known of the eight bytes of an operand is told by its types and values: the member of its
type has its value, and what is above that is the literal's own below any signs, and not known once
a binary operator has written to a variable of its own.  A comparison agrees with C if what is known
of both sides decides it, and decides it as the promoted values do.
-/
import Efl.Eolian.Expr.Right
import Efl.Lib.LowBits

namespace Eolian

open MachineInt List Option

/-! ### What is known of an operand -/

/-- The width of the member a value is kept in. -/
def Value.width : Value → Nat
  | .num t _ => t.width
  | .bool _ => 8

/-- The bits of a value. -/
def Value.bits : (v : Value) → BitVec v.width
  | .num t n => BitVec.ofInt t.width n
  | .bool b => BitVec.ofBool b |>.setWidth 8

theorem Value.store_eq (v : Value) (c : BitVec 64) : v.store c = MachineInt.store c v.bits := by
  cases v <;> rfl

/-- What is known of the union of an expression, where it and all below it have values. -/
@[grind =]
def known : Expr → Option (LowBits 64)
  | .number _ v => some ⟨64, v⟩
  | .unary .unp e => known e
  | .unary unop e =>
    (known e).bind fun k => (denote (.unary unop e)).map fun v => k.overwrite v.bits
  | .binary binop l r =>
    (known l).bind fun _ => (known r).bind fun _ =>
      (denote (.binary binop l r)).map fun v => LowBits.overwrite ⟨0, 0⟩ v.bits
  | _ => none

variable {e x l r : Expr} {c : BitVec 64} {k k' : LowBits 64} {u v : Value} {mask : Mask}

theorem exists_known_iff (v : Value) :
    (∃ d, k.Holds d ∧ c = v.store d) ↔ (k.overwrite v.bits).Holds c := by
  simp only [Value.store_eq]
  exact LowBits.exists_store_iff v.bits

theorem holds_all (c : BitVec 64) : LowBits.Holds ⟨0, 0⟩ c := by
  rw [LowBits.Holds, Nat.pow_zero, Nat.mod_one, Nat.mod_one]

theorem overwrites_iff {unop : Unop}
    (ih : ∀ d, Leaves e d ↔ ∃ k, known e = some k ∧ k.Holds d) :
    (∃ d v, Leaves e d ∧ denote (.unary unop e) = some v ∧ c = v.store d) ↔
      ∃ k, ((known e).bind fun k => (denote (.unary unop e)).map fun v => k.overwrite v.bits) =
        some k ∧ k.Holds c := by
  constructor
  · rintro ⟨d, v, hd, hv, hc⟩
    obtain ⟨k, hk, hholds⟩ := (ih d).mp hd
    exact ⟨k.overwrite v.bits, by rw [hk, hv]; rfl, (exists_known_iff v).mp ⟨d, hholds, hc⟩⟩
  · rintro ⟨k', hk', hc⟩
    obtain ⟨k, hk, hmap⟩ := bind_eq_some_iff.mp hk'
    obtain ⟨v, hv, rfl⟩ := map_eq_some_iff.mp hmap
    obtain ⟨d, hd, hstore⟩ := (exists_known_iff v).mpr hc
    exact ⟨d, v, (ih d).mpr ⟨k, hk, hd⟩, hv, hstore⟩

/-- **The contents of a union are those that agree with what is known of it.** -/
theorem leaves_iff_known : Leaves e c ↔ ∃ k, known e = some k ∧ k.Holds c := by
  induction e generalizing c with
  | number t v =>
    constructor
    · intro h
      have hc : c = v := h
      exact ⟨_, rfl, by rw [hc]; rfl⟩
    · rintro ⟨k, hk, hholds⟩
      obtain rfl := some.inj hk
      exact LowBits.eq_of_holds (Nat.le_refl 64) hholds
  | unary unop e ih =>
    cases unop with
    | unp => exact ih
    | unm | not | bnot => exact overwrites_iff fun d => ih
  | binary binop l r ihl ihr =>
    constructor
    · rintro ⟨⟨x, hx⟩, ⟨y, hy⟩, d, v, hv, hc⟩
      obtain ⟨k, hk, -⟩ := ihl.mp hx
      obtain ⟨k', hk', -⟩ := ihr.mp hy
      refine ⟨LowBits.overwrite ⟨0, 0⟩ v.bits, by rw [known, hk, hk', hv]; rfl, ?_⟩
      exact (exists_known_iff v).mp ⟨d, holds_all d, hc⟩
    · rintro ⟨k, hk, hc⟩
      obtain ⟨kl, hkl, hrest⟩ := bind_eq_some_iff.mp hk
      obtain ⟨kr, hkr, hmap⟩ := bind_eq_some_iff.mp hrest
      obtain ⟨v, hv, rfl⟩ := map_eq_some_iff.mp hmap
      obtain ⟨d, -, hstore⟩ := (exists_known_iff v).mpr hc
      exact ⟨⟨kl.low, ihl.mpr ⟨kl, hkl, LowBits.holds_low⟩⟩,
        ⟨kr.low, ihr.mpr ⟨kr, hkr, LowBits.holds_low⟩⟩, d, v, hv, hstore⟩
  | _ =>
    constructor
    · exact False.elim
    · rintro ⟨k, hk, -⟩
      cases hk

/-! ### Comparisons that are decided -/

/-- Both values after their promotion. -/
def promoteValues (u v : Value) : Int × Int :=
  let p := promoteType u.operand.1 v.operand.1
  (wrap p.signed p.width u.operand.2, wrap p.signed p.width v.operand.2)

/-- What is known of two operands decides a comparison as their promoted values do. -/
def Decides (op : Compare) (k k' : LowBits 64) (a b : Int) : Prop :=
  match op with
  | .eq | .nq =>
    if a = b then k.greatest ≤ k'.least ∧ k'.greatest ≤ k.least else k.Apart k'
  | .lt => if a < b then k.greatest < k'.least else k'.greatest ≤ k.least
  | .gt => if b < a then k'.greatest < k.least else k.greatest ≤ k'.least
  | .le => if a ≤ b then k.greatest ≤ k'.least else k'.greatest < k.least
  | .ge => if b ≤ a then k'.greatest ≤ k.least else k.greatest < k'.least
  | .and => a = 0 ∨ b = 0 → k.greatest = 0 ∨ k'.greatest = 0
  | .or => a = 0 ∧ b = 0 → k.greatest = 0 ∧ k'.greatest = 0

instance decidableDecides (op : Compare) (k k' : LowBits 64) (a b : Int) :
    Decidable (Decides op k k' a b) := by
  unfold Decides
  split <;> infer_instance

/--
**The comparison agrees with C**: where the evaluator has no objection to the types of the operands
and they have values, what is known of them decides it, and decides it right.
-/
def Agrees (e : Expr) : Prop :=
  match e with
  | .unary .not x =>
    accepts x (.number ||| .bool) = true → ∀ k ∈ known x, ∀ u ∈ denote x,
      u.operand.2 = 0 → k.greatest = 0
  | .binary (.comp op) l r =>
    accepts l (compareMask op) = true → accepts r (compareMask op) = true →
      comparable (resultType l) (resultType r) = true →
      ∀ k ∈ known l, ∀ k' ∈ known r, ∀ u ∈ denote l, ∀ v ∈ denote r,
        Decides op k k' (promoteValues u v).1 (promoteValues u v).2
  | _ => True

instance decidableAgrees (e : Expr) : Decidable (Agrees e) := by
  unfold Agrees
  split <;> infer_instance

/-! ### What is known decides -/

theorem ofInt_eq_zero_iff {w : Nat} {n : Int} :
    BitVec.ofInt w n = 0 ↔ ((2 ^ w : Nat) : Int) ∣ n := by
  have hpos := Nat.two_pow_pos w
  have hnonneg := Int.emod_nonneg n (b := ((2 ^ w : Nat) : Int)) (by omega)
  rw [← BitVec.toNat_inj, BitVec.toNat_ofInt, Int.dvd_iff_emod_eq_zero]
  show (n % ((2 ^ w : Nat) : Int)).toNat = 0 % 2 ^ w ↔ _
  rw [Nat.zero_mod]
  omega

theorem wrap_eq_zero {s p : IntType} {n : Int} (hn : wrap s.signed s.width n = n)
    (hw : s.width ≤ p.width) : wrap p.signed p.width n = 0 ↔ n = 0 := by
  constructor
  · intro h
    have hzero : BitVec.ofInt p.width n = 0 := value_eq_zero_iff.mp h
    have hnarrow : BitVec.ofInt s.width n = 0 :=
      ofInt_eq_zero_iff.mpr (Int.dvd_trans (Int.natCast_dvd_natCast.mpr (Nat.pow_dvd_pow 2 hw))
        (ofInt_eq_zero_iff.mp hzero))
    rw [← hn, wrap, hnarrow]
    exact value_eq_zero_iff.mpr rfl
  · rintro rfl
    exact value_eq_zero_iff.mpr (BitVec.ofInt_natCast _ 0)

theorem promoteType_width (s t : IntType) :
    s.width ≤ (promoteType s t).width ∧ t.width ≤ (promoteType s t).width := by
  cases s <;> cases t <;> decide

theorem promoteValues_zero (hu : u.Fits) (hv : v.Fits) :
    ((promoteValues u v).1 = 0 ↔ u.operand.2 = 0) ∧
      ((promoteValues u v).2 = 0 ↔ v.operand.2 = 0) :=
  ⟨wrap_eq_zero hu.operand (promoteType_width _ _).1,
    wrap_eq_zero hv.operand (promoteType_width _ _).2⟩

variable {op : Compare}

theorem denote_comp (hu : denote l = some u) (hv : denote r = some v) :
    denote (.binary (.comp op) l r) =
      some (.bool (compareMeaning op (promoteValues u v).1 (promoteValues u v).2)) := by
  obtain ⟨hleft, -⟩ := promoteValues_zero (denote_fits hu) (denote_fits hv)
  have hmean : binaryMeaning (.comp op) u v =
      some (.bool (compareMeaning op (promoteValues u v).1 (promoteValues u v).2)) := rfl
  rw [denote, hu, bind_some]
  cases hs : shortCircuit (.comp op) u with
  | none =>
    dsimp only
    rw [hv, bind_some, hmean]
  | some b =>
    dsimp only
    rw [some.injEq, Value.bool.injEq]
    cases op with
    | and =>
      obtain ⟨hzero, hb⟩ := Option.ite_none_right_eq_some.mp hs
      rw [compareMeaning, hleft.mpr hzero, ← some.inj hb]
      rfl
    | or =>
      obtain ⟨hne, hb⟩ := Option.ite_none_left_eq_some.mp hs
      have hleft := mt hleft.mp hne
      rw [compareMeaning, bne_iff_ne.mpr hleft, Bool.true_or, ← some.inj hb]
    | _ => cases hs

/-- A value other than zero is seen in the union. -/
theorem holds_ne_zero (hacc : accepts e mask = true) (hk : known e = some k)
    (hu : denote e = some u) (hne : u.operand.2 ≠ 0) (hc : k.Holds c) : c ≠ 0 := by
  rintro rfl
  obtain ⟨v, hv, hread⟩ := (leaves_iff_known.mpr ⟨k, hk, hc⟩).read hacc
  obtain rfl := some.inj (hu.symm.trans hv)
  refine hne ?_
  cases htype : resultType e with
  | int t =>
    rw [htype] at hread
    obtain rfl := some.inj hread
    exact value_eq_zero_iff.mpr (BitVec.setWidth_zero ..)
  | bool =>
    rw [htype] at hread
    obtain rfl := some.inj hread
    rfl
  | float | double | string | char | null =>
    rw [htype] at hread
    cases hread

/-- An answer is the right one for all contents if it is for all of them what it should be. -/
theorem forall_eq_decide_iff {raw : BitVec 64 → BitVec 64 → Bool} {p holds fails : Prop}
    [Decidable p] (htrue : (∀ c d, k.Holds c → k'.Holds d → raw c d = true) ↔ holds)
    (hfalse : (∀ c d, k.Holds c → k'.Holds d → raw c d = false) ↔ fails) :
    (∀ c d, k.Holds c → k'.Holds d → raw c d = decide p) ↔ if p then holds else fails := by
  split
  · rename_i hp
    rw [← htrue, decide_eq_true hp]
  · rename_i hp
    rw [← hfalse, decide_eq_false hp]

/-- **The comparison of all possible contents is right** exactly if what is known decides it. -/
theorem forall_compareRaw_iff {a b : Int} (hk : a ≠ 0 → ∀ c, k.Holds c → c ≠ 0)
    (hk' : b ≠ 0 → ∀ d, k'.Holds d → d ≠ 0) :
    (∀ c d, k.Holds c → k'.Holds d → compareRaw op c d = compareMeaning op a b) ↔
      Decides op k k' a b := by
  have hexists (k : LowBits 64) (h : k.greatest ≠ 0) : ∃ c, k.Holds c ∧ c ≠ 0 := by
    by_contra hnone
    refine h (LowBits.forall_eq_zero_iff.mp fun c hc => ?_)
    by_contra hne
    exact hnone ⟨c, hc, hne⟩
  cases op with
  | eq | nq =>
    simp only [compareRaw, compareMeaning, bne, Bool.not_inj_iff]
    exact forall_eq_decide_iff (by simpa using LowBits.forall_eq_iff)
      (by simpa using LowBits.forall_ne_iff)
  | lt =>
    exact forall_eq_decide_iff (by simpa [compareRaw, BitVec.ult] using LowBits.forall_lt_iff)
      (by simpa [compareRaw, BitVec.ult] using LowBits.forall_ge_iff)
  | gt =>
    exact forall_eq_decide_iff (by simpa [compareRaw, BitVec.ult] using LowBits.forall_gt_iff)
      (by simpa [compareRaw, BitVec.ult] using LowBits.forall_le_iff)
  | le =>
    exact forall_eq_decide_iff (by simpa [compareRaw, BitVec.ule] using LowBits.forall_le_iff)
      (by simpa [compareRaw, BitVec.ule] using LowBits.forall_gt_iff)
  | ge =>
    exact forall_eq_decide_iff (by simpa [compareRaw, BitVec.ule] using LowBits.forall_ge_iff)
      (by simpa [compareRaw, BitVec.ule] using LowBits.forall_lt_iff)
  | and =>
    constructor
    · intro h hab
      by_contra hboth
      rw [not_or] at hboth
      obtain ⟨c, hc, hcne⟩ := hexists k hboth.1
      obtain ⟨d, hd, hdne⟩ := hexists k' hboth.2
      have hraw : (c != 0 && d != 0) = (a != 0 && b != 0) := h c d hc hd
      rw [bne_iff_ne.mpr hcne, bne_iff_ne.mpr hdne, Bool.and_self, eq_comm, Bool.and_eq_true,
        bne_iff_ne, bne_iff_ne] at hraw
      exact hab.elim hraw.1 hraw.2
    · intro h c d hc hd
      show (c != 0 && d != 0) = (a != 0 && b != 0)
      by_cases hab : a = 0 ∨ b = 0
      · have hmean : (a != 0 && b != 0) = false := by
          rcases hab with rfl | rfl
          · rfl
          · exact Bool.and_false _
        rw [hmean]
        rcases h hab with hzero | hzero
        · rw [LowBits.forall_eq_zero_iff.mpr hzero c hc]
          rfl
        · rw [LowBits.forall_eq_zero_iff.mpr hzero d hd]
          exact Bool.and_false _
      · rw [not_or] at hab
        rw [bne_iff_ne.mpr hab.1, bne_iff_ne.mpr hab.2, bne_iff_ne.mpr (hk hab.1 c hc),
          bne_iff_ne.mpr (hk' hab.2 d hd)]
  | or =>
    constructor
    · rintro h ⟨rfl, rfl⟩
      have hraw (c d : BitVec 64) (hc : k.Holds c) (hd : k'.Holds d) : c = 0 ∧ d = 0 := by
        have hfalse : (c != 0 || d != 0) = false := h c d hc hd
        rwa [Bool.or_eq_false_iff, bne_eq_false_iff_eq, bne_eq_false_iff_eq] at hfalse
      exact ⟨LowBits.forall_eq_zero_iff.mp fun c hc => (hraw c k'.low hc LowBits.holds_low).1,
        LowBits.forall_eq_zero_iff.mp fun d hd => (hraw k.low d LowBits.holds_low hd).2⟩
    · intro h c d hc hd
      show (c != 0 || d != 0) = (a != 0 || b != 0)
      by_cases ha : a = 0
      · by_cases hb : b = 0
        · obtain ⟨hzero, hzero'⟩ := h ⟨ha, hb⟩
          rw [ha, hb, LowBits.forall_eq_zero_iff.mpr hzero c hc,
            LowBits.forall_eq_zero_iff.mpr hzero' d hd]
          rfl
        · rw [bne_iff_ne.mpr hb, bne_iff_ne.mpr (hk' hb d hd), Bool.or_true, Bool.or_true]
      · rw [bne_iff_ne.mpr ha, bne_iff_ne.mpr (hk ha c hc), Bool.true_or, Bool.true_or]

/-- The comparisons that agree are those the evaluator gets right. -/
theorem agrees_iff_compares : Agrees e ↔ Compares e := by
  cases e with
  | unary unop x =>
    cases unop with
    | not =>
      refine imp_congr_right fun hacc => ?_
      have hmean (u : Value) : unaryMeaning .not u = .bool (u.operand.2 == 0) := rfl
      constructor
      · intro h c hc
        obtain ⟨k, hk, hholds⟩ := leaves_iff_known.mp hc
        obtain ⟨u, hu, -⟩ := hc.read hacc
        rw [denote, hu, map_some, hmean, some.injEq]
        refine congrArg Value.bool ?_
        by_cases hn : u.operand.2 = 0
        · have hzero := LowBits.forall_eq_zero_iff.mpr (h k hk u hu hn) c hholds
          simp [hn, hzero]
        · have hne := holds_ne_zero hacc hk hu hn hholds
          rw [beq_eq_false_iff_ne.mpr hn, beq_eq_false_iff_ne.mpr hne]
      · intro h k hk u hu hn
        refine LowBits.forall_eq_zero_iff.mp fun c hc => ?_
        have hden := h c (leaves_iff_known.mpr ⟨k, hk, hc⟩)
        have hu' : denote x = some u := hu
        rw [denote, hu', map_some, hmean, some.injEq] at hden
        have hbool := Value.bool.inj hden
        simpa [hn] using hbool.symm
    | unp | unm | bnot => exact Iff.rfl
  | binary binop l r =>
    cases binop with
    | arith op => exact Iff.rfl
    | comp op =>
      refine imp_congr_right fun hal => imp_congr_right fun har => imp_congr_right fun hcomp => ?_
      have hdecides (k k' : LowBits 64) (u v : Value) (hk : known l = some k)
          (hk' : known r = some k') (hu : denote l = some u) (hv : denote r = some v) :
          _ ↔ Decides op k k' _ _ :=
        have hzero := promoteValues_zero (denote_fits hu) (denote_fits hv)
        forall_compareRaw_iff
          (fun hne c hc => holds_ne_zero hal hk hu (mt hzero.1.mpr hne) hc)
          (fun hne d hd => holds_ne_zero har hk' hv (mt hzero.2.mpr hne) hd)
      constructor
      · intro h c d hc hd
        obtain ⟨k, hk, hholds⟩ := leaves_iff_known.mp hc
        obtain ⟨k', hk', hholds'⟩ := leaves_iff_known.mp hd
        obtain ⟨u, hu, -⟩ := hc.read hal
        obtain ⟨v, hv, -⟩ := hd.read har
        rw [denote_comp hu hv,
          (hdecides k k' u v hk hk' hu hv).mpr (h k hk k' hk' u hu v hv) c d hholds hholds']
      · intro h k hk k' hk' u hu v hv
        refine (hdecides k k' u v hk hk' hu hv).mp fun c d hc hd => ?_
        have hden := h c d (leaves_iff_known.mpr ⟨k, hk, hc⟩) (leaves_iff_known.mpr ⟨k', hk', hd⟩)
        rw [denote_comp hu hv, some.injEq] at hden
        exact (Value.bool.inj hden).symm
  | _ => exact Iff.rfl

/-- **An expression over integers and all its parts get the values that C assigns to
them exactly when every comparison in it agrees with C.** -/
theorem evalExp_right_iff {e : Expr} (hi : e.Integral) :
    (∀ p ∈ e.parts, Right p) ↔ ∀ p ∈ e.parts, Agrees p := by
  rw [right_iff_compares hi]
  exact forall₂_congr fun p _ => agrees_iff_compares.symm

/-- The expression `-1 < 0`, as it is parsed. -/
def minusOneLess : Expr :=
  .binary (.comp .lt) (.unary .unm (.number .int 1)) (.number .int 0)

/-- `-1 < 0` is found to be false, where C has it true. -/
theorem minus_one_not_less :
    minusOneLess.Integral ∧ denote minusOneLess = some (.bool true) ∧
      ∃ o, evalExp default minusOneLess (fun _ => 0) .bool = .ok o ∧
        o.read = some (.bool false) := by
  refine ⟨⟨trivial, trivial⟩, by decide, ?_⟩
  exact ⟨⟨.bool, 0⟩, rfl, by decide⟩

/-- The expression `-2 == -2 && 1L + 2L < 4UL`, as it is parsed. -/
def equalAndLess : Expr :=
  .binary (.comp .and)
    (.binary (.comp .eq) (.unary .unm (.number .int 2)) (.unary .unm (.number .int 2)))
    (.binary (.comp .lt) (.binary (.arith .add) (.number .long 1) (.number .long 2))
      (.number .ulong 4))

/-- All of it gets its value: what is known of the operands decides each of the comparisons. -/
theorem evalExp_right_iff_equalAndLess :
    equalAndLess.Integral ∧ ∀ p ∈ equalAndLess.parts, Right p := by
  have hi : equalAndLess.Integral := ⟨⟨trivial, trivial⟩, ⟨trivial, trivial⟩, trivial⟩
  exact ⟨hi, (evalExp_right_iff hi).mpr (by decide +kernel)⟩

end Eolian
