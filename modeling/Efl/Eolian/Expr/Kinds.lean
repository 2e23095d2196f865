/-
The kinds of the values that an evaluation gives.

An operator asks for its operands under a mask of its own, and the type they are promoted to is not
compared with the mask it was asked for itself.  So a complement and the operators over numbers give
any integer where some number is asked for, but a number of floating point only where these are
allowed.  A sign asks for signed integers and floats alike, even where its own mask has only one of
the two: `Lax` says that this happens.
-/
import Efl.Eolian.Expr.Hazard

namespace Eolian

open Option

variable {scope : Scope} {fpu : Fpu} {share : Text → BitVec 64} {e : Expr} {mask : Mask}
  {junk : Junk} {o : Out} {v : ValueType × Int} {unop : Unop}

def Unop.isSign : Unop → Bool
  | .unp | .unm => true
  | .not | .bnot => false

/-- A sign is reached that takes a signed integer or a float which its own mask does not have. -/
inductive Lax (scope : Scope) : Expr → Mask → Prop where
  | here {unop : Unop} {e : Expr} {mask : Mask} {u : ValueType × Int} :
      unop.isSign = true → mask.allows .signed = true → Gives scope e .signed u →
      Mask.signed.allows (exprTypeToMask u.1) = true → mask.allows (exprTypeToMask u.1) = false →
      Lax scope (.unary unop e) mask
  | name {s : Text} {e : Expr} {mask : Mask} :
      scope.resolve s mask = .ok e → Lax scope e mask → Lax scope (.name s) mask
  | unary {unop : Unop} {e : Expr} {mask : Mask} :
      mask.allows unop.needs = true → Lax scope e unop.operand → Lax scope (.unary unop e) mask
  | left {binop : Binop} {l r : Expr} {mask : Mask} :
      mask.allows binop.needs = true → Lax scope l (binop.operand mask) →
      Lax scope (.binary binop l r) mask
  | right {binop : Binop} {l r : Expr} {mask : Mask} {u : ValueType × Int} :
      mask.allows binop.needs = true → Gives scope l (binop.operand mask) u →
      Lax scope r (binop.operand mask) → Lax scope (.binary binop l r) mask

/-- A complement or an operator over numbers, perhaps below signs or in what a name stands for -/
inductive Computed (scope : Scope) : Expr → Mask → Prop where
  | bnot {e : Expr} {mask : Mask} : Computed scope (.unary .bnot e) mask
  | arith {op : MachineInt.Op} {l r : Expr} {mask : Mask} :
      Computed scope (.binary (.arith op) l r) mask
  | sign {unop : Unop} {e : Expr} {mask : Mask} : unop.isSign = true → Computed scope e .signed →
      Computed scope (.unary unop e) mask
  | name {s : Text} {e : Expr} {mask : Mask} :
      scope.resolve s mask = .ok e → Computed scope e mask → Computed scope (.name s) mask

/-- The type has a kind of the mask, or the mask is taken to allow it. -/
def Fitting (scope : Scope) (e : Expr) (mask : Mask) (type : ValueType) : Prop :=
  mask.allows (exprTypeToMask type) = true ∨ type = .string ∧ mask.allows .null = true ∨
    (∃ t, type = .int t) ∧ mask.allows .number = true ∧ Computed scope e mask

theorem allows_number : ∀ mask : Mask,
    mask.allows .signed = true ∨ mask.allows .int = true → mask.allows .number = true := by
  decide

/-- Where only integers are asked for, an integer is what is given. -/
theorem Fitting.int {type : ValueType} (h : Fitting scope e .int type) : ∃ t, type = .int t := by
  rcases h with h | ⟨-, h⟩ | ⟨h, -⟩
  · cases type with
    | int t => exact ⟨t, rfl⟩
    | float | double | string | char | null | bool => exact absurd h (by decide)
  · exact absurd h (by decide)
  · exact h

theorem exprTypeToMask_sign {u : ValueType × Int} (hsign : unop.isSign = true)
    (h : unaryGives unop u = some v) : v.1 = u.1 := by
  obtain ⟨t, n⟩ := u
  cases unop with
  | not | bnot => cases hsign
  | unp =>
    cases h
    rfl
  | unm =>
    cases t with
    | int t =>
      obtain ⟨-, ⟨⟩⟩ := ite_none_right_eq_some.mp h
      rfl
    | float | double =>
      cases h
      rfl
    | string | char | null | bool => cases h

/-- Numbers make an integer, or a float where one of them is a float. -/
theorem binaryGives_kind {op : MachineInt.Op} {u w : ValueType × Int}
    (h : binaryGives (.arith op) u v = some w) :
    (∃ t, w.1 = .int t) ∨ takesFloats op = true ∧ exprTypeToMask w.1 = .float ∧
      ((∀ t, u.1 ≠ .int t) ∨ ∀ t, v.1 ≠ .int t) := by
  have hfloat (s t : ValueType) : exprTypeToMask (floatType s t) = .float := by
    unfold floatType
    split <;> rfl
  unfold binaryGives at h
  split at h
  · cases ‹Binop.arith op = .comp _›
  · obtain ⟨n, -, rfl⟩ := map_eq_some_iff.mp h
    exact .inl ⟨_, rfl⟩
  · rename_i s n t k hnot hop
    obtain ⟨hnumbers, ⟨⟩⟩ := ite_none_right_eq_some.mp h
    rw [Bool.and_eq_true] at hnumbers
    obtain rfl := Binop.arith.inj hop
    refine .inr ⟨hnumbers.2, hfloat _ _, ?_⟩
    by_contra hboth
    rw [not_or] at hboth
    obtain ⟨hs, ht⟩ := hboth
    refine hs fun s' hs' => ht fun t' ht' => ?_
    exact hnot s' t' hs' ht'

/-- A value is of a kind that the mask has, or one of the exceptions. -/
theorem Gives.fitting (h : Gives scope e mask v) (hlax : ¬Lax scope e mask) :
    Fitting scope e mask v.1 := by
  induction h with
  | @literal e bits mask v hliteral hmask =>
    cases e with
    | string s =>
      cases hliteral
      rw [string_allows, Bool.or_eq_true] at hmask
      exact hmask.imp id fun hnull => .inl ⟨rfl, hnull⟩
    | name s | unary unop e | binary binop l r => cases hliteral
    | number t x | float x | double x | char c | null | bool b =>
      cases hliteral
      exact .inl hmask
  | name hresolve _ ih =>
    refine (ih fun h => hlax (.name hresolve h)).imp id fun h => h.imp id ?_
    exact fun ⟨hint, hmask, hcomputed⟩ => ⟨hint, hmask, .name hresolve hcomputed⟩
  | @unary unop e mask u v hmask hgives hv ih =>
    have hbelow := ih fun h => hlax (.unary hmask h)
    cases hunop : unop.isSign with
    | true =>
      have hneeds : unop.operand = .signed ∧ mask.allows .signed = true := by
        cases unop with
        | unp | unm => exact ⟨rfl, hmask⟩
        | not | bnot => cases hunop
      rw [hneeds.1] at hbelow hgives
      rw [exprTypeToMask_sign hunop hv]
      cases hkind : mask.allows (exprTypeToMask u.1) with
      | true => exact .inl hkind
      | false =>
        -- the operand is not of a kind that signs ask for
        rcases hbelow with hsigned | ⟨-, hnull⟩ | ⟨hint, -, hcomputed⟩
        · exact absurd (.here hunop hneeds.2 hgives hsigned hkind) hlax
        · exact absurd hnull (by decide)
        · exact .inr (.inr ⟨hint, allows_number mask (.inl hneeds.2), .sign hunop hcomputed⟩)
    | false =>
      cases unop with
      | unp | unm => cases hunop
      | not =>
        cases hv
        exact .inl hmask
      | bnot =>
        obtain ⟨t, n⟩ := u
        cases t with
        | int t =>
          cases hv
          exact .inr (.inr ⟨⟨t, rfl⟩, allows_number mask (.inr hmask), .bnot⟩)
        | _ => cases hv
  | @binary binop l r mask u v w hmask hl _ hw ihl ihr =>
    cases binop with
    | comp op =>
      obtain ⟨-, ⟨⟩⟩ := ite_none_right_eq_some.mp hw
      exact .inl hmask
    | arith op =>
      rcases binaryGives_kind hw with hint | ⟨hop, hfloat, hother⟩
      · exact .inr (.inr ⟨hint, hmask, .arith⟩)
      -- a float among the operands: the mask asks for floats
      left
      rw [hfloat]
      by_contra hno
      have hoperand : Binop.operand mask (.arith op) = .int := by
        show arithMask op mask = .int
        rw [Bool.not_eq_true] at hno
        rw [arithMask, hop, hno]
        rfl
      have hleft := ihl fun h => hlax (.left hmask h)
      have hright := ihr fun h => hlax (.right hmask hl h)
      rw [hoperand] at hleft hright
      obtain ⟨s, hs⟩ := hleft.int
      obtain ⟨t, ht⟩ := hright.int
      exact hother.elim (fun h => h s hs) fun h => h t ht

/--
**A value has a kind of the mask**, but for a string where null is allowed and for an integer that
was computed where some number is allowed.
-/
theorem evalExp_fitting {n : Nat} (hlax : ¬Lax scope e mask)
    (h : evalExp (scope.env fpu share n) e junk mask = .ok o) : Fitting scope e mask o.type :=
  ((evalExp_sound n e junk mask).1 o h).fitting hlax

/-- What the sum of 1 and -2 is made of: the sign takes a signed integer, as its mask says. -/
theorem evalExp_fitting_sum : Fitting (.remembered fun _ => none)
    (.binary (.arith .add) (.number .int 1) (.unary .unm (.number .int 2))) .uint (.int .int) := by
  have h : evalExp (Scope.env (.remembered fun _ => none) default (fun _ => 0) 0)
      (.binary (.arith .add) (.number .int 1) (.unary .unm (.number .int 2))) (fun _ => 0) .uint =
      .ok ⟨.int .int, 0xFFFFFFFF⟩ := by decide
  refine evalExp_fitting ?_ h
  intro hlax
  cases hlax with
  | left _ h => cases h
  | right _ _ h =>
    cases h with
    | unary _ h => cases h
    | here _ _ hgives _ hkind =>
      cases hgives with
      | literal hliteral _ =>
        cases hliteral
        exact absurd hkind (by decide)

/-- An evaluation gives a value of a kind that the mask does not have. -/
def GivesOther (e : Expr) (mask : Mask) : Prop :=
  mask ≠ 0 ∧ ∃ (scope : Scope) (fpu : Fpu) (share : Text → BitVec 64) (n : Nat) (junk : Junk)
    (o : Out), evalExp (scope.env fpu share n) e junk mask = .ok o ∧
      mask.allows (exprTypeToMask o.type) = false

/--
Where unsigned integers are asked for, `1 + 2` and `~1` give an `int`; where signed ones are,
`+(1U + 2U)` gives an unsigned one; and where null is, a string is a string.
-/
theorem sum_signed :
    GivesOther (.binary (.arith .add) (.number .int 1) (.number .int 2)) .uint ∧
      GivesOther (.unary .bnot (.number .int 1)) .uint ∧
      GivesOther (.unary .unp (.binary (.arith .add) (.number .uint 1) (.number .uint 2))) .sint ∧
      GivesOther (.string []) .null := by
  have hgives {e : Expr} {mask : Mask} (o : Out) (hmask : mask ≠ 0)
      (heval : evalExp (Scope.env (.remembered fun _ => none) default (fun _ => 0) 0) e
        (fun _ => 0) mask = .ok o) (hkind : mask.allows (exprTypeToMask o.type) = false) :
      GivesOther e mask :=
    ⟨hmask, .remembered fun _ => none, default, fun _ => 0, 0, fun _ => 0, o, heval, hkind⟩
  exact ⟨hgives ⟨.int .int, 3⟩ (by decide) (by decide) (by decide),
    hgives ⟨.int .int, 0xFFFFFFFE⟩ (by decide) (by decide) (by decide),
    hgives ⟨.int .uint, 3⟩ (by decide) (by decide) (by decide),
    hgives ⟨.string, 0⟩ (by decide) (by decide) (by decide)⟩

end Eolian
