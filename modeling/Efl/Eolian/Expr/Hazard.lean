/-
Operations without a result that an evaluation comes to.

`eval_exp` goes on with what a name stands for, under the same mask.  That may use the name again,
so an environment has a number of uses of names, one inside of another, that it can follow.

`Gives` says over the integers what an expression gives where a mask is asked for, and `Hazard` that
it has an operator without a result which is reached: the operands have their values and are
accepted.  The evaluator has no guard at all, so it comes to such an operation exactly then.
-/
import Efl.Eolian.Expr.Right

namespace Eolian

open MachineInt Option

/-! ### Names -/

/-- Where names are looked up: in a unit or, without one, in what was found there before. -/
inductive Scope where
  | unit (constant : Text → Option (Option Expr)) (enum : Text → Option (Text → Option Expr))
  | remembered (value : Text → Option Expr)

/-- `expr_error` -/
def exprError (msg : String) (s : Text) : Fault :=
  .error (msg ++ " '" ++ String.ofList (s.map fun c => Char.ofNat c.toNat) ++ "'")

/-- `split_enum_name` -/
def splitEnumName (s : Text) : Option (Text × Text) :=
  let rest := s.reverse.dropWhile (· != 46)
  if rest = [] then none else some (rest.tail.reverse, (s.reverse.takeWhile (· != 46)).reverse)

/-- The case of a name in `eval_exp`: the expression to go on with. -/
def Scope.resolve (scope : Scope) (s : Text) (mask : Mask) : Except Fault Expr :=
  match scope with
  | .remembered value =>
    match value s with
    | none => .error (exprError "undefined value" s)
    | some e => .ok e
  | .unit constant enum =>
    match constant s with
    | some none => .error (exprError "undefined variable" s)
    | some (some e) => .ok e
    | none =>
      match splitEnumName s with
      | none => .error (exprError "undefined variable" s)
      | some (fulln, memb) =>
        if mask.allows .int then
          match enum fulln with
          | none => .error (exprError "undefined variable" s)
          | some field =>
            match field memb with
            | none => .error (exprError "invalid enum field" s)
            | some e => .ok e
        else .error (exprTypeError .int mask)

/-- `n` names inside of each other can be followed. -/
def Scope.env (scope : Scope) (fpu : Fpu) (share : Text → BitVec 64) : Nat → Env
  | 0 => ⟨fpu, share, fun _ _ _ => .error .refused⟩
  | n + 1 => ⟨fpu, share, fun s junk mask =>
      (scope.resolve s mask).bind fun e => evalExp (scope.env fpu share n) e junk mask⟩

theorem resolve_ne {scope : Scope} {s : Text} {mask : Mask} :
    scope.resolve s mask ≠ .error .undefined := by
  cases scope <;> unfold Scope.resolve <;> grind [exprError, exprTypeError]

/-! ### What an operator asks for -/

/-- The types of which the mask must have one. -/
def Unop.needs : Unop → Mask
  | .unp | .unm => .signed
  | .not => .bool
  | .bnot => .int

/-- The mask for the operand. -/
def Unop.operand : Unop → Mask
  | .unp | .unm => .signed
  | .not => .number ||| .bool
  | .bnot => .int

/-- The types of which the mask must have one. -/
def Binop.needs : Binop → Mask
  | .arith _ => .number
  | .comp _ => .bool

/-- The mask for the operands. -/
def Binop.operand (mask : Mask) : Binop → Mask
  | .arith op => arithMask op mask
  | .comp op => compareMask op

theorem evalUnary_eq (fpu : Fpu) (unop : Unop) (mask : Mask) (operand : Mask → Except Fault Out) :
    evalUnary fpu unop mask operand =
      if mask.allows unop.needs then
        (operand unop.operand).bind fun x => evalUnary fpu unop unop.needs fun _ => .ok x
      else .error (exprTypeError unop.needs mask) := by
  cases unop with
  | unp =>
    show (if mask.allows .signed = true then operand .signed else _) =
      if mask.allows .signed = true then (operand .signed).bind Except.ok else _
    cases operand .signed <;> rfl
  | unm | not | bnot => rfl

theorem evalBinary_eq (fpu : Fpu) (binop : Binop) (mask : Mask) (out : BitVec 64)
    (lhs rhs : Mask → Except Fault Out) :
    evalBinary fpu binop mask out lhs rhs =
      if mask.allows binop.needs then
        (lhs (binop.operand mask)).bind fun x => (rhs (binop.operand mask)).bind fun y =>
          evalBinary fpu binop binop.needs out (fun _ => .ok x) fun _ => .ok y
      else .error (exprTypeError binop.needs mask) := by
  cases binop with
  | comp op =>
    simp only [Binop.needs]
    rfl
  | arith op =>
    have hself : Mask.allows .number .number = true := rfl
    simp only [evalBinary, evalPromoteNum, Binop.needs, Binop.operand, hself]
    split
    · cases lhs (arithMask op mask) with
      | error f => rfl
      | ok x => cases rhs (arithMask op mask) <;> rfl
    · rfl

/-! ### Values -/

/-- The type of a value and, if it is an integer, which one. -/
def Out.tag (o : Out) : ValueType × Int :=
  (o.type, match o.type with
    | .int t => MachineInt.value t.signed (load t.width o.value)
    | _ => 0)

/-- What a literal gives, and the types of which the mask must have one. -/
def literal : Expr → Option (Mask × ValueType × Int)
  | .number t v =>
    some (if t.signed then .sint else .uint, .int t, MachineInt.value t.signed (load t.width v))
  | .float _ => some (.float, .float, 0)
  | .double _ => some (.float, .double, 0)
  | .string _ => some (.string ||| .null, .string, 0)
  | .char _ => some (.char, .char, 0)
  | .null => some (.null, .null, 0)
  | .bool _ => some (.bool, .bool, 0)
  | .name _ | .unary _ _ | .binary _ _ _ => none

def unaryGives : Unop → ValueType × Int → Option (ValueType × Int)
  | .unp, v => some v
  | .not, _ => some (.bool, 0)
  | .unm, (.int t, n) => if t.signed then some (.int t, wrap t.signed t.width (-n)) else none
  | .unm, (.float, _) => some (.float, 0)
  | .unm, (.double, _) => some (.double, 0)
  | .bnot, (.int t, n) => some (.int t, wrap t.signed t.width (-n - 1))
  | _, _ => none

/-- The integer two integers give, after their promotion. -/
def intMeaning (op : Op) (s t : IntType) (a b : Int) : Option Int :=
  let p := promoteType s t
  meaning p.signed p.width op (wrap p.signed p.width a) (wrap p.signed p.width b)

/-- The type two numbers are promoted to if one of them is no integer. -/
def floatType (s t : ValueType) : ValueType :=
  if s = .double ∨ t = .double then .double else .float

def binaryGives : Binop → ValueType × Int → ValueType × Int → Option (ValueType × Int)
  | .comp _, (s, _), (t, _) => if comparable s t then some (.bool, 0) else none
  | .arith op, (.int s, a), (.int t, b) =>
    (intMeaning op s t a b).map fun n => (.int (promoteType s t), n)
  | .arith op, (s, _), (t, _) =>
    if s.number && t.number && takesFloats op then some (floatType s t, 0) else none

/-- What an expression gives where the mask is asked for. -/
inductive Gives (scope : Scope) : Expr → Mask → ValueType × Int → Prop where
  | literal {e : Expr} {bits mask : Mask} {v : ValueType × Int} :
      literal e = some (bits, v) → mask.allows bits = true → Gives scope e mask v
  | name {s : Text} {e : Expr} {mask : Mask} {v : ValueType × Int} :
      scope.resolve s mask = .ok e → Gives scope e mask v → Gives scope (.name s) mask v
  | unary {unop : Unop} {e : Expr} {mask : Mask} {u v : ValueType × Int} :
      mask.allows unop.needs = true → Gives scope e unop.operand u → unaryGives unop u = some v →
      Gives scope (.unary unop e) mask v
  | binary {binop : Binop} {l r : Expr} {mask : Mask} {u v w : ValueType × Int} :
      mask.allows binop.needs = true → Gives scope l (binop.operand mask) u →
      Gives scope r (binop.operand mask) v → binaryGives binop u v = some w →
      Gives scope (.binary binop l r) mask w

/--
An operator of the expression is reached that has no result: a division or a remainder by zero or
with a quotient out of range, or a shift by a negative count or by the width or more.
-/
inductive Hazard (scope : Scope) : Expr → Mask → Prop where
  | here {op : Op} {l r : Expr} {mask : Mask} {s t : IntType} {a b : Int} :
      mask.allows .number = true → Gives scope l (arithMask op mask) (.int s, a) →
      Gives scope r (arithMask op mask) (.int t, b) → intMeaning op s t a b = none →
      Hazard scope (.binary (.arith op) l r) mask
  | name {s : Text} {e : Expr} {mask : Mask} :
      scope.resolve s mask = .ok e → Hazard scope e mask → Hazard scope (.name s) mask
  | unary {unop : Unop} {e : Expr} {mask : Mask} :
      mask.allows unop.needs = true → Hazard scope e unop.operand →
      Hazard scope (.unary unop e) mask
  | left {binop : Binop} {l r : Expr} {mask : Mask} :
      mask.allows binop.needs = true → Hazard scope l (binop.operand mask) →
      Hazard scope (.binary binop l r) mask
  | right {binop : Binop} {l r : Expr} {mask : Mask} {u : ValueType × Int} :
      mask.allows binop.needs = true → Gives scope l (binop.operand mask) u →
      Hazard scope r (binop.operand mask) → Hazard scope (.binary binop l r) mask

/-! ### One operator -/

/-- The result is the one that is given, or an error where none is. -/
def Tags (r : Except Fault Out) (g : Option (ValueType × Int)) : Prop :=
  match r with
  | .ok o => g = some o.tag
  | .error f => g = none ∧ f ≠ .undefined

theorem tag_store (t : IntType) (n : Int) (c : BitVec 64) :
    Out.tag ⟨.int t, (Value.num t n).store c⟩ = (.int t, wrap t.signed t.width n) := by
  show (ValueType.int t, value t.signed (load t.width (store c _))) = _
  rw [load_store t.width_le]
  rfl

theorem tag_int {x : Out} {t : IntType} {n : Int} (h : x.tag = (.int t, n)) :
    ∃ c, x = ⟨.int t, c⟩ ∧ value t.signed (load t.width c) = n := by
  obtain ⟨s, c⟩ := x
  obtain rfl : s = .int t := congrArg Prod.fst h
  exact ⟨c, rfl, congrArg Prod.snd h⟩

theorem binaryMeaning_arith (op : Op) (s t : IntType) (c d : BitVec 64) :
    binaryMeaning (.arith op) (number s c) (number t d) =
      (intMeaning op s t (value s.signed (load s.width c))
        (value t.signed (load t.width d))).map (.num (promoteType s t)) := rfl

theorem evalUnary_tags (fpu : Fpu) (unop : Unop) (x : Out) :
    Tags (evalUnary fpu unop unop.needs fun _ => .ok x) (unaryGives unop x.tag) := by
  obtain ⟨s, c⟩ := x
  cases unop with
  | unp => rfl
  | not => rfl
  | unm =>
    cases s with
    | int t =>
      by_cases hsigned : t.signed = true
      · rw [evalUnary_unm rfl rfl hsigned]
        show unaryGives .unm (.int t, _) = some (Out.tag ⟨.int t, (Value.num t _).store c⟩)
        rw [tag_store, wrap_wrap, unaryGives, if_pos hsigned]
      · have hrefused : evalUnary fpu .unm Unop.unm.needs (fun _ => .ok ⟨.int t, c⟩)
            = .error .refused := if_neg hsigned
        rw [hrefused]
        exact ⟨if_neg hsigned, by simp⟩
    | float | double => rfl
    | string | char | null | bool => exact ⟨rfl, by simp⟩
  | bnot =>
    cases s with
    | int t =>
      rw [evalUnary_bnot rfl rfl]
      show unaryGives .bnot (.int t, _) = some (Out.tag ⟨.int t, (Value.num t _).store c⟩)
      rw [tag_store, wrap_wrap]
      rfl
    | _ => exact ⟨rfl, by simp⟩

variable {x y : Out}

theorem promote_floats (fpu : Fpu) (hx : x.type.number = true)
    (hy : y.type.number = true) (hint : ∀ s t, x.type = .int s → y.type ≠ .int t) :
    ∃ p, promote fpu x y = .ok p ∧ p.1.type = floatType x.type y.type := by
  obtain ⟨s, c⟩ := x
  obtain ⟨t, d⟩ := y
  cases s with
  | int s =>
    cases t with
    | int t => exact absurd rfl (hint s t rfl)
    | float | double => exact ⟨_, rfl, rfl⟩
    | string | char | null | bool => cases hy
  | float | double =>
    cases t with
    | int _ | float | double => exact ⟨_, rfl, rfl⟩
    | string | char | null | bool => cases hy
  | string | char | null | bool => cases hx

theorem evalBinary_floats (fpu : Fpu) (op : Op) (out : BitVec 64)
    (hint : ∀ s t, x.type = .int s → y.type ≠ .int t) :
    Tags (evalBinary fpu (.arith op) .number out (fun _ => .ok x) fun _ => .ok y)
      (if x.type.number && y.type.number && takesFloats op then
        some (floatType x.type y.type, 0) else none) := by
  show Tags ((promote fpu x y).bind fun p => applyArith fpu op out p.1 p.2) _
  by_cases hx : x.type.number = true
  · by_cases hy : y.type.number = true
    · obtain ⟨⟨l, r⟩, hp, htype⟩ := promote_floats fpu hx hy hint
      rw [hp, hx, hy]
      show Tags (applyArith fpu op out l r) _
      by_cases hfloats : takesFloats op = true
      · unfold applyArith floatType at *
        simp only [hfloats]
        by_cases hd : x.type = .double ∨ y.type = .double
        · rw [if_pos hd] at htype ⊢
          rw [htype]
          rfl
        · rw [if_neg hd] at htype ⊢
          rw [htype]
          rfl
      · unfold applyArith floatType at *
        by_cases hd : x.type = .double ∨ y.type = .double
        · rw [if_pos hd] at htype
          rw [show l.type = .double from htype]
          simp [hfloats, Tags]
        · rw [if_neg hd] at htype
          rw [show l.type = .float from htype]
          simp [hfloats, Tags]
    · rw [promote, if_neg (by simp [hx])]
      simp [Except.bind, Tags, exprTypeError, hy]
  · rw [promote]
    simp [Except.bind, Tags, exprTypeError, hx]

/-- The tag that a binary operator gives. -/
theorem evalBinary_tags (fpu : Fpu) (binop : Binop) (out : BitVec 64) (x y : Out) :
    Tags (evalBinary fpu binop binop.needs out (fun _ => .ok x) fun _ => .ok y)
        (binaryGives binop x.tag y.tag) ∨
      evalBinary fpu binop binop.needs out (fun _ => .ok x) (fun _ => .ok y)
        = .error .undefined ∧
      ∃ op s t a b, binop = .arith op ∧ x.tag = (.int s, a) ∧ y.tag = (.int t, b) ∧
        intMeaning op s t a b = none := by
  obtain ⟨s, c⟩ := x
  obtain ⟨t, d⟩ := y
  cases binop with
  | comp op =>
    left
    rw [show (Binop.comp op).needs = .bool from rfl]
    by_cases hc : comparable s t = true
    · rw [evalBinary_comp rfl rfl rfl hc]
      exact if_pos hc
    have hrefused : evalBinary fpu (.comp op) .bool out
        (fun _ => .ok ⟨s, c⟩) (fun _ => .ok ⟨t, d⟩) =
        .error (exprTypeMismatchError s t) := if_neg hc
    rw [hrefused]
    exact ⟨if_neg hc, by simp [exprTypeMismatchError]⟩
  | arith op =>
    rw [show (Binop.arith op).needs = .number from rfl]
    by_cases hint : ∀ s' t', s = .int s' → t ≠ .int t'
    · left
      have htags := evalBinary_floats fpu op out (x := ⟨s, c⟩) (y := ⟨t, d⟩) hint
      cases s with
      | int s =>
        cases t with
        | int t => exact absurd rfl (hint s t rfl)
        | _ => exact htags
      | _ => exact htags
    · simp only [not_forall, not_not] at hint
      obtain ⟨s, t, rfl, rfl⟩ := hint
      rw [evalBinary_arith rfl rfl rfl, binaryMeaning_arith]
      cases hn : intMeaning op s t (value s.signed (load s.width c))
          (value t.signed (load t.width d)) with
      | none => exact .inr ⟨rfl, op, s, t, _, _, rfl, rfl, rfl, hn⟩
      | some n =>
        left
        show ((intMeaning op s t _ _).map fun n => (ValueType.int (promoteType s t), n)) =
          some (Out.tag ⟨.int _, (Value.num _ n).store out⟩)
        rw [tag_store, hn, wrap_meaning (IntType.one_lt_width _) hn]
        rfl

/-! ### What is given was evaluated -/

variable {scope : Scope} {fpu : Fpu} {share : Text → BitVec 64} {env : Env} {e : Expr}
  {bits mask : Mask} {v : ValueType × Int} {r : Except Fault Out} {junk : Junk} {o : Out}

theorem string_allows : ∀ mask : Mask,
    mask.allows (.string ||| .null) = (mask.allows .string || mask.allows .null) := by
  decide

theorem evalExp_literal (env : Env) (mask : Mask) (h : literal e = some (bits, v)) (junk : Junk) :
    (mask.allows bits = true → ∃ o, evalExp env e junk mask = .ok o ∧ o.tag = v) ∧
      (mask.allows bits = false → ∃ f, evalExp env e junk mask = .error f ∧ f ≠ .undefined) := by
  cases e with
  | string s =>
    cases h
    rw [evalExp, string_allows]
    cases mask.allows .string || mask.allows .null with
    | true => exact ⟨fun _ => ⟨_, rfl, rfl⟩, nofun⟩
    | false => exact ⟨nofun, fun _ => ⟨_, rfl, by simp [exprTypeError]⟩⟩
  | name s | unary unop e | binary binop l r => cases h
  | number t x | float x | double x | char c | null | bool b =>
    cases h
    rw [evalExp, evalLiteral]
    cases mask.allows _ with
    | true => exact ⟨fun _ => ⟨_, rfl, rfl⟩, nofun⟩
    | false => exact ⟨nofun, fun _ => ⟨_, rfl, by simp [exprTypeError]⟩⟩

/-- What an evaluation may come to. -/
def Sound (scope : Scope) (e : Expr) (mask : Mask) (r : Except Fault Out) : Prop :=
  (∀ o, r = .ok o → Gives scope e mask o.tag) ∧ (r = .error .undefined → Hazard scope e mask)

theorem Sound.error {f : Fault} (h : f = .undefined → Hazard scope e mask) :
    Sound scope e mask (.error f) :=
  ⟨nofun, fun hf => h (Except.error.inj hf)⟩

theorem Sound.ok (h : Gives scope e mask o.tag) : Sound scope e mask (.ok o) := by
  refine ⟨?_, nofun⟩
  rintro _ ⟨⟩
  exact h

theorem Tags.sound {g : Option (ValueType × Int)} (h : Tags r g)
    (hg : ∀ v, g = some v → Gives scope e mask v) : Sound scope e mask r := by
  cases r with
  | ok o => exact .ok (hg _ h)
  | error f => exact .error fun hf => absurd hf h.2

theorem Tags.ok (h : Tags r (some v)) : ∃ o, r = .ok o ∧ o.tag = v := by
  cases r with
  | ok o => exact ⟨o, rfl, (some.inj h).symm⟩
  | error f => cases h.1

theorem sound_literal (h : literal e = some (bits, v)) :
    Sound scope e mask (evalExp env e junk mask) := by
  obtain ⟨hyes, hno⟩ := evalExp_literal env mask h junk
  cases hmask : mask.allows bits with
  | true =>
    obtain ⟨o, ho, rfl⟩ := hyes hmask
    rw [ho]
    exact .ok (.literal h hmask)
  | false =>
    obtain ⟨f, hf, hne⟩ := hno hmask
    rw [hf]
    exact .error fun heq => absurd heq hne

/-- Evaluation gives the tag foretold, or fails as foretold. -/
theorem evalExp_sound_of (hname : ∀ s junk mask, Sound scope (.name s) mask (env.name s junk mask))
    (e : Expr) (junk : Junk) (mask : Mask) : Sound scope e mask (evalExp env e junk mask) := by
  induction e generalizing junk mask with
  | name s => exact hname s junk mask
  | unary unop e ih =>
    rw [evalExp, evalUnary_eq]
    split
    · rename_i hmask
      have hsound := ih (if unop = .unp then junk else junk.sub false) unop.operand
      cases hx : evalExp env e (if unop = .unp then junk else junk.sub false) unop.operand with
      | error f =>
        rw [hx] at hsound
        exact .error fun hf => .unary hmask (hsound.2 (by rw [hf]))
      | ok x =>
        exact (evalUnary_tags _ unop x).sound fun v hv => .unary hmask (hsound.1 x hx) hv
    · exact .error (by simp [exprTypeError])
  | binary binop l r ihl ihr =>
    rw [evalExp, evalBinary_eq]
    split
    · rename_i hmask
      have hl := ihl (junk.sub false) (binop.operand mask)
      have hr := ihr (junk.sub true) (binop.operand mask)
      cases hx : evalExp env l (junk.sub false) (binop.operand mask) with
      | error f => exact .error fun hf => .left hmask (hl.2 (by rw [hx, hf]))
      | ok x =>
        have hgive := hl.1 x hx
        cases hy : evalExp env r (junk.sub true) (binop.operand mask) with
        | error f => exact .error fun hf => .right hmask hgive (hr.2 (by rw [hy, hf]))
        | ok y =>
          have hgive' := hr.1 y hy
          rcases evalBinary_tags env.fpu binop (junk []) x y with
            htags | ⟨hundefined, op, s, t, a, b, rfl, hs, ht, hnone⟩
          · exact htags.sound fun w hw => .binary hmask hgive hgive' hw
          rw [hs] at hgive
          rw [ht] at hgive'
          exact (congrArg (Sound scope _ mask) hundefined).mpr
            (.error fun _ => .here hmask hgive hgive' hnone)
    · exact .error (by simp [exprTypeError])
  | _ => exact sound_literal rfl

/-- **An evaluation gives what C gives**, and has no result only where there is a hazard. -/
theorem evalExp_sound (n : Nat) (e : Expr) (junk : Junk) (mask : Mask) :
    Sound scope e mask (evalExp (scope.env fpu share n) e junk mask) := by
  induction n generalizing e junk mask with
  | zero => exact evalExp_sound_of (fun _ _ _ => .error (by simp)) e junk mask
  | succ n ih =>
    refine evalExp_sound_of (fun s junk mask => ?_) e junk mask
    show Sound _ _ _ ((scope.resolve s mask).bind _)
    cases he : scope.resolve s mask with
    | error f => exact .error fun hf => absurd (he.trans (by rw [hf])) resolve_ne
    | ok e =>
      obtain ⟨hgives, hhazard⟩ := ih e junk mask
      exact ⟨fun o ho => .name he (hgives o ho), fun hf => .name he (hhazard hf)⟩

/-! ### What is given can be evaluated -/

theorem evalExp_name (n : Nat) (s : Text) (junk : Junk) (mask : Mask) :
    evalExp (scope.env fpu share (n + 1)) (.name s) junk mask =
      (scope.resolve s mask).bind fun e => evalExp (scope.env fpu share n) e junk mask :=
  rfl

theorem Gives.eval (fpu : Fpu) (share : Text → BitVec 64) (h : Gives scope e mask v) :
    ∃ n, ∀ m, n ≤ m → ∀ junk, ∃ o,
      evalExp (scope.env fpu share m) e junk mask = .ok o ∧ o.tag = v := by
  induction h with
  | literal hliteral hmask => exact ⟨0, fun m _ junk => (evalExp_literal _ _ hliteral junk).1 hmask⟩
  | name hresolve _ ih =>
    obtain ⟨n, hn⟩ := ih
    refine ⟨n + 1, fun m hm junk => ?_⟩
    obtain ⟨m, rfl⟩ : ∃ k, m = k + 1 := ⟨m - 1, by omega⟩
    rw [evalExp_name, hresolve]
    exact hn m (by omega) junk
  | @unary unop e mask u v hmask _ hv ih =>
    obtain ⟨n, hn⟩ := ih
    refine ⟨n, fun m hm junk => ?_⟩
    rw [evalExp, evalUnary_eq, if_pos hmask]
    obtain ⟨x, hx, rfl⟩ := hn m hm (if unop = .unp then junk else junk.sub false)
    rw [hx]
    have htags := evalUnary_tags (scope.env fpu share m).fpu unop x
    rw [hv] at htags
    exact htags.ok
  | @binary binop l r mask u v w hmask _ _ hw ihl ihr =>
    obtain ⟨n, hn⟩ := ihl
    obtain ⟨n', hn'⟩ := ihr
    refine ⟨max n n', fun m hm junk => ?_⟩
    rw [evalExp, evalBinary_eq, if_pos hmask]
    obtain ⟨x, hx, rfl⟩ := hn m (by omega) (junk.sub false)
    obtain ⟨y, hy, rfl⟩ := hn' m (by omega) (junk.sub true)
    rw [hx, hy]
    rcases evalBinary_tags (scope.env fpu share m).fpu binop (junk []) x y with
      htags | ⟨-, op, s, t, a, b, rfl, hs, ht, hnone⟩
    · rw [hw] at htags
      exact htags.ok
    · rw [hs, ht, binaryGives, hnone] at hw
      cases hw

/-- A hazard is met, with any names and any junk. -/
theorem Hazard.eval (fpu : Fpu) (share : Text → BitVec 64) (h : Hazard scope e mask) :
    ∃ n, ∀ m, n ≤ m → ∀ junk, evalExp (scope.env fpu share m) e junk mask = .error .undefined := by
  induction h with
  | @here op l r mask s t a b hmask hl hr hnone =>
    obtain ⟨n, hn⟩ := hl.eval fpu share
    obtain ⟨n', hn'⟩ := hr.eval fpu share
    refine ⟨max n n', fun m hm junk => ?_⟩
    obtain ⟨x, hx, hxs⟩ := hn m (by omega) (junk.sub false)
    obtain ⟨y, hy, hyt⟩ := hn' m (by omega) (junk.sub true)
    obtain ⟨c, rfl, rfl⟩ := tag_int hxs
    obtain ⟨d, rfl, rfl⟩ := tag_int hyt
    rw [evalExp, evalBinary_arith hmask hx hy, binaryMeaning_arith, hnone]
    rfl
  | name hresolve _ ih =>
    obtain ⟨n, hn⟩ := ih
    refine ⟨n + 1, fun m hm junk => ?_⟩
    obtain ⟨m, rfl⟩ : ∃ k, m = k + 1 := ⟨m - 1, by omega⟩
    rw [evalExp_name, hresolve]
    exact hn m (by omega) junk
  | unary hmask _ ih =>
    obtain ⟨n, hn⟩ := ih
    refine ⟨n, fun m hm junk => ?_⟩
    rw [evalExp, evalUnary_eq, if_pos hmask, hn m hm]
    rfl
  | left hmask _ ih =>
    obtain ⟨n, hn⟩ := ih
    refine ⟨n, fun m hm junk => ?_⟩
    rw [evalExp, evalBinary_eq, if_pos hmask, hn m hm]
    rfl
  | right hmask hl _ ih =>
    obtain ⟨n, hn⟩ := hl.eval fpu share
    obtain ⟨n', hn'⟩ := ih
    refine ⟨max n n', fun m hm junk => ?_⟩
    obtain ⟨x, hx, -⟩ := hn m (by omega) (junk.sub false)
    rw [evalExp, evalBinary_eq, if_pos hmask, hx, hn' m (by omega)]
    rfl

/-! ### The operations without a result -/

/--
**No operation without a result is executed, wherever names lead, exactly for the expressions
without a hazard.**
-/
theorem executes_defined_iff (scope : Scope) (fpu : Fpu) (share : Text → BitVec 64) (e : Expr)
    (mask : Mask) :
    (∀ n junk, evalExp (scope.env fpu share n) e junk mask ≠ .error .undefined) ↔
      ¬Hazard scope e mask := by
  constructor
  · intro h hhazard
    obtain ⟨n, hn⟩ := hhazard.eval fpu share
    exact h n (fun _ => 0) (hn n (le_refl n) _)
  · intro h n junk hundefined
    exact h ((evalExp_sound n e junk mask).2 hundefined)

/-- `1 / 0` is divided. -/
theorem quotient_undefined : ¬∀ (scope : Scope) (fpu : Fpu) (share : Text → BitVec 64) (e : Expr)
    (mask : Mask) (n : Nat) (junk : Junk),
    evalExp (scope.env fpu share n) e junk mask ≠ .error .undefined := by
  intro h
  exact h (.remembered fun _ => none) default (fun _ => 0)
    (.binary (.arith .div) (.number .int 1) (.number .int 0)) .all 0 (fun _ => 0) (by decide)

end Eolian
