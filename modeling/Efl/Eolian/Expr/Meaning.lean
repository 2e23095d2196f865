/-
What an expression over integers means in C.

`denote` gives the value of an expression by the integers it stands for: an operand
is promoted to the type that comes last in the order of the types, arithmetic wraps,
and comparisons look at the promoted values.  Nothing here knows of the union.

`Leaves` is what the union can hold after a value has been written to it.  The member
of the value's type is as `denote` says.  What is above it comes from the literal
below a sign, and is anything where a binary operator has written to a variable of
its own.
-/
import Efl.Eolian.Expr.Eval

namespace Eolian

open MachineInt

/-- A value in C. -/
inductive Value where
  | num (type : IntType) (n : Int)
  | bool (b : Bool)
  deriving DecidableEq, Repr

namespace Value

def type : Value → ValueType
  | .num t _ => .int t
  | .bool _ => .bool

/-- The value as an operand: a truth value is an `int`. -/
def operand : Value → IntType × Int
  | .num t n => (t, n)
  | .bool b => (.int, if b then 1 else 0)

/-- The union after the value has been written to it. -/
def store (c : BitVec 64) : Value → BitVec 64
  | .num t n => MachineInt.store c (BitVec.ofInt t.width n)
  | .bool b => MachineInt.store c (BitVec.ofBool b |>.setWidth 8)

/-- The value is one that its type can hold. -/
def Fits : Value → Prop
  | .num t n => wrap t.signed t.width n = n
  | .bool _ => True

end Value

/-- The value that is read from the member of the type. -/
def Out.read (o : Out) : Option Value :=
  match o.type with
  | .int t => some (.num t (MachineInt.value t.signed (load t.width o.value)))
  | .bool => some (.bool (load 8 o.value != 0))
  | .float | .double | .string | .char | .null => none

theorem Value.read_store {v : Value} (h : v.Fits) (c : BitVec 64) :
    Out.read ⟨v.type, v.store c⟩ = some v := by
  cases v with
  | num t n =>
    show some (Value.num t _) = _
    rw [Value.store, load_store t.width_le]
    exact congrArg (fun k => some (Value.num t k)) h
  | bool b =>
    show some (Value.bool _) = _
    rw [Value.store, load_store (by decide)]
    cases b <;> rfl

/-! ### Operators -/

/-- The type both sides are promoted to: the one that comes last. -/
def promoteType (s t : IntType) : IntType :=
  if s.ctorIdx ≤ t.ctorIdx then t else s

/-- What a unary operator makes of a value. -/
def unaryMeaning (unop : Unop) (v : Value) : Value :=
  let (t, n) := v.operand
  match unop with
  | .unp => .num t n
  | .unm => .num t (wrap t.signed t.width (-n))
  | .not => .bool (n == 0)
  | .bnot => .num t (wrap t.signed t.width (-n - 1))

/-- A comparison or a logical operator over the integers. -/
def compareMeaning (op : Compare) (a b : Int) : Bool :=
  match op with
  | .eq => a == b
  | .nq => a != b
  | .gt => b < a
  | .lt => a < b
  | .ge => b ≤ a
  | .le => a ≤ b
  | .and => a != 0 && b != 0
  | .or => a != 0 || b != 0

/-- What a binary operator makes of two values after their promotion. -/
def binaryMeaning (binop : Binop) (u v : Value) : Option Value :=
  let (s, a) := u.operand
  let (t, b) := v.operand
  let p := promoteType s t
  let a' := wrap p.signed p.width a
  let b' := wrap p.signed p.width b
  match binop with
  | .arith op => (meaning p.signed p.width op a' b').map (.num p)
  | .comp op => some (.bool (compareMeaning op a' b'))

/-- The value of `&&` or `||` when the left operand decides it. -/
def shortCircuit (binop : Binop) (u : Value) : Option Bool :=
  match binop with
  | .comp .and => if u.operand.2 = 0 then some false else none
  | .comp .or => if u.operand.2 = 0 then none else some true
  | _ => none

/-- The value of an expression over integers, if it has one. -/
@[grind =]
def denote : Expr → Option Value
  | .number t v => some (.num t (value t.signed (load t.width v)))
  | .unary unop e => (denote e).map (unaryMeaning unop)
  | .binary binop l r =>
    (denote l).bind fun u =>
      match shortCircuit binop u with
      | some b => some (.bool b)
      | none => (denote r).bind fun v => binaryMeaning binop u v
  | _ => none

/-! ### Types -/

/-- The type of an operand. -/
def operandType : ValueType → IntType
  | .int t => t
  | _ => .int

/-- The type of an expression's value. -/
@[grind =]
def resultType : Expr → ValueType
  | .number t _ => .int t
  | .unary .not _ => .bool
  | .unary _ e => .int (operandType (resultType e))
  | .binary (.arith _) l r =>
    .int (promoteType (operandType (resultType l)) (operandType (resultType r)))
  | .binary (.comp _) _ _ => .bool
  | .float _ => .float
  | .double _ => .double
  | .string _ => .string
  | .char _ => .char
  | .null => .null
  | .bool _ => .bool
  | .name _ => .null

/-- The type is that of a signed integer. -/
def signedType : ValueType → Bool
  | .int t => t.signed
  | _ => false

/-- The evaluator has no objection to the types of an expression over integers where
`mask` is asked for. -/
@[grind =]
def accepts : Expr → Mask → Bool
  | .number t _, mask => mask.allows (if t.signed then .sint else .uint)
  | .unary .unp e, mask => mask.allows .signed && accepts e .signed
  | .unary .unm e, mask =>
    mask.allows .signed && accepts e .signed && signedType (resultType e)
  | .unary .not e, mask => mask.allows .bool && accepts e (.number ||| .bool)
  | .unary .bnot e, mask => mask.allows .int && accepts e .int
  | .binary (.arith op) l r, mask =>
    mask.allows .number && accepts l (arithMask op mask) && accepts r (arithMask op mask)
  | .binary (.comp op) l r, mask =>
    mask.allows .bool && accepts l (compareMask op) && accepts r (compareMask op)
      && comparable (resultType l) (resultType r)
  | _, _ => false

/-! ### What is left in the union -/

/-- What the union can hold when an expression over integers has been evaluated and
every part of it has its value. -/
@[grind =]
def Leaves : Expr → BitVec 64 → Prop
  | .number _ v, c => c = v
  | .unary .unp e, c => Leaves e c
  | .unary unop e, c =>
    ∃ d v, Leaves e d ∧ denote (.unary unop e) = some v ∧ c = v.store d
  | .binary binop l r, c =>
    (∃ x, Leaves l x) ∧ (∃ y, Leaves r y) ∧
      ∃ d v, denote (.binary binop l r) = some v ∧ c = v.store d
  | _, _ => False

/-- **The comparison in the expression agrees with C.**  Whatever the unions of the
operands can hold, the members `ull` compare as the promoted values do. -/
def Compares (e : Expr) : Prop :=
  match e with
  | .unary .not x =>
    accepts x (.number ||| .bool) = true → ∀ c, Leaves x c →
      denote e = some (.bool (c == 0))
  | .binary (.comp op) l r =>
    accepts l (compareMask op) = true → accepts r (compareMask op) = true →
      comparable (resultType l) (resultType r) = true →
      ∀ c d, Leaves l c → Leaves r d → denote e = some (.bool (compareRaw op c d))
  | _ => True

end Eolian
