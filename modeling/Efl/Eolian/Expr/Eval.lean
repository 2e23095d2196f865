/-
The evaluator of expressions, `eval_exp`.

A value is a type and the eight bytes of an untagged union.  The evaluator keeps its
intermediate values in variables that are not initialized, and an operator writes
only the member of its own type.  What such a variable holds before is given by
`Junk`: one cell for each place of the tree.  Floating-point operations are taken as
given, since nothing here depends on what they compute.
-/
import Efl.Eolian.Expr.Basic

namespace Eolian

open MachineInt

/-- A value: `Eolian_Value`, or an `Eolian_Expression` used as one. -/
structure Out where
  type : ValueType
  value : BitVec 64
  deriving DecidableEq, Repr

/-- What variables hold before they are written, by the place in the tree of the
expression they are for. -/
abbrev Junk := List Bool → BitVec 64

/-- What is held by the variables of the left (`false`) or right operand. -/
def Junk.sub (junk : Junk) (side : Bool) : Junk :=
  fun place => junk (side :: place)

/-- The operations on floating-point numbers, by their bits. -/
structure Fpu where
  ofInt : Bool → Int → BitVec 64
  widen : BitVec 32 → BitVec 64
  neg : Bool → BitVec 64 → BitVec 64
  arith : Bool → Op → BitVec 64 → BitVec 64 → BitVec 64
  deriving Inhabited

/-- What an evaluation takes from outside: floating-point operations, the addresses
of shared strings and the values of names. -/
structure Env where
  fpu : Fpu
  share : Text → BitVec 64
  name : Text → Junk → Mask → Except Fault Out
  deriving Inhabited

/-! ### Promotion -/

/-- `CONVERT`: reads the member of the value's type, converts it, and writes the
member of the new type. -/
def convert (fpu : Fpu) (type : ValueType) (o : Out) : Out :=
  match type, o.type with
  | .int t, .int s =>
    ⟨type, store o.value (cast s.signed t.width (load s.width o.value))⟩
  | .double, .int s =>
    ⟨type, fpu.ofInt true (value s.signed (load s.width o.value))⟩
  | .float, .int s =>
    ⟨type, store o.value (load 32 (fpu.ofInt false (value s.signed (load s.width o.value))))⟩
  | .double, .float => ⟨type, fpu.widen (load 32 o.value)⟩
  -- floating-point types come first in the order, so nothing else is converted
  | _, _ => ⟨type, o.value⟩

/-- The types of `promote` in the order in which it looks for them. -/
def promoteOrder : List ValueType :=
  [.double, .float, .int .ullong, .int .llong, .int .ulong, .int .long, .int .uint, .int .int]

/-- `PROMOTE` for one type: if either side has it, the other is converted. -/
def promoteTo (fpu : Fpu) (type : ValueType) (a b : Out) : Option (Out × Out) :=
  if a.type = type then some (a, convert fpu type b)
  else if b.type = type then some (convert fpu type a, b)
  else none

/-- `promote`. -/
def promote (fpu : Fpu) (a b : Out) : Except Fault (Out × Out) :=
  if a.type.number = false then
    .error (exprTypeError (exprTypeToMask a.type) .number)
  else if b.type.number = false then
    .error (exprTypeError (exprTypeToMask b.type) .number)
  else if a.type = b.type then .ok (a, b)
  else .ok ((promoteOrder.findSome? fun type => promoteTo fpu type a b).getD (a, b))

/-! ### Operators -/

/-- `eval_unary`, given the evaluation of the operand. -/
def evalUnary (fpu : Fpu) (unop : Unop) (mask : Mask) (operand : Mask → Except Fault Out) :
    Except Fault Out :=
  match unop with
  | .unp =>
    if mask.allows .signed then operand .signed else .error (exprTypeError .signed mask)
  | .unm =>
    if mask.allows .signed then
      (operand .signed).bind fun exp =>
        match exp.type with
        | .int t =>
          if t.signed then .ok ⟨exp.type, store exp.value (-load t.width exp.value)⟩
          else .error .refused
        | .float => .ok ⟨exp.type, store exp.value (load 32 (fpu.neg false exp.value))⟩
        | .double => .ok ⟨exp.type, fpu.neg true exp.value⟩
        | .string | .char | .null | .bool => .error .refused
    else .error (exprTypeError .signed mask)
  | .not =>
    if mask.allows .bool then
      (operand (.number ||| .bool)).bind fun exp =>
        .ok ⟨.bool, store exp.value (BitVec.ofBool (exp.value == 0) |>.setWidth 8)⟩
    else .error (exprTypeError .bool mask)
  | .bnot =>
    if mask.allows .int then
      (operand .int).bind fun exp =>
        match exp.type with
        | .int t => .ok ⟨exp.type, store exp.value (~~~load t.width exp.value)⟩
        | .float | .double | .string | .char | .null | .bool => .error .refused
    else .error (exprTypeError .int mask)

/-- `eval_promote_num`. -/
def evalPromoteNum (fpu : Fpu) (mask emask : Mask) (lhs rhs : Mask → Except Fault Out) :
    Except Fault (Out × Out) :=
  if mask.allows .number then
    (lhs emask).bind fun l => (rhs emask).bind fun r => promote fpu l r
  else .error (exprTypeError .number mask)

/-- The operators that `CASE_ARITH` is for, and not `CASE_ARITH_INT`. -/
def takesFloats : Op → Bool
  | .add | .sub | .mul | .div => true
  | .mod | .band | .bor | .bxor | .lsh | .rsh => false

/-- The mask for the operands of `CASE_ARITH` and of `CASE_ARITH_INT`. -/
def arithMask (op : Op) (mask : Mask) : Mask :=
  if takesFloats op && mask.allows .float then .number else .int

/-- `APPLY_NUM` and `APPLY_INT`, with what the result's variable held before. -/
def applyArith (fpu : Fpu) (op : Op) (out : BitVec 64) (lhs rhs : Out) : Except Fault Out :=
  match lhs.type with
  | .int t =>
    match apply t.signed op (load t.width lhs.value) (load t.width rhs.value) with
    | some x => .ok ⟨lhs.type, store out x⟩
    | none => .error .undefined
  | .double =>
    if takesFloats op then .ok ⟨lhs.type, fpu.arith true op lhs.value rhs.value⟩
    else .error .refused
  | .float =>
    if takesFloats op then
      .ok ⟨lhs.type, store out (load 32 (fpu.arith false op lhs.value rhs.value))⟩
    else .error .refused
  | .string | .char | .null | .bool => .error .refused

/-- The types of operands that a comparison allows. -/
def compareMask : Compare → Mask
  | .eq | .nq | .and | .or => .all
  | .gt | .lt | .ge | .le => .number

/-- The operator applied to the members `ull` of both sides. -/
def compareRaw (op : Compare) (l r : BitVec 64) : Bool :=
  match op with
  | .eq => l == r
  | .nq => l != r
  | .gt => r.ult l
  | .lt => l.ult r
  | .ge => r.ule l
  | .le => l.ule r
  | .and => l != 0 && r != 0
  | .or => l != 0 || r != 0

/-- Both sides are numbers, or both have the same type. -/
def comparable (l r : ValueType) : Bool :=
  (l.number && r.number) || l == r

/-- `eval_binary`, given the evaluations of the operands and what the result's
variable held before. -/
def evalBinary (fpu : Fpu) (binop : Binop) (mask : Mask) (out : BitVec 64)
    (lhs rhs : Mask → Except Fault Out) : Except Fault Out :=
  match binop with
  | .arith op =>
    (evalPromoteNum fpu mask (arithMask op mask) lhs rhs).bind fun p =>
      applyArith fpu op out p.1 p.2
  | .comp op =>
    if mask.allows .bool then
      (lhs (compareMask op)).bind fun l => (rhs (compareMask op)).bind fun r =>
        if comparable l.type r.type then
          .ok ⟨.bool, store out (BitVec.ofBool (compareRaw op l.value r.value) |>.setWidth 8)⟩
        else .error (exprTypeMismatchError l.type r.type)
    else .error (exprTypeError .bool mask)

/-! ### Expressions -/

/-- The union of a character or a boolean: the rest of the node was cleared. -/
def smallValue (b : BitVec 8) : BitVec 64 :=
  b.setWidth 64

/-- The case of a literal in `eval_exp`: its type has to be in the mask. -/
def evalLiteral (mask bits : Mask) (o : Out) : Except Fault Out :=
  if mask.allows bits then .ok o else .error (exprTypeError bits mask)

/-- `eval_exp`. -/
@[grind =]
def evalExp (env : Env) : Expr → Junk → Mask → Except Fault Out
  | .number t v, _, mask =>
    evalLiteral mask (if t.signed then .sint else .uint) ⟨.int t, v⟩
  | .float v, _, mask => evalLiteral mask .float ⟨.float, v⟩
  | .double v, _, mask => evalLiteral mask .float ⟨.double, v⟩
  | .string s, _, mask =>
    if mask.allows .string || mask.allows .null then .ok ⟨.string, env.share s⟩
    else .error (exprTypeError .string mask)
  | .null, _, mask => evalLiteral mask .null ⟨.null, 0⟩
  | .char c, _, mask => evalLiteral mask .char ⟨.char, smallValue c.toBitVec⟩
  | .bool b, _, mask =>
    evalLiteral mask .bool ⟨.bool, smallValue (BitVec.ofBool b |>.setWidth 8)⟩
  | .name s, junk, mask => env.name s junk mask
  | .unary unop e, junk, mask =>
    -- a plus sign hands its own variable on to the operand
    evalUnary env.fpu unop mask
      (evalExp env e (if unop = .unp then junk else junk.sub false))
  | .binary binop l r, junk, mask =>
    evalBinary env.fpu binop mask (junk [])
      (evalExp env l (junk.sub false)) (evalExp env r (junk.sub true))

/-- `database_expr_eval`; an empty mask gives no value and no error. -/
def databaseExprEval (env : Env) (expr : Expr) (mask : Mask) (junk : Junk) :
    Except Fault Out :=
  if mask = 0 then .error .refused else evalExp env expr junk mask

end Eolian
