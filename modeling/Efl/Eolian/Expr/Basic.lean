/-
Expressions of .eo files.

An expression is a tree of operators over literals and names.  The value of a
number is kept as the eight bytes of the union `Eolian_Value_Union`, since the
evaluator reads one member of it after another has been written.  A string is kept
by its bytes; the union has its address in the string share.
-/
import Efl.Lib.MachineInt

namespace Eolian

open MachineInt

/-- The bytes of a C string. -/
abbrev Text := List UInt8

/-- The integer types, in the order of `Eolian_Expression_Type`. -/
inductive IntType where
  | int | uint | long | ulong | llong | ullong
  deriving DecidableEq, Repr

namespace IntType

/-- The width in bits, where `long` has 64. -/
def width : IntType → Nat
  | .int | .uint => 32
  | .long | .ulong | .llong | .ullong => 64

/-- Whether the type is signed. -/
def signed : IntType → Bool
  | .int | .long | .llong => true
  | .uint | .ulong | .ullong => false

variable (t : IntType)

theorem one_lt_width : 1 < t.width := by
  cases t <;> decide

theorem width_le : t.width ≤ 64 := by
  cases t <;> decide

end IntType

/-- The types of a value, in the order of `Eolian_Expression_Type`. -/
inductive ValueType where
  | int (type : IntType)
  | float | double
  | string | char | null | bool
  deriving DecidableEq, Repr

/-- The type comes before `EOLIAN_EXPR_STRING`. -/
def ValueType.number : ValueType → Bool
  | .int _ | .float | .double => true
  | .string | .char | .null | .bool => false

/-- `Eolian_Unary_Operator`. -/
inductive Unop where
  | unm | unp | not | bnot
  deriving DecidableEq, Repr

/-- The comparisons, and the logical operators, which are evaluated alike. -/
inductive Compare where
  | eq | nq | gt | lt | ge | le | and | or
  deriving DecidableEq, Repr

/-- `Eolian_Binary_Operator`. -/
inductive Binop where
  | arith (op : Op)
  | comp (op : Compare)
  deriving DecidableEq, Repr

/-- `Eolian_Expression`. -/
inductive Expr where
  | number (type : IntType) (value : BitVec 64)
  | float (value : BitVec 64)
  | double (value : BitVec 64)
  | string (s : Text)
  | char (c : UInt8)
  | null
  | bool (b : Bool)
  | name (s : Text)
  | unary (unop : Unop) (expr : Expr)
  | binary (binop : Binop) (lhs rhs : Expr)
  deriving DecidableEq, Repr

namespace Expr

/-- The expression and all that it is made of. -/
def parts : Expr → List Expr
  | .unary op e => .unary op e :: e.parts
  | .binary op l r => .binary op l r :: (l.parts ++ r.parts)
  | e => [e]

theorem mem_parts (e : Expr) : e ∈ e.parts := by
  cases e <;> exact List.mem_cons_self

/-- All literals are integers, and there are no names. -/
def Integral : Expr → Prop
  | .number _ _ => True
  | .unary _ e => e.Integral
  | .binary _ l r => l.Integral ∧ r.Integral
  | _ => False

end Expr

/-! ### Masks and errors -/

/-- `Eolian_Expression_Mask`: the types that are allowed in a place. -/
abbrev Mask := BitVec 7

namespace Mask

def sint : Mask := 1
def uint : Mask := 2
def int : Mask := sint ||| uint
def float : Mask := 4
def bool : Mask := 8
def string : Mask := 16
def char : Mask := 32
def null : Mask := 64
def signed : Mask := sint ||| float
def number : Mask := int ||| float
def all : Mask := number ||| bool ||| string ||| char ||| null

/-- The mask has one of the bits. -/
def allows (mask bits : Mask) : Bool :=
  mask &&& bits != 0

end Mask

/-- The names of the types of a mask, in the order they are written. -/
def maskNames (mask : Mask) : List String :=
  (if mask.allows .sint && mask.allows .uint then ["integer"]
    else if mask.allows .sint then ["signed integer"]
    else if mask.allows .uint then ["unsigned integer"] else [])
  ++ (if mask.allows .float then ["float"] else [])
  ++ (if mask.allows .bool then ["boolean"] else [])
  ++ (if mask.allows .string then ["string"] else [])
  ++ (if mask.allows .char then ["char"] else [])
  ++ (if mask.allows .null then ["null"] else [])

/-- `mask_to_str`. -/
def maskToStr (mask : Mask) : String :=
  String.intercalate "|" (maskNames mask)

/-- `expr_type_to_mask`. -/
def exprTypeToMask : ValueType → Mask
  | .int t => if t.signed then .sint else .uint
  | .float | .double => .float
  | .bool => .bool
  | .string => .string
  | .null => .null
  | .char => .char

/-- Why an evaluation gives no value. -/
inductive Fault where
  /-- An error that is logged. -/
  | error (msg : String)
  /-- A failure without a message. -/
  | refused
  /-- The operation has no result in C, a division by zero for instance. -/
  | undefined
  deriving DecidableEq, Repr, Inhabited

/-- `expr_type_error`. -/
def exprTypeError (type mask : Mask) : Fault :=
  .error ("invalid type (given " ++ maskToStr type ++ ", expected " ++ maskToStr mask ++ ")")

/-- `expr_type_mismatch_error`. -/
def exprTypeMismatchError (lhs rhs : ValueType) : Fault :=
  .error ("mismatched types (" ++ maskToStr (exprTypeToMask lhs) ++ " vs "
    ++ maskToStr (exprTypeToMask rhs) ++ ")")

end Eolian
