/-
The parser of expressions, `parse_expr`.

`parse_expr_bin` reads an operand and then, in a loop, operators that bind at least as tightly as
it was asked for, each with a right operand that binds more tightly.  What is read at each point is
told by the print of a tree: `exprTokens` puts parentheses only around an operator that stands in a
place for a tighter one.  After the tokens of a left operand the loop stands before the rest with
that operand in hand, whatever the rest is; this carries the whole proof.
-/
import Efl.Eolian.Expr.Basic

namespace Eolian

open MachineInt List

/-- The tokens of an expression; `ch` is a token of one character. -/
inductive Token where
  | ch (c : Char)
  | eq | nq | ge | le | and | or | lsh | rsh
  | string (s : Text)
  | char (c : UInt8)
  | number (type : IntType) (value : BitVec 64)
  | float (value : BitVec 64)
  | double (value : BitVec 64)
  | value (s : Text)
  deriving DecidableEq, Repr

/-- Why a token is not taken. -/
inductive ParseError where
  /-- `error_expected` -/
  | expected (token : Token)
  /-- `error_expected` for a `TOK_VALUE` -/
  | expectedValue
  | invalidName
  | unexpectedSymbol
  /-- The model was given too little fuel. -/
  | unfinished
  deriving DecidableEq, Repr

abbrev Parsed (α : Type) := Except ParseError (α × List Token)

/-- `test_next` -/
def testNext (token : Token) : List Token → Option (List Token)
  | [] => none
  | t :: ts => if t = token then some ts else none

/-! ### Names -/

/-- The bytes of an ASCII string. -/
def text (s : String) : Text := s.toList.map fun c => UInt8.ofNat c.toNat

/-- The keywords from `byte` to the one before `true`. -/
def typeKeywords : List String :=
  ["byte", "ubyte", "char", "short", "ushort", "int", "uint", "long", "ulong", "llong", "ullong",
    "int8", "uint8", "int16", "uint16", "int32", "uint32", "int64", "uint64", "int128", "uint128",
    "size", "ssize", "intptr", "uintptr", "ptrdiff", "time", "float", "double", "bool",
    "slice", "rw_slice", "void", "accessor", "array", "future", "iterator", "list",
    "any_value", "any_value_ref", "binbuf", "event", "mstring", "string", "stringshare", "strbuf",
    "hash", "void_ptr", "function", "__undefined_type"]

/-- `eo_lexer_is_type_keyword`, for the keyword of a name -/
def isTypeKeyword (s : Text) : Bool := typeKeywords.any fun k => text k == s

/-- `'.'` -/
def dot : UInt8 := 46

/-- `parse_name`, with what was read before the name that is to come -/
def parseName : Text → List Token → Parsed Text
  | buf, .value s :: ts =>
    if isTypeKeyword s then .error .invalidName
    else
      match ts with
      | [] => .ok (buf ++ s, [])
      | t :: ts =>
        if t = .ch '.' then parseName (buf ++ s ++ [dot]) ts else .ok (buf ++ s, t :: ts)
  | _, _ => .error .expectedValue

/-! ### Operators -/

/-- `get_binop_id` -/
def getBinopId : Token → Option Binop
  | .ch '+' => some (.arith .add)
  | .ch '-' => some (.arith .sub)
  | .ch '*' => some (.arith .mul)
  | .ch '/' => some (.arith .div)
  | .ch '%' => some (.arith .mod)
  | .eq => some (.comp .eq)
  | .nq => some (.comp .nq)
  | .ch '>' => some (.comp .gt)
  | .ch '<' => some (.comp .lt)
  | .ge => some (.comp .ge)
  | .le => some (.comp .le)
  | .and => some (.comp .and)
  | .or => some (.comp .or)
  | .ch '&' => some (.arith .band)
  | .ch '|' => some (.arith .bor)
  | .ch '^' => some (.arith .bxor)
  | .lsh => some (.arith .lsh)
  | .rsh => some (.arith .rsh)
  | _ => none

/-- `get_unop_id` -/
def getUnopId : Token → Option Unop
  | .ch '-' => some .unm
  | .ch '+' => some .unp
  | .ch '!' => some .not
  | .ch '~' => some .bnot
  | _ => none

def binprec : Binop → Nat
  | .arith .add | .arith .sub => 8
  | .arith .mul | .arith .div | .arith .mod => 9
  | .comp .eq | .comp .nq | .comp .gt | .comp .lt | .comp .ge | .comp .le => 3
  | .comp .and => 2
  | .comp .or => 1
  | .arith .band => 6
  | .arith .bor => 4
  | .arith .bxor => 5
  | .arith .lsh | .arith .rsh => 7

def unaryPrecedence : Nat := 10

/-! ### Expressions -/

/-- `parse_expr_simple`, given `parse_expr_bin` -/
def parseExprSimple (bin : Nat → List Token → Parsed Expr) : List Token → Parsed Expr
  | [] => .error .unexpectedSymbol
  | t :: ts =>
    match getUnopId t with
    | some unop =>
      match bin unaryPrecedence ts with
      | .error e => .error e
      | .ok (exp, ts) => .ok (.unary unop exp, ts)
    | none =>
      match t with
      | .number type v => .ok (.number type v, ts)
      | .float v => .ok (.float v, ts)
      | .double v => .ok (.double v, ts)
      | .string s => .ok (.string s, ts)
      | .char c => .ok (.char c, ts)
      | .value s =>
        if s = text "true" then .ok (.bool true, ts)
        else if s = text "false" then .ok (.bool false, ts)
        else if s = text "null" then .ok (.null, ts)
        else
          match parseName [] (.value s :: ts) with
          | .error e => .error e
          | .ok (name, ts) => .ok (.name name, ts)
      | .ch c =>
        if c = '(' then
          match bin 1 ts with
          | .error e => .error e
          | .ok (exp, ts) =>
            match testNext (.ch ')') ts with
            | none => .error (.expected (.ch ')'))
            | some ts => .ok (exp, ts)
        else .error .unexpectedSymbol
      | _ => .error .unexpectedSymbol

/-- The loop of `parse_expr_bin`, with the operand that was read before -/
def parseExprLoop (bin : Nat → List Token → Parsed Expr) (minPrec : Nat) :
    Nat → Expr → List Token → Parsed Expr
  | 0, _, _ => .error .unfinished
  | _ + 1, lhs, [] => .ok (lhs, [])
  | k + 1, lhs, t :: ts =>
    match getBinopId t with
    | none => .ok (lhs, t :: ts)
    | some op =>
      if binprec op < minPrec then .ok (lhs, t :: ts)
      else
        match bin (binprec op + 1) ts with
        | .error e => .error e
        | .ok (rhs, ts) => parseExprLoop bin minPrec k (.binary op lhs rhs) ts

/-- `parse_expr_bin`; a round of the loop takes a token at least. -/
def parseExprBin : Nat → Nat → List Token → Parsed Expr
  | 0, _, _ => .error .unfinished
  | n + 1, minPrec, ts =>
    match parseExprSimple (parseExprBin n) ts with
    | .error e => .error e
    | .ok (lhs, ts) => parseExprLoop (parseExprBin n) minPrec (ts.length + 1) lhs ts

/-- `parse_expr` -/
def parseExpr (ts : List Token) : Parsed Expr := parseExprBin (ts.length + 1) 1 ts

/-! ### The tokens of a tree -/

/-- The token of an operator. -/
def binopToken : Binop → Token
  | .arith .add => .ch '+'
  | .arith .sub => .ch '-'
  | .arith .mul => .ch '*'
  | .arith .div => .ch '/'
  | .arith .mod => .ch '%'
  | .comp .eq => .eq
  | .comp .nq => .nq
  | .comp .gt => .ch '>'
  | .comp .lt => .ch '<'
  | .comp .ge => .ge
  | .comp .le => .le
  | .comp .and => .and
  | .comp .or => .or
  | .arith .band => .ch '&'
  | .arith .bor => .ch '|'
  | .arith .bxor => .ch '^'
  | .arith .lsh => .lsh
  | .arith .rsh => .rsh

def unopToken : Unop → Token
  | .unm => .ch '-'
  | .unp => .ch '+'
  | .not => .ch '!'
  | .bnot => .ch '~'

/-- The parts of a name between its dots. -/
def nameParts (s : Text) : List Text := s.splitOn dot

/-- The tokens of a name. -/
def nameTokens : List Text → List Token
  | [] => []
  | [s] => [.value s]
  | s :: rest => .value s :: .ch '.' :: nameTokens rest

/-- The tokens of a tree in a place for operators that bind at least as tightly as `minPrec`. -/
def exprTokens : Expr → Nat → List Token
  | .number type v, _ => [.number type v]
  | .float v, _ => [.float v]
  | .double v, _ => [.double v]
  | .string s, _ => [.string s]
  | .char c, _ => [.char c]
  | .null, _ => [.value (text "null")]
  | .bool b, _ => [.value (text (if b then "true" else "false"))]
  | .name s, _ => nameTokens (nameParts s)
  | .unary unop e, _ => unopToken unop :: exprTokens e unaryPrecedence
  | .binary op l r, minPrec =>
    let body := exprTokens l (binprec op) ++ binopToken op :: exprTokens r (binprec op + 1)
    if binprec op < minPrec then .ch '(' :: (body ++ [.ch ')']) else body

/-- A name of a tree is not written like a type, nor begins like a literal. -/
def NameOk (s : Text) : Prop :=
  (∀ part ∈ nameParts s, isTypeKeyword part = false) ∧
    ∀ part ∈ (nameParts s).head?, part ≠ text "true" ∧ part ≠ text "false" ∧ part ≠ text "null"

/-- All names of a tree can be written. -/
def NamesOk (e : Expr) : Prop := ∀ s, .name s ∈ e.parts → NameOk s

/-- The rest does not go on with a tighter operator than the place allows, nor with a name. -/
def Stops (minPrec : Nat) (rest : List Token) : Prop :=
  ∀ t ∈ rest.head?, t ≠ .ch '.' ∧ ∀ op, getBinopId t = some op → binprec op ≤ minPrec

variable (op : Binop)

theorem getBinopId_binopToken : getBinopId (binopToken op) = some op := by
  cases op with
  | arith op => cases op <;> rfl
  | comp op => cases op <;> rfl

theorem getUnopId_unopToken (op : Unop) : getUnopId (unopToken op) = some op := by
  cases op <;> rfl

theorem binprec_lt : binprec op < unaryPrecedence := by
  cases op with
  | arith op => cases op <;> decide
  | comp op => cases op <;> decide

theorem one_le_binprec : 1 ≤ binprec op := by
  cases op with
  | arith op => cases op <;> decide
  | comp op => cases op <;> decide

theorem binopToken_ne_dot : binopToken op ≠ .ch '.' := by
  cases op with
  | arith op => cases op <;> decide
  | comp op => cases op <;> decide

theorem stops_binop (rest : List Token) :
    Stops (binprec op) (binopToken op :: rest) := by
  intro t ht
  obtain rfl := Option.some.inj ht
  refine ⟨binopToken_ne_dot op, ?_⟩
  intro op' hop
  rw [getBinopId_binopToken] at hop
  rw [Option.some.inj hop]

theorem stops_close (minPrec : Nat) (rest : List Token) : Stops minPrec (.ch ')' :: rest) := by
  intro t ht
  obtain rfl := Option.some.inj ht
  exact ⟨by decide, fun op hop => absurd hop (by simp [getBinopId])⟩

theorem Stops.mono {p q : Nat} {rest : List Token} (h : Stops p rest) (hpq : p ≤ q) :
    Stops q rest := by
  intro t ht
  obtain ⟨hdot, hprec⟩ := h t ht
  exact ⟨hdot, fun op hop => le_trans (hprec op hop) hpq⟩

/-! ### Reading the print -/

section

variable {bin : Nat → List Token → Parsed Expr} {rest : List Token} {ts : List Token} {e : Expr}
  (s : Text)

theorem parseExprLoop_stop {p m k : Nat} {lhs : Expr} (h : Stops m rest) (hlt : m < p) :
    parseExprLoop bin p (k + 1) lhs rest = .ok (lhs, rest) := by
  cases rest with
  | nil => rfl
  | cons t ts =>
    unfold parseExprLoop
    cases hop : getBinopId t with
    | none => rfl
    | some op =>
      have hle := (h t rfl).2 op hop
      dsimp only
      rw [if_pos (lt_of_le_of_lt hle hlt)]

theorem parseExprLoop_step {p k : Nat} {lhs rhs : Expr} {op : Binop}
    (hp : p ≤ binprec op) (hbin : bin (binprec op + 1) ts = .ok (rhs, rest)) :
    parseExprLoop bin p (k + 1) lhs (binopToken op :: ts) =
      parseExprLoop bin p k (.binary op lhs rhs) rest := by
  rw [parseExprLoop, getBinopId_binopToken]
  dsimp only
  rw [if_neg (not_lt.mpr hp), hbin]

theorem getUnopId_open : getUnopId (.ch '(') = none := by decide

theorem parseExprSimple_unary {unop : Unop}
    (hbin : bin unaryPrecedence ts = .ok (e, rest)) :
    parseExprSimple bin (unopToken unop :: ts) = .ok (.unary unop e, rest) := by
  unfold parseExprSimple
  dsimp only
  rw [getUnopId_unopToken]
  rw [hbin]

theorem parseExprSimple_paren
    (hbin : bin 1 ts = .ok (e, .ch ')' :: rest)) :
    parseExprSimple bin (.ch '(' :: ts) = .ok (e, rest) := by
  unfold parseExprSimple
  dsimp only
  rw [getUnopId_open]
  rw [if_pos rfl, hbin]
  dsimp only
  rw [testNext, if_pos rfl]

/-- The tokens of a name are read as the name. -/
theorem parseName_nameTokens (h : ∀ t ∈ rest.head?, t ≠ .ch '.') : ∀ (parts : List Text)
    (buf : Text), parts ≠ [] → (∀ part ∈ parts, isTypeKeyword part = false) →
      parseName buf (nameTokens parts ++ rest) = .ok (buf ++ [dot].intercalate parts, rest) := by
  intro parts
  induction parts with
  | nil =>
    intro buf hne
    exact absurd rfl hne
  | cons s parts ih =>
    intro buf _ hok
    have hs : isTypeKeyword s = false := hok s mem_cons_self
    cases parts with
    | nil =>
      show parseName buf (.value s :: rest) = _
      unfold parseName
      rw [hs, if_neg (by simp)]
      have hone : [dot].intercalate [s] = s := by simp
      rw [hone]
      cases rest with
      | nil => rfl
      | cons t ts =>
        dsimp only
        rw [if_neg (h t rfl)]
    | cons s' parts =>
      show parseName buf (.value s :: .ch '.' :: (nameTokens (s' :: parts) ++ rest)) = _
      unfold parseName
      rw [hs]
      dsimp only
      rw [ih (buf ++ s ++ [dot]) (by simp) fun part hp => hok part (mem_cons_of_mem _ hp)]
      simp

theorem intercalate_nameParts : [dot].intercalate (nameParts s) = s :=
  intercalate_splitOn dot

theorem nameParts_ne_nil : nameParts s ≠ [] := splitOn_ne_nil dot s

theorem parseExprSimple_name {s : Text} (hs : NameOk s) (h : ∀ t ∈ rest.head?, t ≠ .ch '.') :
    parseExprSimple bin (nameTokens (nameParts s) ++ rest) = .ok (.name s, rest) := by
  obtain ⟨hparts, hhead⟩ := hs
  have hname := parseName_nameTokens h (nameParts s) [] (nameParts_ne_nil s) hparts
  rw [intercalate_nameParts, nil_append] at hname
  obtain ⟨part, parts, heq⟩ := exists_cons_of_ne_nil (nameParts_ne_nil s)
  obtain ⟨htrue, hfalse, hnull⟩ := hhead part (by rw [heq]; rfl)
  have hcons : ∃ ts, nameTokens (nameParts s) ++ rest = .value part :: ts := by
    rw [heq]
    cases parts with
    | nil => exact ⟨_, rfl⟩
    | cons s' parts => exact ⟨_, rfl⟩
  obtain ⟨ts, hts⟩ := hcons
  rw [hts] at hname ⊢
  unfold parseExprSimple
  dsimp only
  rw [show getUnopId (.value part) = none from rfl]
  rw [if_neg htrue, if_neg hfalse, if_neg hnull, hname]

end

variable {e : Expr}

theorem parseExprBin_of_simple {n p : Nat} {ts rest : List Token}
    (h : parseExprSimple (parseExprBin n) ts = .ok (e, rest)) :
    ∃ k, parseExprBin (n + 1) p ts = parseExprLoop (parseExprBin n) p (k + 1) e rest ∧
      rest.length ≤ k := by
  refine ⟨rest.length, ?_, le_rfl⟩
  rw [parseExprBin, h]

/-- After the tokens of `e` the loop stands before the rest with `e` in hand. -/
def Reads (e : Expr) (n p m : Nat) (rest : List Token) : Prop :=
  ∃ k, parseExprBin (n + 1) p (exprTokens e m ++ rest) =
    parseExprLoop (parseExprBin n) p (k + 1) e rest ∧ rest.length ≤ k

theorem Reads.stop {n p m : Nat} {rest : List Token} (h : Reads e n p m rest) {q : Nat}
    (hrest : Stops q rest) (hlt : q < p) :
    parseExprBin (n + 1) p (exprTokens e m ++ rest) = .ok (e, rest) := by
  obtain ⟨k, hk, -⟩ := h
  rw [hk, parseExprLoop_stop hrest hlt]

/-- **What is read of the print of a tree.** -/
theorem reads_exprTokens : ∀ (e : Expr) (n p m : Nat) (rest : List Token), NamesOk e →
    p ≤ m → 1 ≤ m → Stops m rest → (exprTokens e m).length ≤ n → Reads e n p m rest := by
  intro e
  induction e with
  | number type v => exact fun _ _ _ _ _ _ _ _ _ => parseExprBin_of_simple rfl
  | float v => exact fun _ _ _ _ _ _ _ _ _ => parseExprBin_of_simple rfl
  | double v => exact fun _ _ _ _ _ _ _ _ _ => parseExprBin_of_simple rfl
  | string s => exact fun _ _ _ _ _ _ _ _ _ => parseExprBin_of_simple rfl
  | char c => exact fun _ _ _ _ _ _ _ _ _ => parseExprBin_of_simple rfl
  | null => exact fun _ _ _ _ _ _ _ _ _ => parseExprBin_of_simple rfl
  | bool b =>
    intro n p m rest _ _ _ _ _
    cases b with
    | false => exact parseExprBin_of_simple rfl
    | true => exact parseExprBin_of_simple rfl
  | name s =>
    intro n p m rest hnames _ _ hstops _
    refine parseExprBin_of_simple (parseExprSimple_name (hnames s (Expr.mem_parts _)) ?_)
    exact fun t ht => (hstops t ht).1
  | unary unop e ih =>
    intro n p m rest hnames _ _ hstops hlen
    obtain ⟨n, rfl⟩ : ∃ n', n = n' + 1 := by
      refine Nat.exists_eq_add_one.mpr ?_
      rw [exprTokens, length_cons] at hlen
      omega
    have hlen' : (exprTokens e unaryPrecedence).length ≤ n := by
      rw [exprTokens, length_cons] at hlen
      omega
    have hnames' : NamesOk e := fun s hs => hnames s (mem_cons_of_mem _ hs)
    -- no operator binds as tightly as the operand is read
    have hbelow : Stops (unaryPrecedence - 1) rest := by
      intro t ht
      refine ⟨(hstops t ht).1, fun op _ => ?_⟩
      exact Nat.le_pred_of_lt (binprec_lt op)
    have hread := ih n unaryPrecedence unaryPrecedence rest hnames' (le_rfl) (by decide)
      (hbelow.mono (by decide)) hlen'
    exact parseExprBin_of_simple
      (parseExprSimple_unary (hread.stop hbelow (by decide)))
  | binary op l r ihl ihr =>
    have hl : ∀ {s}, .name s ∈ l.parts → .name s ∈ (Expr.binary op l r).parts := fun hs =>
      mem_cons_of_mem _ (mem_append_left _ hs)
    have hr : ∀ {s}, .name s ∈ r.parts → .name s ∈ (Expr.binary op l r).parts := fun hs =>
      mem_cons_of_mem _ (mem_append_right _ hs)
    -- without parentheses
    have hbody : ∀ (n p m : Nat) (rest : List Token), NamesOk (.binary op l r) → p ≤ m →
        m ≤ binprec op → Stops m rest → (exprTokens l (binprec op) ++ binopToken op ::
          exprTokens r (binprec op + 1)).length ≤ n →
        ∃ k, parseExprBin (n + 1) p (exprTokens l (binprec op) ++ binopToken op ::
            exprTokens r (binprec op + 1) ++ rest) =
          parseExprLoop (parseExprBin n) p (k + 1) (.binary op l r) rest ∧ rest.length ≤ k := by
      intro n p m rest hnames hpm hmq hstops hlen
      rw [length_append, length_cons] at hlen
      obtain ⟨n, rfl⟩ : ∃ n', n = n' + 1 := Nat.exists_eq_add_one.mpr (by omega)
      obtain ⟨k, hk, hlong⟩ := ihl (n + 1) p (binprec op)
        (binopToken op :: (exprTokens r (binprec op + 1) ++ rest)) (fun s hs => hnames s (hl hs))
        (le_trans hpm hmq) (one_le_binprec op) (stops_binop op _) (by omega)
      have hread := ihr n (binprec op + 1) (binprec op + 1) rest (fun s hs => hnames s (hr hs))
        (le_rfl) (Nat.le_add_left 1 _) (hstops.mono (Nat.le_succ_of_le hmq)) (by omega)
      rw [length_cons, length_append] at hlong
      obtain ⟨k, rfl⟩ : ∃ k', k = k' + 1 := Nat.exists_eq_add_one.mpr (by omega)
      refine ⟨k, ?_, by omega⟩
      rw [append_assoc, cons_append, hk]
      exact parseExprLoop_step (le_trans hpm hmq)
        (hread.stop (hstops.mono hmq) (Nat.lt_succ_self _))
    intro n p m rest hnames hpm hm hstops hlen
    unfold Reads
    rw [exprTokens] at hlen ⊢
    by_cases hlt : binprec op < m
    · rw [if_pos hlt] at hlen ⊢
      rw [length_cons, length_append] at hlen
      obtain ⟨n, rfl⟩ : ∃ n', n = n' + 1 := Nat.exists_eq_add_one.mpr (by omega)
      obtain ⟨k, hk, -⟩ := hbody n 1 1 (.ch ')' :: rest) hnames (le_rfl)
        (one_le_binprec op) (stops_close _ _) (by omega)
      rw [cons_append, append_assoc]
      exact parseExprBin_of_simple (parseExprSimple_paren hk)
    · rw [if_neg hlt] at hlen ⊢
      exact hbody n p m rest hnames hpm (Nat.le_of_not_lt hlt) hstops hlen

/-- **The tokens of a tree are read as the tree**, up to a rest that does not go on. -/
theorem parseExpr_exprTokens (e : Expr) (hnames : NamesOk e) (rest : List Token)
    (hrest : Stops 0 rest) : parseExpr (exprTokens e 1 ++ rest) = .ok (e, rest) := by
  have hread := reads_exprTokens e (exprTokens e 1 ++ rest).length 1 1 rest hnames (le_rfl)
    (le_rfl) (hrest.mono (by decide)) (by rw [length_append]; omega)
  exact hread.stop hrest (by decide)

/-- `-a.b * (1 + 2);` -/
theorem parseExpr_exprTokens_product :
    parseExpr (exprTokens (.binary (.arith .mul) (.unary .unm (.name (text "a.b")))
        (.binary (.arith .add) (.number .int 1) (.number .int 2))) 1 ++ [.ch ';']) =
      .ok (.binary (.arith .mul) (.unary .unm (.name (text "a.b")))
        (.binary (.arith .add) (.number .int 1) (.number .int 2)), [.ch ';']) := by
  refine parseExpr_exprTokens _ ?_ [.ch ';'] ?_
  · intro s hs
    simp only [Expr.parts, mem_cons, mem_append, reduceCtorEq, Expr.name.injEq,
      not_mem_nil, or_false, false_or] at hs
    subst hs
    exact ⟨by decide, by decide⟩
  · intro t ht
    obtain rfl := Option.some.inj ht
    exact ⟨by decide, fun op hop => absurd hop (by simp [getBinopId])⟩

end Eolian
