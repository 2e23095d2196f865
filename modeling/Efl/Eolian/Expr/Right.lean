/-
When the evaluator computes what C computes.

Arithmetic is right everywhere, and a truth value is not accepted as an operand of it.  So what can
go wrong is what the comparisons, the logical operators and `!` do: they compare the members `ull`
of two unions without a promotion, whatever has been written to them.  The value of an expression
is right, with the values of all its parts, exactly when each of these operators agrees with C on
every content that the unions of its operands can have.
-/
import Efl.Eolian.Expr.Meaning

namespace Eolian

open MachineInt List Option

/-! ### Promotion -/

/-- The union of a side after it has been promoted to `p`. -/
def promoted (p s : IntType) (c : BitVec 64) : BitVec 64 :=
  if s = p then c else store c (cast s.signed p.width (load s.width c))

theorem promote_int (fpu : Fpu) (s t : IntType) (c d : BitVec 64) :
    promote fpu ⟨.int s, c⟩ ⟨.int t, d⟩
      = .ok (⟨.int (promoteType s t), promoted (promoteType s t) s c⟩,
          ⟨.int (promoteType s t), promoted (promoteType s t) t d⟩) := by
  cases s <;> cases t <;> rfl

theorem value_promoted (p s : IntType) (c : BitVec 64) :
    value p.signed (load p.width (promoted p s c))
      = wrap p.signed p.width (value s.signed (load s.width c)) := by
  by_cases h : s = p
  · rw [promoted, if_pos h, h, wrap_value]
  · rw [promoted, if_neg h, load_store p.width_le, value_cast]

/-! ### One operator -/

/-- The number that the member of an integer type holds. -/
def number (t : IntType) (c : BitVec 64) : Value :=
  .num t (value t.signed (load t.width c))

theorem store_value (c : BitVec 64) (t : IntType) (x : BitVec t.width) :
    (Value.num t (value t.signed x)).store c = store c x := by
  rw [Value.store, ofInt_value]

variable {fpu : Fpu} {mask : Mask} {c : BitVec 64} {lhs rhs : Mask → Except Fault Out} {t : IntType}

theorem evalBinary_arith {op : Op} {out d : BitVec 64} {s : IntType}
    (hmask : mask.allows .number = true) (hl : lhs (arithMask op mask) = .ok ⟨.int s, c⟩)
    (hr : rhs (arithMask op mask) = .ok ⟨.int t, d⟩) :
    evalBinary fpu (.arith op) mask out lhs rhs
      = match binaryMeaning (.arith op) (number s c) (number t d) with
        | some v => .ok ⟨v.type, v.store out⟩
        | none => .error .undefined := by
  have happly := apply_value (promoteType s t).signed (promoteType s t).one_lt_width op
    (load _ (promoted (promoteType s t) s c)) (load _ (promoted (promoteType s t) t d))
  rw [value_promoted, value_promoted] at happly
  have hmeaning : binaryMeaning (.arith op) (number s c) (number t d)
      = (meaning (promoteType s t).signed (promoteType s t).width op
          (wrap _ _ (value s.signed (load s.width c)))
          (wrap _ _ (value t.signed (load t.width d)))).map (.num (promoteType s t)) := rfl
  rw [hmeaning, ← happly, evalBinary, evalPromoteNum, if_pos hmask, hl, hr]
  show (promote fpu ⟨.int s, c⟩ ⟨.int t, d⟩).bind _ = _
  rw [promote_int]
  show applyArith fpu op out ⟨.int _, _⟩ ⟨.int _, _⟩ = _
  simp only [applyArith]
  cases apply _ op (load _ (promoted (promoteType s t) s c))
      (load _ (promoted (promoteType s t) t d)) with
  | none => rfl
  | some x =>
    show _ = Except.ok (Out.mk (.int (promoteType s t)) ((Value.num _ (value _ x)).store out))
    rw [store_value]

theorem evalUnary_unp {operand : Mask → Except Fault Out} (hmask : mask.allows .signed = true) :
    evalUnary fpu .unp mask operand = operand .signed :=
  if_pos hmask

theorem evalUnary_unm {operand : Mask → Except Fault Out} (hmask : mask.allows .signed = true)
    (ho : operand .signed = .ok ⟨.int t, c⟩) (hsigned : t.signed = true) :
    evalUnary fpu .unm mask operand
      = .ok ⟨.int t, (unaryMeaning .unm (number t c)).store c⟩ := by
  have hmeaning : unaryMeaning .unm (number t c) = number t (store c (-load t.width c)) := by
    show Value.num t _ = Value.num t _
    rw [load_store t.width_le, value_neg]
  rw [hmeaning, number, load_store t.width_le, store_value, evalUnary, if_pos hmask, ho]
  exact if_pos hsigned

theorem evalUnary_bnot {operand : Mask → Except Fault Out} (hmask : mask.allows .int = true)
    (ho : operand .int = .ok ⟨.int t, c⟩) :
    evalUnary fpu .bnot mask operand
      = .ok ⟨.int t, (unaryMeaning .bnot (number t c)).store c⟩ := by
  have hmeaning : unaryMeaning .bnot (number t c) = number t (store c (~~~load t.width c)) := by
    show Value.num t _ = Value.num t _
    rw [load_store t.width_le, value_not]
  rw [hmeaning, number, load_store t.width_le, store_value, evalUnary, if_pos hmask, ho]
  rfl

variable {o : Out}

theorem evalUnary_not {operand : Mask → Except Fault Out} (hmask : mask.allows .bool = true)
    (ho : operand (.number ||| .bool) = .ok o) :
    evalUnary fpu .not mask operand
      = .ok ⟨.bool, (Value.bool (o.value == 0)).store o.value⟩ := by
  rw [evalUnary, if_pos hmask, ho]
  rfl

variable {op : Compare}

theorem evalBinary_comp {out : BitVec 64} {l r : Out} (hmask : mask.allows .bool = true)
    (hl : lhs (compareMask op) = .ok l) (hr : rhs (compareMask op) = .ok r)
    (hc : comparable l.type r.type = true) :
    evalBinary fpu (.comp op) mask out lhs rhs
      = .ok ⟨.bool, (Value.bool (compareRaw op l.value r.value)).store out⟩ := by
  rw [evalBinary, if_pos hmask, hl, hr]
  exact if_pos hc

/-! ### Types -/

theorem operandType_type (v : Value) : operandType v.type = v.operand.1 := by
  cases v <;> rfl

variable {e : Expr} {v : Value}

theorem denote_type (h : denote e = some v) : v.type = resultType e := by
  induction e generalizing v with
  | number t x =>
    cases h
    rfl
  | unary unop e ih =>
    obtain ⟨u, hu, rfl⟩ := map_eq_some_iff.mp h
    have htype := ih hu
    cases unop <;> simp only [resultType, ← htype, operandType_type] <;> rfl
  | binary binop l r ihl ihr =>
    obtain ⟨u, hu, hrest⟩ := bind_eq_some_iff.mp h
    cases binop with
    | arith op =>
      obtain ⟨w, hw, hmean⟩ := bind_eq_some_iff.mp hrest
      obtain ⟨n, -, rfl⟩ := map_eq_some_iff.mp hmean
      simp only [resultType, ← ihl hu, ← ihr hw, operandType_type]
      rfl
    | comp op =>
      cases hs : shortCircuit (.comp op) u with
      | some b =>
        rw [hs] at hrest
        cases hrest
        rfl
      | none =>
        rw [hs] at hrest
        obtain ⟨w, hw, hmean⟩ := bind_eq_some_iff.mp hrest
        cases hmean
        rfl
  | _ => cases h

theorem wrap_wrap (signed : Bool) (w : Nat) (n : Int) :
    wrap signed w (wrap signed w n) = wrap signed w n := by
  rw [wrap, wrap, ofInt_value]

theorem Value.Fits.operand (h : v.Fits) :
    wrap v.operand.1.signed v.operand.1.width v.operand.2 = v.operand.2 := by
  cases v with
  | num t n => exact h
  | bool b => cases b <;> decide

theorem wrap_meaning {signed : Bool} {w : Nat} (hw : 1 < w) {op : Op} {a b n : Int}
    (h : meaning signed w op (wrap signed w a) (wrap signed w b) = some n) :
    wrap signed w n = n := by
  rw [wrap, wrap, ← apply_value signed hw] at h
  obtain ⟨x, -, rfl⟩ := map_eq_some_iff.mp h
  exact wrap_value signed x

/-- **A value is one that its type can hold.** -/
theorem denote_fits (h : denote e = some v) : v.Fits := by
  induction e generalizing v with
  | number t x =>
    cases h
    exact wrap_value t.signed _
  | unary unop e ih =>
    obtain ⟨u, hu, rfl⟩ := map_eq_some_iff.mp h
    cases unop with
    | unp => exact (ih hu).operand
    | unm => exact wrap_wrap _ _ _
    | not => trivial
    | bnot => exact wrap_wrap _ _ _
  | binary binop l r ihl ihr =>
    obtain ⟨u, hu, hrest⟩ := bind_eq_some_iff.mp h
    cases binop with
    | arith op =>
      obtain ⟨w, hw, hmean⟩ := bind_eq_some_iff.mp hrest
      obtain ⟨n, hn, rfl⟩ := map_eq_some_iff.mp hmean
      exact wrap_meaning (IntType.one_lt_width _) hn
    | comp op =>
      have htype := denote_type h
      cases v with
      | num t n => cases htype
      | bool b => trivial
  | _ => cases h

/-! ### What is accepted without truth values is an integer -/

theorem accepts_int (h : accepts e mask = true) (hbool : mask.allows .bool = false) :
    ∃ t, resultType e = .int t := by
  cases e with
  | number t v => exact ⟨t, rfl⟩
  | unary unop e =>
    cases unop with
    | not =>
      rw [accepts, hbool] at h
      exact absurd h Bool.false_ne_true
    | unp => exact ⟨_, rfl⟩
    | unm => exact ⟨_, rfl⟩
    | bnot => exact ⟨_, rfl⟩
  | binary binop l r =>
    cases binop with
    | arith op => exact ⟨_, rfl⟩
    | comp op =>
      rw [accepts, hbool] at h
      exact absurd h Bool.false_ne_true
  | _ => cases h

theorem arithMask_bool (op : Op) (mask : Mask) : (arithMask op mask).allows .bool = false := by
  rw [arithMask]
  split <;> decide

/-- What is left is read as the value of C. -/
theorem Leaves.read (hacc : accepts e mask = true) (h : Leaves e c) :
    ∃ v, denote e = some v ∧ Out.read ⟨resultType e, c⟩ = some v := by
  induction e generalizing mask c with
  | number t x =>
    obtain rfl : c = x := h
    exact ⟨_, rfl, rfl⟩
  | unary unop e ih =>
    cases unop with
    | unp =>
      simp only [accepts, Bool.and_eq_true] at hacc
      obtain ⟨t, ht⟩ := accepts_int hacc.2 (by decide)
      obtain ⟨v, hv, hread⟩ := ih hacc.2 h
      rw [ht] at hread
      cases hread
      have htype : resultType (.unary .unp e) = .int t := by
        show ValueType.int (operandType (resultType e)) = _
        rw [ht]
        rfl
      refine ⟨_, ?_, by rw [htype]; rfl⟩
      rw [denote, hv]
      rfl
    | unm | not | bnot =>
      obtain ⟨d, v, -, hv, rfl⟩ := h
      refine ⟨v, hv, ?_⟩
      rw [← denote_type hv]
      exact Value.read_store (denote_fits hv) d
  | binary binop l r ihl ihr =>
    obtain ⟨-, -, d, v, hv, rfl⟩ := h
    refine ⟨v, hv, ?_⟩
    rw [← denote_type hv]
    exact Value.read_store (denote_fits hv) d
  | _ => cases hacc

theorem Leaves.number (hacc : accepts e mask = true) (hbool : mask.allows .bool = false)
    (h : Leaves e c) :
    ∃ t, resultType e = .int t ∧ denote e = some (number t c) := by
  obtain ⟨t, ht⟩ := accepts_int hacc hbool
  obtain ⟨v, hv, hread⟩ := h.read hacc
  rw [ht] at hread
  cases hread
  exact ⟨t, ht, hv⟩

/-! ### What an evaluation leaves -/

theorem ok_of_ite {b : Bool} {x : Except Fault Out} {f : Fault}
    (h : (if b = true then x else .error f) = .ok o) : b = true ∧ x = .ok o := by
  cases b with
  | true => exact ⟨rfl, h⟩
  | false => cases h

theorem ok_of_bind {α : Type} {x : Except Fault α} {f : α → Except Fault Out}
    (h : x.bind f = .ok o) :
    ∃ a, x = .ok a ∧ f a = .ok o := by
  cases x with
  | ok a => exact ⟨a, rfl, h⟩
  | error e => cases h

theorem evalPromoteNum_ok {emask : Mask} {f : Out × Out → Except Fault Out}
    (h : (evalPromoteNum fpu mask emask lhs rhs).bind f = .ok o) :
    mask.allows .number = true ∧ (∃ l, lhs emask = .ok l) ∧ ∃ r, rhs emask = .ok r := by
  obtain ⟨p, hp, -⟩ := ok_of_bind h
  rw [evalPromoteNum] at hp
  by_cases hmask : mask.allows .number = true
  · rw [if_pos hmask] at hp
    cases hl : lhs emask with
    | error e =>
      rw [hl] at hp
      cases hp
    | ok l =>
      cases hr : rhs emask with
      | error e =>
        rw [hl, hr] at hp
        cases hp
      | ok r => exact ⟨hmask, ⟨l, rfl⟩, r, rfl⟩
  · rw [if_neg hmask] at hp
    cases hp

/-- The comparisons in an expression agree with C. -/
def AllCompare (e : Expr) : Prop := ∀ p ∈ e.parts, Compares p

variable {unop : Unop}

theorem AllCompare.operand (h : AllCompare (.unary unop e)) :
    AllCompare e :=
  fun p hp => h p (mem_cons_of_mem _ hp)

variable {binop : Binop} {l r : Expr}

theorem AllCompare.left (h : AllCompare (.binary binop l r)) :
    AllCompare l :=
  fun p hp => h p (mem_cons_of_mem _ (mem_append_left _ hp))

theorem AllCompare.right (h : AllCompare (.binary binop l r)) :
    AllCompare r :=
  fun p hp => h p (mem_cons_of_mem _ (mem_append_right _ hp))

/-- What an evaluation leaves in its variable, when the comparisons agree with C. -/
def LeavesIn (e : Expr) (mask : Mask) (o : Out) : Prop :=
  accepts e mask = true ∧ o.type = resultType e ∧ Leaves e o.value

theorem LeavesIn.number (h : LeavesIn e mask o) (hbool : mask.allows .bool = false) :
    ∃ t c, o = ⟨.int t, c⟩ ∧ resultType e = .int t ∧ denote e = some (Eolian.number t c) := by
  obtain ⟨hacc, htype, hleaves⟩ := h
  obtain ⟨t, ht, hd⟩ := hleaves.number hacc hbool
  refine ⟨t, o.value, ?_, ht, hd⟩
  rw [← ht, ← htype]

variable {env : Env} {junk : Junk} {x : Expr}

/-- What a unary operator leaves in its union. -/
theorem unary_leaves (hc : Compares (.unary unop e))
    (ih : ∀ {junk mask o}, evalExp env e junk mask = .ok o → LeavesIn e mask o)
    (h : evalExp env (.unary unop e) junk mask = .ok o) : LeavesIn (.unary unop e) mask o := by
  rw [evalExp] at h
  cases unop with
  | unp =>
    obtain ⟨hmask, hexp⟩ := ok_of_ite h
    have hl := ih hexp
    obtain ⟨t, c, rfl, ht, -⟩ := hl.number (by decide)
    refine ⟨?_, ?_, hl.2.2⟩
    · rw [accepts, hmask, hl.1]
      rfl
    · show ValueType.int t = .int (operandType (resultType e))
      rw [ht]
      rfl
  | unm =>
    obtain ⟨hmask, hbind⟩ := ok_of_ite h
    obtain ⟨exp, hexp, hrest⟩ := ok_of_bind hbind
    have hl := ih hexp
    obtain ⟨t, c, rfl, ht, hd⟩ := hl.number (by decide)
    have hsigned : t.signed = true := by
      by_contra hne
      simp only [if_neg hne] at hrest
      cases hrest
    rw [evalUnary_unm hmask hexp hsigned] at h
    cases h
    refine ⟨?_, ?_, ?_⟩
    · rw [accepts, hmask, hl.1, ht]
      exact hsigned
    · show ValueType.int t = .int (operandType (resultType e))
      rw [ht]
      rfl
    · exact ⟨c, _, hl.2.2, by rw [denote, hd]; rfl, rfl⟩
  | not =>
    obtain ⟨hmask, hbind⟩ := ok_of_ite h
    obtain ⟨exp, hexp, -⟩ := ok_of_bind hbind
    have hl := ih hexp
    rw [evalUnary_not hmask hexp] at h
    cases h
    refine ⟨?_, rfl, exp.value, _, hl.2.2, hc hl.1 _ hl.2.2, rfl⟩
    rw [accepts, hmask, hl.1]
    rfl
  | bnot =>
    obtain ⟨hmask, hbind⟩ := ok_of_ite h
    obtain ⟨exp, hexp, -⟩ := ok_of_bind hbind
    have hl := ih hexp
    obtain ⟨t, c, rfl, ht, hd⟩ := hl.number (by decide)
    rw [evalUnary_bnot hmask hexp] at h
    cases h
    refine ⟨?_, ?_, ?_⟩
    · rw [accepts, hmask, hl.1]
      rfl
    · show ValueType.int t = .int (operandType (resultType e))
      rw [ht]
      rfl
    · exact ⟨c, _, hl.2.2, by rw [denote, hd]; rfl, rfl⟩

theorem arith_leaves {op : Op}
    (ihl : ∀ {junk mask o}, evalExp env l junk mask = .ok o → LeavesIn l mask o)
    (ihr : ∀ {junk mask o}, evalExp env r junk mask = .ok o → LeavesIn r mask o)
    (h : evalExp env (.binary (.arith op) l r) junk mask = .ok o) :
    LeavesIn (.binary (.arith op) l r) mask o := by
  rw [evalExp] at h
  obtain ⟨hmask, ⟨x, hx⟩, y, hy⟩ := evalPromoteNum_ok h
  have hl := ihl hx
  have hr := ihr hy
  obtain ⟨s, c, rfl, hs, hdl⟩ := hl.number (arithMask_bool op mask)
  obtain ⟨t, d, rfl, ht, hdr⟩ := hr.number (arithMask_bool op mask)
  rw [evalBinary_arith hmask hx hy] at h
  cases hmean : binaryMeaning (.arith op) (number s c) (number t d) with
  | none =>
    rw [hmean] at h
    cases h
  | some v =>
    rw [hmean] at h
    cases h
    have hd : denote (.binary (.arith op) l r) = some v := by
      rw [denote, hdl, hdr]
      exact hmean
    refine ⟨?_, denote_type hd, ⟨c, hl.2.2⟩, ⟨d, hr.2.2⟩, junk [], v, hd, rfl⟩
    rw [accepts, hmask, hl.1, hr.1]
    rfl

theorem comp_leaves (hc : Compares (.binary (.comp op) l r))
    (ihl : ∀ {junk mask o}, evalExp env l junk mask = .ok o → LeavesIn l mask o)
    (ihr : ∀ {junk mask o}, evalExp env r junk mask = .ok o → LeavesIn r mask o)
    (h : evalExp env (.binary (.comp op) l r) junk mask = .ok o) :
    LeavesIn (.binary (.comp op) l r) mask o := by
  rw [evalExp] at h
  obtain ⟨hmask, hbind⟩ := ok_of_ite h
  obtain ⟨x, hx, hbind'⟩ := ok_of_bind hbind
  obtain ⟨y, hy, hrest⟩ := ok_of_bind hbind'
  obtain ⟨hcomp, -⟩ := ok_of_ite hrest
  have hl := ihl hx
  have hr := ihr hy
  rw [evalBinary_comp hmask hx hy hcomp] at h
  cases h
  rw [hl.2.1, hr.2.1] at hcomp
  refine ⟨?_, rfl, ⟨_, hl.2.2⟩, ⟨_, hr.2.2⟩, junk [], _,
    hc hl.1 hr.1 hcomp _ _ hl.2.2 hr.2.2, rfl⟩
  rw [accepts, hmask, hl.1, hr.1, hcomp]
  rfl

/-- **An evaluation leaves what it should**, when every comparison agrees with C. -/
theorem evalExp_leaves (hi : e.Integral) (hc : AllCompare e) (h : evalExp env e junk mask = .ok o) :
    LeavesIn e mask o := by
  induction e generalizing junk mask o with
  | number t v =>
    obtain ⟨hmask, ho⟩ := ok_of_ite h
    cases ho
    exact ⟨hmask, rfl, rfl⟩
  | unary unop e ih =>
    exact unary_leaves (hc _ (Expr.mem_parts _)) (fun h' => ih hi hc.operand h') h
  | binary binop l r ihl ihr =>
    cases binop with
    | arith op =>
      exact arith_leaves (fun h' => ihl hi.1 hc.left h') (fun h' => ihr hi.2 hc.right h') h
    | comp op =>
      exact comp_leaves (hc _ (Expr.mem_parts _)) (fun h' => ihl hi.1 hc.left h')
        (fun h' => ihr hi.2 hc.right h') h
  | _ => cases hi

/-! ### Everything it could leave is left by some evaluation -/

/-- What variables hold before: `c` in the result's own, and given contents in those
of the operands. -/
def Junk.join (c : BitVec 64) (left right : Junk) : Junk
  | [] => c
  | false :: place => left place
  | true :: place => right place

@[simp] theorem Junk.join_left (c : BitVec 64) (left right : Junk) :
    (Junk.join c left right).sub false = left := rfl

theorem evalExp_unary (h : unop ≠ .unp) (c : BitVec 64) (junk : Junk) (mask : Mask) :
    evalExp env (.unary unop e) (Junk.join c junk junk) mask
      = evalUnary env.fpu unop mask (evalExp env e junk) := by
  rw [evalExp, if_neg h, Junk.join_left]

theorem evalExp_binary (c : BitVec 64) (left right : Junk) (mask : Mask) :
    evalExp env (.binary binop l r) (Junk.join c left right) mask
      = evalBinary env.fpu binop mask c (evalExp env l left) (evalExp env r right) :=
  rfl

/-- **Every content that an accepted expression can leave is left by an evaluation**,
for some content of the variables before. -/
theorem exists_evalExp (hc : AllCompare e) (hacc : accepts e mask = true) (h : Leaves e c) :
    ∃ junk, evalExp env e junk mask = .ok ⟨resultType e, c⟩ := by
  induction e generalizing mask c with
  | number t v =>
    obtain rfl : c = v := h
    exact ⟨fun _ => 0, if_pos hacc⟩
  | unary unop e ih =>
    have hself := hc _ (Expr.mem_parts _)
    cases unop with
    | unp =>
      simp only [accepts, Bool.and_eq_true] at hacc
      obtain ⟨junk, hj⟩ := ih hc.operand hacc.2 h
      obtain ⟨t, ht⟩ := accepts_int hacc.2 (by decide)
      refine ⟨junk, ?_⟩
      rw [evalExp, evalUnary_unp hacc.1, if_pos rfl, hj]
      show Except.ok (Out.mk _ c) = Except.ok (Out.mk (.int (operandType (resultType e))) c)
      rw [ht]
      rfl
    | unm =>
      simp only [accepts, Bool.and_eq_true] at hacc
      obtain ⟨d, v, hd, hv, rfl⟩ := h
      obtain ⟨junk, hj⟩ := ih hc.operand hacc.1.2 hd
      obtain ⟨t, ht, hden⟩ := hd.number hacc.1.2 (by decide)
      rw [ht] at hj
      have hsigned : t.signed = true := by
        have := hacc.2
        rwa [ht] at this
      refine ⟨Junk.join 0 junk junk, ?_⟩
      rw [evalExp_unary (by decide), evalUnary_unm hacc.1.1 hj hsigned]
      rw [denote, hden] at hv
      cases hv
      show Except.ok (Out.mk (.int t) _) = Except.ok (Out.mk (.int (operandType (resultType e))) _)
      rw [ht]
      rfl
    | not =>
      simp only [accepts, Bool.and_eq_true] at hacc
      obtain ⟨d, v, hd, hv, rfl⟩ := h
      obtain ⟨junk, hj⟩ := ih hc.operand hacc.2 hd
      refine ⟨Junk.join 0 junk junk, ?_⟩
      rw [evalExp_unary (by decide), evalUnary_not hacc.1 hj]
      rw [hself hacc.2 d hd] at hv
      cases hv
      rfl
    | bnot =>
      simp only [accepts, Bool.and_eq_true] at hacc
      obtain ⟨d, v, hd, hv, rfl⟩ := h
      obtain ⟨junk, hj⟩ := ih hc.operand hacc.2 hd
      obtain ⟨t, ht, hden⟩ := hd.number hacc.2 (by decide)
      rw [ht] at hj
      refine ⟨Junk.join 0 junk junk, ?_⟩
      rw [evalExp_unary (by decide), evalUnary_bnot hacc.1 hj]
      rw [denote, hden] at hv
      cases hv
      show Except.ok (Out.mk (.int t) _) = Except.ok (Out.mk (.int (operandType (resultType e))) _)
      rw [ht]
      rfl
  | binary binop l r ihl ihr =>
    have hself := hc _ (Expr.mem_parts _)
    obtain ⟨⟨x, hx⟩, ⟨y, hy⟩, d, v, hv, rfl⟩ := h
    cases binop with
    | arith op =>
      simp only [accepts, Bool.and_eq_true] at hacc
      obtain ⟨⟨hmask, hal⟩, har⟩ := hacc
      obtain ⟨jl, hjl⟩ := ihl hc.left hal hx
      obtain ⟨jr, hjr⟩ := ihr hc.right har hy
      obtain ⟨s, hs, hdl⟩ := hx.number hal (arithMask_bool op mask)
      obtain ⟨t, ht, hdr⟩ := hy.number har (arithMask_bool op mask)
      have hmean : binaryMeaning (.arith op) (number s x) (number t y) = some v := by
        rw [denote, hdl, hdr] at hv
        exact hv
      rw [hs] at hjl
      rw [ht] at hjr
      refine ⟨Junk.join d jl jr, ?_⟩
      rw [evalExp_binary, evalBinary_arith hmask hjl hjr, hmean, ← denote_type hv]
    | comp op =>
      simp only [accepts, Bool.and_eq_true] at hacc
      obtain ⟨⟨⟨hmask, hal⟩, har⟩, hcomp⟩ := hacc
      obtain ⟨jl, hjl⟩ := ihl hc.left hal hx
      obtain ⟨jr, hjr⟩ := ihr hc.right har hy
      refine ⟨Junk.join d jl jr, ?_⟩
      rw [evalExp_binary, evalBinary_comp hmask hjl hjr hcomp]
      rw [hself hal har hcomp x y hx hy] at hv
      cases hv
      rfl
  | _ => cases hacc

/-! ### The theorem -/

/-- Whenever the evaluator returns a value for the expression, it is the one that C
assigns to it. -/
def Right (e : Expr) : Prop :=
  ∀ (env : Env) (junk : Junk) (mask : Mask) (o : Out),
    evalExp env e junk mask = .ok o → ∃ v, denote e = some v ∧ o.read = some v

theorem Right.of_allCompare (hi : e.Integral) (hc : AllCompare e) : Right e := by
  intro env junk mask o ho
  obtain ⟨hacc, htype, hleaves⟩ := evalExp_leaves hi hc ho
  obtain ⟨v, hv, hread⟩ := hleaves.read hacc
  rw [← htype] at hread
  exact ⟨v, hv, hread⟩

theorem read_bool (b : Bool) (c : BitVec 64) :
    Out.read ⟨.bool, (Value.bool b).store c⟩ = some (.bool b) :=
  Value.read_store (show (Value.bool b).Fits from trivial) c

theorem exists_comp (env : Env) {d : BitVec 64} (hl : AllCompare l) (hr : AllCompare r)
    (hal : accepts l (compareMask op) = true) (har : accepts r (compareMask op) = true)
    (hcomp : comparable (resultType l) (resultType r) = true) (hc : Leaves l c) (hd : Leaves r d) :
    ∃ junk, evalExp env (.binary (.comp op) l r) junk .bool
      = .ok ⟨.bool, (Value.bool (compareRaw op c d)).store 0⟩ := by
  obtain ⟨jl, hjl⟩ := exists_evalExp hl hal hc
  obtain ⟨jr, hjr⟩ := exists_evalExp hr har hd
  refine ⟨Junk.join 0 jl jr, ?_⟩
  rw [evalExp_binary, evalBinary_comp (by decide) hjl hjr hcomp]

theorem compares_not (h : Right (.unary .not x)) (hc : AllCompare x) :
    Compares (.unary .not x) := by
  intro hacc c hleaves
  obtain ⟨junk, hj⟩ := exists_evalExp hc hacc hleaves
  have heval : evalExp default (.unary .not x) (Junk.join 0 junk junk) .bool =
      .ok ⟨.bool, (Value.bool (c == 0)).store c⟩ := by
    rw [evalExp_unary (by decide), evalUnary_not (by decide) hj]
  obtain ⟨v, hv, hread⟩ := h _ _ _ _ heval
  rw [hv, ← hread]
  exact read_bool _ c

theorem compares_comp (h : Right (.binary (.comp op) l r)) (hl : AllCompare l) (hr : AllCompare r) :
    Compares (.binary (.comp op) l r) := by
  intro hal har hcomp c d hlc hrd
  obtain ⟨junk, heval⟩ := exists_comp default hl hr hal har hcomp hlc hrd
  obtain ⟨v, hv, hread⟩ := h _ _ _ _ heval
  rw [hv, ← hread]
  exact read_bool _ 0

/-- Where everything is right, the comparisons are. -/
theorem allCompare_of_right (h : ∀ p ∈ e.parts, Right p) : AllCompare e := by
  induction e with
  | unary unop e ih =>
    have hbelow := ih fun p hp => h p (mem_cons_of_mem _ hp)
    have hself := h _ (Expr.mem_parts _)
    intro p hp
    rcases mem_cons.mp hp with rfl | hp
    · cases unop with
      | not => exact compares_not hself hbelow
      | unp => trivial
      | unm => trivial
      | bnot => trivial
    · exact hbelow p hp
  | binary binop l r ihl ihr =>
    have hl := ihl fun p hp => h p (mem_cons_of_mem _ (mem_append_left _ hp))
    have hr := ihr fun p hp => h p (mem_cons_of_mem _ (mem_append_right _ hp))
    have hself := h _ (Expr.mem_parts _)
    intro p hp
    rcases mem_cons.mp hp with rfl | hp
    · cases binop with
      | arith op => trivial
      | comp op => exact compares_comp hself hl hr
    · rcases mem_append.mp hp with hp | hp
      · exact hl p hp
      · exact hr p hp
  | _ =>
    intro p hp
    rw [mem_singleton.mp hp]
    trivial

theorem Expr.Integral.part {p : Expr} (h : e.Integral) (hp : p ∈ e.parts) : p.Integral := by
  induction e with
  | unary unop e ih =>
    rcases mem_cons.mp hp with rfl | hp
    · exact h
    · exact ih h hp
  | binary binop l r ihl ihr =>
    rcases mem_cons.mp hp with rfl | hp
    · exact h
    rcases mem_append.mp hp with hp | hp
    · exact ihl h.1 hp
    · exact ihr h.2 hp
  | _ =>
    rw [mem_singleton.mp hp]
    exact h

theorem Expr.parts_trans {p q : Expr} (hp : p ∈ e.parts) (hq : q ∈ p.parts) :
    q ∈ e.parts := by
  induction e with
  | unary unop e ih =>
    rcases mem_cons.mp hp with rfl | hp
    · exact hq
    · exact mem_cons_of_mem _ (ih hp)
  | binary binop l r ihl ihr =>
    rcases mem_cons.mp hp with rfl | hp
    · exact hq
    rcases mem_append.mp hp with hp | hp
    · exact mem_cons_of_mem _ (mem_append_left _ (ihl hp))
    · exact mem_cons_of_mem _ (mem_append_right _ (ihr hp))
  | _ =>
    rw [mem_singleton.mp hp] at hq
    exact hq

theorem right_iff_compares {e : Expr} (hi : e.Integral) :
    (∀ p ∈ e.parts, Right p) ↔ ∀ p ∈ e.parts, Compares p := by
  constructor
  · exact allCompare_of_right
  · intro hc p hp
    exact Right.of_allCompare (hi.part hp) fun q hq => hc q (Expr.parts_trans hp hq)

end Eolian
