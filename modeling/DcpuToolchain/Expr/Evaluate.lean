import DcpuToolchain.Expr.Lexers

/-!
# Expressions and their values

The expressions that the actions of the grammars build, and `expr_evaluate`
(`libdcpu-pp-expr/ppexpr.c`). The grammars have the same actions where they have the same
rules.
-/

namespace DcpuToolchain

open Precedence

/-- The operations `EXPR_OP_*` with two operands. -/
inductive ExprOp
  | invalid
  | add | subtract | multiply | divide | modulus
  | equals | notEquals | lessThan | lessEquals | greaterThan | greaterEquals
  | and | bor | xor | booleanAnd | booleanOr | booleanXor | leftShift | rightShift
  deriving DecidableEq, Repr

/-- `struct expr`. -/
inductive Expr
  | number (val : BitVec 16)
  | label (name : String)
  | expr (a : Expr) (op : ExprOp) (b : Expr)
  /-- The operation `EXPR_OP_BOOLEAN_NOT`, which has no first operand. -/
  | booleanNot (b : Expr)
  deriving DecidableEq, Repr

/-- Why there is no value. -/
inductive ExprExit
  | labelNotFound (name : String)
  | divideByZero (divisor : Expr)
  /-- A shift by more than the bits of an `int`. -/
  | undefinedShift
  deriving DecidableEq, Repr

/-- A truth value in C. -/
def truth (b : Bool) : BitVec 16 := if b then 1 else 0

/-- The value of an operation, where the divisor is not zero and shifts are defined. -/
def ExprOp.apply (x y : BitVec 16) : ExprOp → BitVec 16
  | invalid => 0
  | add => x + y
  | subtract => x - y
  | multiply => x * y
  | divide => x / y
  | modulus => x % y
  | equals => truth (x = y)
  | notEquals => truth (x ≠ y)
  | lessThan => truth (x < y)
  | lessEquals => truth (x ≤ y)
  | greaterThan => truth (y < x)
  | greaterEquals => truth (y ≤ x)
  | and => x &&& y
  | bor => x ||| y
  | xor => x ^^^ y
  | booleanAnd => truth (x ≠ 0 ∧ y ≠ 0)
  | booleanOr => truth (x ≠ 0 ∨ y ≠ 0)
  | booleanXor => truth ((x ≠ 0 ∨ y ≠ 0) ∧ ¬ (x ≠ 0 ∧ y ≠ 0))
  | leftShift => x <<< y
  | rightShift => x >>> y

/-- `expr_evaluate`: labels have the values that `labelreplace` gives them. A product that does not
fit into an `int`, which C leaves undefined, is wrapped around like any other. -/
def Expr.evaluate (labelreplace : String → Option (BitVec 16)) : Expr → Except ExprExit (BitVec 16)
  | number val => .ok val
  | label name =>
    match labelreplace name with
    | some val => .ok val
    | none => .error (.labelNotFound name)
  | booleanNot b => do
    let y ← b.evaluate labelreplace
    return truth (y = 0)
  | expr a op b =>
    match op with
    | .divide | .modulus => do
      let y ← b.evaluate labelreplace
      if y = 0 then throw (.divideByZero b)
      let x ← a.evaluate labelreplace
      return op.apply x y
    | .leftShift | .rightShift => do
      let x ← a.evaluate labelreplace
      let y ← b.evaluate labelreplace
      if 32 ≤ y.toNat then throw .undefinedShift
      return op.apply x y
    | .booleanAnd => do
      let x ← a.evaluate labelreplace
      if x = 0 then return 0
      let y ← b.evaluate labelreplace
      return op.apply x y
    | .booleanOr => do
      let x ← a.evaluate labelreplace
      if x ≠ 0 then return 1
      let y ← b.evaluate labelreplace
      return op.apply x y
    | .invalid => return 0
    | op => do
      let x ← a.evaluate labelreplace
      let y ← b.evaluate labelreplace
      return op.apply x y

/-! ### Labels -/

/-- The labels of an expression. -/
def Expr.labels : Expr → List String
  | number _ => []
  | label name => [name]
  | booleanNot b => b.labels
  | expr a _ b => a.labels ++ b.labels

section Evaluate

variable {f g : String → Option (BitVec 16)}

/-- Only the labels of an expression matter for its value. -/
theorem Expr.evaluate_congr {e : Expr} (h : ∀ name ∈ e.labels, f name = g name) :
    e.evaluate f = e.evaluate g := by
  induction e with
  | number val => rfl
  | label name =>
    rw [Expr.evaluate, Expr.evaluate, h name List.mem_cons_self]
  | booleanNot b ih =>
    rw [Expr.evaluate, Expr.evaluate, ih h]
  | expr a op b iha ihb =>
    have ha := iha fun name hmem => h name (List.mem_append_left _ hmem)
    have hb := ihb fun name hmem => h name (List.mem_append_right _ hmem)
    cases op <;> simp only [Expr.evaluate, ha, hb]

/-- A sequence fails where one of its parts does. -/
theorem error_of_bind {ε α β : Type} {x : Except ε α} {k : α → Except ε β} {err : ε}
    (h : x >>= k = .error err) : x = .error err ∨ ∃ a, k a = .error err := by
  cases x with
  | error err' =>
    cases h
    exact Or.inl rfl
  | ok a => exact Or.inr ⟨a, h⟩

/-- A label that is not found is one of the expression, and has no value. -/
theorem Expr.label_of_evaluate {e : Expr} {name : String}
    (h : e.evaluate f = .error (.labelNotFound name)) : name ∈ e.labels ∧ f name = none := by
  induction e with
  | number val => cases h
  | label name' =>
    rw [Expr.evaluate] at h
    split at h
    · cases h
    · rename_i hnone
      cases h
      exact ⟨List.mem_cons_self, hnone⟩
  | booleanNot b ih =>
    rcases error_of_bind h with hb | ⟨y, h⟩
    · exact ih hb
    · cases h
  | expr a op b iha ihb =>
    have ha (hlabel : name ∈ a.labels ∧ f name = none) :
        name ∈ (Expr.expr a op b).labels ∧ f name = none :=
      ⟨List.mem_append_left _ hlabel.1, hlabel.2⟩
    have hb (hlabel : name ∈ b.labels ∧ f name = none) :
        name ∈ (Expr.expr a op b).labels ∧ f name = none :=
      ⟨List.mem_append_right _ hlabel.1, hlabel.2⟩
    cases op
    case invalid => cases h
    case divide | modulus =>
      -- The divisor comes first, and a zero is no label that is not found.
      rcases error_of_bind h with hy | ⟨y, h⟩
      · exact hb (ihb hy)
      split at h
      · cases h
      · rcases error_of_bind h with hx | ⟨x, h⟩
        · exact ha (iha hx)
        · cases h
    case leftShift | rightShift =>
      rcases error_of_bind h with hx | ⟨x, h⟩
      · exact ha (iha hx)
      rcases error_of_bind h with hy | ⟨y, h⟩
      · exact hb (ihb hy)
      split at h <;> cases h
    case booleanAnd | booleanOr =>
      rcases error_of_bind h with hx | ⟨x, h⟩
      · exact ha (iha hx)
      split at h
      · cases h
      · rcases error_of_bind h with hy | ⟨y, h⟩
        · exact hb (ihb hy)
        · cases h
    all_goals
      rcases error_of_bind h with hx | ⟨x, h⟩
      · exact ha (iha hx)
      rcases error_of_bind h with hy | ⟨y, h⟩
      · exact hb (ihb hy)
      · cases h

theorem Expr.mem_labels_of_evaluate {e : Expr} {name : String}
    (h : e.evaluate f = .error (.labelNotFound name)) : name ∈ e.labels :=
  (Expr.label_of_evaluate h).1

end Evaluate

/-! ### The actions of the grammars -/

/-- The operation of the rule `expr: expr OP expr`. -/
def Terminal.exprOp : Terminal → ExprOp
  | .divide => .divide
  | .multiply => .multiply
  | .subtract => .subtract
  | .add => .add
  | .modulus => .modulus
  | .bitwiseAnd => .and
  | .bitwiseXor => .xor
  | .bitwiseBor => .bor
  | .equals => .equals
  | .notEquals => .notEquals
  | .lessThan => .lessThan
  | .lessEquals => .lessEquals
  | .greaterThan => .greaterThan
  | .greaterEquals => .greaterEquals
  | .booleanAnd => .booleanAnd
  | .booleanOr => .booleanOr
  | .booleanXor => .booleanXor
  | .leftShift => .leftShift
  | .rightShift => .rightShift
  | _ => .invalid

/-- The first byte of a string, or the zero that ends it. -/
def firstByte (s : String) : ℕ := s.toUTF8.data.toList.headD 0 |>.toNat

/-- The expression of a rule without operators, below the label `curr_label`. -/
def ExprAtom.expr (currLabel : String) : ExprAtom → Expr
  | .address n => .number (BitVec.ofNat 16 n)
  | .word w => .label w
  | .character s => .number (BitVec.ofNat 16 (firstByte s))
  | .localLabel s => .label (currLabel ++ "_" ++ String.ofList (s.toList.drop 1))
  | .xorWord w => .label (currLabel ++ "_" ++ w)

/-- The expression that the actions build. -/
def ExprTree.expr (currLabel : String) : ExprTree → Expr
  | .atom a => a.expr currLabel
  | .group t => ExprTree.expr currLabel t
  | .unary p t =>
    match p with
    | .subtract => .expr (.number 0) .subtract (ExprTree.expr currLabel t)
    | .bitwiseNot => .expr (.number 0xFFFF) .xor (ExprTree.expr currLabel t)
    | .booleanNot => .booleanNot (ExprTree.expr currLabel t)
    | _ => ExprTree.expr currLabel t
  | .binary l p r => .expr (ExprTree.expr currLabel l) p.exprOp (ExprTree.expr currLabel r)

/-! ### The parsers on texts -/

/-- The tokens of an expression, if there are no others. -/
def exprTokens : List LexToken → Option (List ExprToken)
  | [] => some []
  | .expr t :: ts => (exprTokens ts).map (t :: ·)
  | _ :: _ => none

/-- The expression that the assembler reads in a text up to the end of the line. -/
def asmExpr (currLabel : String) (text : List Char) : Option Expr :=
  ((exprTokens (asmRead text)).bind Grammar.asm.parse).map (ExprTree.expr currLabel)

/-- `expr_parse`. -/
def exprParse (text : List Char) : Option Expr :=
  ((exprTokens (ppexprRead text)).bind Grammar.ppExpr.parse).map (ExprTree.expr "")

example : (exprParse "4*-a<<2".toList).map (·.evaluate fun _ => some 1) = some (.ok 0xFFF0) := by
  decide +kernel

end DcpuToolchain
