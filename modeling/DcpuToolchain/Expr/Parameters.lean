import DcpuToolchain.Expr.Evaluate

/-!
# The parameters of directives

The parser that yacc makes of `libdcpu-pp/ppparamparser.y`, and what `.IF` takes
(`if_handle` in `libdcpu-pp/directives/asm/expr.c`).

The grammar declares no precedences, so that an operator is always shifted. A number or a word
is a parameter by itself, or an expression: yacc prefers the rule that comes first, wherever
another parameter may follow, and `-` may begin one. Where a token fits nowhere, what is
complete is reduced before the error is noticed, and the parameters so far are kept.
-/

namespace DcpuToolchain

open Precedence

/-- `parameter_t`. -/
inductive PpParameter
  | word (w : String)
  | string
  | number (n : ℕ)
  | expression (e : Expr)
  deriving DecidableEq, Repr

namespace Parameters

/-- The tokens of the rules `expr: expr OP expr`. -/
def binaries : List Terminal :=
  [.divide, .multiply, .subtract, .add, .modulus, .bitwiseAnd, .bitwiseXor, .bitwiseBor,
    .equals, .notEquals, .lessThan, .lessEquals, .greaterThan, .greaterEquals]

/-- The tokens of the rules `expr: OP expr`. -/
def unaries : List Terminal := [.subtract, .bitwiseNot]

/-- The parts of the expression that is at the beginning, after an operand or not, in a number
of parentheses, and the tokens behind it. -/
def scanExpr : ℕ → Bool → List LexToken → Option (List (Item ExprAtom Terminal) × List LexToken)
  | n, false, .expr (.address k) :: ts =>
    (scanExpr n true ts).map (Prod.map (.atom (.address k) :: ·) id)
  | n, false, .expr (.word w) :: ts =>
    (scanExpr n true ts).map (Prod.map (.atom (.word w) :: ·) id)
  | n, false, .expr (.op p) :: ts =>
    if p = .parenOpen then (scanExpr (n + 1) false ts).map (Prod.map (.opening :: ·) id)
    else if p ∈ unaries then (scanExpr n false ts).map (Prod.map (.unary p :: ·) id)
    else none
  | _, false, _ => none
  | 0, true, .expr (.op p) :: ts =>
    if p ∈ binaries then (scanExpr 0 false ts).map (Prod.map (.binary p :: ·) id)
    else some ([], .expr (.op p) :: ts)
  | 0, true, ts => some ([], ts)
  | n + 1, true, .expr (.op p) :: ts =>
    if p = .parenClose then (scanExpr n true ts).map (Prod.map (.closing :: ·) id)
    else if p ∈ binaries then (scanExpr (n + 1) false ts).map (Prod.map (.binary p :: ·) id)
    else none
  | _ + 1, true, _ => none

/-- Operators are always shifted. -/
def reduces : Handle Terminal → Terminal → Bool := fun _ _ => false

/-- The expression at the beginning, and the tokens behind it. -/
def expression (ts : List LexToken) : Option (Expr × List LexToken) :=
  (scanExpr 0 false ts).bind fun (items, rest) =>
    (Precedence.parse reduces items).map fun t => (ExprTree.expr "" t, rest)

/-- Another parameter may follow, or nothing. -/
def mayFollow : List LexToken → Bool
  | [] => true
  | .string :: _ | .expr (.address _) :: _ | .expr (.word _) :: _ => true
  | .expr (.op p) :: _ => p ∈ [.parenOpen, .subtract, .bitwiseNot]
  | _ => false

/-- The parameter at the beginning, and the tokens behind it. -/
def parameter : List LexToken → Option (PpParameter × List LexToken)
  | .string :: ts => some (.string, ts)
  | .expr (.address n) :: ts =>
    if mayFollow ts then some (.number n, ts)
    else (expression (.expr (.address n) :: ts)).map (Prod.map .expression id)
  | .expr (.word w) :: ts =>
    if mayFollow ts then some (.word w, ts)
    else (expression (.expr (.word w) :: ts)).map (Prod.map .expression id)
  | ts => (expression ts).map (Prod.map .expression id)

/-- The parameters, up to an error. Each takes up a token at least, so that their number is fuel
enough. -/
def parameters : (fuel : ℕ) → List LexToken → List PpParameter
  | 0, _ => []
  | fuel + 1, ts =>
    match parameter ts with
    | some (p, rest) => p :: parameters fuel rest
    | none => []

end Parameters

/-- `ppparam_get`, on the rest of the input. -/
def ppparamGet (text : List Char) : List PpParameter :=
  Parameters.parameters (ppparamRead text).length (ppparamRead text)

/-- The expression that `.IF` evaluates: the parameters must be one expression. -/
def ifExpr (text : List Char) : Option Expr :=
  match ppparamGet text with
  | [.expression e] => some e
  | _ => none

example : (ifExpr "2 * 3 + 4\n".toList).map (·.evaluate fun _ => none) = some (.ok 14) := by
  decide +kernel

example : ppparamGet "5 - 3\n".toList =
    [.number 5, .expression (.expr (.number 0) .subtract (.number 3))] := by decide +kernel

end DcpuToolchain
