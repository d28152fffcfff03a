import DcpuToolchain.Asm.Lexer
import DcpuToolchain.Expr.Grouping
import Mathlib.Algebra.Group.Nat.Defs

/-!
# The lexers that read expressions

What the rules of three lexers return: those of the assembler (`libdcpu-ci-asm/lexer.l`), of
`expr_parse` (`libdcpu-pp-expr/lexer.l`) and of the parameters of directives
(`libdcpu-pp/ppparamlexer.l`). Tokens that are in no expression are all the same here. What no
rule matches is echoed, and is no token.
-/

namespace DcpuToolchain

open Scanner

/-- What is of interest of a token: what it is in an expression, or that it is a string, or
neither. -/
inductive LexToken
  | expr (t : ExprToken)
  | string
  | other
  deriving DecidableEq, Repr

/-- What a rule does with its text. -/
inductive Action
  | skip
  | returns (t : LexToken)
  | terminate
  deriving DecidableEq, Repr

/-- The rule returns the same token for every text. -/
def returnOp (t : Terminal) : List Char → Action := fun _ => .returns (.expr (.op t))

/-- The rule returns a token that is in no expression. -/
def returnOther : List Char → Action := fun _ => .returns .other

/-- The tokens that are returned, up to where the lexer stops. -/
def returned : List (Option Action) → List LexToken
  | [] => []
  | some .terminate :: _ => []
  | some (.returns t) :: as => t :: returned as
  | some .skip :: as => returned as
  | none :: as => returned as

/-! ### Numbers -/

/-- The value of a digit, also of a hexadecimal one. -/
def numeralDigit (c : Char) : ℕ :=
  if range '0' '9' c then c.toNat - '0'.toNat
  else if range 'a' 'f' c then c.toNat - 'a'.toNat + 10
  else c.toNat - 'A'.toNat + 10

/-- The number that digits stand for. -/
def numeralValue (base : ℕ) (digits : List Char) : ℕ :=
  digits.foldl (fun n c => base * n + numeralDigit c) 0

/-- `strtoul` for digits: a number that is too large gives `ULONG_MAX`. -/
def strtoulDigits (base : ℕ) (digits : List Char) : ℕ := min (numeralValue base digits) (2 ^ 64 - 1)

/-- The rule returns a number behind a prefix of some length. -/
def returnNumber (skipped base : ℕ) : List Char → Action :=
  fun text => .returns (.expr (.address (strtoulDigits base (text.drop skipped))))

/-- The rule returns a word. -/
def returnWord : List Char → Action := fun text => .returns (.expr (.word (String.ofList text)))

/-! ### The assembler -/

/-- What the operators are to the assembler, in the order of the rules. -/
def asmOperators : List Terminal :=
  [.parenOpen, .parenClose, .add, .subtract, .multiply, .divide, .modulus, .equals, .notEquals,
    .lessThan, .lessEquals, .greaterThan, .greaterEquals, .bitwiseAnd, .bitwiseBor, .bitwiseXor,
    .bitwiseNot]

/-- What the other rules of the initial start condition return. A newline ends an
expression. -/
def asmGeneral : List (List Char → Action) :=
  List.replicate 10 returnOther ++
  [returnWord, returnWord, returnNumber 2 2, returnNumber 2 16, returnNumber 0 10] ++
  List.replicate 4 returnOther ++
  [fun text => .returns (.expr (.localLabel (String.ofList text))), fun _ => .terminate,
    fun _ => .skip, fun _ => .skip]

/-- The lexer of the assembler, outside braces, strings and symbols. -/
def asmLexer : Lexer StartCondition Char Action :=
  (lineRules ++ keywordRules ++ braceRules).map (·, returnOther) ++
  operatorRules.zip (asmOperators.map returnOp) ++
  literalRules.map (·, returnOther) ++
  generalRules.zip asmGeneral

theorem asmLexer_toRules : asmLexer.toRules = asmRules := by
  have hoperators : (operatorRules.zip (asmOperators.map returnOp)).map Prod.fst = operatorRules :=
    List.map_fst_zip (by decide)
  have hgeneral : (generalRules.zip asmGeneral).map Prod.fst = generalRules :=
    List.map_fst_zip (by decide)
  have hother : ∀ rules : List (Rule StartCondition Char),
      (rules.map (·, returnOther)).map Prod.fst = rules := by
    intro rules
    rw [List.map_map]
    exact List.map_id rules
  simp only [asmLexer, Lexer.toRules, List.map_append, hoperators, hgeneral, hother]
  rfl

/-- The tokens of an expression in a line of the assembler. -/
def asmRead (text : List Char) : List LexToken := returned (asmLexer.read .initial text)

/-! ### The expression parser -/

/-- A rule of a lexer without start conditions. -/
def always (regex : Regex Char) (action : List Char → Action) :
    Rule Unit Char × (List Char → Action) := (⟨[()], regex, none⟩, action)

/-- The lexer of `expr_parse`. -/
def ppexprLexer : Lexer Unit Char Action :=
  ([("(", .parenOpen), (")", .parenClose), ("+", .add), ("-", .subtract), ("*", .multiply),
    ("/", .divide), ("%", .modulus), ("==", .equals), ("!=", .notEquals), ("<", .lessThan),
    ("<=", .lessEquals), (">", .greaterThan), (">=", .greaterEquals), ("&", .bitwiseAnd),
    ("|", .bitwiseBor), ("^", .bitwiseXor), ("~", .bitwiseNot), ("<<", .leftShift),
    (">>", .rightShift), ("||", .booleanOr), ("&&", .booleanAnd), ("^^", .booleanXor),
    ("!", .booleanNot)].map fun operator => always (lit operator.1) (returnOp operator.2)) ++
  [ -- `[A-Za-z_]+[A-Za-z0-9_-]*`
    always (.seq letter.plus (.star (.alt wordChar (.sym '-')))) returnWord,
    always (.seq (lit "0b") (Regex.plus (.cls (range '0' '1')))) (returnNumber 2 2),
    always (.seq (lit "0x") hexDigit.plus) (returnNumber 2 16),
    always digit.plus (returnNumber 0 10),
    always blank.plus fun _ => .skip]

/-- The tokens of an expression for `expr_parse`. -/
def ppexprRead (text : List Char) : List LexToken := returned (ppexprLexer.read () text)

/-! ### The parameters of directives -/

/-- What is between the marks of a string: `(\\.|[^\\q])*`. -/
def stringChars (q : Char) : Regex Char :=
  .star (.alt (.seq (.sym '\\') (.cls (· ≠ '\n'))) (.cls fun c => c ≠ '\\' && c ≠ q))

/-- The lexer of the parameters of directives. -/
def ppparamLexer : Lexer Unit Char Action :=
  [always (.seq letter.plus (.star wordChar)) returnWord,
    always (.seq (lit "0x") hexDigit.plus) (returnNumber 2 16),
    -- `[1-9]+[0-9]*`
    always (.seq (Regex.plus (.cls (range '1' '9'))) (.star digit)) (returnNumber 0 10),
    always (.seq (.sym '0') (.star octalDigit)) (returnNumber 0 8),
    always (.seq (Regex.opt (.sym 'L')) (seqs [.sym '"', stringChars '"', .sym '"']))
      fun _ => .returns .string,
    always (.seq (Regex.opt (.sym 'L')) (seqs [.sym '<', stringChars '>', .sym '>']))
      fun _ => .returns .string] ++
  ([("(", .parenOpen), (")", .parenClose), ("+", .add), ("-", .subtract), ("*", .multiply),
    ("/", .divide), ("%", .modulus), ("==", .equals), ("!=", .notEquals), ("<", .lessThan),
    ("<=", .lessEquals),
    -- written `>\>` in the file, so that there is no rule for `>`
    (">>", .greaterThan),
    (">=", .greaterEquals), ("&", .bitwiseAnd), ("|", .bitwiseBor), ("^", .bitwiseXor),
    ("~", .bitwiseNot), ("||", .booleanOr), ("&&", .booleanAnd), ("<<", .binaryLeftShift),
    (">>", .binaryRightShift)].map fun operator => always (lit operator.1) (returnOp operator.2)) ++
  [always newline fun _ => .terminate,
    always blank.plus fun _ => .skip]

/-- The tokens of the parameters of a directive. -/
def ppparamRead (text : List Char) : List LexToken := returned (ppparamLexer.read () text)

example : ppparamRead "a > 010\n".toList =
    [.expr (.word "a"), .expr (.address 8)] := by decide +kernel

end DcpuToolchain
