import DcpuToolchain.Lib.Scanner

/-!
# The lexer of the assembler

The rules of `libdcpu-ci-asm/lexer.l`, in their order, less what they return: which token a
text is, and how strings, comments and groups in braces change the start condition. Rules
without start conditions are for the initial one, as all the others are exclusive.
-/

namespace DcpuToolchain

open Scanner

/-- The start conditions. -/
inductive StartCondition
  | initial | inOpcode | inReg | inVal | inNxt | inChar | inString | inSymbol
  deriving DecidableEq, Repr

/-! ### Expressions -/

/-- One expression after the other. -/
def seqs (l : List (Regex Char)) : Regex Char := l.foldr .seq .eps

/-- A text. -/
def lit (s : String) : Regex Char := seqs (s.toList.map .sym)

/-- A text in lower case letters, in whatever case. -/
def anyCase (s : String) : Regex Char := seqs (s.toList.map fun c => .cls (·.toLower = c))

/-- The characters between two. -/
def range (lo hi : Char) : Char → Bool := fun c => lo ≤ c ∧ c ≤ hi

def digit : Regex Char := .cls (range '0' '9')

def octalDigit : Regex Char := .cls (range '0' '7')

def hexDigit : Regex Char := .cls fun c => range 'a' 'f' c || range 'A' 'F' c || range '0' '9' c

/-- `[A-Za-z_]`. -/
def letter : Regex Char := .cls fun c => range 'A' 'Z' c || range 'a' 'z' c || c = '_'

/-- `[A-Za-z0-9_]`. -/
def wordChar : Regex Char :=
  .cls fun c => range 'A' 'Z' c || range 'a' 'z' c || range '0' '9' c || c = '_'

/-- `[ \t]`. -/
def blank : Regex Char := .cls fun c => c = ' ' || c = '\t'

/-- `[^\r\n]`. -/
def notNewline : Regex Char := .cls fun c => c ≠ '\r' && c ≠ '\n'

/-- `(\r\n|\r|\n)`. -/
def newline : Regex Char := .alt (lit "\r\n") (.alt (.sym '\r') (.sym '\n'))

/-- `(.|\n)`. -/
def anyChar : Regex Char := .cls fun _ => true

/-! ### Rules -/

/-- A rule for the initial start condition. -/
def initially (regex : Regex Char) (begins : Option StartCondition := none) :
    Rule StartCondition Char := ⟨[.initial], regex, begins⟩

/-- A rule for both kinds of literals. -/
def literally (regex : Regex Char) : Rule StartCondition Char :=
  ⟨[.inString, .inChar], regex, none⟩

/-- The line and file directives. -/
def lineRules : List (Rule StartCondition Char) :=
  [initially (seqs [lit "# ", digit.plus, newline]),
    initially (seqs [lit "# ", digit.plus, .sym ' ', .star notNewline, newline]),
    initially (seqs [lit "#U ", digit.plus, .sym ' ', .star notNewline, newline])]

/-- The keywords of the assembler. -/
def keywordRules : List (Rule StartCondition Char) :=
  (["boundary", "extension", "seek", "origin", "org", "incbin", "export", "import"].map fun name =>
    initially (.seq (.sym '.') (anyCase name))) ++
  [initially (anyCase "optional")] ++
  (["fill", "section", "output", "jump", "call"].map fun name =>
    initially (.seq (.sym '.') (anyCase name))) ++
  [initially (seqs [.sym '.', anyCase "symbol", .star blank]) (some .inSymbol),
    ⟨[.inSymbol], Regex.plus (.cls (· ≠ '\n')), none⟩,
    ⟨[.inSymbol], newline, some .initial⟩]

/-- Opcodes, registers and values in braces. -/
def braceRules : List (Rule StartCondition Char) :=
  [initially (.sym '{') (some .inOpcode),
    ⟨[.inOpcode, .inReg, .inVal, .inNxt], .sym '}', some .initial⟩] ++
  (["set", "add", "sub", "mul", "mli", "div", "dvi", "mod", "mdi", "and", "bor", "xor", "shr",
    "asr", "shl", "ifb", "ifc", "ife", "ifn", "ifg", "ifa", "ifl", "ifu", "adx", "sbx", "sti",
    "std", "jsr", "int", "iag", "ias", "rfi", "iaq", "hwn", "hwq", "hwi"].map fun name =>
    ⟨[.inOpcode], anyCase name, none⟩) ++
  [⟨[.inOpcode], .seq (anyCase "reg") (.sym ':'), some .inReg⟩] ++
  (["a", "b", "c", "x", "y", "z", "i", "j"].map fun name => ⟨[.inReg], anyCase name, none⟩) ++
  [⟨[.inOpcode], .seq (anyCase "val") (.sym ':'), some .inVal⟩] ++
  (["a", "b", "c", "x", "y", "z", "i", "j"].map fun name => ⟨[.inVal], anyCase name, none⟩) ++
  [⟨[.inOpcode], .seq (anyCase "nxt") (.sym ':'), some .inNxt⟩] ++
  (["a", "b", "c", "x", "y", "z", "i", "j", "lit"].map fun name =>
    ⟨[.inNxt], anyCase name, none⟩) ++
  (["pop", "push", "peek", "pick", "sp", "pc", "ex", "ia", "nxt"].map fun name =>
    ⟨[.inOpcode], anyCase name, none⟩)

/-- The operators of expressions. -/
def operatorRules : List (Rule StartCondition Char) :=
  ["(", ")", "+", "-", "*", "/", "%", "==", "!=", "<", "<=", ">", ">=", "&", "|", "^", "~"].map
    fun operator => initially (lit operator)

/-- Strings and characters. -/
def literalRules : List (Rule StartCondition Char) :=
  [initially (.sym '\'') (some .inChar),
    initially (.sym '"') (some .inString),
    ⟨[.inChar], .sym '\'', some .initial⟩,
    ⟨[.inString], .sym '"', some .initial⟩] ++
  (['a', 'b', 'f', 'n', 'r', 't', 'v', '\'', '"', '\\', '?'].map fun c =>
    literally (seqs [.sym '\\', .sym c])) ++
  [literally (seqs [.sym '\\', octalDigit, octalDigit.opt, octalDigit.opt]),
    literally (seqs [.sym '\\', .sym 'x', hexDigit, hexDigit]),
    literally (seqs [.sym '\\', digit, .star digit]),
    literally (seqs [.sym '\\', anyChar]),
    ⟨[.inString], Regex.plus (.cls fun c => c ≠ '\\' && c ≠ '\n' && c ≠ '"'), none⟩,
    ⟨[.inChar], Regex.plus (.cls fun c => c ≠ '\\' && c ≠ '\n' && c ≠ '\''), none⟩]

/-- Registers, words, numbers and the rest. -/
def generalRules : List (Rule StartCondition Char) :=
  [initially (.cls fun c => c ∈ "abcxyzijABCXYZIJ".toList)] ++
  (["pop", "push", "peek", "pick", "sp", "pc", "ex", "ia", "nxt"].map fun name =>
    initially (anyCase name)) ++
  [initially (.seq letter.plus (.star wordChar)),
    initially (.seq (Regex.opt (.sym '.')) (anyCase "dat")),
    initially (.seq (lit "0b") (Regex.plus (.cls (range '0' '1')))),
    initially (.seq (lit "0x") hexDigit.plus),
    initially digit.plus] ++
  ([",", "[", "]", ":"].map fun mark => initially (lit mark)) ++
  [initially (.seq (.sym '.') wordChar.plus),
    initially newline,
    initially (.seq (.sym ';') (.star notNewline)),
    initially blank.plus]

/-- The rules, in the order of the file. -/
def asmRules : List (Rule StartCondition Char) :=
  lineRules ++ keywordRules ++ braceRules ++ operatorRules ++ literalRules ++ generalRules

/-- The tokens of a text. -/
def asmTokens (k : StartCondition) (text : List Char) : List (Token StartCondition Char) :=
  tokens asmRules text.length k text

example : (asmTokens .initial "SET A, 'b' ; don't".toList).map (fun t => String.ofList t.text) =
    ["SET", " ", "A", ",", " ", "'", "b", "'", " ", "; don't"] := by decide +kernel

end DcpuToolchain
