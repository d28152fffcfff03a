import DcpuToolchain.Pp.State

/-!
# The directives

The handlers read on from the input (`directives/asm`, `directives/c`). A loop that reads is
a function of the input that is left, which it returns: `DcpuToolchain.Scan.done` with what
was read, `DcpuToolchain.Scan.halt` where it calls `dhalt`, and `DcpuToolchain.Scan.dry`
where it calls `ppimpl_get_input` although there is no input, an assertion of that function.

The lexer and the parser of the parameters of a directive are generated, and the files that
are included are in the file system; both are parameters (`DcpuToolchain.PpEnv`).
-/

namespace DcpuToolchain

/-! ### Outcomes -/

/-- The errors of the preprocessor, `ERR_PP_...`. -/
inductive PpError
  | asmDefineParametersIncorrect | cDefineParametersIncorrect
  | asmMacroParametersIncorrect | asmMacroParametersExpected | asmMacroTerminationNotFound
  | longFormMacroOnly | macroMalformed
  | expectedOpenBracket | noTerminatingBracket | tooManyParameters | notEnoughParameters
  | asmIfParametersIncorrect | cIfParametersIncorrect
  | cIfdefParametersIncorrect | cIfndefParametersIncorrect
  | asmNoEndifToIf | asmElseNoIf | asmEndifNoIf | cElseNoIf | cEndifNoIf
  | defineNotFound | defineNotExpression | expressionError
  | asmIncludeFileNotFound | cIncludeFileNotFound
  | asmIncludeParametersIncorrect | cIncludeParametersIncorrect
  | asmLineParametersIncorrect | asmUlineParametersIncorrect | cLineParametersIncorrect
  deriving DecidableEq, Repr

/-- How the preprocessor stops short of the end of its input. -/
inductive PpStop
  | dhalt (error : PpError) (location : Bstring)
  /-- `ppimpl_get_input` was called without input. -/
  | noInput
  /-- A variable was read that was never set. -/
  | uninitialised
  deriving DecidableEq, Repr

/-- What a loop that reads comes to. -/
inductive Scan (α : Type)
  | done (a : α) (rest : List Char)
  | halt (error : PpError) (rest : List Char)
  | dry
  deriving DecidableEq, Repr

/-! ### Strings -/

/-- `isspace`. -/
def isSpace (c : Char) : Bool := c = ' ' ∨ ('\t' ≤ c ∧ c ≤ '\r')

/-- A blank, as opposed to a newline. -/
def isBlank (c : Char) : Bool := c = ' ' ∨ c = '\t'

/-- `bltrimws`. -/
def bltrimws (s : Bstring) : Bstring := s.dropWhile isSpace

/-- `btrimws`. -/
def btrimws (s : Bstring) : Bstring := (bltrimws (bltrimws s).reverse).reverse

/-- `btolower`. -/
def btolower (s : Bstring) : Bstring := s.map Char.toLower

/-! ### Definitions -/

/-- The first loop of `define_handle` (asm): the word, and whether a definition follows. -/
def defineWord : Bstring → List Char → Scan (Bstring × Bool)
  | _, [] => .dry
  | word, c :: text =>
    let word := bltrimws (word ++ [c])
    if word ≠ [] ∧ isBlank c then .done (btrimws word, true) text
    else if word ≠ [] ∧ c = '(' then .halt .longFormMacroOnly text
    else if word = [] ∧ c = '\n' then .halt .asmDefineParametersIncorrect text
    else if word ≠ [] ∧ c = '\n' then .done (btrimws word, false) text
    else defineWord word text

/-- The second loop of `define_handle` (asm). -/
def defineDefinition : Bstring → List Char → Scan Bstring
  | _, [] => .dry
  | definition, c :: text =>
    let definition := bltrimws (definition ++ [c])
    if definition ≠ [] ∧ c = '\n' then
      -- only terminate if not preceded by a slash
      if definition.dropLast.getLast? ≠ some '\\' then .done (btrimws definition) text
      else defineDefinition definition text
    else if definition = [] ∧ c = '\n' then .done ['1'] text
    else defineDefinition definition text

/-- A name with its parameters, as `macro_def_handle` and `define_handle` (C) read it. -/
structure MacroName where
  name : Bstring
  word : Bstring
  isMacro : Bool
  /-- Whether a definition follows. -/
  gettingDefinition : Bool
  deriving DecidableEq, Repr

/-- The first loop of `define_handle` (C) and of `macro_def_handle`, which differ in their
errors and in that only the former ends a word at a newline. -/
def macroWord (incorrect : PpError) (endsAtNewline : Bool) :
    (name word : Bstring) → (isMacro : Bool) → List Char → Scan MacroName
  | _, _, _, [] => .dry
  | name, word, isMacro, c :: text =>
    let name := if isMacro = false ∧ c ≠ '(' then name ++ [c] else name
    let word := bltrimws (word ++ [c])
    if word ≠ [] ∧ isBlank c ∧ isMacro = false then
      .done ⟨btrimws name, btrimws word, isMacro, true⟩ text
    else if word ≠ [] ∧ c = '(' ∧ isMacro = false then
      macroWord incorrect endsAtNewline name word true text
    else if word ≠ [] ∧ c = '(' ∧ isMacro = true then .halt .macroMalformed text
    else if word ≠ [] ∧ c = ')' ∧ isMacro = true then
      .done ⟨btrimws name, btrimws word, isMacro, true⟩ text
    else if word = [] ∧ c = '\n' then .halt incorrect text
    else if endsAtNewline = true ∧ word ≠ [] ∧ c = '\n' then
      .done ⟨btrimws name, btrimws word, isMacro, false⟩ text
    else macroWord incorrect endsAtNewline name word isMacro text

/-- What ended the definition of a `#define`. -/
inductive DefinitionEnd
  /-- The end of a line. -/
  | line
  /-- The beginning of a comment, `/` and this character. -/
  | comment (c : Char)
  deriving DecidableEq, Repr

/-- The second loop of `define_handle` (C): the definition, what ended it, and how many lines
were continued, for each of which a newline is printed to the output. -/
def cDefineDefinition : Bstring → ℕ → List Char → Scan (Bstring × DefinitionEnd × ℕ)
  | _, _, [] => .dry
  | definition, continued, c :: text =>
    let definition := bltrimws (definition ++ [c])
    if c = '\n' then
      if 1 < definition.length ∧ definition.dropLast.getLast? = some '\\' then
        -- remove the new slash
        cDefineDefinition (definition.dropLast.dropLast ++ ['\n']) (continued + 1) text
      else .done (btrimws definition, .line, continued) text
    else if c = '/' ∨ c = '*' then
      if 1 < definition.length ∧ definition.dropLast.getLast? = some '/' then
        .done (btrimws definition.dropLast.dropLast, .comment c, continued) text
      else cDefineDefinition definition continued text
    else cDefineDefinition definition continued text

/-- `term_match`. -/
def termMatch : List Char := ".ENDMACRO".toList

/-- `term_match_alt`. -/
def termMatchAlt : List Char := "#ENDMACRO".toList

/-- Whether there are only spaces between the beginning of a line and a character; `before`
is what comes before the character, the nearest first. The walk stops short of the first
character of the definition. -/
def onlySpaces : (before : List Char) → Bool
  | [] | [_] => true
  | p :: before =>
    if p ≠ ' ' ∧ p ≠ '\n' then false else if p = '\n' then true else onlySpaces before

/-- The second loop of `macro_def_handle`. -/
def macroDefinition : Bstring → (termMatchCount : ℕ) → List Char → Scan Bstring
  | _, _, [] => .halt .asmMacroTerminationNotFound []
  | definition, count, c :: text =>
    let definition := bltrimws (definition ++ [c])
    if termMatch[count]?.map Char.toLower = some c.toLower ∨
        termMatchAlt[count]?.map Char.toLower = some c.toLower then
      if count = 0 ∧ 2 ≤ definition.length ∧ onlySpaces definition.dropLast.reverse = false then
        macroDefinition definition count text
      else if termMatch.length ≤ count + 1 then
        let definition := btrimws definition
        .done (definition.take (definition.length - termMatch.length)) text
      else macroDefinition definition (count + 1) text
    else macroDefinition definition 0 text

/-! ### Calls of macros -/

/-- What ends a macro expansion. -/
def macroTerminate : List Char := "\x01MACROTERMINATE\x01".toList

/-- The parameters between the brackets of a name. -/
def parametersFrom : (temp : Bstring) → List Char → List Bstring
  | _, [] => []
  | temp, c :: text =>
    if c = ',' then btrimws temp :: parametersFrom [] text
    else if c = ')' then [btrimws temp]
    else parametersFrom (temp ++ [c]) text

/-- The first loop of `macro_handle`: the parameters of a macro. -/
def macroParameters (full : Bstring) : List Bstring :=
  parametersFrom [] (full.dropWhile (· ≠ '(')).tail

/-- `macro_handle` up to the open bracket. It consumes the terminators that stand before the
bracket, and counts them; `expected` is what is left of the terminator it is in. -/
def openBracket : (expected : List Char) → (pops : ℕ) → List Char → Scan ℕ
  | _, _, [] => .dry
  | [], pops, c :: text =>
    if c = '\x01' then openBracket macroTerminate.tail pops text
    else if c = '(' then .done pops text
    else .halt .expectedOpenBracket text
  | e :: expected, pops, c :: text =>
    if c ≠ e then .halt .expectedOpenBracket text
    else openBracket expected (if expected = [] then pops + 1 else pops) text

/-- The loop of `macro_handle` that reads the arguments. -/
def readArguments : (brackets : ℕ) → (temp : Bstring) → (arguments : List Bstring) →
    List Char → Option (List Bstring × List Char)
  | _, _, _, [] => none
  | brackets, temp, arguments, c :: text =>
    if c = '(' then readArguments (brackets + 1) (temp ++ [c]) arguments text
    else if c = ')' ∧ brackets ≠ 0 then readArguments (brackets - 1) (temp ++ [c]) arguments text
    else if c = ')' then some (arguments ++ [temp], text)
    else if c = ',' ∧ brackets = 0 then readArguments brackets [] (arguments ++ [temp]) text
    else readArguments brackets (temp ++ [c]) arguments text

/-! ### Conditionals -/

/-- `skip_to_endln`. -/
def skipToEndln (text : List Char) : List Char := (text.dropWhile (· ≠ '\n')).tail

/-- The first inner loop of `skip_to_endif`: it reads up to the first character that is no
blank, and returns it, or the last one there is. -/
def skipSpaces : (c : Char) → (tempOutput : Bstring) → List Char → Char × Bstring × List Char
  | c, tempOutput, [] => (c, tempOutput, [])
  | _, tempOutput, c :: text =>
    if isBlank c then skipSpaces c (tempOutput ++ [c]) text else (c, tempOutput ++ [c], text)

/-- The second inner loop of `skip_to_endif`: it reads a directive up to a blank or a
newline. -/
def readDirective : (c : Char) → (temp tempOutput : Bstring) → List Char →
    Char × Bstring × Bstring × List Char
  | c, temp, tempOutput, [] => (c, temp, tempOutput, [])
  | _, temp, tempOutput, c :: text =>
    if isBlank c ∨ c = '\n' then (c, temp, tempOutput ++ [c], text)
    else readDirective c (temp ++ [c]) (tempOutput ++ [c]) text

/-- Whether a character begins a directive. -/
def Language.leads : Language → Char → Bool
  | .asm, char => char = '#' ∨ char = '.'
  | .c, char => char = '#'

/-- What `skip_to_endif` makes of a directive. -/
def Language.directive : Language → Bstring → Bstring
  | .asm, temp => btolower temp
  | .c, temp => btrimws (btolower temp)

/-- The directives that open a conditional within a conditional. -/
def Language.opens : Language → Bstring → Bool
  | .asm, temp => temp = "if".toList
  | .c, temp => temp ∈ ["if".toList, "ifdef".toList, "ifndef".toList]

/-- The loop of `skip_to_endif`, with as much fuel as there is text: the text up to the end
of the branch, and whether it stopped at an else. -/
def skipLoop (l : Language) (stopAtElse : Bool) :
    (fuel : ℕ) → (freshLine : Bool) → (ifOpen : ℕ) → (output : Bstring) → List Char →
    Scan (Bstring × Bool)
  | 0, _, _, _, _ => .halt .asmNoEndifToIf []
  | _, _, _, _, [] => .halt .asmNoEndifToIf []
  | fuel + 1, freshLine, ifOpen, output, c :: text =>
    if l.leads c then
      if freshLine = false then skipLoop l stopAtElse fuel freshLine ifOpen (output ++ [c]) text
      else
        let (c, tempOutput, text) := skipSpaces c ['#'] text
        let (c, temp, tempOutput, text) := readDirective c [c] tempOutput text
        let temp := l.directive temp
        let rest := if c ≠ '\n' then skipToEndln text else text
        if temp = "endif".toList ∧ ifOpen = 1 then .done (output, false) rest
        else if temp = "else".toList ∧ stopAtElse = true ∧ ifOpen = 1 then .done (output, true) rest
        else
          let ifOpen :=
            if temp = "endif".toList then ifOpen - 1
            else if l.opens temp then ifOpen + 1 else ifOpen
          skipLoop l stopAtElse fuel (c = '\n') ifOpen (output ++ tempOutput) text
    else if c = '\n' then skipLoop l stopAtElse fuel true ifOpen (output ++ [c]) text
    else if isBlank c then skipLoop l stopAtElse fuel freshLine ifOpen (output ++ [c]) text
    else skipLoop l stopAtElse fuel false ifOpen (output ++ [c]) text

/-- `skip_to_endif`. -/
def skipToEndif (l : Language) (stopAtElse : Bool) (text : List Char) : Scan (Bstring × Bool) :=
  skipLoop l stopAtElse (text.length + 1) true 1 [] text

/-- What `if_handle` and `ifdef_general_handle` do once they know the value of the condition:
the text that is printed, and what is left. Where the condition is false they write to and
then, if there is no else, read from the uninitialised `output`. -/
def selectBranch (l : Language) (value : Bool) (text : List Char) :
    Except PpStop (Scan Bstring) :=
  if value then
    match skipToEndif l true text with
    | .done (output, true) rest =>
      match skipToEndif l false rest with
      | .done _ rest => .ok (.done output rest)
      | .halt e rest => .ok (.halt e rest)
      | .dry => .ok .dry
    | .done (output, false) rest => .ok (.done output rest)
    | .halt e rest => .ok (.halt e rest)
    | .dry => .ok .dry
  else .error .uninitialised

end DcpuToolchain
