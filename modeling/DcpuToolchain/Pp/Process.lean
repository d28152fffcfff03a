import DcpuToolchain.Pp.Directives

/-!
# The loop of the preprocessor

`ppimpl_process` as a machine. One step is one turn of one of its loops: either a character
is moved from the input to the output, or one handler is tried on the end of the output.
A handler may read on, print in front of what is left of the input, register handlers, enter
and leave scopes, or include a file, which is processed by a child state before the loop of
the parent goes on with the next handler.
-/

namespace DcpuToolchain

/-! ### What the preprocessor is given -/

/-- `parameter_t`. An expression is what it evaluates to, given the handlers its labels are
looked up in. -/
inductive Parameter
  | word (string : Bstring)
  | string (string : Bstring)
  | angledString (string : Bstring)
  | number (number : UInt32)
  | expression (evaluate : List Match → Except PpError Word)

/-- What is generated or outside the program: the lexer and the parser of the parameters,
which read characters off the input; the file system; and what `malloc` leaves in fields
that are not initialised. -/
structure PpEnv (Λ : Type) where
  /-- `ppparam_get`: the parameters, the input that is left, and the state of the lexer. -/
  paramGet : Λ → List Char → List Parameter × List Char × Λ
  paramGet_suffix : ∀ lexer text, (paramGet lexer text).2.1 <:+ text
  /-- `ppfind_locate` and `bfopen`: the path and the contents of a file. -/
  locate : Bstring → Option (Bstring × List Char)
  /-- `print_index` of a new state. -/
  printIndex : ℕ
  /-- `case_insensitive` of the handlers that do not set it. -/
  caseInsensitive : Bool

/-! ### New states -/

/-- The match of a directive. -/
def directiveMatch (caseInsensitive : Bool) (text : Bstring) (handler : Handler) : Match :=
  ⟨text, handler, true, false, caseInsensitive⟩

/-- The match of the macro terminator. -/
def macroTermMatch : Match := ⟨macroTerminate, .macroTermHandle, false, false, false⟩

/-- The match of a name that is replaced or expanded. -/
def nameMatch (name : Bstring) (handler : Handler) : Match := ⟨name, handler, false, true, false⟩

/-- The handlers that `ppimpl_new` registers. -/
def initialHandlers (caseInsensitive : Bool) : Language → List Match
  | .asm =>
    let d := directiveMatch true
    [d ".LINE ".toList (.lineHandle .asm), d ".ULINE ".toList .ulineHandle,
      d "#LINE ".toList (.lineHandle .asm), d "#ULINE ".toList .ulineHandle,
      d ".IF ".toList (.ifHandle .asm), d ".ELSE".toList (.elseHandle .asm),
      d ".ENDIF".toList (.endifHandle .asm), d "#IF ".toList (.ifHandle .asm),
      d "#ELSE".toList (.elseHandle .asm), d "#ENDIF".toList (.endifHandle .asm),
      d ".DEFINE ".toList (.defineHandle .asm), d ".EQUATE ".toList (.defineHandle .asm),
      d ".EQU ".toList (.defineHandle .asm), d ".MACRO ".toList .macroDefHandle,
      d "#DEFINE ".toList (.defineHandle .asm), d "#MACRO ".toList .macroDefHandle,
      macroTermMatch,
      d ".INCLUDE ".toList (.includeHandle .asm), d "#INCLUDE ".toList (.includeHandle .asm)]
  | .c =>
    let d := directiveMatch caseInsensitive
    [d "#line ".toList (.lineHandle .c),
      d "#if ".toList (.ifHandle .c), d "#ifdef ".toList (.ifdefGeneralHandle true),
      d "#ifndef ".toList (.ifdefGeneralHandle false), d "#else".toList (.elseHandle .c),
      d "#endif".toList (.endifHandle .c),
      directiveMatch true "#define ".toList (.defineHandle .c), macroTermMatch,
      d "#include ".toList (.includeHandle .c)]

/-- The frame of a new state. The first `ppimpl_printf` is at an uninitialised cursor. -/
def newFrame (printIndex : ℕ) (filename : Bstring) (line : UInt32) (input : List Char) : Frame :=
  let f : Frame := ⟨[], input, [], line - 1, line, filename, false, false, printIndex, none⟩
  let f := f.printf (f.lineMark ++ ['\n'])
  f.oprintf (f.lineMark ++ ['\n'])

variable {Λ : Type}

/-- `ppimpl_new`. -/
def ppimplNew (env : PpEnv Λ) (lexer : Λ) (filename : Bstring) (line : UInt32) (lang : Language)
    (input : List Char) : PpState Λ where
  frame := newFrame env.printIndex filename (if line = 0 then 1 else line) input
  parents := []
  handlers := initialHandlers env.caseInsensitive lang
  scopes := []
  lexer := lexer

/-! ### Matching -/

/-- `ppimpl_isolates`. -/
def ppimplIsolates (c : Char) (atStart : Bool) : Bool :=
  ¬ (('a' ≤ c ∧ c ≤ 'z') ∨ ('A' ≤ c ∧ c ≤ 'Z') ∨ (atStart = false ∧ '0' ≤ c ∧ c ≤ '9') ∨ c = '_')

/-- Whether the text of a match is at the end of the output. -/
def matchesText (m : Match) (output : List Char) : Bool :=
  if m.caseInsensitive then (btolower m.text).isSuffixOf (btolower output)
  else m.text.isSuffixOf output

/-- Whether there are only blanks between the beginning of a line and the end of a text. -/
def atLineStart (output : List Char) : Bool :=
  match output.reverse.dropWhile isBlank with
  | [] => true
  | c :: _ => c = '\n'

namespace Frame

/-- The output before a text at its end. -/
def outputBefore (f : Frame) (text : Bstring) : List Char :=
  f.cachedOutput.take (f.cachedOutput.length - text.length)

/-- A character is read and put back into the cached input; a newline is counted. -/
def peek (f : Frame) : Frame :=
  match f.pending with
  | [] => f
  | c :: _ => { f.getInput with cachedInput := c :: f.getInput.cachedInput }

/-- Whether the characters around a text at the end of the output isolate it. -/
def isolated (f : Frame) (text : Bstring) : Bool :=
  (f.pending.head?.all (ppimplIsolates · false)) &&
    ((f.outputBefore text).getLast?.all (ppimplIsolates · true))

/-- `ppimpl_match_test`. -/
def matchTest (f : Frame) (m : Match) : Bool × Frame :=
  if matchesText m f.cachedOutput = false then (false, f)
  else if m.lineStartOnly then (atLineStart (f.outputBefore m.text), f)
  else if m.identifierOnly then (f.isolated m.text, f.peek)
  else (true, f)

/-- The loop of `ppimpl_process` where a match was found: the text is removed from the
output, and the printing cursor is reset. -/
def removeMatch (f : Frame) (m : Match) : Frame :=
  let removed := f.cachedOutput.drop (f.cachedOutput.length - m.text.length)
  { f with
    actualLine := f.actualLine - (removed.count '\n').toUInt32
    cachedOutput := f.outputBefore m.text
    printIndex := 0 }

/-- `ppimpl_track_strings`. -/
def trackStrings (f : Frame) : Frame :=
  let current := f.cachedOutput.getLast?
  let escaped := f.cachedOutput.dropLast.getLast? = some '\\'
  if f.inSingleString = false ∧ f.inDoubleString = false then
    { f with inSingleString := current = some '\'', inDoubleString := current = some '"' }
  else if f.inSingleString then
    { f with
      inSingleString := ¬ ((current = some '\'' ∧ ¬ escaped) ∨ current = some '\n') }
  else
    { f with
      inDoubleString := ¬ ((current = some '"' ∧ ¬ escaped) ∨ current = some '\n') }

/-- The beginning of the outer loop of `ppimpl_process`: a character is fetched and pushed
onto the output, and the handlers are tried next unless it is in a string. -/
def fetch (f : Frame) : Frame :=
  match f.pending with
  | [] => f
  | c :: _ =>
    let f := f.getInput
    let f := if c = '\n' then { f with actualLine := f.actualLine + 1 } else f
    let f :=
      if c = '\n' ∧ f.actualLine ≠ f.currentLine then
        { f.oprintf ('\n' :: f.lineMark) with actualLine := f.currentLine }
      else f
    let f := { f with cachedOutput := f.cachedOutput ++ [c] }
    let f := f.trackStrings
    { f with next := if f.inSingleString ∨ f.inDoubleString then none else some 0 }

end Frame

/-! ### Handlers -/

namespace PpState

/-- `dhalt` at the current location. -/
def dhalt {α : Type} (s : PpState Λ) (error : PpError) : Except PpStop α :=
  .error (.dhalt error s.frame.getLocation)

/-- The state after reading up to a rest of the input. -/
def readTo (s : PpState Λ) (rest : List Char) : PpState Λ :=
  { s with frame := s.frame.advanceTo rest }

/-- The state after printing to the input. -/
def print (s : PpState Λ) (text : List Char) : PpState Λ := { s with frame := s.frame.printf text }

/-- What follows a loop that reads. -/
def scan {α β : Type} (s : PpState Λ) (r : Scan α) (k : α → PpState Λ → Except PpStop β) :
    Except PpStop β :=
  match r with
  | .done a rest => k a (s.readTo rest)
  | .halt error rest => (s.readTo rest).dhalt error
  | .dry => .error .noInput

/-- Handlers return the state, and whether the handlers are tried again from the first. -/
abbrev Handled (Λ : Type) := Except PpStop (PpState Λ × Bool)

/-- The end of a definition: a definition of a text as itself is left out. -/
def registerDefinition (s : PpState Λ) (name full replacement : Bstring) (handler : Handler) :
    Handled Λ :=
  if full = replacement then .ok (s, false)
  else .ok (s.register (nameMatch name handler), true)

/-- `define_handle` of the assembler. -/
def defineHandle (s : PpState Λ) : Handled Λ :=
  s.scan (defineWord [] s.frame.pending) fun (word, gettingDefinition) s =>
    if gettingDefinition then
      s.scan (defineDefinition [] s.frame.pending) fun definition s =>
        (s.print ['\n']).registerDefinition word word definition (.replaceHandle definition)
    else (s.print ['\n']).registerDefinition word word [] (.replaceHandle [])

/-- `define_handle` of C. -/
def cDefineHandle (s : PpState Λ) : Handled Λ :=
  let define (n : MacroName) (definition : Bstring) (s : PpState Λ) : Handled Λ :=
    let definition := if definition = [] ∧ n.isMacro = false then ['1'] else definition
    s.registerDefinition n.name n.word definition
      (if n.isMacro then .macroHandle n.word definition else .replaceHandle definition)
  s.scan (macroWord .cDefineParametersIncorrect true [] [] false s.frame.pending) fun n s =>
    if n.gettingDefinition then
      s.scan (cDefineDefinition [] 0 s.frame.pending) fun (definition, ended, continued) s =>
        let s := { s with frame := s.frame.oprintf (List.replicate continued '\n') }
        match ended with
        | .line => define n definition (s.print ['\n'])
        | .comment c => define n definition { s with frame := s.frame.iprintf ['/', c] }
    else define n [] (s.print ['\n'])

/-- `macro_def_handle`. -/
def macroDefHandle (s : PpState Λ) : Handled Λ :=
  s.scan (macroWord .asmMacroParametersIncorrect false [] [] false s.frame.pending) fun n s =>
    if n.isMacro = false then s.dhalt .asmMacroParametersExpected
    else
      s.scan (macroDefinition [] 0 s.frame.pending) fun definition s =>
        s.registerDefinition n.name n.word definition (.macroHandle n.word definition)

/-- The registration of the parameters of a macro; an argument that is its parameter is left
out. -/
def registerParameters (s : PpState Λ) : List (Bstring × Bstring) → PpState Λ
  | [] => s
  | (parameter, argument) :: rest =>
    if parameter = argument then s.registerParameters rest
    else (s.register (nameMatch parameter (.replaceHandle argument))).registerParameters rest

/-- As many calls of `ppimpl_pop_scope`. -/
def popScopes (s : PpState Λ) : ℕ → PpState Λ
  | 0 => s
  | n + 1 => s.popScope.popScopes n

/-- `macro_handle`. -/
def macroHandle (s : PpState Λ) (full replacement : Bstring) : Handled Λ :=
  s.scan (openBracket [] 0 s.frame.pending) fun pops s =>
    let s := s.popScopes pops
    let startLoc := s.frame.getLocation
    match readArguments 0 [] [] s.frame.pending with
    | none => .error (.dhalt .noTerminatingBracket startLoc)
    | some (arguments, rest) =>
      let parameters := macroParameters full
      if parameters.length < arguments.length then .error (.dhalt .tooManyParameters startLoc)
      else if arguments.length < parameters.length then
        .error (.dhalt .notEnoughParameters startLoc)
      else
        let s := ((s.readTo rest).pushScope true).registerParameters (parameters.zip arguments)
        .ok (s.print (cString replacement ++ macroTerminate), false)

/-- The end of `if_handle` and of `ifdef_general_handle`: the branch is printed to the
input. -/
def printBranch (s : PpState Λ) (l : Language) (value : Bool) : Handled Λ :=
  match selectBranch l value s.frame.pending with
  | .error why => .error why
  | .ok r => s.scan r fun output s => .ok (s.print (cString output), false)

/-- `ppparam_get`. -/
def paramGet (env : PpEnv Λ) (s : PpState Λ) : List Parameter × PpState Λ :=
  let (parameters, rest, lexer) := env.paramGet s.lexer s.frame.pending
  (parameters, { s.readTo rest with lexer := lexer })

/-- `if_handle`. -/
def ifHandle (env : PpEnv Λ) (l : Language) (s : PpState Λ) : Handled Λ :=
  match s.paramGet env with
  | ([.expression evaluate], s) =>
    match evaluate s.handlers with
    | .error error => s.dhalt error
    | .ok value => s.printBranch l (value ≠ 0)
  | (_, s) =>
    s.dhalt (match l with | .asm => .asmIfParametersIncorrect | .c => .cIfParametersIncorrect)

/-- `ifdef_general_handle`. Its loop looks at the first handler in every turn. -/
def ifdefGeneralHandle (env : PpEnv Λ) (exist : Bool) (s : PpState Λ) : Handled Λ :=
  match s.paramGet env with
  | ([.word word], s) =>
    s.printBranch .c (if s.handlers.head?.any (·.text = word) then exist else !exist)
  | (_, s) =>
    s.dhalt (if exist then .cIfdefParametersIncorrect else .cIfndefParametersIncorrect)

/-- `line_handle`. -/
def lineHandle (env : PpEnv Λ) (l : Language) (s : PpState Λ) : Handled Λ :=
  let update (n : UInt32) (name : Bstring) (s : PpState Λ) : Handled Λ :=
    let quoted := match l with | .asm => cString name | .c => '"' :: cString name ++ ['"']
    let s := s.print (['#', ' '] ++ formatInt n ++ [' '] ++ quoted ++ ['\n'])
    .ok ({ s with frame := { s.frame with currentLine := n, currentFilename := name } }, false)
  match s.paramGet env with
  | ([.number n, .string name], s) | ([.number n, .word name], s) => update n name s
  | (_, s) =>
    .error (.dhalt
      (match l with | .asm => .asmLineParametersIncorrect | .c => .cLineParametersIncorrect)
      s.frame.getLocationPrev)

/-- `uline_handle`. -/
def ulineHandle (env : PpEnv Λ) (s : PpState Λ) : Handled Λ :=
  match s.paramGet env with
  | ([.number n, .string name], s) | ([.number n, .word name], s) =>
    .ok (s.print (['#', 'U', ' '] ++ formatInt n ++ [' '] ++ cString name ++ ['\n']), false)
  | (_, s) => .error (.dhalt .asmUlineParametersIncorrect s.frame.getLocationPrev)

/-- `include_handle` up to the processing of the file, which is that of the child state. -/
def includeHandle (env : PpEnv Λ) (l : Language) (s : PpState Λ) : Handled Λ :=
  let notFound := match l with
    | .asm => PpError.asmIncludeFileNotFound
    | .c => .cIncludeFileNotFound
  match s.paramGet env with
  | ([.string path], s) | ([.angledString path], s) =>
    match env.locate path with
    | none => s.dhalt notFound
    | some (path, contents) =>
      .ok ({ s with
        frame := newFrame env.printIndex path 1 contents
        parents := s.frame :: s.parents }, false)
  | (_, s) =>
    s.dhalt (match l with
      | .asm => .asmIncludeParametersIncorrect | .c => .cIncludeParametersIncorrect)

/-- The end of `include_handle`: the child pushes its output to the parent, and a tracking
line is printed. -/
def includeDone (parent : Frame) (output : List Char) : Frame :=
  (parent.oprintf output).oprintf (parent.lineMark ++ ['\n'])

/-- The handler of a match. -/
def handle (env : PpEnv Λ) (s : PpState Λ) : Handler → Handled Λ
  | .replaceHandle replacement => .ok (s.print (cString replacement), false)
  | .macroHandle full replacement => s.macroHandle full replacement
  | .macroTermHandle => .ok (s.popScope, false)
  | .defineHandle .asm => s.defineHandle
  | .defineHandle .c => s.cDefineHandle
  | .macroDefHandle => s.macroDefHandle
  | .ifHandle l => s.ifHandle env l
  | .ifdefGeneralHandle exist => s.ifdefGeneralHandle env exist
  | .elseHandle .asm => s.dhalt .asmElseNoIf
  | .elseHandle .c => s.dhalt .cElseNoIf
  | .endifHandle .asm => s.dhalt .asmEndifNoIf
  | .endifHandle .c => s.dhalt .cEndifNoIf
  | .includeHandle l => s.includeHandle env l
  | .lineHandle l => s.lineHandle env l
  | .ulineHandle => s.ulineHandle env

end PpState

/-! ### The machine -/

/-- Where the preprocessor is. -/
inductive Outcome (Λ : Type)
  | running (s : PpState Λ)
  | finished (output : List Char)
  | stopped (why : PpStop)

/-- The turn in which a handler is tried: the one of index `i`. -/
def tryHandler (env : PpEnv Λ) (s : PpState Λ) (i : ℕ) (m : Match) : Outcome Λ :=
  let (found, f) := s.frame.matchTest m
  if found then
    match { s with frame := { f.removeMatch m with next := some (i + 1) } }.handle
        env m.handler with
    | .error why => .stopped why
    | .ok (s, reprocess) =>
      .running (if reprocess then { s with frame := { s.frame with next := some 0 } } else s)
  else .running { s with frame := { f with next := some (i + 1) } }

/-- One turn of `ppimpl_process`. -/
def step (env : PpEnv Λ) (s : PpState Λ) : Outcome Λ :=
  match s.frame.next with
  | some i =>
    match s.handlers[i]? with
    | some m => tryHandler env s i m
    | none => .running { s with frame := { s.frame with next := none } }
  | none =>
    if s.frame.pending = [] then
      match s.parents with
      | [] => .finished (s.frame.cachedOutput)
      | parent :: parents =>
        .running { s with
          frame := PpState.includeDone parent s.frame.cachedOutput
          parents := parents }
    else .running { s with frame := s.frame.fetch }

/-- As many turns. -/
def run (env : PpEnv Λ) (s : PpState Λ) : ℕ → Outcome Λ
  | 0 => .running s
  | n + 1 =>
    match step env s with
    | .running s => run env s n
    | o => o

end DcpuToolchain
