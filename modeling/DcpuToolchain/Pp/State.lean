import DcpuToolchain.Ld.Bin

/-!
# The state of the preprocessor

The preprocessor (`ppimpl.c`) copies its input to its output one character at a time, and
after each of them looks whether the end of the output matches one of its handlers. A
handler reads on from the input and prints in front of what is left of it, so that what
it prints is processed again.

Here are the state, reading and printing, and the scopes: the handlers registered in a
scope are removed when it is popped, and those they displaced are restored.

A file that is included is processed by a child state, which shares the handlers and the
scopes with its parent; what a state has of its own is its `DcpuToolchain.Frame`.
-/

namespace DcpuToolchain

/-! ### Handlers -/

/-- The languages that are preprocessed. -/
inductive Language
  | asm | c
  deriving DecidableEq, Repr

/-- The handler of a match, with its user data. -/
inductive Handler
  /-- `replace_handle`, with the replacement text. -/
  | replaceHandle (replacement : Bstring)
  /-- `macro_handle`, with the name including the parameters and the replacement text. -/
  | macroHandle (full replacement : Bstring)
  | macroTermHandle
  | defineHandle (l : Language)
  | macroDefHandle
  | ifHandle (l : Language)
  | ifdefGeneralHandle (exist : Bool)
  | elseHandle (l : Language)
  | endifHandle (l : Language)
  | includeHandle (l : Language)
  | lineHandle (l : Language)
  | ulineHandle
  deriving DecidableEq, Repr

/-- `struct __match`. -/
structure Match where
  text : Bstring
  handler : Handler
  lineStartOnly : Bool
  identifierOnly : Bool
  caseInsensitive : Bool
  deriving DecidableEq, Repr

/-- `scope_t`. -/
structure Scope where
  active : Bool
  startIndex : ℕ
  oldHandlers : List Match
  newHandlers : List Bstring
  deriving DecidableEq, Repr

/-! ### The state -/

/-- What a state has of its own. The provided input is a list of characters; `next` is the
handler the loop of `ppimpl_process` tries next, if it is in the midst of trying them. -/
structure Frame where
  cachedInput : List Char
  input : List Char
  cachedOutput : List Char
  actualLine : UInt32
  currentLine : UInt32
  currentFilename : Bstring
  inSingleString : Bool
  inDoubleString : Bool
  printIndex : ℕ
  next : Option ℕ
  deriving DecidableEq, Repr

/-- `state_t`, with the states of the files that include this one, the innermost first, as
are the scopes; `lexer` is the state of the lexer that reads the parameters of directives. -/
structure PpState (Λ : Type) where
  frame : Frame
  parents : List Frame
  handlers : List Match
  scopes : List Scope
  lexer : Λ

namespace Frame

/-- All input that is left. -/
def pending (f : Frame) : List Char := f.cachedInput ++ f.input

/-- `ppimpl_get_input`, where there is input. -/
def getInput (f : Frame) : Frame :=
  match f.cachedInput with
  | c :: cs =>
    { f with cachedInput := cs, actualLine := if c = '\n' then f.actualLine + 1 else f.actualLine }
  | [] =>
    match f.input with
    | c :: cs =>
      { f with input := cs, currentLine := if c = '\n' then f.currentLine + 1 else f.currentLine }
    | [] => f

/-- As many calls of `ppimpl_get_input`. -/
def advance (f : Frame) : ℕ → Frame
  | 0 => f
  | n + 1 => f.getInput.advance n

/-- Reading until a rest of the input is left. -/
def advanceTo (f : Frame) (rest : List Char) : Frame :=
  f.advance (f.pending.length - rest.length)

end Frame

/-- What `%s` prints of a string. -/
def cString (s : Bstring) : List Char := s.takeWhile (· ≠ '\x00')

/-- What `%u` prints of a line number. -/
def formatUnsigned (n : UInt32) : List Char := Nat.toDigits 10 n.toNat

/-- What `%i` prints of a line number. -/
def formatInt (n : UInt32) : List Char :=
  match n.toBitVec.toInt with
  | .ofNat n => Nat.toDigits 10 n
  | .negSucc n => '-' :: Nat.toDigits 10 (n + 1)

namespace Frame

/-- `ppimpl_oprintf`. -/
def oprintf (f : Frame) (text : List Char) : Frame :=
  { f with cachedOutput := f.cachedOutput ++ text.filter (· ≠ '\x00') }

/-- Insertion at the printing cursor. `list_insert_at` fails behind the end of the list. -/
def insertPrinted (f : Frame) (text : List Char) : Frame :=
  { f with
    cachedInput :=
      if f.printIndex ≤ f.cachedInput.length then
        f.cachedInput.take f.printIndex ++ text ++ f.cachedInput.drop f.printIndex
      else f.cachedInput
    printIndex := f.printIndex + text.length }

/-- `ppimpl_iprintf`. -/
def iprintf (f : Frame) (text : List Char) : Frame := f.insertPrinted (text.filter (· ≠ '\x00'))

/-- `ppimpl_printf`. The text is counted with its terminator, so that its last character is
never a newline and no line correction is printed. -/
def printf (f : Frame) (text : List Char) : Frame :=
  let text := text.filter (· ≠ '\x00')
  { f.insertPrinted text with actualLine := f.actualLine + (text.count '\n').toUInt32 }

/-- The line correction, `# %i %s`. -/
def lineMark (f : Frame) : List Char :=
  ['#', ' '] ++ formatInt f.currentLine ++ [' '] ++ cString f.currentFilename

/-- `ppimpl_get_location`. -/
def getLocation (f : Frame) : Bstring :=
  ['l', 'i', 'n', 'e', ' '] ++ formatUnsigned f.currentLine ++ [' ', 'o', 'f', ' ', '\''] ++
    cString f.currentFilename ++ ['\'']

/-- `ppimpl_get_location_prev`. -/
def getLocationPrev (f : Frame) : Bstring :=
  ['l', 'i', 'n', 'e', ' '] ++ formatUnsigned (f.currentLine - 1) ++ [' ', 'o', 'f', ' ', '\''] ++
    cString f.currentFilename ++ ['\'']

end Frame

/-! ### Scopes -/

namespace PpState

variable {Λ : Type}

/-- `ppimpl_push_scope`. -/
def pushScope (s : PpState Λ) (active : Bool) : PpState Λ :=
  { s with scopes := ⟨active, s.frame.cachedOutput.length, [], []⟩ :: s.scopes }

/-- `ppimpl_register`: handlers of the same name are moved into the scope. -/
def register (s : PpState Λ) (m : Match) : PpState Λ :=
  match s.scopes with
  | [] => { s with handlers := s.handlers ++ [m] }
  | scope :: scopes =>
    { s with
      handlers := s.handlers.filter (·.text ≠ m.text) ++ [m]
      scopes :=
        { scope with
          oldHandlers := scope.oldHandlers ++ s.handlers.filter (·.text = m.text)
          newHandlers := scope.newHandlers ++ [m.text] } :: scopes }

/-- `ppimpl_pop_scope`: the handlers that were defined in the scope are deleted, and those
they displaced are restored. -/
def popScope (s : PpState Λ) : PpState Λ :=
  match s.scopes with
  | [] => s
  | scope :: scopes =>
    { s with
      frame :=
        -- the text of a silenced scope is deleted
        if scope.active then s.frame
        else { s.frame with cachedOutput := s.frame.cachedOutput.take scope.startIndex }
      handlers := s.handlers.filter (·.text ∉ scope.newHandlers) ++ scope.oldHandlers
      scopes := scopes }

end PpState

end DcpuToolchain
