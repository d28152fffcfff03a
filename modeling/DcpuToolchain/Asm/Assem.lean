import DcpuToolchain.Asm.Aout
import DcpuToolchain.Asm.Imap

/-!
# The front end of the assembler

`libdcpu-ci-asm/assem.c` and the nodes of `node.h` that it works on: what is emitted for each
line that the parser has read, and where it stops. The parser puts lines and parameters in
lists from the last to the first, which are reversed here before anything else; they are lists
from the first to the last.

Of what `process_line` does about a line, the debugging symbols are left out, which go to
another file. The parser always gives an instruction parameters, if only none, so that there is
no branch here for instructions without.
-/

namespace DcpuToolchain

/-! ### Nodes -/

/-- `struct ast_node_parameter`, with what it points to. -/
inductive AstNodeParameter
  /-- `struct ast_node_address`; `addcmpt` is the register that is added. -/
  | address (value : Expr) (bracketed : Bool) (addcmpt : Option String)
  /-- `struct ast_node_register`. -/
  | registr (value : String) (bracketed : Bool)
  /-- The bytes of a string. -/
  | raw (data : List UInt8)
  deriving DecidableEq, Repr

/-- The tokens that stand for keywords. -/
inductive Keyword
  | symbol | sections | output | boundary | fill | extension | incbin | origin | seek | exports
  | imports | importOptional | jump | call
  deriving DecidableEq, Repr

/-- `struct ast_node_line`. -/
inductive AstNodeLine
  | keyword (keyword : Keyword) (string : Option String) (expr1 expr2 : Option Expr)
  /-- `struct ast_node_instruction`, with its parameters. -/
  | instruction (instruction : String) (parameters : List AstNodeParameter)
  | label (name : String)
  deriving DecidableEq, Repr

/-- Why the front end stops. -/
inductive AssemError
  | nextedRegisterUnsupported (name : String)
  | bracketedRegisterUnsupported (name : String)
  | genUnsupportedParameter
  | datUnsupportedParameter
  | labelResolutionNotPermitted (name : String)
  | expression (exit : ExprExit)
  | unknownOpcode (name : String)
  | outputNull
  /-- `WARN_RELATIVE_PC_ADDRESSING`, if it is treated as an error. -/
  | relativePcAddressing
  deriving DecidableEq, Repr

/-! ### Parameters -/

/-- `struct process_parameter_results`; `vExtra` is there if `v_extra_used` is set. -/
structure ProcessParameterResults where
  v : Word := 0
  vExtra : Option Expr := none
  vLabel : Option String := none
  vLabelBracketed : Bool := false
  vRaw : Option (List UInt8) := none
  deriving DecidableEq, Repr

/-- `process_address`. -/
def processAddress (value : Expr) (bracketed : Bool) (addcmpt : Option String) :
    Except AssemError ProcessParameterResults :=
  match bracketed, addcmpt with
  | true, some addcmpt =>
    match getRegisterByNameNext addcmpt with
    | none =>
      -- It is called again, with the label added to the value and without the brackets.
      .ok { v := 0x1F, vExtra := some (.expr (.label addcmpt) .add value) }
    | some registr =>
      if registr.value = valueNextUnsupported then .error (.nextedRegisterUnsupported addcmpt)
      else .ok { v := registr.value, vExtra := some value }
  | true, none => .ok { v := 0x1E, vExtra := some value }
  | false, _ => .ok { v := 0x1F, vExtra := some value }

/-- `process_register`. -/
def processRegister (value : String) (bracketed : Bool) :
    Except AssemError ProcessParameterResults :=
  match getRegisterByName value bracketed with
  | none => .ok { vLabel := some value, vLabelBracketed := bracketed }
  | some registr =>
    if registr.value = bracketsUnsupported then .error (.bracketedRegisterUnsupported value)
    else .ok { v := registr.value }

/-- `process_parameter`. -/
def processParameter : AstNodeParameter → Except AssemError ProcessParameterResults
  | .address value bracketed addcmpt => processAddress value bracketed addcmpt
  | .registr value bracketed => processRegister value bracketed
  | .raw data => .ok { vRaw := some data }

/-- A parameter of an instruction, which may not be a string. -/
def processOperand (param : AstNodeParameter) : Except AssemError ProcessParameterResults :=
  match processParameter param with
  | .ok t => if t.vRaw.isSome then .error .genUnsupportedParameter else .ok t
  | .error err => .error err

/-- `process_parameters`: the results for the first two, which are zero where there is none. -/
def processParameters : List AstNodeParameter →
    Except AssemError (ProcessParameterResults × ProcessParameterResults)
  | [] => .ok ({}, {})
  | [a] => (processOperand a).map (·, {})
  | a :: b :: _ =>
    match processOperand a with
    | .error err => .error err
    | .ok a => (processOperand b).map (a, ·)

/-! ### Entries -/

/-- `aout_create_opcode`. -/
def aoutCreateOpcode (opcode a b : Word) : Except AssemError AoutByte :=
  if opcode = 0 ∧ a = 0 then .error .outputNull else .ok { opcode := opcode, a := a, b := b }

/-- The `aout_create_metadata_...` with a name. -/
def aoutCreateMetadata (type : AoutType) (name : Option String) : AoutByte :=
  { type := type, label := name }

/-- `aout_create_metadata_origin` and `aout_create_metadata_seek`. -/
def aoutCreateMetadataAddress (type : AoutType) (address : Word) : AoutByte :=
  { type := type, opcode := address, expr := some (.number address) }

/-! ### Lines -/

/-- `bstr2cstr`, where a character stands for the zeros. -/
def bstr2cstr (s : String) (z : Char) : String :=
  String.ofList (s.toList.map fun c => if c = '\x00' then z else c)

/-- The name of a keyword, for what is emitted. -/
def keywordName (string : Option String) : Option String := string.map (bstr2cstr · '0')

/-- The value of an expression of a keyword, in which no label may be. -/
def keywordValue (string : Option String) (expr : Option Expr) : Except AssemError Word :=
  match expr with
  | none => .error (.labelResolutionNotPermitted (string.getD ""))
  | some expr =>
    match expr.evaluate fun _ => none with
    | .ok val => .ok val
    | .error (.labelNotFound name) => .error (.labelResolutionNotPermitted name)
    | .error exit => .error (.expression exit)

/-- `.FILL`. -/
def processFill (string : Option String) (expr1 expr2 : Option Expr) :
    Except AssemError (List AoutByte) :=
  if expr1 = none ∨ expr2 = none then .error (.labelResolutionNotPermitted (string.getD ""))
  else
    match keywordValue string expr1, keywordValue string expr2 with
    | .ok flimit, .ok fchar => .ok (List.replicate flimit.toNat (aoutCreateRaw fchar))
    | .error err, _ | _, .error err => .error err

/-- The keywords of `process_line`. -/
def processKeyword (keyword : Keyword) (string : Option String) (expr1 expr2 : Option Expr) :
    Except AssemError (List AoutByte) :=
  match keyword with
  | .symbol => .ok []
  | .sections => .ok [aoutCreateMetadata .sections (keywordName string)]
  | .output => .ok [aoutCreateMetadata .output (keywordName string)]
  | .boundary => .ok (List.replicate 16 (aoutCreateRaw 0))
  | .fill => processFill string expr1 expr2
  | .extension => .ok [aoutCreateMetadata .extension (keywordName string)]
  | .incbin => .ok [aoutCreateMetadata .incbin (keywordName string)]
  | .origin => (keywordValue string expr1).map fun opos => [aoutCreateMetadataAddress .origin opos]
  | .seek => (keywordValue string expr1).map fun opos => [aoutCreateMetadataAddress .seek opos]
  | .exports => .ok [aoutCreateMetadata .exports (keywordName string)]
  | .imports => .ok [aoutCreateMetadata .imports (keywordName string)]
  | .importOptional => .ok [aoutCreateMetadata .importOptional (keywordName string)]
  | .jump => .ok [aoutCreateMetadata .jump (keywordName string)]
  | .call => .ok [aoutCreateMetadata .call (keywordName string)]

/-- A parameter of `DAT`. -/
def processDatum (param : AstNodeParameter) : Except AssemError (List AoutByte) :=
  match processParameter param with
  | .error err => .error err
  | .ok dparam =>
    match dparam.vLabel, dparam.vRaw, dparam.vExtra with
    | some label, _, _ => .ok [aoutCreateExpr (.label label)]
    | none, some data, _ => .ok (data.map fun c => aoutCreateRaw (BitVec.ofNat 16 c.toNat))
    | none, none, some expr => .ok [aoutCreateExpr expr]
    | none, none, none => .error .datUnsupportedParameter

/-- The loop over the parameters of `DAT`: what has been emitted, and where it has stopped. -/
def processData : List AstNodeParameter → List AoutByte × Option AssemError
  | [] => ([], none)
  | param :: params =>
    match processDatum param with
    | .error err => ([], some err)
    | .ok entries => (entries ++ (processData params).1, (processData params).2)

/-- The operand that is put in the instruction word: a label takes the next word. -/
def ProcessParameterResults.forced (r : ProcessParameterResults) : Word :=
  if r.vLabel = none then r.v else if r.vLabelBracketed then 0x1E else 0x1F

/-- The next word, if there is one. -/
def ProcessParameterResults.emitted (r : ProcessParameterResults) : List AoutByte :=
  match r.vLabel with
  | some label => [aoutCreateExpr (.label label)]
  | none => (r.vExtra.map aoutCreateExpr).toList

/-- `OP_ADD`, `OP_SUB`, `OP_MUL` and `OP_DIV` to `PC`. -/
def relativePc (opcode a : Word) : Bool :=
  (opcode = 0x02 || opcode = 0x03 || opcode = 0x04 || opcode = 0x06) && a = 0x1C

/-- Instructions of `process_line`, other than `DAT`. -/
def processInstruction (relativePcIsError : Bool) (instruction : String)
    (parameters : List AstNodeParameter) : Except AssemError (List AoutByte) :=
  match getInstructionByName instruction with
  | none => .error (.unknownOpcode instruction)
  | some insttype =>
    match processParameters parameters with
    | .error err => .error err
    | .ok (a, b) =>
      if relativePc insttype.opcode a.forced ∧ relativePcIsError = true then
        .error .relativePcAddressing
      else
        (if insttype.opcode ≠ 0 then aoutCreateOpcode insttype.opcode a.forced b.forced
        else aoutCreateOpcode insttype.opcode insttype.nbopcode a.forced).map
          fun entry => entry :: (b.emitted ++ a.emitted)

/-- The entries of a line, and no error; or no entries, and the error. -/
def emittedOr (entries : Except AssemError (List AoutByte)) : List AoutByte × Option AssemError :=
  match entries with
  | .ok entries => (entries, none)
  | .error err => ([], some err)

/-- `process_line`: what it emits, and whether it stops. -/
def processLine (relativePcIsError : Bool) : AstNodeLine → List AoutByte × Option AssemError
  | .keyword keyword string expr1 expr2 => emittedOr (processKeyword keyword string expr1 expr2)
  | .instruction instruction parameters =>
    if instruction = "DAT" ∨ instruction = ".DAT" then processData parameters
    else emittedOr (processInstruction relativePcIsError instruction parameters)
  | .label name => ([aoutCreateLabel name], none)

/-- `process_lines`. -/
def processLines (relativePcIsError : Bool) : List AstNodeLine → List AoutByte × Option AssemError
  | [] => ([], none)
  | line :: lines =>
    match processLine relativePcIsError line with
    | (entries, some err) => (entries, some err)
    | (entries, none) =>
      (entries ++ (processLines relativePcIsError lines).1,
        (processLines relativePcIsError lines).2)

/-- What `process_root` leaves to `aout_write`. -/
def processRoot (relativePcIsError : Bool) (lines : List AstNodeLine) : AoutSource :=
  ⟨(processLines relativePcIsError lines).1, (processLines relativePcIsError lines).2.isSome⟩

end DcpuToolchain
