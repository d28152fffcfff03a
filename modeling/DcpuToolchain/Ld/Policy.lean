import DcpuToolchain.Ld.Bin
import Mathlib.Data.List.Basic

/-!
# Linker policies

A linker policy is a small program that says how an application is laid out: its instructions
write words, from the code and from the tables of the linked bin. The interpreter
(`libdcpu-ld-policy/policyexec.c`) is `DcpuToolchain.instructionsExecute`, and what it calls
back for the linker (`libdcpu-ld/ldpolicy.c`) are `DcpuToolchain.policyField` and its like.

Programs are what the actions of the grammar (`parser.y`) build, so that each function has the
parameters that its rule gives it. The lists of the source are iterated from their first entry
to their last, and none is iterated twice at once as long as no policy chains into itself; the
variables of a state are numbers, since nothing else becomes one.
-/

namespace DcpuToolchain

/-! ### Programs -/

/-- `TABLE_...`. -/
inductive PolicyTable
  | adjustment | provided | required | section | output | jump | optional
  deriving DecidableEq, Repr

/-- `FIELD_...`. -/
inductive PolicyField
  | labelSize | labelText | address
  deriving DecidableEq, Repr

/-- `policy_value_t` as the parser builds it: a number, a variable, or one of the four function
calls. -/
inductive PolicyValue
  | number (number : Int)
  | var (string : String)
  | total (table : PolicyTable)
  | field (table : PolicyTable) (index : PolicyValue) (field : PolicyField)
  | code
  | words (parameters : List PolicyValue)

/-- Whether a value is a `FUNCTION`. -/
def PolicyValue.isFunction : PolicyValue → Bool
  | number _ | var _ => false
  | _ => true

/-- `policy_instruction_t`; `loop` is `KEYWORD_FOR`. -/
inductive PolicyInstruction
  | write (value : PolicyValue)
  | chain (name : String)
  | offset (value : PolicyValue)
  | loop (forVariable : String) (forStart forEnd : PolicyValue)
      (forInstructions : List PolicyInstruction)

/-- `policy_t`, if it is not the settings. -/
structure Policy where
  name : String
  instructions : List PolicyInstruction

/-- `policies_get_policy`. -/
def policiesGetPolicy (policies : List Policy) (name : String) : Option Policy :=
  policies.find? (·.name = name)

/-! ### States -/

/-- How the execution of a policy stops short of its end. -/
inductive PolicyStop
  /-- The error handler is called, which does not return. -/
  | error (message : String)
  /-- An `assert` failed. -/
  | assertion
  /-- A `NULL` is dereferenced: a table that was not created, or what `list_get_at` returned. -/
  | nullPointer
  /-- The number of a value is read that holds a list: the bits of an address. -/
  | notANumber
  /-- Policies chain into each other deeper than there are policies. -/
  | tooDeep
  deriving DecidableEq, Repr

/-- `policy_value_t` at run time. -/
inductive PolicyResult
  | number (number : Int)
  | list (list : List PolicyResult)

/-- `value->number`. -/
def PolicyResult.getNumber : PolicyResult → Except PolicyStop Int
  | number n => .ok n
  | list _ => .error .notANumber

/-- `policy_variable_t`. -/
structure PolicyVariable where
  name : String
  number : Int

/-- `struct policy_userdata`, with the bins it refers to. -/
structure PolicyUserdata where
  codeBin : LdBin
  outputBin : LdBin
  previousOffset : Word

/-- `policy_state_t`, less the policy and the callbacks. -/
structure PolicyState where
  vars : List PolicyVariable
  userdata : PolicyUserdata

/-! ### What the linker is called back for -/

/-- The table of a linked bin. `bins_flatten` creates every table of the bin but the sections,
which stay `NULL`. -/
def PolicyTable.table (bin : LdBin) : PolicyTable → Option (List LconvEntry)
  | adjustment => some (bin.tables .adjustment)
  | provided => some (bin.tables .provided)
  | required => some (bin.tables .required)
  | «section» => none
  | output => some (bin.tables .output)
  | jump => some (bin.tables .jump)
  | optional => some (bin.tables .optional)

/-- The words of a field of an entry. -/
def PolicyField.words (entry : LconvEntry) : PolicyField → List Word
  | address => [BitVec.ofNat 16 entry.address]
  | labelSize => [BitVec.ofNat 16 entry.label.length]
  | labelText => entry.label.map fun c => BitVec.ofNat 16 c.toNat

/-- `policy_code`. -/
def policyCode (u : PolicyUserdata) : List Word := u.codeBin.words

/-- `policy_field`: also the index behind the last entry is not outside the bounds. A negative
index is, before the table is looked at. -/
def policyField (u : PolicyUserdata) (table : PolicyTable) (index : Int) (field : PolicyField) :
    Except PolicyStop (List Word) :=
  if index < 0 then .ok []
  else
    match table.table u.codeBin with
    | none => .error .nullPointer
    | some tableList =>
      if (tableList.length : Int) < index then .ok []
      else
        match tableList[index.toNat]? with
        | none => .error .nullPointer
        | some entry => .ok (field.words entry)

/-- `policy_total_table`. -/
def policyTotalTable (u : PolicyUserdata) (table : PolicyTable) : Except PolicyStop Int :=
  match table.table u.codeBin with
  | none => .error .nullPointer
  | some tableList => .ok tableList.length

/-- The loop of `policy_offset`. -/
def offsetLoop (amount : Word) : List LconvEntry → List Word → Option (List Word)
  | [], words => some words
  | entry :: entries, words =>
    match words[entry.address]? with
    | none => none
    | some word => offsetLoop amount entries (words.set entry.address (word + amount))

/-- `policy_offset`. -/
def policyOffset (u : PolicyUserdata) (position : Int) : Except PolicyStop PolicyUserdata :=
  match offsetLoop (BitVec.ofInt 16 position - u.previousOffset) (u.codeBin.tables .adjustment)
      u.codeBin.words with
  | none => .error .nullPointer
  | some words => .ok
      { u with
        codeBin := { u.codeBin with words := words }
        previousOffset := BitVec.ofInt 16 position }

/-- `bin_write`. -/
def binWrite (bin : LdBin) (word : Word) : LdBin := { bin with words := bin.words ++ [word] }

/-- `policy_write`. -/
def policyWrite (u : PolicyUserdata) (words : List Word) : PolicyUserdata :=
  { u with outputBin := words.foldl binWrite u.outputBin }

/-! ### The interpreter -/

/-- A list of words as a value. -/
def wordsResult (words : List Word) : PolicyResult :=
  .list (words.map fun w => .number w.toNat)

mutual

/-- `value_evaluate`, and `function_evaluate` for the function calls. -/
def valueEvaluate (s : PolicyState) : PolicyValue → Except PolicyStop PolicyResult
  | .number number => .ok (.number number)
  | .var string =>
    match s.vars.find? (·.name = string) with
    | some v => .ok (.number v.number)
    | none => .error (.error ("referenced variable '" ++ string ++ "' was not found."))
  | .total table => do
      let total ← policyTotalTable s.userdata table
      return .number total
  | .field table index field =>
    if index.isFunction then .error .assertion
    else do
      let value ← valueEvaluate s index
      let index ← value.getNumber
      let words ← policyField s.userdata table index field
      return wordsResult words
  | .code => .ok (wordsResult (policyCode s.userdata))
  | .words parameters => do
      let list ← valuesEvaluate s parameters
      return .list list

/-- The loop of `FUNC_WORDS`. -/
def valuesEvaluate (s : PolicyState) : List PolicyValue → Except PolicyStop (List PolicyResult)
  | [] => .ok []
  | value :: values => do
    let result ← valueEvaluate s value
    let results ← valuesEvaluate s values
    return result :: results

end

/-- The numbers of values. -/
def getNumbers : List PolicyResult → Except PolicyStop (List Int)
  | [] => .ok []
  | result :: results => do
    let number ← result.getNumber
    let numbers ← getNumbers results
    return number :: numbers

/-- What `INST_WRITE` passes on. -/
def PolicyResult.written : PolicyResult → Except PolicyStop (List Word)
  | number n => .ok [BitVec.ofInt 16 n]
  | list results => do
    let numbers ← getNumbers results
    return numbers.map (BitVec.ofInt 16)

/-- The `for` loop of `KEYWORD_FOR`, whose variable is the one at a position of the list. -/
def forLoop (body : PolicyState → Except PolicyStop PolicyState) (position : ℕ) (target : Int) :
    (turns : ℕ) → PolicyState → Except PolicyStop PolicyState
  | 0, s => .ok s
  | turns + 1, s =>
    match s.vars[position]? with
    | none => .error .nullPointer
    | some v =>
      if v.number < target then do
        let s ← body s
        forLoop body position target turns
          { s with
            vars := s.vars.modify position fun v => { v with number := v.number + 1 } }
      else .ok s

mutual

/-- A turn of `instructions_execute`. A chained policy has no variables, and the rest of the
state in common. -/
def instructionExecute (chain : String → PolicyUserdata → Except PolicyStop PolicyUserdata) :
    PolicyInstruction → PolicyState → Except PolicyStop PolicyState
  | .chain name, s => do
    let u ← chain name s.userdata
    return { s with userdata := u }
  | .offset value, s => do
    let value ← valueEvaluate s value
    match value with
    | .list _ => throw (.error "expected numeric value for parameter to offset().")
    | .number number =>
      let u ← policyOffset s.userdata number
      return { s with userdata := u }
  | .write value, s => do
    let value ← valueEvaluate s value
    let words ← value.written
    return { s with userdata := policyWrite s.userdata words }
  | .loop forVariable forStart forEnd forInstructions, s =>
    if s.vars.any (·.name = forVariable) then
      .error (.error ("variable already declared in this scope '" ++ forVariable ++ "'."))
    else do
      let start ← valueEvaluate s forStart
      let target ← valueEvaluate s forEnd
      match target with
      | .list _ => throw (.error "for loop end must result in numeric value.")
      | .number target =>
        match start with
        | .list _ => throw (.error ("for loop start / variable '" ++ forVariable ++
            "' must contain numeric value for iteration."))
        | .number start =>
          let forRemoveAt := s.vars.length
          let s ← forLoop (instructionsExecute chain forInstructions) forRemoveAt target
            (target - start).toNat { s with vars := s.vars ++ [⟨forVariable, start⟩] }
          return { s with vars := s.vars.eraseIdx forRemoveAt }

/-- `instructions_execute`; `chain` executes a policy that is chained into. -/
def instructionsExecute (chain : String → PolicyUserdata → Except PolicyStop PolicyUserdata) :
    List PolicyInstruction → PolicyState → Except PolicyStop PolicyState
  | [], s => .ok s
  | inst :: instructions, s => do
    let s ← instructionExecute chain inst s
    instructionsExecute chain instructions s

end

/-- `INST_CHAIN`, so many policies deep. -/
def chainExecute (policies : List Policy) :
    (depth : ℕ) → String → PolicyUserdata → Except PolicyStop PolicyUserdata
  | 0, _, _ => .error .tooDeep
  | depth + 1, name, u =>
    match policiesGetPolicy policies name with
    | none => .error (.error "policy to chain into not found.")
    | some policy => do
      let s ← instructionsExecute (chainExecute policies depth) policy.instructions ⟨[], u⟩
      return s.userdata

/-- `policy_execute` on the state that `bins_apply_policy` sets up: the words of the output
bin. -/
def policyExecute (policies : List Policy) (policy : Policy) (code : LdBin) :
    Except PolicyStop (List Word) := do
  let s ← instructionsExecute (chainExecute policies (policies.length + 1)) policy.instructions
    ⟨[], ⟨code, binCreate "output_applied".toList, 0⟩⟩
  return s.userdata.outputBin.words

end DcpuToolchain
