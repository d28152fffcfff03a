import DcpuToolchain.Expr.Evaluate
import DcpuToolchain.Fmt.Iio
import DcpuToolchain.Fmt.Objfile

/-!
# What the assembler writes

The emitter of the assembler (`libdcpu-ci-asm/aout.c`, `textn.c`, `treloc.c`): the front end
emits the entries of a program one after the other, and `aout_write` evaluates their expressions
and writes tables and words. It keeps what it has in global variables (`DcpuToolchain.Aout`), from
one program that is assembled to the next; `aout_reset` is called in between.

A source program is what the front end emits for it. Debugging symbols, which go to another
file, are left out.
-/

namespace DcpuToolchain

open Codec Stdio

/-! ### Entries -/

/-- `AOUT_TYPE_...`. -/
inductive AoutType
  | normal | extension | incbin | origin | exports | imports | sections | output | seek | jump
  | importOptional | call
  deriving DecidableEq, Repr

/-- `struct aout_byte`, less the links and the symbols. -/
structure AoutByte where
  type : AoutType := .normal
  opcode : Word := 0
  a : Word := 0
  b : Word := 0
  expr : Option Expr := none
  label : Option String := none
  rawUsed : Bool := false
  raw : Word := 0

/-- `aout_create_raw`. -/
def aoutCreateRaw (raw : Word) : AoutByte := { rawUsed := true, raw := raw }

/-- `aout_create_label`. -/
def aoutCreateLabel (name : String) : AoutByte := { label := some name }

/-- `aout_create_expr`. -/
def aoutCreateExpr (expression : Expr) : AoutByte := { expr := some expression }

/-- An entry from which addresses are counted anew. -/
def AoutByte.places (e : AoutByte) : Bool := e.type = .origin || e.type = .seek

/-! ### What a run is called with -/

/-- The warnings of `aout_write`. -/
inductive AoutWarning
  | useRelocationNotOrigin
  | expressionNotAdjusted
  deriving DecidableEq, Repr

/-- Why a program is not assembled. -/
inductive AoutError
  /-- The front end has stopped. -/
  | frontEnd
  | extensionUnknown (name : Option String)
  | extensionTableTooLarge
  | relocationTableTooLarge
  | keywordParameterMissing (keyword : String)
  | notGeneratingIntermediateCode
  | outputBeforeSection
  | labelNotFound (name : String)
  | expressionNotPermitted (name : String)
  | expression (exit : ExprExit)
  | unableToIncbin (name : Option String)
  | warning (w : AoutWarning)
  /-- A null pointer is followed, or a label is too long for its record. -/
  | undefined
  deriving DecidableEq, Repr

/-- The options of a run, and the files that can be included. -/
structure AoutRun where
  relocatable : Bool := false
  intermediate : Bool := false
  treatAsError : AoutWarning → Bool := fun _ => false
  modes : Imodes := ⟨.little, .big⟩
  order : Endian := .little
  incbin : String → Option (List UInt8) := fun _ => none

/-- What the front end emits for a program, and whether it stops with an error. -/
structure AoutSource where
  entries : List AoutByte
  stops : Bool := false

/-- The global variables. -/
structure Aout where
  start : List AoutByte := []
  codeOffset : Word := 0
  trueOrigin : Word := 0
  extensionData : List String := []
  extensionOffset : Word := 0
  relocData : List Word := []

/-! ### The tables of extensions and relocations -/

/-- `extension_map`. -/
def extensionMap : List String :=
  ["experimental-output-screen-32x12-0x8000", "experimental-output-screen-32x16-0x8000",
    "experimental-input-keyboard-single-0x9000"]

/-- `textn_verify_name`. -/
def textnVerifyName (name : String) : Option String :=
  extensionMap.find? fun extension => name.toLower = extension.toLower

/-- The loop of `textn_init`, on the names and the offset it has so far. -/
def textnInit : List AoutByte → List String × Word → (List String × Word) × Option AoutError
  | [], table => (table, none)
  | e :: entries, table =>
    if e.type = .extension then
      match e.label.bind textnVerifyName with
      | none => (table, some (.extensionUnknown e.label))
      | some name =>
        let table := (table.1 ++ [name], table.2 + BitVec.ofNat 16 (name.length + 1))
        if table.1.length = 50 then (table, some .extensionTableTooLarge)
        else textnInit entries table
    else textnInit entries table

/-- What `textn_init` returns. -/
def textnOffset (table : List String × Word) : Word :=
  if 0 < table.1.length then table.2 + 5 else 0

/-- The loop of `treloc_init`. -/
def trelocInit : List AoutByte → ℕ → List Word → List Word × Option AoutError
  | [], _, data => (data, none)
  | e :: entries, memIndex, data =>
    if e.type ≠ .normal then trelocInit entries memIndex data
    else
      let memIndex := if e.label = none then memIndex + 1 else memIndex
      match e.expr with
      | some (.label _) =>
        let data := data ++ [BitVec.ofNat 16 memIndex]
        if data.length = 2000 then (data, some .relocationTableTooLarge)
        else trelocInit entries memIndex data
      | _ => trelocInit entries memIndex data

/-- Words, one after the other. -/
def iwrites (m : Imodes) (words : List Word) (out : File) : File :=
  words.foldl (fun out w => iwrite m w out) out

/-- `INSTRUCTION_CREATE(OP_SET, PC, NXT_LIT)`, by which a table is jumped over. -/
def setPcNxtLit : Word := instructionCreate 0x01 0x1C 0x1F

/-- `textn_write`. -/
def textnWrite (m : Imodes) (s : Aout) (out : File) : File :=
  if s.extensionData = [] then out
  else
    iwrites m ([setPcNxtLit, s.extensionOffset + 5, 0x4321, 1,
      BitVec.ofNat 16 s.extensionData.length] ++
      s.extensionData.flatMap fun name => name.toList.map (BitVec.ofNat 16 ·.toNat) ++ [0]) out

/-- `treloc_write`. -/
def trelocWrite (m : Imodes) (s : Aout) (out : File) : File :=
  iwrites m ([setPcNxtLit, BitVec.ofNat 16 (s.relocData.length + 5), 0x1234, 1,
    BitVec.ofNat 16 s.relocData.length] ++ s.relocData) out

/-! ### Evaluating the expressions -/

/-- The loop of `aout_get_label_address`. -/
def labelAddress (name : String) : List AoutByte → Word → Bool → Except AoutError Word
  | [], _, foundImport =>
    .error (if foundImport then .expressionNotPermitted name else .labelNotFound name)
  | e :: entries, memIndex, foundImport =>
    if e.places then labelAddress name entries e.opcode foundImport
    else if e.type = .normal then
      match e.label with
      | none => labelAddress name entries (memIndex + 1) foundImport
      | some label =>
        if label = name then .ok memIndex else labelAddress name entries memIndex foundImport
    else if e.type = .imports ∨ e.type = .importOptional then
      labelAddress name entries memIndex (foundImport || e.label = some name)
    else labelAddress name entries memIndex foundImport

/-- `aout_get_label_address`. -/
def aoutGetLabelAddress (codeOffset : Word) (start : List AoutByte) (name : String) :
    Except AoutError Word := labelAddress name start codeOffset false

/-- `expr_evaluate` with the addresses of labels. -/
def aoutEvaluate (codeOffset : Word) (start : List AoutByte) (expr : Expr) :
    Except AoutError Word :=
  match expr.evaluate fun name => (aoutGetLabelAddress codeOffset start name).toOption with
  | .ok val => .ok val
  | .error (.labelNotFound name) => aoutGetLabelAddress codeOffset start name
  | .error exit => .error (.expression exit)

/-- The search for an import of a label, which stops at any import if the output is not
intermediate. -/
def findImport (run : AoutRun) (name : String) :
    List AoutByte → Except AoutError (Option AoutByte)
  | [] => .ok none
  | e :: entries =>
    if e.type = .imports ∨ e.type = .importOptional then
      if run.intermediate = false then .error .notGeneratingIntermediateCode
      else if e.label = some name then .ok (some e)
      else findImport run name entries
    else findImport run name entries

/-- The variables of the first loop of `aout_write`. -/
structure AoutScan where
  outIndex : ℕ
  tables : Table → List LprovEntry := fun _ => []
  hasOutput : Bool := false
  shownExprWarning : Bool := false

/-- A record is put in front of a table. -/
def AoutScan.record (s : AoutScan) (t : Table) (label : Option String) (address : ℕ) : AoutScan :=
  let entry : LprovEntry := ⟨label.map (·.toUTF8.data.toList), UInt16.ofNat address⟩
  { s with tables := Function.update s.tables t (entry :: s.tables t) }

/-- The value of an expression, and what is recorded about it. -/
def scanExpr (run : AoutRun) (codeOffset : Word) (start : List AoutByte) (s : AoutScan)
    (e : AoutByte) (expr : Expr) : Except AoutError (AoutByte × AoutScan) :=
  match expr with
  | .label name =>
    match findImport run name start with
    | .error err => .error err
    | .ok (some found) =>
      let t := if found.type = .imports then Table.required else Table.optional
      .ok ({ e with raw := 0xFFFF, expr := none }, s.record t found.label s.outIndex)
    | .ok none =>
      match aoutEvaluate codeOffset start expr with
      | .error err => .error err
      | .ok raw =>
        .ok ({ e with rawUsed := true, raw := raw, expr := none },
          s.record .adjustment none s.outIndex)
  | expr =>
    let warns := (run.relocatable || run.intermediate) && !s.shownExprWarning
    if warns && run.treatAsError .expressionNotAdjusted then
      .error (.warning .expressionNotAdjusted)
    else
      match aoutEvaluate codeOffset start expr with
      | .error err => .error err
      | .ok raw =>
        .ok ({ e with rawUsed := true, raw := raw, expr := none },
          { s with shownExprWarning := s.shownExprWarning || warns })

/-- A directive for the linker: it may need a parameter, and only intermediate output has it. -/
def linkerDirective (run : AoutRun) (e : AoutByte) (keyword : Option String)
    (record : Except AoutError AoutScan) : Except AoutError (AoutByte × AoutScan) :=
  match keyword with
  | some keyword =>
    if e.label = none then .error (.keywordParameterMissing keyword)
    else if run.intermediate = false then .error .notGeneratingIntermediateCode
    else record.map (e, ·)
  | none =>
    if run.intermediate = false then .error .notGeneratingIntermediateCode
    else record.map (e, ·)

/-- A turn of the first loop of `aout_write`, but for the counting of words. -/
def scanEntry (run : AoutRun) (codeOffset : Word) (start : List AoutByte) (s : AoutScan)
    (e : AoutByte) : Except AoutError (AoutByte × AoutScan) :=
  match e.type with
  | .origin =>
    if run.treatAsError .useRelocationNotOrigin then .error (.warning .useRelocationNotOrigin)
    else .ok (e, { s with outIndex := e.opcode.toNat })
  | .seek => .ok (e, { s with outIndex := e.opcode.toNat })
  | .sections =>
    linkerDirective run e (some "SECTION")
      (if s.hasOutput then .error .outputBeforeSection
        else .ok (s.record .section e.label s.outIndex))
  | .output =>
    linkerDirective run e (some "OUTPUT")
      (.ok ({ s with hasOutput := true }.record .output e.label s.outIndex))
  | .exports =>
    linkerDirective run e none
      (match e.label with
      | none => .error .undefined
      | some name => (aoutGetLabelAddress codeOffset start name).map fun address =>
          s.record .provided e.label address.toNat)
  | .jump =>
    linkerDirective run e none
      (match e.label with
      | none => .ok (s.record .jump none s.outIndex)
      | some name => (aoutGetLabelAddress codeOffset start name).map fun address =>
          s.record .jump e.label address.toNat)
  | .call =>
    linkerDirective run e (some "CALL")
      (.ok ({ s with hasOutput := true }.record .call e.label s.outIndex))
  | .normal =>
    match e.expr with
    | none => .ok (e, s)
    | some expr => scanExpr run codeOffset start s e expr
  | .extension | .incbin | .imports | .importOptional => .ok (e, s)

/-- The words that an entry takes. -/
def AoutByte.words (e : AoutByte) : ℕ := if e.type = .normal ∧ e.label = none then 1 else 0

/-- The first loop of `aout_write`. -/
def aoutScan (run : AoutRun) (codeOffset : Word) (start : List AoutByte) :
    List AoutByte → AoutScan → Except AoutError (List AoutByte × AoutScan)
  | [], s => .ok ([], s)
  | e :: entries, s =>
    match scanEntry run codeOffset start s e with
    | .error err => .error err
    | .ok (e', s') =>
      match aoutScan run codeOffset start entries { s' with outIndex := s'.outIndex + e.words } with
      | .error err => .error err
      | .ok (entries', s'') => .ok (e' :: entries', s'')

/-! ### Writing -/

/-- A turn of the second loop of `aout_write`. -/
def writeEntry (run : AoutRun) (trueOrigin : Word) (out : File) (e : AoutByte) :
    Except AoutError File :=
  match e.type with
  | .seek => .ok (out.fseek (trueOrigin.toNat + e.opcode.toNat * 2))
  | .incbin =>
    match e.label.bind run.incbin with
    | none => .error (.unableToIncbin e.label)
    | some content => .ok (out.fwrite content)
  | .normal =>
    if e.rawUsed then .ok (iwrite run.modes e.raw out)
    else if e.label = none then
      .ok (iwrite run.modes (instructionCreate e.opcode.toNat e.a.toNat e.b.toNat) out)
    else .ok out
  | _ => .ok out

/-- `ldata_objfmt`, with the zero at its end. -/
def ldataObjfmt : List UInt8 := "OBJECT-FORMAT-1.2".toUTF8.data.toList ++ [0]

/-- What comes before the words, and the true origin. -/
def writeTables (run : AoutRun) (s : Aout) (tables : Table → List LprovEntry) (out : File) :
    Option (Aout × File) :=
  let tail (s : Aout) (out : File) :=
    let out := textnWrite run.modes s out
    (s, if run.relocatable then trelocWrite run.modes s out else out)
  if run.intermediate then
    (objfileSave run.order tables).map fun saved =>
      let out := (out.fwrite ldataObjfmt).fwrite saved
      tail { s with trueOrigin := BitVec.ofNat 16 out.pos } out
  else some (tail s out)

/-- The beginning of `aout_write`: the tables of extensions and relocations, by which the code is
offset. -/
def aoutInit (run : AoutRun) (s : Aout) : Aout × Option AoutError :=
  let extensions := textnInit s.start ([], 0)
  let s := { s with extensionData := extensions.1.1, extensionOffset := extensions.1.2 }
  match extensions.2 with
  | some err => (s, some err)
  | none =>
    let s := { s with codeOffset := s.codeOffset + textnOffset extensions.1 }
    if run.relocatable then
      let relocs := trelocInit s.start 0 []
      let s := { s with relocData := relocs.1 }
      match relocs.2 with
      | some err => (s, some err)
      | none =>
        ({ s with codeOffset := s.codeOffset + BitVec.ofNat 16 (relocs.1.length + 5) }, none)
    else (s, none)

/-- The loops of `aout_write` to a new file: the file, and the address behind the last word. The
entries that an error leaves evaluated or not are not told apart. -/
def aoutWriteWords (run : AoutRun) (s : Aout) : Aout × Except AoutError (File × Word) :=
  match aoutScan run s.codeOffset s.start s.start { outIndex := s.codeOffset.toNat } with
  | .error err => (s, .error err)
  | .ok (entries, scan) =>
    let s := { s with start := entries }
    match writeTables run s scan.tables ⟨[], 0, false⟩ with
    | none => (s, .error .undefined)
    | some (s, out) =>
      (s, (entries.foldlM (writeEntry run s.trueOrigin) out).map fun out =>
        (out, BitVec.ofNat 16 ((out.pos - s.trueOrigin.toNat) / 2)))

/-- `aout_write`. -/
def aoutWrite (run : AoutRun) (s : Aout) : Aout × Except AoutError (File × Word) :=
  match aoutInit run s with
  | (s, some err) => (s, .error err)
  | (s, none) => aoutWriteWords run s

/-- A program is assembled: its entries are emitted, and written unless the front end has
stopped. -/
def assemble (run : AoutRun) (source : AoutSource) (s : Aout) :
    Aout × Except AoutError (File × Word) :=
  let s := { s with start := s.start ++ source.entries }
  if source.stops then (s, .error .frontEnd) else aoutWrite run s

/-- The bytes that are written. -/
def assembled (run : AoutRun) (source : AoutSource) (s : Aout) : Except AoutError (List UInt8) :=
  (assemble run source s).2.map (·.1.content)

/-- `aout_reset`. It frees the first entry and the last one: twice the same, if there is only
one. -/
def aoutReset (s : Aout) : Option Aout :=
  if s.start.length = 1 then none else some { s with start := [] }

end DcpuToolchain
