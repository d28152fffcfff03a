import DcpuToolchain.Instr

/-!
# The names of opcodes and registers

The tables of `libdcpu/imap.c` and the functions that search them. The assembler turns
names into numbers by them, and the disassembler numbers into names.

What a register name stands for depends on what is around it: a register is itself, a word
in brackets, or a word in brackets with an offset, and not every register may be each
(`DcpuToolchain.plainArg`, `DcpuToolchain.bracketedArg`, `DcpuToolchain.offsetArg`).
-/

namespace DcpuToolchain

/-! ### The tables -/

/-- `struct instruction_mapping`. -/
structure InstructionMapping where
  name : String
  opcode : Word
  nbopcode : Word
  deriving DecidableEq, Repr

/-- `struct register_mapping`. -/
structure RegisterMapping where
  name : String
  value : Word
  deriving DecidableEq, Repr

/-- `OPCODE`. -/
def opcodeMapping (name : String) (op : BasicOp) : InstructionMapping :=
  ⟨name, BitVec.ofNat 16 op.code, 0⟩

/-- `NBOPCODE`. -/
def nbopcodeMapping (name : String) (op : NonbasicOp) : InstructionMapping :=
  ⟨name, 0, BitVec.ofNat 16 op.code⟩

/-- `instruction_name_map`. -/
def instructionNameMap : List InstructionMapping :=
  [opcodeMapping "SET" .set, opcodeMapping "ADD" .add, opcodeMapping "SUB" .sub,
    opcodeMapping "MUL" .mul, opcodeMapping "MLI" .mli, opcodeMapping "DIV" .div,
    opcodeMapping "DVI" .dvi, opcodeMapping "MOD" .mod, opcodeMapping "MDI" .mdi,
    opcodeMapping "AND" .and, opcodeMapping "BOR" .bor, opcodeMapping "XOR" .xor,
    opcodeMapping "SHR" .shr, opcodeMapping "ASR" .asr, opcodeMapping "SHL" .shl,
    opcodeMapping "IFB" .ifb, opcodeMapping "IFC" .ifc, opcodeMapping "IFE" .ife,
    opcodeMapping "IFN" .ifn, opcodeMapping "IFG" .ifg, opcodeMapping "IFA" .ifa,
    opcodeMapping "IFL" .ifl, opcodeMapping "IFU" .ifu, opcodeMapping "ADX" .adx,
    opcodeMapping "SBX" .sbx, opcodeMapping "STI" .sti, opcodeMapping "STD" .std,
    nbopcodeMapping "JSR" .jsr, nbopcodeMapping "INT" .int, nbopcodeMapping "IAG" .iag,
    nbopcodeMapping "IAS" .ias, nbopcodeMapping "RFI" .rfi, nbopcodeMapping "IAQ" .iaq,
    nbopcodeMapping "HWN" .hwn, nbopcodeMapping "HWQ" .hwq, nbopcodeMapping "HWI" .hwi]

/-- The mappings of the eight registers to the numbers from one on: `REGISTER`,
`REGISTER_VALUE` and `REGISTER_VALUE_NEXT`. -/
def registerMappings (first : Word) : List RegisterMapping :=
  [⟨"A", first⟩, ⟨"B", first + 1⟩, ⟨"C", first + 2⟩, ⟨"X", first + 3⟩, ⟨"Y", first + 4⟩,
    ⟨"Z", first + 5⟩, ⟨"I", first + 6⟩, ⟨"J", first + 7⟩]

/-- `BRACKETS_UNSUPPORTED`. -/
def bracketsUnsupported : Word := 0xFFFF

/-- `VALUE_NEXT_UNSUPPORTED`. -/
def valueNextUnsupported : Word := 0xFFFE

/-- `register_name_map`. -/
def registerNameMap : List RegisterMapping :=
  registerMappings 0x00 ++
    [⟨"POP", 0x18⟩, ⟨"PUSH", 0x18⟩, ⟨"PEEK", 0x19⟩, ⟨"SP", 0x1B⟩, ⟨"PC", 0x1C⟩, ⟨"EX", 0x1D⟩]

/-- `register_value_name_map`. -/
def registerValueNameMap : List RegisterMapping :=
  registerMappings 0x08 ++
    [⟨"POP", bracketsUnsupported⟩, ⟨"PEEK", bracketsUnsupported⟩, ⟨"PUSH", bracketsUnsupported⟩,
      ⟨"SP", 0x19⟩, ⟨"PC", bracketsUnsupported⟩, ⟨"EX", bracketsUnsupported⟩]

/-- `register_value_next_map`. -/
def registerValueNextMap : List RegisterMapping :=
  registerMappings 0x10 ++
    [⟨"POP", valueNextUnsupported⟩, ⟨"PEEK", valueNextUnsupported⟩,
      ⟨"PUSH", valueNextUnsupported⟩, ⟨"SP", 0x1A⟩, ⟨"PC", valueNextUnsupported⟩,
      ⟨"EX", valueNextUnsupported⟩]

/-! ### Searching them -/

/-- `get_instruction_by_value`. -/
def getInstructionByValue (opcode nbopcode : Word) : Option InstructionMapping :=
  instructionNameMap.find? fun m =>
    (opcode ≠ 0 && m.opcode = opcode) || (opcode = 0 && m.opcode = 0 && m.nbopcode = nbopcode)

/-- `get_instruction_by_name`. -/
def getInstructionByName (name : String) : Option InstructionMapping :=
  instructionNameMap.find? fun m => m.name = name

/-- The search of a table for a name, by `stricmp`. -/
def findRegister (name : String) (table : List RegisterMapping) : Option RegisterMapping :=
  table.find? fun m => m.name.toLower = name.toLower

/-- `get_register_by_name`. -/
def getRegisterByName (name : String) (bracketed : Bool) : Option RegisterMapping :=
  if bracketed then findRegister name registerValueNameMap else findRegister name registerNameMap

/-- `get_register_by_name_next`. -/
def getRegisterByNameNext (name : String) : Option RegisterMapping :=
  findRegister name registerValueNextMap

/-! ### Opcodes -/

/-- The opcode that a mapping is for. -/
def InstructionMapping.op (m : InstructionMapping) : Option (BasicOp ⊕ NonbasicOp) :=
  if m.opcode = 0 then (nonbasicOp m.nbopcode.toNat).map .inr
  else (basicOp m.opcode.toNat).map .inl

/-- The opcode of a name. -/
def opNamed (name : String) : Option (BasicOp ⊕ NonbasicOp) :=
  (getInstructionByName name).bind InstructionMapping.op

/-- **Every mapping is for an opcode**, and is what the opcode is found by. -/
theorem instructionNameMap_cases {m : InstructionMapping} (h : m ∈ instructionNameMap) :
    ((∃ op, m = opcodeMapping m.name op) ∨ ∃ op, m = nbopcodeMapping m.name op) ∧
      getInstructionByValue m.opcode m.nbopcode = some m ∧
      getInstructionByName m.name = some m := by
  have hop : ∀ m ∈ instructionNameMap,
      ((∃ op, m = opcodeMapping m.name op) ∨ ∃ op, m = nbopcodeMapping m.name op) := by
    simp only [instructionNameMap, List.forall_mem_cons, List.not_mem_nil, false_imp_iff,
      implies_true, and_true]
    refine ⟨?_, ?_, ?_, ?_, ?_, ?_, ?_, ?_, ?_, ?_, ?_, ?_, ?_, ?_, ?_, ?_, ?_, ?_, ?_, ?_, ?_,
      ?_, ?_, ?_, ?_, ?_, ?_, ?_, ?_, ?_, ?_, ?_, ?_, ?_, ?_, ?_⟩
    all_goals first | exact .inl ⟨_, rfl⟩ | exact .inr ⟨_, rfl⟩
  have hfound : ∀ m ∈ instructionNameMap, getInstructionByValue m.opcode m.nbopcode = some m ∧
      getInstructionByName m.name = some m := by decide
  exact ⟨hop m h, hfound m h⟩

theorem getInstructionByName_mem {name : String} {m : InstructionMapping}
    (h : getInstructionByName name = some m) : m ∈ instructionNameMap :=
  List.mem_of_find?_eq_some h

/-- A name in the table of opcodes has its opcode. -/
theorem opNamed_cases (instruction : String) :
    (getInstructionByName instruction = none ∧ opNamed instruction = none) ∨
      (∃ op, getInstructionByName instruction = some (opcodeMapping instruction op) ∧
        opNamed instruction = some (.inl op)) ∨
      ∃ op, getInstructionByName instruction = some (nbopcodeMapping instruction op) ∧
        opNamed instruction = some (.inr op) := by
  cases hfound : getInstructionByName instruction with
  | none => exact .inl ⟨rfl, by rw [opNamed, hfound]; rfl⟩
  | some m =>
    have hfind := hfound
    rw [getInstructionByName] at hfind
    have hname := List.find?_some hfind
    rw [decide_eq_true_eq] at hname
    obtain ⟨hop, -, -⟩ := instructionNameMap_cases (getInstructionByName_mem hfound)
    rw [hname] at hop
    rw [opNamed, hfound, Option.bind_some]
    refine .inr (hop.imp ?_ ?_)
    · rintro ⟨op, rfl⟩
      exact ⟨op, rfl, by cases op <;> rfl⟩
    · rintro ⟨op, rfl⟩
      exact ⟨op, rfl, by cases op <;> rfl⟩

/-- The opcode of a basic instruction is never zero. -/
theorem ofNat_basicOp_code_ne (op : BasicOp) : BitVec.ofNat 16 op.code ≠ 0 := by
  cases op <;> decide

theorem ofNat_nonbasicOp_code_ne (op : NonbasicOp) : BitVec.ofNat 16 op.code ≠ 0 := by
  cases op <;> decide

/-! ### Registers -/

/-- The names of registers, in lower case letters. -/
def registerNames : List String :=
  ["a", "b", "c", "x", "y", "z", "i", "j", "pop", "peek", "push", "sp", "pc", "ex"]

section Args

variable {α : Type}

/-- The register of a name, if it is one of the eight. -/
def registerNamed : String → Option (Fin 8)
  | "a" => some 0 | "b" => some 1 | "c" => some 2 | "x" => some 3
  | "y" => some 4 | "z" => some 5 | "i" => some 6 | "j" => some 7
  | _ => none

/-- What a name stands for that is not in brackets. -/
def plainArg (name : String) : Option (Arg α) :=
  match registerNamed name with
  | some r => some (.reg r)
  | none =>
    match name with
    | "pop" | "push" => some .pushPop
    | "peek" => some .peek
    | "sp" => some .sp
    | "pc" => some .pc
    | "ex" => some .ex
    | _ => none

/-- What a name stands for in brackets. -/
def bracketedArg (name : String) : Option (Arg α) :=
  match registerNamed name with
  | some r => some (.val r)
  | none => if name = "sp" then some .peek else none

/-- What a name stands for in brackets, with an offset. -/
def offsetArg (name : String) (w : α) : Option (Arg α) :=
  match registerNamed name with
  | some r => some (.nxtVal r w)
  | none => if name = "sp" then some (.pick w) else none

variable (name : String) (w : α)

/-- The number of an operand does not depend on the type of next words. -/
theorem code_plainArg : (plainArg name : Option (Arg α)).map Arg.code =
    (plainArg name : Option (Arg Unit)).map Arg.code := by
  unfold plainArg
  split
  · rfl
  · split <;> rfl

theorem code_bracketedArg : (bracketedArg name : Option (Arg α)).map Arg.code =
    (bracketedArg name : Option (Arg Unit)).map Arg.code := by
  unfold bracketedArg
  split
  · rfl
  · split <;> rfl

theorem code_offsetArg : (offsetArg name w).map Arg.code = (offsetArg name ()).map Arg.code := by
  unfold offsetArg
  split
  · rfl
  · split <;> rfl

end Args

/-! ### What the searches find -/

section Search

variable {α : Type} {name : String}

/-- A name that is none of a register is in no table of registers. -/
theorem findRegister_of_not (h : name.toLower ∉ registerNames) {table : List RegisterMapping}
    (htable : ∀ m ∈ table, m.name.toLower ∈ registerNames) : findRegister name table = none := by
  refine List.find?_eq_none.mpr fun m hm heq => h ?_
  rw [← of_decide_eq_true heq]
  exact htable m hm

theorem getRegisterByName_of_not (h : name.toLower ∉ registerNames) (bracketed : Bool) :
    getRegisterByName name bracketed = none := by
  unfold getRegisterByName
  split
  · exact findRegister_of_not h (by decide +kernel)
  · exact findRegister_of_not h (by decide +kernel)

theorem getRegisterByNameNext_of_not (h : name.toLower ∉ registerNames) :
    getRegisterByNameNext name = none := findRegister_of_not h (by decide +kernel)

/-- **A name without brackets** is found as what it stands for. -/
theorem getRegisterByName_false (h : name.toLower ∈ registerNames) :
    (getRegisterByName name false).map (·.value) =
      (plainArg name.toLower : Option (Arg α)).map fun a => BitVec.ofNat 16 a.code := by
  have hkeys : ∀ key ∈ registerNames,
      (registerNameMap.find? fun m => m.name.toLower = key).map (·.value) =
        ((plainArg key : Option (Arg Unit)).map Arg.code).map (BitVec.ofNat 16) := by
    decide +kernel
  refine (hkeys _ h).trans ?_
  rw [← code_plainArg, Option.map_map]
  rfl

/-- **A name in brackets** is found as what it stands for, or is not supported. -/
theorem getRegisterByName_true (h : name.toLower ∈ registerNames) :
    (getRegisterByName name true).map (·.value) =
      some (((bracketedArg name.toLower : Option (Arg α)).map fun a =>
        BitVec.ofNat 16 a.code).getD bracketsUnsupported) := by
  have hkeys : ∀ key ∈ registerNames,
      (registerValueNameMap.find? fun m => m.name.toLower = key).map (·.value) =
        some ((((bracketedArg key : Option (Arg Unit)).map Arg.code).map (BitVec.ofNat 16)).getD
          bracketsUnsupported) := by
    decide +kernel
  refine (hkeys _ h).trans ?_
  rw [← code_bracketedArg, Option.map_map]
  rfl

/-- **A name with an offset** is found as what it stands for, or is not supported. -/
theorem getRegisterByNameNext_value (h : name.toLower ∈ registerNames) (w : α) :
    (getRegisterByNameNext name).map (·.value) =
      some (((offsetArg name.toLower w).map fun a =>
        BitVec.ofNat 16 a.code).getD valueNextUnsupported) := by
  have hkeys : ∀ key ∈ registerNames,
      (registerValueNextMap.find? fun m => m.name.toLower = key).map (·.value) =
        some ((((offsetArg key ()).map Arg.code).map (BitVec.ofNat 16)).getD
          valueNextUnsupported) := by
    decide +kernel
  refine (hkeys _ h).trans ?_
  rw [← code_offsetArg _ w, Option.map_map]
  rfl

end Search

end DcpuToolchain
