import DcpuToolchain.Isa
import Mathlib.Data.List.Basic
import Mathlib.Tactic.FinCases

/-!
# Instructions with the words behind them

What an instruction says: a `DcpuToolchain.Arg` is an operand with its next word, if it has
one, and a `DcpuToolchain.Instr` an opcode with its operands, of which the one for `a` can also
be a literal in the instruction word (`DcpuToolchain.ArgA`). The next words are of any type,
which is `Word` in a memory and `Expr` in a source.

An instruction is encoded in its instruction word and the next words behind it, that of
the `a` operand before that of the `b` operand, and is read back from the instruction word
by `DcpuToolchain.decode`.
-/

namespace DcpuToolchain

/-! ### Opcodes -/

/-- The numbers of the basic opcodes. -/
def BasicOp.code : BasicOp → ℕ
  | .set => 0x01 | .add => 0x02 | .sub => 0x03 | .mul => 0x04 | .mli => 0x05 | .div => 0x06
  | .dvi => 0x07 | .mod => 0x08 | .mdi => 0x09 | .and => 0x0A | .bor => 0x0B | .xor => 0x0C
  | .shr => 0x0D | .asr => 0x0E | .shl => 0x0F | .ifb => 0x10 | .ifc => 0x11 | .ife => 0x12
  | .ifn => 0x13 | .ifg => 0x14 | .ifa => 0x15 | .ifl => 0x16 | .ifu => 0x17 | .adx => 0x1A
  | .sbx => 0x1B | .sti => 0x1E | .std => 0x1F

/-- The numbers of the non-basic opcodes. -/
def NonbasicOp.code : NonbasicOp → ℕ
  | .jsr => 0x01 | .int => 0x08 | .iag => 0x09 | .ias => 0x0A | .rfi => 0x0B | .iaq => 0x0C
  | .hwn => 0x10 | .hwq => 0x11 | .hwi => 0x12

@[simp] theorem basicOp_code (op : BasicOp) : basicOp op.code = some op := by
  cases op <;> rfl

@[simp] theorem nonbasicOp_code (op : NonbasicOp) : nonbasicOp op.code = some op := by
  cases op <;> rfl

theorem BasicOp.code_lt (op : BasicOp) : op.code < 0x20 := by
  cases op <;> decide

theorem BasicOp.code_ne_zero (op : BasicOp) : op.code ≠ 0 := by
  cases op <;> decide

theorem NonbasicOp.code_lt (op : NonbasicOp) : op.code < 0x20 := by
  cases op <;> decide

/-! ### Operands -/

/-- An operand with its next word. -/
inductive Arg (α : Type)
  | reg (r : Fin 8)
  | val (r : Fin 8)
  | nxtVal (r : Fin 8) (w : α)
  | pushPop
  | peek
  | pick (w : α)
  | sp
  | pc
  | ex
  | nxt (w : α)
  | nxtLit (w : α)
  deriving DecidableEq, Repr

namespace Arg

variable {α β : Type}

/-- The operand without its next word. -/
def operand : Arg α → Operand
  | reg r => .reg r
  | val r => .val r
  | nxtVal r _ => .nxtVal r
  | pushPop => .pushPop
  | peek => .peek
  | pick _ => .pick
  | sp => .sp
  | pc => .pc
  | ex => .ex
  | nxt _ => .nxt
  | nxtLit _ => .nxtLit

/-- The number of the operand. -/
def code : Arg α → ℕ
  | reg r => r
  | val r => 0x08 + r
  | nxtVal r _ => 0x10 + r
  | pushPop => 0x18
  | peek => 0x19
  | pick _ => 0x1A
  | sp => 0x1B
  | pc => 0x1C
  | ex => 0x1D
  | nxt _ => 0x1E
  | nxtLit _ => 0x1F

/-- The next word. -/
def next : Arg α → Option α
  | nxtVal _ w | pick w | nxt w | nxtLit w => some w
  | _ => none

/-- The operand with another next word. -/
def map (f : α → β) : Arg α → Arg β
  | reg r => reg r
  | val r => val r
  | nxtVal r w => nxtVal r (f w)
  | pushPop => pushPop
  | peek => peek
  | pick w => pick (f w)
  | sp => sp
  | pc => pc
  | ex => ex
  | nxt w => nxt (f w)
  | nxtLit w => nxtLit (f w)

theorem code_lt (a : Arg α) : a.code < 0x20 := by
  cases a <;> simp only [code] <;> omega

theorem operand_code (a : Arg α) : DcpuToolchain.operand a.code = a.operand := by
  cases a with
  | reg r => fin_cases r <;> rfl
  | val r => fin_cases r <;> rfl
  | nxtVal r w => fin_cases r <;> rfl
  | _ => rfl

/-- An operand has a next word if its number says so. -/
@[simp] theorem hasNext_operand (a : Arg α) : a.operand.hasNext = a.next.isSome := by
  cases a <;> rfl

@[simp] theorem operand_map (f : α → β) (a : Arg α) : (a.map f).operand = a.operand := by
  cases a <;> rfl

@[simp] theorem code_map (f : α → β) (a : Arg α) : (a.map f).code = a.code := by
  cases a <;> rfl

@[simp] theorem next_map (f : α → β) (a : Arg α) : (a.map f).next = a.next.map f := by
  cases a <;> rfl

end Arg

/-- An operand in the place of `a`, which can be a short literal. -/
inductive ArgA (α : Type)
  | arg (a : Arg α)
  | lit (v : Fin 0x20)
  deriving DecidableEq, Repr

namespace ArgA

variable {α β : Type}

/-- The operand without its next word. -/
def operand : ArgA α → Operand
  | arg a => a.operand
  | lit v => .lit (0x20 + v)

/-- The number of the operand. -/
def code : ArgA α → ℕ
  | arg a => a.code
  | lit v => 0x20 + v

/-- The next word. -/
def next : ArgA α → Option α
  | arg a => a.next
  | lit _ => none

/-- The operand with another next word. -/
def map (f : α → β) : ArgA α → ArgA β
  | arg a => arg (a.map f)
  | lit v => lit v

theorem code_lt (a : ArgA α) : a.code < 0x40 := by
  cases a with
  | arg a => exact a.code_lt.trans (by decide)
  | lit v =>
    have hv := v.isLt
    rw [code]
    omega

theorem operand_code (a : ArgA α) : DcpuToolchain.operand a.code = a.operand := by
  cases a with
  | arg a => exact a.operand_code
  | lit v => fin_cases v <;> rfl

@[simp] theorem hasNext_operand (a : ArgA α) : a.operand.hasNext = a.next.isSome := by
  cases a with
  | arg a => exact a.hasNext_operand
  | lit v => rfl

@[simp] theorem operand_map (f : α → β) (a : ArgA α) : (a.map f).operand = a.operand := by
  cases a with
  | arg a => exact a.operand_map f
  | lit v => rfl

@[simp] theorem code_map (f : α → β) (a : ArgA α) : (a.map f).code = a.code := by
  cases a with
  | arg a => exact a.code_map f
  | lit v => rfl

@[simp] theorem next_map (f : α → β) (a : ArgA α) : (a.map f).next = a.next.map f := by
  cases a with
  | arg a => exact a.next_map f
  | lit v => rfl

end ArgA

/-! ### Instructions -/

/-- An instruction with its next words. -/
inductive Instr (α : Type)
  | two (op : BasicOp) (b : Arg α) (a : ArgA α)
  | one (op : NonbasicOp) (a : ArgA α)
  deriving DecidableEq, Repr

namespace Instr

variable {α β : Type}

/-- A basic instruction without a short literal. -/
@[match_pattern] abbrev basic (op : BasicOp) (b a : Arg α) : Instr α := two op b (.arg a)

/-- A non-basic instruction without a short literal. -/
@[match_pattern] abbrev nonbasic (op : NonbasicOp) (a : Arg α) : Instr α := one op (.arg a)

/-- The instruction without its next words. -/
def inst : Instr α → Inst
  | two op b a => .basic op b.operand a.operand
  | one op a => .nonbasic op a.operand

/-- The opcode. -/
def op : Instr α → BasicOp ⊕ NonbasicOp
  | two op _ _ => .inl op
  | one op _ => .inr op

/-- The instruction word. -/
def word : Instr α → Word
  | two op b a => instructionCreate op.code b.code a.code
  | one op a => instructionCreate 0 op.code a.code

/-- The next words. -/
def nexts : Instr α → List α
  | two _ b a => a.next.toList ++ b.next.toList
  | one _ a => a.next.toList

/-- The instruction with other next words. -/
def map (f : α → β) : Instr α → Instr β
  | two op b a => two op (b.map f) (a.map f)
  | one op a => one op (a.map f)

/-- How many words an instruction takes. -/
def size (i : Instr α) : ℕ := 1 + i.nexts.length

/-- The words of an instruction. -/
def encode (i : Instr Word) : List Word := i.word :: i.nexts

theorem length_encode (i : Instr Word) : i.encode.length = i.size := Nat.add_comm _ _

/-- **An instruction is read back from its instruction word.** -/
@[simp] theorem decode_word (i : Instr α) : decode i.word = i.inst := by
  cases i with
  | two op b a =>
    obtain ⟨hop, hb, ha⟩ := instructionCreate_fields op.code_lt b.code_lt a.code_lt
    simp only [decode, word, hop, hb, ha, op.code_ne_zero, if_false, basicOp_code,
      Arg.operand_code, ArgA.operand_code, inst]
  | one op a =>
    obtain ⟨hop, hb, ha⟩ := instructionCreate_fields (show 0 < 0x20 by decide) op.code_lt a.code_lt
    simp only [decode, word, hop, hb, ha, if_true, nonbasicOp_code, ArgA.operand_code, inst]

/-- **The words of an instruction are as many as it is read to take.** -/
theorem instSize_inst (i : Instr α) : instSize i.inst = i.size := by
  have hnext : ∀ w : Option α, w.isSome.toNat = w.toList.length := fun w => by cases w <;> rfl
  cases i with
  | two op b a =>
    rw [inst, instSize, Arg.hasNext_operand, ArgA.hasNext_operand, hnext, hnext, size, nexts,
      List.length_append, Nat.add_assoc]
  | one op a => rw [inst, instSize, ArgA.hasNext_operand, hnext, size, nexts]

@[simp] theorem word_map (f : α → β) (i : Instr α) : (i.map f).word = i.word := by
  cases i <;> simp [map, word]

@[simp] theorem op_map (f : α → β) (i : Instr α) : (i.map f).op = i.op := by
  cases i <;> rfl

@[simp] theorem nexts_map (f : α → β) (i : Instr α) : (i.map f).nexts = i.nexts.map f := by
  have hnext : ∀ w : Option α, (w.map f).toList = w.toList.map f := fun w => by cases w <;> rfl
  cases i with
  | two op b a =>
    rw [map, nexts, nexts, Arg.next_map, ArgA.next_map, hnext, hnext, List.map_append]
  | one op a => rw [map, nexts, nexts, ArgA.next_map, hnext]

@[simp] theorem size_map (f : α → β) (i : Instr α) : (i.map f).size = i.size := by
  rw [size, nexts_map, List.length_map, size]

end Instr

end DcpuToolchain
