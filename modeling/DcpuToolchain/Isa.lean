import Mathlib.Data.BitVec
import Mathlib.Tactic.IntervalCases

/-!
# Instruction words of the DCPU-16

The encoding every tool of the chain shares (`libdcpu/dcpu.h`): a machine word is
a bit vector of width 16, an instruction word packs an opcode in five bits, the
`b` operand in five and the `a` operand in six, and an operand code stands for a
register, a memory access, the stack, or a literal.

The C code switches on raw codes. Here the two switches are made once, by
`DcpuToolchain.operand` for operand codes and by `DcpuToolchain.decode` for
opcodes, and everything downstream is a case analysis on the inductive types
`DcpuToolchain.Operand` and `DcpuToolchain.Inst`.

The one derived notion is how many words an instruction takes: an operand that is
followed by a word of its own (`DcpuToolchain.Operand.hasNext`) adds one to the
instruction word (`DcpuToolchain.instSize`).
-/

namespace DcpuToolchain

/-- A machine word, `uint16_t` in the source. -/
abbrev Word := BitVec 16

/-- There are eight registers. -/
instance (priority := high) neZeroRegisters : NeZero (8 : ℕ) := ⟨Nat.succ_ne_zero 7⟩

/-- There are 256 places in the queue of interrupts. -/
instance (priority := high) neZeroQueue : NeZero (256 : ℕ) := ⟨Nat.succ_ne_zero 255⟩

/-! ### Packing and unpacking -/

/-- `INSTRUCTION_CREATE(op, b, a)`. -/
def instructionCreate (op b a : ℕ) : Word :=
  BitVec.ofNat 16 (((a &&& 0x3f) <<< 10) + ((b &&& 0x1f) <<< 5) + (op &&& 0x1f))

/-- `INSTRUCTION_GET_A`. -/
def instructionGetA (inst : Word) : ℕ := ((inst &&& 0xfc00#16) >>> 10).toNat

/-- `INSTRUCTION_GET_B`. -/
def instructionGetB (inst : Word) : ℕ := ((inst &&& 0x3e0#16) >>> 5).toNat

/-- `INSTRUCTION_GET_OP`. -/
def instructionGetOp (inst : Word) : ℕ := (inst &&& 0x1f#16).toNat

/-! ### Operands -/

/-- The operand codes of `dcpu.h`, grouped as the source's range tests group them.
`reg`, `val` and `nxtVal` carry the index of the register `A, B, C, X, Y, Z, I, J`;
`lit` carries the raw code of every other operand. -/
inductive Operand
  /-- `REG_A` to `REG_J`. -/
  | reg (r : Fin 8)
  /-- `VAL_A` to `VAL_J`: the word a register points to. -/
  | val (r : Fin 8)
  /-- `NXT_VAL_A` to `NXT_VAL_J`: the word at a register plus the next word. -/
  | nxtVal (r : Fin 8)
  /-- `PUSH_POP`: a push in the `b` slot, a pop in the `a` slot. -/
  | pushPop
  /-- `PEEK`. -/
  | peek
  /-- `PICK`: the word at `SP` plus the next word. -/
  | pick
  /-- `SP`. -/
  | sp
  /-- `PC`. -/
  | pc
  /-- `EX`. -/
  | ex
  /-- `NXT`: the word the next word points to. -/
  | nxt
  /-- `NXT_LIT`: the next word itself. -/
  | nxtLit
  /-- `IA`, a code no instruction word can hold. -/
  | ia
  /-- Any other code: a short literal. -/
  | lit (code : ℕ)
  deriving DecidableEq, Repr

/-- The `#define`s of `dcpu.h` that number the operands. -/
def operand (code : ℕ) : Operand :=
  if code ≤ 0x07 then .reg (Fin.ofNat 8 code)
  else if code ≤ 0x0F then .val (Fin.ofNat 8 (code - 0x08))
  else if code ≤ 0x17 then .nxtVal (Fin.ofNat 8 (code - 0x10))
  else if code = 0x18 then .pushPop
  else if code = 0x19 then .peek
  else if code = 0x1A then .pick
  else if code = 0x1B then .sp
  else if code = 0x1C then .pc
  else if code = 0x1D then .ex
  else if code = 0x1E then .nxt
  else if code = 0x1F then .nxtLit
  else if code = 0xFF then .ia
  else .lit code

/-- Whether the encoding gives the operand a word of its own after the
instruction word. -/
def Operand.hasNext : Operand → Bool
  | .nxtVal _ | .pick | .nxt | .nxtLit => true
  | _ => false

/-! ### Opcodes -/

/-- The basic opcodes, `OP_SET` to `OP_STD`. -/
inductive BasicOp
  | set | add | sub | mul | mli | div | dvi | mod | mdi | and | bor | xor | shr | asr | shl
  | ifb | ifc | ife | ifn | ifg | ifa | ifl | ifu | adx | sbx | sti | std
  deriving DecidableEq, Repr

/-- The non-basic opcodes that `vm_cycle` dispatches, `NBOP_JSR` to `NBOP_HWI`. -/
inductive NonbasicOp
  | jsr | int | iag | ias | rfi | iaq | hwn | hwq | hwi
  deriving DecidableEq, Repr

/-- The `#define`s that number the basic opcodes; `0x18`, `0x19`, `0x1C` and
`0x1D` number none, and `OP_NONBASIC` is `0`. -/
def basicOp : ℕ → Option BasicOp
  | 0x01 => some .set | 0x02 => some .add | 0x03 => some .sub | 0x04 => some .mul
  | 0x05 => some .mli | 0x06 => some .div | 0x07 => some .dvi | 0x08 => some .mod
  | 0x09 => some .mdi | 0x0A => some .and | 0x0B => some .bor | 0x0C => some .xor
  | 0x0D => some .shr | 0x0E => some .asr | 0x0F => some .shl | 0x10 => some .ifb
  | 0x11 => some .ifc | 0x12 => some .ife | 0x13 => some .ifn | 0x14 => some .ifg
  | 0x15 => some .ifa | 0x16 => some .ifl | 0x17 => some .ifu | 0x1A => some .adx
  | 0x1B => some .sbx | 0x1E => some .sti | 0x1F => some .std
  | _ => none

/-- The `#define`s that number the non-basic opcodes. -/
def nonbasicOp : ℕ → Option NonbasicOp
  | 0x01 => some .jsr | 0x08 => some .int | 0x09 => some .iag | 0x0A => some .ias
  | 0x0B => some .rfi | 0x0C => some .iaq | 0x10 => some .hwn | 0x11 => some .hwq
  | 0x12 => some .hwi
  | _ => none

/-- What the two nested switches of `vm_cycle` make of an instruction word. -/
inductive Inst
  /-- A basic instruction with its `b` and `a` operands. -/
  | basic (op : BasicOp) (b a : Operand)
  /-- A non-basic instruction with its only operand. -/
  | nonbasic (op : NonbasicOp) (a : Operand)
  /-- The `default` branches. -/
  | invalid
  deriving DecidableEq, Repr

/-- The dispatch of `vm_cycle`: `OP_NONBASIC` looks for its opcode in the `b`
field. -/
def decode (instruction : Word) : Inst :=
  let a := operand (instructionGetA instruction)
  if instructionGetOp instruction = 0 then
    match nonbasicOp (instructionGetB instruction) with
    | some op => .nonbasic op a
    | none => .invalid
  else
    match basicOp (instructionGetOp instruction) with
    | some op => .basic op (operand (instructionGetB instruction)) a
    | none => .invalid

/-- What a basic instruction is decoded from. -/
theorem decode_basic {w : Word} {op : BasicOp} {b a : Operand} (h : decode w = .basic op b a) :
    instructionGetOp w ≠ 0 ∧ basicOp (instructionGetOp w) = some op ∧
      b = operand (instructionGetB w) ∧ a = operand (instructionGetA w) := by
  unfold decode at h
  split at h
  · split at h <;> cases h
  · rename_i hop
    split at h
    · cases h
      exact ⟨hop, ‹_›, rfl, rfl⟩
    · cases h

/-- What a non-basic instruction is decoded from. -/
theorem decode_nonbasic {w : Word} {op : NonbasicOp} {a : Operand}
    (h : decode w = .nonbasic op a) :
    instructionGetOp w = 0 ∧ nonbasicOp (instructionGetB w) = some op ∧
      a = operand (instructionGetA w) := by
  unfold decode at h
  split at h
  · rename_i hop
    split at h
    · cases h
      exact ⟨hop, ‹_›, rfl⟩
    · cases h
  · split at h <;> cases h

/-- The conditional opcodes, `OP_IFB` to `OP_IFU`. -/
def BasicOp.isIf : BasicOp → Bool
  | .ifb | .ifc | .ife | .ifn | .ifg | .ifa | .ifl | .ifu => true
  | _ => false

/-- Whether an instruction is a conditional. -/
def Inst.isIf : Inst → Bool
  | .basic op _ _ => op.isIf
  | _ => false

/-- Whether an instruction word is a conditional is a matter of its opcode field. -/
theorem decode_isIf (w : Word) :
    (decode w).isIf = ((basicOp (instructionGetOp w)).map BasicOp.isIf).getD false := by
  unfold decode
  split
  · rename_i hop
    rw [hop]
    split <;> rfl
  · split <;> rename_i hop <;> rw [hop] <;> rfl

/-- How many words the encoding gives an instruction: the instruction word and the
next words of its operands. -/
def instSize : Inst → ℕ
  | .basic _ b a => 1 + a.hasNext.toNat + b.hasNext.toNat
  | .nonbasic _ a => 1 + a.hasNext.toNat
  | .invalid => 1

theorem instSize_pos (i : Inst) : 0 < instSize i := by
  cases i <;> simp only [instSize] <;> omega

theorem instSize_le (i : Inst) : instSize i ≤ 3 := by
  cases i with
  | basic op b a =>
    have := Bool.toNat_le a.hasNext
    have := Bool.toNat_le b.hasNext
    simp only [instSize]
    omega
  | nonbasic op a => have := Bool.toNat_le a.hasNext; simp only [instSize]; omega
  | invalid => simp [instSize]

/-! ### The fields of a word -/

theorem instructionGetOp_lt (w : Word) : instructionGetOp w < 0x20 := by
  have h : (w &&& 0x1f#16).toNat ≤ 0x1f := by
    rw [BitVec.toNat_and]
    exact Nat.and_le_right
  exact Nat.lt_succ_of_le h

theorem instructionGetB_lt (w : Word) : instructionGetB w < 0x20 := by
  have h : (w &&& 0x3e0#16).toNat ≤ 0x3e0 := by
    rw [BitVec.toNat_and]
    exact Nat.and_le_right
  rw [instructionGetB, BitVec.toNat_ushiftRight, Nat.shiftRight_eq_div_pow]
  omega

theorem instructionGetOp_eq (w : Word) : instructionGetOp w = w.toNat % 0x20 := by
  rw [instructionGetOp, BitVec.toNat_and]
  exact Nat.and_two_pow_sub_one_eq_mod _ 5

theorem instructionGetB_eq (w : Word) : instructionGetB w = w.toNat / 0x20 % 0x20 := by
  rw [instructionGetB, BitVec.toNat_ushiftRight, BitVec.toNat_and, Nat.shiftRight_and_distrib,
    Nat.shiftRight_eq_div_pow]
  exact Nat.and_two_pow_sub_one_eq_mod _ 5

theorem instructionGetA_eq (w : Word) : instructionGetA w = w.toNat / 0x400 := by
  have hlt : w.toNat / 0x400 < 2 ^ 6 := by
    have := w.isLt
    omega
  rw [instructionGetA, BitVec.toNat_ushiftRight, BitVec.toNat_and, Nat.shiftRight_and_distrib,
    Nat.shiftRight_eq_div_pow]
  exact (Nat.and_two_pow_sub_one_eq_mod _ 6).trans (Nat.mod_eq_of_lt hlt)

/-- **What is packed is unpacked.** -/
theorem instructionCreate_fields {op b a : ℕ} (hop : op < 0x20) (hb : b < 0x20) (ha : a < 0x40) :
    instructionGetOp (instructionCreate op b a) = op ∧
      instructionGetB (instructionCreate op b a) = b ∧
      instructionGetA (instructionCreate op b a) = a := by
  have hmask : ∀ n k : ℕ, n < 2 ^ k → n &&& (2 ^ k - 1) = n := fun n k h =>
    (Nat.and_two_pow_sub_one_eq_mod n k).trans (Nat.mod_eq_of_lt h)
  have hvalue : (instructionCreate op b a).toNat = a * 0x400 + b * 0x20 + op := by
    rw [instructionCreate, BitVec.toNat_ofNat, show a &&& 0x3f = a from hmask a 6 ha,
      show b &&& 0x1f = b from hmask b 5 hb, show op &&& 0x1f = op from hmask op 5 hop,
      Nat.shiftLeft_eq, Nat.shiftLeft_eq]
    omega
  rw [instructionGetOp_eq, instructionGetB_eq, instructionGetA_eq, hvalue]
  omega

end DcpuToolchain
