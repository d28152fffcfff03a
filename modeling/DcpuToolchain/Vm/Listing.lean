import DcpuToolchain.Asm.Imap
import DcpuToolchain.Ld.Call
import DcpuToolchain.Vm.Observe

/-!
# What the disassembler shows

The instruction that `vm_disassemble` shows can be put together again from what it returns: the
opcode from the instruction word, and each operand from its number and the next word that is
returned for it (`DcpuToolchain.DisInst.shown`). Where the words of an instruction are in the
memory, and do not reach over its end, it is that instruction which is shown
(`DcpuToolchain.vmDisassemble_shown`).
-/

namespace DcpuToolchain

/-! ### Words in memory -/

section CodeAt

variable {ram : Word → Word} {pc w : Word} {words words' : List Word}

theorem CodeAt.head (h : CodeAt ram pc (w :: words)) : ram pc = w := by
  have hw := h 0 w rfl
  rwa [BitVec.add_zero] at hw

theorem CodeAt.tail (h : CodeAt ram pc (w :: words)) : CodeAt ram (pc + 1) words := by
  intro i v hv
  have hnext := h (i + 1) v hv
  rwa [Nat.add_comm i 1, BitVec.ofNat_add, ← BitVec.add_assoc] at hnext

theorem codeAt_nil : CodeAt ram pc [] := fun _ _ h => by cases h

theorem codeAt_cons (hhead : ram pc = w) (htail : CodeAt ram (pc + 1) words) :
    CodeAt ram pc (w :: words) := by
  intro i v hv
  cases i with
  | zero =>
    cases hv
    rw [BitVec.add_zero, hhead]
  | succ i =>
    rw [Nat.add_comm i 1, BitVec.ofNat_add, ← BitVec.add_assoc]
    exact htail i v hv

theorem codeAt_append_iff : CodeAt ram pc (words ++ words') ↔
    CodeAt ram pc words ∧ CodeAt ram (pc + BitVec.ofNat 16 words.length) words' := by
  induction words generalizing pc with
  | nil =>
    rw [List.nil_append, List.length_nil, BitVec.add_zero]
    exact (and_iff_right codeAt_nil).symm
  | cons w words ih =>
    have hpc : pc + BitVec.ofNat 16 (w :: words).length =
        pc + 1 + BitVec.ofNat 16 words.length := by
      rw [List.length_cons, Nat.add_comm, BitVec.ofNat_add, BitVec.add_assoc]
      rfl
    rw [List.cons_append, hpc]
    constructor
    · intro h
      obtain ⟨hwords, hwords'⟩ := ih.mp h.tail
      exact ⟨codeAt_cons h.head hwords, hwords'⟩
    · rintro ⟨hwords, hwords'⟩
      exact codeAt_cons hwords.head (ih.mpr ⟨hwords.tail, hwords'⟩)

/-- A memory that begins with words. -/
theorem codeAt_getD (h : words.length ≤ 0x10000) :
    CodeAt (fun a => words.getD a.toNat 0) 0 words := by
  intro i w hw
  have hlt := (List.getElem?_eq_some_iff.mp hw).1
  have hi : (0#16 + BitVec.ofNat 16 i).toNat = i := by
    rw [BitVec.zero_add, BitVec.toNat_ofNat]
    exact Nat.mod_eq_of_lt (by omega)
  change words.getD (0#16 + BitVec.ofNat 16 i).toNat 0 = w
  rw [hi, List.getD_eq_getElem?_getD, hw, Option.getD_some]

end CodeAt

/-! ### What is shown -/

/-- An operand with the next word that is given for it. -/
def Operand.arg (w : Word) : Operand → Option (Arg Word)
  | .reg r => some (.reg r)
  | .val r => some (.val r)
  | .nxtVal r => some (.nxtVal r w)
  | .pushPop => some .pushPop
  | .peek => some .peek
  | .pick => some (.pick w)
  | .sp => some .sp
  | .pc => some .pc
  | .ex => some .ex
  | .nxt => some (.nxt w)
  | .nxtLit => some (.nxtLit w)
  | .ia | .lit _ => none

theorem Arg.arg_operand (a : Arg Word) {w : Word} (h : ∀ v, a.next = some v → v = w) :
    a.operand.arg w = some a := by
  cases a with
  | nxtVal r v => rw [h v rfl]; rfl
  | pick v => rw [h v rfl]; rfl
  | nxt v => rw [h v rfl]; rfl
  | nxtLit v => rw [h v rfl]; rfl
  | _ => rfl

/-- An operand in the place of `a`, with the next word that is given for it. -/
def Operand.argA (w : Word) : Operand → Option (ArgA Word)
  | .lit code => if 0x20 ≤ code ∧ code < 0x40 then some (.lit (Fin.ofNat 0x20 code)) else none
  | o => (o.arg w).map .arg

theorem ArgA.argA_operand (a : ArgA Word) {w : Word} (h : ∀ v, a.next = some v → v = w) :
    a.operand.argA w = some a := by
  cases a with
  | arg a =>
    have harg := a.arg_operand h
    rw [ArgA.operand]
    cases a <;> exact congrArg (Option.map ArgA.arg) harg
  | lit v =>
    have hv := v.isLt
    rw [ArgA.operand, Operand.argA, if_pos ⟨Nat.le_add_right _ _, by omega⟩]
    refine congrArg (some ∘ ArgA.lit) (Fin.ext ?_)
    change (0x20 + v.val) % 0x20 = v
    rw [Nat.add_mod_left, Nat.mod_eq_of_lt hv]

namespace DisInst

/-- The instruction that is shown. -/
def shown (d : DisInst) : Option (Instr Word) :=
  match decode d.full with
  | .basic op _ _ =>
    match (operand d.originalB).arg d.next.2, (operand d.originalA).argA d.next.1 with
    | some b, some a => some (.two op b a)
    | _, _ => none
  | .nonbasic op _ => ((operand d.originalA).argA d.next.1).map (.one op)
  | .invalid => none

/-- `pretty.op`, the name of the opcode. -/
def prettyOp (d : DisInst) : Option String :=
  (getInstructionByValue (BitVec.ofNat 16 d.originalOp) (BitVec.ofNat 16 d.originalB)).map (·.name)

end DisInst

section Shown

variable {vm : Vm} {pos : Word} {i : Instr Word}

/-- How many next words are resolved. -/
theorem resolvedWords_word (i : Instr Word) : resolvedWords i.word = i.nexts.length := by
  have hnext : ∀ w : Option Word, w.isSome.toNat = w.toList.length := fun w => by cases w <;> rfl
  cases i with
  | two op b a =>
    obtain ⟨hop, hb, ha⟩ := instructionCreate_fields op.code_lt b.code_lt a.code_lt
    rw [resolvedWords, Instr.word, hop, hb, ha, if_neg op.code_ne_zero, ArgA.operand_code,
      ArgA.hasNext_operand, Arg.operand_code, Arg.hasNext_operand, hnext, hnext, Instr.nexts,
      List.length_append]
  | one op a =>
    obtain ⟨hop, -, ha⟩ := instructionCreate_fields (show 0 < 0x20 by decide) op.code_lt a.code_lt
    rw [resolvedWords, Instr.word, hop, ha, if_pos rfl, ArgA.operand_code, ArgA.hasNext_operand,
      hnext, Instr.nexts, Nat.add_zero]

/-- The words of an instruction are in the memory, and end within it. -/
structure Instr.LiesAt (i : Instr Word) (ram : Word → Word) (pos : Word) : Prop where
  code : CodeAt ram pos i.encode
  fits : pos.toNat + i.size ≤ 0x10000

/-- The next words of an instruction in the memory. -/
theorem Instr.LiesAt.vmRamAt_next (h : i.LiesAt vm.ram pos) {k : ℕ} {w : Word}
    (hw : i.nexts[k]? = some w) : vmRamAt vm (pos.toNat + (k + 1)) = w := by
  have hlt : k < i.nexts.length := (List.getElem?_eq_some_iff.mp hw).1
  have hfits := h.fits
  have hcode := h.code (k + 1) w hw
  rw [Instr.size] at hfits
  rw [vmRamAt, if_pos (by omega), BitVec.ofNat_add, BitVec.ofNat_toNat,
    BitVec.setWidth_eq]
  exact hcode

/-- The next words that are returned. -/
theorem vmDisassemble_next (vm : Vm) (pos : Word) :
    (vmDisassemble vm pos).1.next =
      if 2 ≤ resolvedWords (vm.ram pos) then
        (vmRamAt vm (pos.toNat + 1), vmRamAt vm (pos.toNat + 2))
      else if 1 ≤ resolvedWords (vm.ram pos) ∧
          (operand (instructionGetA (vm.ram pos))).hasNext = true then
        (vmRamAt vm (pos.toNat + 1), 0)
      else if 1 ≤ resolvedWords (vm.ram pos) ∧
          (operand (instructionGetB (vm.ram pos))).hasNext = true then
        (0, vmRamAt vm (pos.toNat + 1))
      else (0, 0) := by
  obtain ⟨sp, hleft⟩ := vmDisassembleResolve_walked vm pos
  have hram : ∀ n, vmRamAt (vmDisassembleResolve vm pos).2.2 n =
      vmRamAt vm n := fun n => by rw [hleft]; rfl
  have hsize := vmDisassemble_size vm pos
  have hnext : (vmDisassemble vm pos).1.next =
      if 3 ≤ (vmDisassemble vm pos).1.size.toNat then
        (vmRamAt (vmDisassembleResolve vm pos).2.2 (pos.toNat + 1),
          vmRamAt (vmDisassembleResolve vm pos).2.2 (pos.toNat + 2))
      else if 2 ≤ (vmDisassemble vm pos).1.size.toNat ∧
          (operand (instructionGetA (vm.ram pos))).hasNext = true then
        (vmRamAt (vmDisassembleResolve vm pos).2.2 (pos.toNat + 1), 0)
      else if 2 ≤ (vmDisassemble vm pos).1.size.toNat ∧
          (operand (instructionGetB (vm.ram pos))).hasNext = true then
        (0, vmRamAt (vmDisassembleResolve vm pos).2.2 (pos.toNat + 1))
      else (0, 0) := rfl
  have hthree : 3 ≤ 1 + resolvedWords (vm.ram pos) ↔ 2 ≤ resolvedWords (vm.ram pos) := by omega
  have htwo : 2 ≤ 1 + resolvedWords (vm.ram pos) ↔ 1 ≤ resolvedWords (vm.ram pos) := by omega
  rw [hnext, hsize, hram, hram]
  simp only [hthree, htwo]

/-- **The instruction at a position is the one that is shown**, with as many words as it has. -/
theorem vmDisassemble_shown (h : i.LiesAt vm.ram pos) :
    (vmDisassemble vm pos).1.shown = some i ∧
      (vmDisassemble vm pos).1.size.toNat = i.size := by
  have hfull : vm.ram pos = i.word := h.code.head
  refine ⟨?_, by rw [vmDisassemble_size, hfull, resolvedWords_word, Instr.size]⟩
  have hnext := vmDisassemble_next vm pos
  rw [hfull, resolvedWords_word] at hnext
  have hshown : (vmDisassemble vm pos).1.shown =
      match decode i.word with
      | .basic op _ _ =>
        match (operand (instructionGetB i.word)).arg (vmDisassemble vm pos).1.next.2,
            (operand (instructionGetA i.word)).argA (vmDisassemble vm pos).1.next.1 with
        | some b, some a => some (.two op b a)
        | _, _ => none
      | .nonbasic op _ =>
        ((operand (instructionGetA i.word)).argA (vmDisassemble vm pos).1.next.1).map (.one op)
      | .invalid => none := by
    rw [← hfull]
    rfl
  rw [hshown, Instr.decode_word]
  cases i with
  | two op b a =>
    obtain ⟨-, hb, ha⟩ := instructionCreate_fields op.code_lt b.code_lt a.code_lt
    rw [Instr.word] at hnext ⊢
    rw [hb, ha, Arg.operand_code, ArgA.operand_code] at hnext ⊢
    rw [Arg.hasNext_operand, ArgA.hasNext_operand] at hnext
    have harg : (∀ v, a.next = some v → v = (vmDisassemble vm pos).1.next.1) ∧
        ∀ v, b.next = some v → v = (vmDisassemble vm pos).1.next.2 := by
      -- which of the two words are returned depends on the operands that have one
      cases hanext : a.next with
      | none =>
        refine ⟨fun v hv => (by cases hv), fun v hv => ?_⟩
        have hfirst := h.vmRamAt_next (k := 0) (w := v) (by rw [Instr.nexts, hanext, hv]; rfl)
        rw [Instr.nexts, hanext, hv] at hnext
        rw [hnext]
        exact hfirst.symm
      | some w =>
        have hfirst := h.vmRamAt_next (k := 0) (w := w) (by rw [Instr.nexts, hanext]; rfl)
        cases hbnext : b.next with
        | none =>
          rw [Instr.nexts, hanext, hbnext] at hnext
          refine ⟨fun v hv => ?_, fun v hv => (by cases hv)⟩
          rw [hnext, ← Option.some.inj hv]
          exact hfirst.symm
        | some w' =>
          have hsecond := h.vmRamAt_next (k := 1) (w := w')
            (by rw [Instr.nexts, hanext, hbnext]; rfl)
          rw [Instr.nexts, hanext, hbnext] at hnext
          refine ⟨fun v hv => ?_, fun v hv => ?_⟩
          · rw [hnext, ← Option.some.inj hv]
            exact hfirst.symm
          · rw [hnext, ← Option.some.inj hv]
            exact hsecond.symm
    rw [Instr.inst, b.arg_operand harg.2, a.argA_operand harg.1]
  | one op a =>
    obtain ⟨-, -, ha⟩ := instructionCreate_fields (show 0 < 0x20 by decide) op.code_lt a.code_lt
    rw [Instr.word] at hnext ⊢
    rw [ha, ArgA.operand_code] at hnext ⊢
    rw [ArgA.hasNext_operand] at hnext
    have harg : ∀ v, a.next = some v → v = (vmDisassemble vm pos).1.next.1 := by
      intro v hv
      have hfirst := h.vmRamAt_next (k := 0) (w := v) (by rw [Instr.nexts, hv]; rfl)
      rw [Instr.nexts, hv] at hnext
      rw [hnext]
      exact hfirst.symm
    rw [Instr.inst, a.argA_operand harg]
    rfl

/-- The second number matters for non-basic opcodes only. -/
theorem getInstructionByValue_of_ne {opcode : Word} (h : opcode ≠ 0) (nbopcode nbopcode' : Word) :
    getInstructionByValue opcode nbopcode = getInstructionByValue opcode nbopcode' := by
  unfold getInstructionByValue
  simp only [h, decide_false, Bool.false_and]

/-- **The name that is shown** is that of the opcode. -/
theorem vmDisassemble_prettyOp {name : String} (h : i.LiesAt vm.ram pos)
    (hname : opNamed name = some i.op) : (vmDisassemble vm pos).1.prettyOp = some name := by
  have hfull : vm.ram pos = i.word := h.code.head
  have hpretty : (vmDisassemble vm pos).1.prettyOp =
      (getInstructionByValue (BitVec.ofNat 16 (instructionGetOp i.word))
        (BitVec.ofNat 16 (instructionGetB i.word))).map (·.name) := by
    rw [← hfull]
    rfl
  rw [hpretty]
  rcases opNamed_cases name with ⟨hfound, hop⟩ | ⟨op, hfound, hop⟩ | ⟨op, hfound, hop⟩ <;>
    rw [hop] at hname
  · cases hname
  · cases i with
    | one op' a => cases hname
    | two op' b a =>
      cases hname
      obtain ⟨hfield, -, -⟩ := instructionCreate_fields op.code_lt b.code_lt a.code_lt
      obtain ⟨-, hvalue, -⟩ := instructionNameMap_cases (getInstructionByName_mem hfound)
      rw [Instr.word, hfield, getInstructionByValue_of_ne (ofNat_basicOp_code_ne op) _ 0]
      exact congrArg (Option.map (·.name)) hvalue
  · cases i with
    | two op' b a => cases hname
    | one op' a =>
      cases hname
      obtain ⟨hfield, hb, -⟩ :=
        instructionCreate_fields (show 0 < 0x20 by decide) op.code_lt a.code_lt
      obtain ⟨-, hvalue, -⟩ := instructionNameMap_cases (getInstructionByName_mem hfound)
      rw [Instr.word, hfield, hb]
      exact congrArg (Option.map (·.name)) hvalue

end Shown

end DcpuToolchain
