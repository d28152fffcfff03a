import DcpuToolchain.Dbg.Breakpoints
import DcpuToolchain.Vm.Observe

/-!
# Stepping over an instruction

`ddbg_step_over` puts a temporary breakpoint where it takes the next instruction to be and runs
the machine. It measures the instruction on its own: of the operands with a next word it counts
two kinds and forgets `[register + word]` and `PICK`, for a `JSR` it takes the code of the operand
for an address, and for the other non-basic opcodes it takes whatever an uninitialised variable
holds (`DcpuToolchain.stepsOver_iff`).
-/

namespace DcpuToolchain

/-- The words that `ddbg_step_over` counts for an operand. -/
def stepOffset (val : Operand) : ℕ :=
  (if val = .nxt then 1 else 0) + if val = .nxtLit then 1 else 0

/-- The variable `bp` of `ddbg_step_over`, where it holds `garbage` at first. -/
def stepOverBp (vm : Vm) (garbage : Word) : Word :=
  let inst := instructionGetOp (vm.ram vm.pc)
  let opA := instructionGetA (vm.ram vm.pc)
  let opB := instructionGetB (vm.ram vm.pc)
  let offset := 1 + stepOffset (operand opA) + stepOffset (operand opB)
  if inst = 0 then
    if nonbasicOp opB = some .jsr then BitVec.ofNat 16 opA else garbage
  else vm.pc + BitVec.ofNat 16 offset

/-- What `ddbg_step_over` does before it calls `vm_execute`. -/
def ddbgStepOver (garbage : Word) (d : Debugger) : Debugger :=
  { d with
    vm := d.vm.woken
    breakpoints := d.breakpoints ++ [{ addr := stepOverBp d.vm garbage, temporary := true }] }

/-- Whatever the uninitialised variable holds, the temporary breakpoint is put behind the
instruction at `pc`. -/
def StepsOver (d : Debugger) : Prop :=
  ∀ garbage, (ddbgStepOver garbage d).breakpoints = d.breakpoints ++
    [{ addr := d.vm.pc + BitVec.ofNat 16 (instSize (decode (d.vm.ram d.vm.pc))),
       temporary := true }]

theorem stepsOver_iff_bp (d : Debugger) :
    StepsOver d ↔ ∀ garbage, stepOverBp d.vm garbage =
      d.vm.pc + BitVec.ofNat 16 (instSize (decode (d.vm.ram d.vm.pc))) := by
  unfold StepsOver ddbgStepOver
  simp only [List.append_cancel_left_eq, List.cons.injEq, Breakpoint.mk.injEq, and_true]

/-- An operand whose next word `ddbg_step_over` forgets. -/
def Operand.isForgotten : Operand → Bool
  | .nxtVal _ | .pick => true
  | _ => false

theorem stepOffset_eq (val : Operand) :
    stepOffset val + val.isForgotten.toNat = val.hasNext.toNat := by
  cases val <;> rfl

/-- When the breakpoint of `ddbg_step_over` is right: for a basic instruction when no operand is
forgotten, for a `JSR` when the code of its operand happens to be the address. -/
def StepFits (vm : Vm) : Prop :=
  match decode (vm.ram vm.pc) with
  | .basic _ b a => a.isForgotten = false ∧ b.isForgotten = false
  | .nonbasic .jsr a =>
      BitVec.ofNat 16 (instructionGetA (vm.ram vm.pc)) =
        vm.pc + BitVec.ofNat 16 (1 + a.hasNext.toNat)
  | _ => False

/-- **When an instruction is stepped over.** -/
theorem stepsOver_iff {d : Debugger} (hvalid : decode (d.vm.ram d.vm.pc) ≠ .invalid) :
    StepsOver d ↔ StepFits d.vm := by
  rw [stepsOver_iff_bp]
  unfold StepFits
  rcases hd : decode (d.vm.ram d.vm.pc) with ⟨op, b, a⟩ | ⟨op, a⟩ | _
  · obtain ⟨hop, -, rfl, rfl⟩ := decode_basic hd
    have ha := stepOffset_eq (operand (instructionGetA (d.vm.ram d.vm.pc)))
    have hb := stepOffset_eq (operand (instructionGetB (d.vm.ram d.vm.pc)))
    have hale := Bool.toNat_le (operand (instructionGetA (d.vm.ram d.vm.pc))).hasNext
    have hble := Bool.toNat_le (operand (instructionGetB (d.vm.ram d.vm.pc))).hasNext
    simp only [stepOverBp, hop, if_false, forall_const, instSize]
    rw [← Bool.toNat_eq_zero, ← Bool.toNat_eq_zero]
    constructor
    · intro h
      constructor <;> bv_omega
    · rintro ⟨hazero, hbzero⟩
      rw [hazero] at ha
      rw [hbzero] at hb
      rw [← ha, ← hb, Nat.add_zero, Nat.add_zero]
  · obtain ⟨hop, hcode, rfl⟩ := decode_nonbasic hd
    cases op with
    | jsr =>
      simp only [stepOverBp, hop, hcode, if_true, forall_const, instSize]
    | _ =>
      -- Some value of the variable is another one.
      simp only [stepOverBp, hop, hcode, if_true, iff_false, instSize]
      intro h
      have hzero := h 0
      have hone := h 1
      rw [if_neg (by decide)] at hzero hone
      exact absurd (hzero.trans hone.symm) (by decide)
  · exact absurd hd hvalid

/-- `SET A, [B+4]` is taken to be one word long. -/
def atForgotten : Debugger where
  vm := { ram := fun addr => if addr = 0 then 0x4401 else 4 }

/-- `SET A, 0x1234` is stepped over. -/
def atLiteral : Debugger where
  vm := { ram := fun addr => if addr = 0 then 0x7C01 else 0x1234 }

theorem stepsOver_iff_atLiteral : StepsOver atLiteral ↔ StepFits atLiteral.vm :=
  stepsOver_iff (by decide)

theorem not_forall_stepsOver :
    ¬ ∀ d : Debugger, decode (d.vm.ram d.vm.pc) ≠ .invalid → StepsOver d := by
  intro h
  have hbp := (stepsOver_iff_bp _).mp (h atForgotten (by decide)) 0
  revert hbp
  decide

end DcpuToolchain
