import DcpuToolchain.Lib.RunsTo
import DcpuToolchain.Vm.Cycle

/-!
# One instruction after the other

A machine that nothing disturbs, with no hooks and no messages, executes one instruction and
then sleeps it off. `DcpuToolchain.vmInstruction` is both together, and here is what it does
for the instructions that the linker generates around an interrupt. The machine it leaves is
described by its program counter, its stack pointer, its registers and its memory.
-/

namespace DcpuToolchain

/-! ### A machine that nothing disturbs -/

/-- An awake machine without messages, that nothing is wrong with and that is not about to
skip. -/
structure Vm.Calm (vm : Vm) : Prop where
  sleepCycles : vm.sleepCycles = 0
  irqCount : vm.irqCount = 0
  halted : vm.halted = false
  onFire : vm.onFire = false
  radiation : vm.radiation = false
  skip : vm.skip = false

/-- A cycle, and those it sleeps. -/
def vmInstruction (host : Host) (vm : Vm) : Option Vm :=
  (vmCycle host vm).bind fun vm => vmRun (List.replicate vm.sleepCycles.toNat host) vm

/-- What an instruction leaves. -/
structure Leaves (host : Host) (vm vm' : Vm) (queueInterrupts : Bool) (pc sp : Word)
    (registers : Fin 8 → Word) (ram : Word → Word) : Prop where
  step : vmInstruction host vm = some vm'
  calm : vm'.Calm
  queueInterrupts : vm'.queueInterrupts = queueInterrupts
  ia : vm'.ia = vm.ia
  pc : vm'.pc = pc
  sp : vm'.sp = sp
  registers : vm'.registers = registers
  ram : vm'.ram = ram

variable {host : Host} {vm : Vm}

/-- An awake machine without messages, that nothing is wrong with. It may be about to skip. -/
structure Vm.Quiet (vm : Vm) : Prop where
  sleepCycles : vm.sleepCycles = 0
  irqCount : vm.irqCount = 0
  halted : vm.halted = false
  onFire : vm.onFire = false
  radiation : vm.radiation = false

theorem Vm.Calm.quiet (h : vm.Calm) : vm.Quiet :=
  ⟨h.sleepCycles, h.irqCount, h.halted, h.onFire, h.radiation⟩

/-- The instruction of a machine that nothing disturbs, executed or skipped. -/
theorem Vm.Quiet.vmInstruction_eq (hhost : host.hooks = []) (hvm : vm.Quiet) :
    vmInstruction host vm =
      (vmExecute host (vmConsumeWord vm).2 (vm.ram vm.pc)).map (·.setSleepCycles 0) := by
  rw [vmInstruction, vmCycle_awake hhost (.inr hvm.irqCount) hvm.sleepCycles hvm.halted, hvm.onFire,
    if_neg (by simp), vmFetchExecute, vmRadiate, hvm.radiation]
  simp only [Bool.false_eq_true, if_false, Option.bind_eq_bind, Option.bind_some, vmConsumeWord]
  cases vmExecute host { vm with pc := vm.pc + 1, consumed := vm.consumed + 1 } (vm.ram vm.pc) with
  | none => rfl
  | some vm' => exact vmRun_asleep host vm'

/-- The instruction of a machine that nothing disturbs. -/
theorem vmInstruction_eq (hhost : host.hooks = []) (hvm : vm.Calm) :
    vmInstruction host vm =
      (vmExecute host (vmConsumeWord vm).2 (vm.ram vm.pc)).map (·.setSleepCycles 0) :=
  hvm.quiet.vmInstruction_eq hhost

/-! ### The instructions around an interrupt -/

/-- `SET PUSH, ` an operand without a word of its own. -/
theorem leaves_push (hhost : host.hooks = []) (hvm : vm.Calm) {a : Operand} {v : Word}
    (hdecode : decode (vm.ram vm.pc) = .basic .set .pushPop a)
    (hvalue : ∀ vm' : Vm, vm'.registers = vm.registers → vmResolveValue vm' a .a = (v, vm')) :
    ∃ vm', Leaves host vm vm' vm.queueInterrupts (vm.pc + 1) (vm.sp - 1) vm.registers
      (Function.update vm.ram (vm.sp - 1) v) := by
  have hstep := vmInstruction_eq hhost hvm
  rw [vmExecute, hdecode] at hstep
  simp only [vmExecuteBasic, vmOpSet, storeOp, hvalue (vmConsumeWord vm).2 rfl] at hstep
  simp only [vmInternalGetStore, vmConsumeWord, hvm.skip, opNumCycles, aluSet, Vm.store,
    vmHookFireStore, vmHookFire_nil hhost, Bool.false_eq_true, if_false, Option.map_some, Vm.sleep,
    Vm.setSp, Vm.writeRam, Vm.setSleepCycles] at hstep
  exact ⟨_, hstep, ⟨rfl, hvm.irqCount, hvm.halted, hvm.onFire, hvm.radiation, rfl⟩, rfl, rfl, rfl,
    rfl, rfl, rfl⟩

/-- `SET PUSH, PICK `: the offset is taken before the push. -/
theorem leaves_pushPick (hhost : host.hooks = []) (hvm : vm.Calm)
    (hdecode : decode (vm.ram vm.pc) = .basic .set .pushPop .pick) :
    ∃ vm', Leaves host vm vm' vm.queueInterrupts (vm.pc + 2) (vm.sp - 1) vm.registers
      (Function.update vm.ram (vm.sp - 1) (vm.ram (vm.sp + vm.ram (vm.pc + 1)))) := by
  have hstep := vmInstruction_eq hhost hvm
  rw [vmExecute, hdecode] at hstep
  simp only [vmExecuteBasic, vmOpSet, storeOp, vmResolveValue, vmInternalGetStore,
    vmConsumeWord, hvm.skip, opNumCycles, aluSet, Vm.store, vmHookFireStore, vmHookFire_nil hhost,
    Bool.false_eq_true, if_false, Option.map_some, Vm.sleep, Vm.setSp, Vm.writeRam,
    Vm.setSleepCycles] at hstep
  refine ⟨_, hstep, ⟨rfl, hvm.irqCount, hvm.halted, hvm.onFire, hvm.radiation, rfl⟩, rfl, rfl, ?_,
    rfl, rfl, rfl⟩
  exact BitVec.add_assoc vm.pc 1 1

/-- `SET A, PEEK`. -/
theorem leaves_peek (hhost : host.hooks = []) (hvm : vm.Calm)
    (hdecode : decode (vm.ram vm.pc) = .basic .set (.reg 0) .peek) :
    ∃ vm', Leaves host vm vm' vm.queueInterrupts (vm.pc + 1) vm.sp
      (Function.update vm.registers 0 (vm.ram vm.sp)) vm.ram := by
  have hstep := vmInstruction_eq hhost hvm
  rw [vmExecute, hdecode] at hstep
  simp only [vmExecuteBasic, vmOpSet, storeOp, vmResolveValue, vmInternalGetStore,
    vmConsumeWord, hvm.skip, opNumCycles, aluSet, Vm.store, vmHookFireStore,
    Bool.false_eq_true, if_false, Option.map_some, Vm.sleep, Vm.writeReg,
    Vm.setSleepCycles] at hstep
  exact ⟨_, hstep, ⟨rfl, hvm.irqCount, hvm.halted, hvm.onFire, hvm.radiation, rfl⟩, rfl, rfl, rfl,
    rfl, rfl, rfl⟩

/-- `SET A, POP`. -/
theorem leaves_pop (hhost : host.hooks = []) (hvm : vm.Calm)
    (hdecode : decode (vm.ram vm.pc) = .basic .set (.reg 0) .pushPop) :
    ∃ vm', Leaves host vm vm' vm.queueInterrupts (vm.pc + 1) (vm.sp + 1)
      (Function.update vm.registers 0 (vm.ram vm.sp)) vm.ram := by
  have hstep := vmInstruction_eq hhost hvm
  rw [vmExecute, hdecode] at hstep
  simp only [vmExecuteBasic, vmOpSet, storeOp, vmResolveValue, vmInternalGetStore,
    vmConsumeWord, hvm.skip, opNumCycles, aluSet, Vm.store, vmHookFireStore,
    Bool.false_eq_true, if_false, Option.map_some, Vm.sleep, Vm.writeReg, Vm.setSp,
    Vm.setSleepCycles] at hstep
  exact ⟨_, hstep, ⟨rfl, hvm.irqCount, hvm.halted, hvm.onFire, hvm.radiation, rfl⟩, rfl, rfl, rfl,
    rfl, rfl, rfl⟩

/-- `ADD SP, ` a word. -/
theorem leaves_addSp (hhost : host.hooks = []) (hvm : vm.Calm)
    (hdecode : decode (vm.ram vm.pc) = .basic .add .sp .nxtLit) :
    ∃ vm', Leaves host vm vm' vm.queueInterrupts (vm.pc + 2) (vm.sp + vm.ram (vm.pc + 1))
      vm.registers vm.ram := by
  have hstep := vmInstruction_eq hhost hvm
  rw [vmExecute, hdecode] at hstep
  simp only [vmExecuteBasic, vmOpAdd, storeOp, vmResolveValue, vmInternalGetStore,
    vmConsumeWord, hvm.skip, opNumCycles, aluAdd, Vm.store, Vm.load, vmHookFireStore,
    Bool.false_eq_true, if_false, Option.map_some, Vm.sleep, Vm.setSp, Vm.setEx,
    Vm.setSleepCycles] at hstep
  refine ⟨_, hstep, ⟨rfl, hvm.irqCount, hvm.halted, hvm.onFire, hvm.radiation, rfl⟩, rfl, rfl, ?_,
    rfl, rfl, rfl⟩
  exact BitVec.add_assoc vm.pc 1 1

/-- `INT ` a word: the handler is entered, with the return address and `A` on the stack. -/
theorem leaves_int (hhost : host.hooks = []) (hvm : vm.Calm) (hopen : vm.queueInterrupts = false)
    (hia : vm.ia ≠ 0) (hdecode : decode (vm.ram vm.pc) = .nonbasic .int .nxtLit) :
    ∃ vm', Leaves host vm vm' true vm.ia (vm.sp - 2)
      (Function.update vm.registers 0 (vm.ram (vm.pc + 1)))
      (Function.update (Function.update vm.ram (vm.sp - 1) (vm.pc + 2)) (vm.sp - 2)
        (vm.registers 0)) := by
  have hstep := vmInstruction_eq hhost hvm
  rw [vmExecute, hdecode] at hstep
  simp only [vmExecuteNonbasic, vmOpInt, vmResolveValue, vmConsumeWord, opNumCycles, vmRaise,
    vmInterrupt, Vm.log, Vm.sleep, hopen, hia, vmSkipPending, hvm.skip, enterHandler,
    vmHookFire_nil hhost, Bool.false_eq_true, if_false, Option.bind_eq_bind, Option.bind_some,
    Option.map_some, Vm.setSp, Vm.writeRam, Vm.writeReg, Vm.setPc, Vm.setQueueInterrupts,
    Vm.setSleepCycles] at hstep
  have hpc : vm.pc + 1 + 1 = vm.pc + 2 := BitVec.add_assoc vm.pc 1 1
  have hsp : vm.sp - 1 - 1 = vm.sp - 2 := by bv_omega
  rw [hpc, hsp] at hstep
  exact ⟨_, hstep, ⟨rfl, hvm.irqCount, hvm.halted, hvm.onFire, hvm.radiation, rfl⟩, rfl, rfl, rfl,
    rfl, rfl, rfl⟩

end DcpuToolchain
