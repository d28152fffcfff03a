import DcpuToolchain.Hw.Devices
import Mathlib.Tactic.Simps.Basic

/-!
# The state of the virtual machine

`struct vm` of `libdcpu-vm/vm.h`, and what surrounds it: the hooks and devices a
host program has registered, the wall clock, and the C library's `rand`. The
machine is a value; the host is a parameter of every function that can call out.

Three fields of `DcpuToolchain.Vm` are not in the source. `consumed` counts the
calls of `vm_consume_word` and `trace` lists what happened to interrupt messages;
both are history variables, written by the functions they record and read by
none. `screenId` is the function-static variable of `vm_op_fire`. The data of the
devices, which their hooks and handlers reach through `void*`, are part of the machine.

A call can fail to return: `vm_interrupt` walks a chain of conditionals, and a
memory full of them has no end. Every function that may call it returns an
`Option`, and `none` says that the call does not return.
-/

namespace DcpuToolchain

/-- What happened to an interrupt message: a history variable's entries. -/
inductive IrqEvent
  /-- Somebody called `vm_interrupt` with the message. -/
  | raised (msg : Word)
  /-- The handler was entered with the message in `A`. -/
  | delivered (msg : Word)
  /-- The queue was full and the machine halted. -/
  | refused (msg : Word)
  /-- There was no handler (`ia` was zero). -/
  | ignored (msg : Word)
  deriving DecidableEq, Repr

/-- `struct vm`. -/
structure Vm where
  /-- The registers `A, B, C, X, Y, Z, I, J`. -/
  registers : Fin 8 → Word := fun _ => 0
  pc : Word := 0
  sp : Word := 0
  ia : Word := 0
  ex : Word := 0
  /-- The main memory. -/
  ram : Word → Word := fun _ => 0
  /-- Where assignments to literals go. -/
  dummy : Word := 0
  /-- The interrupt queue. -/
  irq : Fin 256 → Word := fun _ => 0
  /-- How many slots of the queue are in use; `vm_interrupt` keeps it at most
  `INTERRUPT_MAX`. -/
  irqCount : ℕ := 0
  sleepCycles : Word := 0
  queueInterrupts : Bool := false
  halted : Bool := false
  /-- Whether the next instruction is to be skipped. -/
  skip : Bool := false
  canFire : Bool := false
  onFire : Bool := false
  fireCycles : ℤ := 0
  fireCyclesTarget : ℤ := 0
  radiation : Bool := false
  radiationCycles : ℤ := 0
  radiationCyclesTarget : ℤ := 0
  radiationFactor : ℤ := 1
  /-- What the user data of the attached devices points to. -/
  userdata : Devices := {}
  /-- The static variable of `vm_op_fire`; `none` is its initial `-1`. -/
  screenId : Option ℕ := none
  /-- History: how many words `vm_consume_word` has returned. -/
  consumed : ℕ := 0
  /-- History: what happened to interrupt messages, oldest first. -/
  trace : List IrqEvent := []

/-- `INTERRUPT_MAX`. -/
def interruptMax : ℕ := 255

/-- `DCPU_TICKS_KHZ`. -/
def dcpuTicksKhz : ℤ := 100

/-- The modes of `dcpuhook.h`. -/
inductive HookMode
  | none | onWrite | onPostCycle | onBreak | onPreCycle | onInterrupt | on60Hz
  | onHardwareChange
  deriving DecidableEq, Repr

/-- `hw_t`: an attached device, its handler closed over its user data. -/
structure Hw where
  id : BitVec 32
  version : Word
  manufacturer : BitVec 32
  handler : Vm → Option Vm

/-- `VM_HW_MAX`. -/
def vmHwMax : ℕ := 32

/-- What surrounds the machine during one call of `vm_cycle`. -/
structure Host where
  /-- The registered hooks in slot order, each closed over its user data; the
  argument is the position the hook is fired with. -/
  hooks : List (HookMode × (Word → Vm → Option Vm)) := []
  /-- The attached devices in slot order. -/
  hwList : List Hw := []
  /-- The device table has `VM_HW_MAX` slots. -/
  hwFits : hwList.length ≤ vmHwMax := by decide
  /-- Whether the wall clock has moved by more than 10 ms since the last 60 Hz
  tick. -/
  due60Hz : Bool := false
  /-- The values `rand` returns during the call. -/
  rands : List ℕ := []
  /-- What the compiled C gives for a shift of an `int` by a count outside
  `0, …, 31`, which the language leaves undefined. -/
  oobShift : BitVec 32 → ℤ → BitVec 32 := fun x _ => x

namespace Vm

/-- `vm->sleep_cycles += n`. -/
@[simps -fullyApplied] def sleep (vm : Vm) (n : Word) : Vm :=
  { vm with sleepCycles := vm.sleepCycles + n }

/-- `vm->ram[addr] = w`. -/
@[simps -fullyApplied] def writeRam (vm : Vm) (addr w : Word) : Vm :=
  { vm with ram := Function.update vm.ram addr w }

/-- `vm->registers[r] = w`. -/
@[simps -fullyApplied] def writeReg (vm : Vm) (r : Fin 8) (w : Word) : Vm :=
  { vm with registers := Function.update vm.registers r w }

/-- `vm->pc = w`. -/
@[simps -fullyApplied] def setPc (vm : Vm) (w : Word) : Vm := { vm with pc := w }

/-- `vm->sp = w`. -/
@[simps -fullyApplied] def setSp (vm : Vm) (w : Word) : Vm := { vm with sp := w }

/-- `vm->ia = w`. -/
@[simps -fullyApplied] def setIa (vm : Vm) (w : Word) : Vm := { vm with ia := w }

/-- `vm->ex = w`. -/
@[simps -fullyApplied] def setEx (vm : Vm) (w : Word) : Vm := { vm with ex := w }

/-- `vm->skip = b`. -/
@[simps -fullyApplied] def setSkip (vm : Vm) (b : Bool) : Vm := { vm with skip := b }

/-- `vm->queue_interrupts = b`. -/
@[simps -fullyApplied] def setQueueInterrupts (vm : Vm) (b : Bool) : Vm :=
  { vm with queueInterrupts := b }

/-- `vm->irq_count = n`. -/
@[simps -fullyApplied] def setIrqCount (vm : Vm) (n : ℕ) : Vm := { vm with irqCount := n }

/-- `vm->irq[vm->irq_count++] = msg`. -/
@[simps -fullyApplied] def enqueueIrq (vm : Vm) (msg : Word) : Vm :=
  { vm with
    irq := Function.update vm.irq (Fin.ofNat 256 vm.irqCount) msg
    irqCount := vm.irqCount + 1 }

/-- The `memcpy` of `vm_cycle` that shifts the queue by one slot, and `--vm->irq_count`. -/
@[simps -fullyApplied] def dequeueIrq (vm : Vm) : Vm :=
  { vm with
    irq := fun i => if (i : ℕ) < interruptMax then vm.irq (i + 1) else 0
    irqCount := vm.irqCount - 1 }

/-- `vm->sleep_cycles = n`. -/
@[simps -fullyApplied] def setSleepCycles (vm : Vm) (n : Word) : Vm := { vm with sleepCycles := n }

/-- `vm->radiation_cycles = n`. -/
@[simps -fullyApplied] def setRadiationCycles (vm : Vm) (n : ℤ) : Vm :=
  { vm with radiationCycles := n }

/-- Record an event. -/
@[simps -fullyApplied] def log (vm : Vm) (e : IrqEvent) : Vm := { vm with trace := vm.trace ++ [e] }

end Vm

/-- `vm_halt`; the message goes to standard error. -/
@[simps -fullyApplied] def vmHalt (vm : Vm) : Vm := { vm with halted := true }

/-- `vm_hook_fire`: every hook of the mode, in slot order. -/
def vmHookFire (host : Host) (pos : Word) (mode : HookMode) (vm : Vm) : Option Vm :=
  host.hooks.foldlM (fun vm h => if h.1 = mode then h.2 pos vm else some vm) vm

/-- `vm_hw_count`. -/
def vmHwCount (host : Host) : Word := BitVec.ofNat 16 host.hwList.length

/-- `vm_hw_interrupt`: the handler of a device, if there is one at that index. -/
def vmHwInterrupt (host : Host) (vm : Vm) (index : Word) : Option Vm :=
  match host.hwList[index.toNat]? with
  | some device => device.handler vm
  | none => some vm

/-- With no hooks, firing them does nothing. -/
theorem vmHookFire_nil {host : Host} (h : host.hooks = []) (pos : Word) (mode : HookMode)
    (vm : Vm) : vmHookFire host pos mode vm = some vm := by
  simp [vmHookFire, h]

end DcpuToolchain
