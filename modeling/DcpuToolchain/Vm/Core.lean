import DcpuToolchain.Lib.Simulation
import DcpuToolchain.Vm.Listing
import DcpuToolchain.Vm.Skip

/-!
# What instructions mean

What an instruction does to what a program can see of the machine (`DcpuToolchain.Core`): the
registers, the memory, and the flags. The words of an instruction are not in the memory here but
come with it, a whole instruction is skipped if one is to be skipped, and nothing is said about
cycles, hooks, devices, fire and radiation. Interrupts and requests to devices have no meaning
here, and neither have instructions that write to a literal with a next word.

A machine that nothing disturbs does what its instructions mean
(`DcpuToolchain.vmInstruction_step`), however many of them there are (`DcpuToolchain.vmRun_core`).
-/

namespace DcpuToolchain

open Relation

/-- What a program can see of the machine. -/
@[ext] structure Core where
  registers : Fin 8 → Word
  pc : Word
  sp : Word
  ia : Word
  ex : Word
  ram : Word → Word
  queueInterrupts : Bool
  skip : Bool

/-- What a program can see. -/
def Vm.core (vm : Vm) : Core where
  registers := vm.registers
  pc := vm.pc
  sp := vm.sp
  ia := vm.ia
  ex := vm.ex
  ram := vm.ram
  queueInterrupts := vm.queueInterrupts
  skip := vm.skip

/-! ### Operands -/

namespace Core

/-- A word of the instruction has been passed. -/
def pass (s : Core) : Core := { s with pc := s.pc + 1 }

/-- The value of an operand, in one of the two places. -/
def read (s : Core) (pos : Pos) : Arg Word → Word × Core
  | .reg r => (s.registers r, s)
  | .val r => (s.ram (s.registers r), s)
  | .nxtVal r w => (s.ram (s.registers r + w), s.pass)
  | .pushPop =>
    if pos = .b then (s.ram (s.sp - 1), { s with sp := s.sp - 1 })
    else (s.ram s.sp, { s with sp := s.sp + 1 })
  | .peek => (s.ram s.sp, s)
  | .pick w => (s.ram (s.sp + w), s.pass)
  | .sp => (s.sp, s)
  | .pc => (s.pc, s)
  | .ex => (s.ex, s)
  | .nxt w => (s.ram w, s.pass)
  | .nxtLit w => (w, s.pass)

/-- Where an operand is, in one of the two places. -/
def place (s : Core) (pos : Pos) : Arg Word → Store × Core
  | .reg r => (.reg r, s)
  | .val r => (.ram (s.registers r), s)
  | .nxtVal r w => (.ram (s.registers r + w), s.pass)
  | .pushPop =>
    if pos = .b then (.ram (s.sp - 1), { s with sp := s.sp - 1 })
    else (.ram s.sp, { s with sp := s.sp + 1 })
  | .peek => (.ram s.sp, s)
  | .pick w => (.ram (s.sp + w), s.pass)
  | .sp => (.sp, s)
  | .pc => (.pc, s)
  | .ex => (.ex, s)
  | .nxt w => (.ram w, s.pass)
  | .nxtLit _ => (.dummy, s.pass)

/-- The value of an operand in the place of `a`. -/
def readA (s : Core) : ArgA Word → Word × Core
  | .arg a => s.read .a a
  | .lit v => (BitVec.ofNat 16 (0x20 + v) - 0x21, s)

/-- Where an operand in the place of `a` is. -/
def placeA (s : Core) : ArgA Word → Store × Core
  | .arg a => s.place .a a
  | .lit _ => (.dummy, s)

/-- What is in a place. -/
def load (s : Core) : Store → Word
  | .reg r => s.registers r
  | .ram addr => s.ram addr
  | .ia => s.ia
  | .sp => s.sp
  | .pc => s.pc
  | .ex => s.ex
  | .dummy => 0

/-- A word is put in a place. -/
def store (s : Core) (w : Word) : Store → Core
  | .reg r => { s with registers := Function.update s.registers r w }
  | .ram addr => { s with ram := Function.update s.ram addr w }
  | .ia => { s with ia := w }
  | .sp => { s with sp := w }
  | .pc => { s with pc := w }
  | .ex => { s with ex := w }
  | .dummy => s

end Core

/-! ### Instructions -/

/-- The patterns of basic opcodes. -/
inductive OpKind
  | stores (cycles : Word) (alu : Alu)
  | tests (test : Word → Word → Bool)
  | moves (delta : Word)

/-- The pattern of a basic opcode. -/
def BasicOp.kind : BasicOp → OpKind
  | .set => .stores 1 aluSet
  | .add => .stores 2 aluAdd
  | .sub => .stores 2 aluSub
  | .mul => .stores 2 aluMul
  | .mli => .stores 2 aluMli
  | .div => .stores 3 aluDiv
  | .dvi => .stores 3 aluDvi
  | .mod => .stores 3 aluMod
  | .mdi => .stores 3 aluMdi
  | .and => .stores 1 aluAnd
  | .bor => .stores 1 aluBor
  | .xor => .stores 1 aluXor
  | .shr => .stores 1 aluShr
  | .asr => .stores 1 aluAsr
  | .shl => .stores 1 aluShl
  | .ifb => .tests fun b a => b &&& a ≠ 0
  | .ifc => .tests fun b a => b &&& a = 0
  | .ife => .tests fun b a => b = a
  | .ifn => .tests fun b a => b ≠ a
  | .ifg => .tests fun b a => a < b
  | .ifa => .tests fun b a => a.slt b
  | .ifl => .tests fun b a => b < a
  | .ifu => .tests fun b a => b.slt a
  | .adx => .stores 3 aluAdx
  | .sbx => .stores 3 aluSbx
  | .sti => .moves 1
  | .std => .moves (-1)

namespace Core

/-- A register is set. -/
def setReg (s : Core) (r : Fin 8) (w : Word) : Core :=
  { s with registers := Function.update s.registers r w }

/-- An instruction that stores. -/
def stores (s : Core) (host : Host) (alu : Alu) (b : Arg Word) (a : ArgA Word) : Core :=
  let (valA, s) := s.readA a
  let (storeB, s) := s.place .b b
  let (result, ex) := alu host (s.load storeB) valA s.ex
  let s := s.store result storeB
  { s with ex := ex.getD s.ex }

/-- An instruction that tests. -/
def tests (s : Core) (test : Word → Word → Bool) (b : Arg Word) (a : ArgA Word) : Core :=
  let (valA, s) := s.readA a
  let (valB, s) := s.read .b b
  { s with skip := !test valB valA }

/-- An instruction that moves `I` and `J`. -/
def moves (s : Core) (delta : Word) (b : Arg Word) (a : ArgA Word) : Core :=
  let (valA, s) := s.readA a
  let (storeB, s) := s.place .b b
  let s := s.store valA storeB
  let s := s.setReg 6 (s.registers 6 + delta)
  s.setReg 7 (s.registers 7 + delta)

/-- A basic instruction. -/
def basic (host : Host) (s : Core) (op : BasicOp) (b : Arg Word) (a : ArgA Word) : Core :=
  match op.kind with
  | .stores _ alu => s.stores host alu b a
  | .tests test => s.tests test b a
  | .moves delta => s.moves delta b a

/-- `JSR`. -/
def jsr (s : Core) (a : ArgA Word) : Core :=
  let (valA, s) := s.readA a
  let s := { s with sp := s.sp - 1 }
  { s with ram := Function.update s.ram s.sp s.pc, pc := valA }

/-- The return from an interrupt. -/
def returns (s : Core) : Core :=
  let s := { s.setReg 0 (s.ram s.sp) with sp := s.sp + 1 }
  { s with pc := s.ram s.sp, sp := s.sp + 1, queueInterrupts := false }

/-- `RFI`. -/
def rfi (s : Core) (a : ArgA Word) : Core := (s.readA a).2.returns

/-- The registers in which a device is identified. -/
def identify (s : Core) (device : Hw) : Core :=
  let s := s.setReg 0 (device.id.extractLsb' 0 16)
  let s := s.setReg 1 (device.id.extractLsb' 16 16)
  let s := s.setReg 2 device.version
  let s := s.setReg 3 (device.manufacturer.extractLsb' 0 16)
  s.setReg 4 (device.manufacturer.extractLsb' 16 16)

/-- `HWQ`. -/
def hwq (host : Host) (s : Core) (a : ArgA Word) : Core :=
  let (valA, s) := s.readA a
  (host.hwList[valA.toNat]?).elim s s.identify

/-- A non-basic instruction, if it has a meaning. -/
def nonbasic (host : Host) (s : Core) (op : NonbasicOp) (a : ArgA Word) : Option Core :=
  match op with
  | .jsr => some (s.jsr a)
  | .int => none
  | .iag =>
    let (storeA, s) := s.placeA a
    some (s.store s.ia storeA)
  | .ias =>
    let (valA, s) := s.readA a
    some { s with ia := valA }
  | .rfi => some (s.rfi a)
  | .iaq =>
    let (valA, s) := s.readA a
    some { s with queueInterrupts := valA ≠ 0 }
  | .hwn =>
    let (storeA, s) := s.placeA a
    some (s.store (vmHwCount host) storeA)
  | .hwq => some (s.hwq host a)
  | .hwi => none

/-- **What an instruction means**, if it has a meaning: it is executed, or skipped. -/
def step (host : Host) (s : Core) (i : Instr Word) : Option Core :=
  if skipHonoured i.inst = false then none
  else if s.skip then
    some { s with pc := s.pc + BitVec.ofNat 16 i.size, skip := i.inst.isIf }
  else
    match i with
    | .two op b a => some (s.pass.basic host op b a)
    | .one op a => s.pass.nonbasic host op a

/-! #### Frames -/

@[simp] theorem pass_ram (s : Core) : s.pass.ram = s.ram := rfl

@[simp] theorem pass_skip (s : Core) : s.pass.skip = s.skip := rfl

@[simp] theorem pass_pc (s : Core) : s.pass.pc = s.pc + 1 := rfl

/-- What reading an operand leaves alone, and where it ends. -/
theorem read_frame (s : Core) (pos : Pos) (a : Arg Word) :
    (s.read pos a).2.ram = s.ram ∧ (s.read pos a).2.skip = s.skip ∧
      (s.read pos a).2.pc = s.pc + BitVec.ofNat 16 a.next.toList.length := by
  have hzero : s.pc = s.pc + BitVec.ofNat 16 0 := (BitVec.add_zero _).symm
  cases a with
  | pushPop =>
    simp only [read]
    split <;> exact ⟨rfl, rfl, hzero⟩
  | nxtVal | pick | nxt | nxtLit => exact ⟨rfl, rfl, rfl⟩
  | _ => exact ⟨rfl, rfl, hzero⟩

/-- Fetching the place of an operand moves on as reading it does. -/
theorem place_state (s : Core) (pos : Pos) (a : Arg Word) :
    (s.place pos a).2 = (s.read pos a).2 := by
  cases a with
  | pushPop =>
    simp only [place, read]
    split <;> rfl
  | _ => rfl

/-- What reading an operand in the place of `a` leaves alone, and where it ends. -/
theorem readA_frame (s : Core) (a : ArgA Word) :
    (s.readA a).2.ram = s.ram ∧ (s.readA a).2.skip = s.skip ∧
      (s.readA a).2.pc = s.pc + BitVec.ofNat 16 a.next.toList.length := by
  cases a with
  | arg a => exact s.read_frame .a a
  | lit v => exact ⟨rfl, rfl, (BitVec.add_zero _).symm⟩

theorem placeA_state (s : Core) (a : ArgA Word) : (s.placeA a).2 = (s.readA a).2 := by
  cases a with
  | arg a => exact s.place_state .a a
  | lit v => rfl

/-- Only a literal has no place. -/
theorem place_ne_dummy {a : Arg Word} (h : a.operand ≠ .nxtLit) (s : Core) (pos : Pos) :
    (s.place pos a).1 ≠ .dummy := by
  cases a with
  | nxtLit w => exact absurd rfl h
  | pushPop =>
    simp only [place]
    split <;> simp
  | _ => simp [place]

end Core

/-! ### What the machine does -/

/-- What a program can see of a machine that nothing is wrong with. -/
structure Vm.Shows (vm : Vm) (s : Core) : Prop where
  core : vm.core = s
  irqCount : vm.irqCount = 0
  halted : vm.halted = false
  onFire : vm.onFire = false
  radiation : vm.radiation = false

namespace Vm.Shows

variable {host : Host} {vm : Vm} {s : Core}

theorem quiet (h : vm.Shows s) (hsleep : vm.sleepCycles = 0) : vm.Quiet :=
  ⟨hsleep, h.irqCount, h.halted, h.onFire, h.radiation⟩

theorem sleep (h : vm.Shows s) (n : Word) : (vm.sleep n).Shows s :=
  ⟨h.core, h.irqCount, h.halted, h.onFire, h.radiation⟩

theorem ram (h : vm.Shows s) : vm.ram = s.ram := congrArg Core.ram h.core

theorem skip (h : vm.Shows s) : vm.skip = s.skip := congrArg Core.skip h.core

theorem setSkip (h : vm.Shows s) (b : Bool) : (vm.setSkip b).Shows { s with skip := b } := by
  obtain rfl := h.core
  exact ⟨rfl, h.irqCount, h.halted, h.onFire, h.radiation⟩

/-- Clearing a flag that is clear does nothing. -/
theorem clearSkip (h : vm.Shows s) (hskip : vm.skip = false) : (vm.setSkip false).Shows s := by
  obtain rfl := h.core
  refine ⟨?_, h.irqCount, h.halted, h.onFire, h.radiation⟩
  rw [Vm.core, Vm.core, hskip]
  rfl

theorem writeReg (h : vm.Shows s) (r : Fin 8) (w : Word) :
    (vm.writeReg r w).Shows (s.setReg r w) := by
  obtain rfl := h.core
  exact ⟨rfl, h.irqCount, h.halted, h.onFire, h.radiation⟩

theorem setEx (h : vm.Shows s) (w : Word) : (vm.setEx w).Shows { s with ex := w } := by
  obtain rfl := h.core
  exact ⟨rfl, h.irqCount, h.halted, h.onFire, h.radiation⟩

theorem setIa (h : vm.Shows s) (w : Word) : (vm.setIa w).Shows { s with ia := w } := by
  obtain rfl := h.core
  exact ⟨rfl, h.irqCount, h.halted, h.onFire, h.radiation⟩

theorem setQueueInterrupts (h : vm.Shows s) (b : Bool) :
    (vm.setQueueInterrupts b).Shows { s with queueInterrupts := b } := by
  obtain rfl := h.core
  exact ⟨rfl, h.irqCount, h.halted, h.onFire, h.radiation⟩

theorem advance (h : vm.Shows s) (n : ℕ) (c : Word) :
    (vm.advance n c).Shows { s with pc := s.pc + BitVec.ofNat 16 n } := by
  obtain rfl := h.core
  exact ⟨rfl, h.irqCount, h.halted, h.onFire, h.radiation⟩

/-- A call. -/
theorem call (h : vm.Shows s) (w : Word) :
    (((vm.setSp (vm.sp - 1)).writeRam (vm.sp - 1) vm.pc).setPc w).Shows
      { s with
        sp := s.sp - 1
        ram := Function.update s.ram (s.sp - 1) s.pc
        pc := w } := by
  obtain rfl := h.core
  exact ⟨rfl, h.irqCount, h.halted, h.onFire, h.radiation⟩

/-- A return from an interrupt. -/
theorem returns (h : vm.Shows s) :
    ((((((vm.writeReg 0 (vm.ram vm.sp)).setSp (vm.sp + 1)).setPc (vm.ram (vm.sp + 1))).setSp
      (vm.sp + 1 + 1))).setQueueInterrupts false).Shows s.returns := by
  obtain rfl := h.core
  exact ⟨rfl, h.irqCount, h.halted, h.onFire, h.radiation⟩

/-- A device that is identified. -/
theorem identify (h : vm.Shows s) (device : Hw) :
    (((((vm.writeReg 0 (device.id.extractLsb' 0 16)).writeReg 1
      (device.id.extractLsb' 16 16)).writeReg 2 device.version).writeReg 3
      (device.manufacturer.extractLsb' 0 16)).writeReg 4
      (device.manufacturer.extractLsb' 16 16)).Shows (s.identify device) :=
  ((((h.writeReg _ _).writeReg _ _).writeReg _ _).writeReg _ _).writeReg _ _

/-- A register that is moved. -/
theorem addReg (h : vm.Shows s) (r : Fin 8) (delta : Word) :
    (vm.writeReg r (vm.registers r + delta)).Shows (s.setReg r (s.registers r + delta)) := by
  obtain rfl := h.core
  exact h.writeReg r _

/-- A word that is consumed. -/
theorem consume (h : vm.Shows s) : (vmConsumeWord vm).2.Shows s.pass := by
  obtain rfl := h.core
  exact ⟨rfl, h.irqCount, h.halted, h.onFire, h.radiation⟩

/-- **Reading an operand** whose next word is there. -/
theorem resolveValue (h : vm.Shows s) (hskip : s.skip = false) {pos : Pos} (hpos : pos ≠ .none)
    {a : Arg Word} (hcode : CodeAt s.ram s.pc a.next.toList) :
    (vmResolveValue vm a.operand pos).1 = (s.read pos a).1 ∧
      (vmResolveValue vm a.operand pos).2.Shows (s.read pos a).2 := by
  obtain rfl := h.core
  cases a with
  | pushPop =>
    have hvm : vm.skip = false := hskip
    cases pos with
    | none => exact absurd rfl hpos
    | a =>
      simp only [Arg.operand, vmResolveValue, hvm]
      exact ⟨rfl, rfl, h.irqCount, h.halted, h.onFire, h.radiation⟩
    | b =>
      simp only [Arg.operand, vmResolveValue, hvm]
      exact ⟨rfl, rfl, h.irqCount, h.halted, h.onFire, h.radiation⟩
  | nxtVal r w =>
    have hw : vm.ram vm.pc = w := hcode.head
    rw [← hw]
    exact ⟨rfl, rfl, h.irqCount, h.halted, h.onFire, h.radiation⟩
  | pick w =>
    have hw : vm.ram vm.pc = w := hcode.head
    rw [← hw]
    exact ⟨rfl, rfl, h.irqCount, h.halted, h.onFire, h.radiation⟩
  | nxt w =>
    have hw : vm.ram vm.pc = w := hcode.head
    rw [← hw]
    exact ⟨rfl, rfl, h.irqCount, h.halted, h.onFire, h.radiation⟩
  | nxtLit w =>
    have hw : vm.ram vm.pc = w := hcode.head
    rw [← hw]
    exact ⟨rfl, rfl, h.irqCount, h.halted, h.onFire, h.radiation⟩
  | _ => exact ⟨rfl, h⟩

/-- **Fetching the place of an operand** whose next word is there, and which is no literal. -/
theorem internalGetStore (h : vm.Shows s) (hskip : s.skip = false) {pos : Pos}
    (hpos : pos ≠ .none) {a : Arg Word} (hplace : a.operand ≠ .nxtLit)
    (hcode : CodeAt s.ram s.pc a.next.toList) :
    (vmInternalGetStore vm a.operand pos).1 = (s.place pos a).1 ∧
      (vmInternalGetStore vm a.operand pos).2.Shows (s.place pos a).2 := by
  obtain rfl := h.core
  have hvm : vm.skip = false := hskip
  simp only [vmInternalGetStore, hvm, Bool.false_eq_true, if_false]
  cases a with
  | pushPop =>
    cases pos with
    | none => exact absurd rfl hpos
    | a => exact ⟨rfl, rfl, h.irqCount, h.halted, h.onFire, h.radiation⟩
    | b => exact ⟨rfl, rfl, h.irqCount, h.halted, h.onFire, h.radiation⟩
  | nxtVal r w =>
    have hw : vm.ram vm.pc = w := hcode.head
    rw [← hw]
    exact ⟨rfl, rfl, h.irqCount, h.halted, h.onFire, h.radiation⟩
  | pick w =>
    have hw : vm.ram vm.pc = w := hcode.head
    rw [← hw]
    exact ⟨rfl, rfl, h.irqCount, h.halted, h.onFire, h.radiation⟩
  | nxt w =>
    have hw : vm.ram vm.pc = w := hcode.head
    rw [← hw]
    exact ⟨rfl, rfl, h.irqCount, h.halted, h.onFire, h.radiation⟩
  | nxtLit w => exact absurd rfl hplace
  | _ => exact ⟨rfl, h⟩

/-- Reading an operand in the place of `a`. -/
theorem resolveValueA (h : vm.Shows s) (hskip : s.skip = false) {a : ArgA Word}
    (hcode : CodeAt s.ram s.pc a.next.toList) :
    (vmResolveValue vm a.operand .a).1 = (s.readA a).1 ∧
      (vmResolveValue vm a.operand .a).2.Shows (s.readA a).2 := by
  cases a with
  | arg a => exact h.resolveValue hskip (by decide) hcode
  | lit v => exact ⟨rfl, h⟩

/-- Fetching the place of an operand in the place of `a`. -/
theorem internalGetStoreA (h : vm.Shows s) (hskip : s.skip = false) {a : ArgA Word}
    (hplace : a.operand ≠ .nxtLit) (hcode : CodeAt s.ram s.pc a.next.toList) :
    (vmInternalGetStore vm a.operand .a).1 = (s.placeA a).1 ∧
      (vmInternalGetStore vm a.operand .a).2.Shows (s.placeA a).2 := by
  cases a with
  | arg a => exact h.internalGetStore hskip (by decide) hplace hcode
  | lit v =>
    have hvm : vm.skip = false := h.skip.trans hskip
    simp only [vmInternalGetStore, hvm, Bool.false_eq_true, if_false]
    exact ⟨rfl, h⟩

theorem load (h : vm.Shows s) {store : Store} (hstore : store ≠ .dummy) :
    vm.load store = s.load store := by
  obtain rfl := h.core
  cases store with
  | dummy => exact absurd rfl hstore
  | _ => rfl

theorem store (h : vm.Shows s) (store : Store) (w : Word) :
    (vm.store store w).Shows (s.store w store) := by
  obtain rfl := h.core
  cases store <;> exact ⟨rfl, h.irqCount, h.halted, h.onFire, h.radiation⟩

end Vm.Shows

/-- Where the switch of `vm_cycle` leads. -/
theorem vmExecuteBasic_kind (host : Host) (vm : Vm) (op : BasicOp) (b a : Operand) :
    vmExecuteBasic host vm op b a =
      match op.kind with
      | .stores cycles alu => storeOp cycles alu host vm b a
      | .tests test => ifOp test vm b a
      | .moves delta => stepOp delta host vm b a := by
  cases op <;> rfl

/-- The opcodes that test are the conditionals. -/
theorem BasicOp.isIf_kind (op : BasicOp) :
    op.isIf = match op.kind with
      | .tests _ => true
      | _ => false := by
  cases op <;> rfl

/-- The call returned, and left what a program can see. -/
def Leads (r : Option Vm) (s : Core) : Prop := ∃ vm', r = some vm' ∧ vm'.Shows s

section Opcodes

variable {host : Host} {vm : Vm} {s : Core} {a : ArgA Word} {b : Arg Word}

theorem leads_some (h : vm.Shows s) : Leads (some vm) s := ⟨vm, rfl, h⟩

/-- Where the next word of the second operand is. -/
theorem codeAt_second (hcode : CodeAt s.ram s.pc (a.next.toList ++ b.next.toList)) :
    CodeAt (s.readA a).2.ram (s.readA a).2.pc b.next.toList := by
  obtain ⟨hram, -, hpc⟩ := s.readA_frame a
  rw [hram, hpc]
  exact (codeAt_append_iff.mp hcode).2

theorem storeOp_leads (hh : host.hooks = []) (h : vm.Shows s) (hskip : s.skip = false)
    (hb : b.operand ≠ .nxtLit) (hcode : CodeAt s.ram s.pc (a.next.toList ++ b.next.toList))
    (cycles : Word) (alu : Alu) :
    Leads (storeOp cycles alu host vm b.operand a.operand) (s.stores host alu b a) := by
  obtain ⟨hvalA, hvmA⟩ := h.resolveValueA hskip (codeAt_append_iff.mp hcode).1
  have hskipA : (s.readA a).2.skip = false := (s.readA_frame a).2.1.trans hskip
  obtain ⟨hstore, hvmB⟩ :=
    hvmA.internalGetStore hskipA (by decide : Pos.b ≠ .none) hb (codeAt_second hcode)
  have hload := hvmB.load (Core.place_ne_dummy hb (s.readA a).2 .b)
  have hskipB := hvmB.skip
  have hex := congrArg Core.ex hvmB.core
  rw [Core.place_state, (Core.read_frame _ .b b).2.1, hskipA] at hskipB
  simp only [storeOp, Core.stores, opNumCycles, Vm.sleep_skip, Vm.sleep_ex, hskipB, hstore, hload,
    hvalA, vmHookFireStore_nil hh, Bool.false_eq_true, if_false]
  rw [show (vmInternalGetStore (vmResolveValue vm a.operand .a).2 b.operand .b).2.ex =
    ((s.readA a).2.place .b b).2.ex from hex]
  have hstored := (hvmB.sleep (cycles - 1)).store ((s.readA a).2.place .b b).1
    (alu host (((s.readA a).2.place .b b).2.load ((s.readA a).2.place .b b).1)
      (s.readA a).1 ((s.readA a).2.place .b b).2.ex).1
  cases (alu host (((s.readA a).2.place .b b).2.load ((s.readA a).2.place .b b).1)
      (s.readA a).1 ((s.readA a).2.place .b b).2.ex).2 with
  | none => exact leads_some hstored
  | some ex => exact leads_some (hstored.setEx ex)

theorem ifOp_leads (h : vm.Shows s) (hskip : s.skip = false)
    (hcode : CodeAt s.ram s.pc (a.next.toList ++ b.next.toList)) (test : Word → Word → Bool) :
    Leads (ifOp test vm b.operand a.operand) (s.tests test b a) := by
  obtain ⟨hvalA, hvmA⟩ := h.resolveValueA hskip (codeAt_append_iff.mp hcode).1
  have hskipA : (s.readA a).2.skip = false := (s.readA_frame a).2.1.trans hskip
  obtain ⟨hvalB, hvmB⟩ :=
    hvmA.resolveValue hskipA (by decide : Pos.b ≠ .none) (codeAt_second hcode)
  have hskipB := hvmB.skip
  rw [(Core.read_frame _ .b b).2.1, hskipA] at hskipB
  simp only [ifOp, Core.tests, hskipB, hvalA, hvalB, Bool.false_eq_true, if_false]
  exact leads_some (hvmB.setSkip _)

theorem stepOp_leads (hh : host.hooks = []) (h : vm.Shows s) (hskip : s.skip = false)
    (hb : b.operand ≠ .nxtLit) (hcode : CodeAt s.ram s.pc (a.next.toList ++ b.next.toList))
    (delta : Word) : Leads (stepOp delta host vm b.operand a.operand) (s.moves delta b a) := by
  obtain ⟨hvalA, hvmA⟩ := h.resolveValueA hskip (codeAt_append_iff.mp hcode).1
  have hskipA : (s.readA a).2.skip = false := (s.readA_frame a).2.1.trans hskip
  obtain ⟨hstore, hvmB⟩ :=
    hvmA.internalGetStore hskipA (by decide : Pos.b ≠ .none) hb (codeAt_second hcode)
  have hskipB := hvmB.skip
  rw [Core.place_state, (Core.read_frame _ .b b).2.1, hskipA] at hskipB
  simp only [stepOp, Core.moves, hskipB, hstore, hvalA, vmHookFireStore_nil hh, Bool.false_eq_true,
    if_false, Option.bind_eq_bind, Option.bind_some]
  have hstored := hvmB.store ((s.readA a).2.place .b b).1 (s.readA a).1
  have hi := hstored.addReg 6 delta
  exact leads_some (hi.addReg 7 delta)

/-- **A basic instruction that is executed.** -/
theorem vmExecuteBasic_leads (hh : host.hooks = []) (h : vm.Shows s) (hskip : s.skip = false)
    (hcode : CodeAt s.ram s.pc (a.next.toList ++ b.next.toList)) {op : BasicOp}
    (hop : (op.isIf || b.operand != .nxtLit) = true) :
    Leads (vmExecuteBasic host vm op b.operand a.operand) (s.basic host op b a) := by
  rw [BasicOp.isIf_kind] at hop
  rw [vmExecuteBasic_kind, Core.basic]
  cases hkind : op.kind with
  | stores cycles alu =>
    rw [hkind] at hop
    exact storeOp_leads hh h hskip (by simpa using hop) hcode cycles alu
  | tests test => exact ifOp_leads h hskip hcode test
  | moves delta =>
    rw [hkind] at hop
    exact stepOp_leads hh h hskip (by simpa using hop) hcode delta

/-- A machine that has the slots of a host reads their number. -/
theorem lt_vmHwCount_iff (host : Host) (n : Word) :
    n < vmHwCount host ↔ n.toNat < host.hwList.length := by
  have hfits := host.hwFits
  rw [vmHwMax] at hfits
  rw [vmHwCount, BitVec.lt_def, BitVec.toNat_ofNat, Nat.mod_eq_of_lt (by omega)]

/-- **A non-basic instruction that is executed.** -/
theorem vmExecuteNonbasic_leads (hh : host.hooks = []) (h : vm.Shows s) (hskip : s.skip = false)
    (hcode : CodeAt s.ram s.pc a.next.toList) {op : NonbasicOp} {s' : Core}
    (hop : skipHonoured (.nonbasic op a.operand) = true) (hs' : s.nonbasic host op a = some s') :
    Leads (vmExecuteNonbasic host vm op a.operand) s' := by
  obtain ⟨hval, hvm⟩ := h.resolveValueA hskip hcode
  have hskipA := hvm.skip
  rw [(s.readA_frame a).2.1, hskip] at hskipA
  -- the two opcodes that store fetch a place instead
  have hplace : a.operand ≠ .nxtLit →
      (vmInternalGetStore vm a.operand .a).2.skip = false ∧
        (vmInternalGetStore vm a.operand .a).1 = (s.placeA a).1 ∧
        (vmInternalGetStore vm a.operand .a).2.Shows (s.placeA a).2 := by
    intro ha
    obtain ⟨hstore, hvm'⟩ := h.internalGetStoreA hskip ha hcode
    refine ⟨?_, hstore, hvm'⟩
    rw [hvm'.skip, Core.placeA_state, (s.readA_frame a).2.1, hskip]
  cases op with
  | int => cases hs'
  | hwi => cases hs'
  | iag =>
    obtain ⟨hskipA, hstore, hvm⟩ := hplace (by simpa [skipHonoured] using hop)
    have hia := congrArg Core.ia hvm.core
    obtain rfl := Option.some.inj hs'
    simp only [vmExecuteNonbasic, vmOpIag, hskipA, hstore, vmHookFireStore_nil hh,
      Bool.false_eq_true, if_false]
    rw [show (vmInternalGetStore vm a.operand .a).2.ia = (s.placeA a).2.ia from hia]
    exact leads_some (hvm.store _ _)
  | hwn =>
    obtain ⟨hskipA, hstore, hvm⟩ := hplace (by simpa [skipHonoured] using hop)
    obtain rfl := Option.some.inj hs'
    simp only [vmExecuteNonbasic, vmOpHwn, opNumCycles, Vm.sleep_skip, hskipA, hstore,
      vmHookFireStore_nil hh, Bool.false_eq_true, if_false, Option.bind_eq_bind, Option.bind_some]
    have hstored := (hvm.sleep (2 - 1)).store (s.placeA a).1 (vmHwCount host)
    refine leads_some (hstored.clearSkip ?_)
    cases (s.placeA a).1 <;> exact hskipA
  | ias =>
    obtain rfl := Option.some.inj hs'
    simp only [vmExecuteNonbasic, vmOpIas, hskipA, hval, Bool.false_eq_true, if_false]
    exact leads_some (hvm.setIa _)
  | jsr =>
    obtain rfl := Option.some.inj hs'
    simp only [vmExecuteNonbasic, vmOpJsr, opNumCycles, Vm.sleep_skip, hskipA, hval,
      Bool.false_eq_true, if_false]
    exact leads_some ((hvm.sleep _).call _)
  | rfi =>
    obtain rfl := Option.some.inj hs'
    simp only [vmExecuteNonbasic, vmOpRfi, opNumCycles, Vm.sleep_skip, hskipA,
      Bool.false_eq_true, if_false]
    exact leads_some (hvm.sleep _).returns
  | iaq =>
    obtain rfl := Option.some.inj hs'
    simp only [vmExecuteNonbasic, vmOpIaq, opNumCycles, Vm.sleep_skip, hskipA, hval,
      Bool.false_eq_true, if_false]
    exact leads_some ((hvm.sleep _).setQueueInterrupts _)
  | hwq =>
    obtain rfl := Option.some.inj hs'
    simp only [vmExecuteNonbasic, vmOpHwq, opNumCycles, Vm.sleep_skip, hskipA, hval,
      Bool.false_eq_true, if_false, lt_vmHwCount_iff, Core.hwq]
    cases hdevice : host.hwList[(s.readA a).1.toNat]? with
    | none =>
      have hlen : ¬(s.readA a).1.toNat < host.hwList.length :=
        Nat.not_lt.mpr (List.getElem?_eq_none_iff.mp hdevice)
      rw [if_neg hlen]
      exact leads_some ((hvm.sleep _).clearSkip hskipA)
    | some device =>
      rw [if_pos (List.getElem?_eq_some_iff.mp hdevice).1]
      exact leads_some (((hvm.sleep _).identify device).clearSkip hskipA)

/-- What is left of a skipped instruction. -/
theorem SkippedTo.leads {n : ℕ} {b : Bool} {r : Option Vm} (hr : SkippedTo vm n b r)
    (h : vm.Shows s) : Leads r { s with pc := s.pc + BitVec.ofNat 16 n, skip := b } := by
  obtain ⟨c, rfl⟩ := hr
  exact leads_some ((h.advance n c).setSkip b)

/-- **An instruction that is skipped.** -/
theorem vmExecute_skip_leads {i : Instr Word} (h : vm.Shows s) (hskip : s.skip = true)
    (hi : skipHonoured i.inst = true) :
    Leads (vmExecute host (vmConsumeWord vm).2 i.word)
      { s with pc := s.pc + BitVec.ofNat 16 i.size, skip := i.inst.isIf } := by
  have hskips : (vmConsumeWord vm).2.skip = true := h.skip.trans hskip
  have hpc : ∀ n : ℕ, s.pc + 1 + BitVec.ofNat 16 n = s.pc + BitVec.ofNat 16 (1 + n) := by
    intro n
    rw [BitVec.ofNat_add, BitVec.add_assoc]
    rfl
  rw [vmExecute, Instr.decode_word]
  cases i with
  | two op b a =>
    have hleads := (vmExecuteBasic_skip hskips host op b.operand a.operand).leads h.consume
    have hwalk := (basicWalk_eq_iff op b.operand a.operand).mpr hi
    rw [Core.pass_pc, hpc, hwalk] at hleads
    rw [← Instr.instSize_inst]
    exact hleads
  | one op a =>
    have hop : op ≠ .int := by
      rintro rfl
      cases hi
    have hleads := (vmExecuteNonbasic_skip hskips host hop a.operand).leads h.consume
    have hwalk := (nonbasicWalk_eq_iff hop a.operand).mpr hi
    rw [Core.pass_pc, hpc, hwalk] at hleads
    rw [← Instr.instSize_inst]
    exact hleads

end Opcodes

/-- A machine that nothing disturbs, and what a program can see of it. -/
structure Vm.Rests (vm : Vm) (s : Core) : Prop extends vm.Shows s where
  sleepCycles : vm.sleepCycles = 0

section Run

variable {host : Host} {vm vm' : Vm} {s s' : Core}

/-- **An instruction of the machine does what it means.** -/
theorem vmInstruction_step {i : Instr Word} (hh : host.hooks = []) (h : vm.Rests s)
    (hcode : CodeAt s.ram s.pc i.encode) (hs' : s.step host i = some s') :
    ∃ vm', vmInstruction host vm = some vm' ∧ vm'.Rests s' := by
  have hfetched : vm.ram vm.pc = i.word := by
    obtain rfl := h.core
    exact hcode.head
  have hleads : Leads (vmExecute host (vmConsumeWord vm).2 i.word) s' := by
    unfold Core.step at hs'
    split at hs'
    · cases hs'
    rename_i hi
    rw [Bool.not_eq_false] at hi
    split at hs'
    · rename_i hskip
      obtain rfl := Option.some.inj hs'
      exact vmExecute_skip_leads h.toShows hskip hi
    · rename_i hskip
      rw [Bool.not_eq_true] at hskip
      have hnext : CodeAt s.pass.ram s.pass.pc i.nexts := hcode.tail
      rw [vmExecute, Instr.decode_word]
      cases i with
      | two op b a =>
        obtain rfl := Option.some.inj hs'
        exact vmExecuteBasic_leads hh h.consume hskip hnext hi
      | one op a => exact vmExecuteNonbasic_leads hh h.consume hskip hnext hi hs'
  obtain ⟨vm', hvm', hshows⟩ := hleads
  refine ⟨vm'.setSleepCycles 0, ?_, ⟨⟨?_, hshows.irqCount, hshows.halted, hshows.onFire,
    hshows.radiation⟩, rfl⟩⟩
  · rw [(h.quiet h.sleepCycles).vmInstruction_eq hh, hfetched, hvm']
    rfl
  · exact hshows.core

/-- An instruction in the memory that has a meaning. -/
def Core.Step (host : Host) (s s' : Core) : Prop :=
  ∃ i : Instr Word, CodeAt s.ram s.pc i.encode ∧ s.step host i = some s'

/-- A cycle that returns. -/
def Cycle (host : Host) (vm vm' : Vm) : Prop := vmCycle host vm = some vm'

theorem reflTransGen_cycle_iff :
    ReflTransGen (Cycle host) vm vm' ↔ ∃ n, vmRun (List.replicate n host) vm = some vm' := by
  constructor
  · intro h
    induction h with
    | refl => exact ⟨0, rfl⟩
    | tail _ hcycle ih =>
      obtain ⟨n, hn⟩ := ih
      refine ⟨n + 1, ?_⟩
      rw [List.replicate_succ', vmRun_append, hn, Option.bind_some, vmRun_cons, hcycle]
      rfl
  · rintro ⟨n, hn⟩
    induction n generalizing vm with
    | zero =>
      cases hn
      exact .refl
    | succ n ih =>
      rw [List.replicate_succ, vmRun_cons] at hn
      obtain ⟨vm₁, hcycle, hrest⟩ := Option.bind_eq_some_iff.mp hn
      exact .head hcycle (ih hrest)

/-- An instruction is some cycles. -/
theorem reflTransGen_of_vmInstruction (h : vmInstruction host vm = some vm') :
    ReflTransGen (Cycle host) vm vm' := by
  obtain ⟨vm₁, hcycle, hasleep⟩ := Option.bind_eq_some_iff.mp h
  exact .head hcycle (reflTransGen_cycle_iff.mpr ⟨_, hasleep⟩)

/-- **The machine simulates the instructions.** -/
theorem simulates_core (hh : host.hooks = []) :
    Simulates (fun s vm => vm.Rests s) (Core.Step host) (Cycle host) := by
  rintro s s' vm hvm ⟨i, hcode, hstep⟩
  obtain ⟨vm', hvm', hrests⟩ := vmInstruction_step hh hvm hcode hstep
  exact ⟨vm', reflTransGen_of_vmInstruction hvm', hrests⟩

/-- **A machine that nothing disturbs carries out every run of instructions that have a
meaning.** -/
theorem vmRun_core (hh : host.hooks = []) (hvm : vm.Rests s)
    (hrun : ReflTransGen (Core.Step host) s s') :
    ∃ n vm', vmRun (List.replicate n host) vm = some vm' ∧ vm'.Rests s' := by
  obtain ⟨vm', hcycles, hrests⟩ := (simulates_core hh).run hvm hrun
  obtain ⟨n, hn⟩ := reflTransGen_cycle_iff.mp hcycles
  exact ⟨n, vm', hn, hrests⟩

/-- `IFE A, 1` and `ADD A, 2`, of which the second is skipped, and `SUB A, 2`. -/
def skippingCode : List (Instr Word) :=
  [.basic .ife (.reg 0) (.nxtLit 1), .basic .add (.reg 0) (.nxtLit 2),
    .basic .sub (.reg 0) (.nxtLit 2)]

/-- A memory that begins with them. -/
def skippingMemory (a : Word) : Word := (skippingCode.flatMap Instr.encode).getD a.toNat 0

/-- `A` is -2 in the end. -/
theorem vmRun_core_skipping :
    ∃ n vm', vmRun (List.replicate n {}) { ram := skippingMemory } = some vm' ∧
      vm'.Rests
        { registers := Function.update (fun _ => 0) 0 0xFFFE, pc := 6, sp := 0, ia := 0
          ex := 0xFFFF, ram := skippingMemory, queueInterrupts := false, skip := false } := by
  have hcode : CodeAt skippingMemory 0 ((Instr.basic .ife (.reg 0) (.nxtLit 1)).encode ++
      ((Instr.basic .add (.reg 0) (.nxtLit 2)).encode ++
        ((Instr.basic .sub (.reg 0) (.nxtLit 2)).encode ++ []))) := codeAt_getD (by decide)
  obtain ⟨htested, hbehind⟩ := codeAt_append_iff.mp hcode
  obtain ⟨hskipped, hlast⟩ := codeAt_append_iff.mp hbehind
  rw [List.append_nil] at hlast
  exact vmRun_core rfl ⟨⟨rfl, rfl, rfl, rfl, rfl⟩, rfl⟩
    (.head ⟨_, htested, rfl⟩ (.head ⟨_, hskipped, rfl⟩ (.single ⟨_, hlast, rfl⟩)))

end Run

end DcpuToolchain
