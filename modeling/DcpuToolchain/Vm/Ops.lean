import DcpuToolchain.Vm.State

/-!
# Interrupts, operands and opcodes

The functions an instruction is executed with: `vm_interrupt`, `vm_consume_word`
and `vm_resolve_value` of `vm.c`, and the opcodes of `dcpuops.c`.

Most opcodes follow one of two patterns, and each pattern is one definition here.
`DcpuToolchain.storeOp` is the pattern of the arithmetic opcodes – resolve `a`, find
where `b` is stored, bill the cycles, leave if skipping, store – and
`DcpuToolchain.ifOp` that of the conditionals, which resolve both operands and leave
the skip flag alone when it is already set. An opcode is its pattern applied to
its cycles and its arithmetic.
-/

namespace DcpuToolchain

/-! ### Reading operands -/

/-- `vm_consume_word`. -/
def vmConsumeWord (vm : Vm) : Word × Vm :=
  (vm.ram vm.pc, { vm with pc := vm.pc + 1, consumed := vm.consumed + 1 })

/-- `POS__`, `POS_A` and `POS_B`. -/
inductive Pos
  | none | a | b
  deriving DecidableEq, Repr

/-- `vm_resolve_value`. -/
def vmResolveValue (vm : Vm) (val : Operand) (pos : Pos) : Word × Vm :=
  match val with
  | .reg r => (vm.registers r, vm)
  | .val r => (vm.ram (vm.registers r), vm)
  | .nxtVal r =>
      let (w, vm) := vmConsumeWord (vm.sleep 1)
      (vm.ram (vm.registers r + w), vm)
  | .pushPop =>
      if vm.skip then (vm.dummy, vm)
      else match pos with
        | .a => (vm.ram vm.sp, vm.setSp (vm.sp + 1))
        | .b => (vm.ram (vm.sp - 1), vm.setSp (vm.sp - 1))
        | .none => (vm.ram vm.sp, vm)
  | .peek => (vm.ram vm.sp, vm)
  | .pick =>
      let (w, vm) := vmConsumeWord (vm.sleep 1)
      (vm.ram (vm.sp + w), vm)
  | .ia => (vm.ia, vm)
  | .sp => (vm.sp, vm)
  | .pc => (vm.pc, vm)
  | .ex => (vm.ex, vm)
  | .nxt =>
      let (w, vm) := vmConsumeWord vm
      (vm.ram w, vm.sleep 1)
  | .nxtLit =>
      let (w, vm) := vmConsumeWord vm
      (w, vm.sleep 1)
  | .lit code => (BitVec.ofNat 16 code - 0x21, vm)

/-! ### Interrupts -/

/-- One turn of the loop of `vm_interrupt` that walks over the instructions to be
skipped: it resolves both operands of whatever it finds, and says whether that was
a conditional. -/
def vmSkipTurn (vm : Vm) : Bool × Vm :=
  let (instruction, vm) := vmConsumeWord vm
  let (_, vm) := vmResolveValue vm (operand (instructionGetA instruction)) .a
  let (_, vm) := vmResolveValue vm (operand (instructionGetB instruction)) .b
  let vm := vm.sleep 1
  match basicOp (instructionGetOp instruction) with
  | some op => (op.isIf, vm)
  | none => (false, vm)

/-- The loop itself, which goes on after a conditional. It has no bound in the
source. Where it goes depends on `pc` and the memory only, and the memory stays as
it is, so a walk of `0x10000` turns never ends; `none` says so. -/
def vmSkipLoop : ℕ → Vm → Option Vm
  | 0, _ => none
  | fuel + 1, vm =>
      let (skipBranch, vm) := vmSkipTurn vm
      if skipBranch then vmSkipLoop fuel vm else some vm

/-- What `vm_interrupt` does about a pending skip: walk it to its end. -/
def vmSkipPending (vm : Vm) : Option Vm :=
  if vm.skip then (vmSkipLoop 0x10000 vm).map (·.setSkip false) else some vm

/-- The part of `vm_interrupt` that enters the handler. The saved `pc` is the one
the function was entered with. -/
def enterHandler (vm : Vm) (pc msgid : Word) : Vm :=
  let vm := vm.setSp (vm.sp - 1)
  let vm := vm.writeRam vm.sp pc
  let vm := vm.setSp (vm.sp - 1)
  let vm := vm.writeRam vm.sp (vm.registers 0)
  let vm := vm.writeReg 0 msgid
  (vm.setPc vm.ia).setQueueInterrupts true

/-- `vm_interrupt`. -/
def vmInterrupt (host : Host) (vm : Vm) (msgid : Word) : Option Vm :=
  if vm.queueInterrupts then
    if vm.irqCount ≥ interruptMax then
      some (vmHalt (vm.log (.refused msgid)))
    else
      some (vm.enqueueIrq msgid)
  else if vm.ia = 0 then
    some (vm.log (.ignored msgid))
  else do
    let w ← vmSkipPending vm
    vmHookFire host vm.pc .onInterrupt ((enterHandler w vm.pc msgid).log (.delivered msgid))

/-- A call of `vm_interrupt` by an instruction, a hook or a device: the message is
raised, and recorded as such. -/
def vmRaise (host : Host) (vm : Vm) (msgid : Word) : Option Vm :=
  vmInterrupt host (vm.log (.raised msgid)) msgid

/-! ### Writing operands -/

/-- What the pointer returned by `vm_internal_get_store` points to. -/
inductive Store
  | reg (r : Fin 8)
  | ram (addr : Word)
  | ia | sp | pc | ex | dummy
  deriving DecidableEq, Repr

/-- The test by which a skipping `vm_internal_get_store` decides whether to walk over
a word: like `DcpuToolchain.Operand.hasNext`, but for the literal. -/
def Operand.storeHasNext : Operand → Bool
  | .nxtVal _ | .nxt | .pick => true
  | _ => false

/-- `vm_internal_get_store`. -/
def vmInternalGetStore (vm : Vm) (loc : Operand) (pos : Pos) : Store × Vm :=
  if vm.skip then
    if loc.storeHasNext then (.dummy, (vmConsumeWord vm).2) else (.dummy, vm)
  else
    match loc with
    | .reg r => (.reg r, vm)
    | .val r => (.ram (vm.registers r), vm)
    | .nxtVal r =>
        let (w, vm) := vmConsumeWord (vm.sleep 1)
        (.ram (vm.registers r + w), vm)
    | .pushPop => match pos with
        | .a => (.ram vm.sp, vm.setSp (vm.sp + 1))
        | .b => (.ram (vm.sp - 1), vm.setSp (vm.sp - 1))
        | .none => (.ram vm.sp, vm)
    | .peek => (.ram vm.sp, vm)
    | .pick =>
        let (w, vm) := vmConsumeWord (vm.sleep 1)
        (.ram (vm.sp + w), vm)
    | .ia => (.ia, vm)
    | .sp => (.sp, vm)
    | .pc => (.pc, vm)
    | .ex => (.ex, vm)
    | .nxt =>
        let (w, vm) := vmConsumeWord (vm.sleep 1)
        (.ram w, vm)
    | .nxtLit | .lit _ => (.dummy, vm)

/-- `*store`. -/
def Vm.load (vm : Vm) : Store → Word
  | .reg r => vm.registers r
  | .ram addr => vm.ram addr
  | .ia => vm.ia
  | .sp => vm.sp
  | .pc => vm.pc
  | .ex => vm.ex
  | .dummy => vm.dummy

/-- `*store = w`. -/
def Vm.store (vm : Vm) (store : Store) (w : Word) : Vm :=
  match store with
  | .reg r => vm.writeReg r w
  | .ram addr => vm.writeRam addr w
  | .ia => vm.setIa w
  | .sp => vm.setSp w
  | .pc => vm.setPc w
  | .ex => vm.setEx w
  | .dummy => { vm with dummy := w }

/-- `VM_HOOK_FIRE`: only a pointer into the memory fires the write hooks. -/
def vmHookFireStore (host : Host) (store : Store) (vm : Vm) : Option Vm :=
  match store with
  | .ram addr => vmHookFire host addr .onWrite vm
  | _ => some vm

/-- `OP_NUM_CYCLES`. -/
def opNumCycles (count : Word) (vm : Vm) : Vm := vm.sleep (count - 1)

/-! ### The arithmetic of the opcodes -/

/-- `>>` on an `int`. -/
def shiftRightInt (host : Host) (x : BitVec 32) (n : ℤ) : BitVec 32 :=
  if 0 ≤ n ∧ n < 32 then x.sshiftRight n.toNat else host.oobShift x n

/-- `<<` on an `int`. -/
def shiftLeftInt (host : Host) (x : BitVec 32) (n : ℤ) : BitVec 32 :=
  if 0 ≤ n ∧ n < 32 then x <<< n.toNat else host.oobShift x n

/-- `VM_CHECK_ARITHMETIC_FLOW` and its `_EX` variant: what `ex` becomes after an
operation with the given exact result. -/
def arithmeticFlow (result : ℤ) : Word :=
  if result < 0 then 0xFFFF else if result > 0xFFFF then 0x0001 else 0x0000

/-- What an arithmetic opcode computes from `val_b`, `val_a` and `ex`: the word it
stores and, when it has one, the new `ex`. -/
abbrev Alu := Host → Word → Word → Word → Word × Option Word

def aluSet : Alu := fun _ _ a _ => (a, none)

def aluAdd : Alu := fun _ b a _ => (b + a, some (arithmeticFlow (b.toNat + a.toNat)))

def aluSub : Alu := fun _ b a _ => (b - a, some (arithmeticFlow ((b.toNat : ℤ) - a.toNat)))

def aluMul : Alu := fun _ b a _ =>
  (b * a, some ((b.setWidth 32 * a.setWidth 32).extractLsb' 16 16))

def aluMli : Alu := fun _ b a _ =>
  (b * a, some ((b.signExtend 32 * a.signExtend 32).extractLsb' 16 16))

def aluDiv : Alu := fun _ b a _ =>
  if a = 0 then (0, some 0)
  else (b / a, some (((b.setWidth 32 <<< 16) / a.setWidth 32).setWidth 16))

/-- The quotient is taken of signed operands, the excess of operands converted to
`uint64_t`. -/
def aluDvi : Alu := fun _ b a _ =>
  if a = 0 then (0, some 0)
  else (b.sdiv a, some (((b.signExtend 64 <<< 16) / a.signExtend 64).setWidth 16))

/-- `val_a` is read as unsigned; a negative remainder is moved up by it. -/
def aluMdi : Alu := fun _ b a _ =>
  let result : Word := if a = 0 then 0 else BitVec.ofInt 16 (b.toInt.tmod a.toNat)
  (if result.toInt < 0 then result + a else result, none)

def aluMod : Alu := fun _ b a _ => (if a = 0 then 0 else b % a, none)

def aluAnd : Alu := fun _ b a _ => (b &&& a, none)

def aluBor : Alu := fun _ b a _ => (b ||| a, none)

def aluXor : Alu := fun _ b a _ => (b ^^^ a, none)

def aluShr : Alu := fun host b a _ =>
  ((shiftRightInt host (b.setWidth 32) a.toNat).setWidth 16,
    some ((shiftRightInt host (b.setWidth 32 <<< 16) a.toNat).setWidth 16))

/-- Both operands are `int16_t`. -/
def aluAsr : Alu := fun host b a _ =>
  ((shiftRightInt host (b.signExtend 32) a.toInt).setWidth 16,
    some ((shiftRightInt host (b.signExtend 32 <<< 16) a.toInt).setWidth 16))

def aluShl : Alu := fun host b a _ =>
  ((shiftLeftInt host (b.setWidth 32) a.toNat).setWidth 16,
    some ((shiftLeftInt host (b.setWidth 32) a.toNat).extractLsb' 16 16))

def aluAdx : Alu := fun _ b a ex =>
  (b + a + ex, some (arithmeticFlow (b.toNat + a.toNat + ex.toInt)))

def aluSbx : Alu := fun _ b a ex =>
  (b - a + ex, some (arithmeticFlow ((b.toNat : ℤ) - a.toNat + ex.toInt)))

/-! ### The two patterns -/

/-- The pattern of the opcodes that store into `b`. `VM_SKIP_RESET` leaves between
the operands and the store. -/
def storeOp (cycles : Word) (alu : Alu) (host : Host) (vm : Vm) (b a : Operand) :
    Option Vm :=
  let (valA, vm) := vmResolveValue vm a .a
  let (storeB, vm) := vmInternalGetStore vm b .b
  let valB := vm.load storeB
  let vm := opNumCycles cycles vm
  if vm.skip then some (vm.setSkip false)
  else
    let (result, ex) := alu host valB valA vm.ex
    let vm := vm.store storeB result
    let vm := match ex with
      | some ex => vm.setEx ex
      | none => vm
    vmHookFireStore host storeB vm

/-- The pattern of the conditionals. `VM_BRANCHING_SKIP` leaves the flag set. -/
def ifOp (test : Word → Word → Bool) (vm : Vm) (b a : Operand) : Option Vm :=
  let (valA, vm) := vmResolveValue vm a .a
  let (valB, vm) := vmResolveValue vm b .b
  if vm.skip then some vm else some (vm.setSkip (!test valB valA))

/-! ### The basic opcodes -/

def vmOpSet := storeOp 1 aluSet
def vmOpAdd := storeOp 2 aluAdd
def vmOpSub := storeOp 2 aluSub
def vmOpMul := storeOp 2 aluMul
def vmOpMli := storeOp 2 aluMli
def vmOpDiv := storeOp 3 aluDiv
def vmOpDvi := storeOp 3 aluDvi
def vmOpMdi := storeOp 3 aluMdi
def vmOpMod := storeOp 3 aluMod
def vmOpAnd := storeOp 1 aluAnd
def vmOpBor := storeOp 1 aluBor
def vmOpXor := storeOp 1 aluXor
def vmOpShr := storeOp 1 aluShr
def vmOpAsr := storeOp 1 aluAsr
def vmOpShl := storeOp 1 aluShl
def vmOpAdx := storeOp 3 aluAdx
def vmOpSbx := storeOp 3 aluSbx

def vmOpIfb := ifOp fun b a => b &&& a ≠ 0
def vmOpIfc := ifOp fun b a => b &&& a = 0
def vmOpIfe := ifOp fun b a => b = a
def vmOpIfn := ifOp fun b a => b ≠ a
def vmOpIfg := ifOp fun b a => a < b
def vmOpIfa := ifOp fun b a => a.slt b
def vmOpIfl := ifOp fun b a => b < a
def vmOpIfu := ifOp fun b a => b.slt a

/-- What `vm_op_sti` and `vm_op_std` share: `SET`, then move `I` and `J`. The two
register pointers never lie in the memory, so their `VM_HOOK_FIRE`s do nothing. -/
def stepOp (delta : Word) (host : Host) (vm : Vm) (b a : Operand) : Option Vm := do
  let (valA, vm) := vmResolveValue vm a .a
  let (storeB, vm) := vmInternalGetStore vm b .b
  if vm.skip then some (vm.setSkip false)
  else
    let vm ← vmHookFireStore host storeB (vm.store storeB valA)
    let vm := vm.writeReg 6 (vm.registers 6 + delta)
    some (vm.writeReg 7 (vm.registers 7 + delta))

def vmOpSti := stepOp 1
def vmOpStd := stepOp (-1)

/-! ### The non-basic opcodes -/

def vmOpJsr (vm : Vm) (a : Operand) : Option Vm :=
  let (valA, vm) := vmResolveValue vm a .a
  let vm := opNumCycles 3 vm
  if vm.skip then some (vm.setSkip false)
  else
    let vm := vm.setSp (vm.sp - 1)
    some ((vm.writeRam vm.sp vm.pc).setPc valA)

/-- There is no `VM_SKIP_RESET` here: a skipped `INT` raises its interrupt. -/
def vmOpInt (host : Host) (vm : Vm) (a : Operand) : Option Vm :=
  let (valA, vm) := vmResolveValue vm a .a
  vmRaise host (opNumCycles 4 vm) valA

def vmOpIag (host : Host) (vm : Vm) (a : Operand) : Option Vm :=
  let (storeA, vm) := vmInternalGetStore vm a .a
  if vm.skip then some (vm.setSkip false)
  else vmHookFireStore host storeA (vm.store storeA vm.ia)

def vmOpIas (vm : Vm) (a : Operand) : Option Vm :=
  let (valA, vm) := vmResolveValue vm a .a
  if vm.skip then some (vm.setSkip false) else some (vm.setIa valA)

/-- The final `VM_HOOK_FIRE` is of a register and does nothing. -/
def vmOpRfi (vm : Vm) (a : Operand) : Option Vm :=
  let (_, vm) := vmResolveValue vm a .a
  let vm := opNumCycles 3 vm
  if vm.skip then some (vm.setSkip false)
  else
    let vm := (vm.writeReg 0 (vm.ram vm.sp)).setSp (vm.sp + 1)
    let vm := (vm.setPc (vm.ram vm.sp)).setSp (vm.sp + 1)
    some (vm.setQueueInterrupts false)

def vmOpIaq (vm : Vm) (a : Operand) : Option Vm :=
  let (valA, vm) := vmResolveValue vm a .a
  let vm := opNumCycles 2 vm
  if vm.skip then some (vm.setSkip false)
  else some (vm.setQueueInterrupts (valA ≠ 0))

def vmOpHwn (host : Host) (vm : Vm) (a : Operand) : Option Vm := do
  let (storeA, vm) := vmInternalGetStore vm a .a
  let vm := opNumCycles 2 vm
  if vm.skip then some (vm.setSkip false)
  else
    let vm ← vmHookFireStore host storeA (vm.store storeA (vmHwCount host))
    some (vm.setSkip false)

/-- The five registers are fetched through `vm_internal_get_store`, which for a
register has no effect. -/
def vmOpHwq (host : Host) (vm : Vm) (a : Operand) : Option Vm :=
  let (valA, vm) := vmResolveValue vm a .a
  let vm := opNumCycles 4 vm
  if vm.skip then some (vm.setSkip false)
  else if valA < vmHwCount host then
    match host.hwList[valA.toNat]? with
    | none => some ((vmHalt vm).setSkip false)
    | some device =>
        let vm := vm.writeReg 0 (device.id.extractLsb' 0 16)
        let vm := vm.writeReg 1 (device.id.extractLsb' 16 16)
        let vm := vm.writeReg 2 device.version
        let vm := vm.writeReg 3 (device.manufacturer.extractLsb' 0 16)
        let vm := vm.writeReg 4 (device.manufacturer.extractLsb' 16 16)
        some (vm.setSkip false)
  else some (vm.setSkip false)

def vmOpHwi (host : Host) (vm : Vm) (a : Operand) : Option Vm :=
  let (valA, vm) := vmResolveValue vm a .a
  let vm := opNumCycles 4 vm
  if vm.skip then some (vm.setSkip false) else vmHwInterrupt host vm valA

end DcpuToolchain
