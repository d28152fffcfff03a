import DcpuToolchain.Vm.Ops

/-!
# One cycle of the virtual machine

`vm_cycle` of `vm.c`, cut at its calls: the 60 Hz tick, the delivery of a waiting
interrupt (`DcpuToolchain.vmDrain`), the pre-cycle hooks, the damage simulation, the
instruction (`DcpuToolchain.vmExecute`) and the post-cycle hooks.

The damage simulation is the emulator's: a machine on fire executes nothing and
garbles a part of its memory now and then, and a machine under radiation has a bit
of its memory flipped now and then before an instruction.
-/

namespace DcpuToolchain

/-! ### Fire and radiation -/

/-- The identifier by which `vm_op_fire` looks for a screen. -/
def lem1802Id : BitVec 32 := 0x7349F615

/-- The first part of `vm_op_fire`: point the first screen at the memory that is
about to burn, through two hardware interrupts. -/
def vmFireScreen (host : Host) (vm : Vm) : Option Vm :=
  match vm.screenId with
  | some _ => some vm
  | none =>
      match host.hwList.findIdx? fun device => device.id = lem1802Id with
      | none => some vm
      | some i => do
          let vm := (vm.writeReg 0 0).writeReg 1 0x1000
          let vm ← vmHwInterrupt host vm (BitVec.ofNat 16 i)
          let vm := (vm.writeReg 0 1).writeReg 1 (0x1000 + 0x17F)
          let vm ← vmHwInterrupt host vm (BitVec.ofNat 16 i)
          some { vm with screenId := some i }

/-- The inner loop of `vm_op_fire`: `length` words from `pos` on become `fill`. -/
def vmFireFill (host : Host) (pos : ℕ) (fill : Word) : ℕ → Vm → Option Vm
  | 0, vm => some vm
  | length + 1, vm => do
      let vm ← vmFireFill host pos fill length vm
      let addr := BitVec.ofNat 16 (pos + length)
      vmHookFire host addr .onWrite (vm.writeRam addr fill)

/-- The outer loop of `vm_op_fire`, on the values `rand` returns. -/
def vmFireBurn (host : Host) : ℕ → List ℕ → Vm → Option Vm
  | pos, length :: fill :: rands, vm =>
      if pos < 0x1000 + 0x300 then do
        let vm ← vmFireFill host pos (BitVec.ofNat 16 fill) (length % 100) vm
        vmFireBurn host (pos + length % 100) rands vm
      else some vm
  | _, _, vm => some vm

/-- `vm_op_fire`. -/
def vmOpFire (host : Host) (vm : Vm) : Option Vm := do
  let vm ← vmFireScreen host vm
  if vm.fireCycles < vm.fireCyclesTarget then
    some { vm with fireCycles := vm.fireCycles + 1 }
  else
    vmFireBurn host 0x1000 host.rands
      { vm with fireCycles := 0, fireCyclesTarget := dcpuTicksKhz * 1000 }

/-- Whether `vm_op_radiation` is about to flip a bit. -/
def radiationDue (vm : Vm) : Prop :=
  vm.radiation = true ∧ vm.radiationCyclesTarget ≤ vm.radiationCycles

instance (vm : Vm) : Decidable (radiationDue vm) := by
  unfold radiationDue; infer_instance

/-- The `i`-th value `rand` returns during the call. -/
def Host.rand (host : Host) (i : ℕ) : ℕ := host.rands.getD i 0

/-- `vm_op_radiation`. -/
def vmOpRadiation (host : Host) (vm : Vm) : Option Vm :=
  if vm.radiationCycles < vm.radiationCyclesTarget then
    some (vm.setRadiationCycles (vm.radiationCycles + 1))
  else
    let pos := BitVec.ofNat 16 (host.rand 0)
    let bit := host.rand 1 % 15
    let vm := { vm with
      radiationCycles := 0
      radiationCyclesTarget := dcpuTicksKhz * vm.radiationFactor * (host.rand 2 % 10 : ℕ) }
    vmHookFire host pos .onWrite (vm.writeRam pos (vm.ram pos ^^^ (1#16 <<< bit)))

/-! ### The instruction -/

/-- The `default` branches of the two switches: catch fire if the machine can, halt
otherwise. -/
def vmInvalid (vm : Vm) : Vm :=
  if vm.canFire then { vm with onFire := true } else vmHalt vm

/-- The switch over the basic opcodes. -/
def vmExecuteBasic (host : Host) (vm : Vm) (op : BasicOp) (b a : Operand) : Option Vm :=
  match op with
  | .set => vmOpSet host vm b a
  | .add => vmOpAdd host vm b a
  | .sub => vmOpSub host vm b a
  | .mul => vmOpMul host vm b a
  | .mli => vmOpMli host vm b a
  | .div => vmOpDiv host vm b a
  | .dvi => vmOpDvi host vm b a
  | .mod => vmOpMod host vm b a
  | .mdi => vmOpMdi host vm b a
  | .and => vmOpAnd host vm b a
  | .bor => vmOpBor host vm b a
  | .xor => vmOpXor host vm b a
  | .shr => vmOpShr host vm b a
  | .asr => vmOpAsr host vm b a
  | .shl => vmOpShl host vm b a
  | .ifb => vmOpIfb vm b a
  | .ifc => vmOpIfc vm b a
  | .ife => vmOpIfe vm b a
  | .ifn => vmOpIfn vm b a
  | .ifg => vmOpIfg vm b a
  | .ifa => vmOpIfa vm b a
  | .ifl => vmOpIfl vm b a
  | .ifu => vmOpIfu vm b a
  | .adx => vmOpAdx host vm b a
  | .sbx => vmOpSbx host vm b a
  | .sti => vmOpSti host vm b a
  | .std => vmOpStd host vm b a

/-- **The three patterns of basic opcodes**: a conditional, an opcode that stores,
and `STI` or `STD`. -/
theorem vmExecuteBasic_cases (op : BasicOp) :
    (op.isIf = true ∧ ∃ test, ∀ host vm b a, vmExecuteBasic host vm op b a = ifOp test vm b a) ∨
    (op.isIf = false ∧ ∃ cycles alu, ∀ host vm b a,
      vmExecuteBasic host vm op b a = storeOp cycles alu host vm b a) ∨
    (op.isIf = false ∧ ∃ delta, ∀ host vm b a,
      vmExecuteBasic host vm op b a = stepOp delta host vm b a) := by
  cases op with
  | set => exact .inr (.inl ⟨rfl, 1, aluSet, fun _ _ _ _ => rfl⟩)
  | add => exact .inr (.inl ⟨rfl, 2, aluAdd, fun _ _ _ _ => rfl⟩)
  | sub => exact .inr (.inl ⟨rfl, 2, aluSub, fun _ _ _ _ => rfl⟩)
  | mul => exact .inr (.inl ⟨rfl, 2, aluMul, fun _ _ _ _ => rfl⟩)
  | mli => exact .inr (.inl ⟨rfl, 2, aluMli, fun _ _ _ _ => rfl⟩)
  | div => exact .inr (.inl ⟨rfl, 3, aluDiv, fun _ _ _ _ => rfl⟩)
  | dvi => exact .inr (.inl ⟨rfl, 3, aluDvi, fun _ _ _ _ => rfl⟩)
  | mod => exact .inr (.inl ⟨rfl, 3, aluMod, fun _ _ _ _ => rfl⟩)
  | mdi => exact .inr (.inl ⟨rfl, 3, aluMdi, fun _ _ _ _ => rfl⟩)
  | and => exact .inr (.inl ⟨rfl, 1, aluAnd, fun _ _ _ _ => rfl⟩)
  | bor => exact .inr (.inl ⟨rfl, 1, aluBor, fun _ _ _ _ => rfl⟩)
  | xor => exact .inr (.inl ⟨rfl, 1, aluXor, fun _ _ _ _ => rfl⟩)
  | shr => exact .inr (.inl ⟨rfl, 1, aluShr, fun _ _ _ _ => rfl⟩)
  | asr => exact .inr (.inl ⟨rfl, 1, aluAsr, fun _ _ _ _ => rfl⟩)
  | shl => exact .inr (.inl ⟨rfl, 1, aluShl, fun _ _ _ _ => rfl⟩)
  | adx => exact .inr (.inl ⟨rfl, 3, aluAdx, fun _ _ _ _ => rfl⟩)
  | sbx => exact .inr (.inl ⟨rfl, 3, aluSbx, fun _ _ _ _ => rfl⟩)
  | ifb => exact .inl ⟨rfl, fun b a => b &&& a ≠ 0, fun _ _ _ _ => rfl⟩
  | ifc => exact .inl ⟨rfl, fun b a => b &&& a = 0, fun _ _ _ _ => rfl⟩
  | ife => exact .inl ⟨rfl, fun b a => b = a, fun _ _ _ _ => rfl⟩
  | ifn => exact .inl ⟨rfl, fun b a => b ≠ a, fun _ _ _ _ => rfl⟩
  | ifg => exact .inl ⟨rfl, fun b a => a < b, fun _ _ _ _ => rfl⟩
  | ifa => exact .inl ⟨rfl, fun b a => a.slt b, fun _ _ _ _ => rfl⟩
  | ifl => exact .inl ⟨rfl, fun b a => b < a, fun _ _ _ _ => rfl⟩
  | ifu => exact .inl ⟨rfl, fun b a => b.slt a, fun _ _ _ _ => rfl⟩
  | sti => exact .inr (.inr ⟨rfl, 1, fun _ _ _ _ => rfl⟩)
  | std => exact .inr (.inr ⟨rfl, -1, fun _ _ _ _ => rfl⟩)

/-- The switch over the non-basic opcodes. -/
def vmExecuteNonbasic (host : Host) (vm : Vm) (op : NonbasicOp) (a : Operand) : Option Vm :=
  match op with
  | .jsr => vmOpJsr vm a
  | .int => vmOpInt host vm a
  | .iag => vmOpIag host vm a
  | .ias => vmOpIas vm a
  | .rfi => vmOpRfi vm a
  | .iaq => vmOpIaq vm a
  | .hwn => vmOpHwn host vm a
  | .hwq => vmOpHwq host vm a
  | .hwi => vmOpHwi host vm a

/-- The two nested switches of `vm_cycle`. -/
def vmExecute (host : Host) (vm : Vm) (instruction : Word) : Option Vm :=
  match decode instruction with
  | .basic op b a => vmExecuteBasic host vm op b a
  | .nonbasic op a => vmExecuteNonbasic host vm op a
  | .invalid => some (vmInvalid vm)

/-! ### The cycle -/

/-- The 60 Hz tick of `vm_cycle`. -/
def vmTick (host : Host) (vm : Vm) : Option Vm :=
  if host.due60Hz then vmHookFire host 0 .on60Hz vm else some vm

/-- The part of `vm_cycle` that delivers a waiting interrupt. -/
def vmDrain (host : Host) (vm : Vm) : Option Vm :=
  if !vm.queueInterrupts ∧ vm.irqCount > 0 then
    vmInterrupt host vm.dequeueIrq (vm.irq 0)
  else some vm

/-- What `vm_cycle` does up to and including the pre-cycle hooks. -/
def vmBegin (host : Host) (vm : Vm) : Option Vm := do
  let vm ← vmTick host vm
  let vm ← vmDrain host vm
  vmHookFire host 0 .onPreCycle vm

/-- The radiation of a cycle. -/
def vmRadiate (host : Host) (vm : Vm) : Option Vm :=
  if vm.radiation then vmOpRadiation host vm else some vm

/-- The instruction of a cycle, with the radiation that may come before it. -/
def vmFetchExecute (host : Host) (vm : Vm) : Option Vm := do
  let vm ← vmRadiate host vm
  let (instruction, vm) := vmConsumeWord vm
  vmExecute host vm instruction

/-- `vm_cycle`. -/
def vmCycle (host : Host) (vm : Vm) : Option Vm :=
  if vm.sleepCycles > 0 then some (vm.setSleepCycles (vm.sleepCycles - 1))
  else do
    let vm ← vmBegin host vm
    if vm.halted then some vm
    else if vm.onFire then vmOpFire host vm
    else do
      let vm ← vmFetchExecute host vm
      vmHookFire host 0 .onPostCycle vm

/-- A run: one cycle after the other, each with what then surrounds the machine. -/
def vmRun (hosts : List Host) (vm : Vm) : Option Vm :=
  hosts.foldlM (fun vm host => vmCycle host vm) vm

@[simp] theorem vmRun_nil (vm : Vm) : vmRun [] vm = some vm := rfl

theorem vmRun_cons (host : Host) (hosts : List Host) (vm : Vm) :
    vmRun (host :: hosts) vm = (vmCycle host vm).bind (vmRun hosts) := rfl

theorem vmRun_append (hosts hosts' : List Host) (vm : Vm) :
    vmRun (hosts ++ hosts') vm = (vmRun hosts vm).bind (vmRun hosts') :=
  List.foldlM_append

/-! ### A machine with nothing to do before its instruction -/

/-- With no hooks, and no message waiting or the queue shut, nothing happens before the
instruction. -/
theorem vmBegin_idle {host : Host} {vm : Vm} (hh : host.hooks = [])
    (hq : vm.queueInterrupts = true ∨ vm.irqCount = 0) : vmBegin host vm = some vm := by
  have ht : vmTick host vm = some vm := by
    unfold vmTick
    split
    · exact vmHookFire_nil hh _ _ _
    · rfl
  have hd : vmDrain host vm = some vm := by
    unfold vmDrain
    rcases hq with hq | hq <;> simp [hq]
  simp [vmBegin, ht, hd, vmHookFire_nil hh]

/-- A cycle of an awake machine with no hooks and no message to deliver: fire, or the
instruction. -/
theorem vmCycle_awake {host : Host} {vm : Vm} (hh : host.hooks = [])
    (hq : vm.queueInterrupts = true ∨ vm.irqCount = 0) (hs : vm.sleepCycles = 0)
    (hl : vm.halted = false) :
    vmCycle host vm = if vm.onFire then vmOpFire host vm else vmFetchExecute host vm := by
  rw [vmCycle, if_neg (by rw [hs]; decide), vmBegin_idle hh hq]
  simp only [Option.bind_eq_bind, Option.bind_some, hl, Bool.false_eq_true, if_false]
  split
  · rfl
  · cases vmFetchExecute host vm with
    | none => rfl
    | some vm' => exact vmHookFire_nil hh _ _ _

/-- A cycle of a sleeping machine. -/
theorem vmCycle_asleep (host : Host) {vm : Vm} (hs : vm.sleepCycles ≠ 0) :
    vmCycle host vm = some (vm.setSleepCycles (vm.sleepCycles - 1)) :=
  if_pos (by bv_omega)

/-- **A sleeping machine sleeps it off.** -/
theorem vmRun_asleep (host : Host) (vm : Vm) :
    vmRun (List.replicate vm.sleepCycles.toNat host) vm = some (vm.setSleepCycles 0) := by
  obtain ⟨n, hn⟩ : ∃ n, vm.sleepCycles.toNat = n := ⟨_, rfl⟩
  rw [hn]
  induction n generalizing vm with
  | zero =>
    have h0 : vm.sleepCycles = 0 := BitVec.eq_of_toNat_eq hn
    rw [← h0]
    rfl
  | succ n ih =>
    have h0 : vm.sleepCycles ≠ 0 := fun h => by rw [h] at hn; cases hn
    rw [List.replicate_succ, vmRun_cons, vmCycle_asleep host h0, Option.bind_some, ih]
    · rfl
    · rw [Vm.setSleepCycles_sleepCycles]
      bv_omega

/-! ### What an interrupt can do -/

/-- **The four outcomes of `vm_interrupt`**: the queue is full, the message is queued,
there is no handler, or the handler is entered. -/
theorem vmInterrupt_cases {host : Host} {vm r : Vm} {msg : Word}
    (h : vmInterrupt host vm msg = some r) :
    (vm.queueInterrupts = true ∧ interruptMax ≤ vm.irqCount ∧
      r = vmHalt (vm.log (.refused msg))) ∨
    (vm.queueInterrupts = true ∧ vm.irqCount < interruptMax ∧
      r = vm.enqueueIrq msg) ∨
    (vm.queueInterrupts = false ∧ vm.ia = 0 ∧ r = vm.log (.ignored msg)) ∨
    (vm.queueInterrupts = false ∧ vm.ia ≠ 0 ∧ ∃ w, vmSkipPending vm = some w ∧
      vmHookFire host vm.pc .onInterrupt
        ((enterHandler w vm.pc msg).log (.delivered msg)) = some r) := by
  unfold vmInterrupt at h
  split at h
  · rename_i hq
    split at h
    · exact Or.inl ⟨hq, ‹_›, (Option.some.inj h).symm⟩
    · exact Or.inr (Or.inl ⟨hq, by omega, (Option.some.inj h).symm⟩)
  · rename_i hq
    split at h
    · exact Or.inr (Or.inr (Or.inl ⟨by simpa using hq, ‹_›, (Option.some.inj h).symm⟩))
    · refine Or.inr (Or.inr (Or.inr ⟨by simpa using hq, ‹_›, ?_⟩))
      exact Option.bind_eq_some_iff.mp h

end DcpuToolchain
