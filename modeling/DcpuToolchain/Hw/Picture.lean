import DcpuToolchain.Hw.Screen

/-!
# Is the picture up to date?

What happens to the memory and the screen in a cycle of the machine. Opcodes store with the hook,
and so do the fire and the radiation; `JSR`, the delivery of an interrupt, the dumps of the
screen and what other devices write (a disk drive that reads a sector) go without.

`DcpuToolchain.picture_iff` says when the picture is up to date or flagged in all states of a
run.
-/

namespace DcpuToolchain

variable {w : Watch} {vm vm' : Vm}

/-! ### Operands -/

theorem vmResolveValue_same (vm : Vm) (val : Operand) (pos : Pos) :
    (vmResolveValue vm val pos).2.ram = vm.ram ∧ (vmResolveValue vm val pos).2.lem = vm.lem := by
  unfold vmResolveValue
  cases val with
  | pushPop =>
    dsimp only
    split
    · exact ⟨rfl, rfl⟩
    · cases pos <;> exact ⟨rfl, rfl⟩
  | _ => exact ⟨rfl, rfl⟩

theorem vmInternalGetStore_same (vm : Vm) (loc : Operand) (pos : Pos) :
    (vmInternalGetStore vm loc pos).2.ram = vm.ram ∧
      (vmInternalGetStore vm loc pos).2.lem = vm.lem := by
  unfold vmInternalGetStore
  split
  · split <;> exact ⟨rfl, rfl⟩
  · cases loc with
    | pushPop => cases pos <;> exact ⟨rfl, rfl⟩
    | _ => exact ⟨rfl, rfl⟩

/-- While skipping, nothing is stored to the memory. -/
theorem vmInternalGetStore_dummy (h : vm.skip = true) (loc : Operand) (pos : Pos) :
    (vmInternalGetStore vm loc pos).1 = .dummy := by
  unfold vmInternalGetStore
  rw [if_pos h]
  split <;> rfl

/-- Where the flag is clear, finding where to store leaves it clear. -/
theorem vmInternalGetStore_skip_eq (vm : Vm) (loc : Operand) (pos : Pos) :
    (vmInternalGetStore vm loc pos).2.skip = vm.skip := by
  unfold vmInternalGetStore
  split
  · split <;> rfl
  · cases loc with
    | pushPop => cases pos <;> rfl
    | _ => rfl

/-! ### Stores -/

/-- A store to the memory is with the hook, and leaves there the word that is there afterwards. -/
def Store.acts (store : Store) (vm' : Vm) : List MemAct :=
  match store with
  | .ram p => [.store p (vm'.ram p)]
  | _ => []

theorem Watches.hookFireStore {host : LemHost} {store : Store} {v : Word} {u : Vm}
    (hw : Watches w vm) (hram : u.ram = (vm.store store v).ram) (hlem : u.lem = vm.lem)
    (h : vmHookFireStore host.toHost store u = some vm') :
    Watches (w.run (store.acts vm')) vm' := by
  cases store with
  | ram p =>
    obtain ⟨hram', hlem'⟩ := host.fire_onWrite h
    have hv : vm'.ram p = v := by
      rw [hram', hram]
      exact Function.update_self p v vm.ram
    unfold Store.acts
    dsimp only
    rw [hv]
    refine (hw.store p v).congr (hram'.trans hram) ?_
    change vm'.lem = vm.lem.write p
    rw [hlem', hlem]
  | reg | ia | sp | pc | ex | dummy =>
    cases h
    exact hw.congr hram hlem

/-- What was stored is still there if the memory has not changed since. -/
theorem Watches.congr_acts {store : Store} {u : Vm} (hw : Watches (w.run (store.acts u)) u)
    (hram : vm'.ram = u.ram) (hlem : vm'.lem = u.lem) : Watches (w.run (store.acts vm')) vm' := by
  have hacts : store.acts vm' = store.acts u := by
    cases store <;> simp only [Store.acts, hram]
  rw [hacts]
  exact hw.congr hram hlem

theorem Watches.resolveValue (hw : Watches w vm) (val : Operand) (pos : Pos) :
    Watches w (vmResolveValue vm val pos).2 :=
  hw.congr (vmResolveValue_same vm val pos).1 (vmResolveValue_same vm val pos).2

theorem Watches.getStore (hw : Watches w vm) (loc : Operand) (pos : Pos) :
    Watches w (vmInternalGetStore vm loc pos).2 :=
  hw.congr (vmInternalGetStore_same vm loc pos).1 (vmInternalGetStore_same vm loc pos).2

/-- An opcode that is skipped does nothing with its operand. -/
theorem Watches.skipped {u : Vm} {loc : Operand} {pos : Pos}
    (hw : Watches w (vmInternalGetStore vm loc pos).2)
    (hskip : (vmInternalGetStore vm loc pos).2.skip = true)
    (hram : u.ram = (vmInternalGetStore vm loc pos).2.ram)
    (hlem : u.lem = (vmInternalGetStore vm loc pos).2.lem) :
    Watches (w.run ((vmInternalGetStore vm loc pos).1.acts u)) u := by
  rw [vmInternalGetStore_dummy ((vmInternalGetStore_skip_eq vm loc pos).symm.trans hskip) loc pos]
  exact hw.congr hram hlem

namespace LemHost

variable (host : LemHost)

/-- The acts of an opcode that stores into `b`. -/
def storeActs (op : Vm → Option Vm) (b a : Operand) (vm : Vm) : List MemAct :=
  (op vm).elim [] (vmInternalGetStore (vmResolveValue vm a .a).2 b .b).1.acts

/-- The acts of a basic opcode. -/
def basicActs (op : BasicOp) (b a : Operand) (vm : Vm) : List MemAct :=
  if op.isIf then [] else storeActs (fun vm => vmExecuteBasic host.toHost vm op b a) b a vm

theorem acts_storeOp (cycles : Word) (alu : Alu) (b a : Operand) :
    Acts (fun vm => storeOp cycles alu host.toHost vm b a)
      (storeActs (fun vm => storeOp cycles alu host.toHost vm b a) b a) := by
  intro vm vm' w hvm hw
  have hoperands := (hw.resolveValue a .a).getStore b .b
  unfold storeActs
  dsimp only at hvm ⊢
  rw [hvm, Option.elim_some]
  unfold storeOp at hvm
  dsimp only at hvm
  split at hvm
  · rename_i hskip
    cases hvm
    exact hoperands.skipped hskip rfl rfl
  · generalize vmInternalGetStore (vmResolveValue vm a .a).2 b .b = r at hoperands hvm ⊢
    generalize alu host.toHost (r.2.load r.1) (vmResolveValue vm a .a).1
      (opNumCycles cycles r.2).ex = x at hvm
    obtain ⟨store, u⟩ := r
    obtain ⟨result, ex⟩ := x
    refine hoperands.hookFireStore (v := result) ?_ ?_ hvm
    · cases ex <;> cases store <;> rfl
    · cases ex <;> cases store <;> rfl

theorem acts_stepOp (delta : Word) (b a : Operand) :
    Acts (fun vm => stepOp delta host.toHost vm b a)
      (storeActs (fun vm => stepOp delta host.toHost vm b a) b a) := by
  intro vm vm' w hvm hw
  have hoperands := (hw.resolveValue a .a).getStore b .b
  unfold storeActs
  dsimp only at hvm ⊢
  rw [hvm, Option.elim_some]
  unfold stepOp at hvm
  dsimp only at hvm
  split at hvm
  · rename_i hskip
    cases hvm
    exact hoperands.skipped hskip rfl rfl
  · obtain ⟨u, hu, hvm⟩ := Option.bind_eq_some_iff.mp hvm
    cases hvm
    have hstored := hoperands.hookFireStore (v := (vmResolveValue vm a .a).1) rfl
      (by cases (vmInternalGetStore (vmResolveValue vm a .a).2 b .b).1 <;> rfl) hu
    exact hstored.congr_acts rfl rfl

theorem acts_basic (op : BasicOp) (b a : Operand) :
    Acts (fun vm => vmExecuteBasic host.toHost vm op b a) (host.basicActs op b a) := by
  unfold basicActs
  rcases vmExecuteBasic_cases op with ⟨hif, test, hop⟩ | ⟨hif, cycles, alu, hop⟩ | ⟨hif, delta, hop⟩
  · rw [hif]
    refine Acts.silent fun {vm vm'} hvm => ?_
    rw [hop] at hvm
    obtain ⟨hram, hlem⟩ := vmResolveValue_same vm a .a
    obtain ⟨hram', hlem'⟩ := vmResolveValue_same (vmResolveValue vm a .a).2 b .b
    unfold ifOp at hvm
    dsimp only at hvm
    split at hvm
    · cases hvm
      exact ⟨hram'.trans hram, hlem'.trans hlem⟩
    · cases hvm
      exact ⟨hram'.trans hram, hlem'.trans hlem⟩
  · rw [hif]
    simp only [hop]
    exact host.acts_storeOp cycles alu b a
  · rw [hif]
    simp only [hop]
    exact host.acts_stepOp delta b a

/-! ### Interrupts -/

/-- The acts of `vm_interrupt`: if the handler is entered, two words are pushed. -/
def interruptActs (msg : Word) (vm : Vm) : List MemAct :=
  if vm.queueInterrupts = true ∨ vm.ia = 0 then []
  else
    [.write (vm.sp - 1) vm.pc, .write (vm.sp - 1 - 1) (vm.registers 0)] ++
    (vmSkipPending vm).elim [] fun u => host.fireActs vm.pc .onInterrupt host.hooks
      ((enterHandler u vm.pc msg).log (.delivered msg))

theorem acts_interrupt (msg : Word) :
    Acts (fun vm => vmInterrupt host.toHost vm msg) (host.interruptActs msg) := by
  intro vm vm' w hvm hw
  unfold interruptActs
  rcases vmInterrupt_cases hvm with ⟨hqueue, -, rfl⟩ | ⟨hqueue, -, rfl⟩ | ⟨-, hia, rfl⟩ |
    ⟨hopen, hia, u, hu, hfire⟩
  · rw [if_pos (.inl hqueue)]
    exact hw.congr rfl rfl
  · rw [if_pos (.inl hqueue)]
    exact hw.congr rfl rfl
  · rw [if_pos (.inr hia)]
    exact hw.congr rfl rfl
  · have hentered : ¬(vm.queueInterrupts = true ∨ vm.ia = 0) := by
      rw [not_or, hopen]
      exact ⟨nofun, hia⟩
    rw [if_neg hentered, hu, Option.elim_some, Watch.run_append]
    obtain ⟨k, s, rfl⟩ := vmSkipPending_advance hu
    have hmode : HookMode.onInterrupt ≠ .onWrite := nofun
    refine host.acts_fire vm.pc hmode hfire ?_
    exact ((hw.write (vm.sp - 1) vm.pc).write (vm.sp - 1 - 1) (vm.registers 0)).congr rfl rfl

/-! ### Non-basic opcodes -/

/-- The acts of a non-basic opcode. -/
def nonbasicActs (op : NonbasicOp) (a : Operand) (vm : Vm) : List MemAct :=
  let resolved := vmResolveValue vm a .a
  match op with
  | .jsr => if resolved.2.skip then [] else [.write (resolved.2.sp - 1) resolved.2.pc]
  | .int =>
    host.interruptActs resolved.1 ((opNumCycles 4 resolved.2).log (.raised resolved.1))
  | .iag => (vmOpIag host.toHost vm a).elim [] (vmInternalGetStore vm a .a).1.acts
  | .hwn => (vmOpHwn host.toHost vm a).elim [] (vmInternalGetStore vm a .a).1.acts
  | .hwi => if resolved.2.skip then [] else host.hwActs resolved.1 (opNumCycles 4 resolved.2)
  | .ias | .rfi | .iaq | .hwq => []

theorem acts_iag (a : Operand) : Acts (fun vm => vmOpIag host.toHost vm a)
    fun vm => (vmOpIag host.toHost vm a).elim [] (vmInternalGetStore vm a .a).1.acts := by
  intro vm vm' w hvm hw
  have hoperand := hw.getStore a .a
  dsimp only at hvm ⊢
  rw [hvm, Option.elim_some]
  unfold vmOpIag at hvm
  dsimp only at hvm
  split at hvm
  · rename_i hskip
    cases hvm
    exact hoperand.skipped hskip rfl rfl
  · refine hoperand.hookFireStore rfl ?_ hvm
    cases (vmInternalGetStore vm a .a).1 <;> rfl

theorem acts_hwn (a : Operand) : Acts (fun vm => vmOpHwn host.toHost vm a)
    fun vm => (vmOpHwn host.toHost vm a).elim [] (vmInternalGetStore vm a .a).1.acts := by
  intro vm vm' w hvm hw
  have hoperand := hw.getStore a .a
  dsimp only at hvm ⊢
  rw [hvm, Option.elim_some]
  unfold vmOpHwn at hvm
  dsimp only at hvm
  split at hvm
  · rename_i hskip
    cases hvm
    exact hoperand.skipped hskip rfl rfl
  · obtain ⟨u, hu, hvm⟩ := Option.bind_eq_some_iff.mp hvm
    cases hvm
    have hstored := hoperand.hookFireStore (v := vmHwCount host.toHost) ?_ ?_ hu
    · exact hstored.congr_acts rfl rfl
    · cases (vmInternalGetStore vm a .a).1 <;> rfl
    · cases (vmInternalGetStore vm a .a).1 <;> rfl

theorem acts_nonbasic (op : NonbasicOp) (a : Operand) :
    Acts (fun vm => vmExecuteNonbasic host.toHost vm op a) (host.nonbasicActs op a) := by
  intro vm vm' w hvm hw
  obtain ⟨hram, hlem⟩ := vmResolveValue_same vm a .a
  have hoperand := hw.congr hram hlem
  cases op with
  | jsr =>
    change vmOpJsr vm a = some vm' at hvm
    unfold vmOpJsr at hvm
    unfold nonbasicActs
    dsimp only at hvm ⊢
    split at hvm
    · rename_i hskip
      have hskipping : (vmResolveValue vm a .a).2.skip = true := hskip
      cases hvm
      rw [if_pos hskipping]
      exact hoperand.congr rfl rfl
    · rename_i hskip
      have hrunning : ¬(vmResolveValue vm a .a).2.skip = true := hskip
      cases hvm
      rw [if_neg hrunning]
      exact (hoperand.write _ _).congr rfl rfl
  | int => exact host.acts_interrupt _ hvm (hoperand.congr rfl rfl)
  | iag => exact host.acts_iag a hvm hw
  | hwn => exact host.acts_hwn a hvm hw
  | hwi =>
    change vmOpHwi host.toHost vm a = some vm' at hvm
    unfold vmOpHwi at hvm
    unfold nonbasicActs
    dsimp only at hvm ⊢
    split at hvm
    · rename_i hskip
      have hskipping : (vmResolveValue vm a .a).2.skip = true := hskip
      cases hvm
      rw [if_pos hskipping]
      exact hoperand.congr rfl rfl
    · rename_i hskip
      have hrunning : ¬(vmResolveValue vm a .a).2.skip = true := hskip
      rw [if_neg hrunning]
      exact host.acts_hw _ hvm (hoperand.congr rfl rfl)
  | ias =>
    change vmOpIas vm a = some vm' at hvm
    unfold vmOpIas at hvm
    dsimp only at hvm
    split at hvm <;> cases hvm <;> exact hoperand.congr rfl rfl
  | rfi =>
    change vmOpRfi vm a = some vm' at hvm
    unfold vmOpRfi at hvm
    dsimp only at hvm
    split at hvm <;> cases hvm <;> exact hoperand.congr rfl rfl
  | iaq =>
    change vmOpIaq vm a = some vm' at hvm
    unfold vmOpIaq at hvm
    dsimp only at hvm
    split at hvm <;> cases hvm <;> exact hoperand.congr rfl rfl
  | hwq =>
    change vmOpHwq host.toHost vm a = some vm' at hvm
    unfold vmOpHwq at hvm
    dsimp only at hvm
    split at hvm
    · cases hvm
      exact hoperand.congr rfl rfl
    · split at hvm
      · split at hvm <;> cases hvm <;> exact hoperand.congr rfl rfl
      · cases hvm
        exact hoperand.congr rfl rfl

/-- The acts of an instruction. -/
def executeActs (instruction : Word) (vm : Vm) : List MemAct :=
  match decode instruction with
  | .basic op b a => host.basicActs op b a vm
  | .nonbasic op a => host.nonbasicActs op a vm
  | .invalid => []

theorem acts_execute (instruction : Word) :
    Acts (fun vm => vmExecute host.toHost vm instruction) (host.executeActs instruction) := by
  intro vm vm' w hvm hw
  unfold vmExecute at hvm
  unfold executeActs
  cases hinst : decode instruction with
  | basic op b a =>
    rw [hinst] at hvm
    exact host.acts_basic op b a hvm hw
  | nonbasic op a =>
    rw [hinst] at hvm
    exact host.acts_nonbasic op a hvm hw
  | invalid =>
    rw [hinst] at hvm
    cases hvm
    have hinvalid : Watches w (vmInvalid vm) := by
      unfold vmInvalid
      split <;> exact hw.congr rfl rfl
    exact hinvalid

/-! ### Fire and radiation -/

/-- The acts of the first part of `vm_op_fire`. -/
def fireScreenActs (vm : Vm) : List MemAct :=
  match vm.screenId, host.toHost.hwList.findIdx? fun device => device.id = lem1802Id with
  | none, some i =>
    thenActs (fun vm => vmHwInterrupt host.toHost vm (BitVec.ofNat 16 i))
      (host.hwActs (BitVec.ofNat 16 i))
      (fun vm => host.hwActs (BitVec.ofNat 16 i) ((vm.writeReg 0 1).writeReg 1 (0x1000 + 0x17F)))
      ((vm.writeReg 0 0).writeReg 1 0x1000)
  | _, _ => []

/-- The acts of the inner loop of `vm_op_fire`. -/
def fillActs (pos : ℕ) (fill : Word) (length : ℕ) : List MemAct :=
  (List.range length).map fun idx => .store (BitVec.ofNat 16 (pos + idx)) fill

/-- The acts of the outer loop of `vm_op_fire`. -/
def burnActs : ℕ → List ℕ → List MemAct
  | pos, length :: fill :: rands =>
    if pos < 0x1000 + 0x300 then
      fillActs pos (BitVec.ofNat 16 fill) (length % 100) ++ burnActs (pos + length % 100) rands
    else []
  | _, _ => []

/-- The acts of `vm_op_fire`. -/
def opFireActs : Vm → List MemAct :=
  thenActs (vmFireScreen host.toHost) host.fireScreenActs fun vm =>
    if vm.fireCycles < vm.fireCyclesTarget then [] else burnActs 0x1000 host.rands

/-- The acts of the radiation of a cycle. -/
def radiateActs (vm : Vm) : List MemAct :=
  if vm.radiation = false ∨ vm.radiationCycles < vm.radiationCyclesTarget then []
  else
    let pos := BitVec.ofNat 16 (host.toHost.rand 0)
    [.store pos (vm.ram pos ^^^ (1#16 <<< (host.toHost.rand 1 % 15)))]

theorem acts_fireScreen : Acts (vmFireScreen host.toHost) host.fireScreenActs := by
  intro vm vm' w hvm hw
  unfold vmFireScreen at hvm
  unfold fireScreenActs
  cases hid : vm.screenId with
  | some _ =>
    rw [hid] at hvm
    cases hvm
    exact hw
  | none =>
    rw [hid] at hvm
    dsimp only at hvm
    cases hindex : host.toHost.hwList.findIdx? fun device => device.id = lem1802Id with
    | none =>
      rw [hindex] at hvm
      cases hvm
      exact hw
    | some i =>
      rw [hindex] at hvm
      obtain ⟨u, hu, hvm⟩ := Option.bind_eq_some_iff.mp hvm
      obtain ⟨v, hv, hvm⟩ := Option.bind_eq_some_iff.mp hvm
      cases hvm
      unfold thenActs
      dsimp only
      rw [hu, Option.elim_some, Watch.run_append]
      have hfirst := host.acts_hw (BitVec.ofNat 16 i) hu (hw.congr rfl rfl)
      have hsecond := host.acts_hw (BitVec.ofNat 16 i) hv (hfirst.congr rfl rfl)
      exact hsecond.congr rfl rfl

theorem acts_fireFill (pos : ℕ) (fill : Word) (length : ℕ) :
    Acts (vmFireFill host.toHost pos fill length) fun _ => fillActs pos fill length := by
  induction length with
  | zero => exact Acts.silent fun h => by cases h; exact ⟨rfl, rfl⟩
  | succ length ih =>
    intro vm vm' w hvm hw
    obtain ⟨u, hu, hvm⟩ := Option.bind_eq_some_iff.mp hvm
    obtain ⟨hram, hlem⟩ := host.fire_onWrite hvm
    unfold fillActs at ih ⊢
    rw [List.range_succ, List.map_append, Watch.run_append]
    exact ((ih hu hw).store _ _).congr hram hlem

theorem acts_fireBurn (pos : ℕ) (rands : List ℕ) :
    Acts (vmFireBurn host.toHost pos rands) fun _ => burnActs pos rands := by
  fun_induction burnActs pos rands with
  | case1 pos length fill rands hpos ih =>
    intro vm vm' w hvm hw
    rw [vmFireBurn, if_pos hpos] at hvm
    obtain ⟨u, hu, hvm⟩ := Option.bind_eq_some_iff.mp hvm
    dsimp only
    rw [Watch.run_append]
    exact ih hvm (host.acts_fireFill pos _ _ hu hw)
  | case2 pos length fill rands hpos =>
    intro vm vm' w hvm hw
    rw [vmFireBurn, if_neg hpos] at hvm
    cases hvm
    exact hw
  | case3 pos rands hother =>
    intro vm vm' w hvm hw
    rw [vmFireBurn] at hvm
    · cases hvm
      exact hw
    · exact hother

theorem acts_opFire : Acts (vmOpFire host.toHost) host.opFireActs := by
  refine Acts.bind host.acts_fireScreen ?_
  intro vm vm' w hvm hw
  dsimp only at hvm ⊢
  split at hvm
  · rename_i hwaits
    cases hvm
    rw [if_pos hwaits]
    exact hw.congr rfl rfl
  · rename_i hburns
    rw [if_neg hburns]
    exact host.acts_fireBurn _ _ hvm (hw.congr rfl rfl)

theorem acts_radiate : Acts (vmRadiate host.toHost) host.radiateActs := by
  intro vm vm' w hvm hw
  unfold vmRadiate at hvm
  unfold radiateActs
  split at hvm
  · rename_i hradiates
    unfold vmOpRadiation at hvm
    split at hvm
    · rename_i hwaits
      cases hvm
      rw [if_pos (.inr hwaits)]
      exact hw.congr rfl rfl
    · rename_i hflips
      have hdue : ¬(vm.radiation = false ∨ vm.radiationCycles < vm.radiationCyclesTarget) := by
        rintro (h | h)
        · rw [hradiates] at h
          cases h
        · exact hflips h
      rw [if_neg hdue]
      obtain ⟨hram, hlem⟩ := host.fire_onWrite hvm
      exact (hw.store _ _).congr hram hlem
  · rename_i hcalm
    cases hvm
    rw [if_pos (.inl (Bool.not_eq_true _ ▸ hcalm))]
    exact hw

/-! ### Cycles -/

/-- The acts of the 60 Hz tick. -/
def tickActs (vm : Vm) : List MemAct :=
  if host.due60Hz then host.fireActs 0 .on60Hz host.hooks vm else []

/-- The acts of the delivery of a waiting interrupt. -/
def drainActs (vm : Vm) : List MemAct :=
  if !vm.queueInterrupts ∧ vm.irqCount > 0 then host.interruptActs (vm.irq 0) vm.dequeueIrq else []

/-- The acts of the instruction, with the radiation. -/
def fetchActs : Vm → List MemAct :=
  thenActs (vmRadiate host.toHost) host.radiateActs fun vm =>
    host.executeActs (vmConsumeWord vm).1 (vmConsumeWord vm).2

/-- The acts of what a cycle does after the pre-cycle hooks. -/
def endActs (vm : Vm) : List MemAct :=
  if vm.halted then []
  else if vm.onFire then host.opFireActs vm
  else
    thenActs (vmFetchExecute host.toHost) host.fetchActs
      (host.fireActs 0 .onPostCycle host.hooks) vm

/-- **What happens to the memory and the screen in a cycle**. -/
def cycleActs (vm : Vm) : List MemAct :=
  if vm.sleepCycles > 0 then []
  else
    thenActs (vmBegin host.toHost)
      (thenActs (vmTick host.toHost) host.tickActs
        (thenActs (vmDrain host.toHost) host.drainActs
          (host.fireActs 0 .onPreCycle host.hooks)))
      host.endActs vm

theorem acts_begin : Acts (vmBegin host.toHost)
    (thenActs (vmTick host.toHost) host.tickActs
      (thenActs (vmDrain host.toHost) host.drainActs
        (host.fireActs 0 .onPreCycle host.hooks))) := by
  have htick : Acts (vmTick host.toHost) host.tickActs := by
    intro vm vm' w hvm hw
    unfold vmTick at hvm
    unfold tickActs
    split at hvm
    · rename_i hdue
      have hdue : host.due60Hz = true := hdue
      rw [if_pos hdue]
      have hmode : HookMode.on60Hz ≠ .onWrite := nofun
      exact host.acts_fire 0 hmode hvm hw
    · rename_i hdue
      have hdue : ¬host.due60Hz = true := hdue
      cases hvm
      rw [if_neg hdue]
      exact hw
  have hdrain : Acts (vmDrain host.toHost) host.drainActs := by
    intro vm vm' w hvm hw
    unfold vmDrain at hvm
    unfold drainActs
    split at hvm
    · rename_i hwaiting
      rw [if_pos hwaiting]
      exact host.acts_interrupt _ hvm (hw.congr rfl rfl)
    · rename_i hnone
      cases hvm
      rw [if_neg hnone]
      exact hw
  have hmode : HookMode.onPreCycle ≠ .onWrite := nofun
  exact Acts.bind htick (Acts.bind hdrain (host.acts_fire 0 hmode))

/-- **One cycle**. -/
theorem acts_cycle : Acts (vmCycle host.toHost) host.cycleActs := by
  have hfetch : Acts (vmFetchExecute host.toHost) host.fetchActs := by
    refine Acts.bind host.acts_radiate ?_
    intro vm vm' w hvm hw
    exact host.acts_execute _ hvm (hw.congr rfl rfl)
  have hmode : HookMode.onPostCycle ≠ .onWrite := nofun
  have hend : Acts (fun vm => if vm.halted then some vm
      else if vm.onFire then vmOpFire host.toHost vm
      else (vmFetchExecute host.toHost vm).bind (vmHookFire host.toHost 0 .onPostCycle))
      host.endActs := by
    intro vm vm' w hvm hw
    unfold endActs
    dsimp only at hvm
    split_ifs at hvm ⊢ with hhalted hfire
    · cases hvm
      exact hw
    · exact host.acts_opFire hvm hw
    · exact Acts.bind hfetch (host.acts_fire 0 hmode) hvm hw
  intro vm vm' w hvm hw
  unfold vmCycle at hvm
  unfold cycleActs
  split at hvm
  · rename_i hasleep
    cases hvm
    rw [if_pos hasleep]
    exact hw.congr rfl rfl
  · rename_i hawake
    rw [if_neg hawake]
    exact Acts.bind host.acts_begin hend hvm hw

end LemHost

/-! ### Runs -/

/-- What happens to the memory and the screen in a run. -/
def runActs : List LemHost → Vm → List MemAct
  | [], _ => []
  | host :: hosts, vm => thenActs (vmCycle host.toHost) host.cycleActs (runActs hosts) vm

theorem acts_run (hosts : List LemHost) :
    Acts (vmRun (hosts.map LemHost.toHost)) (runActs hosts) := by
  induction hosts with
  | nil => exact Acts.silent fun h => by cases h; exact ⟨rfl, rfl⟩
  | cons host hosts ih => exact Acts.bind host.acts_cycle ih

/-- A machine before its picture is drawn for the first time. -/
def Vm.undrawn (vm : Vm) : Watch := ⟨vm.ram, vm.lem, vm.ram, vm.ram⟩

/-- **When the picture is up to date or flagged**: in a run of a machine with a screen that has
yet to be drawn, whatever other devices there are, in every state that the memory and the screen
reach, if and only if the screen misses nothing that happens. -/
theorem picture_iff (hosts : List LemHost) {vm vm' : Vm}
    (hscreen : vm.lem.screenWasUpdated = true) (hborder : vm.lem.borderWasUpdated = true)
    (hrun : vmRun (hosts.map LemHost.toHost) vm = some vm') :
    Watches (vm.undrawn.run (runActs hosts vm)) vm' ∧
      ((∀ s ∈ vm.undrawn.reached (runActs hosts vm), s.Fresh) ↔
        vm.undrawn.KeepsAll (runActs hosts vm)) :=
  ⟨acts_run hosts hrun ⟨rfl, rfl⟩,
    Watch.forall_fresh_iff (Watch.fresh_of_flags hscreen hborder) _⟩

/-- A machine with its stack in the screen, which maps the screen and calls a routine. -/
def jsrMachine : Vm where
  registers := Function.update (fun _ => 0) 1 0x8000
  sp := 0x8001
  ram := Function.update (Function.update (fun _ => 0) 0 0x8640) 1 0x8420

/-- The screen is drawn before the call. -/
def jsrHosts : List LemHost := [{}, {}, {}, {}, { due60Hz := true }]

theorem picture_iff_jsrMachine :
    ∃ vm', Watches (jsrMachine.undrawn.run (runActs jsrHosts jsrMachine)) vm' ∧
      ((∀ s ∈ jsrMachine.undrawn.reached (runActs jsrHosts jsrMachine), s.Fresh) ↔
        jsrMachine.undrawn.KeepsAll (runActs jsrHosts jsrMachine)) := by
  have hruns : (vmRun (jsrHosts.map LemHost.toHost) jsrMachine).isSome = true := by decide +kernel
  obtain ⟨vm', hrun⟩ := Option.isSome_iff_exists.mp hruns
  exact ⟨vm', picture_iff jsrHosts rfl rfl hrun⟩

/-- The return address is on the screen, and the picture does not show it. -/
theorem not_forall_picture :
    ¬ ∀ (hosts : List LemHost) (vm vm' : Vm), vm.lem.screenWasUpdated = true →
      vm.lem.borderWasUpdated = true → vmRun (hosts.map LemHost.toHost) vm = some vm' →
      ∀ s ∈ vm.undrawn.reached (runActs hosts vm), s.Fresh := by
  intro h
  have hruns : (vmRun (jsrHosts.map LemHost.toHost) jsrMachine).isSome = true := by decide +kernel
  obtain ⟨vm', hrun⟩ := Option.isSome_iff_exists.mp hruns
  have hfresh := h jsrHosts jsrMachine vm' rfl rfl hrun _ (Watch.run_mem_reached _)
  have hmaps : Lem1802.InArea
      (jsrMachine.undrawn.run (runActs jsrHosts jsrMachine)).lem.screenLocation 0x180 0x8000 := by
    decide +kernel
  have hflag := hfresh.screen 0x8000 (.inl hmaps) (by decide +kernel)
  revert hflag
  decide +kernel

end DcpuToolchain
