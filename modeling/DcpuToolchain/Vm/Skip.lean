import DcpuToolchain.Vm.Cycle

/-!
# Skipping an instruction

There is no central skip in the virtual machine: a conditional that fails sets
`skip`, and every opcode and every operand has to honour the flag by itself. This
file says what they do when it is set.

Reading an operand only moves `pc` (`DcpuToolchain.vmResolveValue_skip`), and so does
fetching the place an operand is stored in (`DcpuToolchain.vmInternalGetStore_skip`),
except that a literal is then *not* walked over. An opcode therefore leaves the
machine where it was, but for `pc`, the cycle count and the flag
(`DcpuToolchain.vmExecuteBasic_skip`, `DcpuToolchain.vmExecuteNonbasic_skip`) – all but
`INT`, which raises its interrupt.
-/

namespace DcpuToolchain

/-! ### Moving on -/

/-- The machine after `n` more words have been consumed and `s` more cycles
billed. -/
@[simps -fullyApplied] def Vm.advance (vm : Vm) (n : ℕ) (s : Word) : Vm :=
  { vm with
    pc := vm.pc + BitVec.ofNat 16 n
    consumed := vm.consumed + n
    sleepCycles := vm.sleepCycles + s }

theorem Vm.advance_advance (vm : Vm) (n n' : ℕ) (s s' : Word) :
    (vm.advance n s).advance n' s' = vm.advance (n + n') (s + s') := by
  simp [Vm.advance, BitVec.ofNat_add, BitVec.add_assoc, Nat.add_assoc]

theorem Vm.advance_zero (vm : Vm) : vm.advance 0 0#16 = vm := by
  simp [Vm.advance]

theorem vmConsumeWord_eq (vm : Vm) : vmConsumeWord vm = (vm.ram vm.pc, vm.advance 1 0) := by
  simp [vmConsumeWord, Vm.advance]

theorem Vm.sleep_eq (vm : Vm) (s : Word) : vm.sleep s = vm.advance 0 s := by
  simp [Vm.sleep, Vm.advance]

/-- Setting a flag that is set does nothing. -/
theorem Vm.set_skip {vm : Vm} {n : ℕ} {s : Word} (h : vm.skip = true) :
    (vm.advance n s).setSkip true = vm.advance n s := by
  simp [Vm.advance, Vm.setSkip, h]

/-! ### Operands under the skip flag -/

/-- The cycle an operand's next word costs. -/
def Operand.nextCycle (o : Operand) : Word := if o.hasNext then 1 else 0

/-- **A skipped operand is only walked over.** -/
theorem vmResolveValue_skip {vm : Vm} (h : vm.skip = true) (val : Operand) (pos : Pos) :
    ∃ w, vmResolveValue vm val pos = (w, vm.advance val.hasNext.toNat val.nextCycle) := by
  refine ⟨(vmResolveValue vm val pos).1, Prod.ext rfl ?_⟩
  cases val <;>
    simp [vmResolveValue, h, vmConsumeWord_eq, Vm.sleep_eq, Vm.advance_advance,
      Operand.hasNext, Operand.nextCycle, Vm.advance_zero]

/-- **A skipped store goes nowhere**, and a literal is not even walked over. -/
theorem vmInternalGetStore_skip {vm : Vm} (h : vm.skip = true) (loc : Operand) (pos : Pos) :
    vmInternalGetStore vm loc pos = (.dummy, vm.advance loc.storeHasNext.toNat 0) := by
  cases loc <;>
    simp [vmInternalGetStore, h, vmConsumeWord_eq, Operand.storeHasNext, Vm.advance_zero]

/-! ### Opcodes under the skip flag -/

/-- The outcome of a skipped instruction: `n` more words consumed, some cycles
billed, and the flag at the given value. -/
def SkippedTo (vm : Vm) (n : ℕ) (skip : Bool) (r : Option Vm) : Prop :=
  ∃ s, r = some ((vm.advance n s).setSkip skip)

theorem SkippedTo.ram {vm vm' : Vm} {n : ℕ} {b : Bool} {r : Option Vm} (hr : SkippedTo vm n b r)
    (h : r = some vm') : vm'.ram = vm.ram := by
  obtain ⟨s, rfl⟩ := hr
  rw [← Option.some.inj h]
  rfl

theorem storeOp_skip {vm : Vm} (h : vm.skip = true) (cycles : Word) (alu : Alu) (host : Host)
    (b a : Operand) :
    SkippedTo vm (a.hasNext.toNat + b.storeHasNext.toNat) false
      (storeOp cycles alu host vm b a) := by
  obtain ⟨w, hw⟩ := vmResolveValue_skip h a .a
  refine ⟨a.nextCycle + (cycles - 1), ?_⟩
  simp [storeOp, hw, vmInternalGetStore_skip, h, opNumCycles, Vm.sleep_eq, Vm.advance_advance]

theorem ifOp_skip {vm : Vm} (h : vm.skip = true) (test : Word → Word → Bool) (b a : Operand) :
    SkippedTo vm (a.hasNext.toNat + b.hasNext.toNat) true (ifOp test vm b a) := by
  obtain ⟨w, hw⟩ := vmResolveValue_skip h a .a
  obtain ⟨w', hw'⟩ := vmResolveValue_skip
    ((vm.advance_skip a.hasNext.toNat a.nextCycle).trans h) b .b
  refine ⟨a.nextCycle + b.nextCycle, ?_⟩
  simp only [ifOp, hw, hw', Vm.advance_advance, Vm.set_skip h]
  exact if_pos h

theorem stepOp_skip {vm : Vm} (h : vm.skip = true) (delta : Word) (host : Host)
    (b a : Operand) :
    SkippedTo vm (a.hasNext.toNat + b.storeHasNext.toNat) false (stepOp delta host vm b a) := by
  obtain ⟨w, hw⟩ := vmResolveValue_skip h a .a
  refine ⟨a.nextCycle, ?_⟩
  simp [stepOp, hw, vmInternalGetStore_skip, h, Vm.advance_advance]

/-- How many words after the instruction word a skipped basic instruction walks
over. -/
def basicWalk (op : BasicOp) (b a : Operand) : ℕ :=
  a.hasNext.toNat + (if op.isIf then b.hasNext else b.storeHasNext).toNat

/-- **A skipped basic instruction** leaves everything but `pc`, the cycle count and
the flag, and keeps the flag exactly when it is a conditional. -/
theorem vmExecuteBasic_skip {vm : Vm} (h : vm.skip = true) (host : Host) (op : BasicOp)
    (b a : Operand) :
    SkippedTo vm (basicWalk op b a) op.isIf (vmExecuteBasic host vm op b a) := by
  rcases vmExecuteBasic_cases op with ⟨hop, test, he⟩ | ⟨hop, cycles, alu, he⟩ | ⟨hop, delta, he⟩
  · simpa only [he, basicWalk, hop, if_true] using ifOp_skip h test b a
  · simpa [he, basicWalk, hop] using storeOp_skip h cycles alu host b a
  · simpa [he, basicWalk, hop] using stepOp_skip h delta host b a

/-- How many words after the instruction word a skipped non-basic instruction
other than `INT` walks over. -/
def nonbasicWalk (op : NonbasicOp) (a : Operand) : ℕ :=
  match op with
  | .iag | .hwn => a.storeHasNext.toNat
  | _ => a.hasNext.toNat

/-- **A skipped non-basic instruction** other than `INT` leaves everything but `pc`,
the cycle count and the flag. -/
theorem vmExecuteNonbasic_skip {vm : Vm} (h : vm.skip = true) (host : Host) {op : NonbasicOp}
    (hop : op ≠ .int) (a : Operand) :
    SkippedTo vm (nonbasicWalk op a) false (vmExecuteNonbasic host vm op a) := by
  obtain ⟨w, hw⟩ := vmResolveValue_skip h a .a
  cases op with
  | int => exact absurd rfl hop
  | iag =>
    refine ⟨0, ?_⟩
    simp [vmExecuteNonbasic, vmOpIag, vmInternalGetStore_skip h, h, nonbasicWalk]
  | hwn =>
    refine ⟨2 - 1, ?_⟩
    simp [vmExecuteNonbasic, vmOpHwn, vmInternalGetStore_skip h, h, nonbasicWalk, opNumCycles,
      Vm.sleep_eq, Vm.advance_advance]
  | ias =>
    refine ⟨a.nextCycle, ?_⟩
    simp [vmExecuteNonbasic, vmOpIas, hw, h, nonbasicWalk]
  | jsr =>
    refine ⟨a.nextCycle + (3 - 1), ?_⟩
    simp [vmExecuteNonbasic, vmOpJsr, hw, h, nonbasicWalk, opNumCycles, Vm.sleep_eq,
      Vm.advance_advance]
  | rfi =>
    refine ⟨a.nextCycle + (3 - 1), ?_⟩
    simp [vmExecuteNonbasic, vmOpRfi, hw, h, nonbasicWalk, opNumCycles, Vm.sleep_eq,
      Vm.advance_advance]
  | iaq =>
    refine ⟨a.nextCycle + (2 - 1), ?_⟩
    simp [vmExecuteNonbasic, vmOpIaq, hw, h, nonbasicWalk, opNumCycles, Vm.sleep_eq,
      Vm.advance_advance]
  | hwq =>
    refine ⟨a.nextCycle + (4 - 1), ?_⟩
    simp [vmExecuteNonbasic, vmOpHwq, hw, h, nonbasicWalk, opNumCycles, Vm.sleep_eq,
      Vm.advance_advance]
  | hwi =>
    refine ⟨a.nextCycle + (4 - 1), ?_⟩
    simp [vmExecuteNonbasic, vmOpHwi, hw, h, nonbasicWalk, opNumCycles, Vm.sleep_eq,
      Vm.advance_advance]

/-- **A skipped `INT` is not skipped**: it raises its interrupt, from a machine that
has only moved on. -/
theorem vmExecuteNonbasic_int {vm : Vm} (h : vm.skip = true) (host : Host) (a : Operand) :
    ∃ s msg, vmExecuteNonbasic host vm .int a =
      vmRaise host (vm.advance a.hasNext.toNat s) msg := by
  obtain ⟨w, hw⟩ := vmResolveValue_skip h a .a
  refine ⟨a.nextCycle + (4 - 1), w, ?_⟩
  simp [vmExecuteNonbasic, vmOpInt, hw, opNumCycles, Vm.sleep_eq, Vm.advance_advance]

/-- What skipping an instruction must not touch. -/
structure SameBut (vm vm' : Vm) : Prop where
  registers : vm'.registers = vm.registers
  sp : vm'.sp = vm.sp
  ex : vm'.ex = vm.ex
  ia : vm'.ia = vm.ia
  ram : vm'.ram = vm.ram
  irq : vm'.irq = vm.irq
  irqCount : vm'.irqCount = vm.irqCount
  queueInterrupts : vm'.queueInterrupts = vm.queueInterrupts
  halted : vm'.halted = vm.halted

/-- **The instruction has been skipped**: nothing was executed, `pc` is past the whole
instruction, and the flag is still set exactly after a conditional. -/
structure SkipsOver (i : Inst) (vm vm' : Vm) : Prop extends SameBut vm vm' where
  pc : vm'.pc = vm.pc + BitVec.ofNat 16 (instSize i)
  skip : vm'.skip = i.isIf

/-- The instructions whose opcode and operands honour the skip flag: not `INT`, and
not one that stores into a literal, whose next word is not walked over. -/
def skipHonoured : Inst → Bool
  | .basic op b _ => op.isIf || b != .nxtLit
  | .nonbasic .int _ => false
  | .nonbasic .iag a | .nonbasic .hwn a => a != .nxtLit
  | .nonbasic _ _ => true
  | .invalid => false

theorem skipsOver_skippedTo_iff {vm v : Vm} {n : ℕ} {b : Bool} {r : Option Vm} {i : Inst}
    (hv : SameBut vm v) (hpc : v.pc = vm.pc + 1#16) (hn : n ≤ 2) (hb : b = i.isIf)
    (h : SkippedTo v n b r) :
    (∃ vm', r = some vm' ∧ SkipsOver i vm vm') ↔ 1 + n = instSize i := by
  obtain ⟨s, rfl⟩ := h
  have hsize := instSize_le i
  have hadd : vm.pc + 1#16 + BitVec.ofNat 16 n = vm.pc + BitVec.ofNat 16 (1 + n) := by
    rw [BitVec.ofNat_add, BitVec.add_assoc]
  constructor
  · rintro ⟨vm', hvm', hskip⟩
    obtain rfl := Option.some.inj hvm'
    have h := hskip.pc
    simp only [Vm.advance, hpc, hadd] at h
    have h' := congrArg BitVec.toNat ((BitVec.add_right_inj _).mp h)
    simp only [BitVec.toNat_ofNat] at h'
    omega
  · intro hsz
    exact ⟨_, rfl, { hv with pc := by simp [hpc, hadd, hsz], skip := hb }⟩

/-! ### A cycle under the skip flag -/

/-- The LEM1802 does nothing to the machine when it is asked to map its screen or its
font, the two requests `vm_op_fire` makes. -/
def ScreensOnlyMap (host : Host) : Prop :=
  ∀ device ∈ host.hwList, device.id = lem1802Id →
    ∀ vm, vm.registers 0 = 0 ∨ vm.registers 0 = 1 → device.handler vm = some vm

/-- What a burning machine keeps: where it is and what it is about to do. -/
structure SameControl (vm vm' : Vm) : Prop where
  pc : vm'.pc = vm.pc
  skip : vm'.skip = vm.skip
  onFire : vm'.onFire = vm.onFire
  irqCount : vm'.irqCount = vm.irqCount

theorem SameControl.refl (vm : Vm) : SameControl vm vm := ⟨rfl, rfl, rfl, rfl⟩

theorem SameControl.trans {u v w : Vm} (h : SameControl u v) (h' : SameControl v w) :
    SameControl u w :=
  ⟨h'.pc.trans h.pc, h'.skip.trans h.skip, h'.onFire.trans h.onFire,
    h'.irqCount.trans h.irqCount⟩

theorem vmFireFill_control {host : Host} (hh : host.hooks = []) (pos : ℕ) (fill : Word) (n : ℕ)
    {vm vm' : Vm} (h : vmFireFill host pos fill n vm = some vm') : SameControl vm vm' := by
  induction n generalizing vm' with
  | zero =>
    obtain rfl := Option.some.inj h
    exact SameControl.refl vm
  | succ n ih =>
    obtain ⟨w, hw, h⟩ := Option.bind_eq_some_iff.mp h
    rw [vmHookFire_nil hh] at h
    rw [← Option.some.inj h]
    exact (ih hw).trans ⟨rfl, rfl, rfl, rfl⟩

theorem vmFireBurn_control {host : Host} (hh : host.hooks = []) (pos : ℕ) (rands : List ℕ)
    {vm vm' : Vm} (h : vmFireBurn host pos rands vm = some vm') : SameControl vm vm' := by
  fun_induction vmFireBurn host pos rands vm with
  | case1 pos vm length fill rands hlt ih =>
    obtain ⟨w, hw, h⟩ := Option.bind_eq_some_iff.mp h
    exact (vmFireFill_control hh _ _ _ hw).trans (ih w h)
  | case2 =>
    rw [← Option.some.inj h]
    exact SameControl.refl _
  | case3 =>
    rw [← Option.some.inj h]
    exact SameControl.refl _

theorem vmFireScreen_control {host : Host} (hm : ScreensOnlyMap host) {vm vm' : Vm}
    (h : vmFireScreen host vm = some vm') : SameControl vm vm' := by
  unfold vmFireScreen at h
  split at h
  · rw [← Option.some.inj h]
    exact SameControl.refl vm
  · split at h
    · rw [← Option.some.inj h]
      exact SameControl.refl vm
    · rename_i i hi
      -- Both requests go to the screen that was found, which is there.
      obtain ⟨hlt, hid, -⟩ := List.findIdx?_eq_some_iff_getElem.mp hi
      have hi32 : (BitVec.ofNat 16 i).toNat = i := by
        have := host.hwFits
        simp only [vmHwMax] at this
        simp only [BitVec.toNat_ofNat]
        omega
      have hdev : ∀ v w : Vm, v.registers 0 = 0 ∨ v.registers 0 = 1 →
          vmHwInterrupt host v (BitVec.ofNat 16 i) = some w → w = v := by
        intro v w hv hw
        rw [vmHwInterrupt, hi32, List.getElem?_eq_getElem hlt] at hw
        have hd := hm _ (List.getElem_mem hlt) (by simpa using hid) v hv
        exact (Option.some.inj (hd.symm.trans hw)).symm
      obtain ⟨w, hw, h⟩ := Option.bind_eq_some_iff.mp h
      obtain ⟨w', hw', h⟩ := Option.bind_eq_some_iff.mp h
      have h₁ := hdev _ _ (Or.inl (by simp)) hw
      have h₂ := hdev _ _ (Or.inr (by simp)) hw'
      rw [← Option.some.inj h, h₂, h₁]
      exact ⟨rfl, rfl, rfl, rfl⟩

theorem vmOpFire_control {host : Host} (hh : host.hooks = []) (hm : ScreensOnlyMap host)
    {vm vm' : Vm} (h : vmOpFire host vm = some vm') : SameControl vm vm' := by
  obtain ⟨w, hw, h⟩ := Option.bind_eq_some_iff.mp h
  refine (vmFireScreen_control hm hw).trans ?_
  split at h
  · rw [← Option.some.inj h]
    exact ⟨rfl, rfl, rfl, rfl⟩
  · have hburn := vmFireBurn_control hh _ _ h
    exact ⟨hburn.pc, hburn.skip, hburn.onFire, hburn.irqCount⟩

/-- **Radiation that is due changes the memory**, and nothing else but its own
counters. -/
theorem vmRadiate_due {host : Host} (hh : host.hooks = []) {vm : Vm} (hd : radiationDue vm) :
    ∃ v, vmRadiate host vm = some v ∧ v.ram ≠ vm.ram ∧ v.skip = vm.skip ∧
      v.irqCount = vm.irqCount ∧ v.queueInterrupts = vm.queueInterrupts := by
  simp only [vmRadiate, if_pos hd.1, vmOpRadiation, if_neg (not_lt.mpr hd.2), vmHookFire_nil hh]
  refine ⟨_, rfl, fun h => ?_, rfl, rfl, rfl⟩
  have hbit := congrFun h (BitVec.ofNat 16 (host.rand 0))
  simp only [Vm.writeRam, Function.update_self] at hbit
  have hzero : 1#16 <<< (host.rand 1 % 15) = 0#16 := by
    simpa [← BitVec.xor_assoc] using
      congrArg (vm.ram (BitVec.ofNat 16 (host.rand 0)) ^^^ ·) hbit
  have hlt : host.rand 1 % 15 < 15 := Nat.mod_lt _ (by decide)
  interval_cases host.rand 1 % 15 <;> simp at hzero

/-- Radiation that is not due changes its counter only. -/
theorem vmRadiate_notDue (host : Host) {vm : Vm} (hd : ¬radiationDue vm) :
    ∃ c, vmRadiate host vm = some (vm.setRadiationCycles c) := by
  by_cases hr : vm.radiation = true
  · have hlt : vm.radiationCycles < vm.radiationCyclesTarget := not_le.mp fun h => hd ⟨hr, h⟩
    exact ⟨_, by rw [vmRadiate, if_pos hr, vmOpRadiation, if_pos hlt]⟩
  · exact ⟨vm.radiationCycles, by rw [vmRadiate, if_neg hr]; rfl⟩

/-- **An interrupt raised while skipping shows**: it halts the machine, fills or opens
the queue, or leaves the skip flag set. -/
theorem vmRaise_shows {host : Host} (hh : host.hooks = []) {vm vm' : Vm} {msg : Word}
    (hq : vm.irqCount = 0) (h : vmRaise host vm msg = some vm') :
    vm'.irqCount ≠ 0 ∨ vm'.queueInterrupts ≠ vm.queueInterrupts ∨
      (vm'.ram = vm.ram ∧ vm'.skip = vm.skip) := by
  rcases vmInterrupt_cases h with ⟨-, hmax, -⟩ | ⟨-, -, rfl⟩ | ⟨-, -, rfl⟩ | ⟨hqu, -, w, -, hw⟩
  · change interruptMax ≤ vm.irqCount at hmax
    rw [hq] at hmax
    exact absurd hmax (by decide)
  · exact Or.inl (Nat.succ_ne_zero _)
  · exact Or.inr (Or.inr ⟨rfl, rfl⟩)
  · rw [vmHookFire_nil hh] at hw
    refine Or.inr (Or.inl ?_)
    rw [← Option.some.inj hw, show vm.queueInterrupts = false from hqu]
    exact Bool.noConfusion

/-- **Nothing executed under the skip flag writes the memory**, unless it shows. -/
theorem vmExecute_skip_ram {host : Host} (hh : host.hooks = []) {vm vm' : Vm} {w : Word}
    (hs : vm.skip = true) (hq : vm.irqCount = 0) (h : vmExecute host vm w = some vm') :
    vm'.irqCount ≠ 0 ∨ vm'.queueInterrupts ≠ vm.queueInterrupts ∨ vm'.ram = vm.ram := by
  unfold vmExecute at h
  split at h
  · rename_i op b a _
    exact Or.inr (Or.inr ((vmExecuteBasic_skip hs host op b a).ram h))
  · rename_i op a _
    by_cases hop : op = .int
    · subst hop
      obtain ⟨s, msg, hr⟩ := vmExecuteNonbasic_int hs host a
      rw [hr] at h
      have hq' : (vm.advance a.hasNext.toNat s).irqCount = 0 := hq
      exact (vmRaise_shows hh hq' h).imp id (Or.imp id And.left)
    · exact Or.inr (Or.inr ((vmExecuteNonbasic_skip hs host hop a).ram h))
  · rw [← Option.some.inj h, vmInvalid]
    split <;> exact Or.inr (Or.inr rfl)

/-- The instruction of a cycle, once the radiation is over. -/
theorem vmFetchExecute_eq {host : Host} {vm v : Vm} (h : vmRadiate host vm = some v) :
    vmFetchExecute host vm = vmExecute host (v.advance 1 0) (v.ram v.pc) := by
  rw [vmFetchExecute, h, Option.bind_eq_bind, Option.bind_some, vmConsumeWord_eq]

/-- A machine whose next cycle is its next instruction. -/
structure Ready (vm : Vm) : Prop where
  halted : vm.halted = false
  awake : vm.sleepCycles = 0
  irqCount : vm.irqCount = 0
  onFire : vm.onFire = false
  radiation : ¬radiationDue vm

/-- The next cycle of a ready machine fetches and executes. -/
theorem vmCycle_ready {host : Host} (hh : host.hooks = []) {vm : Vm} (hr : Ready vm) :
    ∃ c, vmCycle host vm = vmExecute host
      ((vm.setRadiationCycles c).advance 1 0) (vm.ram vm.pc) := by
  obtain ⟨c, hc⟩ := vmRadiate_notDue host hr.radiation
  refine ⟨c, ?_⟩
  rw [vmCycle_awake hh (Or.inr hr.irqCount) hr.awake hr.halted, hr.onFire,
    if_neg Bool.false_ne_true, vmFetchExecute_eq hc]
  rfl

theorem basicWalk_le (op : BasicOp) (b a : Operand) : basicWalk op b a ≤ 2 := by
  have := Bool.toNat_le a.hasNext
  have := Bool.toNat_le (if op.isIf then b.hasNext else b.storeHasNext)
  unfold basicWalk
  omega

theorem basicWalk_eq_iff (op : BasicOp) (b a : Operand) :
    1 + basicWalk op b a = instSize (.basic op b a) ↔ (op.isIf || b != .nxtLit) = true := by
  cases hop : op.isIf <;> cases b <;>
    simp [basicWalk, instSize, hop, Operand.hasNext, Operand.storeHasNext] <;> omega

theorem nonbasicWalk_le (op : NonbasicOp) (a : Operand) : nonbasicWalk op a ≤ 2 := by
  have := Bool.toNat_le a.hasNext
  have := Bool.toNat_le a.storeHasNext
  cases op <;> simp only [nonbasicWalk] <;> omega

theorem nonbasicWalk_eq_iff {op : NonbasicOp} (hop : op ≠ .int) (a : Operand) :
    1 + nonbasicWalk op a = instSize (.nonbasic op a) ↔
      skipHonoured (.nonbasic op a) = true := by
  cases op <;> first | exact absurd rfl hop | skip
  all_goals
    cases a <;> simp [nonbasicWalk, instSize, skipHonoured, Operand.hasNext, Operand.storeHasNext]

/-- The instruction of a cycle under the skip flag is skipped exactly when it honours
the flag. -/
theorem vmExecute_skipsOver_iff {host : Host} (hh : host.hooks = []) {vm v : Vm} {w : Word}
    (hq : vm.irqCount = 0) (hv : SameBut vm v)
    (hvs : v.skip = true) (hpc : v.pc = vm.pc + 1#16) (hw : decode w ≠ .invalid) :
    (∃ vm', vmExecute host v w = some vm' ∧ SkipsOver (decode w) vm vm') ↔
      skipHonoured (decode w) = true := by
  unfold vmExecute
  rcases hd : decode w with ⟨op, b, a⟩ | ⟨op, a⟩ | _
  · have hskip := vmExecuteBasic_skip hvs host op b a
    have hif : op.isIf = (Inst.basic op b a).isIf := rfl
    exact (skipsOver_skippedTo_iff hv hpc (basicWalk_le op b a) hif hskip).trans
      (basicWalk_eq_iff op b a)
  · by_cases hop : op = .int
    · subst hop
      refine iff_of_false ?_ Bool.noConfusion
      rintro ⟨vm', h, hskip⟩
      obtain ⟨s, msg, hr⟩ := vmExecuteNonbasic_int hvs host a
      have hq' : (v.advance a.hasNext.toNat s).irqCount = 0 := hv.irqCount.trans hq
      -- `INT` queued, opened the queue, or did not clear the flag.
      rcases vmRaise_shows hh hq' (hr.symm.trans h) with hc | hc | ⟨-, hc⟩
      · exact hc (hskip.irqCount.trans hq)
      · exact hc (hskip.queueInterrupts.trans hv.queueInterrupts.symm)
      · exact absurd (hskip.skip.symm.trans (hc.trans hvs)) Bool.noConfusion
    · have hskip := vmExecuteNonbasic_skip hvs host hop a
      have hif : false = (Inst.nonbasic op a).isIf := rfl
      exact (skipsOver_skippedTo_iff hv hpc (nonbasicWalk_le op a) hif hskip).trans
        (nonbasicWalk_eq_iff hop a)
  · exact absurd hd hw

/-- **One cycle under the skip flag executes nothing** exactly when the machine is not
on fire, no radiation is due, and the instruction honours the flag. -/
theorem vmCycle_skipsOver_iff {host : Host} {vm : Vm} (hh : host.hooks = [])
    (hm : ScreensOnlyMap host) (hskip : vm.skip = true) (hl : vm.halted = false)
    (hs : vm.sleepCycles = 0) (hq : vm.irqCount = 0)
    (hv : decode (vm.ram vm.pc) ≠ .invalid) :
    (∃ vm', vmCycle host vm = some vm' ∧ SkipsOver (decode (vm.ram vm.pc)) vm vm') ↔
      vm.onFire = false ∧ ¬radiationDue vm ∧ skipHonoured (decode (vm.ram vm.pc)) = true := by
  rw [vmCycle_awake hh (Or.inr hq) hs hl]
  cases hf : vm.onFire with
  | true =>
    refine iff_of_false ?_ (fun h => Bool.noConfusion h.1)
    rintro ⟨vm', h, hskip'⟩
    rw [if_pos rfl] at h
    -- The burning machine stays where it is, the skipped instruction takes a word.
    have h₁ := hskip'.pc.symm.trans (vmOpFire_control hh hm h).pc
    have h₂ := congrArg BitVec.toNat (BitVec.self_eq_add_right.mp h₁.symm)
    have := instSize_pos (decode (vm.ram vm.pc))
    have := instSize_le (decode (vm.ram vm.pc))
    simp only [BitVec.toNat_ofNat] at h₂
    omega
  | false =>
    simp only [Bool.false_eq_true, if_false, true_and]
    by_cases hd : radiationDue vm
    · refine iff_of_false ?_ (fun h => h.1 hd)
      rintro ⟨vm', h, hskip'⟩
      obtain ⟨v, hv', hram, hvs, hvq, hvi⟩ := vmRadiate_due hh hd
      rw [vmFetchExecute_eq hv'] at h
      have hvs' : (v.advance 1 0).skip = true := hvs.trans hskip
      have hvq' : (v.advance 1 0).irqCount = 0 := hvq.trans hq
      rcases vmExecute_skip_ram hh hvs' hvq' h with hc | hc | hc
      · exact hc (hskip'.irqCount.trans hq)
      · exact hc (hskip'.queueInterrupts.trans hvi.symm)
      · exact hram (hc.symm.trans hskip'.ram)
    · obtain ⟨c, hc⟩ := vmRadiate_notDue host hd
      simp only [hd, not_false_iff, true_and]
      rw [vmFetchExecute_eq hc]
      exact vmExecute_skipsOver_iff hh hq ⟨rfl, rfl, rfl, rfl, rfl, rfl, rfl, rfl, rfl⟩
        hskip rfl hv

/-- A machine about to skip the instruction word `w` at address `0`. -/
def skippingMachine (w : Word) : Vm :=
  { ram := Function.update (fun _ => 0) 0 w, skip := true }

/-- `SET A, B` is skipped. -/
theorem vmCycle_skipsOver_set :
    ∃ vm', vmCycle {} (skippingMachine (instructionCreate 0x01 0x00 0x01)) = some vm' ∧
      SkipsOver (decode (instructionCreate 0x01 0x00 0x01))
        (skippingMachine (instructionCreate 0x01 0x00 0x01)) vm' :=
  (vmCycle_skipsOver_iff rfl (fun _ h => absurd h List.not_mem_nil) rfl rfl rfl rfl
    (by decide)).mpr ⟨rfl, by decide, by decide⟩

/-- **A skipped `INT 0` is not skipped**: even without a handler it leaves the flag set,
so that the instruction after it is skipped as well. -/
theorem not_forall_vmCycle_skipsOver :
    ¬∀ (host : Host) (vm : Vm), host.hooks = [] → vm.skip = true → vm.halted = false →
      vm.sleepCycles = 0 → vm.irqCount = 0 → decode (vm.ram vm.pc) ≠ .invalid →
        ∃ vm', vmCycle host vm = some vm' ∧ SkipsOver (decode (vm.ram vm.pc)) vm vm' := by
  intro h
  obtain ⟨vm', h₁, h₂⟩ := h {} (skippingMachine (instructionCreate 0x00 0x08 0x21)) rfl rfl rfl
    rfl rfl (by decide)
  obtain rfl :=
    Option.some.inj ((show vmCycle {} (skippingMachine _) = some _ from rfl).symm.trans h₁)
  exact absurd h₂.skip (by decide)

end DcpuToolchain
