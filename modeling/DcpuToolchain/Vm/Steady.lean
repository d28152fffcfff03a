import DcpuToolchain.Vm.Size

/-!
# Sleeping makes no difference

A machine on its own – no hooks, no devices – that is neither on fire nor under radiation
does the same whatever number of cycles it has still to sleep for. The number goes along:
every function an instruction is executed with commutes with
`DcpuToolchain.Vm.steadied`, which adds to it and puts fire and radiation out
(`DcpuToolchain.vmExecute_steadied`).
-/

namespace DcpuToolchain

/-- There are no hooks and no devices. -/
structure Alone (host : Host) : Prop where
  hooks : host.hooks = []
  hwList : host.hwList = []

/-- The machine with some more cycles to sleep for, and no fire and no radiation. -/
@[simps -fullyApplied] def Vm.steadied (vm : Vm) (n : Word) : Vm :=
  { vm with
    sleepCycles := vm.sleepCycles + n
    canFire := false
    onFire := false
    radiation := false }

/-- The machine is neither on fire nor under radiation, and cannot catch fire. -/
structure Steady (vm : Vm) : Prop where
  canFire : vm.canFire = false
  onFire : vm.onFire = false
  radiation : vm.radiation = false

/-- The machine with no cycles more is itself exactly if nothing can disturb it. -/
theorem Vm.steadied_zero_iff (vm : Vm) : vm.steadied 0 = vm ↔ Steady vm := by
  constructor
  · intro h
    exact ⟨congrArg Vm.canFire h.symm, congrArg Vm.onFire h.symm, congrArg Vm.radiation h.symm⟩
  · rintro ⟨hcan, hon, hradiation⟩
    cases vm
    dsimp only at hcan hon hradiation
    subst hcan hon hradiation
    simp [steadied]

section Operands

variable (vm : Vm) (n : Word)

/-- Cycles that are added before or after some others are added all the same. -/
theorem Vm.steadied_sleep (m : Word) : (vm.steadied n).sleep m = (vm.sleep m).steadied n := by
  rw [steadied, steadied, sleep, sleep]
  simp only
  rw [BitVec.add_assoc, BitVec.add_comm n m, ← BitVec.add_assoc]

/-- The stack pointer can be set before or after the cycles are added. -/
theorem Vm.setSp_steadied (w : Word) : (vm.steadied n).setSp w = (vm.setSp w).steadied n := rfl

/-- The program counter can be set before or after the cycles are added. -/
theorem Vm.setPc_steadied (w : Word) : (vm.steadied n).setPc w = (vm.setPc w).steadied n := rfl

/-- A word can be written before or after the cycles are added. -/
theorem Vm.writeRam_steadied (addr w : Word) :
    (vm.steadied n).writeRam addr w = (vm.writeRam addr w).steadied n := rfl

/-- A register can be written before or after the cycles are added. -/
theorem Vm.writeReg_steadied (r : Fin 8) (w : Word) :
    (vm.steadied n).writeReg r w = (vm.writeReg r w).steadied n := rfl

/-- The cycles that an opcode takes go along with those that were added. -/
@[simp] theorem opNumCycles_steadied (count : Word) :
    opNumCycles count (vm.steadied n) = (opNumCycles count vm).steadied n :=
  vm.steadied_sleep n _

/-- The word that is consumed does not depend on the cycles to sleep for. -/
theorem vmConsumeWord_steadied :
    vmConsumeWord (vm.steadied n) = ((vmConsumeWord vm).1, (vmConsumeWord vm).2.steadied n) := rfl

/-- The value of an operand does not depend on the cycles to sleep for. -/
@[simp] theorem vmResolveValue_steadied (val : Operand) (pos : Pos) :
    vmResolveValue (vm.steadied n) val pos =
      ((vmResolveValue vm val pos).1, (vmResolveValue vm val pos).2.steadied n) := by
  cases val with
  | nxtVal | pick =>
    simp only [vmResolveValue, Vm.steadied_sleep, vmConsumeWord_steadied]
    rfl
  | nxt =>
    simp only [vmResolveValue, vmConsumeWord_steadied, Vm.steadied_sleep]
    rfl
  | nxtLit => simp only [vmResolveValue, vmConsumeWord_steadied, Vm.steadied_sleep]
  | pushPop =>
    have hskip : (vm.steadied n).skip = vm.skip := rfl
    simp only [vmResolveValue, hskip]
    split
    · rfl
    · cases pos <;> rfl
  | _ => rfl

/-- The place of an operand does not depend on the cycles to sleep for. -/
@[simp] theorem vmInternalGetStore_steadied (loc : Operand) (pos : Pos) :
    vmInternalGetStore (vm.steadied n) loc pos =
      ((vmInternalGetStore vm loc pos).1, (vmInternalGetStore vm loc pos).2.steadied n) := by
  have hskip : (vm.steadied n).skip = vm.skip := rfl
  simp only [vmInternalGetStore, hskip]
  split
  · split <;> rfl
  · cases loc with
    | nxtVal | pick =>
      simp only [Vm.steadied_sleep, vmConsumeWord_steadied]
      rfl
    | nxt => simp only [Vm.steadied_sleep, vmConsumeWord_steadied]
    | pushPop => cases pos <;> rfl
    | _ => rfl

/-- What is in a place does not depend on the cycles to sleep for. -/
@[simp] theorem Vm.load_steadied (s : Store) : (vm.steadied n).load s = vm.load s := by
  cases s <;> rfl

/-- A word can be put in a place before or after the cycles are added. -/
@[simp] theorem Vm.store_steadied (s : Store) (w : Word) :
    (vm.steadied n).store s w = (vm.store s w).steadied n := by
  cases s <;> rfl

end Operands

/-! ### The patterns -/

section Opcodes

variable {host : Host} (ha : Alone host) (vm : Vm) (n : Word) (b a : Operand)

include ha

/-- An opcode that stores does the same however long the machine has still to sleep. -/
theorem storeOp_steadied (cycles : Word) (alu : Alu) :
    storeOp cycles alu host (vm.steadied n) b a =
      (storeOp cycles alu host vm b a).map (·.steadied n) := by
  simp only [storeOp, vmResolveValue_steadied, vmInternalGetStore_steadied, Vm.load_steadied,
    opNumCycles_steadied, vmHookFireStore_nil ha.hooks, Vm.steadied_skip, Vm.steadied_ex,
    Vm.store_steadied]
  split
  · rfl
  · split <;> rfl

omit ha in
/-- A test comes out the same however long the machine has still to sleep. -/
theorem ifOp_steadied (test : Word → Word → Bool) :
    ifOp test (vm.steadied n) b a = (ifOp test vm b a).map (·.steadied n) := by
  simp only [ifOp, vmResolveValue_steadied, Vm.steadied_skip]
  split <;> rfl

/-- `STI` and `STD` do the same however long the machine has still to sleep. -/
theorem stepOp_steadied (delta : Word) :
    stepOp delta host (vm.steadied n) b a = (stepOp delta host vm b a).map (·.steadied n) := by
  simp only [stepOp, vmResolveValue_steadied, vmInternalGetStore_steadied,
    vmHookFireStore_nil ha.hooks, Vm.steadied_skip, Vm.store_steadied, Option.bind_eq_bind,
    Option.bind_some]
  split <;> rfl

/-- The basic opcodes do the same, by the three patterns that they follow. -/
theorem vmExecuteBasic_steadied (op : BasicOp) :
    vmExecuteBasic host (vm.steadied n) op b a =
      (vmExecuteBasic host vm op b a).map (·.steadied n) := by
  rcases vmExecuteBasic_cases op with ⟨-, test, he⟩ | ⟨-, cycles, alu, he⟩ | ⟨-, delta, he⟩
  · rw [he, he, ifOp_steadied]
  · rw [he, he, storeOp_steadied ha]
  · rw [he, he, stepOp_steadied ha]

/-! ### Interrupts -/

omit ha in
/-- A turn of the loop that skips is the same however long there is to sleep. -/
theorem vmSkipTurn_steadied :
    vmSkipTurn (vm.steadied n) = ((vmSkipTurn vm).1, (vmSkipTurn vm).2.steadied n) := by
  simp only [vmSkipTurn, vmConsumeWord_steadied, vmResolveValue_steadied, Vm.steadied_sleep]
  split <;> rfl

omit ha in
/-- So is the loop that skips, for any number of turns. -/
theorem vmSkipLoop_steadied (fuel : ℕ) :
    vmSkipLoop fuel (vm.steadied n) = (vmSkipLoop fuel vm).map (·.steadied n) := by
  induction fuel generalizing vm with
  | zero => rfl
  | succ fuel ih =>
    simp only [vmSkipLoop, vmSkipTurn_steadied]
    split
    · exact ih _
    · rfl

omit ha in
/-- A pending skip is carried out in the same way, or the loop does not end. -/
theorem vmSkipPending_steadied :
    vmSkipPending (vm.steadied n) = (vmSkipPending vm).map (·.steadied n) := by
  simp only [vmSkipPending, Vm.steadied_skip, vmSkipLoop_steadied]
  generalize vmSkipLoop 0x10000 vm = walked
  split
  · cases walked <;> rfl
  · rfl

/-- An interrupt is delivered, queued or dropped whatever there is to sleep for. -/
theorem vmInterrupt_steadied (msg : Word) :
    vmInterrupt host (vm.steadied n) msg = (vmInterrupt host vm msg).map (·.steadied n) := by
  simp only [vmInterrupt, Vm.steadied_queueInterrupts, Vm.steadied_irqCount, Vm.steadied_ia,
    vmSkipPending_steadied, vmHookFire_nil ha.hooks, Vm.steadied_pc]
  split
  · split <;> rfl
  · split
    · rfl
    · cases vmSkipPending vm <;> rfl

/-- An interrupt that the program raises is logged and delivered in the same way. -/
theorem vmRaise_steadied (msg : Word) :
    vmRaise host (vm.steadied n) msg = (vmRaise host vm msg).map (·.steadied n) := by
  have hlog : (vm.steadied n).log (.raised msg) = (vm.log (.raised msg)).steadied n := rfl
  rw [vmRaise, vmRaise, hlog, vmInterrupt_steadied ha]

/-- The non-basic opcodes do the same, each by its own body. -/
theorem vmExecuteNonbasic_steadied (op : NonbasicOp) :
    vmExecuteNonbasic host (vm.steadied n) op a =
      (vmExecuteNonbasic host vm op a).map (·.steadied n) := by
  cases op with
  | jsr =>
    simp only [vmExecuteNonbasic, vmOpJsr, vmResolveValue_steadied, opNumCycles_steadied,
      Vm.steadied_skip, Vm.steadied_sp, Vm.setSp_steadied, Vm.steadied_pc,
      Vm.writeRam_steadied, Vm.setPc_steadied]
    split <;> rfl
  | int =>
    rw [vmExecuteNonbasic, vmExecuteNonbasic, vmOpInt, vmOpInt, vmResolveValue_steadied]
    dsimp only
    rw [opNumCycles_steadied, vmRaise_steadied ha]
  | iag =>
    simp only [vmExecuteNonbasic, vmOpIag, vmInternalGetStore_steadied, Vm.steadied_skip,
      vmHookFireStore_nil ha.hooks, Vm.steadied_ia, Vm.store_steadied]
    split <;> rfl
  | ias =>
    simp only [vmExecuteNonbasic, vmOpIas, vmResolveValue_steadied, Vm.steadied_skip]
    split <;> rfl
  | rfi =>
    simp only [vmExecuteNonbasic, vmOpRfi, vmResolveValue_steadied, opNumCycles_steadied,
      Vm.steadied_skip, Vm.steadied_sp, Vm.steadied_ram, Vm.writeReg_steadied,
      Vm.setSp_steadied, Vm.setPc_steadied]
    split <;> rfl
  | iaq =>
    simp only [vmExecuteNonbasic, vmOpIaq, vmResolveValue_steadied, opNumCycles_steadied,
      Vm.steadied_skip]
    split <;> rfl
  | hwn =>
    simp only [vmExecuteNonbasic, vmOpHwn, vmInternalGetStore_steadied, opNumCycles_steadied,
      Vm.steadied_skip, vmHookFireStore_nil ha.hooks, Vm.store_steadied, Option.bind_eq_bind,
      Option.bind_some]
    split <;> rfl
  | hwq =>
    have hcount : vmHwCount host = 0 := by rw [vmHwCount, ha.hwList]; rfl
    have hnone : ∀ w : Word, ¬w < vmHwCount host := by
      intro w
      rw [hcount]
      exact BitVec.not_lt_zero
    simp only [vmExecuteNonbasic, vmOpHwq, vmResolveValue_steadied, opNumCycles_steadied,
      Vm.steadied_skip, hnone, if_false]
    split <;> rfl
  | hwi =>
    simp only [vmExecuteNonbasic, vmOpHwi, vmResolveValue_steadied, opNumCycles_steadied,
      Vm.steadied_skip, vmHwInterrupt, ha.hwList, List.getElem?_nil]
    split <;> rfl

/-- **An instruction does the same** however long the machine has still to sleep. -/
theorem vmExecute_steadied (hcan : vm.canFire = false) (w : Word) :
    vmExecute host (vm.steadied n) w = (vmExecute host vm w).map (·.steadied n) := by
  unfold vmExecute
  split
  · exact vmExecuteBasic_steadied ha vm n _ _ _
  · exact vmExecuteNonbasic_steadied ha vm n _ _
  · rw [vmInvalid, vmInvalid, Vm.steadied_canFire, hcan]
    rfl

/-! ### Cycles -/

/-- A waiting message is delivered however long the machine has still to sleep. -/
theorem vmDrain_steadied : vmDrain host (vm.steadied n) = (vmDrain host vm).map (·.steadied n) := by
  have hdequeue : (vm.steadied n).dequeueIrq = vm.dequeueIrq.steadied n := rfl
  unfold vmDrain
  rw [Vm.steadied_queueInterrupts, Vm.steadied_irqCount, Vm.steadied_irq, hdequeue,
    vmInterrupt_steadied ha]
  split <;> rfl

omit ha in
/-- Without radiation there is only the instruction. -/
theorem vmFetchExecute_steady (hradiation : vm.radiation = false) :
    vmFetchExecute host vm = vmExecute host (vmConsumeWord vm).2 (vmConsumeWord vm).1 := by
  have hradiate : vmRadiate host vm = some vm := by
    rw [vmRadiate, hradiation, if_neg Bool.false_ne_true]
  rw [vmFetchExecute, hradiate]
  rfl

variable {vm}

/-- Fetching and executing an instruction is the same however long there is to sleep. -/
theorem vmFetchExecute_steadied (h : Steady vm) :
    vmFetchExecute host (vm.steadied n) = (vmFetchExecute host vm).map (·.steadied n) := by
  rw [vmFetchExecute_steady _ rfl, vmFetchExecute_steady _ h.radiation, vmConsumeWord_steadied]
  exact vmExecute_steadied ha (vmConsumeWord vm).2 n h.canFire _

/-- A machine stays steady when a message is delivered. -/
theorem Steady.vmDrain (h : Steady vm) {vm' : Vm} (hdrain : vmDrain host vm = some vm') :
    Steady vm' := by
  have hmap := vmDrain_steadied ha vm 0
  rw [(vm.steadied_zero_iff).2 h, hdrain, Option.map_some, Option.some.injEq] at hmap
  exact (vm'.steadied_zero_iff).1 hmap.symm

/-- A machine stays steady when an instruction is executed. -/
theorem Steady.vmFetchExecute (h : Steady vm) {vm' : Vm}
    (hexecute : vmFetchExecute host vm = some vm') : Steady vm' := by
  have hmap := vmFetchExecute_steadied ha 0 h
  rw [(vm.steadied_zero_iff).2 h, hexecute, Option.map_some, Option.some.injEq] at hmap
  exact (vm'.steadied_zero_iff).1 hmap.symm

end Opcodes

/-- Taking up the cycle of a machine: it is not halted, and has slept its cycles. -/
def Vm.woken (vm : Vm) : Vm := { vm with halted := false, sleepCycles := 0 }

/-- A machine that is not halted and has slept its cycles is taken up as it is. -/
theorem Vm.woken_eq {vm : Vm} (hhalted : vm.halted = false) (hsleep : vm.sleepCycles = 0) :
    vm.woken = vm := by
  cases vm
  dsimp only at hhalted hsleep
  subst hhalted hsleep
  rfl

/-- Only the cycles and the halt may differ, so that a steady machine stays steady. -/
theorem Steady.of_woken {vm vm' : Vm} (h : Steady vm) (hwoken : vm'.woken = vm.woken) :
    Steady vm' :=
  ⟨(congrArg Vm.canFire hwoken).trans h.canFire, (congrArg Vm.onFire hwoken).trans h.onFire,
    (congrArg Vm.radiation hwoken).trans h.radiation⟩

/-- **An instruction does the same** if the cycles to sleep before it are left out. -/
theorem vmFetchExecute_woken {host : Host} (ha : Alone host) {vm : Vm} (h : Steady vm)
    (hhalted : vm.halted = false) :
    (vmFetchExecute host vm.woken).map Vm.woken = (vmFetchExecute host vm).map Vm.woken := by
  have hwoken : Steady vm.woken := h.of_woken rfl
  have hvm : vm = vm.woken.steadied vm.sleepCycles := by
    obtain ⟨hcan, hon, hradiation⟩ := h
    cases vm
    dsimp only at hhalted hcan hon hradiation
    subst hhalted hcan hon hradiation
    simp [Vm.woken, Vm.steadied]
  have hexecute : vmFetchExecute host vm =
      (vmFetchExecute host vm.woken).map (·.steadied vm.sleepCycles) := by
    rw [← vmFetchExecute_steadied ha _ hwoken, ← hvm]
  rw [hexecute, Option.map_map]
  refine Option.map_congr fun y hy => ?_
  have hsteady := (y.steadied_zero_iff).2 (hwoken.vmFetchExecute ha hy)
  exact (congrArg Vm.woken hsteady).symm

end DcpuToolchain
