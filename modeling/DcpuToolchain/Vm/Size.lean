import DcpuToolchain.Vm.Disassemble
import DcpuToolchain.Vm.Skip

/-!
# Four ways to measure an instruction

How many words an instruction occupies is decided four times: by executing it, by
skipping it, by the loop of `vm_interrupt` that walks over what is to be skipped,
and by the disassembler. This file puts a number on each and says for which
instructions the four agree.

Executing and skipping read the same operands, so both consume
`DcpuToolchain.fetchWalk` words after the instruction word – neither walks over a
literal that is stored into. The loop resolves both operand fields of whatever it
finds, also of a non-basic instruction, whose `b` field is its opcode; the
disassembler resolves the `b` field of basic instructions only.
-/

namespace DcpuToolchain

/-! ### The four sizes -/

/-- The words the cycle that executes the instruction at `pc` consumes. -/
def executeSize (host : Host) (vm : Vm) : Option ℕ :=
  (vmCycle host (vm.setSkip false)).map fun vm' => vm'.consumed - vm.consumed

/-- The words the cycle that skips the instruction at `pc` consumes. -/
def skipSize (host : Host) (vm : Vm) : Option ℕ :=
  (vmCycle host (vm.setSkip true)).map fun vm' => vm'.consumed - vm.consumed

/-- The words a turn of the loop of `vm_interrupt` consumes. -/
def interruptSize (vm : Vm) : ℕ :=
  (vmSkipTurn (vm.setSkip true)).2.consumed - vm.consumed

/-- The size the disassembler reports. -/
def disassembleSize (vm : Vm) : ℕ := (vmDisassemble vm vm.pc).1.size.toNat

/-- All four sizes of the instruction at `pc` are there and equal. -/
def SizesAgree (host : Host) (vm : Vm) : Prop :=
  executeSize host vm = some (interruptSize vm) ∧ skipSize host vm = some (interruptSize vm) ∧
    disassembleSize vm = interruptSize vm

/-! ### What an operand consumes -/

theorem vmResolveValue_consumed (vm : Vm) (val : Operand) (pos : Pos) :
    (vmResolveValue vm val pos).2.consumed = vm.consumed + val.hasNext.toNat := by
  cases val with
  | pushPop =>
    cases pos <;> simp only [vmResolveValue] <;> split <;> rfl
  | _ => rfl

theorem vmResolveValue_pc (vm : Vm) (val : Operand) (pos : Pos) :
    (vmResolveValue vm val pos).2.pc = vm.pc + BitVec.ofNat 16 val.hasNext.toNat := by
  cases val with
  | pushPop =>
    cases pos <;> simp only [vmResolveValue] <;> split <;> exact (BitVec.add_zero _).symm
  | _ => first | rfl | exact (BitVec.add_zero _).symm

/-- What reading an operand leaves alone. -/
theorem vmResolveValue_frame (vm : Vm) (val : Operand) (pos : Pos) :
    (vmResolveValue vm val pos).2.skip = vm.skip ∧ (vmResolveValue vm val pos).2.ia = vm.ia ∧
      (vmResolveValue vm val pos).2.queueInterrupts = vm.queueInterrupts := by
  cases val with
  | pushPop => cases pos <;> simp only [vmResolveValue] <;> split <;> exact ⟨rfl, rfl, rfl⟩
  | _ => exact ⟨rfl, rfl, rfl⟩

theorem vmInternalGetStore_consumed (vm : Vm) (loc : Operand) (pos : Pos) :
    (vmInternalGetStore vm loc pos).2.consumed = vm.consumed + loc.storeHasNext.toNat := by
  cases hs : vm.skip with
  | true =>
    rw [vmInternalGetStore_skip hs]
    rfl
  | false =>
    simp only [vmInternalGetStore, hs, Bool.false_eq_true, if_false]
    cases loc with
    | pushPop => cases pos <;> rfl
    | _ => rfl

@[simp] theorem Vm.store_consumed (vm : Vm) (s : Store) (w : Word) :
    (vm.store s w).consumed = vm.consumed := by
  cases s <;> rfl

theorem vmHookFireStore_nil {host : Host} (hh : host.hooks = []) (s : Store) (vm : Vm) :
    vmHookFireStore host s vm = some vm := by
  cases s <;> first | rfl | exact vmHookFire_nil hh _ _ _

/-! ### What an opcode consumes -/

/-- The call returned, after consuming `n` words. -/
def Consumes (vm : Vm) (n : ℕ) (r : Option Vm) : Prop :=
  ∃ vm', r = some vm' ∧ vm'.consumed = vm.consumed + n

/-- What was consumed before the call counts as well. -/
theorem consumes_iff {vm v : Vm} {n : ℕ} (h : v.consumed = vm.consumed + n) (m : ℕ)
    (r : Option Vm) : Consumes v m r ↔ Consumes vm (n + m) r := by
  rw [Consumes, Consumes, h, Nat.add_assoc]

theorem storeOp_consumes {host : Host} (hh : host.hooks = []) (cycles : Word) (alu : Alu)
    (vm : Vm) (b a : Operand) :
    Consumes vm (a.hasNext.toNat + b.storeHasNext.toNat) (storeOp cycles alu host vm b a) := by
  have ha := vmResolveValue_consumed vm a .a
  have hb := vmInternalGetStore_consumed (vmResolveValue vm a .a).2 b .b
  rw [ha, Nat.add_assoc] at hb
  simp only [storeOp, opNumCycles, vmHookFireStore_nil hh]
  split
  · exact ⟨_, rfl, hb⟩
  · split <;> exact ⟨_, rfl, (Vm.store_consumed _ _ _).trans hb⟩

theorem ifOp_consumes (test : Word → Word → Bool) (vm : Vm) (b a : Operand) :
    Consumes vm (a.hasNext.toNat + b.hasNext.toNat) (ifOp test vm b a) := by
  have ha := vmResolveValue_consumed vm a .a
  have hb := vmResolveValue_consumed (vmResolveValue vm a .a).2 b .b
  rw [ha, Nat.add_assoc] at hb
  simp only [ifOp]
  split <;> exact ⟨_, rfl, hb⟩

theorem stepOp_consumes {host : Host} (hh : host.hooks = []) (delta : Word) (vm : Vm)
    (b a : Operand) :
    Consumes vm (a.hasNext.toNat + b.storeHasNext.toNat) (stepOp delta host vm b a) := by
  have ha := vmResolveValue_consumed vm a .a
  have hb := vmInternalGetStore_consumed (vmResolveValue vm a .a).2 b .b
  rw [ha, Nat.add_assoc] at hb
  simp only [stepOp, vmHookFireStore_nil hh, Option.bind_eq_bind, Option.bind_some]
  split
  · exact ⟨_, rfl, hb⟩
  · exact ⟨_, rfl, (Vm.store_consumed _ _ _).trans hb⟩

theorem vmExecuteBasic_consumes {host : Host} (hh : host.hooks = []) (op : BasicOp) (vm : Vm)
    (b a : Operand) : Consumes vm (basicWalk op b a) (vmExecuteBasic host vm op b a) := by
  rcases vmExecuteBasic_cases op with ⟨hop, test, he⟩ | ⟨hop, cycles, alu, he⟩ | ⟨hop, delta, he⟩
  · simpa only [he, basicWalk, hop, if_true] using ifOp_consumes test vm b a
  · simpa [he, basicWalk, hop] using storeOp_consumes hh cycles alu vm b a
  · simpa [he, basicWalk, hop] using stepOp_consumes hh delta vm b a

/-- A turn of the loop consumes something, so the loop does. -/
theorem vmSkipTurn_consumed (vm : Vm) :
    (vmSkipTurn vm).2.consumed = vm.consumed + 1 +
      (operand (instructionGetA (vm.ram vm.pc))).hasNext.toNat +
      (operand (instructionGetB (vm.ram vm.pc))).hasNext.toNat := by
  have h₁ := vmResolveValue_consumed (vm.advance 1 0)
    (operand (instructionGetA (vm.ram vm.pc))) .a
  have h₂ := vmResolveValue_consumed (vmResolveValue (vm.advance 1 0)
    (operand (instructionGetA (vm.ram vm.pc))) .a).2
    (operand (instructionGetB (vm.ram vm.pc))) .b
  have h₀ : (vm.advance 1 0).consumed = vm.consumed + 1 := rfl
  simp only [vmSkipTurn, vmConsumeWord_eq]
  split <;> simp only [Vm.sleep] <;> omega

theorem vmSkipLoop_consumed {fuel : ℕ} {vm vm' : Vm} (h : vmSkipLoop fuel vm = some vm') :
    vm.consumed < vm'.consumed := by
  induction fuel generalizing vm with
  | zero => exact absurd h (by simp [vmSkipLoop])
  | succ fuel ih =>
    have hturn := vmSkipTurn_consumed vm
    simp only [vmSkipLoop] at h
    split at h
    · have := ih h
      omega
    · rw [← Option.some.inj h]
      omega

/-- **An interrupt consumes words only to finish a pending skip** – and then it does. -/
theorem vmRaise_consumes_iff {host : Host} (hh : host.hooks = []) (vm : Vm) (msg : Word) :
    Consumes vm 0 (vmRaise host vm msg) ↔
      (vm.skip = true → vm.ia = 0 ∨ vm.queueInterrupts = true) := by
  unfold vmRaise vmInterrupt
  split
  · rename_i hq
    refine iff_of_true ?_ fun _ => Or.inr hq
    split <;> exact ⟨_, rfl, rfl⟩
  · rename_i hq
    split
    · rename_i hia
      exact iff_of_true ⟨_, rfl, rfl⟩ fun _ => Or.inl hia
    · rename_i hia
      simp only [vmHookFire_nil hh, vmSkipPending]
      split
      · rename_i hs
        refine iff_of_false ?_ fun h => (h hs).elim hia fun h' => hq h'
        rintro ⟨vm', h, hc⟩
        obtain ⟨w, hw, h⟩ := Option.bind_eq_some_iff.mp h
        obtain ⟨v, hv, rfl⟩ := Option.map_eq_some_iff.mp hw
        have hlt := vmSkipLoop_consumed hv
        rw [← Option.some.inj h] at hc
        have hlt' : vm.consumed < v.consumed := hlt
        have hc' : v.consumed = vm.consumed := hc
        omega
      · rename_i hs
        exact iff_of_true ⟨_, rfl, rfl⟩ fun h => absurd h hs

/-- The three non-basic opcodes of devices, `NBOP_HWN` to `NBOP_HWI`. Their numbers,
read as an operand code, name an operand with a next word. -/
def NonbasicOp.isHardware : NonbasicOp → Bool
  | .hwn | .hwq | .hwi => true
  | _ => false

theorem nonbasicOp_hasNext {code : ℕ} {op : NonbasicOp} (h : nonbasicOp code = some op) :
    (operand code).hasNext = op.isHardware := by
  unfold nonbasicOp at h
  split at h <;> cases h <;> rfl

theorem vmExecuteNonbasic_consumes {host : Host} (hh : host.hooks = []) {op : NonbasicOp}
    (hint : op ≠ .int) (hhw : op.isHardware = false) (vm : Vm) (a : Operand) :
    Consumes vm (nonbasicWalk op a) (vmExecuteNonbasic host vm op a) := by
  have hval := vmResolveValue_consumed vm a .a
  have hstore := vmInternalGetStore_consumed vm a .a
  cases op with
  | int => exact absurd rfl hint
  | hwn | hwq | hwi => exact Bool.noConfusion hhw
  | iag =>
    simp only [vmExecuteNonbasic, vmOpIag, vmHookFireStore_nil hh]
    split
    · exact ⟨_, rfl, hstore⟩
    · exact ⟨_, rfl, (Vm.store_consumed _ _ _).trans hstore⟩
  | jsr =>
    simp only [vmExecuteNonbasic, vmOpJsr]
    split <;> exact ⟨_, rfl, hval⟩
  | ias =>
    simp only [vmExecuteNonbasic, vmOpIas]
    split <;> exact ⟨_, rfl, hval⟩
  | rfi =>
    simp only [vmExecuteNonbasic, vmOpRfi]
    split <;> exact ⟨_, rfl, hval⟩
  | iaq =>
    simp only [vmExecuteNonbasic, vmOpIaq]
    split <;> exact ⟨_, rfl, hval⟩

theorem vmExecuteNonbasic_int_consumes_iff {host : Host} (hh : host.hooks = []) (vm : Vm)
    (a : Operand) :
    Consumes vm a.hasNext.toNat (vmExecuteNonbasic host vm .int a) ↔
      (vm.skip = true → vm.ia = 0 ∨ vm.queueInterrupts = true) := by
  have hc := vmResolveValue_consumed vm a .a
  obtain ⟨hs, hia, hq⟩ := vmResolveValue_frame vm a .a
  have hraise := vmRaise_consumes_iff hh (opNumCycles 4 (vmResolveValue vm a .a).2)
    (vmResolveValue vm a .a).1
  rw [consumes_iff (show (opNumCycles 4 (vmResolveValue vm a .a).2).consumed = _ from hc)] at hraise
  simp only [opNumCycles, Vm.sleep_skip, Vm.sleep_ia, Vm.sleep_queueInterrupts, hs, hia,
    hq] at hraise
  exact hraise

/-! ### The cycle -/

theorem map_consumed_eq_some_iff {vm : Vm} {n : ℕ} (hn : 0 < n) (r : Option Vm) :
    (r.map fun vm' => vm'.consumed - vm.consumed) = some n ↔ Consumes vm n r := by
  rw [Option.map_eq_some_iff]
  refine exists_congr fun vm' => and_congr_right fun _ => ?_
  omega

theorem Consumes.unique {vm : Vm} {m n : ℕ} {r : Option Vm} (hm : Consumes vm m r) :
    Consumes vm n r ↔ m = n := by
  obtain ⟨vm', rfl, hc⟩ := hm
  constructor
  · rintro ⟨v, hv, hn⟩
    obtain rfl := Option.some.inj hv
    omega
  · rintro rfl
    exact ⟨vm', rfl, hc⟩

theorem interruptSize_eq (vm : Vm) :
    interruptSize vm = 1 + (operand (instructionGetA (vm.ram vm.pc))).hasNext.toNat +
      (operand (instructionGetB (vm.ram vm.pc))).hasNext.toNat := by
  rw [interruptSize, vmSkipTurn_consumed]
  simp only [Vm.setSkip_consumed, Vm.setSkip_ram, Vm.setSkip_pc]
  omega

theorem disassembleSize_eq (vm : Vm) :
    disassembleSize vm = 1 + (operand (instructionGetA (vm.ram vm.pc))).hasNext.toNat +
      (if instructionGetOp (vm.ram vm.pc) = 0 then 0
        else (operand (instructionGetB (vm.ram vm.pc))).hasNext.toNat) := by
  have ha := Bool.toNat_le (operand (instructionGetA (vm.ram vm.pc))).hasNext
  have hb := Bool.toNat_le (operand (instructionGetB (vm.ram vm.pc))).hasNext
  have hsub : ∀ n : ℕ, n ≤ 3 → (vm.pc + BitVec.ofNat 16 n - vm.pc).toNat = n := by
    intro n hn
    rw [BitVec.add_comm, BitVec.add_sub_cancel, BitVec.toNat_ofNat]
    omega
  have hadd : ∀ n : ℕ, vm.pc + 1 + BitVec.ofNat 16 n = vm.pc + BitVec.ofNat 16 (1 + n) := by
    intro n
    rw [BitVec.ofNat_add, ← BitVec.add_assoc]
    rfl
  simp only [disassembleSize, vmDisassemble, vmDisassembleResolve]
  split
  · rw [vmResolveValue_pc, hadd]
    exact hsub _ (by omega)
  · rw [vmResolveValue_pc, vmResolveValue_pc, hadd, BitVec.add_assoc, ← BitVec.ofNat_add]
    exact hsub _ (by omega)

/-- The instructions that all four read with the same operands: not the opcodes of
devices, and not one that stores into a literal. -/
def sizeUniform : Inst → Bool
  | .basic op b _ => op.isIf || b != .nxtLit
  | .nonbasic .iag a => a != .nxtLit
  | .nonbasic op _ => !op.isHardware
  | .invalid => false

theorem sizeUniform_nonbasic {op : NonbasicOp} (hint : op ≠ .int) (hhw : op.isHardware = false)
    (a : Operand) : sizeUniform (.nonbasic op a) = skipHonoured (.nonbasic op a) := by
  cases op with
  | int => exact absurd rfl hint
  | hwn | hwq | hwi => exact Bool.noConfusion hhw
  | _ => rfl

/-- What the cycle of a ready machine consumes is the instruction word and what the
instruction itself consumes. -/
theorem map_consumed_vmCycle_iff {host : Host} (hh : host.hooks = []) {vm : Vm} (hr : Ready vm) :
    ∃ v : Vm, v.skip = vm.skip ∧ v.ia = vm.ia ∧ v.queueInterrupts = vm.queueInterrupts ∧
      ∀ n, (vmCycle host vm).map (fun vm' => vm'.consumed - vm.consumed) = some (1 + n) ↔
        Consumes v n (vmExecute host v (vm.ram vm.pc)) := by
  obtain ⟨c, hc⟩ := vmCycle_ready hh hr
  refine ⟨(vm.setRadiationCycles c).advance 1 0, rfl, rfl, rfl, fun n => ?_⟩
  rw [hc, map_consumed_eq_some_iff (by omega)]
  exact (consumes_iff rfl n _).symm

/-- **The four sizes of an instruction agree** exactly when the instruction is one that
all four read alike and is not an `INT` that, skipped, enters its handler. -/
theorem sizesAgree_iff {host : Host} {vm : Vm} (hh : host.hooks = []) (hr : Ready vm)
    (hv : decode (vm.ram vm.pc) ≠ .invalid) :
    SizesAgree host vm ↔
      sizeUniform (decode (vm.ram vm.pc)) = true ∧
        ∀ a, decode (vm.ram vm.pc) = .nonbasic .int a →
          vm.ia = 0 ∨ vm.queueInterrupts = true := by
  have hr₀ : Ready (vm.setSkip false) := ⟨hr.halted, hr.awake, hr.irqCount, hr.onFire, hr.radiation⟩
  have hr₁ : Ready (vm.setSkip true) := ⟨hr.halted, hr.awake, hr.irqCount, hr.onFire, hr.radiation⟩
  obtain ⟨v, hvs, -, -, hvc⟩ := map_consumed_vmCycle_iff hh hr₀
  obtain ⟨u, hus, hui, huq, huc⟩ := map_consumed_vmCycle_iff hh hr₁
  simp only [Vm.setSkip_ram, Vm.setSkip_pc, Vm.setSkip_consumed] at hvc huc
  rw [SizesAgree, interruptSize_eq, disassembleSize_eq, executeSize, skipSize, Nat.add_assoc 1,
    hvc, huc]
  rcases hd : decode (vm.ram vm.pc) with ⟨op, b, a⟩ | ⟨op, a⟩ | _
  · obtain ⟨hop, -, rfl, rfl⟩ := decode_basic hd
    have hwalk := basicWalk_eq_iff op (operand (instructionGetB (vm.ram vm.pc)))
      (operand (instructionGetA (vm.ram vm.pc)))
    simp only [vmExecute, hd, if_neg hop, sizeUniform, ← hwalk, instSize,
      (vmExecuteBasic_consumes hh op _ _ _).unique]
    constructor
    · rintro ⟨h, -, -⟩
      exact ⟨by omega, fun _ => Inst.noConfusion⟩
    · rintro ⟨h, -⟩
      omega
  · obtain ⟨hop, hcode, rfl⟩ := decode_nonbasic hd
    rw [nonbasicOp_hasNext hcode, if_pos hop]
    simp only [vmExecute, hd]
    cases hhw : op.isHardware with
    | true =>
      -- The loop takes the opcode for an operand with a next word.
      refine iff_of_false (fun h => by have := h.2.2; simp only [Bool.toNat_true] at this; omega) ?_
      cases op <;> first | exact Bool.noConfusion hhw | exact fun h => Bool.noConfusion h.1
    | false =>
      by_cases hint : op = .int
      · subst hint
        simp only [Bool.toNat_false, Nat.add_zero, vmExecuteNonbasic_int_consumes_iff hh, hvs, hus,
          hui, huq]
        constructor
        · rintro ⟨-, h, -⟩
          exact ⟨rfl, fun _ _ => h rfl⟩
        · rintro ⟨-, h⟩
          exact ⟨fun h => Bool.noConfusion h, fun _ => h _ rfl, trivial⟩
      · simp only [Bool.toNat_false, Nat.add_zero,
          (vmExecuteNonbasic_consumes hh hint hhw _ _).unique]
        have hwalk := nonbasicWalk_eq_iff hint (operand (instructionGetA (vm.ram vm.pc)))
        rw [← sizeUniform_nonbasic hint hhw, instSize] at hwalk
        rw [← hwalk]
        constructor
        · rintro ⟨h, -, -⟩
          exact ⟨by omega, fun _ h => absurd (Inst.nonbasic.inj h).1 hint⟩
        · rintro ⟨h, -⟩
          exact ⟨by omega, by omega, trivial⟩
  · exact absurd hd hv

/-- A machine about to execute the instruction word `w` at address `0`. -/
def machineAt (w : Word) : Vm := { ram := Function.update (fun _ => 0) 0 w }

theorem machineAt_ready (w : Word) : Ready (machineAt w) :=
  ⟨rfl, rfl, rfl, rfl, fun h => Bool.noConfusion h.1⟩

/-- `SET A, B` has one size. -/
theorem sizesAgree_set : SizesAgree {} (machineAt (instructionCreate 0x01 0x00 0x01)) :=
  (sizesAgree_iff rfl (machineAt_ready _) (by decide)).mpr
    ⟨by decide, fun _ _ => Or.inl rfl⟩

/-- **`SET 5, A` has two sizes**: executing it leaves its literal to be executed. -/
theorem not_forall_sizesAgree :
    ¬∀ (host : Host) (vm : Vm), host.hooks = [] → Ready vm →
      decode (vm.ram vm.pc) ≠ .invalid → SizesAgree host vm := by
  intro h
  have hset := h {} (machineAt (instructionCreate 0x01 0x1F 0x00)) rfl (machineAt_ready _)
    (by decide)
  exact absurd hset.1 (by decide)

end DcpuToolchain
