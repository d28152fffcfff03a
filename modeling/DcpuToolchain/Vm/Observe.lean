import DcpuToolchain.Vm.Size

/-!
# What the disassembler leaves behind

`vm_disassemble` says of itself that it does not affect the state of the machine. It resolves
the operands with the machine's own `vm_resolve_value`, which bills a cycle for each next word,
and puts `pc` and `sp` back but not the cycles (`DcpuToolchain.vmDisassemble_leaves`). It then
reads the next words once more, by an `int` index that does not wrap around.

Both are harmless just where no operand it resolves has a next word
(`DcpuToolchain.disassembles_harmlessly_iff`).
-/

namespace DcpuToolchain

/-! ### The reads -/

/-- The indices at which `vm_resolve_value` reads the memory; all of them are `uint16_t`. -/
def resolveReads (vm : Vm) (val : Operand) (pos : Pos) : List ℕ :=
  match val with
  | .val r => [(vm.registers r).toNat]
  | .nxtVal r => [vm.pc.toNat, (vm.registers r + vm.ram vm.pc).toNat]
  | .pushPop =>
      if vm.skip then []
      else match pos with
        | .a => [vm.sp.toNat]
        | .b => [(vm.sp - 1).toNat]
        | .none => [vm.sp.toNat]
  | .peek => [vm.sp.toNat]
  | .pick => [vm.pc.toNat, (vm.sp + vm.ram vm.pc).toNat]
  | .nxt => [vm.pc.toNat, (vm.ram vm.pc).toNat]
  | .nxtLit => [vm.pc.toNat]
  | _ => []

/-- The indices at which `vm_disassemble` reads the memory: the instruction, what its operands
are resolved with, and the next words for `extra` and for `next`. -/
def disassembleReads (vm : Vm) (pos : Word) : List ℕ :=
  let full := vm.ram pos
  let a := operand (instructionGetA full)
  let b := operand (instructionGetB full)
  let start := { vm with pc := pos + 1 }
  let size := (vmDisassemble vm pos).1.size.toNat
  [pos.toNat] ++ resolveReads start a .a ++
    (if instructionGetOp full = 0 then [] else resolveReads (vmResolveValue start a .a).2 b .b) ++
    (if size - 1 ≥ 1 then [pos.toNat + 1] else []) ++
    (if size - 1 ≥ 2 then [pos.toNat + 2] else []) ++
    if size - 1 ≥ 2 then [pos.toNat + 1, pos.toNat + 2]
    else if size - 1 ≥ 1 ∧ (a.hasNext ∨ b.hasNext) then [pos.toNat + 1] else []

/-- Disassembling leaves the machine as it is, but for the history, and reads the memory within
its bounds. -/
def DisassemblesHarmlessly (vm : Vm) (pos : Word) : Prop :=
  { (vmDisassemble vm pos).2 with consumed := vm.consumed } = vm ∧
    ∀ n ∈ disassembleReads vm pos, n < 0x10000

/-! ### What is left -/

/-- How many next words the operands have that the disassembler resolves. -/
def resolvedWords (w : Word) : ℕ :=
  (operand (instructionGetA w)).hasNext.toNat +
    if instructionGetOp w = 0 then 0 else (operand (instructionGetB w)).hasNext.toNat

theorem resolvedWords_le (w : Word) : resolvedWords w ≤ 2 := by
  have ha := Bool.toNat_le (operand (instructionGetA w)).hasNext
  have hb := Bool.toNat_le (operand (instructionGetB w)).hasNext
  unfold resolvedWords
  split <;> omega

/-- A machine that has walked over some words, and stands with its stack pointer at `sp`. -/
def Vm.walked (vm : Vm) (k : ℕ) (sp : Word) : Vm :=
  { vm with
    pc := vm.pc + BitVec.ofNat 16 k
    sp := sp
    sleepCycles := vm.sleepCycles + BitVec.ofNat 16 k
    consumed := vm.consumed + k }

theorem Vm.walked_walked (vm : Vm) (k l : ℕ) (sp sp' : Word) :
    (vm.walked k sp).walked l sp' = vm.walked (k + l) sp' := by
  simp only [walked, BitVec.ofNat_add, BitVec.add_assoc, Nat.add_assoc]

/-- **What resolving an operand leaves**: a next word moves `pc` and costs a cycle. -/
theorem vmResolveValue_walked (vm : Vm) (val : Operand) (pos : Pos) :
    ∃ sp, (vmResolveValue vm val pos).2 = vm.walked val.hasNext.toNat sp := by
  have hnone : ∀ sp, vm.walked 0 sp = vm.setSp sp := fun sp => by
    simp [Vm.walked, Vm.setSp]
  cases val with
  | pushPop =>
    simp only [vmResolveValue, Operand.hasNext, Bool.toNat_false, hnone]
    split
    · exact ⟨vm.sp, rfl⟩
    · cases pos <;> exact ⟨_, rfl⟩
  | nxtVal | pick | nxt | nxtLit => exact ⟨vm.sp, rfl⟩
  | _ => exact ⟨vm.sp, (hnone vm.sp).symm⟩

theorem vmDisassembleResolve_walked (vm : Vm) (pos : Word) :
    ∃ sp, (vmDisassembleResolve vm pos).2.2 =
      Vm.walked { vm with pc := pos + 1 } (resolvedWords (vm.ram pos)) sp := by
  obtain ⟨sp, ha⟩ := vmResolveValue_walked { vm with pc := pos + 1 }
    (operand (instructionGetA (vm.ram pos))) .a
  simp only [vmDisassembleResolve]
  unfold resolvedWords
  split
  · exact ⟨sp, ha⟩
  · obtain ⟨sp', hb⟩ := vmResolveValue_walked (Vm.walked { vm with pc := pos + 1 }
      (operand (instructionGetA (vm.ram pos))).hasNext.toNat sp)
      (operand (instructionGetB (vm.ram pos))) .b
    refine ⟨sp', ?_⟩
    rw [ha, hb, Vm.walked_walked]

/-- **What disassembling leaves**: the machine, with a cycle more for each next word. -/
theorem vmDisassemble_leaves (vm : Vm) (pos : Word) :
    (vmDisassemble vm pos).2 = { vm with
      sleepCycles := vm.sleepCycles + BitVec.ofNat 16 (resolvedWords (vm.ram pos))
      consumed := vm.consumed + resolvedWords (vm.ram pos) } := by
  obtain ⟨sp, h⟩ := vmDisassembleResolve_walked vm pos
  have hleft : (vmDisassemble vm pos).2 =
      { (vmDisassembleResolve vm pos).2.2 with pc := vm.pc, sp := vm.sp } := rfl
  rw [hleft, h]
  rfl

theorem vmDisassemble_size (vm : Vm) (pos : Word) :
    (vmDisassemble vm pos).1.size.toNat = 1 + resolvedWords (vm.ram pos) := by
  obtain ⟨sp, h⟩ := vmDisassembleResolve_walked vm pos
  have hsize : (vmDisassemble vm pos).1.size = (vmDisassembleResolve vm pos).2.2.pc - pos := rfl
  have hle := resolvedWords_le (vm.ram pos)
  rw [hsize, h]
  simp only [Vm.walked]
  bv_omega

/-! ### What is read -/

theorem resolveReads_lt (vm : Vm) (val : Operand) (pos : Pos) :
    ∀ n ∈ resolveReads vm val pos, n < 0x10000 := by
  have hword : ∀ w : Word, w.toNat < 0x10000 := fun w => w.isLt
  cases val with
  | pushPop =>
    simp only [resolveReads]
    split
    · simp
    · cases pos <;> simp only [List.forall_mem_singleton] <;> exact hword _
  | _ => simp [resolveReads, hword, -BitVec.toNat_add]

/-- **The disassembler reads past the memory** just where a next word lies past its end. -/
theorem disassembleReads_lt_iff (vm : Vm) (pos : Word) :
    (∀ n ∈ disassembleReads vm pos, n < 0x10000) ↔
      pos.toNat + resolvedWords (vm.ram pos) < 0x10000 := by
  have hle := resolvedWords_le (vm.ram pos)
  have hpos := pos.isLt
  have ha := resolveReads_lt { vm with pc := pos + 1 } (operand (instructionGetA (vm.ram pos))) .a
  have hb := resolveReads_lt (vmResolveValue { vm with pc := pos + 1 }
    (operand (instructionGetA (vm.ram pos))) .a).2 (operand (instructionGetB (vm.ram pos))) .b
  have hsize := vmDisassemble_size vm pos
  constructor
  · intro h
    rcases Nat.lt_or_ge (resolvedWords (vm.ram pos)) 1 with hnone | hone
    · omega
    · -- The last word that is read for `extra` is the last next word.
      have hfirst := h (pos.toNat + 1) (by simp [disassembleReads, hsize, hone])
      rcases Nat.lt_or_ge (resolvedWords (vm.ram pos)) 2 with honly | htwo
      · omega
      · have hsecond := h (pos.toNat + 2) (by simp [disassembleReads, hsize, htwo])
        omega
  · intro h n hn
    simp only [disassembleReads, hsize, Nat.add_sub_cancel_left, List.mem_append] at hn
    rcases hn with ((((hn | hn) | hn) | hn) | hn) | hn
    · rw [List.mem_singleton.mp hn]
      exact hpos
    · exact ha n hn
    · split at hn
      · exact absurd hn List.not_mem_nil
      · exact hb n hn
    all_goals
      split_ifs at hn <;> simp only [List.mem_cons, List.not_mem_nil, or_false] at hn <;> omega

/-- **When disassembling is harmless**: none of the operands that are resolved has a next word. -/
theorem disassembles_harmlessly_iff (vm : Vm) (pos : Word) :
    DisassemblesHarmlessly vm pos ↔
      (operand (instructionGetA (vm.ram pos))).hasNext = false ∧
        (instructionGetOp (vm.ram pos) ≠ 0 →
          (operand (instructionGetB (vm.ram pos))).hasNext = false) := by
  have hle := resolvedWords_le (vm.ram pos)
  have hpos := pos.isLt
  have hleft : { (vmDisassemble vm pos).2 with consumed := vm.consumed } = vm ↔
      resolvedWords (vm.ram pos) = 0 := by
    rw [vmDisassemble_leaves]
    constructor
    · intro h
      have hsleep : vm.sleepCycles + BitVec.ofNat 16 (resolvedWords (vm.ram pos)) =
        vm.sleepCycles := congrArg Vm.sleepCycles h
      bv_omega
    · intro h
      have hsleep : vm.sleepCycles + BitVec.ofNat 16 0 = vm.sleepCycles := BitVec.add_zero _
      rw [h, hsleep]
  rw [DisassemblesHarmlessly, hleft, disassembleReads_lt_iff, and_iff_left_of_imp (by omega)]
  unfold resolvedWords
  split <;> simp [*]

/-- `SET A, 0x1234` costs the machine a cycle when it is looked at. -/
theorem not_forall_disassembles_harmlessly :
    ¬ ∀ (vm : Vm) (pos : Word), DisassemblesHarmlessly vm pos := by
  intro h
  have hsleep : (vmDisassemble { ram := fun _ => 0x7C01 } 0).2.sleepCycles = 0 :=
    congrArg Vm.sleepCycles (h { ram := fun _ => 0x7C01 } 0).1
  revert hsleep
  decide

end DcpuToolchain
