import DcpuToolchain.Ld.Call

/-!
# Which conventions are kept

The words of a call are executed up to the interrupt, and on from where the handler returns
to. For `register-call` and `register-direct` that is a handful of instructions, whatever the
size, and the convention is kept. For `stack-call` it is one push for each argument, and the
convention is kept for no size: with no argument or one the stack pointer ends up too low, as
the number of words to pop underflows, and with more than one the result is taken from the
top of the stack, where the last argument is.
-/

namespace DcpuToolchain

/-! ### Words in memory -/

/-- What is pushed apart from the words leaves them as they are. -/
theorem CodeAt.update {ram : Word → Word} {pc addr : Word} {words : List Word}
    (h : CodeAt ram pc words) (haddr : ∀ i < words.length, pc + BitVec.ofNat 16 i ≠ addr)
    (w : Word) :
    CodeAt (Function.update ram addr w) pc words := by
  intro i v hv
  rw [Function.update_of_ne (haddr i (List.getElem?_eq_some_iff.mp hv).1)]
  exact h i v hv

/-- A machine in the words of a call, behind a number of them and with a number of words
pushed. -/
structure Inside (vm₀ : Vm) (words : List Word) (read pushed : ℕ) (vm : Vm) : Prop where
  calm : vm.Calm
  queueInterrupts : vm.queueInterrupts = false
  ia : vm.ia = vm₀.ia
  registers : vm.registers = vm₀.registers
  pc : vm.pc = vm₀.pc + BitVec.ofNat 16 read
  sp : vm.sp = vm₀.sp - BitVec.ofNat 16 pushed
  code : CodeAt vm.ram vm₀.pc words
  stack : ∀ addr, (∀ j, 1 ≤ j → j ≤ pushed → addr ≠ vm₀.sp - BitVec.ofNat 16 j) →
    vm.ram addr = vm₀.ram addr

section Execution

variable {host : Host} {vm₀ vm : Vm} {words : List Word} {depth read pushed : ℕ}

/-- A stack that does not reach into the words leaves room for both. -/
theorem Enters.fits (h : Enters host vm₀ words depth) (hpos : 0 < words.length) :
    words.length + depth + 2 ≤ 0x10000 := by
  by_contra hlt
  -- from the word before the stack, going round, to the first of the words
  set gap := (vm₀.sp - 1 - vm₀.pc).toNat with hgap
  have hgapLt : gap < 0x10000 := (vm₀.sp - 1 - vm₀.pc).isLt
  by_cases hin : gap < words.length
  · refine h.apart gap hin 1 le_rfl (by omega) ?_
    rw [hgap, BitVec.ofNat_toNat, BitVec.setWidth_eq]
    bv_omega
  · refine h.apart (words.length - 1) (by omega) (gap + 2 - words.length) (by omega) (by omega) ?_
    have hsp : vm₀.sp = vm₀.pc + BitVec.ofNat 16 gap + 1 := by
      rw [hgap, BitVec.ofNat_toNat, BitVec.setWidth_eq]
      bv_omega
    rw [hsp]
    bv_omega

theorem Enters.inside (h : Enters host vm₀ words depth) : Inside vm₀ words 0 0 vm₀ where
  calm := h.calm
  queueInterrupts := h.queueInterrupts
  ia := rfl
  registers := rfl
  pc := (BitVec.add_zero _).symm
  sp := (BitVec.sub_zero _).symm
  code := h.code
  stack _ _ := rfl

/-- The word that is read next. -/
theorem Inside.ram_pc (h : Inside vm₀ words read pushed vm) {w : Word}
    (hw : words[read]? = some w) :
    vm.ram vm.pc = w := by
  rw [h.pc]
  exact h.code read w hw

theorem Inside.ram_succ (h : Inside vm₀ words read pushed vm) {w : Word}
    (hw : words[read + 1]? = some w) : vm.ram (vm.pc + 1) = w := by
  rw [h.pc, BitVec.add_assoc]
  exact @BitVec.ofNat_add 16 read 1 ▸ h.code (read + 1) w hw

/-- **A push**, of one word or two. -/
theorem Inside.push (henters : Enters host vm₀ words depth) (h : Inside vm₀ words read pushed vm)
    (hdepth : pushed < depth) {vm' : Vm} {n : ℕ} {value : Word}
    (hvm' : Leaves host vm vm' vm.queueInterrupts (vm.pc + BitVec.ofNat 16 n) (vm.sp - 1)
      vm.registers (Function.update vm.ram (vm.sp - 1) value)) :
    Inside vm₀ words (read + n) (pushed + 1) vm' := by
  have haddr : vm.sp - 1 = vm₀.sp - BitVec.ofNat 16 (pushed + 1) := by
    rw [h.sp, BitVec.sub_sub, BitVec.ofNat_add]
    rfl
  refine ⟨hvm'.calm, hvm'.queueInterrupts.trans h.queueInterrupts, hvm'.ia.trans h.ia,
    hvm'.registers.trans h.registers, ?_, hvm'.sp.trans haddr, ?_, ?_⟩
  · rw [hvm'.pc, h.pc, BitVec.add_assoc, ← BitVec.ofNat_add]
  · rw [hvm'.ram, haddr]
    exact h.code.update (fun i hi => henters.apart i hi (pushed + 1) (by omega) (by omega)) value
  · intro addr hne
    rw [hvm'.ram, haddr, Function.update_of_ne (hne (pushed + 1) (by omega) le_rfl)]
    exact h.stack addr fun j h₁ h₂ => hne j h₁ (by omega)

/-- The machine that has just entered the handler. -/
structure Handling (vm₀ : Vm) (words : List Word) (read pushed : ℕ) (call : Word) (vm : Vm) :
    Prop where
  calm : vm.Calm
  pc : vm.pc = vm₀.ia
  sp : vm.sp = vm₀.sp - BitVec.ofNat 16 (pushed + 2)
  message : vm.registers 0 = call
  registers : ∀ r ≠ 0, vm.registers r = vm₀.registers r
  saved : vm.ram vm.sp = vm₀.registers 0
  returnAddress : vm.ram (vm.sp + 1) = vm₀.pc + BitVec.ofNat 16 read
  code : CodeAt vm.ram vm₀.pc words
  stack : ∀ addr, (∀ j, 1 ≤ j → j ≤ pushed + 2 → addr ≠ vm₀.sp - BitVec.ofNat 16 j) →
    vm.ram addr = vm₀.ram addr

/-- **The interrupt.** -/
theorem Inside.interrupt (henters : Enters host vm₀ words depth)
    (h : Inside vm₀ words read pushed vm) (hdepth : pushed ≤ depth) {call : Word}
    (hint : words[read]? = some (instructionCreate 0x00 0x08 0x1F))
    (hcall : words[read + 1]? = some call) :
    ∃ handler, RunsTo (vmInstruction host) (·.queueInterrupts = true) vm handler ∧
      Handling vm₀ words (read + 2) pushed call handler ∧
      ∀ addr, addr ≠ vm.sp - 1 → addr ≠ vm.sp - 2 → handler.ram addr = vm.ram addr := by
  have hdecode : decode (vm.ram vm.pc) = .nonbasic .int .nxtLit := by
    rw [h.ram_pc hint]
    decide
  have hia : vm.ia ≠ 0 := by
    rw [h.ia]
    exact henters.handler
  obtain ⟨handler, hleaves⟩ := leaves_int henters.hooks h.calm h.queueInterrupts hia hdecode
  rw [h.ram_succ hcall] at hleaves
  have hstep : ¬ vm.queueInterrupts = true := by simp [h.queueInterrupts]
  have hsp1 : vm.sp - 1 = vm₀.sp - BitVec.ofNat 16 (pushed + 1) := by
    rw [h.sp, BitVec.sub_sub, BitVec.ofNat_add]
    rfl
  have hsp2 : vm.sp - 2 = vm₀.sp - BitVec.ofNat 16 (pushed + 2) := by
    rw [h.sp, BitVec.sub_sub, BitVec.ofNat_add]
    rfl
  have hne : vm.sp - 1 ≠ vm.sp - 2 := by bv_omega
  refine ⟨handler, .next hstep hleaves.step (.here hleaves.queueInterrupts),
    ⟨hleaves.calm, ?_, ?_, ?_, ?_, ?_, ?_, ?_, ?_⟩, ?_⟩
  · rw [hleaves.pc, h.ia]
  · rw [hleaves.sp, hsp2]
  · rw [hleaves.registers, Function.update_self]
  · intro r hr
    rw [hleaves.registers, Function.update_of_ne hr, h.registers]
  · rw [hleaves.ram, hleaves.sp, Function.update_self, h.registers]
  · have haddr : vm.sp - 2 + 1 = vm.sp - 1 := by bv_omega
    rw [hleaves.ram, hleaves.sp, haddr, Function.update_of_ne hne, Function.update_self, h.pc,
      BitVec.add_assoc, BitVec.ofNat_add]
    rfl
  · rw [hleaves.ram, hsp1, hsp2]
    exact (h.code.update (fun i hi => henters.apart i hi _ (by omega) (by omega)) _).update
      (fun i hi => henters.apart i hi _ (by omega) (by omega)) _
  · intro addr haddr
    rw [hleaves.ram, hsp1, hsp2, Function.update_of_ne (haddr _ (by omega) (by omega)),
      Function.update_of_ne (haddr _ (by omega) (by omega))]
    exact h.stack addr fun j h₁ h₂ => haddr j h₁ (by omega)
  · intro addr h₁ h₂
    rw [hleaves.ram, Function.update_of_ne h₂, Function.update_of_ne h₁]

/-- A machine that has returned from the handler, behind a number of words. -/
structure BackInside (vm₀ : Vm) (words : List Word) (read : ℕ) (vm : Vm) : Prop where
  calm : vm.Calm
  pc : vm.pc = vm₀.pc + BitVec.ofNat 16 read
  code : CodeAt vm.ram vm₀.pc words

theorem Handling.returned {call : Word} {handler returned : Vm}
    (h : Handling vm₀ words read pushed call handler)
    (hobeys : Obeys words vm₀.pc handler returned) :
    BackInside vm₀ words read returned ∧ returned.sp = vm₀.sp - BitVec.ofNat 16 pushed := by
  refine ⟨⟨hobeys.calm, ?_, ?_⟩, ?_⟩
  · rw [hobeys.returnAddress, h.returnAddress]
  · intro i w hw
    rw [hobeys.code i (List.getElem?_eq_some_iff.mp hw).1]
    exact h.code i w hw
  · rw [hobeys.sp, h.sp, BitVec.ofNat_add]
    bv_omega

/-- The word that is read next. -/
theorem BackInside.ram_pc (h : BackInside vm₀ words read vm) {w : Word}
    (hw : words[read]? = some w) :
    vm.ram vm.pc = w := by
  rw [h.pc]
  exact h.code read w hw

theorem BackInside.ram_succ (h : BackInside vm₀ words read vm) {w : Word}
    (hw : words[read + 1]? = some w) : vm.ram (vm.pc + 1) = w := by
  rw [h.pc, BitVec.add_assoc]
  exact @BitVec.ofNat_add 16 read 1 ▸ h.code (read + 1) w hw

/-- The instruction after the return. -/
theorem BackInside.next (h : BackInside vm₀ words read vm) {vm' : Vm} {n : ℕ} {queue : Bool}
    {sp : Word} {registers : Fin 8 → Word}
    (hvm' : Leaves host vm vm' queue (vm.pc + BitVec.ofNat 16 n) sp registers vm.ram) :
    BackInside vm₀ words (read + n) vm' := by
  refine ⟨hvm'.calm, ?_, ?_⟩
  · rw [hvm'.pc, h.pc, BitVec.add_assoc, ← BitVec.ofNat_add]
  · rw [hvm'.ram]
    exact h.code

/-- `SET A, POP` at the end. -/
theorem BackInside.pop (hhost : host.hooks = []) (h : BackInside vm₀ words read vm)
    (hinst : words[read]? = some (instructionCreate 0x01 0x00 0x18)) :
    ∃ vm', vmInstruction host vm = some vm' ∧ BackInside vm₀ words (read + 1) vm' ∧
      vm'.registers 0 = vm.ram vm.sp ∧ vm'.sp = vm.sp + 1 := by
  have hdecode : decode (vm.ram vm.pc) = .basic .set (.reg 0) .pushPop := by
    rw [h.ram_pc hinst]
    decide
  obtain ⟨vm', hleaves⟩ := leaves_pop hhost h.calm hdecode
  exact ⟨vm', hleaves.step, h.next (n := 1) hleaves, by
    rw [hleaves.registers, Function.update_self],
    hleaves.sp⟩

/-- `SET A, PEEK`. -/
theorem BackInside.peek (hhost : host.hooks = []) (h : BackInside vm₀ words read vm)
    (hinst : words[read]? = some (instructionCreate 0x01 0x00 0x19)) :
    ∃ vm', vmInstruction host vm = some vm' ∧ BackInside vm₀ words (read + 1) vm' ∧
      vm'.registers 0 = vm.ram vm.sp ∧ vm'.sp = vm.sp := by
  have hdecode : decode (vm.ram vm.pc) = .basic .set (.reg 0) .peek := by
    rw [h.ram_pc hinst]
    decide
  obtain ⟨vm', hleaves⟩ := leaves_peek hhost h.calm hdecode
  exact ⟨vm', hleaves.step, h.next (n := 1) hleaves, by
    rw [hleaves.registers, Function.update_self],
    hleaves.sp⟩

/-- `ADD SP, ` a word. -/
theorem BackInside.addSp (hhost : host.hooks = []) (h : BackInside vm₀ words read vm) {w : Word}
    (hinst : words[read]? = some (instructionCreate 0x02 0x1B 0x1F))
    (hw : words[read + 1]? = some w) :
    ∃ vm', vmInstruction host vm = some vm' ∧ BackInside vm₀ words (read + 2) vm' ∧
      vm'.registers 0 = vm.registers 0 ∧ vm'.sp = vm.sp + w := by
  have hdecode : decode (vm.ram vm.pc) = .basic .add .sp .nxtLit := by
    rw [h.ram_pc hinst]
    decide
  obtain ⟨vm', hleaves⟩ := leaves_addSp hhost h.calm hdecode
  rw [h.ram_succ hw] at hleaves
  exact ⟨vm', hleaves.step, h.next (n := 2) hleaves, by rw [hleaves.registers], hleaves.sp⟩

/-- The end of the words is not where an instruction within them is. -/
theorem BackInside.pc_ne (h : BackInside vm₀ words read vm) (hread : read < words.length)
    (hlen : words.length < 0x10000) : vm.pc ≠ vm₀.pc + BitVec.ofNat 16 words.length := by
  rw [h.pc]
  intro heq
  have hnat := congrArg BitVec.toNat (BitVec.add_right_inj vm₀.pc |>.mp heq)
  rw [BitVec.toNat_ofNat, BitVec.toNat_ofNat, Nat.mod_eq_of_lt (by omega),
    Nat.mod_eq_of_lt (by omega)]
    at hnat
  omega

/-- **The first three arguments stay in their registers**, of which `INT` saves `A`, and the
others on the stack if nothing is pushed onto them. -/
theorem Handling.passed {call size : Word} {handler : Vm}
    (h : Handling vm₀ words read pushed call handler) (hpushed : 4 ≤ size.toNat → pushed = 0) :
    Passed size vm₀ handler .registerCall := by
  refine ⟨fun _ => h.saved, fun _ => h.registers 1 (by decide), fun _ =>
    h.registers 2 (by decide), ?_⟩
  intro i h₄ hi
  obtain rfl := hpushed (by omega)
  have hsp : handler.sp + 2 + BitVec.ofNat 16 (size.toNat - i) =
      vm₀.sp + BitVec.ofNat 16 (size.toNat - i) := by
    rw [h.sp]
    bv_omega
  rw [hsp, argument, if_neg (by omega), if_neg (by omega), if_neg (by omega)]
  refine h.stack _ fun j h₁ h₂ => ?_
  have hlt := size.isLt
  bv_omega

end Execution

/-! ### The register conventions -/

/-- **`register-direct` is kept**: nothing is pushed, and what the user pushed is popped. -/
theorem keepsConvention_registerDirect (size : Word) : KeepsConvention .registerDirect size := by
  intro host vm call words hwords henters
  obtain rfl : generateCcregisterdirect call size = words := Option.some.inj hwords
  have hint : (generateCcregisterdirect call size)[0]? = some (instructionCreate 0x00 0x08 0x1F) :=
    rfl
  have hcall : (generateCcregisterdirect call size)[0 + 1]? = some call := rfl
  obtain ⟨handler, hruns, h, -⟩ := henters.inside.interrupt henters (Nat.zero_le _) hint hcall
  refine ⟨handler, hruns, h.pc, h.message, h.passed fun _ => rfl, fun returned hobeys => ?_⟩
  obtain ⟨hret, hsp⟩ := h.returned hobeys
  rw [BitVec.sub_zero] at hsp
  by_cases hsize : 3 < size
  · have hw : generateCcregisterdirect call size = [instructionCreate 0x00 0x08 0x1F, call,
        instructionCreate 0x02 0x1B 0x1F, size - 3] := by
      rw [generateCcregisterdirect, if_pos hsize]
      rfl
    rw [hw] at hret ⊢
    obtain ⟨done, hstep, hdone, hA, hspDone⟩ := hret.addSp henters.hooks rfl rfl
    refine ⟨done, .next (hret.pc_ne (by simp) (by simp)) hstep (.here hdone.pc), hA, ?_⟩
    rw [hspDone, hsp]
    bv_omega
  · have hw : generateCcregisterdirect call size = [instructionCreate 0x00 0x08 0x1F, call] := by
      rw [generateCcregisterdirect, if_neg hsize]
      rfl
    rw [hw] at hret ⊢
    refine ⟨returned, .here hret.pc, rfl, ?_⟩
    rw [hsp]
    bv_omega

/-- **`register-call` is kept**: a word for the result is pushed if the user has pushed none. -/
theorem keepsConvention_registerCall (size : Word) : KeepsConvention .registerCall size := by
  intro host vm call words hwords henters
  obtain rfl : generateCcregistercall call size = words := Option.some.inj hwords
  by_cases hsize : size < 4
  · have hw : generateCcregistercall call size = [instructionCreate 0x01 0x18 0x20,
        instructionCreate 0x00 0x08 0x1F, call, instructionCreate 0x01 0x00 0x18] := by
      rw [generateCcregistercall, if_pos hsize, if_pos (by bv_omega)]
      rfl
    have hdepth : callDepth size .registerCall = 1 := if_pos hsize
    rw [hw] at henters ⊢
    rw [hdepth] at henters
    have hdecode : decode (vm.ram vm.pc) = .basic .set .pushPop (.lit 0x20) := by
      rw [henters.inside.ram_pc rfl]
      decide
    obtain ⟨vm', hleaves⟩ := leaves_push henters.hooks henters.calm hdecode fun _ _ => rfl
    have hinside := henters.inside.push henters (by omega) (n := 1) hleaves
    obtain ⟨handler, hruns, h, -⟩ := hinside.interrupt henters le_rfl rfl rfl
    have hclosed : ¬ vm.queueInterrupts = true := by simp [henters.queueInterrupts]
    refine ⟨handler, .next hclosed hleaves.step hruns, h.pc, h.message,
      h.passed fun h₄ => absurd hsize (by bv_omega), fun returned hobeys => ?_⟩
    obtain ⟨hret, hsp⟩ := h.returned hobeys
    obtain ⟨done, hstep, hdone, hA, hspDone⟩ := hret.pop henters.hooks rfl
    refine ⟨done, .next (hret.pc_ne (by simp) (by simp)) hstep (.here hdone.pc), hA, ?_⟩
    rw [hspDone, hsp]
    bv_omega
  · have hw : generateCcregistercall call size = [instructionCreate 0x00 0x08 0x1F, call,
        instructionCreate 0x01 0x00 0x19, instructionCreate 0x02 0x1B 0x1F, size - 3] := by
      rw [generateCcregistercall, if_neg hsize, if_neg (by bv_omega)]
      rfl
    rw [hw] at henters ⊢
    obtain ⟨handler, hruns, h, -⟩ := henters.inside.interrupt henters (Nat.zero_le _) rfl rfl
    refine ⟨handler, hruns, h.pc, h.message, h.passed fun _ => rfl, fun returned hobeys => ?_⟩
    obtain ⟨hret, hsp⟩ := h.returned hobeys
    rw [BitVec.sub_zero] at hsp
    obtain ⟨vm', hstep, hret', hA, hsp'⟩ := hret.peek henters.hooks rfl
    obtain ⟨done, hstep', hdone, hA', hspDone⟩ := hret'.addSp henters.hooks rfl rfl
    refine ⟨done, .next (hret.pc_ne (by simp) (by simp)) hstep
      (.next (hret'.pc_ne (by simp) (by simp)) hstep' (.here hdone.pc)), hA'.trans hA, ?_⟩
    rw [hspDone, hsp', hsp]
    bv_omega

/-! ### `stack-call` -/

/-- The pushes that `generate_ccstackcall` writes. -/
def stackPushes (size : Word) : List (List Word) :=
  (if size = 0 then [[instructionCreate 0x01 0x18 0x20]] else []) ++
    (if 1 ≤ size then [[instructionCreate 0x01 0x18 0x00]] else []) ++
    (if 2 ≤ size then [[instructionCreate 0x01 0x18 0x01]] else []) ++
    (if 3 ≤ size then [[instructionCreate 0x01 0x18 0x02]] else []) ++
    List.replicate (size.toNat - 3) [instructionCreate 0x01 0x18 0x1A, 0 - size]

theorem generateCcstackcall_eq {call size : Word} (hsize : size ≠ 0xFFFF) :
    generateCcstackcall call size =
      some ((stackPushes size).flatten ++ [instructionCreate 0x00 0x08 0x1F, call,
        instructionCreate 0x01 0x00 0x19, instructionCreate 0x02 0x1B 0x1F,
        size + (size - 3)]) := by
  rw [generateCcstackcall, if_neg hsize, stackPushes]
  congr 2
  simp only [List.flatten_append, apply_ite List.flatten, List.flatten_cons, List.flatten_nil,
    List.append_nil]

/-- There is one push for each argument, or one if there is none. -/
theorem length_stackPushes (size : Word) : (stackPushes size).length = max size.toNat 1 := by
  have h₀ : size = 0 ↔ size.toNat = 0 := by
    rw [← BitVec.toNat_inj]
    rfl
  have h₁ : 1 ≤ size ↔ 1 ≤ size.toNat := BitVec.le_def
  have h₂ : 2 ≤ size ↔ 2 ≤ size.toNat := BitVec.le_def
  have h₃ : 3 ≤ size ↔ 3 ≤ size.toNat := BitVec.le_def
  simp only [stackPushes, h₀, h₁, h₂, h₃, List.length_append, List.length_replicate]
  rcases size.toNat with - | - | - | n
  · rfl
  · rfl
  · rfl
  · simp
    omega

theorem length_flatten_stackPushes (size : Word) :
    (stackPushes size).flatten.length = max size.toNat 1 + (size.toNat - 3) := by
  have h₀ : size = 0 ↔ size.toNat = 0 := by
    rw [← BitVec.toNat_inj]
    rfl
  have h₁ : 1 ≤ size ↔ 1 ≤ size.toNat := BitVec.le_def
  have h₂ : 2 ≤ size ↔ 2 ≤ size.toNat := BitVec.le_def
  have h₃ : 3 ≤ size ↔ 3 ≤ size.toNat := BitVec.le_def
  simp only [stackPushes, h₀, h₁, h₂, h₃, List.flatten_append, List.length_append]
  rcases size.toNat with - | - | - | n
  · rfl
  · rfl
  · rfl
  · simp
    omega

/-- A push, of one word or with the offset of `PICK`. -/
def IsPush (push : List Word) : Prop :=
  (∃ w r, push = [w] ∧ decode w = .basic .set .pushPop (.reg r)) ∨
    (∃ w code, push = [w] ∧ decode w = .basic .set .pushPop (.lit code)) ∨
    ∃ w offset, push = [w, offset] ∧ decode w = .basic .set .pushPop .pick

theorem isPush_of_mem {size : Word} {push : List Word} (h : push ∈ stackPushes size) :
    IsPush push := by
  simp only [stackPushes, List.mem_append, List.mem_ite_nil_right, List.mem_singleton,
    List.mem_replicate] at h
  rcases h with (((⟨-, rfl⟩ | ⟨-, rfl⟩) | ⟨-, rfl⟩) | ⟨-, rfl⟩) | ⟨-, rfl⟩
  · exact .inr (.inl ⟨_, 0x20, rfl, by decide⟩)
  · exact .inl ⟨_, 0, rfl, by decide⟩
  · exact .inl ⟨_, 1, rfl, by decide⟩
  · exact .inl ⟨_, 2, rfl, by decide⟩
  · exact .inr (.inr ⟨_, _, rfl, by decide⟩)

section Execution

variable {host : Host} {vm₀ vm : Vm} {words : List Word} {depth pushed : ℕ}

/-- **The pushes**, one after the other. -/
theorem Inside.pushes (henters : Enters host vm₀ words depth) (before : List Word)
    {after : List Word} {pushes : List (List Word)} (hpushes : ∀ push ∈ pushes, IsPush push)
    (hwords : words = before ++ pushes.flatten ++ after)
    (h : Inside vm₀ words before.length pushed vm) (hdepth : pushed + pushes.length ≤ depth) :
    ∃ vm', Inside vm₀ words (before ++ pushes.flatten).length (pushed + pushes.length) vm' ∧
      ∀ handler, RunsTo (vmInstruction host) (·.queueInterrupts = true) vm' handler →
        RunsTo (vmInstruction host) (·.queueInterrupts = true) vm handler := by
  induction pushes generalizing before vm pushed with
  | nil => exact ⟨vm, by simpa using h, fun _ hr => hr⟩
  | cons push pushes ih =>
    have hclosed : ¬ vm.queueInterrupts = true := by simp [h.queueInterrupts]
    rw [List.length_cons] at hdepth
    have hone : ∃ vm', vmInstruction host vm = some vm' ∧
        Inside vm₀ words (before ++ push).length (pushed + 1) vm' := by
      have hhead : words = before ++ (push ++ (pushes.flatten ++ after)) := by rw [hwords]; simp
      rcases hpushes push List.mem_cons_self with ⟨w, r, rfl, hw⟩ | ⟨w, code, rfl, hw⟩ |
        ⟨w, offset, rfl, hw⟩
      · rw [← h.ram_pc (w := w) (by rw [hhead]; simp)] at hw
        obtain ⟨vm', hleaves⟩ := leaves_push (v := vm.registers r) henters.hooks h.calm hw
          fun vm' hr => by rw [vmResolveValue, hr]
        refine ⟨vm', hleaves.step, ?_⟩
        rw [List.length_append]
        exact h.push henters (by omega) (n := 1) hleaves
      · rw [← h.ram_pc (w := w) (by rw [hhead]; simp)] at hw
        obtain ⟨vm', hleaves⟩ := leaves_push henters.hooks h.calm hw fun vm' hr => rfl
        refine ⟨vm', hleaves.step, ?_⟩
        rw [List.length_append]
        exact h.push henters (by omega) (n := 1) hleaves
      · rw [← h.ram_pc (w := w) (by rw [hhead]; simp)] at hw
        obtain ⟨vm', hleaves⟩ := leaves_pushPick henters.hooks h.calm hw
        refine ⟨vm', hleaves.step, ?_⟩
        rw [List.length_append]
        exact h.push henters (by omega) (n := 2) hleaves
    obtain ⟨vm', hstep, hvm'⟩ := hone
    obtain ⟨vm'', hvm'', hruns⟩ := ih (before ++ push)
      (fun push hp => hpushes push (List.mem_cons_of_mem _ hp)) (by rw [hwords]; simp) hvm'
        (by omega)
    refine ⟨vm'', ?_, fun handler hr => .next hclosed hstep (hruns handler hr)⟩
    rw [List.flatten_cons, List.length_cons, ← List.append_assoc]
    rwa [Nat.add_assoc, Nat.add_comm 1] at hvm''

end Execution

/-- A machine that is about to execute the words at the beginning of its memory, with its
stack at the end of it. -/
def callMachine (words : List Word) : Vm where
  ia := 1
  ram := fun addr => words.getD addr.toNat 0

theorem enters_callMachine {words : List Word} {depth : ℕ}
    (hfits : words.length + depth + 2 ≤ 0x10000) : Enters {} (callMachine words) words depth where
  hooks := rfl
  calm := ⟨rfl, rfl, rfl, rfl, rfl, rfl⟩
  queueInterrupts := rfl
  handler := (by decide : (1 : Word) ≠ 0)
  code i w hw := by
    have hi := (List.getElem?_eq_some_iff.mp hw).1
    have hnat : (0#16 + BitVec.ofNat 16 i).toNat = i := by
      rw [BitVec.zero_add, BitVec.toNat_ofNat]
      omega
    change words.getD (0#16 + BitVec.ofNat 16 i).toNat 0 = w
    rw [hnat, List.getD_eq_getElem?_getD, hw]
    rfl
  apart i hi j h₁ h₂ := by
    change 0#16 + BitVec.ofNat 16 i ≠ 0#16 - BitVec.ofNat 16 j
    intro heq
    have hnat := congrArg BitVec.toNat heq
    simp only [BitVec.toNat_add, BitVec.toNat_sub, BitVec.toNat_ofNat] at hnat
    omega

/-- **`stack-call` is kept for no size** for which the words and what they push fit into the
memory. -/
theorem not_keepsConvention_stackCall {size : Word} (hsize : size.toNat ≤ 21844) :
    ¬ KeepsConvention .stackCall size := by
  intro hkeeps
  have hne : size ≠ 0xFFFF := by bv_omega
  have hdepth : callDepth size .stackCall = (stackPushes size).length :=
    (length_stackPushes size).symm
  set after : List Word := [instructionCreate 0x00 0x08 0x1F, 0, instructionCreate 0x01 0x00 0x19,
    instructionCreate 0x02 0x1B 0x1F, size + (size - 3)] with hafter
  set words := (stackPushes size).flatten ++ after with hwords
  have hlen : words.length + callDepth size .stackCall + 2 ≤ 0x10000 := by
    have hcount := length_flatten_stackPushes size
    rw [hwords, List.length_append, hcount, hdepth, length_stackPushes, hafter]
    simp only [List.length_cons, List.length_nil]
    omega
  have henters := enters_callMachine hlen
  set vm := callMachine words
  obtain ⟨handler, hruns, -, -, -, hreturned⟩ :=
    hkeeps {} vm 0 words (generateCcstackcall_eq hne) henters
  obtain ⟨vm', hinside, hpushed⟩ := henters.inside.pushes henters []
    (fun _ => isPush_of_mem) hwords (by omega)
  rw [List.nil_append, Nat.zero_add] at hinside
  have hword : ∀ i, words[(stackPushes size).flatten.length + i]? = after[i]? := by
    intro i
    rw [hwords, List.getElem?_append_right (Nat.le_add_right _ i), Nat.add_sub_cancel_left]
  obtain ⟨handler', hruns', h, -⟩ := hinside.interrupt henters hdepth.ge (hword 0) (hword 1)
  obtain rfl : handler' = handler := (hpushed _ hruns').unique hruns
  -- the handler leaves a result behind that is not on the top of the stack
  let place : Word := handler'.sp + 2 + BitVec.ofNat 16 (size.toNat - 1)
  let returned : Vm := { handler' with
    queueInterrupts := false
    pc := handler'.ram (handler'.sp + 1)
    sp := handler'.sp + 2
    ram := Function.update handler'.ram place (handler'.ram (handler'.sp + 2) + 1) }
  have hplace : place = vm.sp - BitVec.ofNat 16 1 := by
    have hcount := length_stackPushes size
    change handler'.sp + 2 + BitVec.ofNat 16 (size.toNat - 1) = _
    rw [h.sp, BitVec.ofNat_add]
    bv_omega
  have hobeys : Obeys words vm.pc handler' returned := by
    refine ⟨⟨h.calm.1, h.calm.2, h.calm.3, h.calm.4, h.calm.5, h.calm.6⟩, rfl, rfl, rfl, ?_⟩
    intro i hi
    refine Function.update_of_ne ?_ _ _
    rw [hplace]
    exact henters.apart i hi 1 le_rfl (by omega)
  obtain ⟨done, hdone, hresult, hsp⟩ := hreturned returned hobeys
  obtain ⟨hback, hspBack⟩ := h.returned hobeys
  obtain ⟨vm₁, hstep₁, hback₁, hA₁, hsp₁⟩ := hback.peek henters.hooks (hword 2)
  obtain ⟨vm₂, hstep₂, hback₂, hA₂, hsp₂⟩ := hback₁.addSp henters.hooks (hword 3) (hword 4)
  have hend : words.length = (stackPushes size).flatten.length + 5 := by
    rw [hwords, List.length_append]
    rfl
  have hruns₂ :
      RunsTo (vmInstruction {}) (·.pc = vm.pc + BitVec.ofNat 16 words.length) returned vm₂ :=
    .next (hback.pc_ne (by omega) (by omega)) hstep₁
      (.next (hback₁.pc_ne (by omega) (by omega)) hstep₂ (.here (by rw [hend]; exact hback₂.pc)))
  obtain rfl : vm₂ = done := hruns₂.unique hdone
  by_cases htwo : size.toNat ≤ 1
  · have hcount := length_stackPushes size
    rw [hsp₂, hsp₁, hspBack] at hsp
    bv_omega
  · have htop : handler'.sp + 2 ≠ place := by
      have hcount := length_stackPushes size
      change handler'.sp + 2 ≠ handler'.sp + 2 + BitVec.ofNat 16 (size.toNat - 1)
      bv_omega
    have hplaceValue : resultOf size returned .stackCall = handler'.ram (handler'.sp + 2) + 1 :=
      Function.update_self _ _ _
    have htopValue : returned.ram returned.sp = handler'.ram (handler'.sp + 2) :=
      Function.update_of_ne htop _ _
    rw [hA₂, hA₁, htopValue, hplaceValue] at hresult
    bv_omega

/-- The words of a `stack-call` and what they push fit into no memory if there are more. -/
theorem keepsConvention_stackCall {size : Word} (hsize : 21844 < size.toNat) :
    KeepsConvention .stackCall size := by
  intro host vm call words hwords henters
  have hne : size ≠ 0xFFFF := by
    rintro rfl
    exact absurd hwords nofun
  obtain rfl := Option.some.inj ((generateCcstackcall_eq hne).symm.trans hwords)
  have hfits := henters.fits (by simp)
  have hcount := length_flatten_stackPushes size
  simp only [callDepth, List.length_append, List.length_cons, List.length_nil] at hfits
  omega

/-- **The conventions that are kept** for a size: the two that pass arguments in registers, and
`stack-call` only where no call of the size fits into the memory. -/
theorem keepsConvention_iff (conv : CallConvention) (size : Word) :
    KeepsConvention conv size ↔ (conv = .stackCall → 21844 < size.toNat) := by
  constructor
  · rintro hkeeps rfl
    exact not_le.mp fun hsize => not_keepsConvention_stackCall hsize hkeeps
  · intro h
    cases conv with
    | stackCall => exact keepsConvention_stackCall (h rfl)
    | registerCall => exact keepsConvention_registerCall size
    | registerDirect => exact keepsConvention_registerDirect size

/-- A `stack-call` with one argument leaves the stack pointer two words too low. -/
theorem not_forall_keepsConvention :
    ¬ ∀ (conv : CallConvention) (size : Word), KeepsConvention conv size :=
  fun h => not_keepsConvention_stackCall (by decide) (h .stackCall 1)

end DcpuToolchain
