import DcpuToolchain.Vm.IrqOrder
import Mathlib.Logic.Relation

/-!
# The interrupt queue

What holds of the queue in every state a machine comes to after `vm_reset`, whatever program
runs, whatever devices are attached and however often hooks call `vm_interrupt`
(`DcpuToolchain.Reached.queue`): at most 255 messages wait, the slots behind them are zero, a
message that finds 255 others halts the machine and leaves the queue as it was, and from one
instruction to the next at most one message is delivered.

A cycle is taken apart into stages, so that an instruction is a step of its own
(`DcpuToolchain.Step`). The last property is an invariant of the steps between two
instructions: the messages delivered, and one more while the queue is open
(`DcpuToolchain.deliveries`), never get more. Only an instruction opens the queue.
-/

namespace DcpuToolchain

/-- `vm_reset`. -/
def vmReset (vm : Vm) (resetMemory : Bool) : Vm :=
  { vm with
    registers := fun _ => 0
    pc := 0
    sp := 0
    ex := 0
    ia := 0
    ram := if resetMemory then fun _ => 0 else vm.ram
    sleepCycles := 0
    dummy := 0
    halted := false
    skip := false
    canFire := false
    onFire := false
    fireCycles := 0
    fireCyclesTarget := 0
    radiation := false
    radiationCycles := 0
    radiationCyclesTarget := 0
    radiationFactor := 1
    queueInterrupts := false
    irqCount := 0
    irq := fun _ => 0 }

/-- `vm_flash`. -/
def vmFlash (vm : Vm) (memory : Word → Word) : Vm := { vmReset vm false with ram := memory }

/-! ### The stages of a cycle -/

/-- What a cycle has done so far. -/
inductive Stage
  | rest | ticked | drained | begun | radiated | executed
  deriving DecidableEq, Repr

/-- `vm_cycle`, step by step. -/
inductive Step (host : Host) : Stage × Vm → Stage × Vm → Prop
  | sleep {vm : Vm} (h : vm.sleepCycles > 0) :
      Step host (.rest, vm) (.rest, vm.setSleepCycles (vm.sleepCycles - 1))
  | tick {vm vm' : Vm} (hawake : ¬vm.sleepCycles > 0) (h : vmTick host vm = some vm') :
      Step host (.rest, vm) (.ticked, vm')
  | drain {vm vm' : Vm} (h : vmDrain host vm = some vm') :
      Step host (.ticked, vm) (.drained, vm')
  | preCycle {vm vm' : Vm} (h : vmHookFire host 0 .onPreCycle vm = some vm') :
      Step host (.drained, vm) (.begun, vm')
  | halt {vm : Vm} (h : vm.halted = true) : Step host (.begun, vm) (.rest, vm)
  | burn {vm vm' : Vm} (hrun : vm.halted = false) (hfire : vm.onFire = true)
      (h : vmOpFire host vm = some vm') : Step host (.begun, vm) (.rest, vm')
  | radiate {vm vm' : Vm} (hrun : vm.halted = false) (hfire : vm.onFire = false)
      (h : vmRadiate host vm = some vm') : Step host (.begun, vm) (.radiated, vm')
  | execute {vm vm' : Vm}
      (h : vmExecute host (vmConsumeWord vm).2 (vmConsumeWord vm).1 = some vm') :
      Step host (.radiated, vm) (.executed, vm')
  | postCycle {vm vm' : Vm} (h : vmHookFire host 0 .onPostCycle vm = some vm') :
      Step host (.executed, vm) (.rest, vm')

/-- **A cycle is a path of steps.** -/
theorem vmCycle_steps {host : Host} {vm vm' : Vm} (h : vmCycle host vm = some vm') :
    Relation.ReflTransGen (Step host) (.rest, vm) (.rest, vm') := by
  unfold vmCycle at h
  split at h
  · rename_i hsleep
    rw [← Option.some.inj h]
    exact .single (.sleep hsleep)
  · rename_i hawake
    obtain ⟨b, hb, h⟩ := Option.bind_eq_some_iff.mp h
    obtain ⟨t, ht, hb⟩ := Option.bind_eq_some_iff.mp hb
    obtain ⟨d, hd, hb⟩ := Option.bind_eq_some_iff.mp hb
    have hbegin : Relation.ReflTransGen (Step host) (.rest, vm) (.begun, b) :=
      ((Relation.ReflTransGen.single (.tick hawake ht)).tail (.drain hd)).tail (.preCycle hb)
    split at h
    · rename_i hhalt
      rw [← Option.some.inj h]
      exact hbegin.tail (.halt hhalt)
    · rename_i hhalt
      have hrun : b.halted = false := by simpa using hhalt
      split at h
      · rename_i hfire
        exact hbegin.tail (.burn hrun hfire h)
      · rename_i hfire
        obtain ⟨e, he, h⟩ := Option.bind_eq_some_iff.mp h
        obtain ⟨r, hr, he⟩ := Option.bind_eq_some_iff.mp he
        have hradiate := Step.radiate hrun (by simpa using hfire) hr
        exact ((hbegin.tail hradiate).tail (.execute he)).tail (.postCycle h)

/-- What happens to a machine: a step of a cycle, or a hook, a device or the program that
drives the machine at work. -/
def Moves (c c' : Stage × Vm) : Prop :=
  ∃ host, Disciplined host ∧ (Step host c c' ∨ c'.1 = c.1 ∧ Raises host c.2 c'.2)

/-- What happens to a machine but for its instructions. -/
def MovesBetween (c c' : Stage × Vm) : Prop :=
  Moves c c' ∧ ¬(c.1 = .radiated ∧ c'.1 = .executed)

/-- **The states a machine comes to** after a reset. -/
def Reached (c : Stage × Vm) : Prop :=
  ∃ vm resetMemory, Relation.ReflTransGen Moves (.rest, vmReset vm resetMemory) c

/-- Runs of cycles come to such states. -/
theorem Reached.of_vmRun {hosts : List Host} (hd : ∀ host ∈ hosts, Disciplined host) {vm vm' : Vm}
    {resetMemory : Bool} (h : vmRun hosts (vmReset vm resetMemory) = some vm') :
    Reached (.rest, vm') := by
  refine ⟨vm, resetMemory, ?_⟩
  generalize vmReset vm resetMemory = start at h
  induction hosts generalizing start with
  | nil => rw [Option.some.inj h]
  | cons host hosts ih =>
    obtain ⟨v, hv, h⟩ := Option.bind_eq_some_iff.mp h
    refine .trans ?_ (ih (fun host' h' => hd host' (List.mem_cons_of_mem _ h')) _ h)
    have hmoves : ∀ c c', Step host c c' → Moves c c' := fun _ _ hstep =>
      ⟨host, hd host List.mem_cons_self, .inl hstep⟩
    exact Relation.ReflTransGen.mono hmoves _ _ (vmCycle_steps hv)

/-! ### The invariants -/

/-- At most 255 messages wait, and the slots behind them are zero. -/
structure Tidy (vm : Vm) : Prop where
  bounded : vm.irqCount ≤ interruptMax
  zero : ∀ i : Fin 256, vm.irqCount ≤ i → vm.irq i = 0

/-- The messages delivered, and the one that an open queue may yet deliver. -/
def deliveries (vm : Vm) : ℕ :=
  (delivered vm.trace).length + if vm.queueInterrupts then 0 else 1

/-- What everything but an instruction does to the queue. -/
structure Serves (vm vm' : Vm) : Prop where
  tidy : Tidy vm → Tidy vm'
  count : deliveries vm' ≤ deliveries vm

theorem Tidy.of_mail {vm vm' : Vm} (h : vm'.mail = vm.mail) (ht : Tidy vm) : Tidy vm' := by
  obtain ⟨hirq, hcount, -, -⟩ := Vm.mail_ext_iff.mp h
  exact ⟨hcount ▸ ht.bounded, hirq ▸ hcount ▸ ht.zero⟩

theorem deliveries_of_mail {vm vm' : Vm} (h : vm'.mail = vm.mail) :
    deliveries vm' = deliveries vm := by
  obtain ⟨-, -, hqueue, htrace⟩ := Vm.mail_ext_iff.mp h
  rw [deliveries, deliveries, hqueue, htrace]

theorem Serves.of_mail {vm vm' : Vm} (h : vm'.mail = vm.mail) : Serves vm vm' :=
  ⟨.of_mail h, (deliveries_of_mail h).le⟩

theorem Serves.trans {u v w : Vm} (h : Serves u v) (h' : Serves v w) : Serves u w :=
  ⟨fun ht => h'.tidy (h.tidy ht), h'.count.trans h.count⟩

/-- A message put behind the others. -/
theorem Tidy.enqueueIrq {vm : Vm} (h : Tidy vm) (hlt : vm.irqCount < interruptMax) (msg : Word) :
    Tidy (vm.enqueueIrq msg) where
  bounded := hlt
  zero := by
    intro i hi
    rw [Vm.enqueueIrq_irqCount] at hi
    have hne : i ≠ Fin.ofNat 256 vm.irqCount := by
      rintro rfl
      rw [Fin.val_ofNat] at hi
      omega
    rw [Vm.enqueueIrq_irq, Function.update_of_ne hne]
    exact h.zero i (Nat.le_of_succ_le hi)

/-- The message in front is taken out, and the others move up. -/
theorem Tidy.dequeueIrq {vm : Vm} (h : Tidy vm) : Tidy vm.dequeueIrq where
  bounded := (Nat.sub_le _ _).trans h.bounded
  zero := by
    intro i hi
    rw [Vm.dequeueIrq_irqCount] at hi
    rw [Vm.dequeueIrq_irq]
    dsimp only
    split
    · rename_i hlt
      refine h.zero _ ?_
      have hval : ((i + 1 : Fin 256) : ℕ) = i + 1 :=
        Fin.val_add_one_of_lt' (Nat.succ_lt_succ hlt)
      rw [hval]
      omega
    · rfl

/-! ### What a message does -/

section Messages

variable {host : Host} {vm vm' : Vm} {msg : Word}

/-- An entry of the history that is no delivery. -/
theorem Serves.log {e : IrqEvent} (he : delivered [e] = []) : Serves vm (vm.log e) := by
  refine ⟨fun h => ⟨h.bounded, h.zero⟩, le_of_eq ?_⟩
  have hdelivered : delivered (vm.log e).trace = delivered vm.trace := by
    rw [Vm.log_trace, delivered, List.filterMap_append]
    exact (congrArg _ he).trans (List.append_nil _)
  rw [deliveries, hdelivered]
  rfl

/-- With the queue shut, a message waits, or is refused. -/
theorem vmInterrupt_serves_shut (hq : vm.queueInterrupts = true)
    (h : vmInterrupt host vm msg = some vm') : vm'.queueInterrupts = true ∧ Serves vm vm' := by
  rcases vmInterrupt_cases h with ⟨-, -, rfl⟩ | ⟨-, hlt, rfl⟩ | ⟨hq', -⟩ | ⟨hq', -⟩
  · exact ⟨hq, (Serves.log (e := .refused msg) rfl).trans (.of_mail (vmHalt_mail _))⟩
  · exact ⟨hq, ⟨fun ht => ht.enqueueIrq hlt msg, le_rfl⟩⟩
  · exact absurd (hq.symm.trans hq') Bool.noConfusion
  · exact absurd (hq.symm.trans hq') Bool.noConfusion

/-- With the queue shut, nothing that hooks and devices do opens it. -/
theorem Raises.serves_shut (h : Raises host vm vm') (hq : vm.queueInterrupts = true) :
    vm'.queueInterrupts = true ∧ Serves vm vm' := by
  induction h with
  | poke h => exact ⟨(Vm.mail_ext_iff.mp h).2.2.1.trans hq, .of_mail h⟩
  | @raise vm vm' msg h =>
    obtain ⟨hq', hserves⟩ := vmInterrupt_serves_shut (by exact hq) h
    exact ⟨hq', (Serves.log (e := .raised msg) rfl).trans hserves⟩
  | trans _ _ ih ih' =>
    obtain ⟨hv, hserves⟩ := ih hq
    obtain ⟨hw, hserves'⟩ := ih' hv
    exact ⟨hw, hserves.trans hserves'⟩

/-- **A message is queued, refused, ignored, or delivered and the queue shut.** -/
theorem vmInterrupt_serves (hd : Disciplined host) (h : vmInterrupt host vm msg = some vm') :
    Serves vm vm' := by
  rcases vmInterrupt_cases h with ⟨hq, -⟩ | ⟨hq, -⟩ | ⟨-, -, rfl⟩ | ⟨hq, -, w, hw, hfire⟩
  · exact (vmInterrupt_serves_shut hq h).2
  · exact (vmInterrupt_serves_shut hq h).2
  · exact .log (e := .ignored msg) rfl
  · obtain ⟨k, s, rfl⟩ := vmSkipPending_advance hw
    refine Serves.trans ?_ ((vmHookFire_raises hd hfire).serves_shut rfl).2
    refine ⟨fun ht => ⟨ht.bounded, ht.zero⟩, le_of_eq ?_⟩
    -- The delivery the open queue allowed is made.
    have htrace : delivered (vm.trace ++ [.delivered msg]) = delivered vm.trace ++ [msg] :=
      List.filterMap_append
    have hdelivered : delivered ((enterHandler ((vm.advance k s).setSkip false) vm.pc msg).log
        (.delivered msg)).trace = delivered vm.trace ++ [msg] := htrace
    rw [deliveries, deliveries, hdelivered, hq, List.length_append]
    rfl

/-- **Whatever hooks and devices do keeps the invariants.** -/
theorem Raises.serves (hd : Disciplined host) (h : Raises host vm vm') : Serves vm vm' := by
  induction h with
  | poke h => exact .of_mail h
  | raise h => exact (Serves.log rfl).trans (vmInterrupt_serves hd h)
  | trans _ _ ih ih' => exact ih.trans ih'

/-- A waiting message that is taken out to be delivered. -/
theorem vmDrain_serves (hd : Disciplined host) (h : vmDrain host vm = some vm') :
    Serves vm vm' := by
  unfold vmDrain at h
  split at h
  · refine .trans ?_ (vmInterrupt_serves hd h)
    exact ⟨Tidy.dequeueIrq, le_rfl⟩
  · rw [Option.some.inj h]
    exact .of_mail rfl

/-- A message that finds 255 others is refused, and the machine halts. -/
theorem vmRaise_full (hq : vm.queueInterrupts = true) (hfull : vm.irqCount = interruptMax)
    (host : Host) (msg : Word) :
    vmRaise host vm msg = some (vmHalt ((vm.log (.raised msg)).log (.refused msg))) := by
  have hq' : (vm.log (.raised msg)).queueInterrupts = true := hq
  have hfull' : (vm.log (.raised msg)).irqCount ≥ interruptMax := hfull.ge
  rw [vmRaise, vmInterrupt, if_pos hq', if_pos hfull']

end Messages

/-! ### Every state -/

section Steps

variable {host : Host} {c c' : Stage × Vm}

/-- The steps between instructions keep the invariants. -/
theorem Step.serves (hd : Disciplined host) (h : Step host c c')
    (hbetween : ¬(c.1 = .radiated ∧ c'.1 = .executed)) : Serves c.2 c'.2 := by
  cases h with
  | sleep => exact .of_mail rfl
  | tick _ h =>
    unfold vmTick at h
    split at h
    · exact (vmHookFire_raises hd h).serves hd
    · exact .of_mail (congrArg Vm.mail (Option.some.inj h).symm)
  | drain h => exact vmDrain_serves hd h
  | preCycle h => exact (vmHookFire_raises hd h).serves hd
  | halt => exact .of_mail rfl
  | burn _ _ h => exact (vmOpFire_raises hd h).serves hd
  | radiate _ _ h => exact (vmRadiate_raises hd h).serves hd
  | execute => exact absurd ⟨rfl, rfl⟩ hbetween
  | postCycle h => exact (vmHookFire_raises hd h).serves hd

/-- An instruction may open the queue, and leaves the rest to hooks and devices. -/
theorem Step.tidy (hd : Disciplined host) (h : Step host c c') (ht : Tidy c.2) : Tidy c'.2 := by
  by_cases hexecute : c.1 = .radiated ∧ c'.1 = .executed
  · cases h with
    | @execute vm vm' h =>
      obtain ⟨v, hraises, hv⟩ := vmExecute_executes hd _ _ _ h
      have hconsumed : (vmConsumeWord vm).2.mail = vm.mail := rfl
      have htidy : Tidy v := (hraises.serves hd).tidy (ht.of_mail hconsumed)
      rcases hv with rfl | ⟨b, rfl⟩
      · exact htidy
      · exact ⟨htidy.bounded, htidy.zero⟩
    | _ => nomatch hexecute.1
  · exact (h.serves hd hexecute).tidy ht

theorem Moves.tidy (h : Moves c c') (ht : Tidy c.2) : Tidy c'.2 := by
  obtain ⟨host, hd, hstep | ⟨-, hraises⟩⟩ := h
  · exact hstep.tidy hd ht
  · exact (hraises.serves hd).tidy ht

theorem MovesBetween.deliveries_le (h : MovesBetween c c') : deliveries c'.2 ≤ deliveries c.2 := by
  obtain ⟨⟨host, hd, hstep | ⟨-, hraises⟩⟩, hbetween⟩ := h
  · exact (hstep.serves hd hbetween).count
  · exact (hraises.serves hd).count

/-- The invariant of all states. -/
theorem Reached.tidy (h : Reached c) : Tidy c.2 := by
  obtain ⟨vm, resetMemory, hmoves⟩ := h
  induction hmoves with
  | refl => exact ⟨Nat.zero_le _, fun _ _ => rfl⟩
  | tail _ h ih => exact h.tidy ih

/-- From one instruction to the next at most one message is delivered. -/
theorem delivered_between (h : Relation.ReflTransGen MovesBetween c c') :
    (delivered c'.2.trace).length ≤ (delivered c.2.trace).length + 1 := by
  have hdeliveries : deliveries c'.2 ≤ deliveries c.2 := by
    induction h with
    | refl => exact le_rfl
    | tail _ h ih => exact h.deliveries_le.trans ih
  rw [deliveries, deliveries] at hdeliveries
  split at hdeliveries <;> split at hdeliveries <;> omega

end Steps

/-- What holds of the queue of a machine. -/
structure QueueHolds (c : Stage × Vm) : Prop where
  bounded : c.2.irqCount ≤ 255
  zero : ∀ i : Fin 256, c.2.irqCount ≤ i → c.2.irq i = 0
  full : c.2.queueInterrupts = true → c.2.irqCount = 255 → ∀ host msg, ∃ vm',
    vmRaise host c.2 msg = some vm' ∧ vm'.halted = true ∧ vm'.irq = c.2.irq ∧
      vm'.irqCount = c.2.irqCount
  once : ∀ c', Relation.ReflTransGen MovesBetween c c' →
    (delivered c'.2.trace).length ≤ (delivered c.2.trace).length + 1

/-- **The queue holds** in every state a machine comes to: it has at most 255 messages, zeros
behind them, refuses another, and delivers at most one before the next instruction. -/
theorem Reached.queue {c : Stage × Vm} (h : Reached c) : QueueHolds c where
  bounded := h.tidy.bounded
  zero := h.tidy.zero
  full := fun hq hfull host msg => ⟨_, vmRaise_full hq hfull host msg, rfl, rfl, rfl⟩
  once := fun _ hmoves => delivered_between hmoves

/-- A machine whose program is `IAS 1`, `IAQ 1`, and `INT 1` again and again. -/
def queueingMachine : Vm :=
  { ram := Function.update (Function.update (fun _ => instructionCreate 0x00 0x08 0x22)
      0 (instructionCreate 0x00 0x0A 0x22)) 1 (instructionCreate 0x00 0x0C 0x22) }

/-- Two messages wait in it after a while. -/
theorem queue_queueingMachine :
    ∃ vm, vmRun (List.replicate 10 {}) (vmReset queueingMachine false) = some vm ∧
      vm.irqCount = 2 ∧ QueueHolds (.rest, vm) := by
  have hrun : (vmRun (List.replicate 10 {}) (vmReset queueingMachine false)).map Vm.irqCount =
      some 2 := by decide
  obtain ⟨vm, h, hcount⟩ := Option.map_eq_some_iff.mp hrun
  have hreached : Reached (.rest, vm) := by
    refine .of_vmRun (fun host hm => ?_) h
    rw [List.eq_of_mem_replicate hm]
    exact .of_nothing
  exact ⟨vm, h, hcount, hreached.queue⟩

end DcpuToolchain
