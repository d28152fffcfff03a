import DcpuToolchain.Lib.Fifo
import DcpuToolchain.Vm.Deliver

/-!
# The order of interrupts

A message for the guest is delivered at once, or waits in the queue until a cycle
begins with the queue open. The two ways keep the order of the messages only as long
as nothing is delivered at once while something waits.

Between instructions the queue is *settled* – open only if empty – and everything that
happens before and during an instruction keeps it so (`DcpuToolchain.Raises.keeps`).
`RFI` and `IAQ 0` unsettle it: they open it with messages waiting, and a hook that
raises a message before the next cycle drains the queue overtakes them. The theorem
about runs, `DcpuToolchain.vmRun_inOrder`, is therefore about runs in which the 60 Hz
hooks and the post-cycle hooks raise nothing then
(`DcpuToolchain.NoOvertaking`).

The order is stated on the history of the machine: `DcpuToolchain.Ordered` says that
what was raised, delivered and is waiting is the history of a queue.
-/

namespace DcpuToolchain

/-! ### The mail of a machine -/

/-- The messages raised, oldest first. -/
def raised (trace : List IrqEvent) : List Word :=
  trace.filterMap fun | .raised msg => some msg | _ => none

/-- The messages delivered, oldest first. -/
def delivered (trace : List IrqEvent) : List Word :=
  trace.filterMap fun | .delivered msg => some msg | _ => none

/-- Whether the event is the loss of a message: to a full queue, or for want of a
handler. -/
def IrqEvent.isLoss : IrqEvent → Bool
  | .refused _ | .ignored _ => true
  | _ => false

/-- No message met a full queue or a missing handler. -/
def Clean (trace : List IrqEvent) : Prop := ∀ e ∈ trace, e.isLoss = false

instance (trace : List IrqEvent) : Decidable (Clean trace) :=
  inferInstanceAs (Decidable (∀ e ∈ trace, e.isLoss = false))

theorem Clean.of_prefix {t t' : List IrqEvent} (h : Clean t') (hp : t <+: t') : Clean t :=
  fun e he => h e (hp.subset he)

/-- A trace that ends with a loss is not clean. -/
theorem not_clean_append {t : List IrqEvent} {e : IrqEvent} (he : e.isLoss = true) :
    ¬Clean (t ++ [e]) := fun h =>
  Bool.noConfusion (he.symm.trans (h e (List.mem_append_right _ List.mem_cons_self)))

/-- The messages in the queue, oldest first. -/
def waiting (vm : Vm) : List Word :=
  (List.range vm.irqCount).map fun i => vm.irq (Fin.ofNat 256 i)

/-- All that messages are made of. -/
def Vm.mail (vm : Vm) : (Fin 256 → Word) × ℕ × Bool × List IrqEvent :=
  (vm.irq, vm.irqCount, vm.queueInterrupts, vm.trace)

/-- The queue is open only if it is empty. -/
def Settled (vm : Vm) : Prop := vm.queueInterrupts = false → vm.irqCount = 0

/-- **The messages are in order**: what was raised is what was delivered and then what
is waiting. -/
def Ordered (vm : Vm) : Prop :=
  vm.irqCount ≤ interruptMax ∧ ∃ h : Fifo.History Word,
    h.put = raised vm.trace ∧ h.got = delivered vm.trace ∧ h.inside = waiting vm

theorem Vm.mail_ext_iff {vm vm' : Vm} : vm'.mail = vm.mail ↔
    vm'.irq = vm.irq ∧ vm'.irqCount = vm.irqCount ∧
      vm'.queueInterrupts = vm.queueInterrupts ∧ vm'.trace = vm.trace := by
  simp [Vm.mail]

theorem Settled.of_mail {vm vm' : Vm} (h : vm'.mail = vm.mail) (hs : Settled vm) :
    Settled vm' := by
  obtain ⟨-, hc, hq, -⟩ := Vm.mail_ext_iff.mp h
  exact fun hq' => hc.trans (hs (hq.symm.trans hq'))

theorem Ordered.of_mail {vm vm' : Vm} (h : vm'.mail = vm.mail) (ho : Ordered vm) :
    Ordered vm' := by
  obtain ⟨hi, hc, -, ht⟩ := Vm.mail_ext_iff.mp h
  unfold Ordered waiting at ho ⊢
  rw [hi, hc, ht]
  exact ho

/-! ### What one message does -/

/-- A message that finds room in the queue goes to its end. -/
theorem waiting_enqueueIrq {vm : Vm} (h : vm.irqCount < interruptMax) (msg : Word) :
    waiting (vm.enqueueIrq msg) = waiting vm ++ [msg] := by
  have h255 : vm.irqCount < 255 := h
  rw [waiting, Vm.enqueueIrq_irqCount, Vm.enqueueIrq_irq, List.range_succ, List.map_append,
    List.map_singleton, Function.update_self]
  refine congrArg (· ++ [msg]) (List.map_congr_left fun i hi => ?_)
  have hi' := List.mem_range.mp hi
  refine Function.update_of_ne (fun heq => ?_) _ _
  have hval := congrArg Fin.val heq
  simp only [Fin.val_ofNat] at hval
  omega

/-- The message a cycle takes out is the one at the head. -/
theorem waiting_dequeueIrq {vm : Vm} (h : vm.irqCount ≤ interruptMax) (hpos : 0 < vm.irqCount) :
    waiting vm = vm.irq 0 :: waiting vm.dequeueIrq := by
  have h255 : vm.irqCount ≤ 255 := h
  obtain ⟨n, hn⟩ : ∃ n, vm.irqCount = n + 1 := ⟨vm.irqCount - 1, by omega⟩
  rw [waiting, waiting, Vm.dequeueIrq_irqCount, Vm.dequeueIrq_irq, hn, List.range_succ_eq_map,
    List.map_cons, List.map_map]
  refine congrArg (vm.irq 0 :: ·) (List.map_congr_left fun i hi => ?_)
  have hi' := List.mem_range.mp hi
  have hlt : ((Fin.ofNat 256 i : Fin 256) : ℕ) < interruptMax := by
    simp only [Fin.val_ofNat, interruptMax]
    omega
  simp only [Function.comp_apply, if_pos hlt]
  refine congrArg vm.irq (Fin.ext ?_)
  have h1 : ((1 : Fin 256) : ℕ) = 1 := rfl
  simp only [Fin.val_ofNat, Fin.val_add, h1]
  omega

/-- Put together: one machine is a part of the other's past, and leaves the messages in
order if it found them so. -/
structure Keeps (vm vm' : Vm) : Prop where
  trace : vm.trace <+: vm'.trace
  ordered : Clean vm'.trace → Settled vm → Ordered vm → Settled vm' ∧ Ordered vm'

theorem Keeps.of_mail {vm vm' : Vm} (h : vm'.mail = vm.mail) : Keeps vm vm' where
  trace := (Vm.mail_ext_iff.mp h).2.2.2 ▸ List.prefix_rfl
  ordered := fun _ hs ho => ⟨hs.of_mail h, ho.of_mail h⟩

theorem Keeps.trans {u v w : Vm} (h : Keeps u v) (h' : Keeps v w) : Keeps u w where
  trace := h.trace.trans h'.trace
  ordered := fun hc hs ho =>
    have ⟨hs', ho'⟩ := h.ordered (hc.of_prefix h'.trace) hs ho
    h'.ordered hc hs' ho'

/-- A message raised with the queue shut waits, or is refused. -/
theorem vmRaise_shut {host : Host} {vm vm' : Vm} {msg : Word} (hq : vm.queueInterrupts = true)
    (h : vmRaise host vm msg = some vm') : vm'.queueInterrupts = true ∧ Keeps vm vm' := by
  rcases vmInterrupt_cases h with ⟨-, -, rfl⟩ | ⟨-, hlt, rfl⟩ | ⟨hq', -⟩ | ⟨hq', -⟩
  · refine ⟨hq, ⟨?_, fun hc => ?_⟩⟩
    · exact ((List.prefix_append _ _).trans (List.prefix_append _ _))
    · exact absurd hc (not_clean_append rfl)
  · refine ⟨hq, ⟨List.prefix_append _ _, fun hc _ ho => ⟨fun hq' => ?_, ?_⟩⟩⟩
    · exact absurd (hq.symm.trans hq') Bool.noConfusion
    · obtain ⟨hmax, hist, hput, hgot, hin⟩ := ho
      have hlt' : vm.irqCount < interruptMax := hlt
      refine ⟨hlt', hist.enqueue msg, ?_, ?_, ?_⟩
      · simp [hput, raised]
      · simp [hgot, delivered]
      · simp only [Fifo.History.enqueue_inside, hin]
        exact (waiting_enqueueIrq hlt msg).symm
  · exact absurd (hq.symm.trans hq') Bool.noConfusion
  · exact absurd (hq.symm.trans hq') Bool.noConfusion

/-! ### What hooks and devices do -/

/-- What a hook or a device may do to the machine: anything that leaves the mail alone, and
raise messages. -/
inductive Raises (host : Host) : Vm → Vm → Prop
  | poke {vm vm' : Vm} (h : vm'.mail = vm.mail) : Raises host vm vm'
  | raise {vm vm' : Vm} {msg : Word} (h : vmRaise host vm msg = some vm') : Raises host vm vm'
  | trans {u v w : Vm} (h : Raises host u v) (h' : Raises host v w) : Raises host u w

/-- A poke may come first. -/
theorem Raises.of_poked {host : Host} {u v w : Vm} (h : Raises host v w) (hp : v.mail = u.mail) :
    Raises host u w :=
  .trans (.poke hp) h

/-- The hooks and the devices leave the queue to `vm_interrupt`. -/
structure Disciplined (host : Host) : Prop where
  hooks : ∀ hook ∈ host.hooks, ∀ pos vm vm', hook.2 pos vm = some vm' → Raises host vm vm'
  devices : ∀ device ∈ host.hwList, ∀ vm vm', device.handler vm = some vm' → Raises host vm vm'

theorem vmHookFire_raises {host : Host} (hd : Disciplined host) {pos : Word} {mode : HookMode}
    {vm vm' : Vm} (h : vmHookFire host pos mode vm = some vm') : Raises host vm vm' := by
  have key : ∀ hooks : List (HookMode × (Word → Vm → Option Vm)), hooks ⊆ host.hooks →
      ∀ vm, hooks.foldlM (fun vm h => if h.1 = mode then h.2 pos vm else some vm) vm = some vm' →
        Raises host vm vm' := by
    intro hooks hsub
    induction hooks with
    | nil =>
      intro vm h
      exact .poke (congrArg Vm.mail (Option.some.inj h).symm)
    | cons hook hooks ih =>
      intro vm h
      rw [List.foldlM_cons] at h
      obtain ⟨v, hv, h⟩ := Option.bind_eq_some_iff.mp h
      refine .trans ?_ (ih (fun _ hm => hsub (List.mem_cons_of_mem _ hm)) v h)
      split at hv
      · exact hd.hooks hook (hsub List.mem_cons_self) pos vm v hv
      · exact .poke (congrArg Vm.mail (Option.some.inj hv).symm)
  exact key host.hooks (List.Subset.refl _) vm h

theorem vmHwInterrupt_raises {host : Host} (hd : Disciplined host) {vm vm' : Vm} {index : Word}
    (h : vmHwInterrupt host vm index = some vm') : Raises host vm vm' := by
  unfold vmHwInterrupt at h
  split at h
  · exact hd.devices _ (List.mem_of_getElem? ‹_›) vm vm' h
  · exact .poke (congrArg Vm.mail (Option.some.inj h).symm)

/-- With the queue shut, whatever is raised waits. -/
theorem Raises.shut {host : Host} {vm vm' : Vm} (h : Raises host vm vm')
    (hq : vm.queueInterrupts = true) : vm'.queueInterrupts = true ∧ Keeps vm vm' := by
  induction h with
  | poke h => exact ⟨(Vm.mail_ext_iff.mp h).2.2.1.trans hq, .of_mail h⟩
  | raise h => exact vmRaise_shut hq h
  | trans _ _ ih ih' =>
    obtain ⟨hv, hk⟩ := ih hq
    obtain ⟨hw, hk'⟩ := ih' hv
    exact ⟨hw, hk.trans hk'⟩

/-- **What an open queue does with a message**: it is ignored, or delivered and the queue
shut. -/
theorem vmInterrupt_open {host : Host} (hd : Disciplined host) {vm vm' : Vm} {msg : Word}
    (hq : vm.queueInterrupts = false) (h : vmInterrupt host vm msg = some vm') :
    vm'.trace = vm.trace ++ [.ignored msg] ∨
      ∃ d : Vm, d.mail = (vm.irq, vm.irqCount, true, vm.trace ++ [.delivered msg]) ∧
        Keeps d vm' := by
  rcases vmInterrupt_cases h with ⟨hq', -⟩ | ⟨hq', -⟩ | ⟨-, -, rfl⟩ | ⟨-, -, w, hw, hfire⟩
  · exact absurd (hq.symm.trans hq') Bool.noConfusion
  · exact absurd (hq.symm.trans hq') Bool.noConfusion
  · exact Or.inl rfl
  · obtain ⟨k, s, rfl⟩ := vmSkipPending_advance hw
    exact Or.inr ⟨_, rfl, ((vmHookFire_raises hd hfire).shut rfl).2⟩

/-- **A message raised with the queue settled keeps the order.** -/
theorem vmRaise_keeps {host : Host} (hd : Disciplined host) {vm vm' : Vm} {msg : Word}
    (h : vmRaise host vm msg = some vm') : Keeps vm vm' := by
  cases hq : vm.queueInterrupts with
  | true => exact (vmRaise_shut hq h).2
  | false =>
    have hq' : (vm.log (.raised msg)).queueInterrupts = false := hq
    rcases vmInterrupt_open hd hq' h with ht | ⟨d, hmail, hk⟩
    · rw [Vm.log_trace] at ht
      refine ⟨by rw [ht, List.append_assoc]; exact List.prefix_append _ _, fun hc => ?_⟩
      exact absurd (ht ▸ hc) (not_clean_append rfl)
    · obtain ⟨hirq, hcount, hshut, htrace⟩ : d.irq = vm.irq ∧ d.irqCount = vm.irqCount ∧
          d.queueInterrupts = true ∧ d.trace = vm.trace ++ [.raised msg] ++ [.delivered msg] := by
        simpa [Vm.mail] using hmail
      refine ⟨?_, fun hc hs ho => hk.ordered hc (fun h => ?_) ?_⟩
      · refine List.IsPrefix.trans ?_ hk.trace
        rw [htrace, List.append_assoc]
        exact List.prefix_append _ _
      · exact absurd (hshut.symm.trans h) Bool.noConfusion
      · -- Nothing is waiting that the message could overtake.
        obtain ⟨hmax, hist, hput, hgot, hin⟩ := ho
        have hempty : hist.inside = [] := by rw [hin, waiting, hs hq]; rfl
        refine ⟨hcount ▸ hmax, hist.pass msg hempty, ?_, ?_, ?_⟩
        · simp [hput, htrace, raised]
        · simp [hgot, htrace, delivered]
        · rw [Fifo.History.pass_inside, waiting, hcount, hs hq]
          rfl

/-- **Whatever hooks and devices do keeps the order**, as long as the queue is settled. -/
theorem Raises.keeps {host : Host} (hd : Disciplined host) {vm vm' : Vm}
    (h : Raises host vm vm') : Keeps vm vm' := by
  induction h with
  | poke h => exact .of_mail h
  | raise h => exact vmRaise_keeps hd h
  | trans _ _ ih ih' => exact ih.trans ih'

/-! ### What an instruction does -/

/-- An instruction raises messages, and then may open or shut the queue. -/
def Executes (host : Host) (vm : Vm) (r : Option Vm) : Prop :=
  ∀ vm', r = some vm' → ∃ v, Raises host vm v ∧ (vm' = v ∨ ∃ b, vm' = v.setQueueInterrupts b)

theorem vmResolveValue_mail (vm : Vm) (val : Operand) (pos : Pos) :
    (vmResolveValue vm val pos).2.mail = vm.mail := by
  cases val with
  | pushPop => cases pos <;> simp only [vmResolveValue] <;> split <;> rfl
  | _ => rfl

theorem vmInternalGetStore_mail (vm : Vm) (loc : Operand) (pos : Pos) :
    (vmInternalGetStore vm loc pos).2.mail = vm.mail := by
  cases hs : vm.skip with
  | true =>
    rw [vmInternalGetStore_skip hs]
    rfl
  | false =>
    simp only [vmInternalGetStore, hs, Bool.false_eq_true, if_false]
    cases loc with
    | pushPop => cases pos <;> rfl
    | _ => rfl

@[simp] theorem Vm.store_mail (vm : Vm) (s : Store) (w : Word) : (vm.store s w).mail = vm.mail := by
  cases s <;> rfl

@[simp] theorem opNumCycles_mail (count : Word) (vm : Vm) : (opNumCycles count vm).mail = vm.mail :=
  rfl

@[simp] theorem Vm.setSkip_mail (vm : Vm) (b : Bool) : (vm.setSkip b).mail = vm.mail := rfl

@[simp] theorem Vm.setEx_mail (vm : Vm) (w : Word) : (vm.setEx w).mail = vm.mail := rfl

@[simp] theorem Vm.setSp_mail (vm : Vm) (w : Word) : (vm.setSp w).mail = vm.mail := rfl

@[simp] theorem Vm.setPc_mail (vm : Vm) (w : Word) : (vm.setPc w).mail = vm.mail := rfl

@[simp] theorem Vm.writeRam_mail (vm : Vm) (addr w : Word) : (vm.writeRam addr w).mail = vm.mail :=
  rfl

@[simp] theorem Vm.writeReg_mail (vm : Vm) (r : Fin 8) (w : Word) :
    (vm.writeReg r w).mail = vm.mail := rfl

@[simp] theorem vmHalt_mail (vm : Vm) : (vmHalt vm).mail = vm.mail := rfl

theorem vmHookFireStore_raises {host : Host} (hd : Disciplined host) {s : Store} {vm vm' : Vm}
    (h : vmHookFireStore host s vm = some vm') : Raises host vm vm' := by
  cases s with
  | ram addr => exact vmHookFire_raises hd h
  | _ => exact .poke (congrArg Vm.mail (Option.some.inj h).symm)

theorem Executes.poke {host : Host} {vm v : Vm} (h : v.mail = vm.mail) :
    Executes host vm (some v) := by
  intro vm' h'
  exact ⟨v, .poke h, Or.inl (Option.some.inj h').symm⟩

theorem Executes.hookFire {host : Host} (hd : Disciplined host) {vm v : Vm}
    (h : v.mail = vm.mail) (s : Store) : Executes host vm (vmHookFireStore host s v) := by
  intro vm' h'
  exact ⟨vm', .trans (.poke h) (vmHookFireStore_raises hd h'), Or.inl rfl⟩

theorem storeOp_executes {host : Host} (hd : Disciplined host) (cycles : Word) (alu : Alu)
    (vm : Vm) (b a : Operand) : Executes host vm (storeOp cycles alu host vm b a) := by
  have hm := (vmInternalGetStore_mail (vmResolveValue vm a .a).2 b .b).trans
    (vmResolveValue_mail vm a .a)
  simp only [storeOp]
  split
  · exact .poke (by simpa using hm)
  · split <;> exact .hookFire hd (by simpa using hm) _

theorem ifOp_executes {host : Host} (test : Word → Word → Bool) (vm : Vm) (b a : Operand) :
    Executes host vm (ifOp test vm b a) := by
  have hm := (vmResolveValue_mail (vmResolveValue vm a .a).2 b .b).trans
    (vmResolveValue_mail vm a .a)
  simp only [ifOp]
  split <;> exact .poke (by simpa using hm)

theorem stepOp_executes {host : Host} (hd : Disciplined host) (delta : Word) (vm : Vm)
    (b a : Operand) : Executes host vm (stepOp delta host vm b a) := by
  have hm := (vmInternalGetStore_mail (vmResolveValue vm a .a).2 b .b).trans
    (vmResolveValue_mail vm a .a)
  simp only [stepOp]
  split
  · exact .poke (by simpa using hm)
  · intro vm' h
    obtain ⟨v, hv, h⟩ := Option.bind_eq_some_iff.mp h
    -- The registers move after the hook has fired.
    refine ⟨vm', ?_, Or.inl rfl⟩
    refine .trans (.poke ?_) (.trans (vmHookFireStore_raises hd hv) (.poke ?_))
    · simpa using hm
    · rw [← Option.some.inj h]
      rfl

theorem vmExecuteBasic_executes {host : Host} (hd : Disciplined host) (op : BasicOp) (vm : Vm)
    (b a : Operand) : Executes host vm (vmExecuteBasic host vm op b a) := by
  rcases vmExecuteBasic_cases op with ⟨-, test, he⟩ | ⟨-, cycles, alu, he⟩ | ⟨-, delta, he⟩
  · simpa only [he] using ifOp_executes test vm b a
  · simpa only [he] using storeOp_executes hd cycles alu vm b a
  · simpa only [he] using stepOp_executes hd delta vm b a

/-- `HWQ` writes registers only, whatever it finds. -/
theorem vmOpHwq_mail {host : Host} {vm vm' : Vm} {a : Operand}
    (h : vmOpHwq host vm a = some vm') : vm'.mail = vm.mail := by
  have hval := vmResolveValue_mail vm a .a
  simp only [vmOpHwq] at h
  generalize vmResolveValue vm a .a = p at h hval
  split_ifs at h
  · rw [← Option.some.inj h]
    simpa using hval
  · split at h <;> rw [← Option.some.inj h] <;> simpa using hval
  · rw [← Option.some.inj h]
    simpa using hval

theorem vmExecuteNonbasic_executes {host : Host} (hd : Disciplined host) (op : NonbasicOp)
    (vm : Vm) (a : Operand) : Executes host vm (vmExecuteNonbasic host vm op a) := by
  have hval := vmResolveValue_mail vm a .a
  have hstore := vmInternalGetStore_mail vm a .a
  cases op with
  | jsr =>
    simp only [vmExecuteNonbasic, vmOpJsr]
    split <;> exact .poke (by simpa using hval)
  | int =>
    intro vm' h
    have hraise : vmRaise host (opNumCycles 4 (vmResolveValue vm a .a).2)
        (vmResolveValue vm a .a).1 = some vm' := h
    exact ⟨vm', .trans (.poke (by simpa using hval)) (.raise hraise), Or.inl rfl⟩
  | iag =>
    simp only [vmExecuteNonbasic, vmOpIag]
    split
    · exact .poke (by simpa using hstore)
    · exact .hookFire hd (by simpa using hstore) _
  | ias =>
    simp only [vmExecuteNonbasic, vmOpIas]
    split
    · exact .poke (by simpa using hval)
    · exact .poke hval
  | rfi =>
    simp only [vmExecuteNonbasic, vmOpRfi]
    split
    · exact .poke (by simpa using hval)
    · intro vm' h
      refine ⟨_, .poke ?_, Or.inr ⟨false, (Option.some.inj h).symm⟩⟩
      exact hval
  | iaq =>
    simp only [vmExecuteNonbasic, vmOpIaq]
    split
    · exact .poke (by simpa using hval)
    · intro vm' h
      refine ⟨_, .poke ?_, Or.inr ⟨_, (Option.some.inj h).symm⟩⟩
      exact hval
  | hwn =>
    simp only [vmExecuteNonbasic, vmOpHwn]
    split
    · exact .poke (by simpa using hstore)
    · intro vm' h
      obtain ⟨v, hv, h⟩ := Option.bind_eq_some_iff.mp h
      refine ⟨vm', ?_, Or.inl rfl⟩
      refine .trans (.poke ?_) (.trans (vmHookFireStore_raises hd hv) (.poke ?_))
      · simpa using hstore
      · rw [← Option.some.inj h]
        rfl
  | hwq => exact fun vm' h => ⟨vm', .poke (vmOpHwq_mail h), Or.inl rfl⟩
  | hwi =>
    simp only [vmExecuteNonbasic, vmOpHwi]
    split
    · exact .poke (by simpa using hval)
    · intro vm' h
      exact ⟨vm', .trans (.poke (by simpa using hval)) (vmHwInterrupt_raises hd h), Or.inl rfl⟩

theorem vmExecute_executes {host : Host} (hd : Disciplined host) (vm : Vm) (w : Word) :
    Executes host vm (vmExecute host vm w) := by
  unfold vmExecute
  split
  · exact vmExecuteBasic_executes hd _ _ _ _
  · exact vmExecuteNonbasic_executes hd _ _ _
  · refine .poke ?_
    unfold vmInvalid
    split <;> rfl

/-! ### Fire and radiation -/

theorem vmFireFill_raises {host : Host} (hd : Disciplined host) (pos : ℕ) (fill : Word) (n : ℕ)
    {vm vm' : Vm} (h : vmFireFill host pos fill n vm = some vm') : Raises host vm vm' := by
  induction n generalizing vm' with
  | zero => exact .poke (congrArg Vm.mail (Option.some.inj h).symm)
  | succ n ih =>
    obtain ⟨w, hw, h⟩ := Option.bind_eq_some_iff.mp h
    exact .trans (ih hw) (.trans (.poke (Vm.writeRam_mail _ _ _)) (vmHookFire_raises hd h))

theorem vmFireBurn_raises {host : Host} (hd : Disciplined host) (pos : ℕ) (rands : List ℕ)
    {vm vm' : Vm} (h : vmFireBurn host pos rands vm = some vm') : Raises host vm vm' := by
  fun_induction vmFireBurn host pos rands vm with
  | case1 pos vm length fill rands hlt ih =>
    obtain ⟨w, hw, h⟩ := Option.bind_eq_some_iff.mp h
    exact .trans (vmFireFill_raises hd _ _ _ hw) (ih w h)
  | case2 => exact .poke (congrArg Vm.mail (Option.some.inj h).symm)
  | case3 => exact .poke (congrArg Vm.mail (Option.some.inj h).symm)

theorem vmFireScreen_raises {host : Host} (hd : Disciplined host) {vm vm' : Vm}
    (h : vmFireScreen host vm = some vm') : Raises host vm vm' := by
  unfold vmFireScreen at h
  split at h
  · exact .poke (congrArg Vm.mail (Option.some.inj h).symm)
  · split at h
    · exact .poke (congrArg Vm.mail (Option.some.inj h).symm)
    · obtain ⟨w, hw, h⟩ := Option.bind_eq_some_iff.mp h
      obtain ⟨w', hw', h⟩ := Option.bind_eq_some_iff.mp h
      have h₁ := (vmHwInterrupt_raises hd hw).of_poked (u := vm) rfl
      have h₂ := (vmHwInterrupt_raises hd hw').of_poked (u := w) rfl
      refine .trans h₁ (.trans h₂ (.poke ?_))
      rw [← Option.some.inj h]
      rfl

theorem vmOpFire_raises {host : Host} (hd : Disciplined host) {vm vm' : Vm}
    (h : vmOpFire host vm = some vm') : Raises host vm vm' := by
  obtain ⟨w, hw, h⟩ := Option.bind_eq_some_iff.mp h
  refine .trans (vmFireScreen_raises hd hw) ?_
  split at h
  · refine .poke ?_
    rw [← Option.some.inj h]
    rfl
  · exact (vmFireBurn_raises hd _ _ h).of_poked rfl

theorem vmRadiate_raises {host : Host} (hd : Disciplined host) {vm vm' : Vm}
    (h : vmRadiate host vm = some vm') : Raises host vm vm' := by
  unfold vmRadiate at h
  split at h
  · unfold vmOpRadiation at h
    split at h
    · refine .poke ?_
      rw [← Option.some.inj h]
      rfl
    · exact (vmHookFire_raises hd h).of_poked rfl
  · exact .poke (congrArg Vm.mail (Option.some.inj h).symm)

/-! ### Cycles and runs -/

/-- The hooks of the mode raise nothing while the queue is open and messages wait. -/
def Quiet (host : Host) (mode : HookMode) (vm : Vm) : Prop :=
  vm.queueInterrupts = false → 0 < vm.irqCount →
    ∀ vm', vmHookFire host 0 mode vm = some vm' → vm'.mail = vm.mail

/-- **Nothing is overtaken** in the cycle: its 60 Hz hooks, which run before the queue is
drained, and its post-cycle hooks, which run after the instruction, raise nothing while
the queue is open and messages wait. -/
structure NoOvertaking (host : Host) (vm : Vm) : Prop where
  tick : vm.sleepCycles = 0 → host.due60Hz = true → Quiet host .on60Hz vm
  postCycle : vm.sleepCycles = 0 → ∀ v w, vmBegin host vm = some v → v.halted = false →
    v.onFire = false → vmFetchExecute host v = some w → Quiet host .onPostCycle w

/-- One machine is a part of the other's past, and leaves the messages in order if it
found them so: `DcpuToolchain.Keeps` without the settled queue. -/
structure Advances (vm vm' : Vm) : Prop where
  trace : vm.trace <+: vm'.trace
  ordered : Clean vm'.trace → Ordered vm → Ordered vm'

theorem Advances.of_mail {vm vm' : Vm} (h : vm'.mail = vm.mail) : Advances vm vm' :=
  ⟨(Keeps.of_mail h).trace, fun _ => Ordered.of_mail h⟩

theorem Advances.trans {u v w : Vm} (h : Advances u v) (h' : Advances v w) : Advances u w :=
  ⟨h.trace.trans h'.trace, fun hc ho => h'.ordered hc (h.ordered (hc.of_prefix h'.trace) ho)⟩

/-- Hooks that raise nothing while messages wait in an open queue keep the order. -/
theorem vmHookFire_advances {host : Host} (hd : Disciplined host) {mode : HookMode} {vm vm' : Vm}
    (hq : Quiet host mode vm) (h : vmHookFire host 0 mode vm = some vm') : Advances vm vm' := by
  by_cases hs : Settled vm
  · have hk := (vmHookFire_raises hd h).keeps hd
    exact ⟨hk.trace, fun hc ho => (hk.ordered hc hs ho).2⟩
  · obtain ⟨hopen, hne⟩ := Classical.not_imp.mp hs
    exact .of_mail (hq hopen (Nat.pos_of_ne_zero hne) vm' h)

/-- **Draining the queue keeps the order and leaves the queue settled**: the message that
waited longest is delivered, and the queue shut. -/
theorem vmDrain_keeps {host : Host} (hd : Disciplined host) {vm vm' : Vm}
    (h : vmDrain host vm = some vm') :
    vm.trace <+: vm'.trace ∧ (Clean vm'.trace → Ordered vm → Settled vm' ∧ Ordered vm') := by
  unfold vmDrain at h
  split at h
  · rename_i hopen
    have hq : vm.dequeueIrq.queueInterrupts = false := by simpa using hopen.1
    rcases vmInterrupt_open hd hq h with ht | ⟨d, hmail, hk⟩
    · rw [Vm.dequeueIrq_trace] at ht
      refine ⟨ht ▸ List.prefix_append _ _, fun hc => ?_⟩
      exact absurd (ht ▸ hc) (not_clean_append rfl)
    · obtain ⟨hirq, hcount, hshut, htrace⟩ : d.irq = vm.dequeueIrq.irq ∧
          d.irqCount = vm.dequeueIrq.irqCount ∧ d.queueInterrupts = true ∧
          d.trace = vm.trace ++ [.delivered (vm.irq 0)] := by
        simpa [Vm.mail] using hmail
      refine ⟨(htrace ▸ List.prefix_append _ _ : vm.trace <+: d.trace).trans hk.trace,
        fun hc ho => hk.ordered hc (fun h => ?_) ?_⟩
      · exact absurd (hshut.symm.trans h) Bool.noConfusion
      · obtain ⟨hmax, hist, hput, hgot, hin⟩ := ho
        rw [waiting_dequeueIrq hmax hopen.2] at hin
        refine ⟨?_, hist.dequeue hin, ?_, ?_, ?_⟩
        · rw [hcount, Vm.dequeueIrq_irqCount]
          omega
        · simp [hput, htrace, raised]
        · simp [hgot, htrace, delivered]
        · rw [Fifo.History.dequeue_inside, waiting, waiting, hirq, hcount]
  · rename_i hopen
    obtain rfl := Option.some.inj h
    refine ⟨List.prefix_rfl, fun _ ho => ⟨fun hq => ?_, ho⟩⟩
    simpa [hq] using hopen

/-- Up to its instruction a cycle keeps the order, and leaves the queue settled. -/
theorem vmBegin_keeps {host : Host} (hd : Disciplined host) {vm vm' : Vm}
    (hq : host.due60Hz = true → Quiet host .on60Hz vm) (h : vmBegin host vm = some vm') :
    vm.trace <+: vm'.trace ∧ (Clean vm'.trace → Ordered vm → Settled vm' ∧ Ordered vm') := by
  obtain ⟨t, ht, h⟩ := Option.bind_eq_some_iff.mp h
  obtain ⟨d, hdr, h⟩ := Option.bind_eq_some_iff.mp h
  have htick : Advances vm t := by
    unfold vmTick at ht
    split at ht
    · rename_i hdue
      exact vmHookFire_advances hd (hq hdue) ht
    · exact .of_mail (congrArg Vm.mail (Option.some.inj ht).symm)
  have hpre := (vmHookFire_raises hd h).keeps hd
  obtain ⟨hdtrace, hdrain⟩ := vmDrain_keeps hd hdr
  refine ⟨htick.trace.trans (hdtrace.trans hpre.trace), fun hc ho => ?_⟩
  have hcd := hc.of_prefix hpre.trace
  obtain ⟨hs', ho'⟩ := hdrain hcd (htick.ordered (hcd.of_prefix hdtrace) ho)
  exact hpre.ordered hc hs' ho'

/-- The instruction of a cycle keeps the order of a settled queue – but may unsettle
it. -/
theorem vmFetchExecute_keeps {host : Host} (hd : Disciplined host) {vm vm' : Vm}
    (h : vmFetchExecute host vm = some vm') :
    vm.trace <+: vm'.trace ∧ (Clean vm'.trace → Settled vm → Ordered vm → Ordered vm') := by
  obtain ⟨r, hr, h⟩ := Option.bind_eq_some_iff.mp h
  obtain ⟨u, hu, hvm'⟩ := vmExecute_executes hd _ _ vm' h
  have hk : Keeps vm u := (Raises.trans (vmRadiate_raises hd hr) (hu.of_poked rfl)).keeps hd
  rcases hvm' with rfl | ⟨b, rfl⟩
  · exact ⟨hk.trace, fun hc hs ho => (hk.ordered hc hs ho).2⟩
  · exact ⟨hk.trace, fun hc hs ho => (hk.ordered hc hs ho).2⟩

/-- **A cycle in which nothing is overtaken keeps the order.** -/
theorem vmCycle_advances {host : Host} (hd : Disciplined host) {vm vm' : Vm}
    (hno : NoOvertaking host vm) (h : vmCycle host vm = some vm') : Advances vm vm' := by
  unfold vmCycle at h
  split at h
  · refine .of_mail ?_
    rw [← Option.some.inj h]
    rfl
  · rename_i hsleep
    have hs0 : vm.sleepCycles = 0 := by bv_omega
    obtain ⟨v, hv, h⟩ := Option.bind_eq_some_iff.mp h
    obtain ⟨hbt, hbegin⟩ := vmBegin_keeps hd (hno.tick hs0) hv
    split at h
    · obtain rfl := Option.some.inj h
      exact ⟨hbt, fun hc ho => (hbegin hc ho).2⟩
    · rename_i hhalt
      split at h
      · have hk := (vmOpFire_raises hd h).keeps hd
        refine ⟨hbt.trans hk.trace, fun hc ho => ?_⟩
        obtain ⟨hs, ho'⟩ := hbegin (hc.of_prefix hk.trace) ho
        exact (hk.ordered hc hs ho').2
      · rename_i hfire
        obtain ⟨w, hw, h⟩ := Option.bind_eq_some_iff.mp h
        obtain ⟨hwt, hexec⟩ := vmFetchExecute_keeps hd hw
        have hpost : Advances w vm' := by
          refine vmHookFire_advances hd ?_ h
          exact hno.postCycle hs0 v w hv (by simpa using hhalt) (by simpa using hfire) hw
        refine ⟨hbt.trans (hwt.trans hpost.trace), fun hc ho => ?_⟩
        have hcw := hc.of_prefix hpost.trace
        obtain ⟨hs, ho'⟩ := hbegin (hcw.of_prefix hwt) ho
        exact hpost.ordered hc (hexec hcw hs ho')

/-- A run in which nothing is overtaken keeps the order. -/
theorem vmRun_advances {hosts : List Host} (hd : ∀ host ∈ hosts, Disciplined host) {vm vm' : Vm}
    (hno : ∀ before host after v, hosts = before ++ host :: after →
      vmRun before vm = some v → NoOvertaking host v)
    (h : vmRun hosts vm = some vm') : Advances vm vm' := by
  induction hosts generalizing vm with
  | nil => exact .of_mail (congrArg Vm.mail (Option.some.inj h).symm)
  | cons host hosts ih =>
    rw [vmRun_cons] at h
    obtain ⟨v, hv, h⟩ := Option.bind_eq_some_iff.mp h
    have hstep := vmCycle_advances (hd host List.mem_cons_self) (hno [] host hosts vm rfl rfl) hv
    refine hstep.trans (ih (fun host' h' => hd host' (List.mem_cons_of_mem _ h')) ?_ h)
    intro before host' after u hsplit hu
    refine hno (host :: before) host' after u (by rw [hsplit]; rfl) ?_
    rw [vmRun_cons, hv]
    exact hu

/-- **Messages are delivered in the order they were raised**, in every run from a machine
with no mail in which no message meets a full queue or a missing handler, and nothing is
overtaken: what was raised is what was delivered, and then what is waiting. -/
theorem vmRun_inOrder {hosts : List Host} (hd : ∀ host ∈ hosts, Disciplined host) {vm vm' : Vm}
    (hstart : vm.irqCount = 0 ∧ vm.trace = [])
    (hno : ∀ before host after v, hosts = before ++ host :: after →
      vmRun before vm = some v → NoOvertaking host v)
    (h : vmRun hosts vm = some vm') (hclean : Clean vm'.trace) :
    delivered vm'.trace <+: raised vm'.trace ∧
      raised vm'.trace = delivered vm'.trace ++ waiting vm' := by
  have hordered : Ordered vm := by
    refine ⟨by rw [hstart.1]; exact Nat.zero_le _, .empty, ?_, ?_, ?_⟩
    · rw [hstart.2]
      rfl
    · rw [hstart.2]
      rfl
    · rw [waiting, hstart.1]
      rfl
  obtain ⟨-, hist, hput, hgot, hin⟩ := (vmRun_advances hd hno h).ordered hclean hordered
  rw [← hput, ← hgot, ← hin]
  exact ⟨hist.got_prefix_put, hist.inOrder⟩

/-! ### Two runs of one program -/

/-- A machine whose program is `INT 1` and whose handler is `INT 2` and then `RFI 0`. -/
def interruptingMachine : Vm :=
  { ram := Function.update (Function.update (Function.update (fun _ => 0)
      0 (instructionCreate 0x00 0x08 0x22)) 1 (instructionCreate 0x00 0x08 0x23))
      2 (instructionCreate 0x00 0x0B 0x21)
    ia := 1 }

theorem Disciplined.of_nothing : Disciplined {} :=
  ⟨fun _ h => absurd h List.not_mem_nil, fun _ h => absurd h List.not_mem_nil⟩

theorem NoOvertaking.of_noHooks {host : Host} (hh : host.hooks = []) (vm : Vm) :
    NoOvertaking host vm := by
  have hquiet : ∀ mode v, Quiet host mode v := by
    intro mode v _ _ v' h
    rw [vmHookFire_nil hh] at h
    exact congrArg Vm.mail (Option.some.inj h).symm
  exact ⟨fun _ _ => hquiet _ _, fun _ _ w _ _ _ _ => hquiet _ w⟩

/-- Left to itself, the machine has delivered the first message and the second waits. -/
theorem vmRun_inOrder_interruptingMachine :
    ∃ vm', vmRun (List.replicate 9 {}) interruptingMachine = some vm' ∧
      delivered vm'.trace <+: raised vm'.trace ∧
      raised vm'.trace = delivered vm'.trace ++ waiting vm' := by
  have hrun : (vmRun (List.replicate 9 {}) interruptingMachine).map Vm.trace =
      some [.raised 1, .delivered 1, .raised 2] := by decide
  obtain ⟨vm', h, htrace⟩ := Option.map_eq_some_iff.mp hrun
  have hhosts : ∀ host ∈ List.replicate 9 ({} : Host), host = {} :=
    fun host hm => List.eq_of_mem_replicate hm
  refine ⟨vm', h, vmRun_inOrder (fun host hm => ?_) ⟨rfl, rfl⟩ ?_ h ?_⟩
  · rw [hhosts host hm]
    exact .of_nothing
  · intro before host after v hsplit _
    rw [hhosts host (hsplit ▸ List.mem_append_right _ List.mem_cons_self)]
    exact .of_noHooks rfl v
  · rw [htrace]
    decide

/-- A host whose post-cycle hook raises a message, as a keyboard's does. -/
def raisingHost : Host := { hooks := [(.onPostCycle, fun _ vm => vmRaise {} vm 3)] }

theorem raisingHost_disciplined : Disciplined raisingHost := by
  refine ⟨fun hook hm pos vm vm' h => ?_, fun _ h => absurd h List.not_mem_nil⟩
  obtain rfl := List.mem_singleton.mp hm
  -- No hook listens to interrupts, so the host makes no difference to `vm_interrupt`.
  exact Raises.raise (show vmRaise raisingHost vm 3 = some vm' from h)

/-- **A message raised right after `RFI` overtakes the one that waits**: the second and the
third message are raised in this order, and the third is delivered. -/
theorem not_forall_vmRun_inOrder :
    ¬∀ (hosts : List Host) (vm vm' : Vm), (∀ host ∈ hosts, Disciplined host) →
      vm.irqCount = 0 ∧ vm.trace = [] → vmRun hosts vm = some vm' → Clean vm'.trace →
        delivered vm'.trace <+: raised vm'.trace := by
  intro h
  have hrun :
      (vmRun (List.replicate 8 ({} : Host) ++ [raisingHost]) interruptingMachine).map Vm.trace =
      some [.raised 1, .delivered 1, .raised 2, .raised 3, .delivered 3] := by decide
  obtain ⟨vm', hvm', htrace⟩ := Option.map_eq_some_iff.mp hrun
  have hprefix := h _ _ vm' (fun host hm => ?_) ⟨rfl, rfl⟩ hvm' (by rw [htrace]; decide)
  · rw [htrace] at hprefix
    exact absurd hprefix (by decide)
  · rcases List.mem_append.mp hm with hm | hm
    · rw [List.eq_of_mem_replicate hm]
      exact .of_nothing
    · rw [List.mem_singleton.mp hm]
      exact raisingHost_disciplined

end DcpuToolchain
