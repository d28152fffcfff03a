import DcpuToolchain.Lib.FiniteWalk
import DcpuToolchain.Vm.Skip

/-!
# An interrupt in front of a skipped instruction

An interrupt may arrive between a failed conditional and the instruction it skips.
`vm_interrupt` then walks over what is to be skipped, clears the flag, and enters the
handler – but the address it saves is the one it was called at, in front of what it
walked over. This file compares the machine that returns from a handler consisting
of a lone `RFI` with the machine that was left to finish its skip.

* `DcpuToolchain.vmSkipLoop_some`: the walk of `vm_interrupt` ends as soon as there is
  an instruction to end it at – within as many turns as there are addresses;
* `DcpuToolchain.skipRun_of_skipTo` and `DcpuToolchain.skipTo_of_skipRun`: the machine that
  is left alone follows the relation `DcpuToolchain.SkipTo`;
* `DcpuToolchain.vmInterrupt_rfi`: what the handler returns to;
* `DcpuToolchain.resumesSkipped_iff`: the two agree only if nothing was pending, or the
  skip goes once round the memory.
-/

namespace DcpuToolchain

/-! ### What is walked over -/

/-- How many words after the instruction word a cycle under the skip flag walks over. -/
def skipWalk : Inst → ℕ
  | .basic op b a => basicWalk op b a
  | .nonbasic op a => nonbasicWalk op a
  | .invalid => 0

/-- The address after the instruction at `p`, as a skipping cycle sees it. -/
def skipNext (ram : Word → Word) (p : Word) : Word :=
  p + BitVec.ofNat 16 (1 + skipWalk (decode (ram p)))

/-- The instructions a pending skip may end with: valid ones that are neither
conditionals nor `INT`, which is not skipped. -/
def SkipEnds (ram : Word → Word) (p : Word) : Prop :=
  decode (ram p) ≠ .invalid ∧ (∀ a, decode (ram p) ≠ .nonbasic .int a) ∧
    (decode (ram p)).isIf = false

/-- A skip pending at an address goes over a chain of conditionals and one instruction
more, and ends where the second address is. -/
inductive SkipTo (ram : Word → Word) : Word → Word → Prop
  | last {p : Word} (h : SkipEnds ram p) : SkipTo ram p (skipNext ram p)
  | cons {p q : Word} (h : (decode (ram p)).isIf = true) (ht : SkipTo ram (skipNext ram p) q) :
      SkipTo ram p q

/-- The first instruction of the chain that is not a conditional is found after some
number of steps. -/
theorem SkipTo.exists_iterate {ram : Word → Word} {p q : Word} (h : SkipTo ram p q) :
    ∃ n, (decode (ram ((skipNext ram)^[n] p))).isIf = false := by
  induction h with
  | last h => exact ⟨0, h.2.2⟩
  | cons h ht ih =>
    obtain ⟨n, hn⟩ := ih
    exact ⟨n + 1, hn⟩

/-! ### The walk of `vm_interrupt` -/

instance : Fintype Word := Fintype.ofEquiv (Fin (2 ^ 16)) BitVec.equivFin.toEquiv.symm

theorem card_word : Fintype.card Word = 0x10000 := by
  rw [Fintype.card_congr (BitVec.equivFin.toEquiv : Word ≃ Fin (2 ^ 16)), Fintype.card_fin]
  rfl

/-- How many words a turn of the loop walks over. -/
def turnWalk (w : Word) : ℕ :=
  1 + (operand (instructionGetA w)).hasNext.toNat + (operand (instructionGetB w)).hasNext.toNat

/-- A turn of the loop under the skip flag only moves on. -/
theorem vmSkipTurn_skip {vm : Vm} (h : vm.skip = true) :
    ∃ s, vmSkipTurn vm =
      ((decode (vm.ram vm.pc)).isIf, vm.advance (turnWalk (vm.ram vm.pc)) s) := by
  have hs : ∀ n s, (vm.advance n s).skip = true := fun _ _ => h
  set a := operand (instructionGetA (vm.ram vm.pc)) with ha
  set b := operand (instructionGetB (vm.ram vm.pc)) with hb
  obtain ⟨w, hw⟩ := vmResolveValue_skip (hs 1 0) a .a
  obtain ⟨w', hw'⟩ := vmResolveValue_skip (hs (1 + a.hasNext.toNat) (0 + a.nextCycle)) b .b
  rw [Vm.advance_advance] at hw hw'
  refine ⟨0 + a.nextCycle + b.nextCycle + 1, ?_⟩
  rw [decode_isIf]
  simp only [vmSkipTurn, vmConsumeWord_eq, ← ha, ← hb, hw, hw', Vm.sleep_eq, Vm.advance_advance]
  cases basicOp (instructionGetOp (vm.ram vm.pc)) <;> rfl

/-- Over a conditional the loop goes as a skipping cycle does. -/
theorem turnWalk_isIf {w : Word} (h : (decode w).isIf = true) :
    turnWalk w = 1 + skipWalk (decode w) := by
  rcases hd : decode w with ⟨op, b, a⟩ | ⟨op, a⟩ | _
  · obtain ⟨-, -, rfl, rfl⟩ := decode_basic hd
    have hop : op.isIf = true := by rw [hd] at h; exact h
    simp only [turnWalk, skipWalk, basicWalk, hop, if_true]
    omega
  · rw [hd] at h
    exact Bool.noConfusion h
  · rw [hd] at h
    exact Bool.noConfusion h

/-- **The loop ends** at the first instruction that is not a conditional. -/
theorem vmSkipLoop_some {vm : Vm} (h : vm.skip = true) {n fuel : ℕ} (hn : n < fuel)
    (hlast : (decode (vm.ram ((skipNext vm.ram)^[n] vm.pc))).isIf = false) :
    ∃ k s, vmSkipLoop fuel vm = some (vm.advance k s) := by
  induction fuel generalizing vm n with
  | zero => omega
  | succ fuel ih =>
    obtain ⟨s, hturn⟩ := vmSkipTurn_skip h
    simp only [vmSkipLoop, hturn]
    cases hif : (decode (vm.ram vm.pc)).isIf with
    | false => exact ⟨_, s, rfl⟩
    | true =>
      cases n with
      | zero => exact absurd (hlast.symm.trans hif) Bool.false_ne_true
      | succ n =>
        have hnext : (vm.advance (turnWalk (vm.ram vm.pc)) s).pc = skipNext vm.ram vm.pc := by
          rw [Vm.advance_pc, turnWalk_isIf hif]
          rfl
        obtain ⟨k', s', hloop⟩ := ih ((vm.advance_skip _ s).trans h) (Nat.lt_of_succ_lt_succ hn)
          (by rw [hnext]; exact hlast)
        exact ⟨_, s + s', by rw [if_pos rfl, hloop, Vm.advance_advance]⟩

/-- The loop only moves on. -/
theorem vmSkipLoop_advance {fuel : ℕ} {vm v : Vm} (h : vm.skip = true)
    (hv : vmSkipLoop fuel vm = some v) : ∃ k s, v = vm.advance k s := by
  induction fuel generalizing vm with
  | zero => cases hv
  | succ fuel ih =>
    obtain ⟨s, hturn⟩ := vmSkipTurn_skip h
    simp only [vmSkipLoop, hturn] at hv
    split at hv
    · obtain ⟨k', s', rfl⟩ := ih ((vm.advance_skip _ s).trans h) hv
      exact ⟨_, _, Vm.advance_advance _ _ _ _ _⟩
    · exact ⟨_, s, (Option.some.inj hv).symm⟩

/-- **A pending skip leaves the machine further on, with the flag clear.** -/
theorem vmSkipPending_advance {vm w : Vm} (h : vmSkipPending vm = some w) :
    ∃ k s, w = (vm.advance k s).setSkip false := by
  unfold vmSkipPending at h
  split at h
  · rename_i hs
    obtain ⟨v, hv, rfl⟩ := Option.map_eq_some_iff.mp h
    obtain ⟨k, s, rfl⟩ := vmSkipLoop_advance hs hv
    exact ⟨k, s, rfl⟩
  · rename_i hs
    refine ⟨0, 0, ?_⟩
    rw [← Option.some.inj h, show (0 : Word) = 0#16 from rfl, Vm.advance_zero]
    exact congrArg (fun b => { vm with skip := b }) (Bool.eq_false_of_not_eq_true hs)

/-- A pending skip over a chain that ends is walked over. -/
theorem vmSkipPending_some {vm : Vm}
    (h : vm.skip = false ∨ ∃ q, SkipTo vm.ram vm.pc q) : ∃ w, vmSkipPending vm = some w := by
  unfold vmSkipPending
  cases hs : vm.skip with
  | false => exact ⟨vm, rfl⟩
  | true =>
    obtain ⟨q, hq⟩ := h.resolve_left (by rw [hs]; decide)
    -- The chain has fewer conditionals than there are addresses.
    obtain ⟨n, hn, hlast, -⟩ := FiniteWalk.exists_hit_lt_card (skipNext vm.ram)
      (fun p => (decode (vm.ram p)).isIf = false) vm.pc hq.exists_iterate
    obtain ⟨k, s, hloop⟩ := vmSkipLoop_some hs (card_word ▸ hn) hlast
    exact ⟨_, by rw [if_pos rfl, hloop]; rfl⟩

/-! ### A machine that is left alone -/

/-- Nothing but its program disturbs the machine. -/
structure Calm (vm : Vm) : Prop where
  halted : vm.halted = false
  onFire : vm.onFire = false
  radiation : vm.radiation = false

/-- A run of cycles that ends as soon as no skip is pending. -/
inductive SkipRun (host : Host) : Vm → Vm → Prop
  | done {vm : Vm} (h : vm.skip = false) : SkipRun host vm vm
  | cycle {vm vm' u : Vm} (h : vm.skip = true) (hc : vmCycle host vm = some vm')
      (hr : SkipRun host vm' u) : SkipRun host vm u

/-- The cycle of a calm machine is its instruction. -/
theorem vmCycle_calm {host : Host} (hh : host.hooks = []) {vm : Vm} (hc : Calm vm)
    (hq : vm.queueInterrupts = true ∨ vm.irqCount = 0) (hs : vm.sleepCycles = 0) :
    vmCycle host vm = vmExecute host (vm.advance 1 0) (vm.ram vm.pc) := by
  have hrad : vmRadiate host vm = some vm := by
    rw [vmRadiate, if_neg (by rw [hc.radiation]; decide)]
  rw [vmCycle_awake hh hq hs hc.halted, if_neg (by rw [hc.onFire]; decide),
    vmFetchExecute_eq hrad]

/-- **The skip of an instruction that honours the flag.** -/
theorem vmExecute_skip {vm : Vm} (h : vm.skip = true) (host : Host) {w : Word}
    (hv : decode w ≠ .invalid) (hint : ∀ a, decode w ≠ .nonbasic .int a) :
    SkippedTo vm (skipWalk (decode w)) (decode w).isIf (vmExecute host vm w) := by
  unfold vmExecute
  rcases hd : decode w with ⟨op, b, a⟩ | ⟨op, a⟩ | _
  · exact vmExecuteBasic_skip h host op b a
  · exact vmExecuteNonbasic_skip h host (fun hop => hint a (by rw [hd, hop])) a
  · exact absurd hd hv

/-- A cycle of a calm machine under the skip flag. -/
theorem vmCycle_skip {host : Host} (hh : host.hooks = []) {vm : Vm} (hc : Calm vm)
    (hq : vm.irqCount = 0) (hs : vm.sleepCycles = 0) (h : vm.skip = true)
    (hv : decode (vm.ram vm.pc) ≠ .invalid) (hint : ∀ a, decode (vm.ram vm.pc) ≠ .nonbasic .int a) :
    ∃ n s, vmCycle host vm =
        some ((vm.advance n s).setSkip (decode (vm.ram vm.pc)).isIf) ∧
      vm.pc + BitVec.ofNat 16 n = skipNext vm.ram vm.pc := by
  obtain ⟨s, hr⟩ := vmExecute_skip ((vm.advance_skip 1 0).trans h) host hv hint
  refine ⟨1 + skipWalk (decode (vm.ram vm.pc)), 0 + s, ?_, rfl⟩
  rw [vmCycle_calm hh hc (Or.inr hq) hs, hr, Vm.advance_advance]

/-- Sleeping comes before skipping. -/
theorem SkipRun.of_awake {host : Host} {vm u : Vm} (hs : vm.skip = true)
    (h : SkipRun host (vm.setSleepCycles 0) u) : SkipRun host vm u := by
  obtain ⟨n, hn⟩ : ∃ n, vm.sleepCycles.toNat = n := ⟨_, rfl⟩
  induction n generalizing vm with
  | zero =>
    have h0 : vm.sleepCycles = 0 := BitVec.eq_of_toNat_eq hn
    rw [← h0] at h
    exact h
  | succ n ih =>
    have h0 : vm.sleepCycles ≠ 0 := fun h => by rw [h] at hn; cases hn
    refine .cycle hs (vmCycle_asleep host h0) (ih hs h ?_)
    rw [Vm.setSleepCycles_sleepCycles]
    bv_omega

theorem SameBut.trans {u v w : Vm} (h : SameBut u v) (h' : SameBut v w) : SameBut u w :=
  ⟨h'.registers.trans h.registers, h'.sp.trans h.sp, h'.ex.trans h.ex, h'.ia.trans h.ia,
    h'.ram.trans h.ram, h'.irq.trans h.irq, h'.irqCount.trans h.irqCount,
    h'.queueInterrupts.trans h.queueInterrupts, h'.halted.trans h.halted⟩

/-- One skipped instruction, with the sleep before it. -/
theorem skipRun_step {host : Host} (hh : host.hooks = []) {vm : Vm} (hc : Calm vm)
    (hq : vm.irqCount = 0) (hs : vm.skip = true) (hv : decode (vm.ram vm.pc) ≠ .invalid)
    (hint : ∀ a, decode (vm.ram vm.pc) ≠ .nonbasic .int a) :
    ∃ v, (∀ u, SkipRun host v u → SkipRun host vm u) ∧ SameBut vm v ∧ Calm v ∧
      v.pc = skipNext vm.ram vm.pc ∧ v.skip = (decode (vm.ram vm.pc)).isIf := by
  have hc₀ : Calm (vm.setSleepCycles 0) := ⟨hc.halted, hc.onFire, hc.radiation⟩
  obtain ⟨n, s, hcyc, hn⟩ := vmCycle_skip hh hc₀ hq rfl hs hv hint
  exact ⟨_, fun u hu => .of_awake hs (.cycle hs hcyc hu),
    ⟨rfl, rfl, rfl, rfl, rfl, rfl, rfl, rfl, rfl⟩, ⟨hc.halted, hc.onFire, hc.radiation⟩, hn, rfl⟩

/-- **A skip that can end does**: the machine goes along the chain, and nothing but `pc`
and the flag changes. -/
theorem skipRun_of_skipTo {host : Host} (hh : host.hooks = []) {ram : Word → Word} {p q : Word}
    (h : SkipTo ram p q) {vm : Vm} (hram : vm.ram = ram) (hpc : vm.pc = p) (hc : Calm vm)
    (hq : vm.irqCount = 0) (hs : vm.skip = true) :
    ∃ u, SkipRun host vm u ∧ SameBut vm u ∧ u.pc = q ∧ u.skip = false := by
  induction h generalizing vm with
  | last hlast =>
    subst hram hpc
    obtain ⟨v, hrun, hsame, -, hvpc, hvs⟩ := skipRun_step hh hc hq hs hlast.1 hlast.2.1
    have hv : v.skip = false := hvs.trans hlast.2.2
    exact ⟨v, hrun v (.done hv), hsame, hvpc, hv⟩
  | cons hif ht ih =>
    subst hram hpc
    have hvalid : decode (vm.ram vm.pc) ≠ .invalid := fun h => by rw [h] at hif; cases hif
    have hint : ∀ a, decode (vm.ram vm.pc) ≠ .nonbasic .int a := fun a h => by
      rw [h] at hif; cases hif
    obtain ⟨v, hrun, hsame, hvc, hvpc, hvs⟩ := skipRun_step hh hc hq hs hvalid hint
    obtain ⟨u, hu, hsame', hupc, hus⟩ := ih hsame.ram hvpc hvc (hsame.irqCount.trans hq)
      (hvs.trans hif)
    exact ⟨u, hrun u hu, hsame.trans hsame', hupc, hus⟩

theorem SkipRun.eq_of_not_skip {host : Host} {vm u : Vm} (h : SkipRun host vm u)
    (hs : vm.skip = false) : u = vm := by
  cases h with
  | done => rfl
  | cycle h => exact absurd (hs.symm.trans h) Bool.false_ne_true

/-- A machine that stopped executing never finishes its skip. -/
theorem SkipRun.not_stuck {host : Host} (hh : host.hooks = []) (hm : ScreensOnlyMap host)
    {vm u : Vm} (h : SkipRun host vm u) (hq : vm.irqCount = 0) (hs : vm.skip = true) :
    vm.halted = false ∧ vm.onFire = false := by
  induction h with
  | done h => exact absurd (h.symm.trans hs) Bool.false_ne_true
  | @cycle vm vm' u _ hc _ ih =>
    by_cases h0 : vm.sleepCycles = 0
    · cases hl : vm.halted with
      | true =>
        -- A halted machine stays as it is.
        rw [vmCycle, if_neg (by rw [h0]; decide), vmBegin_idle hh (Or.inr hq), Option.bind_eq_bind,
          Option.bind_some, if_pos hl] at hc
        obtain rfl := Option.some.inj hc
        exact absurd ((ih hq hs).1.symm.trans hl) Bool.false_ne_true
      | false =>
        refine ⟨rfl, Bool.eq_false_of_not_eq_true fun hf => ?_⟩
        rw [vmCycle_awake hh (Or.inr hq) h0 hl, if_pos hf] at hc
        have hfire := vmOpFire_control hh hm hc
        have hf' := (ih (hfire.irqCount.trans hq) (hfire.skip.trans hs)).2
        exact absurd (hf'.symm.trans (hfire.onFire.trans hf)) Bool.false_ne_true
    · rw [vmCycle_asleep host h0] at hc
      obtain rfl := Option.some.inj hc
      exact ih hq hs

/-! ### The handler -/

/-- **A delivered message**: the handler of a machine that has walked over what was to
be skipped. -/
theorem vmInterrupt_deliver {host : Host} (hh : host.hooks = []) {vm : Vm} (hia : vm.ia ≠ 0)
    (hq : vm.queueInterrupts = false) (msg : Word) :
    vmInterrupt host vm msg =
      (vmSkipPending vm).map fun w => (enterHandler w vm.pc msg).log (.delivered msg) := by
  rw [vmInterrupt, if_neg (by rw [hq]; decide), if_neg hia]
  cases vmSkipPending vm with
  | none => rfl
  | some w => exact vmHookFire_nil hh _ _ _

/-- What entering the handler keeps of a machine that has only moved on: the stack is two
words deeper. -/
theorem enterHandler_advance_sp (vm : Vm) (k : ℕ) (s pc msg : Word) :
    (enterHandler ((vm.advance k s).setSkip false) pc msg).sp = vm.sp - 2 := by
  have h : vm.sp - 1 - 1 = vm.sp - 2 := by bv_omega
  exact h

/-- A message raised with the handler ready pushes two words and clears the flag. -/
theorem vmRaise_deliver {host : Host} (hh : host.hooks = []) {vm vm' : Vm} {msg : Word}
    (h : vmRaise host vm msg = some vm') (hia : vm.ia ≠ 0) (hq : vm.queueInterrupts = false) :
    vm'.skip = false ∧ vm'.sp = vm.sp - 2 := by
  have hia' : (vm.log (.raised msg)).ia ≠ 0 := hia
  rw [vmRaise, vmInterrupt_deliver hh hia' hq] at h
  obtain ⟨w, hw, rfl⟩ := Option.map_eq_some_iff.mp h
  obtain ⟨k, t, rfl⟩ := vmSkipPending_advance hw
  exact ⟨rfl, enterHandler_advance_sp vm k t vm.pc msg⟩

/-- **The run of a skip follows the chain**, or ends in the handler of an `INT`, with two
words pushed. -/
theorem skipTo_of_skipRun {host : Host} (hh : host.hooks = []) (hm : ScreensOnlyMap host)
    {vm u : Vm} (h : SkipRun host vm u) (hc : Calm vm) (hq : vm.irqCount = 0)
    (hqu : vm.queueInterrupts = false) (hia : vm.ia ≠ 0) (hs : vm.skip = true) :
    (u.sp = vm.sp ∧ SkipTo vm.ram vm.pc u.pc) ∨ u.sp = vm.sp - 2 := by
  induction h with
  | done h => exact absurd (h.symm.trans hs) Bool.false_ne_true
  | @cycle vm vm' u _ hcyc hr ih =>
    by_cases h0 : vm.sleepCycles = 0
    · by_cases hv : decode (vm.ram vm.pc) = .invalid
      · -- An invalid instruction burns or halts the machine.
        rw [vmCycle_calm hh hc (Or.inr hq) h0, vmExecute, hv] at hcyc
        obtain rfl := Option.some.inj hcyc
        unfold vmInvalid at hr
        split at hr
        · exact absurd (hr.not_stuck hh hm hq hs).2 Bool.noConfusion
        · exact absurd (hr.not_stuck hh hm hq hs).1 Bool.noConfusion
      · by_cases hint : ∃ a, decode (vm.ram vm.pc) = .nonbasic .int a
        · -- `INT` enters its handler and clears the flag.
          obtain ⟨a, ha⟩ := hint
          obtain ⟨s, msg, hraise⟩ := vmExecuteNonbasic_int ((vm.advance_skip 1 0).trans hs) host a
          rw [vmCycle_calm hh hc (Or.inr hq) h0, vmExecute, ha] at hcyc
          obtain ⟨hs', hsp'⟩ := vmRaise_deliver hh (hraise.symm.trans hcyc) hia hqu
          rw [hr.eq_of_not_skip hs']
          exact Or.inr hsp'
        · rw [not_exists] at hint
          obtain ⟨n, s, hcyc', hn⟩ := vmCycle_skip hh hc hq h0 hs hv hint
          obtain rfl := Option.some.inj (hcyc'.symm.trans hcyc)
          cases hif : (decode (vm.ram vm.pc)).isIf with
          | true =>
            refine (ih ⟨hc.halted, hc.onFire, hc.radiation⟩ hq hqu hia hif).imp_left ?_
            rintro ⟨hsp, ht⟩
            refine ⟨hsp, .cons hif ?_⟩
            rw [← hn]
            exact ht
          | false =>
            rw [hr.eq_of_not_skip hif]
            have hlast := SkipTo.last ⟨hv, hint, hif⟩
            rw [← hn] at hlast
            exact Or.inl ⟨rfl, hlast⟩
    · rw [vmCycle_asleep host h0] at hcyc
      obtain rfl := Option.some.inj hcyc
      exact ih ⟨hc.halted, hc.onFire, hc.radiation⟩ hq hqu hia hs

/-! ### The return -/

/-- What reading an operand other than a `POP` leaves alone. -/
theorem vmResolveValue_sameBut (vm : Vm) {val : Operand} (h : val ≠ .pushPop) (pos : Pos) :
    SameBut vm (vmResolveValue vm val pos).2 ∧ (vmResolveValue vm val pos).2.skip = vm.skip := by
  cases val with
  | pushPop => exact absurd rfl h
  | _ => exact ⟨⟨rfl, rfl, rfl, rfl, rfl, rfl, rfl, rfl, rfl⟩, rfl⟩

/-- What `RFI` makes of a machine: the two words on top of the stack go to `A` and to
`pc`. -/
structure Returned (vm r : Vm) : Prop where
  registers : r.registers = Function.update vm.registers 0 (vm.ram vm.sp)
  pc : r.pc = vm.ram (vm.sp + 1)
  sp : r.sp = vm.sp + 2
  ex : r.ex = vm.ex
  ia : r.ia = vm.ia
  skip : r.skip = false
  ram : r.ram = vm.ram

theorem vmOpRfi_returned {vm : Vm} (hs : vm.skip = false) {a : Operand} (ha : a ≠ .pushPop) :
    ∃ r, vmOpRfi vm a = some r ∧ Returned vm r := by
  obtain ⟨hsame, hskip⟩ := vmResolveValue_sameBut vm ha .a
  have hskip' : (opNumCycles 3 (vmResolveValue vm a .a).2).skip = false := hskip.trans hs
  simp only [vmOpRfi, hskip', Bool.false_eq_true, if_false]
  refine ⟨_, rfl, ?_⟩
  have h2 : vm.sp + 1#16 + 1#16 = vm.sp + 2 := by bv_omega
  constructor <;>
    simp [opNumCycles, hsame.registers, hsame.sp, hsame.ex, hsame.ia, hsame.ram, hskip, hs, h2]

/-- An `RFI` that pops its operand takes three words off the stack. -/
theorem vmOpRfi_pop {vm : Vm} (hs : vm.skip = false) :
    ∃ r, vmOpRfi vm .pushPop = some r ∧ r.sp = vm.sp + 3 := by
  have h3 : vm.sp + 1 + 1 + 1 = vm.sp + 3 := by bv_omega
  exact ⟨_, by simp [vmOpRfi, vmResolveValue, hs, opNumCycles]; rfl, h3⟩

/-- The machine after a message has been delivered and the handler's first instruction
executed. -/
def ReturnsTo (host : Host) (vm : Vm) (msg : Word) (r : Vm) : Prop :=
  ∃ d, vmInterrupt host vm msg = some d ∧
    vmRun (List.replicate (d.sleepCycles.toNat + 1) host) d = some r

/-- The run of the handler's first instruction, with the sleep before it. -/
theorem vmRun_handler {host : Host} (hh : host.hooks = []) {d : Vm} (hc : Calm d)
    (hq : d.queueInterrupts = true) :
    vmRun (List.replicate (d.sleepCycles.toNat + 1) host) d =
      vmExecute host ((d.setSleepCycles 0).advance 1 0) (d.ram d.pc) := by
  have hc₀ : Calm (d.setSleepCycles 0) := ⟨hc.halted, hc.onFire, hc.radiation⟩
  rw [List.replicate_succ', vmRun_append, vmRun_asleep, Option.bind_some, vmRun_cons,
    vmCycle_calm hh hc₀ (Or.inl hq) rfl]
  exact Option.bind_fun_some _

/-- The machine a handler consisting of a lone `RFI` returns to. -/
structure Resumed (vm r : Vm) : Prop where
  registers : r.registers = vm.registers
  pc : r.pc = vm.pc
  sp : r.sp = vm.sp
  ex : r.ex = vm.ex
  ia : r.ia = vm.ia
  skip : r.skip = false
  ram : ∀ addr, addr ≠ vm.sp - 1 → addr ≠ vm.sp - 2 → r.ram addr = vm.ram addr

/-- **A lone `RFI` returns to the address the message was delivered at** – not past what
the delivery walked over. -/
theorem vmInterrupt_rfi {host : Host} (hh : host.hooks = []) {vm w : Vm} {msg : Word}
    {a : Operand} (hc : Calm vm) (hia : vm.ia ≠ 0) (hq : vm.queueInterrupts = false)
    (hrfi : decode ((enterHandler vm vm.pc msg).ram vm.ia) = .nonbasic .rfi a)
    (hw : vmSkipPending vm = some w) :
    (a ≠ .pushPop → ∃ r, ReturnsTo host vm msg r ∧ Resumed vm r) ∧
      (a = .pushPop → ∃ r, ReturnsTo host vm msg r ∧ r.sp = vm.sp + 1) := by
  obtain ⟨k, s, rfl⟩ := vmSkipPending_advance hw
  set d := (enterHandler ((vm.advance k s).setSkip false) vm.pc msg).log (.delivered msg) with hd
  have hdel : vmInterrupt host vm msg = some d := by
    rw [vmInterrupt_deliver hh hia hq, hw]
    rfl
  have hrun : vmRun (List.replicate (d.sleepCycles.toNat + 1) host) d =
      vmOpRfi ((d.setSleepCycles 0).advance 1 0) a := by
    have hc' : Calm d := ⟨hc.halted, hc.onFire, hc.radiation⟩
    have hword : decode (d.ram d.pc) = .nonbasic .rfi a := hrfi
    rw [vmRun_handler hh hc' rfl, vmExecute, hword]
    rfl
  have hsp : d.sp = vm.sp - 2 := enterHandler_advance_sp vm k s vm.pc msg
  have hram : d.ram = Function.update (Function.update vm.ram (vm.sp - 1) vm.pc) (vm.sp - 2)
      (vm.registers 0) := by
    rw [← hsp]
    rfl
  have hregs : d.registers = Function.update vm.registers 0 msg := rfl
  constructor
  · intro ha
    obtain ⟨r, hr, hret⟩ := vmOpRfi_returned
      (show ((d.setSleepCycles 0).advance 1 0).skip = false from rfl) ha
    have hne : vm.sp - 2 + 1 ≠ vm.sp - 2 := by bv_omega
    have htop : vm.sp - 2 + 1 = vm.sp - 1 := by bv_omega
    refine ⟨r, ⟨d, hdel, hrun.trans hr⟩, ?_⟩
    constructor
    · rw [hret.registers]
      simp [hram, hregs, hsp]
    · rw [hret.pc]
      change d.ram (d.sp + 1) = vm.pc
      rw [hsp, hram, Function.update_of_ne hne, htop, Function.update_self]
    · rw [hret.sp]
      exact (congrArg (· + 2) hsp).trans (by bv_omega)
    · exact hret.ex
    · exact hret.ia
    · exact hret.skip
    · intro addr h₁ h₂
      rw [hret.ram]
      change d.ram addr = vm.ram addr
      rw [hram, Function.update_of_ne h₂, Function.update_of_ne h₁]
  · rintro rfl
    obtain ⟨r, hr, hret⟩ := vmOpRfi_pop
      (show ((d.setSleepCycles 0).advance 1 0).skip = false from rfl)
    refine ⟨r, ⟨d, hdel, hrun.trans hr⟩, hret.trans ?_⟩
    exact (congrArg (· + 3) hsp).trans (by bv_omega)

/-! ### Returning against being left alone -/

/-- The two machines agree on everything a program can see but the two words below the
stack. -/
structure SameResumed (top : Word) (r u : Vm) : Prop where
  registers : r.registers = u.registers
  pc : r.pc = u.pc
  sp : r.sp = u.sp
  ex : r.ex = u.ex
  ia : r.ia = u.ia
  skip : r.skip = u.skip
  ram : ∀ addr, addr ≠ top - 1 → addr ≠ top - 2 → r.ram addr = u.ram addr

/-- **Delivering a message and returning is as good as not delivering it**: the machine
that returned is the one whose pending skip ran to its end without the message. -/
def ResumesSkipped (host : Host) (vm : Vm) (msg : Word) : Prop :=
  ∃ r u, ReturnsTo host vm msg r ∧ SkipRun host (vm.setIrqCount 0) u ∧ SameResumed vm.sp r u

theorem ReturnsTo.unique {host : Host} {vm r r' : Vm} {msg : Word} (h : ReturnsTo host vm msg r)
    (h' : ReturnsTo host vm msg r') : r = r' := by
  obtain ⟨d, hd, hr⟩ := h
  obtain ⟨d', hd', hr'⟩ := h'
  obtain rfl := Option.some.inj (hd.symm.trans hd')
  exact Option.some.inj (hr.symm.trans hr')

/-- **A message delivered with a skip pending is not transparent**: the handler returns in
front of what was to be skipped, with the flag clear. It makes no difference only if no
skip was pending, or the skip goes once round the memory and ends where it began. -/
theorem resumesSkipped_iff {host : Host} (hh : host.hooks = []) (hm : ScreensOnlyMap host)
    {vm : Vm} {msg : Word} {a : Operand} (hc : Calm vm) (hia : vm.ia ≠ 0)
    (hq : vm.queueInterrupts = false)
    (hrfi : decode ((enterHandler vm vm.pc msg).ram vm.ia) = .nonbasic .rfi a) :
    ResumesSkipped host vm msg ↔
      a ≠ .pushPop ∧ (vm.skip = false ∨ SkipTo vm.ram vm.pc vm.pc) := by
  have hc₀ : Calm (vm.setIrqCount 0) := ⟨hc.halted, hc.onFire, hc.radiation⟩
  constructor
  · rintro ⟨r, u, hret, hrun, hsame⟩
    obtain ⟨d, hdel, hcyc⟩ := hret
    have hdel' := hdel
    rw [vmInterrupt_deliver hh hia hq] at hdel'
    obtain ⟨w, hw, -⟩ := Option.map_eq_some_iff.mp hdel'
    obtain ⟨hrfi₁, hrfi₂⟩ := vmInterrupt_rfi hh hc hia hq hrfi hw
    -- Where the run without the message leaves the stack.
    have hend : (u.sp = vm.sp ∧ (vm.skip = false ∨ SkipTo vm.ram vm.pc u.pc)) ∨
        u.sp = vm.sp - 2 := by
      cases hs : vm.skip with
      | false => exact Or.inl ⟨by rw [hrun.eq_of_not_skip hs]; rfl, Or.inl rfl⟩
      | true =>
        refine (skipTo_of_skipRun hh hm hrun hc₀ rfl hq hia hs).imp_left ?_
        exact fun ⟨h, ht⟩ => ⟨h, Or.inr ht⟩
    by_cases ha : a = .pushPop
    · obtain ⟨r', hret', hsp⟩ := hrfi₂ ha
      rw [ReturnsTo.unique hret' ⟨d, hdel, hcyc⟩, hsame.sp] at hsp
      exfalso
      rcases hend with ⟨h, -⟩ | h <;> rw [h] at hsp <;> bv_omega
    · obtain ⟨r', hret', hres⟩ := hrfi₁ ha
      rw [ReturnsTo.unique hret' ⟨d, hdel, hcyc⟩] at hres
      have hsp := hres.sp.symm.trans hsame.sp
      have hpc := hres.pc.symm.trans hsame.pc
      refine ⟨ha, ?_⟩
      rcases hend with ⟨-, h⟩ | h
      · rwa [← hpc] at h
      · rw [h] at hsp
        exfalso
        bv_omega
  · rintro ⟨ha, hskip⟩
    obtain ⟨w, hw⟩ := vmSkipPending_some (hskip.imp_right fun h => ⟨_, h⟩)
    obtain ⟨r, hret, hres⟩ := (vmInterrupt_rfi hh hc hia hq hrfi hw).1 ha
    cases hs : vm.skip with
    | false =>
      exact ⟨r, vm.setIrqCount 0, hret, .done hs, hres.registers, hres.pc, hres.sp, hres.ex,
        hres.ia, hres.skip.trans hs.symm, hres.ram⟩
    | true =>
      have ht : SkipTo (vm.setIrqCount 0).ram (vm.setIrqCount 0).pc vm.pc :=
        hskip.resolve_left (by rw [hs]; decide)
      obtain ⟨u, hrun, hsame, hpc, hus⟩ := skipRun_of_skipTo hh ht rfl rfl hc₀ rfl hs
      refine ⟨r, u, hret, hrun, ?_⟩
      exact ⟨hres.registers.trans hsame.registers.symm, hres.pc.trans hpc.symm,
        hres.sp.trans hsame.sp.symm, hres.ex.trans hsame.ex.symm, hres.ia.trans hsame.ia.symm,
        hres.skip.trans hus.symm, fun addr h₁ h₂ => (hres.ram addr h₁ h₂).trans
          (congrFun hsame.ram addr).symm⟩

/-- A machine in front of `SET A, B`, with `RFI 0` for a handler. -/
def rfiMachine (skip : Bool) : Vm :=
  { ram := Function.update (fun _ => instructionCreate 0x01 0x00 0x01) 2
      (instructionCreate 0x00 0x0B 0x21)
    ia := 2
    skip := skip }

/-- Nothing is pending, and the message makes no difference. -/
theorem resumesSkipped_rfiMachine : ResumesSkipped {} (rfiMachine false) 7 :=
  (resumesSkipped_iff rfl (fun _ h => absurd h List.not_mem_nil) ⟨rfl, rfl, rfl⟩ (by decide) rfl
    (show decode ((enterHandler (rfiMachine false) 0 7).ram 2) = .nonbasic .rfi (.lit 0x21) by
      decide)).mpr ⟨by decide, Or.inl rfl⟩

/-- **The handler of a message delivered in front of a skipped `SET A, B` returns to that
instruction**, which is then executed. -/
theorem not_forall_resumesSkipped :
    ¬∀ (host : Host) (vm : Vm) (msg : Word) (a : Operand), host.hooks = [] →
      ScreensOnlyMap host → Calm vm → vm.ia ≠ 0 → vm.queueInterrupts = false →
        decode ((enterHandler vm vm.pc msg).ram vm.ia) = .nonbasic .rfi a → a ≠ .pushPop →
          ResumesSkipped host vm msg := by
  intro h
  have hh : ({} : Host).hooks = [] := rfl
  have hm : ScreensOnlyMap {} := fun _ h => absurd h List.not_mem_nil
  have hc : Calm (rfiMachine true) := ⟨rfl, rfl, rfl⟩
  have hia : (rfiMachine true).ia ≠ 0 := by decide
  have hrfi : decode ((enterHandler (rfiMachine true) (rfiMachine true).pc 7).ram
      (rfiMachine true).ia) = .nonbasic .rfi (.lit 0x21) := by decide
  have hset : decode ((rfiMachine true).ram 0) = .basic .set (.reg 0) (.reg 1) := by decide
  obtain ⟨r, u, hret, hrun, hsame⟩ :=
    h {} (rfiMachine true) 7 _ rfl hm hc hia rfl hrfi (by decide)
  have hends : SkipEnds (rfiMachine true).ram (rfiMachine true).pc :=
    ⟨fun h => Inst.noConfusion (hset.symm.trans h), fun _ h => Inst.noConfusion (hset.symm.trans h),
      congrArg Inst.isIf hset⟩
  obtain ⟨w, hw⟩ := vmSkipPending_some (Or.inr ⟨_, .last hends⟩)
  obtain ⟨r', hret', hres⟩ := (vmInterrupt_rfi hh hc hia rfl hrfi hw).1 (by decide)
  rw [hret'.unique hret] at hres
  have hsp : u.sp = (rfiMachine true).sp := hsame.sp.symm.trans hres.sp
  rcases skipTo_of_skipRun rfl hm hrun ⟨rfl, rfl, rfl⟩ rfl rfl hia rfl with ⟨-, ht⟩ | h2
  · -- The skip ends at address `1`, the handler returned to address `0`.
    generalize hpc : u.pc = q at ht
    have h0 : q = 0 := hpc.symm.trans (hsame.pc.symm.trans hres.pc)
    cases ht with
    | last => exact absurd h0 (by decide)
    | cons hif => exact absurd ((congrArg Inst.isIf hset).symm.trans hif) Bool.false_ne_true
  · rw [hsp] at h2
    exact absurd h2 (by decide)

end DcpuToolchain
