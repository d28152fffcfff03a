import DcpuToolchain.Vm.Deliver

/-!
# Does `vm_interrupt` return?

The loop of `vm_interrupt` that walks over a pending skip has no bound of its own. It ends at the
first instruction that is not a conditional, and where it goes depends on the memory only. In a
memory whose instructions from `pc` on are conditionals all the way round it never ends, with any
number of turns (`DcpuToolchain.vmSkipLoop_none`), and so `vm_interrupt` does not return
(`DcpuToolchain.vmInterrupt_returns_iff`).
-/

namespace DcpuToolchain

/-- Some instruction of the chain that a pending skip goes along is not a conditional. -/
def ChainEnds (vm : Vm) : Prop :=
  ∃ n, (decode (vm.ram ((skipNext vm.ram)^[n] vm.pc))).isIf = false

/-- **A chain of conditionals that has no end** keeps the loop going, whatever its fuel. -/
theorem vmSkipLoop_none {vm : Vm} (hskip : vm.skip = true) (h : ¬ ChainEnds vm) (fuel : ℕ) :
    vmSkipLoop fuel vm = none := by
  induction fuel generalizing vm with
  | zero => rfl
  | succ fuel ih =>
    obtain ⟨s, hturn⟩ := vmSkipTurn_skip hskip
    have hif : (decode (vm.ram vm.pc)).isIf = true :=
      Bool.eq_true_of_not_eq_false fun hif => h ⟨0, hif⟩
    have hnext : (vm.advance (turnWalk (vm.ram vm.pc)) s).pc = skipNext vm.ram vm.pc := by
      rw [Vm.advance_pc, turnWalk_isIf hif]
      rfl
    simp only [vmSkipLoop, hturn, hif, if_true]
    refine ih ((vm.advance_skip _ s).trans hskip) ?_
    rintro ⟨n, hn⟩
    rw [hnext] at hn
    exact h ⟨n + 1, hn⟩

/-- **The loop ends just where the chain does**, and then within as many turns as there are
addresses. -/
theorem vmSkipLoop_ends_iff {vm : Vm} (hskip : vm.skip = true) :
    ((∃ fuel w, vmSkipLoop fuel vm = some w) ↔ ChainEnds vm) ∧
      ((∃ w, vmSkipLoop 0x10000 vm = some w) ↔ ChainEnds vm) := by
  have hends : ChainEnds vm → ∃ w, vmSkipLoop 0x10000 vm = some w := by
    intro h
    obtain ⟨n, hn, hlast, -⟩ := FiniteWalk.exists_hit_lt_card (skipNext vm.ram)
      (fun p => (decode (vm.ram p)).isIf = false) vm.pc h
    obtain ⟨k, s, hloop⟩ := vmSkipLoop_some hskip (card_word ▸ hn) hlast
    exact ⟨_, hloop⟩
  have hchain : ∀ fuel w, vmSkipLoop fuel vm = some w → ChainEnds vm := by
    intro fuel w hloop
    by_contra h
    rw [vmSkipLoop_none hskip h] at hloop
    cases hloop
  exact ⟨⟨fun ⟨fuel, w, hw⟩ => hchain fuel w hw, fun h => ⟨_, hends h⟩⟩,
    fun ⟨w, hw⟩ => hchain _ w hw, hends⟩

/-- The hooks on the delivery of an interrupt return. -/
def InterruptHooksReturn (host : Host) : Prop :=
  ∀ pos vm, ∃ r, vmHookFire host pos .onInterrupt vm = some r

/-- **When `vm_interrupt` returns**: the message is queued or ignored, no skip is pending, or the
chain that is pending ends; and its loop ends just where the chain does. -/
theorem vmInterrupt_returns_iff {host : Host} (hhooks : InterruptHooksReturn host) (vm : Vm)
    (msg : Word) :
    ((∃ r, vmInterrupt host vm msg = some r) ↔
      vm.queueInterrupts = true ∨ vm.ia = 0 ∨ vm.skip = false ∨ ChainEnds vm) ∧
    (vm.skip = true → ((∃ fuel w, vmSkipLoop fuel vm = some w) ↔ ChainEnds vm)) := by
  refine ⟨?_, fun hskip => (vmSkipLoop_ends_iff hskip).1⟩
  unfold vmInterrupt
  split
  · rename_i hqueue
    refine iff_of_true ?_ (.inl hqueue)
    split <;> exact ⟨_, rfl⟩
  · rename_i hqueue
    rw [or_iff_right hqueue]
    split
    · rename_i hia
      exact iff_of_true ⟨_, rfl⟩ (.inl hia)
    · rename_i hia
      rw [or_iff_right hia]
      -- Entering the handler cannot fail, so it is up to the pending skip.
      have hpending : (∃ r, ((vmSkipPending vm).bind fun w => vmHookFire host vm.pc .onInterrupt
          ((enterHandler w vm.pc msg).log (.delivered msg))) = some r) ↔
          ∃ w, vmSkipPending vm = some w := by
        constructor
        · rintro ⟨r, hr⟩
          obtain ⟨w, hw, -⟩ := Option.bind_eq_some_iff.mp hr
          exact ⟨w, hw⟩
        · rintro ⟨w, hw⟩
          rw [hw]
          exact hhooks _ _
      refine hpending.trans ?_
      rw [vmSkipPending]
      cases hskip : vm.skip with
      | false => exact iff_of_true ⟨vm, rfl⟩ (.inl rfl)
      | true =>
        rw [if_pos rfl, or_iff_right (by decide), ← (vmSkipLoop_ends_iff hskip).2]
        simp only [Option.map_eq_some_iff]
        exact ⟨fun ⟨_, w, hw, _⟩ => ⟨w, hw⟩, fun ⟨w, hw⟩ => ⟨_, w, hw, rfl⟩⟩

/-- `IFE A, A` and then `SET A, A` throughout the memory, with a skip pending. -/
def oneConditional : Vm where
  ram := Function.update (fun _ => 0x0001) 0 0x0012
  ia := 1
  skip := true

/-- The chain of this skip ends with its second instruction. -/
theorem vmInterrupt_returns_oneConditional :
    ∃ r, vmInterrupt {} oneConditional 7 = some r := by
  have hhooks : InterruptHooksReturn {} := fun _ vm => ⟨vm, rfl⟩
  have hends : ChainEnds oneConditional := ⟨1, by decide +kernel⟩
  exact (vmInterrupt_returns_iff hhooks oneConditional 7).1.mpr (.inr (.inr (.inr hends)))

/-- A memory full of `IFE A, A`, with a skip pending. -/
def allConditionals : Vm where
  ram := fun _ => 0x0012
  ia := 1
  skip := true

/-- In it, `vm_interrupt` does not return. -/
theorem not_forall_vmInterrupt_returns :
    ¬ ∀ (vm : Vm) (msg : Word), ∃ r, vmInterrupt {} vm msg = some r := by
  intro h
  obtain ⟨r, hr⟩ := h allConditionals 7
  have hchain : ¬ ChainEnds allConditionals := by
    rintro ⟨n, hn⟩
    have hif : (decode 0x0012).isIf = true := by decide
    exact absurd (hn.symm.trans hif) Bool.false_ne_true
  have hnone : vmInterrupt {} allConditionals 7 = none := by
    rw [vmInterrupt, if_neg (by decide), if_neg (by decide), vmSkipPending,
      if_pos (show allConditionals.skip = true from rfl), vmSkipLoop_none rfl hchain]
    rfl
  rw [hnone] at hr
  cases hr

end DcpuToolchain
