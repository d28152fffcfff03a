import DcpuToolchain.Vm.Queue
import DcpuToolchain.Vm.Steady

/-!
# Breakpoints

The debugger (`dbgaux.c`) stops the machine from a hook that is called before an instruction,
in the middle of `vm_cycle`. When the machine is continued the cycle begins again, and the
hook lets the breakpoint it stopped at pass once.

What a guest can see should not depend on it: before each instruction the machine should be as
in a run without breakpoints. That is so as long as every stop finds the queue of interrupts
settled (`DcpuToolchain.ddbgSession_transparent`). Otherwise the cycle that begins again takes
another message out of the queue (`DcpuToolchain.not_forall_transparent`).

There are no devices and no Lua modules, so the other hooks of the debugger do nothing.
-/

namespace DcpuToolchain

/-! ### The debugger -/

/-- `struct breakpoint`, less `silent`, which is about what is printed. -/
structure Breakpoint where
  addr : Word
  temporary : Bool := false
  deriving DecidableEq, Repr

/-- What a program makes of the machine. -/
structure Arch where
  registers : Fin 8 → Word
  pc : Word
  sp : Word
  ex : Word
  ia : Word
  ram : Word → Word
  skip : Bool
  irq : Fin 256 → Word
  irqCount : ℕ
  queueInterrupts : Bool

def Vm.arch (vm : Vm) : Arch :=
  ⟨vm.registers, vm.pc, vm.sp, vm.ex, vm.ia, vm.ram, vm.skip, vm.irq, vm.irqCount,
    vm.queueInterrupts⟩

/-- What happens in a session. -/
inductive DebugEvent
  /-- The machine was stopped at a breakpoint. -/
  | stopped (addr : Word)
  /-- An instruction was executed in the state. -/
  | executed (state : Arch)

/-- The variables of the debugger, and what has happened, oldest first. -/
structure Debugger where
  vm : Vm
  breakpoints : List Breakpoint := []
  ignoreNextBreakpoint : Bool := false
  log : List DebugEvent := []

/-- `ddbg_precycle_hook`, less its bookkeeping of calls. -/
def ddbgPrecycleHook (d : Debugger) : Debugger :=
  if d.vm.halted then d
  else if d.ignoreNextBreakpoint then { d with ignoreNextBreakpoint := false }
  else
    match d.breakpoints.find? (·.addr = d.vm.pc) with
    | none => { d with ignoreNextBreakpoint := false }
    | some bk =>
      { vm := vmHalt d.vm
        breakpoints :=
          if bk.temporary then d.breakpoints.eraseP (·.addr = d.vm.pc) else d.breakpoints
        ignoreNextBreakpoint := true
        log := d.log ++ [.stopped d.vm.pc] }

/-- What `vm_cycle` does after its pre-cycle hooks. -/
def ddbgFinish (host : Host) (d : Debugger) : Option Debugger :=
  if d.vm.halted then some d
  else if d.vm.onFire then (vmOpFire host d.vm).map fun vm => { d with vm := vm }
  else do
    let vm ← vmFetchExecute host d.vm
    let vm ← vmHookFire host 0 .onPostCycle vm
    some { d with vm := vm, log := d.log ++ [.executed d.vm.arch] }

/-- `vm_cycle` with this hook. -/
def ddbgCycle (host : Host) (d : Debugger) : Option Debugger :=
  if d.vm.sleepCycles > 0 then some { d with vm := d.vm.setSleepCycles (d.vm.sleepCycles - 1) }
  else do
    let vm ← vmTick host d.vm
    let vm ← vmDrain host vm
    ddbgFinish host (ddbgPrecycleHook { d with vm := vm })

/-- `ddbg_flash_vm`. -/
def ddbgFlashVm (d : Debugger) (flash : Word → Word) : Debugger :=
  { d with vm := vmFlash d.vm flash, ignoreNextBreakpoint := false }

/-- What `ddbg_run_vm` and `ddbg_continue_vm` do before they call `vm_execute`. -/
def ddbgContinueVm (d : Debugger) : Debugger := { d with vm := d.vm.woken }

/-- A turn of the loop of `vm_execute`, or the next command after it. -/
def ddbgStep (host : Host) (d : Debugger) : Option Debugger :=
  if d.vm.halted then some (ddbgContinueVm d) else ddbgCycle host d

/-- A session, in which the machine is continued whenever it stops. -/
def ddbgSession (host : Host) : ℕ → Debugger → Option Debugger
  | 0, d => some d
  | n + 1, d => (ddbgStep host d).bind (ddbgSession host n)

/-- The states in which instructions were executed. -/
def executions (log : List DebugEvent) : List Arch :=
  log.filterMap fun | .executed state => some state | .stopped _ => none

/-- **Without breakpoints there is only the machine.** -/
theorem ddbgCycle_vm {host : Host} (hh : host.hooks = []) {d : Debugger}
    (hd : d.breakpoints = []) : (ddbgCycle host d).map (·.vm) = vmCycle host d.vm := by
  have hhook : ∀ vm, (ddbgPrecycleHook { d with vm := vm }).vm = vm := by
    intro vm
    unfold ddbgPrecycleHook
    rw [hd]
    split
    · rfl
    · split <;> rfl
  have hfinish : ∀ d : Debugger, (ddbgFinish host d).map (·.vm) =
      if d.vm.halted then some d.vm
      else if d.vm.onFire then vmOpFire host d.vm
      else vmFetchExecute host d.vm >>= vmHookFire host 0 .onPostCycle := by
    intro d
    unfold ddbgFinish
    split
    · rfl
    · split
      · cases vmOpFire host d.vm <;> rfl
      · cases vmFetchExecute host d.vm with
        | none => rfl
        | some vm =>
          simp only [Option.bind_eq_bind, Option.bind_some, vmHookFire_nil hh, Option.map_some]
  rw [ddbgCycle, vmCycle, vmBegin]
  split
  · rfl
  · cases vmTick host d.vm with
    | none => rfl
    | some vm =>
      simp only [Option.bind_eq_bind, Option.bind_some]
      cases vmDrain host vm with
      | none => rfl
      | some vm =>
        simp only [Option.bind_some, vmHookFire_nil hh, hfinish, hhook, Option.bind_eq_bind]

/-! ### What a session should be like -/

/-- The machine was stopped at a breakpoint and is not continued yet. -/
def Debugger.Stopped (d : Debugger) : Prop := d.vm.halted = true ∧ d.ignoreNextBreakpoint = true

/-- The last thing that happened was a stop. -/
def EndsStopped (log : List DebugEvent) : Prop := ∃ l addr, log = l ++ [.stopped addr]

/-- **The machine was stopped exactly once** before each instruction at a permanent
breakpoint. -/
def StopsOnce (breakpoints : List Breakpoint) (log : List DebugEvent) : Prop :=
  ∀ l state l', log = l ++ .executed state :: l' →
    (∃ bk ∈ breakpoints, bk.addr = state.pc ∧ bk.temporary = false) →
    ∃ l₀, l = l₀ ++ [.stopped state.pc] ∧ ¬EndsStopped l₀

/-- The run of a number of instructions, each after the delivery of a message: the states
before them, and the machine after them. -/
def instructions (host : Host) : ℕ → Vm → Option (List Arch × Vm)
  | 0, vm => some ([], vm.woken)
  | k + 1, vm => do
    let (states, vm) ← instructions host k vm
    let v ← vmDrain host vm
    let vm ← vmFetchExecute host v
    some (states ++ [v.arch], vm.woken)

section Log

variable {log : List DebugEvent} {breakpoints : List Breakpoint}

theorem executions_executed (log : List DebugEvent) (state : Arch) :
    executions (log ++ [.executed state]) = executions log ++ [state] := List.filterMap_append

theorem executions_stopped (log : List DebugEvent) (addr : Word) :
    executions (log ++ [.stopped addr]) = executions log := by
  rw [executions, List.filterMap_append]
  exact List.append_nil _

theorem not_endsStopped_executed (log : List DebugEvent) (state : Arch) :
    ¬EndsStopped (log ++ [.executed state]) := by
  rintro ⟨l, addr, h⟩
  cases (List.append_inj' h rfl).2

/-- The log of a stop. -/
theorem StopsOnce.stopped (h : StopsOnce breakpoints log) (addr : Word) :
    StopsOnce breakpoints (log ++ [.stopped addr]) := by
  intro l state l' hlog hpermanent
  rcases List.eq_nil_or_concat l' with rfl | ⟨l'', e, rfl⟩
  · cases (List.append_inj' hlog rfl).2
  · rw [List.concat_eq_append, ← List.cons_append, ← List.append_assoc] at hlog
    exact h l state l'' (List.append_inj' hlog rfl).1 hpermanent

/-- The log of an instruction. -/
theorem StopsOnce.executed (h : StopsOnce breakpoints log) {state : Arch}
    (hstate : (∃ bk ∈ breakpoints, bk.addr = state.pc ∧ bk.temporary = false) →
      ∃ l₀, log = l₀ ++ [.stopped state.pc] ∧ ¬EndsStopped l₀) :
    StopsOnce breakpoints (log ++ [.executed state]) := by
  intro l state' l' hlog hpermanent
  rcases List.eq_nil_or_concat l' with rfl | ⟨l'', e, rfl⟩
  · obtain ⟨rfl, hlast⟩ := List.append_inj' hlog rfl
    cases hlast
    exact hstate hpermanent
  · rw [List.concat_eq_append, ← List.cons_append, ← List.append_assoc] at hlog
    exact h l state' l'' (List.append_inj' hlog rfl).1 hpermanent

end Log

/-! ### A cycle of the debugger -/

section Cycle

variable {host : Host} (ha : Alone host) {d : Debugger} {v : Vm}

theorem vmDrain_halted (hh : host.hooks = []) {vm : Vm} (h : vmDrain host vm = some v) :
    v.halted = vm.halted := by
  unfold vmDrain at h
  split at h
  · rename_i hopen
    have hq : vm.dequeueIrq.queueInterrupts = false := by simpa using hopen.1
    rcases vmInterrupt_cases h with ⟨hq', -⟩ | ⟨hq', -⟩ | ⟨-, -, rfl⟩ | ⟨-, -, w, hw, hfire⟩
    · exact absurd (hq.symm.trans hq') Bool.noConfusion
    · exact absurd (hq.symm.trans hq') Bool.noConfusion
    · rfl
    · obtain ⟨k, s, rfl⟩ := vmSkipPending_advance hw
      rw [vmHookFire_nil hh] at hfire
      rw [← Option.some.inj hfire]
      rfl
  · rw [← Option.some.inj h]

/-- A settled queue has nothing to deliver. -/
theorem vmDrain_settled {vm : Vm} (h : Settled vm) : vmDrain host vm = some vm := by
  rw [vmDrain, if_neg]
  rintro ⟨hq, hcount⟩
  rw [h (by simpa using hq)] at hcount
  exact absurd hcount (lt_irrefl 0)

include ha

/-- The cycle of a machine that is awake. -/
theorem ddbgCycle_awake (hsleep : d.vm.sleepCycles = 0) :
    ddbgCycle host d = (vmDrain host d.vm).bind fun vm =>
      ddbgFinish host (ddbgPrecycleHook { d with vm := vm }) := by
  have htick : vmTick host d.vm = some d.vm := by
    unfold vmTick
    split
    · exact vmHookFire_nil ha.hooks _ _ _
    · rfl
  rw [ddbgCycle, if_neg (by rw [hsleep]; decide), htick]
  rfl

/-- A cycle that stops at a breakpoint. -/
theorem ddbgCycle_stops (hsleep : d.vm.sleepCycles = 0) (hdrain : vmDrain host d.vm = some v)
    (hhalted : v.halted = false) (hignore : d.ignoreNextBreakpoint = false) {bk : Breakpoint}
    (hbk : d.breakpoints.find? (·.addr = v.pc) = some bk) :
    ddbgCycle host d = some
      { vm := vmHalt v
        breakpoints := if bk.temporary then d.breakpoints.eraseP (·.addr = v.pc) else d.breakpoints
        ignoreNextBreakpoint := true
        log := d.log ++ [.stopped v.pc] } := by
  rw [ddbgCycle_awake ha hsleep, hdrain, Option.bind_some, ddbgPrecycleHook]
  simp only [hhalted, hignore, hbk, Bool.false_eq_true, if_false]
  rfl

/-- A cycle that executes an instruction. -/
theorem ddbgCycle_executes (hsleep : d.vm.sleepCycles = 0) (hdrain : vmDrain host d.vm = some v)
    (hhalted : v.halted = false) (hsteady : Steady v)
    (hpass : d.ignoreNextBreakpoint = true ∨ d.breakpoints.find? (·.addr = v.pc) = none) :
    ddbgCycle host d = (vmFetchExecute host v).map fun vm =>
      { d with
        vm := vm
        ignoreNextBreakpoint := false
        log := d.log ++ [.executed v.arch] } := by
  have hhook : ddbgPrecycleHook { d with vm := v } =
      { d with vm := v, ignoreNextBreakpoint := false } := by
    rw [ddbgPrecycleHook, if_neg (by rw [hhalted]; exact Bool.false_ne_true)]
    rcases hpass with hignore | hnone
    · rw [if_pos hignore]
    · split
      · rfl
      · simp only [hnone]
  rw [ddbgCycle_awake ha hsleep, hdrain, Option.bind_some, hhook, ddbgFinish,
    if_neg (by rw [hhalted]; exact Bool.false_ne_true),
    if_neg (by rw [hsteady.onFire]; exact Bool.false_ne_true)]
  cases vmFetchExecute host v with
  | none => rfl
  | some vm =>
    simp only [Option.bind_eq_bind, Option.bind_some, vmHookFire_nil ha.hooks, Option.map_some]

end Cycle

/-! ### A session without breakpoints -/

section Plain

variable {host : Host} {d d' : Debugger} {vm v : Vm}

/-- What has halted stays so until it is continued. -/
theorem halted_of_vmCycle (hh : host.hooks = []) (hhalted : vm.halted = true)
    (h : vmCycle host vm = some v) : v.halted = true := by
  unfold vmCycle vmBegin vmTick at h
  simp only [vmHookFire_nil hh, ite_self, Option.bind_eq_bind, Option.bind_some] at h
  split at h
  · rw [← Option.some.inj h]
    exact hhalted
  · obtain ⟨w, hbegin, hrest⟩ := Option.bind_eq_some_iff.mp h
    rw [Option.bind_fun_some] at hbegin
    -- a message may still be delivered, but no instruction is fetched
    have hw : w.halted = true := (vmDrain_halted hh hbegin).trans hhalted
    rw [if_pos hw] at hrest
    rw [← Option.some.inj hrest]
    exact hw

theorem halted_of_vmRun (hh : host.hooks = []) {n : ℕ} (hhalted : vm.halted = true)
    (h : vmRun (List.replicate n host) vm = some v) : v.halted = true := by
  induction n generalizing vm with
  | zero =>
    cases h
    exact hhalted
  | succ n ih =>
    rw [List.replicate_succ, vmRun_cons] at h
    obtain ⟨vm₁, hcycle, hrest⟩ := Option.bind_eq_some_iff.mp h
    exact ih (halted_of_vmCycle hh hhalted hcycle) hrest

/-- No breakpoint is set by a cycle. -/
theorem ddbgCycle_breakpoints (hd : d.breakpoints = []) (h : ddbgCycle host d = some d') :
    d'.breakpoints = [] := by
  have hhook : ∀ vm, (ddbgPrecycleHook { d with vm := vm }).breakpoints = [] := by
    intro vm
    unfold ddbgPrecycleHook
    rw [hd]
    split
    · rfl
    · split <;> rfl
  have hfinish : ∀ e : Debugger, ddbgFinish host e = some d' → d'.breakpoints = e.breakpoints := by
    intro e he
    unfold ddbgFinish at he
    split at he
    · rw [← Option.some.inj he]
    · split at he
      · obtain ⟨vm, -, rfl⟩ := Option.map_eq_some_iff.mp he
        rfl
      · obtain ⟨vm, -, hrest⟩ := Option.bind_eq_some_iff.mp he
        obtain ⟨vm', -, hlast⟩ := Option.bind_eq_some_iff.mp hrest
        rw [← Option.some.inj hlast]
  unfold ddbgCycle at h
  split at h
  · rw [← Option.some.inj h]
    exact hd
  · obtain ⟨vm, -, hrest⟩ := Option.bind_eq_some_iff.mp h
    obtain ⟨vm', -, hlast⟩ := Option.bind_eq_some_iff.mp hrest
    exact (hfinish _ hlast).trans (hhook vm')

/-- **A session without breakpoints goes through the run of the machine**, as long as that does
not halt. -/
theorem ddbgSession_vmRun (hh : host.hooks = []) (hd : d.breakpoints = []) {n : ℕ}
    (hrun : vmRun (List.replicate n host) d.vm = some v) (hv : v.halted = false) :
    ∃ d', ddbgSession host n d = some d' ∧ d'.vm = v := by
  induction n generalizing d with
  | zero =>
    cases hrun
    exact ⟨d, rfl, rfl⟩
  | succ n ih =>
    -- had it halted, the run would not have brought it back
    have hrunning : d.vm.halted = false := by
      cases hhalted : d.vm.halted with
      | false => rfl
      | true =>
        exact absurd (halted_of_vmRun hh hhalted hrun) (by rw [hv]; exact Bool.false_ne_true)
    rw [List.replicate_succ, vmRun_cons] at hrun
    obtain ⟨vm, hcycle, hrest⟩ := Option.bind_eq_some_iff.mp hrun
    rw [← ddbgCycle_vm hh hd] at hcycle
    obtain ⟨d₁, hd₁, rfl⟩ := Option.map_eq_some_iff.mp hcycle
    obtain ⟨d', hsession, hvm⟩ := ih (ddbgCycle_breakpoints hd hd₁) hrest
    refine ⟨d', ?_, hvm⟩
    rw [ddbgSession, ddbgStep, if_neg (by rw [hrunning]; exact Bool.false_ne_true), hd₁]
    exact hsession

end Plain

/-! ### What a session keeps -/

/-- Where a session is: before the cycle of the next instruction of the run, or stopped in the
middle of it. -/
def Here (host : Host) (next : Vm) (d : Debugger) : Prop :=
  (d.ignoreNextBreakpoint = false ∧ d.vm.woken = next ∧ ¬EndsStopped d.log) ∨
  (d.ignoreNextBreakpoint = true ∧ Settled d.vm ∧
    (∃ v, vmDrain host next = some v ∧ v.halted = false ∧ Steady v ∧ d.vm.woken = v.woken) ∧
    ∃ l, d.log = l ++ [.stopped d.vm.pc] ∧ ¬EndsStopped l)

/-- **A session tracks the run without breakpoints.** -/
structure Tracks (host : Host) (start : Vm) (breakpoints : List Breakpoint) (d : Debugger) :
    Prop where
  steady : Steady d.vm
  kept : ∀ bk ∈ breakpoints, bk.temporary = false → bk ∈ d.breakpoints
  once : StopsOnce breakpoints d.log
  follows : ∃ k next, instructions host k start = some (executions d.log, next) ∧ Here host next d

/-- A breakpoint that is permanent stays when a temporary one is taken away. -/
theorem mem_eraseP_of_permanent {l : List Breakpoint} {addr : Word} {bk bk' : Breakpoint}
    (hfind : l.find? (·.addr = addr) = some bk) (hbk : bk.temporary = true) (hmem : bk' ∈ l)
    (hbk' : bk'.temporary = false) : bk' ∈ l.eraseP (·.addr = addr) := by
  obtain ⟨haddr, l₁, l₂, rfl, hl₁⟩ := List.find?_eq_some_iff_append.mp hfind
  have hl₁' : ∀ b ∈ l₁, ¬(decide (b.addr = addr) = true) := by
    intro b hb
    simpa using hl₁ b hb
  have hne : bk' ≠ bk := by
    rintro rfl
    rw [hbk] at hbk'
    cases hbk'
  rw [List.eraseP_append_right _ hl₁', List.eraseP_cons_of_pos]
  · simpa [hne] using hmem
  · exact haddr

section Session

variable {host : Host} {start : Vm} {breakpoints : List Breakpoint} {d d' : Debugger}

theorem Tracks.of_woken (h : Tracks host start breakpoints d) {vm : Vm}
    (hwoken : vm.woken = d.vm.woken) :
    Tracks host start breakpoints { d with vm := vm } where
  steady := h.steady.of_woken hwoken
  kept := h.kept
  once := h.once
  follows := by
    obtain ⟨k, next, hinstructions, hhere⟩ := h.follows
    refine ⟨k, next, hinstructions, ?_⟩
    rcases hhere with ⟨hignore, hnext, hlog⟩ | ⟨hignore, hsettled, ⟨v, hv⟩, l, hlog, hl⟩
    · exact .inl ⟨hignore, hwoken.trans hnext, hlog⟩
    · have hpc : vm.woken.pc = d.vm.woken.pc := congrArg Vm.pc hwoken
      have hqueue : vm.woken.queueInterrupts = d.vm.woken.queueInterrupts :=
        congrArg Vm.queueInterrupts hwoken
      have hcount : vm.woken.irqCount = d.vm.woken.irqCount := congrArg Vm.irqCount hwoken
      refine .inr ⟨hignore, fun hopen => ?_, ⟨v, hv.1, hv.2.1, hv.2.2.1, hwoken.trans hv.2.2.2⟩,
        l, ?_, hl⟩
      · exact hcount.trans (hsettled (hqueue.symm.trans hopen))
      · change d.log = l ++ [.stopped vm.woken.pc]
        rw [hpc]
        exact hlog

/-- **A cycle goes on with the run, or stops it.** -/
theorem Tracks.cycle (ha : Alone host) (h : Tracks host start breakpoints d)
    (hhalted : d.vm.halted = false) (hsleep : d.vm.sleepCycles = 0)
    (hcycle : ddbgCycle host d = some d') (hstop : d'.Stopped → Settled d'.vm) :
    Tracks host start breakpoints d' := by
  have hawake : d.vm.woken = d.vm := Vm.woken_eq hhalted hsleep
  obtain ⟨k, next, hinstructions, hhere⟩ := h.follows
  rcases hhere with ⟨hignore, rfl, hlog⟩ | ⟨hignore, hsettled, ⟨v, hdrain, hv⟩, l, hlog, hl⟩
  · have hbind := hcycle
    rw [ddbgCycle_awake ha hsleep] at hbind
    obtain ⟨v, hdrain, -⟩ := Option.bind_eq_some_iff.mp hbind
    have hv : v.halted = false := (vmDrain_halted ha.hooks hdrain).trans hhalted
    have hsteady := h.steady.vmDrain ha hdrain
    rw [hawake] at hinstructions
    cases hfind : d.breakpoints.find? (·.addr = v.pc) with
    | some bk =>
      rw [ddbgCycle_stops ha hsleep hdrain hv hignore hfind, Option.some.injEq] at hcycle
      subst hcycle
      refine ⟨⟨hsteady.canFire, hsteady.onFire, hsteady.radiation⟩, fun bk' hmem hbk' => ?_,
        h.once.stopped v.pc, k, d.vm, ?_, .inr ⟨rfl, hstop ⟨rfl, rfl⟩, ?_, d.log, rfl, hlog⟩⟩
      · have hmem' := h.kept bk' hmem hbk'
        dsimp only
        split
        · rename_i htemporary
          exact mem_eraseP_of_permanent hfind htemporary hmem' hbk'
        · exact hmem'
      · rw [executions_stopped]
        exact hinstructions
      · exact ⟨v, hdrain, hv, hsteady, rfl⟩
    | none =>
      rw [ddbgCycle_executes ha hsleep hdrain hv hsteady (.inr hfind), Option.map_eq_some_iff]
        at hcycle
      obtain ⟨y, hy, rfl⟩ := hcycle
      refine ⟨hsteady.vmFetchExecute ha hy, h.kept, h.once.executed ?_, k + 1, y.woken, ?_,
        .inl ⟨rfl, rfl, not_endsStopped_executed _ _⟩⟩
      · rintro ⟨bk, hmem, haddr, hbk⟩
        have hnone := List.find?_eq_none.mp hfind bk (h.kept bk hmem hbk)
        exact absurd (decide_eq_true haddr) hnone
      · rw [instructions, hinstructions, executions_executed]
        simp only [Option.bind_eq_bind, Option.bind_some, hdrain, hy]
  · have hdrain' : vmDrain host d.vm = some d.vm := vmDrain_settled hsettled
    rw [ddbgCycle_executes ha hsleep hdrain' hhalted h.steady (.inl hignore),
      Option.map_eq_some_iff] at hcycle
    obtain ⟨y', hy', rfl⟩ := hcycle
    -- The instruction does the same in the run that was not stopped.
    have hwoken := vmFetchExecute_woken ha hv.2.1 hv.1
    rw [← hv.2.2, hawake, hy', Option.map_some] at hwoken
    obtain ⟨y, hy, hyy'⟩ := Option.map_eq_some_iff.mp hwoken.symm
    have harch : d.vm.arch = v.arch := by
      rw [← hawake, hv.2.2]
      rfl
    refine ⟨h.steady.vmFetchExecute ha hy', h.kept, h.once.executed fun _ => ⟨l, hlog, hl⟩,
      k + 1, y.woken, ?_, .inl ⟨rfl, hyy'.symm, not_endsStopped_executed _ _⟩⟩
    rw [instructions, hinstructions, executions_executed, harch]
    simp only [Option.bind_eq_bind, Option.bind_some, hdrain, hy]

/-- A step goes on with the run. -/
theorem Tracks.step (ha : Alone host) (h : Tracks host start breakpoints d)
    (hstep : ddbgStep host d = some d') (hstop : d'.Stopped → Settled d'.vm) :
    Tracks host start breakpoints d' := by
  unfold ddbgStep at hstep
  split at hstep
  · rw [← Option.some.inj hstep]
    exact h.of_woken rfl
  · rename_i hrun
    by_cases hsleep : d.vm.sleepCycles = 0
    · exact h.cycle ha (by simpa using hrun) hsleep hstep hstop
    · rw [ddbgCycle, if_pos (by bv_omega), Option.some.injEq] at hstep
      subst hstep
      exact h.of_woken rfl

/-! ### Going on -/

theorem ddbgSession_add (m n : ℕ) (d : Debugger) :
    ddbgSession host (m + n) d = (ddbgSession host m d).bind (ddbgSession host n) := by
  induction m generalizing d with
  | zero => rw [Nat.zero_add]; rfl
  | succ m ih =>
    rw [Nat.succ_add, ddbgSession, ddbgSession, Option.bind_assoc]
    exact Option.bind_congr fun d' _ => ih d'

/-- Every stop of the sessions from here on finds the queue settled. -/
def Settles (host : Host) (d : Debugger) : Prop :=
  ∀ n d', ddbgSession host n d = some d' → d'.Stopped → Settled d'.vm

theorem Settles.session (h : Settles host d) {n : ℕ} (hsession : ddbgSession host n d = some d') :
    Settles host d' := by
  intro m d'' hm
  refine h (n + m) d'' ?_
  rw [ddbgSession_add, hsession]
  exact hm

theorem Tracks.session (ha : Alone host) (h : Tracks host start breakpoints d)
    (hsettles : Settles host d) {n : ℕ} (hsession : ddbgSession host n d = some d') :
    Tracks host start breakpoints d' := by
  induction n generalizing d with
  | zero => exact Option.some.inj hsession ▸ h
  | succ n ih =>
    obtain ⟨e, he, hsession⟩ := Option.bind_eq_some_iff.mp hsession
    have hone : ddbgSession host 1 d = some e := by
      rw [ddbgSession, he]
      rfl
    exact ih (h.step ha he (hsettles 1 e hone)) (hsettles.session hone) hsession

/-- A session goes on to the next cycle. -/
theorem ddbgSession_wakes (host : Host) (d : Debugger) :
    ∃ n, ddbgSession host n d = some (ddbgContinueVm d) := by
  cases hhalted : d.vm.halted with
  | true =>
    refine ⟨1, ?_⟩
    rw [ddbgSession, ddbgStep, if_pos hhalted]
    rfl
  | false =>
    obtain ⟨n, hn⟩ : ∃ n, d.vm.sleepCycles.toNat = n := ⟨_, rfl⟩
    refine ⟨n, ?_⟩
    induction n generalizing d with
    | zero =>
      rw [ddbgContinueVm, Vm.woken_eq hhalted (BitVec.eq_of_toNat_eq hn)]
      rfl
    | succ n ih =>
      have hsleep : d.vm.sleepCycles > 0 := by bv_omega
      rw [ddbgSession, ddbgStep, if_neg (by rw [hhalted]; exact Bool.false_ne_true), ddbgCycle,
        if_pos hsleep, Option.bind_some]
      refine ih { d with vm := d.vm.setSleepCycles (d.vm.sleepCycles - 1) } hhalted ?_
      change (d.vm.sleepCycles - 1).toNat = n
      bv_omega

/-- One more cycle. -/
theorem ddbgSession_cycle {n : ℕ} (hsession : ddbgSession host n d = some (ddbgContinueVm d)) :
    ddbgSession host (n + 1) d = ddbgCycle host (ddbgContinueVm d) := by
  have hstep : ddbgStep host (ddbgContinueVm d) = ddbgCycle host (ddbgContinueVm d) :=
    if_neg Bool.false_ne_true
  rw [ddbgSession_add, hsession, Option.bind_some, ddbgSession, hstep]
  exact Option.bind_fun_some _

/-- A session that stopped executes the instruction it stopped at. -/
theorem Here.passes (ha : Alone host) {next v y : Vm} (hhere : Here host next d)
    (hsteady : Steady d.vm) (hignore : d.ignoreNextBreakpoint = true)
    (hdrain : vmDrain host next = some v) (hexecute : vmFetchExecute host v = some y) :
    ∃ n d', ddbgSession host n d = some d' ∧ executions d'.log = executions d.log ++ [v.arch] := by
  rcases hhere with ⟨hignore', -⟩ | ⟨-, hsettled, ⟨v', hdrain', hv', hsteady', hwoken⟩, -⟩
  · exact absurd (hignore.symm.trans hignore') Bool.noConfusion
  · obtain rfl := Option.some.inj (hdrain'.symm.trans hdrain)
    obtain ⟨n, hn⟩ := ddbgSession_wakes host d
    have hmap := vmFetchExecute_woken ha hsteady' hv'
    rw [hexecute, Option.map_some] at hmap
    obtain ⟨y', hy', -⟩ := Option.map_eq_some_iff.mp hmap
    have hvm : (ddbgContinueVm d).vm = v'.woken := hwoken
    have hsettled' : Settled (ddbgContinueVm d).vm := hsettled
    have hcycle := ddbgCycle_executes (d := ddbgContinueVm d) ha rfl (vmDrain_settled hsettled')
      rfl (hsteady.of_woken rfl) (.inl hignore)
    have harch : (ddbgContinueVm d).vm.arch = v'.arch := by rw [hvm]; rfl
    rw [hvm, hy', ← hvm, harch, Option.map_some] at hcycle
    exact ⟨n + 1, _, (ddbgSession_cycle hn).trans hcycle, executions_executed d.log v'.arch⟩

/-- **A session executes the next instruction of the run.** -/
theorem Here.goes_on (ha : Alone host) {next v y : Vm} (hhere : Here host next d)
    (hsteady : Steady d.vm) (hsettles : Settles host d)
    (hdrain : vmDrain host next = some v) (hexecute : vmFetchExecute host v = some y) :
    ∃ n d', ddbgSession host n d = some d' ∧ executions d'.log = executions d.log ++ [v.arch] := by
  cases hignore : d.ignoreNextBreakpoint with
  | true => exact hhere.passes ha hsteady hignore hdrain hexecute
  | false =>
    obtain ⟨-, rfl, hlog⟩ | ⟨hignore', -⟩ := hhere
    · obtain ⟨n, hn⟩ := ddbgSession_wakes host d
      have hv : v.halted = false := vmDrain_halted ha.hooks hdrain
      have hwoken : Steady d.vm.woken := hsteady.of_woken rfl
      have hsteady' : Steady v := hwoken.vmDrain ha hdrain
      cases hfind : d.breakpoints.find? (·.addr = v.pc) with
      | none =>
        have hcycle := ddbgCycle_executes (d := ddbgContinueVm d) ha rfl hdrain hv hsteady'
          (.inr hfind)
        rw [hexecute, Option.map_some] at hcycle
        exact ⟨n + 1, _, (ddbgSession_cycle hn).trans hcycle, executions_executed d.log v.arch⟩
      | some bk =>
        -- The session stops first, and then passes the breakpoint.
        have hcycle := (ddbgSession_cycle hn).trans
          (ddbgCycle_stops (d := ddbgContinueVm d) ha rfl hdrain hv hignore hfind)
        have hstopped := Here.passes ha (.inr ⟨rfl, hsettles _ _ hcycle ⟨rfl, rfl⟩,
          ⟨v, hdrain, hv, hsteady', rfl⟩, d.log, rfl, hlog⟩) (hsteady'.of_woken rfl) rfl hdrain
          hexecute
        obtain ⟨m, d', hsession, hlog'⟩ := hstopped
        refine ⟨n + 1 + m, d', ?_, hlog'.trans (congrArg (· ++ [v.arch]) ?_)⟩
        · rw [ddbgSession_add, hcycle]
          exact hsession
        · exact executions_stopped d.log v.pc
    · exact absurd (hignore'.symm.trans hignore) Bool.noConfusion

theorem instructions_length {k : ℕ} {states : List Arch} {next : Vm}
    (h : instructions host k start = some (states, next)) : states.length = k := by
  induction k generalizing states next with
  | zero =>
    obtain ⟨rfl, -⟩ := Prod.mk.inj (Option.some.inj h)
    rfl
  | succ k ih =>
    rw [instructions] at h
    simp only [Option.bind_eq_bind, Option.bind_eq_some_iff, Prod.exists] at h
    obtain ⟨states', vm, hk, v, -, y, -, heq⟩ := h
    obtain ⟨rfl, -⟩ := Prod.mk.inj (Option.some.inj heq)
    rw [List.length_append, ih hk]
    rfl

/-- **A session executes all instructions of the run.** -/
theorem Tracks.reaches (ha : Alone host) (h : Tracks host start breakpoints d)
    (hlog : executions d.log = []) (hsettles : Settles host d) {k : ℕ} {states : List Arch}
    {next : Vm} (hinstructions : instructions host k start = some (states, next)) :
    ∃ n d', ddbgSession host n d = some d' ∧ executions d'.log = states := by
  induction k generalizing states next with
  | zero =>
    obtain ⟨rfl, -⟩ := Prod.mk.inj (Option.some.inj hinstructions)
    exact ⟨0, d, rfl, hlog⟩
  | succ k ih =>
    rw [instructions] at hinstructions
    simp only [Option.bind_eq_bind, Option.bind_eq_some_iff, Prod.exists] at hinstructions
    obtain ⟨states', vm, hk, v, hdrain, y, hexecute, heq⟩ := hinstructions
    obtain ⟨rfl, -⟩ := Prod.mk.inj (Option.some.inj heq)
    obtain ⟨n, e, hsession, hstates⟩ := ih hk
    have htracks := h.session ha hsettles hsession
    obtain ⟨k', next', hk', hhere⟩ := htracks.follows
    have hlength : k' = k := by
      rw [← instructions_length hk', hstates, instructions_length hk]
    rw [hlength, hk, Option.some.injEq] at hk'
    obtain ⟨-, rfl⟩ := Prod.mk.inj hk'
    obtain ⟨m, d', hsession', hstates'⟩ :=
      hhere.goes_on ha htracks.steady (hsettles.session hsession) hdrain hexecute
    refine ⟨n + m, d', ?_, hstates'.trans (congrArg (· ++ [v.arch]) hstates)⟩
    rw [ddbgSession_add, hsession]
    exact hsession'

end Session

/-! ### Sessions and runs -/

/-- The start of a session. -/
theorem Tracks.start (host : Host) (vm : Vm) (flash : Word → Word)
    (breakpoints : List Breakpoint) :
    Tracks host (vmFlash vm flash) breakpoints
      (ddbgFlashVm { vm := vm, breakpoints := breakpoints } flash) where
  steady := ⟨rfl, rfl, rfl⟩
  kept := fun _ h _ => h
  once := by
    intro l state l' h
    cases l <;> cases h
  follows := by
    refine ⟨0, _, rfl, .inl ⟨rfl, rfl, ?_⟩⟩
    rintro ⟨l, addr, h⟩
    cases l <;> cases h

/-- After its pre-cycle hooks a cycle leaves the breakpoints alone. -/
theorem ddbgFinish_breakpoints {host : Host} {d d' : Debugger} (h : ddbgFinish host d = some d') :
    d'.breakpoints = d.breakpoints ∧ d'.ignoreNextBreakpoint = d.ignoreNextBreakpoint := by
  unfold ddbgFinish at h
  split at h
  · rw [Option.some.inj h]
    exact ⟨rfl, rfl⟩
  · split at h
    · obtain ⟨vm, -, rfl⟩ := Option.map_eq_some_iff.mp h
      exact ⟨rfl, rfl⟩
    · obtain ⟨vm, -, h⟩ := Option.bind_eq_some_iff.mp h
      obtain ⟨vm', -, h⟩ := Option.bind_eq_some_iff.mp h
      rw [← Option.some.inj h]
      exact ⟨rfl, rfl⟩

/-- Without breakpoints there are no stops. -/
theorem ddbgStep_running {host : Host} {d d' : Debugger}
    (hd : d.breakpoints = [] ∧ d.ignoreNextBreakpoint = false) (h : ddbgStep host d = some d') :
    d'.breakpoints = [] ∧ d'.ignoreNextBreakpoint = false := by
  unfold ddbgStep at h
  split at h
  · rw [← Option.some.inj h]
    exact hd
  · unfold ddbgCycle at h
    split at h
    · rw [← Option.some.inj h]
      exact hd
    · obtain ⟨t, -, h⟩ := Option.bind_eq_some_iff.mp h
      obtain ⟨v, -, h⟩ := Option.bind_eq_some_iff.mp h
      obtain ⟨hbreakpoints, hignore⟩ := ddbgFinish_breakpoints h
      have hhook : ddbgPrecycleHook { d with vm := v } = { d with vm := v } := by
        rw [ddbgPrecycleHook, hd.1, hd.2]
        split <;> rfl
      rw [hhook] at hbreakpoints hignore
      exact ⟨hbreakpoints.trans hd.1, hignore.trans hd.2⟩

theorem Settles.of_running {host : Host} {d : Debugger}
    (hd : d.breakpoints = [] ∧ d.ignoreNextBreakpoint = false) : Settles host d := by
  intro n d' hsession hstopped
  have hrunning : d'.breakpoints = [] ∧ d'.ignoreNextBreakpoint = false := by
    induction n generalizing d with
    | zero => exact Option.some.inj hsession ▸ hd
    | succ n ih =>
      obtain ⟨e, he, hsession⟩ := Option.bind_eq_some_iff.mp hsession
      exact ih (ddbgStep_running hd he) hsession
  exact absurd (hrunning.2.symm.trans hstopped.2) Bool.noConfusion

/-- **A session is as the run without breakpoints**, for every program and every breakpoints,
as long as each stop finds the queue of interrupts settled: it executes the same instructions
in the same states, however often it is continued, and each of those of the run at last; and
it stops exactly once before each instruction at a permanent breakpoint. -/
theorem ddbgSession_transparent {host : Host} (ha : Alone host) (vm : Vm) (flash : Word → Word)
    (breakpoints : List Breakpoint)
    (hsettles : ∀ n d, ddbgSession host n
      (ddbgFlashVm { vm := vm, breakpoints := breakpoints } flash) = some d →
        d.Stopped → Settled d.vm) :
    (∀ n d, ddbgSession host n
      (ddbgFlashVm { vm := vm, breakpoints := breakpoints } flash) = some d →
        StopsOnce breakpoints d.log ∧
        ∃ m d', ddbgSession host m (ddbgFlashVm { vm := vm } flash) = some d' ∧
          executions d'.log = executions d.log) ∧
    ∀ m d', ddbgSession host m (ddbgFlashVm { vm := vm } flash) = some d' →
      ∃ n d, ddbgSession host n
        (ddbgFlashVm { vm := vm, breakpoints := breakpoints } flash) = some d ∧
          executions d.log = executions d'.log := by
  have hstart := Tracks.start host vm flash breakpoints
  have hstart' := Tracks.start host vm flash []
  have hsettles' : Settles host (ddbgFlashVm { vm := vm } flash) := .of_running ⟨rfl, rfl⟩
  constructor
  · intro n d hsession
    have htracks := hstart.session ha hsettles hsession
    obtain ⟨k, next, hinstructions, -⟩ := htracks.follows
    exact ⟨htracks.once, hstart'.reaches ha rfl hsettles' hinstructions⟩
  · intro m d' hsession
    obtain ⟨k, next, hinstructions, -⟩ := (hstart'.session ha hsettles' hsession).follows
    exact hstart.reaches ha rfl hsettles hinstructions

/-! ### Two programs -/

/-- A memory full of `SET A, B`, on a machine on which nothing waits. -/
structure Copying (d : Debugger) : Prop where
  steady : Steady d.vm
  ram : d.vm.ram = fun _ => instructionCreate 0x01 0x00 0x01
  irqCount : d.vm.irqCount = 0

/-- `SET A, B` leaves the memory and the queue of interrupts alone, executed or skipped. -/
theorem vmExecute_copy (host : Host) (vm : Vm) :
    ∃ vm', vmExecute host vm (instructionCreate 0x01 0x00 0x01) = some vm' ∧ vm'.ram = vm.ram ∧
      vm'.irqCount = vm.irqCount := by
  have hdecode : decode (instructionCreate 0x01 0x00 0x01) = .basic .set (.reg 0) (.reg 1) := by
    decide
  obtain ⟨skip, hskip⟩ : ∃ skip, vm = vm.setSkip skip := ⟨vm.skip, rfl⟩
  rw [vmExecute, hdecode, hskip]
  cases skip <;> exact ⟨_, rfl, rfl, rfl⟩

theorem Copying.step {host : Host} (ha : Alone host) {d d' : Debugger} (h : Copying d)
    (hstep : ddbgStep host d = some d') : Copying d' := by
  unfold ddbgStep at hstep
  split at hstep
  · rw [← Option.some.inj hstep]
    exact ⟨h.steady.of_woken rfl, h.ram, h.irqCount⟩
  · rename_i hrun
    have hhalted : d.vm.halted = false := by simpa using hrun
    by_cases hsleep : d.vm.sleepCycles = 0
    · have hdrain : vmDrain host d.vm = some d.vm := vmDrain_settled fun _ => h.irqCount
      obtain ⟨vm', hcopy, hram, hirq⟩ := vmExecute_copy host (vmConsumeWord d.vm).2
      have hexecute : vmFetchExecute host d.vm = some vm' := by
        have hword : (vmConsumeWord d.vm).1 = instructionCreate 0x01 0x00 0x01 :=
          congrFun h.ram d.vm.pc
        rw [vmFetchExecute_steady _ h.steady.radiation, hword, hcopy]
      have hsteady := h.steady.vmFetchExecute ha hexecute
      cases hpass : d.ignoreNextBreakpoint || (d.breakpoints.find? (·.addr = d.vm.pc)).isNone with
      | true =>
        rw [Bool.or_eq_true, Option.isNone_iff_eq_none] at hpass
        rw [ddbgCycle_executes ha hsleep hdrain hhalted h.steady hpass, hexecute, Option.map_some,
          Option.some.injEq] at hstep
        subst hstep
        exact ⟨hsteady, hram.trans h.ram, hirq.trans h.irqCount⟩
      | false =>
        obtain ⟨hignore, hfind⟩ := Bool.or_eq_false_iff.mp hpass
        obtain ⟨bk, hbk⟩ := Option.isSome_iff_exists.mp (Option.isNone_eq_false_iff.mp hfind)
        rw [ddbgCycle_stops ha hsleep hdrain hhalted hignore hbk, Option.some.injEq] at hstep
        subst hstep
        exact ⟨⟨h.steady.canFire, h.steady.onFire, h.steady.radiation⟩, h.ram, h.irqCount⟩
    · rw [ddbgCycle, if_pos (by bv_omega), Option.some.injEq] at hstep
      subst hstep
      exact ⟨h.steady.of_woken rfl, h.ram, h.irqCount⟩

theorem Copying.settles {host : Host} (ha : Alone host) {d : Debugger} (h : Copying d) :
    Settles host d := by
  intro n d' hsession _
  have hcopying : Copying d' := by
    induction n generalizing d with
    | zero => exact Option.some.inj hsession ▸ h
    | succ n ih =>
      obtain ⟨e, he, hsession⟩ := Option.bind_eq_some_iff.mp hsession
      exact ih (h.step ha he) hsession
  exact fun _ => hcopying.irqCount

theorem Alone.of_nothing : Alone {} := ⟨rfl, rfl⟩

/-- A permanent and a temporary breakpoint at an instruction. -/
theorem ddbgSession_transparent_copying :
    let flash : Word → Word := fun _ => instructionCreate 0x01 0x00 0x01
    let start := ddbgFlashVm { vm := {}, breakpoints := [⟨3, true⟩, ⟨3, false⟩] } flash
    (∀ n d, ddbgSession {} n start = some d →
      StopsOnce [⟨3, true⟩, ⟨3, false⟩] d.log ∧
      ∃ m d', ddbgSession {} m (ddbgFlashVm { vm := {} } flash) = some d' ∧
        executions d'.log = executions d.log) ∧
    ∀ m d', ddbgSession {} m (ddbgFlashVm { vm := {} } flash) = some d' →
      ∃ n d, ddbgSession {} n start = some d ∧ executions d.log = executions d'.log :=
  ddbgSession_transparent .of_nothing {} (fun _ => instructionCreate 0x01 0x00 0x01) _
    (Copying.settles .of_nothing ⟨⟨rfl, rfl, rfl⟩, rfl, rfl⟩)

/-- `IAQ 1`, `INT 1`, `INT 1`, `IAQ 0` and `SET A, B`: two messages wait in an open queue, and
there is no handler. -/
def waitingFlash : Word → Word :=
  Function.update (Function.update (Function.update (Function.update
    (fun _ => instructionCreate 0x01 0x00 0x01)
    0 (instructionCreate 0x00 0x0C 0x22)) 1 (instructionCreate 0x00 0x08 0x22))
    2 (instructionCreate 0x00 0x08 0x22)) 3 (instructionCreate 0x00 0x0C 0x21)

/-- **A stop at `SET A, B` takes another message out of the queue**: one waits before the
instruction in the run without breakpoints, none if the machine stopped there. -/
theorem not_forall_transparent :
    ¬∀ (host : Host) (vm : Vm) (flash : Word → Word) (breakpoints : List Breakpoint),
      Alone host → ∀ n d, ddbgSession host n
        (ddbgFlashVm { vm := vm, breakpoints := breakpoints } flash) = some d →
          ∃ m d', ddbgSession host m (ddbgFlashVm { vm := vm } flash) = some d' ∧
            executions d'.log = executions d.log := by
  intro hall
  have hsession : (ddbgSession {} 15 (ddbgFlashVm { vm := {}, breakpoints := [⟨4, false⟩] }
      waitingFlash)).map (fun d => (executions d.log).map Arch.irqCount) =
        some [0, 0, 1, 2, 0] := by decide +kernel
  have hrun : (instructions {} 5 (vmFlash {} waitingFlash)).map (fun p => p.1.map Arch.irqCount) =
      some [0, 0, 1, 2, 1] := by decide +kernel
  obtain ⟨d, hd, hcounts⟩ := Option.map_eq_some_iff.mp hsession
  obtain ⟨m, d', hd', heq⟩ := hall {} {} waitingFlash [⟨4, false⟩] .of_nothing 15 d hd
  have htracks := (Tracks.start {} {} waitingFlash []).session .of_nothing
    (.of_running ⟨rfl, rfl⟩) hd'
  obtain ⟨k, next, hinstructions, -⟩ := htracks.follows
  rw [heq] at hinstructions
  have hlength : k = 5 := by
    rw [← instructions_length hinstructions, ← List.length_map Arch.irqCount, hcounts]
    rfl
  rw [hlength] at hinstructions
  rw [hinstructions, Option.map_some, hcounts] at hrun
  exact absurd hrun (by decide)

end DcpuToolchain
