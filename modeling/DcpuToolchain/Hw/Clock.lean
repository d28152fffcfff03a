import DcpuToolchain.Vm.Userdata

/-!
# The time on the clock

A machine with a generic clock attached (`hwclock.c`), beside hooks and devices of any other kind
that leave its data alone.

The clock is told of a cycle by the hook before an instruction, which is not called while the
machine sleeps. So what it counts are the cycles in which the machine is awake
(`DcpuToolchain.counts_of_vmRun`), and it falls behind the machine with each that it sleeps: the
`HWI` that sets the clock has three already. Until the first tick is due, it is right, and in no
longer run behind that `HWI` (`DcpuToolchain.keepsTime_iff`).
-/

namespace DcpuToolchain

/-! ### The clock as the machine calls it -/

/-- The data of the clock change. -/
@[simps -fullyApplied] def Vm.setClock (vm : Vm) (clock : Clock) : Vm :=
  { vm with userdata := { vm.userdata with clock := clock } }

/-- The data of the clock. -/
abbrev Vm.clock (vm : Vm) : Clock := vm.userdata.clock

/-- A hook of another device. -/
structure HookBeside where
  mode : HookMode
  hook : Word → Vm → Option Vm
  keeps : ∀ {pos vm vm'}, hook pos vm = some vm' → vm'.clock = vm.clock

/-- Another device. -/
structure HwBeside where
  hw : Hw
  keeps : ∀ {vm vm'}, hw.handler vm = some vm' → vm'.clock = vm.clock

/-- The devices. -/
inductive ClockDevice
  | clock
  | beside (d : HwBeside)

/-- What surrounds a machine with a clock during one call of `vm_cycle`. -/
structure ClockHost where
  /-- The hooks in the slots before that of the clock. -/
  before : List HookBeside := []
  /-- The hooks in the slots behind it. -/
  behind : List HookBeside := []
  devices : List ClockDevice := [.clock]
  devicesFit : devices.length ≤ vmHwMax := by decide
  due60Hz : Bool := false
  rands : List ℕ := []
  oobShift : BitVec 32 → ℤ → BitVec 32 := fun x _ => x
  /-- What the compiled C gives for a product that is no `int`. -/
  overflow : ℤ → ℤ := id
  /-- `hw_id`. -/
  hwId : Word := 0

namespace ClockHost

variable (host : ClockHost)

/-- The hooks of the others, which are those that an interrupt or a change of the hardware
calls. -/
def others : Host where
  hooks := (host.before ++ host.behind).map fun h => (h.mode, h.hook)
  hwFits := Nat.zero_le _

/-- `vm_hw_clock_cycle`. -/
def vmHwClockCycle (vm : Vm) : Option Vm :=
  let ticked := vm.clock.cycle
  if ticked.2 then vmRaise host.others (vm.setClock ticked.1) vm.clock.message
  else some (vm.setClock ticked.1)

/-- `vm_hw_clock_interrupt`. -/
def vmHwClockInterrupt (vm : Vm) : Option Vm :=
  let asked := vm.clock.interrupt host.overflow vm.registers
  let vm' := { vm.setClock asked.1 with registers := asked.2 }
  if vm.registers 0 = 0 ∨ vm.registers 0 = 2 then
    vmHookFire host.others host.hwId .onHardwareChange vm'
  else some vm'

/-- A device as it is registered. -/
def device : ClockDevice → Hw
  | .clock => ⟨0x12D0B402, 1, 0, host.vmHwClockInterrupt⟩
  | .beside d => d.hw

/-- The surroundings, with the hook of the clock. -/
def toHost : Host where
  hooks := host.before.map (fun h => (h.mode, h.hook)) ++
    (.onPreCycle, fun _ => host.vmHwClockCycle) :: host.behind.map fun h => (h.mode, h.hook)
  hwList := host.devices.map host.device
  hwFits := (List.length_map _).trans_le host.devicesFit
  due60Hz := host.due60Hz
  rands := host.rands
  oobShift := host.oobShift

end ClockHost

/-! ### What the clock should show -/

/-- How many cycles a tick is for a rate, rounded down. -/
def tickCycles (rate : Word) : ℕ := 100000 * rate.toNat / 60

/-- What is read when a number of cycles has passed since the clock was set. -/
def elapsed (rate : Word) (n : ℕ) : ℕ := if rate = 0 then 0 else n / tickCycles rate % 0x10000

/-- `n` cycles after the clock has been set to a rate, and after each of a run of further cycles
until it is set again, what the guest reads is what has elapsed, and when a tick is due an
interrupt has been raised. -/
def KeepsTime (rate : Word) : ℕ → Vm → List ClockHost → Prop
  | n, vm, hosts =>
    (∀ (overflow : ℤ → ℤ) (r : Registers), r 0 = 1 →
      ((vm.clock.interrupt overflow r).2 2).toNat = elapsed rate n) ∧
    match hosts with
    | [] => True
    | host :: hosts =>
      ∀ vm', vmCycle host.toHost vm = some vm' → vm'.clock.enabled = vm.clock.enabled →
        (rate ≠ 0 → (n + 1) % tickCycles rate = 0 → vm.clock.message ≠ 0 →
          .raised vm.clock.message ∈ vm'.trace.drop vm.trace.length) ∧
        KeepsTime rate (n + 1) vm' hosts
termination_by structural _ _ hosts => hosts

/-! ### What a cycle does to the clock -/

/-- The clock is as it was, unless it has been set. -/
structure Clock.Untouched (c c' : Clock) : Prop where
  enabled : c.enabled ≤ c'.enabled
  same : c'.enabled = c.enabled → c'.cyclesPerTick = c.cyclesPerTick ∧
    c'.clockTicks = c.clockTicks ∧ c'.clockCycles = c.clockCycles

namespace Clock.Untouched

theorem refl (c : Clock) : Clock.Untouched c c := ⟨Nat.le_refl _, fun _ => ⟨rfl, rfl, rfl⟩⟩

theorem trans {c c' c'' : Clock} (h : Clock.Untouched c c') (h' : Clock.Untouched c' c'') :
    Clock.Untouched c c'' := by
  refine ⟨h.enabled.trans h'.enabled, fun heq => ?_⟩
  have hle := h.enabled
  have hle' := h'.enabled
  obtain ⟨hrate, hticks, hcycles⟩ := h.same (by omega)
  obtain ⟨hrate', hticks', hcycles'⟩ := h'.same (by omega)
  exact ⟨hrate'.trans hrate, hticks'.trans hticks, hcycles'.trans hcycles⟩

/-- Whatever the guest asks of the clock. -/
theorem interrupt (overflow : ℤ → ℤ) (c : Clock) (r : Registers) :
    Clock.Untouched c (c.interrupt overflow r).1 := by
  unfold Clock.interrupt
  split
  · exact ⟨Nat.le_succ _, fun heq => absurd heq (Nat.succ_ne_self _)⟩
  · split
    · exact refl c
    · split
      · exact ⟨Nat.le_refl _, fun _ => ⟨rfl, rfl, rfl⟩⟩
      · exact refl c

end Clock.Untouched

namespace ClockHost

variable (host : ClockHost) {vm vm' : Vm}

/-- The hooks of the others leave the clock alone. -/
theorem others_obey : HooksObey (fun d d' => d'.clock = d.clock) host.others where
  refl _ := rfl
  trans h h' := h'.trans h
  hooks := by
    intro hook hmem _ pos vm vm' hvm
    obtain ⟨h, -, rfl⟩ := List.mem_map.mp hmem
    exact h.keeps hvm

/-- The hooks but that of the clock. -/
theorem hooksObey {R : Devices → Devices → Prop} (hrefl : ∀ d, R d d)
    (htrans : ∀ {d d' d''}, R d d' → R d' d'' → R d d'')
    (hclock : ∀ {d d' : Devices}, d'.clock = d.clock → R d d') : HooksObey R host.toHost where
  refl := hrefl
  trans := htrans
  hooks := by
    intro hook hmem hmode pos vm vm' hvm
    rcases List.mem_append.mp hmem with hbefore | hrest
    · obtain ⟨h, -, rfl⟩ := List.mem_map.mp hbefore
      exact hclock (h.keeps hvm)
    · rcases List.mem_cons.mp hrest with rfl | hbehind
      · exact absurd rfl hmode
      · obtain ⟨h, -, rfl⟩ := List.mem_map.mp hbehind
        exact hclock (h.keeps hvm)

/-- The handlers, too, leave the clock as it was unless they set it. -/
theorem obeys : DevicesObey (fun d d' => d.clock.Untouched d'.clock) host.toHost where
  toHooksObey := host.hooksObey (fun d => .refl d.clock) .trans fun heq => by
    rw [heq]
    exact .refl _
  devices := by
    intro device hmem vm vm' hvm
    obtain ⟨d, -, rfl⟩ := List.mem_map.mp hmem
    cases d with
    | beside d =>
      rw [show vm'.userdata.clock = vm.userdata.clock from d.keeps hvm]
      exact .refl _
    | clock =>
      have hasked := Clock.Untouched.interrupt host.overflow vm.clock vm.registers
      change host.vmHwClockInterrupt vm = some vm' at hvm
      unfold vmHwClockInterrupt at hvm
      dsimp only at hvm
      split at hvm
      · have hfire := host.others_obey.hookFire host.hwId .onHardwareChange nofun _ vm' hvm
        have hsame : vm'.userdata.clock = (vm.clock.interrupt host.overflow vm.registers).1 := hfire
        rw [hsame]
        exact hasked
      · cases hvm
        exact hasked

/-- The hooks before the instruction: the clock counts a cycle. -/
theorem hookFire_onPreCycle (hvm : vmHookFire host.toHost 0 .onPreCycle vm = some vm') :
    vm'.clock = vm.clock.cycle.1 := by
  have hbeside : ∀ (hooks : List HookBeside) (u v : Vm),
      (hooks.map fun h => (h.mode, h.hook)).foldlM
        (fun vm h => if h.1 = HookMode.onPreCycle then h.2 0 vm else some vm) u = some v →
      v.clock = u.clock := by
    intro hooks
    induction hooks with
    | nil =>
      rintro u _ ⟨⟩
      rfl
    | cons hook hooks ih =>
      intro u v hv
      rw [List.map_cons, List.foldlM_cons] at hv
      obtain ⟨t, ht, hv⟩ := Option.bind_eq_some_iff.mp hv
      refine (ih t v hv).trans ?_
      split at ht
      · exact hook.keeps ht
      · rw [← Option.some.inj ht]
  unfold vmHookFire toHost at hvm
  rw [List.foldlM_append] at hvm
  obtain ⟨u, hu, hvm⟩ := Option.bind_eq_some_iff.mp hvm
  rw [List.foldlM_cons, if_pos rfl] at hvm
  obtain ⟨t, ht, hvm⟩ := Option.bind_eq_some_iff.mp hvm
  have hticked : t.clock = u.clock.cycle.1 := by
    change host.vmHwClockCycle u = some t at ht
    unfold vmHwClockCycle at ht
    dsimp only at ht
    split at ht
    · have hraise := host.others_obey.interrupt _ _ t ht
      exact hraise
    · rw [← Option.some.inj ht]
      rfl
  rw [hbeside _ _ _ hvm, hticked, hbeside _ _ _ hu]

/-- **What a cycle does to the clock**: it counts the cycle if the machine is awake. -/
theorem vmCycle_clock (hcycle : vmCycle host.toHost vm = some vm') :
    Clock.Untouched (if 0 < vm.sleepCycles then vm.clock else vm.clock.cycle.1) vm'.clock := by
  have hquiet : HooksObey (fun d d' => d'.clock = d.clock) host.toHost :=
    host.hooksObey (fun _ => rfl) (fun h h' => h'.trans h) id
  rcases vmCycle_userdata hquiet host.obeys hcycle with
    ⟨hsleeps, heq⟩ | ⟨hawake, u, v, hbefore, hfire, hafter⟩
  · rw [if_pos hsleeps, show vm'.clock = vm.clock from congrArg Devices.clock heq]
    exact .refl _
  · have hticked := host.hookFire_onPreCycle hfire
    rw [if_neg hawake, ← show u.clock = vm.clock from hbefore, ← hticked]
    exact hafter

end ClockHost

/-! ### What the clock counts -/

/-- A number of cycles has been counted since the clock was set. -/
structure Clock.Counts (perTick k : ℕ) (c : Clock) : Prop where
  rate_eq : c.cyclesPerTick.toNat = perTick
  cycles_eq : 0 < perTick → c.clockCycles.toNat = k % perTick
  ticks_eq : c.clockTicks.toNat = k / perTick % 0x10000

namespace Clock.Counts

variable {perTick k : ℕ} {c c' : Clock}

theorem of_untouched (h : Clock.Counts perTick k c) (hsame : Clock.Untouched c c')
    (heq : c'.enabled = c.enabled) : Clock.Counts perTick k c' := by
  obtain ⟨hrate, hticks, hcycles⟩ := hsame.same heq
  exact ⟨hrate ▸ h.rate_eq, hcycles ▸ h.cycles_eq, hticks ▸ h.ticks_eq⟩

/-- The clock when it has been set. -/
theorem interrupt (overflow : ℤ → ℤ) (c : Clock) {r : Registers} (hr : r 0 = 0) :
    Clock.Counts (BitVec.ofInt 32 ((Clock.product overflow (r 1)).tdiv 60)).toNat 0
      (c.interrupt overflow r).1 := by
  unfold Clock.interrupt
  rw [if_pos hr]
  exact ⟨rfl, fun _ => (Nat.zero_mod _).symm, by rw [Nat.zero_div]; rfl⟩

/-- A cycle is counted. -/
theorem cycle (h : Clock.Counts perTick k c) : Clock.Counts perTick (k + 1) c.cycle.1 := by
  have hrate := h.rate_eq
  have hlt := c.cyclesPerTick.isLt
  unfold Clock.cycle
  by_cases hzero : c.cyclesPerTick = 0
  · -- the clock is off
    rw [if_neg (not_not.mpr hzero)]
    have hoff : perTick = 0 := by
      rw [← hrate, hzero]
      rfl
    have hticks := h.ticks_eq
    rw [hoff, Nat.div_zero] at hticks
    refine ⟨hrate, fun hpos => absurd hpos (by omega), ?_⟩
    rw [hoff, Nat.div_zero]
    exact hticks
  · rw [if_pos hzero]
    have hpos : 0 < perTick := by
      rw [← hrate]
      exact Nat.pos_of_ne_zero fun hnat => hzero (BitVec.eq_of_toNat_eq hnat)
    have hmod := Nat.mod_lt k hpos
    have hcycles : (c.clockCycles + 1).toNat = k % perTick + 1 := by
      rw [BitVec.toNat_add, h.cycles_eq hpos, show (1 : BitVec 32).toNat = 1 from rfl]
      exact Nat.mod_eq_of_lt (by omega)
    have hle : c.cyclesPerTick ≤ c.clockCycles + 1 ↔ perTick = k % perTick + 1 := by
      rw [BitVec.le_def, hrate, hcycles]
      omega
    dsimp only
    by_cases hdue : perTick = k % perTick + 1
    · -- a tick
      rw [if_pos (hle.mpr hdue)]
      have hnext : k + 1 = perTick * (k / perTick + 1) := by
        have hdiv := Nat.div_add_mod k perTick
        rw [Nat.mul_succ]
        omega
      refine ⟨hrate, fun _ => ?_, ?_⟩
      · rw [hnext, Nat.mul_mod_right]
        rfl
      · rw [hnext, Nat.mul_div_cancel_left _ hpos, BitVec.toNat_add, h.ticks_eq,
          show (1 : Word).toNat = 1 from rfl]
        omega
    · rw [if_neg fun hge => hdue (hle.mp hge)]
      have hk := Nat.div_add_mod k perTick
      have hdiv : (k + 1) / perTick = k / perTick := by
        refine Nat.div_eq_of_lt_le ?_ ?_
        · rw [Nat.mul_comm]
          omega
        · rw [Nat.succ_mul, Nat.mul_comm]
          omega
      have hmod' := Nat.div_add_mod (k + 1) perTick
      rw [hdiv] at hmod'
      refine ⟨hrate, fun _ => ?_, ?_⟩
      · rw [show (k + 1) % perTick = k % perTick + 1 by omega]
        exact hcycles
      · rw [hdiv]
        exact h.ticks_eq

end Clock.Counts

theorem Clock.cycle_enabled (c : Clock) : c.cycle.1.enabled = c.enabled := by
  unfold Clock.cycle
  split
  · dsimp only
    split <;> rfl
  · rfl

/-- In how many cycles of a run the machine is awake. -/
def awakeCycles : List ClockHost → Vm → ℕ
  | [], _ => 0
  | host :: hosts, vm =>
    (if 0 < vm.sleepCycles then 0 else 1) + (vmCycle host.toHost vm).elim 0 (awakeCycles hosts)

theorem awakeCycles_le (hosts : List ClockHost) (vm : Vm) :
    awakeCycles hosts vm ≤ hosts.length := by
  induction hosts generalizing vm with
  | nil => exact Nat.le_refl 0
  | cons host hosts ih =>
    rw [awakeCycles, List.length_cons]
    have hrest : (vmCycle host.toHost vm).elim 0 (awakeCycles hosts) ≤ hosts.length := by
      cases vmCycle host.toHost vm with
      | none => exact Nat.zero_le _
      | some vm' => exact ih vm'
    split <;> omega

/-- A machine that sleeps first is not awake in all cycles. -/
theorem awakeCycles_lt {hosts : List ClockHost} {vm : Vm} (hsleeps : 0 < vm.sleepCycles)
    (hsome : hosts ≠ []) : awakeCycles hosts vm < hosts.length := by
  cases hosts with
  | nil => exact absurd rfl hsome
  | cons host hosts =>
    rw [awakeCycles, if_pos hsleeps, vmCycle, if_pos hsleeps, Option.elim_some, Nat.zero_add,
      List.length_cons]
    exact Nat.lt_succ_of_le (awakeCycles_le hosts _)

section

variable {perTick k : ℕ} {vm vm' : Vm}

/-- A cycle, in which the clock is not set. -/
theorem counts_of_vmCycle {host : ClockHost} (hcycle : vmCycle host.toHost vm = some vm')
    (heq : vm'.clock.enabled = vm.clock.enabled) (h : vm.clock.Counts perTick k) :
    vm'.clock.Counts perTick (k + if 0 < vm.sleepCycles then 0 else 1) := by
  have hclock := host.vmCycle_clock hcycle
  by_cases hsleeps : 0 < vm.sleepCycles
  · rw [if_pos hsleeps] at hclock ⊢
    exact h.of_untouched hclock heq
  · rw [if_neg hsleeps] at hclock ⊢
    exact h.cycle.of_untouched hclock (heq.trans vm.clock.cycle_enabled.symm)

theorem enabled_le_of_vmCycle {host : ClockHost} (hcycle : vmCycle host.toHost vm = some vm') :
    vm.clock.enabled ≤ vm'.clock.enabled := by
  have hclock := (host.vmCycle_clock hcycle).enabled
  split at hclock
  · exact hclock
  · rwa [vm.clock.cycle_enabled] at hclock

theorem enabled_le_of_vmRun {hosts : List ClockHost}
    (hrun : vmRun (hosts.map (·.toHost)) vm = some vm') :
    vm.clock.enabled ≤ vm'.clock.enabled := by
  induction hosts generalizing vm with
  | nil =>
    rw [← Option.some.inj hrun]
  | cons host hosts ih =>
    obtain ⟨u, hu, hrun⟩ := Option.bind_eq_some_iff.mp hrun
    exact (enabled_le_of_vmCycle hu).trans (ih hrun)

/-- **The clock counts the cycles in which the machine is awake**, in every run in which it is
not set. -/
theorem counts_of_vmRun {hosts : List ClockHost}
    (hrun : vmRun (hosts.map (·.toHost)) vm = some vm')
    (heq : vm'.clock.enabled = vm.clock.enabled) (h : vm.clock.Counts perTick k) :
    vm'.clock.Counts perTick (k + awakeCycles hosts vm) := by
  induction hosts generalizing vm k with
  | nil =>
    rw [← Option.some.inj hrun]
    exact h
  | cons host hosts ih =>
    obtain ⟨u, hu, hrun⟩ := Option.bind_eq_some_iff.mp hrun
    have hstep : vmCycle host.toHost vm = some u := hu
    have hfirst := enabled_le_of_vmCycle hu
    have hrest := enabled_le_of_vmRun hrun
    have hcounts := ih hrun (by omega) (counts_of_vmCycle hu (by omega) h)
    rw [Nat.add_assoc] at hcounts
    rw [awakeCycles, hstep, Option.elim_some]
    exact hcounts

/-! ### When the clock is right -/

/-- What the guest reads. -/
theorem Clock.interrupt_elapsed (overflow : ℤ → ℤ) (c : Clock) {r : Registers} (hr : r 0 = 1) :
    (c.interrupt overflow r).2 2 = c.clockTicks := by
  have h0 : r 0 ≠ 0 := by
    rw [hr]
    decide
  rw [Clock.interrupt, if_neg h0, if_pos hr]
  exact Function.update_self (2 : Fin 8) c.clockTicks r

/-- The rate that is computed, where the product is an `int`. -/
theorem product_toNat (overflow : ℤ → ℤ) {b : Word} (hb : b.toNat ≤ 21474) :
    (BitVec.ofInt 32 ((Clock.product overflow b).tdiv 60)).toNat = tickCycles b := by
  have hdiv : (Clock.product overflow b).tdiv 60 = ((tickCycles b : ℕ) : ℤ) := by
    rw [Clock.product, if_pos (by omega), tickCycles, Int.tdiv_eq_ediv_of_nonneg (by omega)]
    omega
  rw [hdiv, BitVec.ofInt_natCast, BitVec.toNat_ofNat, Nat.mod_eq_of_lt]
  unfold tickCycles
  omega

/-- Until the first tick is due, the cycles that have not been counted do not matter. -/
theorem elapsed_of_counts {rate : Word} {n : ℕ} {c : Clock}
    (h : c.Counts (tickCycles rate) k) (hk : k ≤ n) (hearly : rate = 0 ∨ n < tickCycles rate)
    (overflow : ℤ → ℤ) (r : Registers) (hr : r 0 = 1) :
    ((c.interrupt overflow r).2 2).toNat = elapsed rate n := by
  rw [Clock.interrupt_elapsed overflow c hr, h.ticks_eq, elapsed]
  split
  · rename_i hzero
    rw [hzero]
    exact congrArg (· % 0x10000) (Nat.div_zero k)
  · rename_i hset
    have hlt := hearly.resolve_left hset
    rw [Nat.div_eq_of_lt (by omega), Nat.div_eq_of_lt hlt]

theorem keepsTime_of_counts {rate : Word} {hosts : List ClockHost} {n : ℕ}
    (h : vm.clock.Counts (tickCycles rate) k) (hk : k ≤ n)
    (hearly : rate = 0 ∨ n + hosts.length < tickCycles rate) : KeepsTime rate n vm hosts := by
  have hread := elapsed_of_counts h hk (hearly.imp_right fun hlt => by omega)
  induction hosts generalizing vm k n with
  | nil =>
    rw [KeepsTime]
    exact ⟨hread, trivial⟩
  | cons host hosts ih =>
    rw [KeepsTime]
    rw [List.length_cons] at hearly
    refine ⟨hread, fun vm' hcycle heq => ⟨fun hset hdue => ?_, ?_⟩⟩
    · -- no tick is due yet
      have hlt := hearly.resolve_left hset
      rw [Nat.mod_eq_of_lt (by omega)] at hdue
      omega
    · have hnext := counts_of_vmCycle hcycle heq h
      have hearly' : rate = 0 ∨ n + 1 + hosts.length < tickCycles rate :=
        hearly.imp_right fun hlt => by omega
      have hk' : k + (if 0 < vm.sleepCycles then 0 else 1) ≤ n + 1 := by
        split <;> omega
      exact ih hnext hk' hearly' (elapsed_of_counts hnext hk' (hearly'.imp_right (by omega)))

/-- **The clock is right until its first tick is due**, in every run, of whatever program and
beside whatever devices. -/
theorem keepsTime_of_lt (overflow : ℤ → ℤ) (c : Clock) (r : Registers) (hr : r 0 = 0) (vm : Vm)
    (hvm : vm.clock = (c.interrupt overflow r).1) (hosts : List ClockHost)
    (hmeets : r 1 = 0 ∨ (r 1).toNat ≤ 21474 ∧ hosts.length < tickCycles (r 1)) :
    KeepsTime (r 1) 0 vm hosts := by
  have hset := Clock.Counts.interrupt overflow c hr
  have hrate : (r 1).toNat ≤ 21474 := by
    rcases hmeets with hzero | ⟨hle, -⟩
    · rw [hzero]
      exact Nat.zero_le _
    · exact hle
  rw [product_toNat overflow hrate, ← hvm] at hset
  refine keepsTime_of_counts hset (Nat.le_refl 0) (hmeets.imp_right fun hearly => ?_)
  rw [Nat.zero_add]
  exact hearly.2

/-! ### When it is not -/

/-- What the guest reads at the end of a run in which the clock keeps time. -/
theorem KeepsTime.elapsed {rate : Word} {hosts : List ClockHost} {n : ℕ}
    (h : KeepsTime rate n vm hosts) (hrun : vmRun (hosts.map (·.toHost)) vm = some vm')
    (heq : vm'.clock.enabled = vm.clock.enabled) :
    vm'.clock.clockTicks.toNat = elapsed rate (n + hosts.length) := by
  induction hosts generalizing vm n with
  | nil =>
    rw [KeepsTime] at h
    rw [← Option.some.inj hrun, ← vm.clock.interrupt_elapsed id (r := fun _ => 1) rfl]
    exact h.1 id _ rfl
  | cons host hosts ih =>
    obtain ⟨u, hu, hrun⟩ := Option.bind_eq_some_iff.mp hrun
    have hfirst := enabled_le_of_vmCycle hu
    have hrest := enabled_le_of_vmRun hrun
    rw [KeepsTime] at h
    have hnext := ih (h.2 u hu (by omega)).2 hrun (by omega)
    rw [hnext, List.length_cons, Nat.add_assoc, Nat.add_comm 1]

/-- **A run over the first tick is wrong**, if the machine sleeps at its start, as it does when
the clock has just been set. -/
theorem not_keepsTime {rate : Word} {hosts : List ClockHost} (hset : 0 < tickCycles rate)
    (hcounts : vm.clock.Counts (tickCycles rate) 0) (hsleeps : 0 < vm.sleepCycles)
    (hlength : hosts.length = tickCycles rate)
    (hrun : vmRun (hosts.map (·.toHost)) vm = some vm')
    (heq : vm'.clock.enabled = vm.clock.enabled) : ¬KeepsTime rate 0 vm hosts := by
  intro h
  have hshould := h.elapsed hrun heq
  have hdoes := (counts_of_vmRun hrun heq hcounts).ticks_eq
  have hsome : hosts ≠ [] := by
    rintro rfl
    rw [← hlength] at hset
    exact absurd hset (Nat.lt_irrefl 0)
  have hawake := awakeCycles_lt hsleeps hsome
  have hrate : rate ≠ 0 := by
    rintro rfl
    exact absurd hset (Nat.lt_irrefl 0)
  rw [Nat.zero_add, Nat.div_eq_of_lt (by omega)] at hdoes
  rw [hdoes, Nat.zero_add, hlength, DcpuToolchain.elapsed, if_neg hrate, Nat.div_self hset]
    at hshould
  exact absurd hshould (by decide)

/-- A clock that keeps time over a run does so over the beginning of it. -/
theorem KeepsTime.of_append {rate : Word} {hosts more : List ClockHost} {n : ℕ}
    (h : KeepsTime rate n vm (hosts ++ more)) : KeepsTime rate n vm hosts := by
  induction hosts generalizing vm n with
  | nil =>
    cases more with
    | nil => exact h
    | cons host more =>
      rw [List.nil_append, KeepsTime] at h
      rw [KeepsTime]
      exact ⟨h.1, trivial⟩
  | cons host hosts ih =>
    rw [List.cons_append, KeepsTime] at h
    rw [KeepsTime]
    refine ⟨h.1, fun vm' hcycle heq => ?_⟩
    obtain ⟨hraised, hrest⟩ := h.2 vm' hcycle heq
    exact ⟨hraised, ih hrest⟩

/-- So is every run that goes on beyond it. -/
theorem not_keepsTime_of_le {rate : Word} {hosts : List ClockHost} (hset : 0 < tickCycles rate)
    (hcounts : vm.clock.Counts (tickCycles rate) 0) (hsleeps : 0 < vm.sleepCycles)
    (hlength : tickCycles rate ≤ hosts.length)
    (hrun : vmRun (hosts.map (·.toHost)) vm = some vm')
    (heq : vm'.clock.enabled = vm.clock.enabled) : ¬KeepsTime rate 0 vm hosts := by
  intro h
  rw [← List.take_append_drop (tickCycles rate) hosts] at h hrun
  rw [List.map_append, vmRun_append] at hrun
  obtain ⟨u, hu, hrest⟩ := Option.bind_eq_some_iff.mp hrun
  have hfirst := enabled_le_of_vmRun hu
  have hsecond := enabled_le_of_vmRun hrest
  exact not_keepsTime hset hcounts hsleeps (List.length_take_of_le hlength) hu (by omega)
    h.of_append

/-- **When the clock is right**: until its first tick is due, in every run; and behind an `HWI`,
for which the machine sleeps, in no other run. -/
theorem keepsTime_iff (overflow : ℤ → ℤ) (c : Clock) (r : Registers) (hr : r 0 = 0) (vm : Vm)
    (hvm : vm.clock = (c.interrupt overflow r).1) (hosts : List ClockHost) :
    (r 1 = 0 ∨ (r 1).toNat ≤ 21474 ∧ hosts.length < tickCycles (r 1) →
      KeepsTime (r 1) 0 vm hosts) ∧
    (0 < vm.sleepCycles → (r 1).toNat ≤ 21474 →
      ∀ vm', vmRun (hosts.map (·.toHost)) vm = some vm' → vm'.clock.enabled = vm.clock.enabled →
        (KeepsTime (r 1) 0 vm hosts ↔ r 1 = 0 ∨ hosts.length < tickCycles (r 1))) := by
  have hearly := keepsTime_of_lt overflow c r hr vm hvm hosts
  refine ⟨hearly, fun hsleeps hrate vm' hrun heq =>
    ⟨fun hkeeps => ?_, fun h => hearly (h.imp_right fun hlt => ⟨hrate, hlt⟩)⟩⟩
  by_contra hnot
  obtain ⟨hset, hlate⟩ := not_or.mp hnot
  have hcounts := Clock.Counts.interrupt overflow c hr
  rw [product_toNat overflow hrate, ← hvm] at hcounts
  have hpos : 0 < tickCycles (r 1) := by
    have hone : 0 < (r 1).toNat := Nat.pos_of_ne_zero fun h => hset (BitVec.eq_of_toNat_eq h)
    unfold tickCycles
    omega
  exact not_keepsTime_of_le hpos hcounts hsleeps (Nat.le_of_not_lt hlate) hrun heq hkeeps

end

/-- A machine that sets the clock to the rate 1 and stops. -/
def settingMachine : Vm where
  registers := Function.update (fun _ => 0) 1 1
  ram := fun p => if p = 0 then 0x8640 else 0

/-- It has just set the clock. -/
theorem vmCycle_settingMachine :
    ∃ vm, vmCycle ({} : ClockHost).toHost settingMachine = some vm ∧
      vm.clock = (Clock.interrupt id {} settingMachine.registers).1 ∧ vm.sleepCycles = 3 ∧
      ∃ halted, vmCycle ({} : ClockHost).toHost (vm.setSleepCycles 0) = some halted ∧
        halted.halted = true ∧ halted.sleepCycles = 0 ∧ halted.irqCount = 0 ∧
        halted.clock.message = 0 ∧ halted.clock.enabled = vm.clock.enabled :=
  ⟨_, rfl, rfl, rfl, _, rfl, rfl, rfl, rfl, rfl, rfl⟩

/-- Without a message the clock raises nothing. -/
theorem Clock.cycle_quiet {c : Clock} (h : c.message = 0) :
    c.cycle.2 = false ∧ c.cycle.1.message = 0 := by
  have hnone : decide (c.message ≠ 0) = false := decide_eq_false (not_not.mpr h)
  unfold Clock.cycle
  split
  · dsimp only
    split
    · exact ⟨hnone, h⟩
    · exact ⟨rfl, h⟩
  · exact ⟨rfl, h⟩

/-- A halted machine with nothing but a clock goes on counting. -/
theorem vmRun_halted {vm : Vm} (hhalted : vm.halted = true) (hsleep : vm.sleepCycles = 0)
    (hirq : vm.irqCount = 0) (hmessage : vm.clock.message = 0) (n : ℕ) :
    ∃ vm', vmRun (List.replicate n ({} : ClockHost).toHost) vm = some vm' ∧
      vm'.clock.enabled = vm.clock.enabled := by
  induction n generalizing vm with
  | zero => exact ⟨vm, rfl, rfl⟩
  | succ n ih =>
    obtain ⟨hquiet, hstill⟩ := Clock.cycle_quiet hmessage
    have hdrain : vmDrain ({} : ClockHost).toHost vm = some vm := by
      rw [vmDrain, if_neg]
      rintro ⟨-, hpos⟩
      omega
    have hfire : vmHookFire ({} : ClockHost).toHost 0 .onPreCycle vm =
        some (vm.setClock vm.clock.cycle.1) := by
      have hhook : ({} : ClockHost).vmHwClockCycle vm = some (vm.setClock vm.clock.cycle.1) := by
        rw [ClockHost.vmHwClockCycle, hquiet, if_neg Bool.false_ne_true]
      show (ClockHost.vmHwClockCycle {} vm).bind some = _
      rw [hhook, Option.bind_some]
    have hbegin : vmBegin ({} : ClockHost).toHost vm = some (vm.setClock vm.clock.cycle.1) := by
      show (vmDrain ({} : ClockHost).toHost vm).bind _ = _
      rw [hdrain, Option.bind_some, hfire]
    have hcycle : vmCycle ({} : ClockHost).toHost vm = some (vm.setClock vm.clock.cycle.1) := by
      rw [vmCycle, if_neg (by rw [hsleep]; decide), hbegin]
      exact if_pos hhalted
    obtain ⟨vm', hrun, heq⟩ : ∃ vm', vmRun _ (vm.setClock vm.clock.cycle.1) = some vm' ∧ _ :=
      ih hhalted hsleep hirq hstill
    refine ⟨vm', ?_, heq.trans vm.clock.cycle_enabled⟩
    rw [List.replicate_succ, vmRun_cons, hcycle]
    exact hrun

/-- The run of that machine until the first tick is due. -/
theorem vmRun_settingMachine : ∃ vm vm',
    vmCycle ({} : ClockHost).toHost settingMachine = some vm ∧
      vm.clock = (Clock.interrupt id {} settingMachine.registers).1 ∧ vm.sleepCycles = 3 ∧
      vmRun (List.replicate 1666 ({} : ClockHost).toHost) vm = some vm' ∧
      vm'.clock.enabled = vm.clock.enabled := by
  obtain ⟨vm, hset, hclock, hsleep, halted, hhalts, hhalted, hawake, hirq, hmessage, heq⟩ :=
    vmCycle_settingMachine
  obtain ⟨vm', hrun, hsame⟩ := vmRun_halted hhalted hawake hirq hmessage 1662
  have hasleep := vmRun_asleep ({} : ClockHost).toHost vm
  rw [hsleep] at hasleep
  refine ⟨vm, vm', hset, hclock, hsleep, ?_, hsame.trans heq⟩
  have hsplit : List.replicate 1666 ({} : ClockHost).toHost =
      List.replicate (3 : Word).toNat ({} : ClockHost).toHost ++
        ({} : ClockHost).toHost :: List.replicate 1662 ({} : ClockHost).toHost := by
    rw [← List.replicate_succ, ← List.replicate_add]
    rfl
  rw [hsplit, vmRun_append, hasleep, Option.bind_some, vmRun_cons, hhalts]
  exact hrun

/-- The clock of that machine is right for 1665 cycles, and not for 1666. -/
theorem keepsTime_iff_settingMachine : ∃ vm,
    vmCycle ({} : ClockHost).toHost settingMachine = some vm ∧
      KeepsTime 1 0 vm (List.replicate 1665 {}) ∧ ¬ KeepsTime 1 0 vm (List.replicate 1666 {}) := by
  obtain ⟨vm, vm', hset, hclock, hsleep, hrun, heq⟩ := vmRun_settingMachine
  have hpos : 0 < vm.sleepCycles := by
    rw [hsleep]
    decide
  have hright := fun n =>
    keepsTime_iff id {} settingMachine.registers rfl vm hclock (List.replicate n {})
  refine ⟨vm, hset, (hright 1665).1 (.inr ⟨by decide, ?_⟩), fun hkeeps => ?_⟩
  · rw [List.length_replicate]
    decide
  · have hshort :=
      ((hright 1666).2 hpos (by decide) vm' (by rwa [List.map_replicate]) heq).mp hkeeps
    rw [List.length_replicate] at hshort
    revert hshort
    decide

/-- With the rate 1 the first tick, after 1666 cycles, comes late. -/
theorem not_forall_keepsTime :
    ¬ ∀ (overflow : ℤ → ℤ) (c : Clock) (r : Registers), r 0 = 0 →
      ∀ (host : ClockHost) (before vm : Vm), vmCycle host.toHost before = some vm →
        vm.clock = (c.interrupt overflow r).1 →
          ∀ hosts : List ClockHost, KeepsTime (r 1) 0 vm hosts := by
  intro h
  obtain ⟨vm, vm', hset, hclock, hsleep, hrun, heq⟩ := vmRun_settingMachine
  have hkeeps := h id {} settingMachine.registers rfl {} settingMachine vm hset hclock
    (List.replicate 1666 {})
  have hcounts := Clock.Counts.interrupt id {} (r := settingMachine.registers) rfl
  rw [product_toNat id (by decide), ← hclock] at hcounts
  have hpos : 0 < vm.sleepCycles := by
    rw [hsleep]
    decide
  refine not_keepsTime (by decide) hcounts hpos ?_ ?_ heq hkeeps
  · rw [List.length_replicate]
    decide
  · rw [List.map_replicate]
    exact hrun

end DcpuToolchain
