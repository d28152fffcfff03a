import DcpuToolchain.Hw.Watch
import DcpuToolchain.Vm.Deliver

/-!
# A machine with a screen

The virtual machine with a LEM1802 attached: its hooks and its handler as the machine calls them,
beside hooks and devices of any other kind, as long as they leave the data of the screen alone
and, when they listen to stores, the memory too.

For every function of the machine that may change the memory, this lists what happens to the
memory and the screen (`DcpuToolchain.LemHost.cycleActs` for a cycle). `DcpuToolchain.Acts` says
that a list is what the function does.
-/

namespace DcpuToolchain

/-! ### The screen as the machine calls it -/

/-- The data of the screen change. -/
@[simps -fullyApplied] def Vm.setLem (vm : Vm) (lem : Lem1802) : Vm :=
  { vm with userdata := { vm.userdata with lem1802 := lem } }

/-- The data of the screen. -/
abbrev Vm.lem (vm : Vm) : Lem1802 := vm.userdata.lem1802

/-- A hook of another device. -/
structure OtherHook where
  mode : HookMode
  hook : Word → Vm → Option Vm
  keeps : ∀ {pos vm vm'}, hook pos vm = some vm' → vm'.lem = vm.lem
  listens : mode = .onWrite → ∀ {pos vm vm'}, hook pos vm = some vm' → vm'.ram = vm.ram

/-- The hooks beside the write hook. -/
inductive LemHook
  | cycle
  | other (h : OtherHook)

/-- Another device. -/
structure OtherHw where
  hw : Hw
  keeps : ∀ {vm vm'}, hw.handler vm = some vm' → vm'.lem = vm.lem

/-- The devices. -/
inductive LemDevice
  | lem1802
  | other (d : OtherHw)

/-- What surrounds a machine with a screen during one call of `vm_cycle`. -/
structure LemHost where
  hooks : List LemHook := [.cycle]
  devices : List LemDevice := [.lem1802]
  devicesFit : devices.length ≤ vmHwMax := by decide
  due60Hz : Bool := false
  rands : List ℕ := []
  oobShift : BitVec 32 → ℤ → BitVec 32 := fun x _ => x
  /-- Whether the window is closed at the tick. -/
  closes : Bool := false
  /-- `font_default`. -/
  fontDefault : ℕ → Word := fun _ => 0
  /-- `palette_internal`. -/
  paletteInternal : ℕ → Word := fun _ => 0

/-- The loop of a dump. An index beyond the memory changes something else. -/
def Vm.writeWords (vm : Vm) (words : List (ℕ × Word)) : Vm :=
  words.foldl (fun vm w => if w.1 < 0x10000 then vm.writeRam (BitVec.ofNat 16 w.1) w.2 else vm) vm

/-- `vm_hw_lem1802_write`. -/
def vmHwLem1802Write (pos : Word) (vm : Vm) : Option Vm := some (vm.setLem (vm.lem.write pos))

namespace LemHost

variable (host : LemHost)

/-- `vm_hw_lem1802_cycle`. The loop over a screen that reaches the last address has no end. -/
def vmHwLem1802Cycle (vm : Vm) : Option Vm :=
  if vm.lem.windowClosed then some vm
  else if vm.lem.blink.screenWasUpdated = true ∧ vm.lem.screenLocation ≠ 0 ∧
      0xFFFF ≤ vm.lem.screenLocation.toNat + 0x17F then none
  else
    let vm := vm.setLem (vm.lem.cycle vm.ram 0).1
    some (if host.closes then vm.setLem { vm.lem with windowClosed := true } else vm)

/-- The words of a font dump. -/
def fontDump (b : ℕ) : List (ℕ × Word) :=
  (List.range 128).flatMap fun idx =>
    [(b + idx * 2, host.fontDefault (2 * idx)), (b + idx * 2 + 1, host.fontDefault (2 * idx + 1))]

/-- The words of a palette dump. -/
def paletteDump (b : ℕ) : List (ℕ × Word) :=
  (List.range 16).map fun idx => (b + idx, host.paletteInternal idx)

/-- `vm_hw_lem1802_interrupt`. -/
def vmHwLem1802Interrupt (vm : Vm) : Option Vm :=
  let vm := vm.setLem (vm.lem.interrupt vm.registers).1
  some (
    if vm.registers 0 = 4 then
      (vm.sleep 256).writeWords (host.fontDump (vm.registers 1).toNat)
    else if vm.registers 0 = 5 then
      (vm.sleep 16).writeWords (host.paletteDump (vm.registers 1).toNat)
    else vm)

/-- A hook as it is registered. -/
def hook : LemHook → HookMode × (Word → Vm → Option Vm)
  | .cycle => (.on60Hz, fun _ => host.vmHwLem1802Cycle)
  | .other h => (h.mode, h.hook)

/-- A device as it is registered. -/
def device : LemDevice → Hw
  | .lem1802 => ⟨lem1802Id, 0x1802, 0x1C6C8B36, host.vmHwLem1802Interrupt⟩
  | .other d => d.hw

/-- The surroundings, with the write hook of the screen. -/
def toHost : Host where
  hooks := host.hooks.map host.hook ++ [(.onWrite, vmHwLem1802Write)]
  hwList := host.devices.map host.device
  hwFits := (List.length_map _).trans_le host.devicesFit
  due60Hz := host.due60Hz
  rands := host.rands
  oobShift := host.oobShift

end LemHost

/-! ### Acts of a function -/

/-- The memory and the screen are those of a machine. -/
structure Watches (w : Watch) (vm : Vm) : Prop where
  ram : w.ram = vm.ram
  lem : w.lem = vm.lem

/-- A function that changes the memory and the screen as a list of acts does. -/
def Acts (f : Vm → Option Vm) (acts : Vm → List MemAct) : Prop :=
  ∀ ⦃vm vm' w⦄, f vm = some vm' → Watches w vm → Watches (w.run (acts vm)) vm'

/-- The acts of a function and of one after it. -/
def thenActs (f : Vm → Option Vm) (acts next : Vm → List MemAct) (vm : Vm) : List MemAct :=
  acts vm ++ (f vm).elim [] next

/-- The memory as it has become, word by word. -/
def rewrites (vm : Vm) : List MemAct :=
  (List.range 0x10000).map fun i => .write (BitVec.ofNat 16 i) (vm.ram (BitVec.ofNat 16 i))

variable {f g : Vm → Option Vm} {acts next : Vm → List MemAct} {w : Watch} {vm vm' : Vm}

theorem Acts.bind (hf : Acts f acts) (hg : Acts g next) :
    Acts (fun vm => (f vm).bind g) (thenActs f acts next) := by
  intro vm vm' w h hw
  obtain ⟨u, hu, hvm'⟩ := Option.bind_eq_some_iff.mp h
  unfold thenActs
  rw [hu, Option.elim_some, Watch.run_append]
  exact hg hvm' (hf hu hw)

/-- A function that leaves the memory and the screen as they are. -/
theorem Acts.silent (h : ∀ {vm vm'}, f vm = some vm' → vm'.ram = vm.ram ∧ vm'.lem = vm.lem) :
    Acts f fun _ => [] := by
  intro vm vm' w hvm hw
  obtain ⟨hram, hlem⟩ := h hvm
  exact ⟨hw.ram.trans hram.symm, hw.lem.trans hlem.symm⟩

theorem Watch.run_rewrites (w : Watch) (vm : Vm) :
    w.run (rewrites vm) = { w with ram := vm.ram } := by
  have hprefix : ∀ n ≤ 0x10000, w.run ((List.range n).map fun i =>
      .write (BitVec.ofNat 16 i) (vm.ram (BitVec.ofNat 16 i))) =
      { w with ram := fun p => if p.toNat < n then vm.ram p else w.ram p } := by
    intro n hn
    induction n with
    | zero =>
      simp only [Nat.not_lt_zero, if_false]
      rfl
    | succ n ih =>
      rw [List.range_succ, List.map_append, Watch.run_append, ih (by omega)]
      change Watch.mk _ _ _ _ = _
      congr 1
      funext p
      by_cases hp : p = BitVec.ofNat 16 n
      · subst hp
        have hlt : (BitVec.ofNat 16 n).toNat < n + 1 := by
          rw [BitVec.toNat_ofNat]
          omega
        rw [Function.update_self, if_pos hlt]
      · have hne : p.toNat ≠ n := by
          rintro rfl
          exact hp (by simp)
        rw [Function.update_of_ne hp]
        simp only [Nat.lt_succ_iff_lt_or_eq, hne, or_false]
  have hram : (fun p : Word => if p.toNat < 0x10000 then vm.ram p else w.ram p) = vm.ram := by
    funext p
    exact if_pos p.isLt
  rw [rewrites, hprefix 0x10000 le_rfl, hram]

/-- A function of another device. -/
theorem Acts.other (h : ∀ {vm vm'}, f vm = some vm' → vm'.lem = vm.lem) :
    Acts f fun vm => (f vm).elim [] rewrites := by
  intro vm vm' w hvm hw
  dsimp only
  rw [hvm, Option.elim_some, Watch.run_rewrites]
  exact ⟨rfl, hw.lem.trans (h hvm).symm⟩

theorem Watches.write (hw : Watches w vm) (p v : Word) :
    Watches (w.apply (.write p v)) (vm.writeRam p v) := by
  refine ⟨?_, hw.lem⟩
  change Function.update w.ram p v = Function.update vm.ram p v
  rw [hw.ram]

theorem Watches.store (hw : Watches w vm) (p v : Word) :
    Watches (w.apply (.store p v)) ((vm.writeRam p v).setLem (vm.lem.write p)) := by
  constructor
  · change Function.update w.ram p v = Function.update vm.ram p v
    rw [hw.ram]
  · change w.lem.write p = vm.lem.write p
    rw [hw.lem]

/-- A machine with the same memory and the same screen. -/
theorem Watches.congr (hw : Watches w vm) (hram : vm'.ram = vm.ram) (hlem : vm'.lem = vm.lem) :
    Watches w vm' :=
  ⟨hw.ram.trans hram.symm, hw.lem.trans hlem.symm⟩

/-! ### Hooks and devices -/

/-- Dumped words are written without the hook. -/
def wordActs (words : List (ℕ × Word)) : List MemAct :=
  (words.filter (·.1 < 0x10000)).map fun w => .write (BitVec.ofNat 16 w.1) w.2

theorem Watches.writeWords (words : List (ℕ × Word)) (hw : Watches w vm) :
    Watches (w.run (wordActs words)) (vm.writeWords words) := by
  induction words generalizing w vm with
  | nil => exact hw
  | cons word words ih =>
    unfold wordActs Vm.writeWords at *
    rw [List.foldl_cons]
    by_cases hlt : word.1 < 0x10000
    · rw [List.filter_cons_of_pos (by simpa using hlt), if_pos hlt]
      exact ih (hw.write _ _)
    · rw [List.filter_cons_of_neg (by simpa using hlt), if_neg hlt]
      exact ih hw

namespace LemHost

variable (host : LemHost)

/-- The acts of a hook. -/
def hookActs (host : LemHost) (pos : Word) : LemHook → Vm → List MemAct
  | .cycle => fun vm =>
    if vm.lem.windowClosed then [] else if host.closes then [.tick, .close] else [.tick]
  | .other h => fun vm => (h.hook pos vm).elim [] rewrites

/-- The acts of the hooks of a mode. -/
def fireActs (host : LemHost) (pos : Word) (mode : HookMode) :
    List LemHook → Vm → List MemAct
  | [] => fun _ => []
  | h :: hooks =>
    if (host.hook h).1 = mode then
      thenActs ((host.hook h).2 pos) (host.hookActs pos h) (host.fireActs pos mode hooks)
    else host.fireActs pos mode hooks

/-- The acts of a device. -/
def deviceActs (host : LemHost) : LemDevice → Vm → List MemAct
  | .lem1802 => fun vm => .hwi vm.registers ::
    if vm.registers 0 = 4 then wordActs (host.fontDump (vm.registers 1).toNat)
    else if vm.registers 0 = 5 then wordActs (host.paletteDump (vm.registers 1).toNat)
    else []
  | .other d => fun vm => (d.hw.handler vm).elim [] rewrites

/-- The acts of `vm_hw_interrupt`. -/
def hwActs (host : LemHost) (index : Word) (vm : Vm) : List MemAct :=
  match host.devices[index.toNat]? with
  | some d => host.deviceActs d vm
  | none => []

theorem acts_hook (pos : Word) (h : LemHook) :
    Acts ((host.hook h).2 pos) (host.hookActs pos h) := by
  cases h with
  | other h => exact Acts.other h.keeps
  | cycle =>
    intro vm vm' w hvm hw
    change host.vmHwLem1802Cycle vm = some vm' at hvm
    unfold vmHwLem1802Cycle at hvm
    unfold hookActs
    dsimp only
    split at hvm
    · rename_i hclosed
      cases hvm
      rw [if_pos hclosed]
      exact hw
    · rename_i hopen
      split at hvm
      · cases hvm
      · have htick : Watches (w.apply .tick) (vm.setLem (vm.lem.cycle vm.ram 0).1) := by
          unfold Watch.apply Lem1802.cycle
          dsimp only
          rw [hw.lem, if_neg hopen, if_neg hopen, hw.ram]
          exact ⟨rfl, rfl⟩
        cases hvm
        rw [if_neg hopen]
        split
        · refine ⟨htick.ram, ?_⟩
          change { (w.apply .tick).lem with windowClosed := true } = _
          rw [htick.lem]
          rfl
        · exact htick

theorem acts_fire (pos : Word) {mode : HookMode} (hmode : mode ≠ .onWrite) :
    Acts (vmHookFire host.toHost pos mode) (host.fireActs pos mode host.hooks) := by
  have hlast : ∀ vm, vmHookFire host.toHost pos mode vm =
      (host.hooks.map host.hook).foldlM
        (fun vm h => if h.1 = mode then h.2 pos vm else some vm) vm := by
    intro vm
    unfold vmHookFire toHost
    rw [List.foldlM_append]
    refine (congrArg _ (funext fun vm => ?_)).trans (bind_pure _)
    rw [List.foldlM_cons, if_neg (Ne.symm hmode)]
    rfl
  have hall : ∀ hooks : List LemHook, Acts (fun vm => (hooks.map host.hook).foldlM
      (fun vm h => if h.1 = mode then h.2 pos vm else some vm) vm)
      (host.fireActs pos mode hooks) := by
    intro hooks
    induction hooks with
    | nil => exact Acts.silent fun h => by cases h; exact ⟨rfl, rfl⟩
    | cons h hooks ih =>
      unfold fireActs
      split
      · rename_i hh
        intro vm vm' w hvm hw
        dsimp only at hvm
        rw [List.map_cons, List.foldlM_cons, if_pos hh] at hvm
        exact Acts.bind (host.acts_hook pos h) ih hvm hw
      · rename_i hh
        intro vm vm' w hvm hw
        dsimp only at hvm
        rw [List.map_cons, List.foldlM_cons, if_neg hh] at hvm
        exact ih hvm hw
  intro vm vm' w hvm hw
  rw [hlast] at hvm
  exact hall host.hooks hvm hw

/-- **What the write hooks do**: that of the screen sets flags, and others listen. -/
theorem fire_onWrite {pos : Word} {vm vm' : Vm}
    (h : vmHookFire host.toHost pos .onWrite vm = some vm') :
    vm'.ram = vm.ram ∧ vm'.lem = vm.lem.write pos := by
  have hlisten : ∀ (hooks : List LemHook) (vm u : Vm), (hooks.map host.hook).foldlM
      (fun vm h => if h.1 = HookMode.onWrite then h.2 pos vm else some vm) vm = some u →
      u.ram = vm.ram ∧ u.lem = vm.lem := by
    intro hooks
    induction hooks with
    | nil =>
      rintro vm _ ⟨⟩
      exact ⟨rfl, rfl⟩
    | cons hook hooks ih =>
      intro vm u hu
      rw [List.map_cons, List.foldlM_cons] at hu
      obtain ⟨v, hv, hu⟩ := Option.bind_eq_some_iff.mp hu
      obtain ⟨hram, hlem⟩ := ih v u hu
      split at hv
      · rename_i hmode
        cases hook with
        | cycle => cases hmode
        | other hook =>
          exact ⟨hram.trans (hook.listens hmode hv), hlem.trans (hook.keeps hv)⟩
      · cases hv
        exact ⟨hram, hlem⟩
  unfold vmHookFire toHost at h
  rw [List.foldlM_append] at h
  obtain ⟨u, hu, hlast⟩ := Option.bind_eq_some_iff.mp h
  obtain ⟨hram, hlem⟩ := hlisten host.hooks vm u hu
  cases hlast
  exact ⟨hram, congrArg (Lem1802.write · pos) hlem⟩

theorem acts_device (d : LemDevice) : Acts (host.device d).handler (host.deviceActs d) := by
  cases d with
  | other d => exact Acts.other d.keeps
  | lem1802 =>
    intro vm vm' w hvm hw
    cases hvm
    have hhwi : Watches (w.apply (.hwi vm.registers))
        (vm.setLem (vm.lem.interrupt vm.registers).1) := by
      refine ⟨hw.ram, ?_⟩
      change (w.lem.interrupt vm.registers).1 = _
      rw [hw.lem]
      rfl
    unfold deviceActs
    dsimp only
    rw [Vm.setLem_registers]
    split
    · exact Watches.writeWords _ (hhwi.congr rfl rfl)
    · split
      · exact Watches.writeWords _ (hhwi.congr rfl rfl)
      · exact hhwi

theorem acts_hw (index : Word) :
    Acts (fun vm => vmHwInterrupt host.toHost vm index) (host.hwActs index) := by
  intro vm vm' w hvm hw
  have hget : host.toHost.hwList[index.toNat]? =
      host.devices[index.toNat]?.map host.device := List.getElem?_map
  unfold vmHwInterrupt at hvm
  rw [hget] at hvm
  unfold hwActs
  cases hd : host.devices[index.toNat]? with
  | none =>
    rw [hd] at hvm
    cases hvm
    exact hw
  | some d =>
    rw [hd] at hvm
    exact host.acts_device d hvm hw

end LemHost

end DcpuToolchain
