import DcpuToolchain.Vm.Deliver

/-!
# The data of the devices

The machine itself never touches what the user data of its devices points to: that is left to the
hooks and to the handlers. So whatever holds between the data before and after each of these
holds between the data before and after a cycle (`DcpuToolchain.DevicesObey`), as long as it holds
along any chain of them.

The hooks before an instruction are an exception that is made here: they may do anything, and
`DcpuToolchain.vmCycle_userdata` says where in a cycle they are called.
-/

namespace DcpuToolchain

/-- The hooks keep to a relation on the data of the devices, but for those before an
instruction. -/
structure HooksObey (R : Devices → Devices → Prop) (host : Host) : Prop where
  refl : ∀ d, R d d
  trans : ∀ {d d' d''}, R d d' → R d' d'' → R d d''
  hooks : ∀ hook ∈ host.hooks, hook.1 ≠ .onPreCycle →
    ∀ {pos vm vm'}, hook.2 pos vm = some vm' → R vm.userdata vm'.userdata

/-- The handlers of the devices do so as well. -/
structure DevicesObey (R : Devices → Devices → Prop) (host : Host) : Prop
    extends HooksObey R host where
  devices : ∀ device ∈ host.hwList,
    ∀ {vm vm'}, device.handler vm = some vm' → R vm.userdata vm'.userdata

variable {R : Devices → Devices → Prop} {host : Host} {vm vm' : Vm}

/-- A call keeps to the relation. -/
def Relates (R : Devices → Devices → Prop) (vm : Vm) (r : Option Vm) : Prop :=
  ∀ vm', r = some vm' → R vm.userdata vm'.userdata

/-- The machine itself may have changed before. -/
theorem Relates.after {v : Vm} {r : Option Vm} (h : Relates R v r)
    (heq : v.userdata = vm.userdata) : Relates R vm r := by
  intro vm' hvm
  have hcall := h vm' hvm
  rwa [heq] at hcall

namespace HooksObey

variable (h : HooksObey R host)

include h

/-- A call that leaves the data alone. -/
theorem alone {v : Vm} (heq : v.userdata = vm.userdata) : Relates R vm (some v) := by
  intro vm' hvm
  rw [← Option.some.inj hvm, heq]
  exact h.refl _

/-- Firing hooks is a chain of calls, each of which keeps to the relation. -/
theorem hookFire (pos : Word) (mode : HookMode) (hmode : mode ≠ .onPreCycle) (vm : Vm) :
    Relates R vm (vmHookFire host pos mode vm) := by
  have key : ∀ hooks : List (HookMode × (Word → Vm → Option Vm)), hooks ⊆ host.hooks → ∀ vm,
      Relates R vm
        (hooks.foldlM (fun vm h => if h.1 = mode then h.2 pos vm else some vm) vm) := by
    intro hooks hsub
    induction hooks with
    | nil => exact fun vm => h.alone rfl
    | cons hook hooks ih =>
      intro vm vm' hvm
      rw [List.foldlM_cons] at hvm
      obtain ⟨u, hu, hvm⟩ := Option.bind_eq_some_iff.mp hvm
      refine h.trans ?_ (ih (fun _ hm => hsub (List.mem_cons_of_mem _ hm)) u vm' hvm)
      split at hu
      · rename_i heq
        exact h.hooks hook (hsub List.mem_cons_self) (by rw [heq]; exact hmode) hu
      · exact h.alone rfl u hu
  exact key host.hooks (List.Subset.refl _) vm

/-- An interrupt that is delivered calls hooks, and one that is queued or dropped does not. -/
theorem interrupt (vm : Vm) (msg : Word) : Relates R vm (vmInterrupt host vm msg) := by
  intro vm' hvm
  rcases vmInterrupt_cases hvm with ⟨-, -, rfl⟩ | ⟨-, -, rfl⟩ | ⟨-, -, rfl⟩ | ⟨-, -, w, hw, hfire⟩
  · exact h.refl _
  · exact h.refl _
  · exact h.refl _
  · obtain ⟨k, s, rfl⟩ := vmSkipPending_advance hw
    have hcall := h.hookFire vm.pc .onInterrupt nofun _ vm' hfire
    exact hcall

/-- A message that waits is delivered as an interrupt, if there is one. -/
theorem drain (vm : Vm) : Relates R vm (vmDrain host vm) := by
  unfold vmDrain
  split
  · exact (h.interrupt vm.dequeueIrq _).after rfl
  · exact h.alone rfl

/-- The hooks of the sixtieth of a second are fired every so many cycles. -/
theorem tick (vm : Vm) : Relates R vm (vmTick host vm) := by
  unfold vmTick
  split
  · exact h.hookFire 0 .on60Hz nofun vm
  · exact h.alone rfl

/-! ### Opcodes -/

/-- Storing in the memory calls the hooks on writes, and storing elsewhere calls none. -/
theorem hookFireStore (store : Store) {v : Vm} (heq : v.userdata = vm.userdata) :
    Relates R vm (vmHookFireStore host store v) := by
  cases store with
  | ram addr => exact (h.hookFire addr .onWrite nofun v).after heq
  | reg | ia | sp | pc | ex | dummy => exact h.alone heq

end HooksObey

/-- Reading an operand leaves the data of the devices alone. -/
theorem vmResolveValue_userdata (vm : Vm) (val : Operand) (pos : Pos) :
    (vmResolveValue vm val pos).2.userdata = vm.userdata := by
  unfold vmResolveValue
  cases val with
  | pushPop =>
    dsimp only
    split
    · rfl
    · cases pos <;> rfl
  | _ => rfl

/-- Fetching the place of an operand leaves the data of the devices alone. -/
theorem vmInternalGetStore_userdata (vm : Vm) (loc : Operand) (pos : Pos) :
    (vmInternalGetStore vm loc pos).2.userdata = vm.userdata := by
  unfold vmInternalGetStore
  split
  · split <;> rfl
  · cases loc with
    | pushPop => cases pos <;> rfl
    | _ => rfl

/-- Putting a word in a place leaves the data of the devices alone. -/
@[simp] theorem Vm.store_userdata (vm : Vm) (store : Store) (w : Word) :
    (vm.store store w).userdata = vm.userdata := by
  cases store <;> rfl

namespace HooksObey

variable (h : HooksObey R host)

include h

/-- An opcode that stores calls hooks only for the word that it stores. -/
theorem storeOp (cycles : Word) (alu : Alu) (vm : Vm) (b a : Operand) :
    Relates R vm (storeOp cycles alu host vm b a) := by
  have hsame := (vmInternalGetStore_userdata (vmResolveValue vm a .a).2 b .b).trans
    (vmResolveValue_userdata vm a .a)
  unfold DcpuToolchain.storeOp
  dsimp only
  split
  · exact h.alone hsame
  · refine h.hookFireStore _ (Eq.trans ?_ hsame)
    split <;> exact Vm.store_userdata _ _ _

/-- A test stores nothing, so that it calls no hooks. -/
theorem ifOp (test : Word → Word → Bool) (vm : Vm) (b a : Operand) :
    Relates R vm (ifOp test vm b a) := by
  have hsame := (vmResolveValue_userdata (vmResolveValue vm a .a).2 b .b).trans
    (vmResolveValue_userdata vm a .a)
  unfold DcpuToolchain.ifOp
  dsimp only
  split <;> exact h.alone hsame

/-- `STI` and `STD` call hooks only for the word that they store. -/
theorem stepOp (delta : Word) (vm : Vm) (b a : Operand) :
    Relates R vm (stepOp delta host vm b a) := by
  have hsame := (vmInternalGetStore_userdata (vmResolveValue vm a .a).2 b .b).trans
    (vmResolveValue_userdata vm a .a)
  unfold DcpuToolchain.stepOp
  dsimp only
  split
  · exact h.alone hsame
  · intro vm' hvm
    obtain ⟨u, hu, hvm⟩ := Option.bind_eq_some_iff.mp hvm
    have hfire := h.hookFireStore _ ((Vm.store_userdata _ _ _).trans hsame) u hu
    rw [← Option.some.inj hvm]
    exact hfire

/-- The basic opcodes follow three patterns, and keep to the relation with them. -/
theorem executeBasic (op : BasicOp) (vm : Vm) (b a : Operand) :
    Relates R vm (vmExecuteBasic host vm op b a) := by
  rcases vmExecuteBasic_cases op with ⟨-, test, hop⟩ | ⟨-, cycles, alu, hop⟩ | ⟨-, delta, hop⟩
  · rw [hop]
    exact h.ifOp test vm b a
  · rw [hop]
    exact h.storeOp cycles alu vm b a
  · rw [hop]
    exact h.stepOp delta vm b a

/-- Fire stores a word in one place after the other, and calls the hooks for each. -/
theorem fireFill (pos : ℕ) (fill : Word) (length : ℕ) (vm : Vm) :
    Relates R vm (vmFireFill host pos fill length vm) := by
  induction length with
  | zero => exact h.alone rfl
  | succ length ih =>
    intro vm' hvm
    obtain ⟨u, hu, hvm⟩ := Option.bind_eq_some_iff.mp hvm
    have hfire := h.hookFire _ .onWrite nofun _ vm' hvm
    exact h.trans (ih u hu) hfire

/-- Fire that burns at random does so over and over. -/
theorem fireBurn (pos : ℕ) (rands : List ℕ) (vm : Vm) :
    Relates R vm (vmFireBurn host pos rands vm) := by
  fun_induction vmFireBurn host pos rands vm with
  | case1 pos vm length fill rands hlt ih =>
    intro vm' hvm
    obtain ⟨u, hu, hvm⟩ := Option.bind_eq_some_iff.mp hvm
    exact h.trans (h.fireFill _ _ _ _ u hu) (ih u vm' hvm)
  | case2 => exact h.alone rfl
  | case3 => exact h.alone rfl

/-- Radiation changes one word of the memory, and calls the hooks for it. -/
theorem radiate (vm : Vm) : Relates R vm (vmRadiate host vm) := by
  unfold vmRadiate
  split
  · unfold vmOpRadiation
    split
    · exact h.alone rfl
    · exact (h.hookFire _ .onWrite nofun _).after rfl
  · exact h.alone rfl

end HooksObey

namespace DevicesObey

variable (h : DevicesObey R host)

include h

/-- A request goes to the handler of one device, or to none. -/
theorem hwInterrupt (index : Word) (vm : Vm) : Relates R vm (vmHwInterrupt host vm index) := by
  unfold vmHwInterrupt
  split
  · rename_i device hdevice
    exact fun vm' hvm => h.devices device (List.mem_of_getElem? hdevice) hvm
  · exact h.alone rfl

/-- The non-basic opcodes store, interrupt, or send a request to a device. -/
theorem executeNonbasic (op : NonbasicOp) (vm : Vm) (a : Operand) :
    Relates R vm (vmExecuteNonbasic host vm op a) := by
  have hval := vmResolveValue_userdata vm a .a
  have hstore := vmInternalGetStore_userdata vm a .a
  cases op with
  | jsr =>
    show Relates R vm (vmOpJsr vm a)
    unfold vmOpJsr
    dsimp only
    split <;> exact h.alone hval
  | int =>
    show Relates R vm (vmInterrupt host _ _)
    exact (h.interrupt _ _).after hval
  | iag =>
    show Relates R vm (vmOpIag host vm a)
    unfold vmOpIag
    dsimp only
    split
    · exact h.alone hstore
    · exact h.hookFireStore _ ((Vm.store_userdata _ _ _).trans hstore)
  | ias =>
    show Relates R vm (vmOpIas vm a)
    unfold vmOpIas
    dsimp only
    split <;> exact h.alone hval
  | rfi =>
    show Relates R vm (vmOpRfi vm a)
    unfold vmOpRfi
    dsimp only
    split <;> exact h.alone hval
  | iaq =>
    show Relates R vm (vmOpIaq vm a)
    unfold vmOpIaq
    dsimp only
    split <;> exact h.alone hval
  | hwn =>
    show Relates R vm (vmOpHwn host vm a)
    unfold vmOpHwn
    dsimp only
    split
    · exact h.alone hstore
    · intro vm' hvm
      obtain ⟨u, hu, hvm⟩ := Option.bind_eq_some_iff.mp hvm
      have hsame : (opNumCycles 2 (vmInternalGetStore vm a .a).2).userdata = vm.userdata := hstore
      have hfire := h.hookFireStore _ ((Vm.store_userdata _ _ _).trans hsame) u hu
      rw [← Option.some.inj hvm]
      exact hfire
  | hwq =>
    show Relates R vm (vmOpHwq host vm a)
    unfold vmOpHwq
    dsimp only
    split
    · exact h.alone hval
    · split
      · split <;> exact h.alone hval
      · exact h.alone hval
  | hwi =>
    show Relates R vm (vmOpHwi host vm a)
    unfold vmOpHwi
    dsimp only
    split
    · exact h.alone hval
    · exact (h.hwInterrupt _ _).after hval

/-- An instruction is a basic or a non-basic opcode, or sets the machine on fire. -/
theorem execute (vm : Vm) (instruction : Word) : Relates R vm (vmExecute host vm instruction) := by
  unfold vmExecute
  split
  · exact h.executeBasic _ vm _ _
  · exact h.executeNonbasic _ vm _
  · refine h.alone ?_
    unfold vmInvalid
    split <;> rfl

/-- What fire does in a cycle: it burns the memory, and the screens show it. -/
theorem opFire (vm : Vm) : Relates R vm (vmOpFire host vm) := by
  have hscreen : Relates R vm (vmFireScreen host vm) := by
    unfold vmFireScreen
    split
    · exact h.alone rfl
    · split
      · exact h.alone rfl
      · intro vm' hvm
        obtain ⟨u, hu, hvm⟩ := Option.bind_eq_some_iff.mp hvm
        obtain ⟨v, hv, hvm⟩ := Option.bind_eq_some_iff.mp hvm
        have hfirst := h.hwInterrupt _ _ u hu
        have hsecond := h.hwInterrupt _ _ v hv
        rw [← Option.some.inj hvm]
        exact h.trans hfirst hsecond
  intro vm' hvm
  obtain ⟨u, hu, hvm⟩ := Option.bind_eq_some_iff.mp hvm
  refine h.trans (hscreen u hu) ?_
  split at hvm
  · rw [← Option.some.inj hvm]
    exact h.refl _
  · have hburn := h.fireBurn _ _ _ vm' hvm
    exact hburn

end DevicesObey

/-- **Where in a cycle the data can change in another way**: only by the hooks before the
instruction, of a machine that is awake. Before that, handlers are not called, so a relation
`Q` that hooks keep to is enough. -/
theorem vmCycle_userdata {Q : Devices → Devices → Prop} (hquiet : HooksObey Q host)
    (h : DevicesObey R host) (hcycle : vmCycle host vm = some vm') :
    (0 < vm.sleepCycles ∧ vm'.userdata = vm.userdata) ∨
      (¬ 0 < vm.sleepCycles ∧ ∃ u v, Q vm.userdata u.userdata ∧
        vmHookFire host 0 .onPreCycle u = some v ∧ R v.userdata vm'.userdata) := by
  unfold vmCycle at hcycle
  split at hcycle
  · rename_i hsleeps
    rw [← Option.some.inj hcycle]
    exact .inl ⟨hsleeps, rfl⟩
  · rename_i hawake
    obtain ⟨v, hbegin, hcycle⟩ := Option.bind_eq_some_iff.mp hcycle
    obtain ⟨t, htick, hbegin⟩ := Option.bind_eq_some_iff.mp hbegin
    obtain ⟨u, hdrain, hfire⟩ := Option.bind_eq_some_iff.mp hbegin
    have hbefore := hquiet.trans (hquiet.tick vm t htick) (hquiet.drain t u hdrain)
    refine .inr ⟨hawake, u, v, hbefore, hfire, ?_⟩
    split at hcycle
    · exact h.alone rfl vm' hcycle
    · split at hcycle
      · exact h.opFire v vm' hcycle
      · obtain ⟨w, hexecute, hcycle⟩ := Option.bind_eq_some_iff.mp hcycle
        obtain ⟨r, hradiate, hexecute⟩ := Option.bind_eq_some_iff.mp hexecute
        have hinstruction := h.execute (vmConsumeWord r).2 (vmConsumeWord r).1 w hexecute
        have hfire := h.hookFire 0 .onPostCycle nofun w vm' hcycle
        exact h.trans (h.radiate v r hradiate) (h.trans hinstruction hfire)

end DcpuToolchain
