import DcpuToolchain.Lib.Slots
import DcpuToolchain.Vm.State

/-!
# Hooks and hardware

The tables of hooks and of devices of a machine (`libdcpu-vm/dcpuhook.c`, `hw.c`), and what comes
of any sequence of registrations.

A registration takes the first free slot and returns its number. If there is none the machine is
halted, and 0 is returned, which is the number of a slot like any other: a component whose
registration has failed gives back a hook that is not its own when it is freed.
`DcpuToolchain.hooks_kept_iff` says for which sequences the tables stay right.
-/

namespace DcpuToolchain

open Slots

/-! ### The tables -/

/-- `VM_HOOK_MAX`. -/
def vmHookMax : ℕ := 50

/-- A slot of `hook_list`, `hook_mode` and `hook_userdata`. -/
structure HookSlot (H D : Type) where
  hook : Option H
  mode : HookMode
  userdata : Option D
  deriving DecidableEq, Repr

/-- The slot has no hook. -/
def HookSlot.isFree {H D : Type} (slot : HookSlot H D) : Bool := slot.hook.isNone

/-- `struct vm` with its tables. Hooks, their user data and devices are pointers; those that are
registered are not `NULL`. -/
structure HookedVm (H D W : Type) where
  vm : Vm
  hookList : List (HookSlot H D)
  hwList : List (Option W)
  hookList_length : hookList.length = vmHookMax
  hwList_length : hwList.length = vmHwMax

variable {H D W : Type}

/-- `vm_hook_initialize` and `vm_hw_initialize`. -/
def vmHookInitialize (vm : Vm) : HookedVm H D W where
  vm := vm
  hookList := List.replicate vmHookMax ⟨none, .none, none⟩
  hwList := List.replicate vmHwMax none
  hookList_length := List.length_replicate
  hwList_length := List.length_replicate

namespace HookedVm

/-- The machine is halted. -/
def halt (v : HookedVm H D W) : HookedVm H D W := { v with vm := vmHalt v.vm }

/-- A slot of the table of hooks is written. -/
def setHook (v : HookedVm H D W) (id : ℕ) (slot : HookSlot H D) : HookedVm H D W where
  vm := v.vm
  hookList := v.hookList.set id slot
  hwList := v.hwList
  hookList_length := by rw [List.length_set, v.hookList_length]
  hwList_length := v.hwList_length

/-- A slot of the table of devices is written. -/
def setHw (v : HookedVm H D W) (id : ℕ) (hardware : W) : HookedVm H D W where
  vm := v.vm
  hookList := v.hookList
  hwList := v.hwList.set id (some hardware)
  hookList_length := v.hookList_length
  hwList_length := by rw [List.length_set, v.hwList_length]

/-- `while (vm->hook_list[id] != NULL && id < VM_HOOK_MAX) id++;`: what is read behind the table
makes no difference, since the bound ends the loop there. -/
def freeHook (v : HookedVm H D W) : ℕ := firstFree HookSlot.isFree v.hookList

/-- The same loop over `vm->hw_list`. -/
def freeHw (v : HookedVm H D W) : ℕ := firstFree Option.isNone v.hwList

end HookedVm

/-- `vm_hook_register`. -/
def vmHookRegister (v : HookedVm H D W) (hook : H) (mode : HookMode) (ud : Option D) :
    HookedVm H D W × Word :=
  if vmHookMax ≤ v.freeHook then (v.halt, 0)
  else (v.setHook v.freeHook ⟨some hook, mode, ud⟩, BitVec.ofNat 16 v.freeHook)

/-- `vm_hook_unregister`. An identifier behind the table, which no registration returns, would write
elsewhere. -/
def vmHookUnregister (v : HookedVm H D W) (id : Word) : HookedVm H D W :=
  v.setHook id.toNat ⟨none, .none, none⟩

/-- `vm_hw_register`. -/
def vmHwRegister (v : HookedVm H D W) (hardware : W) : HookedVm H D W × Word :=
  if vmHwMax ≤ v.freeHw then (v.halt, 0) else (v.setHw v.freeHw hardware, BitVec.ofNat 16 v.freeHw)

/-- The calls that `vm_hook_fire` makes: every hook of the mode, in the order of the slots, with its
own user data unless others are given. -/
def vmHookCalls (v : HookedVm H D W) (mode : HookMode) (ud : Option D) : List (H × Option D) :=
  (v.hookList.filter (·.mode = mode)).filterMap fun slot =>
    slot.hook.map fun hook => (hook, if ud.isNone then slot.userdata else ud)

/-! ### Sequences of calls -/

/-- A call about hooks or devices. -/
inductive HookCall (H D W : Type)
  | registerHook (hook : H) (mode : HookMode) (ud : Option D)
  | registerHw (hardware : W)
  /-- `vm_hook_unregister` with what the `k`-th call of `vm_hook_register` returned. -/
  | unregisterHook (k : ℕ)
  deriving DecidableEq, Repr

/-- A machine after some calls, with the identifiers that registrations of hooks returned, in their
order. Beside them it is recorded who holds which slot: the hooks and the devices that were put in
one, counted by the calls, and of the hooks those that have not been unregistered since. -/
structure HookRun (H D W : Type) where
  machine : HookedVm H D W
  returned : List Word
  returnedHw : List Word
  hooks : List (Holder ℕ (HookSlot H D))
  hardware : List (Holder ℕ (Option W))

namespace HookRun

/-- One call. -/
def step (r : HookRun H D W) : HookCall H D W → HookRun H D W
  | .registerHook hook mode ud =>
    { r with
      machine := (vmHookRegister r.machine hook mode ud).1
      returned := r.returned ++ [(vmHookRegister r.machine hook mode ud).2]
      hooks := if vmHookMax ≤ r.machine.freeHook then r.hooks
        else r.hooks ++ [⟨r.returned.length, r.machine.freeHook, ⟨some hook, mode, ud⟩⟩] }
  | .registerHw hardware =>
    { r with
      machine := (vmHwRegister r.machine hardware).1
      returnedHw := r.returnedHw ++ [(vmHwRegister r.machine hardware).2]
      hardware := if vmHwMax ≤ r.machine.freeHw then r.hardware
        else r.hardware ++ [⟨r.returnedHw.length, r.machine.freeHw, some hardware⟩] }
  | .unregisterHook k =>
    match r.returned[k]? with
    | none => r
    | some id =>
      { r with
        machine := vmHookUnregister r.machine id
        hooks := r.hooks.filter (·.who ≠ k) }

end HookRun

/-- A machine after a sequence of calls. -/
def hookRun (vm : Vm) (calls : List (HookCall H D W)) : HookRun H D W :=
  calls.foldl HookRun.step ⟨vmHookInitialize vm, [], [], [], []⟩

/-! ### What is to hold -/

namespace HookRun

/-- **The tables are right**: live hooks, and devices, have different slots, with what was
registered there, and the identifiers that were returned for them are the numbers of their slots. -/
structure Sound (r : HookRun H D W) : Prop where
  hooks : Slots.Holds HookSlot.isFree r.machine.hookList r.hooks
  hardware : Slots.Holds Option.isNone r.machine.hwList r.hardware
  identifiers : ∀ h ∈ r.hooks, r.returned[h.who]? = some (BitVec.ofNat 16 h.slot)
  identifiersHw : ∀ h ∈ r.hardware, r.returnedHw[h.who]? = some (BitVec.ofNat 16 h.slot)

/-- **A call does no harm**: a registration that finds no free slot changes nothing but that the
machine is halted, and an unregistration leaves the hooks of others where they are. -/
structure Harmless (r : HookRun H D W) (call : HookCall H D W) : Prop where
  fullHooks : ∀ hook mode ud, call = .registerHook hook mode ud →
    (∀ slot ∈ r.machine.hookList, slot.isFree = false) → (r.step call).machine = r.machine.halt
  fullHw : ∀ hardware, call = .registerHw hardware →
    (∀ slot ∈ r.machine.hwList, slot.isNone = false) → (r.step call).machine = r.machine.halt
  others : ∀ k, call = .unregisterHook k → ∀ h ∈ r.hooks, h.who ≠ k →
    (r.step call).machine.hookList[h.slot]? = some h.value

/-- The hook that a registration was for is live, or no live hook has the identifier that was
returned. -/
def MayUnregister (r : HookRun H D W) (k : ℕ) : Prop :=
  (∃ h ∈ r.hooks, h.who = k) ∨
    ∀ id, r.returned[k]? = some id → ∀ h ∈ r.hooks, h.slot ≠ id.toNat

end HookRun

/-! ### One call -/

section Step

variable {v : HookedVm H D W} {r : HookRun H D W}

/-- There is no free slot for a hook exactly if every slot has one. -/
theorem HookedVm.freeHook_full :
    vmHookMax ≤ v.freeHook ↔ ∀ slot ∈ v.hookList, slot.isFree = false := by
  rw [← firstFree_eq_length, v.hookList_length]
  exact ⟨fun h => Nat.le_antisymm (v.hookList_length ▸ firstFree_le _ _) h, fun h => h.ge⟩

/-- There is no free slot for a device exactly if every slot has one. -/
theorem HookedVm.freeHw_full : vmHwMax ≤ v.freeHw ↔ ∀ slot ∈ v.hwList, slot.isNone = false := by
  rw [← firstFree_eq_length, v.hwList_length]
  exact ⟨fun h => Nat.le_antisymm (v.hwList_length ▸ firstFree_le _ _) h, fun h => h.ge⟩

/-- **The live hooks of a mode are called** when it is fired, each with the user data that it was
registered with. -/
theorem HookRun.Sound.mem_vmHookCalls (h : r.Sound) {t : Holder ℕ (HookSlot H D)} (ht : t ∈ r.hooks)
    {hook : H} (hhook : t.value.hook = some hook) :
    (hook, t.value.userdata) ∈ vmHookCalls r.machine t.value.mode none := by
  have hslot := List.mem_of_getElem? (h.hooks.values t ht)
  refine List.mem_filterMap.mpr ⟨t.value, List.mem_filter.mpr ⟨hslot, decide_eq_true rfl⟩, ?_⟩
  rw [hhook]
  rfl

/-- What is returned first stays where it is. -/
theorem getElem?_append_of_eq_some {α : Type*} {l l' : List α} {i : ℕ} {x : α}
    (h : l[i]? = some x) : (l ++ l')[i]? = some x := by
  rw [List.getElem?_append_left (List.getElem?_eq_some_iff.mp h).1]
  exact h

namespace HookRun.Sound

/-- The number of a slot that is held is the identifier that was returned for it. -/
theorem toNat_eq (h : r.Sound) {t : Holder ℕ (HookSlot H D)} (ht : t ∈ r.hooks) {id : Word}
    (hid : r.returned[t.who]? = some id) : id.toNat = t.slot := by
  have hlt : t.slot < vmHookMax := r.machine.hookList_length ▸ h.hooks.slot_lt ht
  rw [h.identifiers t ht, Option.some_inj] at hid
  rw [← hid, BitVec.toNat_ofNat, Nat.mod_eq_of_lt (hlt.trans (by decide))]

/-- **What may be unregistered** is what belongs to nobody else. -/
theorem mayUnregister_iff (h : r.Sound) (k : ℕ) :
    r.MayUnregister k ↔
      ∀ id, r.returned[k]? = some id → ∀ t ∈ r.hooks, t.slot = id.toNat → t.who = k := by
  constructor
  · rintro (⟨u, hu, rfl⟩ | hnobody) id hid t ht heq
    · rw [h.toNat_eq hu hid] at heq
      rw [h.hooks.eq_of_slot_eq ht hu heq]
    · exact absurd heq (hnobody id hid t ht)
  · intro hmine
    by_cases hlive : ∃ t ∈ r.hooks, t.who = k
    · exact .inl hlive
    · exact .inr fun id hid t ht heq => hlive ⟨t, ht, hmine id hid t ht heq⟩

theorem registerHook (h : r.Sound) (hook : H) (mode : HookMode) (ud : Option D) :
    (r.step (.registerHook hook mode ud)).Sound := by
  rw [HookRun.step, vmHookRegister]
  split
  · refine ⟨h.hooks, h.hardware, fun t ht => ?_, h.identifiersHw⟩
    exact getElem?_append_of_eq_some (h.identifiers t ht)
  · rename_i hroom
    rw [← r.machine.hookList_length, Nat.not_le] at hroom
    refine ⟨h.hooks.take hroom rfl _, h.hardware, ?_, h.identifiersHw⟩
    rw [List.forall_mem_append]
    refine ⟨fun t ht => getElem?_append_of_eq_some (h.identifiers t ht), fun t ht => ?_⟩
    rw [List.mem_singleton.mp ht]
    exact List.getElem?_concat_length

theorem registerHw (h : r.Sound) (hardware : W) : (r.step (.registerHw hardware)).Sound := by
  rw [HookRun.step, vmHwRegister]
  split
  · refine ⟨h.hooks, h.hardware, h.identifiers, fun t ht => ?_⟩
    exact getElem?_append_of_eq_some (h.identifiersHw t ht)
  · rename_i hroom
    rw [← r.machine.hwList_length, Nat.not_le] at hroom
    refine ⟨h.hooks, h.hardware.take hroom rfl _, h.identifiers, ?_⟩
    rw [List.forall_mem_append]
    refine ⟨fun t ht => getElem?_append_of_eq_some (h.identifiersHw t ht), fun t ht => ?_⟩
    rw [List.mem_singleton.mp ht]
    exact List.getElem?_concat_length

/-- **An unregistration keeps the tables right** exactly if the hook is the component's own, or
nobody's. -/
theorem unregisterHook_iff (h : r.Sound) (k : ℕ) :
    (r.step (.unregisterHook k)).Sound ↔ r.MayUnregister k := by
  rw [h.mayUnregister_iff, HookRun.step]
  rcases hk : r.returned[k]? with - | id
  · exact iff_of_true h nofun
  · have hrelease := h.hooks.release_iff (e := ⟨none, .none, none⟩) rfl id.toNat k
    constructor
    · rintro h' _ ⟨⟩
      exact hrelease.mp h'.hooks
    · intro hmine
      exact ⟨hrelease.mpr (hmine id rfl), h.hardware,
        fun t ht => h.identifiers t (List.mem_filter.mp ht).1, h.identifiersHw⟩

/-- A call does no harm if it is no unregistration of another's hook. -/
theorem harmless (h : r.Sound) {call : HookCall H D W}
    (hmay : ∀ k, call = .unregisterHook k → r.MayUnregister k) : r.Harmless call := by
  refine ⟨?_, ?_, ?_⟩
  · rintro hook mode ud rfl hfull
    rw [HookRun.step, vmHookRegister, if_pos (HookedVm.freeHook_full.mpr hfull)]
  · rintro hardware rfl hfull
    rw [HookRun.step, vmHwRegister, if_pos (HookedVm.freeHw_full.mpr hfull)]
  · rintro k rfl t ht hne
    have hmine := (h.mayUnregister_iff k).mp (hmay k rfl)
    rw [HookRun.step]
    rcases hk : r.returned[k]? with - | id
    · exact h.hooks.values t ht
    · change (r.machine.hookList.set id.toNat _)[t.slot]? = _
      rw [List.getElem?_set_ne fun heq => hne (hmine id hk t ht heq.symm)]
      exact h.hooks.values t ht

end HookRun.Sound

end Step

/-! ### Sequences -/

/-- The first `n + 1` calls are the first `n` and one more. -/
theorem hookRun_take_succ (vm : Vm) {calls : List (HookCall H D W)} {n : ℕ} {call : HookCall H D W}
    (h : calls[n]? = some call) :
    hookRun vm (calls.take (n + 1)) = (hookRun vm (calls.take n)).step call := by
  rw [List.take_add_one, h, hookRun, List.foldl_append]
  rfl

/-- A machine without hooks and devices is right. -/
theorem sound_hookRun_nil (vm : Vm) : (hookRun vm ([] : List (HookCall H D W))).Sound :=
  ⟨holds_nil _ _, holds_nil _ _, fun _ h => absurd h List.not_mem_nil,
    fun _ h => absurd h List.not_mem_nil⟩

/-- **The tables stay right** in a sequence of calls, and no call does harm, exactly if only what is
live, or has become nobody's, is unregistered. -/
theorem hooks_kept_iff (vm : Vm) (calls : List (HookCall H D W)) :
    ((∀ n, (hookRun vm (calls.take n)).Sound) ∧
        ∀ n call, calls[n]? = some call → (hookRun vm (calls.take n)).Harmless call) ↔
      ∀ n k, calls[n]? = some (.unregisterHook k) →
        (hookRun vm (calls.take n)).MayUnregister k := by
  constructor
  · rintro ⟨hsound, -⟩ n k hcall
    have hnext := hsound (n + 1)
    rw [hookRun_take_succ vm hcall] at hnext
    exact ((hsound n).unregisterHook_iff k).mp hnext
  · intro hmay
    have hsound : ∀ n, (hookRun vm (calls.take n)).Sound := by
      intro n
      induction n with
      | zero => exact sound_hookRun_nil vm
      | succ n ih =>
        rcases hcall : calls[n]? with - | call
        · rw [List.take_add_one, hcall, Option.toList_none, List.append_nil]
          exact ih
        · rw [hookRun_take_succ vm hcall]
          cases call with
          | registerHook hook mode ud => exact ih.registerHook hook mode ud
          | registerHw hardware => exact ih.registerHw hardware
          | unregisterHook k => exact (ih.unregisterHook_iff k).mpr (hmay n k hcall)
    refine ⟨hsound, fun n call hcall => (hsound n).harmless ?_⟩
    rintro k rfl
    exact hmay n k hcall

/-- Fifty hooks, one more for which there is no slot, and that one is unregistered. -/
def fiftyOneHooks : List (HookCall ℕ ℕ ℕ) :=
  (List.range 51).map (fun i => .registerHook i .onWrite none) ++ [.unregisterHook 50]

/-- The component that comes last removes the hook of the first when it is freed. -/
theorem not_forall_hooks_kept :
    ¬ ∀ (vm : Vm) (calls : List (HookCall ℕ ℕ ℕ)),
      (∀ n, (hookRun vm (calls.take n)).Sound) ∧
        ∀ n call, calls[n]? = some call → (hookRun vm (calls.take n)).Harmless call := by
  intro h
  have hharmless := (h {} fiftyOneHooks).2 51 (.unregisterHook 50) (by decide)
  have hfirst : (hookRun {} (fiftyOneHooks.take 51)).hooks[0]? =
      some ⟨0, 0, ⟨some 0, .onWrite, none⟩⟩ := by decide +kernel
  have hkept := hharmless.others 50 rfl _ (List.mem_of_getElem? hfirst) (by decide)
  have hremoved : ((hookRun {} (fiftyOneHooks.take 51)).step
      (.unregisterHook 50)).machine.hookList[0]? = some ⟨none, .none, none⟩ := by decide +kernel
  rw [hremoved] at hkept
  cases hkept

end DcpuToolchain
