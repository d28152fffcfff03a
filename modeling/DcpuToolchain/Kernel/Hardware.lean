import DcpuToolchain.Asm.Running

/-!
# Locating a device

`locate_device` of the kernel (`kernel/stubsys/hardware.dasm16`) asks one device after the other
for what it is, from the last to the first, until it finds the one that is asked for. Its lines
are assembled here, and run wherever they are in the memory
(`DcpuToolchain.locateDevice_returns`): the routine returns with the number of the last device
with this identification, or with zero if there is none – which is the number of the first
device as well.
-/

namespace DcpuToolchain

open Relation

/-! ### The program -/

/-- `hardware.dasm16`, less its directive for the linker. -/
def locateDeviceLines : List AstNodeLine :=
  [.label "locate_device",
    .instruction "SET" [.registr "PUSH" false, .registr "A" false],
    .instruction "SET" [.registr "PUSH" false, .registr "B" false],
    .instruction "HWN" [.registr "I" false],
    .label "_locate_enum",
    .instruction "SUB" [.registr "I" false, .address (.number 1) false none],
    .instruction "IFE" [.registr "I" false, .address (.number 0xffff) false none],
    .instruction "SET" [.registr "PC" false, .address (.label "_locate_none_found") false none],
    .instruction "SET" [.registr "J" false, .registr "SP" false],
    .label "_hw_searchloop",
    .instruction "HWQ" [.registr "I" false],
    .instruction "IFN" [.registr "A" false, .registr "J" true],
    .instruction "SET" [.registr "PC" false, .address (.label "_locate_enum") false none],
    .label "_hw_searchloop_a_e",
    .instruction "IFE" [.registr "B" false, .address (.number 1) true (some "J")],
    .instruction "SET" [.registr "PC" false, .address (.label "_locate_found") false none],
    .instruction "SET" [.registr "PC" false, .address (.label "_locate_enum") false none],
    .label "_locate_none_found",
    .instruction "ADD" [.registr "SP" false, .address (.number 2) false none],
    .instruction "SET" [.registr "A" false, .address (.number 0) false none],
    .instruction "SET" [.registr "PC" false, .registr "POP" false],
    .label "_locate_found",
    .instruction "ADD" [.registr "SP" false, .address (.number 2) false none],
    .instruction "SET" [.registr "A" false, .registr "I" false],
    .instruction "SET" [.registr "PC" false, .registr "POP" false]]

/-- What these lines say. -/
def locateDeviceItems : List LineItem :=
  [.label "locate_device",
    .instr (.basic .set .pushPop (.reg 0)),
    .instr (.basic .set .pushPop (.reg 1)),
    .instr (.nonbasic .hwn (.reg 6)),
    .label "_locate_enum",
    .instr (.basic .sub (.reg 6) (.nxtLit (.number 1))),
    .instr (.basic .ife (.reg 6) (.nxtLit (.number 0xffff))),
    .instr (.basic .set .pc (.nxtLit (.label "_locate_none_found"))),
    .instr (.basic .set (.reg 7) .sp),
    .label "_hw_searchloop",
    .instr (.nonbasic .hwq (.reg 6)),
    .instr (.basic .ifn (.reg 0) (.val 7)),
    .instr (.basic .set .pc (.nxtLit (.label "_locate_enum"))),
    .label "_hw_searchloop_a_e",
    .instr (.basic .ife (.reg 1) (.nxtVal 7 (.number 1))),
    .instr (.basic .set .pc (.nxtLit (.label "_locate_found"))),
    .instr (.basic .set .pc (.nxtLit (.label "_locate_enum"))),
    .label "_locate_none_found",
    .instr (.basic .add .sp (.nxtLit (.number 2))),
    .instr (.basic .set (.reg 0) (.nxtLit (.number 0))),
    .instr (.basic .set .pc .pushPop),
    .label "_locate_found",
    .instr (.basic .add .sp (.nxtLit (.number 2))),
    .instr (.basic .set (.reg 0) (.reg 6)),
    .instr (.basic .set .pc .pushPop)]

theorem programItems_locateDevice : programItems locateDeviceLines = some locateDeviceItems := by
  decide +kernel

/-- The instructions, from a position on. -/
def locateDeviceCode (p : ℕ) : List (ℕ × Instr Word) :=
  [(p, .basic .set .pushPop (.reg 0)),
    (p + 1, .basic .set .pushPop (.reg 1)),
    (p + 2, .nonbasic .hwn (.reg 6)),
    (p + 3, .basic .sub (.reg 6) (.nxtLit 1)),
    (p + 5, .basic .ife (.reg 6) (.nxtLit 0xffff)),
    (p + 7, .basic .set .pc (.nxtLit (BitVec.ofNat 16 (p + 20)))),
    (p + 9, .basic .set (.reg 7) .sp),
    (p + 10, .nonbasic .hwq (.reg 6)),
    (p + 11, .basic .ifn (.reg 0) (.val 7)),
    (p + 12, .basic .set .pc (.nxtLit (BitVec.ofNat 16 (p + 3)))),
    (p + 14, .basic .ife (.reg 1) (.nxtVal 7 1)),
    (p + 16, .basic .set .pc (.nxtLit (BitVec.ofNat 16 (p + 25)))),
    (p + 18, .basic .set .pc (.nxtLit (BitVec.ofNat 16 (p + 3)))),
    (p + 20, .basic .add .sp (.nxtLit 2)),
    (p + 22, .basic .set (.reg 0) (.nxtLit 0)),
    (p + 24, .basic .set .pc .pushPop),
    (p + 25, .basic .add .sp (.nxtLit 2)),
    (p + 27, .basic .set (.reg 0) (.reg 6)),
    (p + 28, .basic .set .pc .pushPop)]

theorem labelValues_locateDevice (p : ℕ) :
    labelValues p locateDeviceItems "_locate_enum" = some (BitVec.ofNat 16 (p + 3)) ∧
      labelValues p locateDeviceItems "_locate_none_found" = some (BitVec.ofNat 16 (p + 20)) ∧
      labelValues p locateDeviceItems "_locate_found" = some (BitVec.ofNat 16 (p + 25)) := by
  simp [labelValues, locateDeviceItems, labelPosition, LineItem.size, Instr.size, Instr.nexts,
    ArgA.next, Arg.next]

theorem resolved_locateDevice (p : ℕ) : resolved p locateDeviceItems = locateDeviceCode p := by
  obtain ⟨henum, hnone, hfound⟩ := labelValues_locateDevice p
  have hresolved : resolved p locateDeviceItems = (listing p locateDeviceItems).map fun q =>
      (q.1, q.2.map (exprValue (labelValues p locateDeviceItems))) := rfl
  rw [hresolved]
  generalize labelValues p locateDeviceItems = labels at henum hnone hfound
  simp only [locateDeviceItems, listing, List.map_cons, List.map_nil, Instr.map, ArgA.map, Arg.map,
    exprValue_number, exprValue_label, henum, hnone, hfound, Option.getD_some, LineItem.size]
  rfl

/-! ### Runs of the program -/

/-- A state inside the routine, which was called in the state `s`. -/
def Core.locating (s : Core) (p : ℕ) (registers : Fin 8 → Word) (ex : Word) : Core :=
  { s with
    registers := registers
    pc := BitVec.ofNat 16 p
    sp := s.sp - 1 - 1
    ex := ex
    ram := Function.update (Function.update s.ram (s.sp - 1) (s.registers 0)) (s.sp - 1 - 1)
      (s.registers 1)
    skip := false }

section Blocks

variable {host : Host} {p : ℕ} {s : Core} {registers : Fin 8 → Word} {ex : Word}

/-- What is pushed does not reach into the routine. -/
def StackApart (p size : ℕ) (sp : Word) (depth : ℕ) : Prop :=
  ∀ k < size, ∀ j, 1 ≤ j → j ≤ depth → BitVec.ofNat 16 (p + k) ≠ sp - BitVec.ofNat 16 j

/-- A step in the routine that does not store in the memory. -/
theorem locate_next (k : ℕ) {q : ℕ × Instr Word} {t u : Core} {n : ℕ} {b : Bool}
    (hq : (locateDeviceCode p)[k]? = some q) (hpc : s.pc = BitVec.ofNat 16 q.1)
    (hstep : s.step host q.2 = some t) (hram : t.ram = s.ram) (hn : t.pc = BitVec.ofNat 16 n)
    (hb : t.skip = b) (hu : { t with pc := BitVec.ofNat 16 n, skip := b } = u) :
    Runs host p locateDeviceItems s u := by
  refine .next hpc ?_ hstep (spares_of_ram hram) hn hb hu
  rw [resolved_locateDevice]
  exact List.mem_of_getElem? hq

/-- A test that holds, and the jump behind it. -/
theorem locate_holds (k : ℕ) {i : Instr Word} {n m target : ℕ}
    (htest : (locateDeviceCode p)[k]? = some (n, i))
    (hjump : (locateDeviceCode p)[k + 1]? =
      some (m, .basic .set .pc (.nxtLit (BitVec.ofNat 16 target))))
    (hstep : (s.locating n registers ex).step host i = some (s.locating m registers ex)) :
    ReflTransGen (Runs host p locateDeviceItems) (s.locating n registers ex)
      (s.locating target registers ex) :=
  .tail (.single (locate_next k htest rfl hstep rfl rfl rfl rfl))
    (locate_next (k + 1) hjump rfl rfl rfl rfl rfl rfl)

/-- A test that fails, so that the jump behind it is skipped. -/
theorem locate_fails (k : ℕ) {i : Instr Word} {n m target : ℕ}
    (htest : (locateDeviceCode p)[k]? = some (n, i))
    (hjump : (locateDeviceCode p)[k + 1]? =
      some (m, .basic .set .pc (.nxtLit (BitVec.ofNat 16 target))))
    (hstep : (s.locating n registers ex).step host i =
      some { s.locating m registers ex with skip := true }) :
    ReflTransGen (Runs host p locateDeviceItems) (s.locating n registers ex)
      (s.locating (m + 2) registers ex) :=
  .tail (.single (locate_next k htest rfl hstep rfl rfl rfl rfl))
    (locate_next (k + 1) hjump rfl rfl rfl (BitVec.ofNat_add _ _).symm rfl rfl)

/-- The number of the device is tested. -/
theorem step_ife_number : (s.locating (p + 5) registers ex).step host
    (.basic .ife (.reg 6) (.nxtLit 0xffff)) =
      some { s.locating (p + 7) registers ex with skip := !decide (registers 6 = 0xffff) } := by
  have hstep : (s.locating (p + 5) registers ex).step host (.basic .ife (.reg 6) (.nxtLit 0xffff)) =
      some { s.locating (p + 7) registers ex with
        pc := BitVec.ofNat 16 (p + 5) + 1 + 1
        skip := !decide (registers 6 = 0xffff) } := rfl
  rw [hstep, advance_two]
  rfl

/-- The first half of the identification is tested: it is on the top of the stack. -/
theorem step_ifn_first (hj : registers 7 = s.sp - 1 - 1) :
    (s.locating (p + 11) registers ex).step host (.basic .ifn (.reg 0) (.val 7)) =
      some { s.locating (p + 12) registers ex with
        skip := !decide (registers 0 ≠ s.registers 1) } := by
  have htop : (s.locating (p + 11) registers ex).ram (registers 7) = s.registers 1 := by
    rw [hj]
    exact Function.update_self _ _ _
  have hstep : (s.locating (p + 11) registers ex).step host (.basic .ifn (.reg 0) (.val 7)) =
      some { s.locating (p + 12) registers ex with
        pc := BitVec.ofNat 16 (p + 11) + 1
        skip :=
          !decide (registers 0 ≠ (s.locating (p + 11) registers ex).ram (registers 7)) } := rfl
  rw [hstep, htop, advance_one]
  rfl

/-- The second half is tested: it is in the word above. -/
theorem step_ife_second (hj : registers 7 = s.sp - 1 - 1) :
    (s.locating (p + 14) registers ex).step host (.basic .ife (.reg 1) (.nxtVal 7 1)) =
      some { s.locating (p + 16) registers ex with
        skip := !decide (registers 1 = s.registers 0) } := by
  have hne : s.sp - 1 - 1 + 1 ≠ s.sp - 1 - 1 := by bv_omega
  have heq : s.sp - 1 - 1 + 1 = s.sp - 1 := by bv_omega
  have habove : (s.locating (p + 14) registers ex).ram (registers 7 + 1) = s.registers 0 := by
    rw [hj]
    change Function.update (Function.update s.ram (s.sp - 1) (s.registers 0)) (s.sp - 1 - 1)
      (s.registers 1) (s.sp - 1 - 1 + 1) = _
    rw [Function.update_of_ne hne, heq, Function.update_self]
  have hstep : (s.locating (p + 14) registers ex).step host (.basic .ife (.reg 1) (.nxtVal 7 1)) =
      some { s.locating (p + 16) registers ex with
        pc := BitVec.ofNat 16 (p + 14) + 1 + 1
        skip := !decide (registers 1 =
          (s.locating (p + 14) registers ex).ram (registers 7 + 1)) } := rfl
  rw [hstep, habove, advance_two]
  rfl

/-- The next device is the one before. -/
theorem locate_sub : Runs host p locateDeviceItems (s.locating (p + 3) registers ex)
    (s.locating (p + 5) (Function.update registers 6 (registers 6 - 1))
      (arithmeticFlow ((registers 6).toNat - 1))) :=
  locate_next 3 rfl rfl rfl rfl (advance_two _) rfl rfl

/-- There was no device before. -/
theorem locate_none (h : registers 6 = 0xffff) :
    ReflTransGen (Runs host p locateDeviceItems) (s.locating (p + 5) registers ex)
      (s.locating (p + 20) registers ex) :=
  locate_holds 4 rfl rfl (by rw [step_ife_number, decide_eq_true h]; rfl)

/-- There is a device, which is asked. -/
theorem locate_ask (h : registers 6 ≠ 0xffff) {device : Hw}
    (hdevice : host.hwList[(registers 6).toNat]? = some device) :
    ReflTransGen (Runs host p locateDeviceItems) (s.locating (p + 5) registers ex)
      (s.locating (p + 11) ((s.locating (p + 10)
        (Function.update registers 7 (s.sp - 1 - 1)) ex).identify device).registers ex) := by
  have hother : ReflTransGen (Runs host p locateDeviceItems) (s.locating (p + 5) registers ex)
      (s.locating (p + 9) registers ex) :=
    locate_fails 4 rfl rfl (by rw [step_ife_number, decide_eq_false h]; rfl)
  have hset : Runs host p locateDeviceItems (s.locating (p + 9) registers ex)
      (s.locating (p + 10) (Function.update registers 7 (s.sp - 1 - 1)) ex) :=
    locate_next 6 rfl rfl rfl rfl (advance_one _) rfl rfl
  refine .tail (.tail hother hset) ?_
  have hasked : (s.locating (p + 10) (Function.update registers 7 (s.sp - 1 - 1)) ex).step host
      (.nonbasic .hwq (.reg 6)) =
        some (((s.locating (p + 10) (Function.update registers 7 (s.sp - 1 - 1)) ex).pass).identify
          device) := by
    have hstep : (s.locating (p + 10) (Function.update registers 7 (s.sp - 1 - 1)) ex).step host
        (.nonbasic .hwq (.reg 6)) = some ((host.hwList[(registers 6).toNat]?).elim
          (s.locating (p + 10) (Function.update registers 7 (s.sp - 1 - 1)) ex).pass
          (s.locating (p + 10) (Function.update registers 7 (s.sp - 1 - 1)) ex).pass.identify) := rfl
    rw [hstep, hdevice, Option.elim_some]
  exact locate_next 7 rfl rfl hasked rfl (advance_one _) rfl rfl

/-- The end of the routine, which was called in the state `s`. -/
def Core.located (s : Core) (p : ℕ) (registers : Fin 8 → Word) (ex : Word) : Core :=
  { s.locating p registers ex with sp := s.sp }

/-- The state in which the routine has returned. -/
def Core.locateReturned (s : Core) (registers : Fin 8 → Word) (ex : Word) : Core :=
  { s.located 0 registers ex with pc := s.ram s.sp, sp := s.sp + 1 }

/-- What was pushed is dropped. -/
theorem locate_drop {p' : ℕ} {k : ℕ}
    (hk : (locateDeviceCode p)[k]? = some (p', .basic .add .sp (.nxtLit 2))) :
    Runs host p locateDeviceItems (s.locating p' registers ex)
      (s.located (p' + 2) registers (arithmeticFlow ((s.sp - 1 - 1).toNat + 2))) := by
  have hsp : s.sp - 1 - 1 + 2 = s.sp := by bv_omega
  refine locate_next k hk rfl rfl rfl (advance_two _) rfl ?_
  change { s.locating (p' + 2) registers (arithmeticFlow ((s.sp - 1 - 1).toNat + 2)) with
    sp := s.sp - 1 - 1 + 2 } = _
  rw [hsp]
  rfl

/-- The address to return to is popped. -/
theorem locate_return {p' : ℕ} {k : ℕ}
    (hk : (locateDeviceCode p)[k]? = some (p', .basic .set .pc .pushPop)) :
    Runs host p locateDeviceItems (s.located p' registers ex)
      (s.locateReturned registers ex) := by
  have hfirst : s.sp ≠ s.sp - 1 := by bv_omega
  have hsecond : s.sp ≠ s.sp - 1 - 1 := by bv_omega
  have htop : (s.located p' registers ex).ram s.sp = s.ram s.sp := by
    change Function.update (Function.update s.ram (s.sp - 1) (s.registers 0)) (s.sp - 1 - 1)
      (s.registers 1) s.sp = _
    rw [Function.update_of_ne hsecond, Function.update_of_ne hfirst]
  refine ⟨(p', .basic .set .pc .pushPop), ?_, rfl, ?_, spares_of_ram rfl⟩
  · rw [resolved_locateDevice]
    exact List.mem_of_getElem? hk
  · rw [Core.locateReturned, ← htop]
    rfl

/-- No device was found. -/
theorem locate_return_none :
    ∃ ex', ReflTransGen (Runs host p locateDeviceItems) (s.locating (p + 20) registers ex)
      (s.locateReturned (Function.update registers 0 0) ex') := by
  have hset : ∀ ex, Runs host p locateDeviceItems (s.located (p + 22) registers ex)
      (s.located (p + 24) (Function.update registers 0 0) ex) := fun ex =>
    locate_next 14 rfl rfl rfl rfl (advance_two _) rfl rfl
  exact ⟨_, .tail (.tail (.single (locate_drop (k := 13) rfl)) (hset _))
    (locate_return (k := 15) rfl)⟩

/-- The device was found. -/
theorem locate_return_found :
    ∃ ex', ReflTransGen (Runs host p locateDeviceItems) (s.locating (p + 25) registers ex)
      (s.locateReturned (Function.update registers 0 (registers 6)) ex') := by
  have hset : ∀ ex, Runs host p locateDeviceItems (s.located (p + 27) registers ex)
      (s.located (p + 28) (Function.update registers 0 (registers 6)) ex) := fun ex =>
    locate_next 17 rfl rfl rfl rfl (advance_one _) rfl rfl
  exact ⟨_, .tail (.tail (.single (locate_drop (k := 16) rfl)) (hset _))
    (locate_return (k := 18) rfl)⟩

/-! ### The loop -/

/-- A device with an identification. -/
def Hw.Identified (device : Hw) (high low : Word) : Prop :=
  device.id.extractLsb' 0 16 = low ∧ device.id.extractLsb' 16 16 = high

instance decidableIdentified (device : Hw) (high low : Word) :
    Decidable (device.Identified high low) := inferInstanceAs (Decidable (_ ∧ _))

/-- The number of the last device with an identification, among those below a number; zero if
there is none. -/
def locateBelow (host : Host) (high low : Word) : ℕ → Word
  | 0 => 0
  | n + 1 =>
    if ∃ device ∈ host.hwList[n]?, device.Identified high low then BitVec.ofNat 16 n
    else locateBelow host high low n

/-- **The loop** returns with the last of the devices below the one it begins with. -/
theorem locate_loop {n : ℕ} (hn : n ≤ host.hwList.length) (h : registers 6 = BitVec.ofNat 16 n) :
    ∃ registers' ex', ReflTransGen (Runs host p locateDeviceItems)
      (s.locating (p + 3) registers ex) (s.locateReturned registers' ex') ∧
        registers' 0 = locateBelow host (s.registers 0) (s.registers 1) n ∧
        registers' 5 = registers 5 := by
  induction n generalizing registers ex with
  | zero =>
    have hlast : Function.update registers 6 (registers 6 - 1) 6 = 0xffff := by
      rw [Function.update_self, h]
      rfl
    obtain ⟨ex', hreturn⟩ := @locate_return_none host p s
      (Function.update registers 6 (registers 6 - 1)) (arithmeticFlow ((registers 6).toNat - 1))
    exact ⟨_, ex', .head locate_sub ((locate_none hlast).trans hreturn), rfl, rfl⟩
  | succ n ih =>
    obtain ⟨registers₁, hregisters₁⟩ :
        ∃ registers₁, registers₁ = Function.update registers 6 (registers 6 - 1) := ⟨_, rfl⟩
    have hlength : host.hwList.length ≤ 32 := host.hwFits
    have hnumber : registers₁ 6 = BitVec.ofNat 16 n := by
      rw [hregisters₁, Function.update_self, h, BitVec.ofNat_add]
      exact BitVec.add_sub_cancel _ _
    have hne : registers₁ 6 ≠ 0xffff := by
      rw [hnumber]
      bv_omega
    have hdevice : host.hwList[(registers₁ 6).toNat]? = some host.hwList[n] := by
      rw [hnumber, BitVec.toNat_ofNat, Nat.mod_eq_of_lt (by omega), List.getElem?_eq_getElem hn]
    obtain ⟨device, hat⟩ : ∃ device, device = host.hwList[n] := ⟨_, rfl⟩
    rw [← hat] at hdevice
    have hasks : ∀ ex, ReflTransGen (Runs host p locateDeviceItems)
        (s.locating (p + 3) registers ex) (s.locating (p + 11) ((s.locating (p + 10)
          (Function.update registers₁ 7 (s.sp - 1 - 1)) (arithmeticFlow ((registers 6).toNat - 1))
            ).identify device).registers (arithmeticFlow ((registers 6).toNat - 1))) := by
      intro ex
      refine .head locate_sub ?_
      rw [← hregisters₁]
      exact locate_ask hne hdevice
    -- the registers once the device has been asked
    obtain ⟨registers₂, hregisters₂⟩ : ∃ registers₂, registers₂ = ((s.locating (p + 10)
      (Function.update registers₁ 7 (s.sp - 1 - 1)) (arithmeticFlow ((registers 6).toNat - 1))
        ).identify device).registers := ⟨_, rfl⟩
    have hzero : registers₂ 0 = device.id.extractLsb' 0 16 := by rw [hregisters₂]; rfl
    have hone : registers₂ 1 = device.id.extractLsb' 16 16 := by rw [hregisters₂]; rfl
    have hfive : registers₂ 5 = registers 5 := by rw [hregisters₂, hregisters₁]; rfl
    have hsix : registers₂ 6 = BitVec.ofNat 16 n := by rw [hregisters₂, ← hnumber]; rfl
    have hseven : registers₂ 7 = s.sp - 1 - 1 := by rw [hregisters₂]; rfl
    rw [← hregisters₂] at hasks
    have hbelow : locateBelow host (s.registers 0) (s.registers 1) (n + 1) =
        if device.Identified (s.registers 0) (s.registers 1) then BitVec.ofNat 16 n
        else locateBelow host (s.registers 0) (s.registers 1) n := by
      rw [locateBelow, List.getElem?_eq_getElem hn, ← hat]
      simp only [Option.mem_def, Option.some.injEq, exists_eq_left']
    rw [hbelow]
    by_cases hlow : registers₂ 0 = s.registers 1
    · have hsame : ReflTransGen (Runs host p locateDeviceItems)
          (s.locating (p + 11) registers₂ (arithmeticFlow ((registers 6).toNat - 1)))
          (s.locating (p + 14) registers₂ (arithmeticFlow ((registers 6).toNat - 1))) :=
        locate_fails 8 rfl rfl
          (by rw [step_ifn_first hseven, decide_eq_false (not_not.mpr hlow)]; rfl)
      by_cases hhigh : registers₂ 1 = s.registers 0
      · rw [if_pos ⟨hzero.symm.trans hlow, hone.symm.trans hhigh⟩]
        obtain ⟨ex', hreturn⟩ := @locate_return_found host p s registers₂
          (arithmeticFlow ((registers 6).toNat - 1))
        exact ⟨_, ex', (hasks ex).trans (hsame.trans
          ((locate_holds 10 rfl rfl
            (by rw [step_ife_second hseven, decide_eq_true hhigh]; rfl)).trans hreturn)),
          hsix, hfive⟩
      · rw [if_neg fun hid => hhigh (hone.trans hid.2)]
        obtain ⟨registers', ex', hrest, hresult, hkept⟩ := @ih registers₂
          (arithmeticFlow ((registers 6).toNat - 1)) (by omega) hsix
        have hother : ReflTransGen (Runs host p locateDeviceItems)
            (s.locating (p + 14) registers₂ (arithmeticFlow ((registers 6).toNat - 1)))
            (s.locating (p + 18) registers₂ (arithmeticFlow ((registers 6).toNat - 1))) :=
          locate_fails 10 rfl rfl (by rw [step_ife_second hseven, decide_eq_false hhigh]; rfl)
        exact ⟨registers', ex', (hasks ex).trans (hsame.trans ((hother.tail
          (locate_next 12 rfl rfl rfl rfl rfl rfl rfl)).trans hrest)), hresult, hkept.trans hfive⟩
    · rw [if_neg fun hid => hlow (hzero.trans hid.1)]
      obtain ⟨registers', ex', hrest, hresult, hkept⟩ := @ih registers₂
        (arithmeticFlow ((registers 6).toNat - 1)) (by omega) hsix
      exact ⟨registers', ex', (hasks ex).trans ((locate_holds 8 rfl rfl
        (by rw [step_ifn_first hseven, decide_eq_true hlow]; rfl)).trans hrest),
        hresult, hkept.trans hfive⟩

/-- The arguments are pushed, and the devices are counted. -/
theorem locate_enter (hpc : s.pc = BitVec.ofNat 16 p) (hskip : s.skip = false)
    (hapart : StackApart p 29 s.sp 2) :
    ReflTransGen (Runs host p locateDeviceItems) s
      (s.locating (p + 3) (Function.update s.registers 6 (vmHwCount host)) s.ex) := by
  have hsize : (locateDeviceItems.map LineItem.size).sum = 29 := rfl
  have hsecond : s.sp - BitVec.ofNat 16 2 = s.sp - 1 - 1 := by bv_omega
  have hmem : ∀ {k : ℕ} {q : ℕ × Instr Word}, (locateDeviceCode p)[k]? = some q →
      q ∈ resolved p locateDeviceItems := by
    intro k q hq
    rw [resolved_locateDevice]
    exact List.mem_of_getElem? hq
  obtain ⟨registers, pc, sp, ia, ex, ram, queueInterrupts, skip⟩ := s
  obtain rfl : skip = false := hskip
  have hpushA : Runs host p locateDeviceItems
      ⟨registers, pc, sp, ia, ex, ram, queueInterrupts, false⟩
      ⟨registers, BitVec.ofNat 16 (p + 1), sp - 1, ia, ex,
        Function.update ram (sp - 1) (registers 0), queueInterrupts, false⟩ := by
    refine .next hpc (hmem (k := 0) rfl) rfl (spares_update (a := sp - 1) ?_ rfl) ?_ rfl rfl
    · intro k hk
      exact hapart k (hsize ▸ hk) 1 le_rfl (by decide)
    · exact (congrArg (· + 1) hpc).trans (advance_one p)
  have hpushB : Runs host p locateDeviceItems
      ⟨registers, BitVec.ofNat 16 (p + 1), sp - 1, ia, ex,
        Function.update ram (sp - 1) (registers 0), queueInterrupts, false⟩
      ⟨registers, BitVec.ofNat 16 (p + 2), sp - 1 - 1, ia, ex,
        Function.update (Function.update ram (sp - 1) (registers 0)) (sp - 1 - 1) (registers 1),
        queueInterrupts, false⟩ := by
    refine .next rfl (hmem (k := 1) rfl) rfl (spares_update (a := sp - 1 - 1) ?_ rfl) ?_ rfl rfl
    · intro k hk
      rw [← hsecond]
      exact hapart k (hsize ▸ hk) 2 (by decide) le_rfl
    · exact advance_one (p + 1)
  exact .tail (.tail (.single hpushA) hpushB)
    (locate_next 2 rfl rfl rfl rfl (advance_one _) rfl rfl)

end Blocks

/-! ### What the routine does -/

/-- The last of the devices with an identification, or zero. -/
def LastDevice (host : Host) (high low w : Word) : Prop :=
  (∃ n device, host.hwList[n]? = some device ∧ device.Identified high low ∧
    w = BitVec.ofNat 16 n ∧
    ∀ m device', n < m → host.hwList[m]? = some device' → ¬ device'.Identified high low) ∨
  (w = 0 ∧ ∀ device ∈ host.hwList, ¬ device.Identified high low)

theorem lastDevice_locateBelow (host : Host) (high low : Word) :
    LastDevice host high low (locateBelow host high low host.hwList.length) := by
  have hbelow : ∀ n ≤ host.hwList.length,
      (∀ m device, n ≤ m → host.hwList[m]? = some device → ¬ device.Identified high low) →
        LastDevice host high low (locateBelow host high low n) := by
    intro n
    induction n with
    | zero =>
      intro _ hno
      refine .inr ⟨rfl, fun device hdevice => ?_⟩
      obtain ⟨m, hm⟩ := List.mem_iff_getElem?.mp hdevice
      exact hno m device (Nat.zero_le m) hm
    | succ n ih =>
      intro hn hno
      rw [locateBelow]
      split
      · rename_i hsome
        obtain ⟨device, hdevice, hid⟩ := hsome
        exact .inl ⟨n, device, hdevice, hid, rfl, fun m device' hm => hno m device' hm⟩
      · rename_i hnone
        refine ih (Nat.le_of_succ_le hn) fun m device hm hdevice hid => ?_
        rcases Nat.eq_or_lt_of_le hm with rfl | hlt
        · exact hnone ⟨device, hdevice, hid⟩
        · exact hno m device hlt hdevice hid
  refine hbelow _ le_rfl fun m device hm hdevice => ?_
  rw [List.getElem?_eq_none hm] at hdevice
  cases hdevice

/-- What `locate_device` promises: it returns to where it was called from, with the number of
the device in `A`. It may use the other registers, but not `Z`, and two words of the stack. -/
structure Locates (host : Host) (s s' : Core) : Prop where
  device : LastDevice host (s.registers 0) (s.registers 1) (s'.registers 0)
  pc : s'.pc = s.ram s.sp
  sp : s'.sp = s.sp + 1
  z : s'.registers 5 = s.registers 5
  ia : s'.ia = s.ia
  queueInterrupts : s'.queueInterrupts = s.queueInterrupts
  skip : s'.skip = false
  ram : ∀ a, a ≠ s.sp - 1 → a ≠ s.sp - 2 → s'.ram a = s.ram a

/-- The routine as it stands. -/
theorem runs_locateDevice {host : Host} {p : ℕ} {s : Core} (hpc : s.pc = BitVec.ofNat 16 p)
    (hskip : s.skip = false) (hapart : StackApart p 29 s.sp 2) :
    ∃ s', ReflTransGen (Runs host p locateDeviceItems) s s' ∧ Locates host s s' := by
  have henter := @locate_enter host p s hpc hskip hapart
  obtain ⟨registers', ex', hloop, hresult, hkept⟩ :=
    @locate_loop host p s (Function.update s.registers 6 (vmHwCount host)) s.ex _ le_rfl rfl
  refine ⟨_, henter.trans hloop, ⟨?_, rfl, rfl, hkept, rfl, rfl, rfl, fun a hfirst hsecond => ?_⟩⟩
  · have hzero : (s.locateReturned registers' ex').registers 0 = registers' 0 := rfl
    rw [hzero, hresult]
    exact lastDevice_locateBelow host _ _
  · have htwo : s.sp - 1 - 1 = s.sp - 2 := by bv_omega
    change Function.update (Function.update s.ram (s.sp - 1) (s.registers 0)) (s.sp - 1 - 1)
      (s.registers 1) a = s.ram a
    rw [htwo, Function.update_of_ne hsecond, Function.update_of_ne hfirst]

/-- **`locate_device` returns with the last device** that has the identification in `A` and `B`,
wherever the words of its lines are in the memory, as long as the stack is not in them. -/
theorem locateDevice_returns {host : Host} {p : ℕ} {vm : Vm} {s : Core} {items : List LineItem}
    {words : List Word} (hh : host.hooks = []) (hvm : vm.Rests s)
    (hitems : programItems locateDeviceLines = some items)
    (hwords : itemsWords (labelValues p items) items = some words)
    (hcode : CodeAt s.ram (BitVec.ofNat 16 p) words) (hpc : s.pc = BitVec.ofNat 16 p)
    (hskip : s.skip = false) (hapart : StackApart p 29 s.sp 2) :
    ∃ n vm' s', vmRun (List.replicate n host) vm = some vm' ∧ vm'.Rests s' ∧
      Locates host s s' := by
  obtain rfl : items = locateDeviceItems :=
    Option.some.inj (hitems.symm.trans programItems_locateDevice)
  obtain ⟨s', hruns, hlocates⟩ := @runs_locateDevice host p s hpc hskip hapart
  obtain ⟨n, vm', hn, hrests⟩ := vmRun_program hh hvm hwords hcode hruns
  exact ⟨n, vm', s', hn, hrests, hlocates⟩

/-- The words of the routine, at the beginning of the memory. -/
def locateDeviceWords : List Word :=
  [0x0301, 0x0701, 0x1A00, 0x7CC3, 0x0001, 0x7CD2, 0xFFFF, 0x7F81, 0x0014, 0x6CE1,
    0x1A20, 0x3C13, 0x7F81, 0x0003, 0x5C32, 0x0001, 0x7F81, 0x0019, 0x7F81, 0x0003,
    0x7F62, 0x0002, 0x7C01, 0x0000, 0x6381, 0x7F62, 0x0002, 0x1801, 0x6381]

/-- A clock and a keyboard. -/
def clockAndKeyboard : Host where
  hwList := [⟨0x12d0b402, 1, 0, some⟩, ⟨0x30cf7406, 1, 0, some⟩]

/-- A machine in which the routine has been called for the keyboard, from `0x1234`. -/
def locatingMachine : Vm where
  registers := fun r => if r = 0 then 0x30cf else 0x7406
  sp := 0x8000
  ram := Function.update (fun a => locateDeviceWords.getD a.toNat 0) 0x8000 0x1234

/-- The keyboard has the number 1. -/
theorem locateDevice_returns_keyboard :
    ∃ n vm', vmRun (List.replicate n clockAndKeyboard) locatingMachine = some vm' ∧
      vm'.registers 0 = 1 ∧ vm'.pc = 0x1234 ∧ vm'.sp = 0x8001 := by
  have hcode : CodeAt locatingMachine.ram 0 locateDeviceWords := by
    intro i w hw
    have hi : i < 29 := (List.getElem?_eq_some_iff.mp hw).1
    have hne : (0 : Word) + BitVec.ofNat 16 i ≠ 0x8000 := by bv_omega
    have hat :=
      (codeAt_getD (by decide) : CodeAt (fun a => locateDeviceWords.getD a.toNat 0) 0 _) i w hw
    have hram : locatingMachine.ram =
        Function.update (fun a => locateDeviceWords.getD a.toNat 0) 0x8000 0x1234 := rfl
    rw [hram, Function.update_of_ne hne]
    exact hat
  have hapart : StackApart 0 29 0x8000 2 := by
    intro k hk j hj hj'
    bv_omega
  have hrests : locatingMachine.Rests locatingMachine.core := ⟨⟨rfl, rfl, rfl, rfl, rfl⟩, rfl⟩
  have hwords : itemsWords (labelValues 0 locateDeviceItems) locateDeviceItems =
      some locateDeviceWords := by
    decide +kernel
  have hhooks : clockAndKeyboard.hooks = [] := rfl
  obtain ⟨n, vm', s', hn, hrests, hlocates⟩ :=
    locateDevice_returns hhooks hrests programItems_locateDevice hwords hcode rfl rfl hapart
  obtain rfl := hrests.core
  refine ⟨n, vm', hn, ?_, hlocates.pc, hlocates.sp⟩
  rcases hlocates.device with ⟨m, device, hdevice, hid, hm, -⟩ | ⟨-, hno⟩
  · rcases m with _ | _ | m
    · cases hdevice
      exact absurd hid (by decide)
    · exact hm
    · cases hdevice
  · exact absurd (show (⟨0x30cf7406, 1, 0, some⟩ : Hw).Identified 0x30cf 0x7406 by decide)
      (hno _ (List.mem_cons_of_mem _ List.mem_cons_self))

end DcpuToolchain
