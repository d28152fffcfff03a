import DcpuToolchain.Asm.Program
import DcpuToolchain.Vm.Core
import DcpuToolchain.Vm.Load

/-!
# What a program does

A program of instructions can be run as it stands: the program counter is a position in the
program, the instruction that is there is executed, with the positions for the labels, and what
is stored goes to a memory in which the program need not be (`DcpuToolchain.Runs`).

The machine has the words of the program in its memory, where the instructions are found as long
as nothing is stored over them. It then does what the program does, from the file that the
assembler writes to the machine that the emulator starts
(`DcpuToolchain.emulator_runs_program`) or the debugger flashes
(`DcpuToolchain.debugger_runs_program`), and the disassembler shows the program
(`DcpuToolchain.emulator_shows_program`).
-/

namespace DcpuToolchain

open Relation Stdio

/-! ### Running a program as it stands -/

/-- The value of an expression, where it has one. -/
def exprValue (labels : String → Option Word) (x : Expr) : Word := (evaluated labels x).getD 0

@[simp] theorem exprValue_number (labels : String → Option Word) (w : Word) :
    exprValue labels (.number w) = w := rfl

@[simp] theorem exprValue_label (labels : String → Option Word) (name : String) :
    exprValue labels (.label name) = (labels name).getD 0 := by
  rw [exprValue, evaluated, Expr.evaluate]
  cases labels name <;> rfl

/-- The instructions of a program with their positions, from a position on. -/
def listing : ℕ → List LineItem → List (ℕ × Instr Expr)
  | _, [] => []
  | p, .instr i :: items => (p, i) :: listing (p + i.size) items
  | p, item :: items => listing (p + item.size) items

/-- The instructions of a program that begins at a position, with their positions and with
values for the labels. -/
def resolved (p : ℕ) (items : List LineItem) : List (ℕ × Instr Word) :=
  (listing p items).map fun q => (q.1, q.2.map (exprValue (labelValues p items)))

/-- Nothing is stored over instructions that are at positions. -/
def SparesCode (code : List (ℕ × Instr Word)) (s s' : Core) : Prop :=
  ∀ q ∈ code, ∀ k < q.2.size, s'.ram (BitVec.ofNat 16 (q.1 + k)) =
    s.ram (BitVec.ofNat 16 (q.1 + k))

/-- **Instructions are run**: the one at the program counter is executed, and spares them. -/
def RunsCode (host : Host) (code : List (ℕ × Instr Word)) (s s' : Core) : Prop :=
  ∃ q ∈ code, s.pc = BitVec.ofNat 16 q.1 ∧ s.step host q.2 = some s' ∧ SparesCode code s s'

/-- Nothing is stored over the instructions of a program. -/
def Spares (p : ℕ) (items : List LineItem) (s s' : Core) : Prop :=
  SparesCode (resolved p items) s s'

/-- A program is run. -/
def Runs (host : Host) (p : ℕ) (items : List LineItem) (s s' : Core) : Prop :=
  RunsCode host (resolved p items) s s'

/-- A program that is about to be run, in a memory. -/
def Core.start (ram : Word → Word) : Core where
  registers := fun _ => 0
  pc := 0
  sp := 0
  ia := 0
  ex := 0
  ram := ram
  queueInterrupts := false
  skip := false

/-! ### Where the instructions are -/

section Listing

variable {value : Expr → Option Word} {items : List LineItem} {words : List Word}

theorem valueAll_eq {xs : List Expr} (h : valueAll value xs = some words) :
    words = xs.map fun x => (value x).getD 0 := by
  induction xs generalizing words with
  | nil =>
    cases h
    rfl
  | cons x xs ih =>
    rw [valueAll] at h
    split at h
    · rename_i w ws hw hws
      cases h
      rw [List.map_cons, ← ih hws, hw, Option.getD_some]
    · cases h

/-- The words of an instruction with values. -/
theorem words_instr {i : Instr Expr} (h : (LineItem.instr i).words value = some words) :
    words = (i.map fun x => (value x).getD 0).encode := by
  obtain ⟨ws, hws, rfl⟩ := Option.map_eq_some_iff.mp h
  rw [valueAll_eq hws, Instr.encode, Instr.word_map, Instr.nexts_map]

theorem length_words {item : LineItem} (h : item.words value = some words) :
    words.length = item.size := by
  cases item with
  | label name =>
    cases h
    rfl
  | raw w =>
    cases h
    rfl
  | value x =>
    rw [valueAll_eq h, List.length_map]
    rfl
  | instr i => rw [words_instr h, Instr.length_encode, Instr.size_map, LineItem.size]

/-- **The words of each instruction are at its position**, and end within those of the program. -/
theorem codeAt_listing {ram : Word → Word} {p : ℕ} (hitems : itemsValues value items = some words)
    (hcode : CodeAt ram (BitVec.ofNat 16 p) words) {q : ℕ × Instr Expr}
    (hq : q ∈ listing p items) :
    CodeAt ram (BitVec.ofNat 16 q.1) (q.2.map fun x => (value x).getD 0).encode ∧
      q.1 + q.2.size ≤ p + words.length := by
  induction items generalizing p words with
  | nil => exact absurd hq List.not_mem_nil
  | cons item items ih =>
    rw [itemsValues] at hitems
    split at hitems
    · rename_i ws ws' hfirst hrest
      cases hitems
      obtain ⟨hcode, hcode'⟩ := codeAt_append_iff.mp hcode
      rw [length_words hfirst, ← BitVec.ofNat_add] at hcode'
      rw [List.length_append, length_words hfirst]
      have hbehind : q ∈ listing (p + item.size) items →
          CodeAt ram (BitVec.ofNat 16 q.1) (q.2.map fun x => (value x).getD 0).encode ∧
            q.1 + q.2.size ≤ p + (item.size + ws'.length) := by
        intro hq
        rw [← Nat.add_assoc]
        exact ih hrest hcode' hq
      cases item with
      | instr i =>
        rcases List.mem_cons.mp hq with rfl | hq
        · rw [words_instr hfirst] at hcode
          refine ⟨hcode, ?_⟩
          rw [LineItem.size, ← Nat.add_assoc]
          exact Nat.le_add_right _ _
        · exact hbehind hq
      | _ => exact hbehind hq
    · cases hitems

end Listing

/-! ### On the machine -/

section Machine

variable {host : Host} {p : ℕ} {items : List LineItem} {words : List Word} {s s' : Core}
  {code : List (ℕ × Instr Word)}

/-- Instructions are in the memory. -/
def HoldsCode (code : List (ℕ × Instr Word)) (s t : Core) : Prop :=
  s = t ∧ ∀ q ∈ code, CodeAt t.ram (BitVec.ofNat 16 q.1) q.2.encode

/-- Instructions that are spared stay in the memory. -/
theorem HoldsCode.spares {t : Core} (h : HoldsCode code s t) (hspares : SparesCode code s s') :
    HoldsCode code s' s' := by
  obtain ⟨rfl, hcode⟩ := h
  refine ⟨rfl, fun q hq i w hw => ?_⟩
  have hlt : i < q.2.size := by
    rw [← Instr.length_encode]
    exact (List.getElem?_eq_some_iff.mp hw).1
  have hkept := hspares q hq i hlt
  rw [BitVec.ofNat_add] at hkept
  rw [hkept]
  exact hcode q hq i w hw

/-- **The memory machine simulates the instructions.** -/
theorem simulates_code (host : Host) (code : List (ℕ × Instr Word)) :
    Simulates (HoldsCode code) (RunsCode host code) (Core.Step host) := by
  rintro s s' t hst ⟨q, hq, hpc, hstep, hspares⟩
  obtain ⟨rfl, hcode⟩ := id hst
  refine ⟨s', .single ⟨q.2, ?_, hstep⟩, hst.spares hspares⟩
  rw [hpc]
  exact hcode q hq

/-- **A machine with instructions in its memory runs them.** -/
theorem vmRun_code {vm : Vm} (hh : host.hooks = []) (hvm : vm.Rests s)
    (hcode : ∀ q ∈ code, CodeAt s.ram (BitVec.ofNat 16 q.1) q.2.encode)
    (hrun : ReflTransGen (RunsCode host code) s s') :
    ∃ n vm', vmRun (List.replicate n host) vm = some vm' ∧ vm'.Rests s' := by
  have hsimulates := (simulates_code host code).comp (simulates_core hh)
  obtain ⟨vm', hcycles, t, ⟨rfl, -⟩, hrests⟩ := hsimulates.run ⟨s, ⟨rfl, hcode⟩, hvm⟩ hrun
  obtain ⟨n, hn⟩ := reflTransGen_cycle_iff.mp hcycles
  exact ⟨n, vm', hn, hrests⟩

/-- A machine with the words of a program in its memory runs the program. -/
theorem vmRun_program {vm : Vm} (hh : host.hooks = []) (hvm : vm.Rests s)
    (hitems : itemsWords (labelValues p items) items = some words)
    (hcode : CodeAt s.ram (BitVec.ofNat 16 p) words)
    (hrun : ReflTransGen (Runs host p items) s s') :
    ∃ n vm', vmRun (List.replicate n host) vm = some vm' ∧ vm'.Rests s' := by
  refine vmRun_code hh hvm (fun q hq => ?_) hrun
  obtain ⟨q, hlisting, rfl⟩ := List.mem_map.mp hq
  exact (codeAt_listing hitems hcode hlisting).1

end Machine

/-! ### Running instructions one after the other -/

section Blocks

variable {host : Host} {p : ℕ} {items : List LineItem} {s t u : Core} {q : ℕ × Instr Word}
  {n : ℕ} {b : Bool}

theorem spares_of_ram (h : t.ram = s.ram) : Spares p items s t := fun _ _ _ _ => by rw [h]

/-- The positions of the instructions of a program. -/
theorem resolved_bounds (hq : q ∈ resolved p items) :
    p ≤ q.1 ∧ q.1 + q.2.size ≤ p + (items.map LineItem.size).sum := by
  obtain ⟨r, hr, rfl⟩ := List.mem_map.mp hq
  rw [Instr.size_map]
  clear hq
  induction items generalizing p with
  | nil => exact absurd hr List.not_mem_nil
  | cons item items ih =>
    rw [List.map_cons, List.sum_cons]
    have hbehind : r ∈ listing (p + item.size) items →
        p ≤ r.1 ∧ r.1 + r.2.size ≤ p + (item.size + (items.map LineItem.size).sum) := by
      intro hr
      obtain ⟨hfrom, hto⟩ := ih hr
      omega
    cases item with
    | instr i =>
      rcases List.mem_cons.mp hr with rfl | hr
      · refine ⟨le_rfl, ?_⟩
        rw [LineItem.size, ← Nat.add_assoc]
        exact Nat.le_add_right _ _
      · exact hbehind hr
    | _ => exact hbehind hr

/-- A word that is stored outside of a program. -/
theorem spares_update {a w : Word}
    (ha : ∀ k < (items.map LineItem.size).sum, BitVec.ofNat 16 (p + k) ≠ a)
    (h : t.ram = Function.update s.ram a w) : Spares p items s t := by
  intro q hq k hk
  obtain ⟨hfrom, hto⟩ := resolved_bounds hq
  have hne := ha (q.1 - p + k) (by omega)
  rw [show p + (q.1 - p + k) = q.1 + k by omega] at hne
  rw [h, Function.update_of_ne hne]

/-- An instruction of a program, with the position and the flag that it leaves. -/
theorem Runs.next (hpc : s.pc = BitVec.ofNat 16 q.1) (hq : q ∈ resolved p items)
    (hstep : s.step host q.2 = some t) (hspares : Spares p items s t)
    (hn : t.pc = BitVec.ofNat 16 n) (hb : t.skip = b)
    (hu : { t with pc := BitVec.ofNat 16 n, skip := b } = u) : Runs host p items s u := by
  have htu : t = u := by rw [← hu, ← hn, ← hb]
  rw [← htu]
  exact ⟨q, hq, hpc, hstep, hspares⟩

theorem advance_one (n : ℕ) : BitVec.ofNat 16 n + 1 = BitVec.ofNat 16 (n + 1) :=
  (BitVec.ofNat_add n 1).symm

theorem advance_two (n : ℕ) : BitVec.ofNat 16 n + 1 + 1 = BitVec.ofNat 16 (n + 2) := by
  rw [advance_one, advance_one]

end Blocks

/-! ### From the file to the machine -/

section File

variable {host : Host} {run : AoutRun} {relativePcIsError : Bool} {lines : List AstNodeLine}
  {items : List LineItem} {bytes : List UInt8} {options : DtemuOptions} {vm : Vm}

/-- The machine that the emulator starts. -/
theorem rests_of_dtemuStart {m : Imodes} (h : dtemuStart m options bytes = some vm) :
    vm.Rests (Core.start (fileMemory m bytes)) := by
  have hnot : ¬ Intermediate bytes := by
    intro hint
    unfold dtemuStart at h
    dsimp only at h
    rw [if_pos ((leading_iff bytes).mpr hint)] at h
    cases h
  rw [dtemuStart_eq m options bytes hnot] at h
  cases h
  exact ⟨⟨rfl, rfl, rfl, rfl, rfl⟩, rfl⟩

/-- The machine that the debugger flashes, if the files before left nothing behind this one. -/
theorem rests_of_ddbgLoads {m : Imodes} {files : List (List Word)} {words : List Word}
    (d : Debugger) (hleft : ∀ a : Word, words.length ≤ a.toNat → lastWord files a = 0) :
    (ddbgFlashVm d (ddbgLoads m (wordFiles m (files ++ [words])))).vm.Rests
      (Core.start fun a => words.getD a.toNat 0) := by
  have hflash : ddbgLoads m (wordFiles m (files ++ [words])) = fun a => words.getD a.toNat 0 := by
    rw [← fileMemory_flatMap m words]
    exact funext fun a => ddbgLoads_apply_eq_iff.mpr (hleft a)
  rw [hflash]
  exact ⟨⟨rfl, rfl, rfl, rfl, rfl⟩, rfl⟩

/-- What is written for a program that is assembled. -/
theorem words_of_assembled (himage : run.WritesImage) (hitems : programItems lines = some items)
    (hwritten : assembled run (processRoot relativePcIsError lines) {} = .ok bytes) :
    ∃ words, itemsWords (labelValues 0 items) items = some words ∧
      bytes = words.flatMap run.modes.bytes := by
  have hprogram := @assembled_program run relativePcIsError lines items himage hitems
  rw [hwritten] at hprogram
  split at hprogram
  · cases hprogram
  · obtain ⟨words, hwords, hbytes⟩ := Option.map_eq_some_iff.mp hprogram.symm
    exact ⟨words, hwords, hbytes.symm⟩

/-- The words of a program are as many as its items take. -/
theorem length_itemsValues {value : Expr → Option Word} {words : List Word}
    (h : itemsValues value items = some words) : words.length = (items.map LineItem.size).sum := by
  induction items generalizing words with
  | nil =>
    cases h
    rfl
  | cons item items ih =>
    rw [itemsValues] at h
    split at h
    · rename_i ws ws' hfirst hrest
      cases h
      rw [List.length_append, length_words hfirst, ih hrest, List.map_cons, List.sum_cons]
    · cases h

/-- **What the assembler writes does on the emulator what the program does** as it stands, for
as long as the program stores nothing over itself. -/
theorem emulator_runs_program (himage : run.WritesImage) (hitems : programItems lines = some items)
    (hfits : (items.map LineItem.size).sum ≤ 0x10000)
    (hwritten : assembled run (processRoot relativePcIsError lines) {} = .ok bytes)
    (hstart : dtemuStart run.modes options bytes = some vm) (hh : host.hooks = []) :
    ∃ words, itemsWords (labelValues 0 items) items = some words ∧
      ∀ s', ReflTransGen (Runs host 0 items) (Core.start fun a => words.getD a.toNat 0) s' →
        ∃ n vm', vmRun (List.replicate n host) vm = some vm' ∧ vm'.Rests s' := by
  obtain ⟨words, hwords, rfl⟩ := words_of_assembled himage hitems hwritten
  have hrests := rests_of_dtemuStart hstart
  rw [fileMemory_flatMap] at hrests
  refine ⟨words, hwords, fun s' hrun => ?_⟩
  have hcode : CodeAt (fun a => words.getD a.toNat 0) (BitVec.ofNat 16 0) words :=
    codeAt_getD (by rw [length_itemsValues hwords]; exact hfits)
  exact vmRun_program hh hrests hwords hcode hrun

/-- The file of `:loop ADD A, 1` and `SET PC, loop`. -/
def countingFile : List UInt8 := [0x7C, 0x02, 0x00, 0x01, 0x7F, 0x81, 0x00, 0x00]

theorem assembled_counting :
    assembled {} (processRoot false countingLines) {} = .ok countingFile := by
  have hprogram := @assembled_program {} false countingLines countingItems ⟨rfl, rfl⟩
    programItems_counting
  rw [if_neg (by decide), show itemsWords (labelValues 0 countingItems) countingItems =
    some [0x7C02, 0x0001, 0x7F81, 0x0000] from by decide +kernel] at hprogram
  cases hbytes : assembled {} (processRoot false countingLines) {} with
  | error err =>
    rw [hbytes] at hprogram
    cases hprogram
  | ok bytes =>
    rw [hbytes] at hprogram
    rw [Option.some.inj hprogram]
    exact congrArg Except.ok (by decide +kernel)

/-- The machine that the emulator starts with this file. -/
def countingMachine : Vm :=
  { vmFlash {} (fileMemory ⟨.little, .big⟩ countingFile) with
    radiationFactor := 1
    canFire := false }

theorem dtemuStart_counting :
    dtemuStart ⟨.little, .big⟩ {} countingFile = some countingMachine :=
  dtemuStart_eq _ _ _ (by decide +kernel)

/-- Twice around, `A` is 2. -/
theorem emulator_runs_program_counting :
    ∃ n vm', vmRun (List.replicate n {}) countingMachine = some vm' ∧ vm'.registers 0 = 2 ∧
      vm'.pc = 2 := by
  obtain ⟨words, -, hruns⟩ := @emulator_runs_program {} {} false countingLines countingItems
    countingFile {} countingMachine ⟨rfl, rfl⟩ programItems_counting (by decide) assembled_counting
    dtemuStart_counting rfl
  have hadd : (0, Instr.basic .add (.reg 0) (.nxtLit 1)) ∈ resolved 0 countingItems := by
    decide +kernel
  have hset : (2, Instr.basic .set .pc (.nxtLit 0)) ∈ resolved 0 countingItems := by
    decide +kernel
  obtain ⟨n, vm', hn, hrests⟩ := hruns _ (.head ⟨_, hadd, rfl, rfl, fun _ _ _ _ => rfl⟩
    (.head ⟨_, hset, rfl, rfl, fun _ _ _ _ => rfl⟩
      (.single ⟨_, hadd, rfl, rfl, fun _ _ _ _ => rfl⟩)))
  have hregisters := congrArg Core.registers hrests.core
  exact ⟨n, vm', hn, congrFun hregisters 0, congrArg Core.pc hrests.core⟩

/-- **It does the same on the debugger**, whatever the machine was doing there: without
breakpoints, and if the files that were loaded before left nothing behind this one. -/
theorem debugger_runs_program (himage : run.WritesImage) (hitems : programItems lines = some items)
    (hfits : (items.map LineItem.size).sum ≤ 0x10000)
    (hwritten : assembled run (processRoot relativePcIsError lines) {} = .ok bytes)
    {files : List (List Word)}
    (hleft : ∀ a : Word, (items.map LineItem.size).sum ≤ a.toNat → lastWord files a = 0)
    {d : Debugger} (hd : d.breakpoints = []) (hh : host.hooks = []) :
    ∃ words, itemsWords (labelValues 0 items) items = some words ∧
      ∀ s', ReflTransGen (Runs host 0 items) (Core.start fun a => words.getD a.toNat 0) s' →
        ∃ n d', ddbgSession host n
            (ddbgFlashVm d (ddbgLoads run.modes (wordFiles run.modes files ++ [bytes]))) = some d' ∧
          d'.vm.Rests s' := by
  obtain ⟨words, hwords, rfl⟩ := words_of_assembled himage hitems hwritten
  rw [← length_itemsValues hwords] at hfits hleft
  have hrests := @rests_of_ddbgLoads run.modes files words d hleft
  rw [wordFiles, List.map_append, List.map_singleton] at hrests
  refine ⟨words, hwords, fun s' hrun => ?_⟩
  obtain ⟨n, vm', hn, hrests'⟩ := vmRun_program hh hrests hwords (codeAt_getD hfits) hrun
  have hflashed : (ddbgFlashVm d (ddbgLoads run.modes
      (wordFiles run.modes files ++ [words.flatMap run.modes.bytes]))).breakpoints = [] := hd
  obtain ⟨d', hsession, rfl⟩ := ddbgSession_vmRun hh hflashed hn hrests'.halted
  exact ⟨n, d', hsession, hrests'⟩

/-- Behind a shorter file, on a machine that has halted, `A` is 1 after an instruction. -/
theorem debugger_runs_program_counting :
    ∃ n d', ddbgSession {} n (ddbgFlashVm { vm := { pc := 7, halted := true } }
        (ddbgLoads ⟨.little, .big⟩ [[0x12, 0x34, 0x56, 0x78], countingFile])) = some d' ∧
      d'.vm.registers 0 = 1 ∧ d'.vm.pc = 2 := by
  have hleft : ∀ a : Word, (countingItems.map LineItem.size).sum ≤ a.toNat →
      lastWord [[0x1234, 0x5678]] a = 0 := by
    intro a ha
    refine lastWord_eq_zero fun words hwords => ?_
    cases List.mem_singleton.mp hwords
    exact le_trans (by decide) ha
  obtain ⟨words, -, hruns⟩ := @debugger_runs_program {} {} false countingLines countingItems
    countingFile ⟨rfl, rfl⟩ programItems_counting (by decide) assembled_counting
    [[0x1234, 0x5678]] hleft { vm := { pc := 7, halted := true } } rfl rfl
  have hadd : (0, Instr.basic .add (.reg 0) (.nxtLit 1)) ∈ resolved 0 countingItems := by
    decide +kernel
  obtain ⟨n, d', hn, hrests⟩ := hruns _ (.single ⟨_, hadd, rfl, rfl, fun _ _ _ _ => rfl⟩)
  rw [show wordFiles ({} : AoutRun).modes [[0x1234, 0x5678]] = [[0x12, 0x34, 0x56, 0x78]] from
    by decide +kernel] at hn
  have hregisters := congrArg Core.registers hrests.core
  exact ⟨n, d', hn, congrFun hregisters 0, congrArg Core.pc hrests.core⟩

/-- **What the assembler writes is shown by the disassembler as the program**: each instruction
at its position, with the values of its expressions and as many words as it takes. -/
theorem emulator_shows_program (himage : run.WritesImage)
    (hitems : programItems lines = some items) (hfits : (items.map LineItem.size).sum ≤ 0x10000)
    (hwritten : assembled run (processRoot relativePcIsError lines) {} = .ok bytes)
    (hstart : dtemuStart run.modes options bytes = some vm) {q : ℕ × Instr Word}
    (hq : q ∈ resolved 0 items) :
    (vmDisassemble vm (BitVec.ofNat 16 q.1)).1.shown = some q.2 ∧
      (vmDisassemble vm (BitVec.ofNat 16 q.1)).1.size.toNat = q.2.size := by
  obtain ⟨words, hwords, rfl⟩ := words_of_assembled himage hitems hwritten
  have hrests := rests_of_dtemuStart hstart
  rw [fileMemory_flatMap] at hrests
  have hlength := length_itemsValues hwords
  have hram : vm.ram = fun a => words.getD a.toNat 0 := hrests.ram
  have hcode : CodeAt vm.ram (BitVec.ofNat 16 0) words := by
    rw [hram]
    exact codeAt_getD (by omega)
  obtain ⟨q, hlisting, rfl⟩ := List.mem_map.mp hq
  obtain ⟨hinstr, hend⟩ := codeAt_listing hwords hcode hlisting
  refine vmDisassemble_shown ⟨hinstr, ?_⟩
  have hpos : 0 < q.2.size := by
    rw [Instr.size]
    omega
  rw [Instr.size_map, BitVec.toNat_ofNat, Nat.mod_eq_of_lt (by omega)]
  omega

/-- `SET PC, 0` is at 2. -/
theorem emulator_shows_program_counting :
    (vmDisassemble countingMachine 2).1.shown = some (.basic .set .pc (.nxtLit 0)) ∧
      (vmDisassemble countingMachine 2).1.size.toNat = 2 :=
  @emulator_shows_program {} false countingLines countingItems countingFile {} countingMachine
    ⟨rfl, rfl⟩ programItems_counting (by decide) assembled_counting dtemuStart_counting
    (2, .basic .set .pc (.nxtLit 0)) (by decide +kernel)

end File

end DcpuToolchain
