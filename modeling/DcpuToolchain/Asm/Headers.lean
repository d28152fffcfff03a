import DcpuToolchain.Asm.Addresses
import DcpuToolchain.Vm.Instruction
import Mathlib.Algebra.Order.BigOperators.Group.List

/-!
# The headers of an image

Before its words an image has up to two tables, that of the extensions (`textn.c`) and that of the
relocations (`treloc.c`). Each of them begins with a `SET PC` over itself, so that the machine that
starts at address 0 comes to the first word of the code.

The target of a jump is an address. That of the first table is the length of the table, which is
right whichever of the two comes first; that of the second one should add the length of the first
one, and does not (`DcpuToolchain.passesHeader_iff`).
-/

namespace DcpuToolchain

open Codec Stdio

/-! ### What the tables are made of -/

/-- The entry is a label, as an expression. -/
def AoutByte.refers (e : AoutByte) : Bool :=
  e.type = .normal && match e.expr with
    | some (.label _) => true
    | _ => false

/-- The names of the extensions that are declared. -/
def extensionNames (entries : List AoutByte) : List String :=
  entries.filterMap fun e => if e.type = .extension then e.label.bind textnVerifyName else none

/-- What `treloc_init` counts up to each label: the words, itself included. -/
def labelCounts : ℕ → List AoutByte → List ℕ
  | _, [] => []
  | n, e :: entries =>
    if e.refers then (n + e.words) :: labelCounts (n + e.words) entries
    else labelCounts (n + e.words) entries

/-- How many words extensions take, each with its zero. -/
def namesLength (names : List String) : ℕ := (names.map (·.length + 1)).sum

/-- The words of the table of extensions. -/
def extensionLength (names : List String) : ℕ := if names = [] then 0 else namesLength names + 5

/-- The words of the table of relocations. -/
def relocationLength (run : AoutRun) (entries : List AoutByte) : ℕ :=
  if run.relocatable then (entries.filter AoutByte.refers).length + 5 else 0

/-- The words before the code. -/
def headerLength (run : AoutRun) (entries : List AoutByte) : ℕ :=
  extensionLength (extensionNames entries) + relocationLength run entries

section Tables

variable {e : AoutByte} {entries : List AoutByte}

theorem mem_extensionMap {name ext : String} (h : textnVerifyName name = some ext) :
    ext ∈ extensionMap := List.mem_of_find?_eq_some h

theorem extension_length_le {ext : String} (h : ext ∈ extensionMap) : ext.length ≤ 41 := by
  unfold extensionMap at h
  simp only [List.mem_cons, List.not_mem_nil, or_false] at h
  rcases h with rfl | rfl | rfl <;> decide

theorem extensionNames_cons_of_ne (h : e.type ≠ .extension) :
    extensionNames (e :: entries) = extensionNames entries := by
  unfold extensionNames
  exact List.filterMap_cons_none (if_neg h)

theorem extensionNames_cons {name : String} (h : e.type = .extension)
    (hname : e.label.bind textnVerifyName = some name) :
    extensionNames (e :: entries) = name :: extensionNames entries := by
  unfold extensionNames
  exact List.filterMap_cons_some ((if_pos h).trans hname)

theorem length_le_of_mem_extensionNames {name : String} (h : name ∈ extensionNames entries) :
    name.length ≤ 41 := by
  obtain ⟨e, -, hname⟩ := List.mem_filterMap.mp h
  split at hname
  · obtain ⟨label, -, hverify⟩ := Option.bind_eq_some_iff.mp hname
    exact extension_length_le (mem_extensionMap hverify)
  · cases hname

/-- Few characters, where there are few names. -/
theorem namesLength_extensionNames_le (entries : List AoutByte) :
    namesLength (extensionNames entries) ≤ (extensionNames entries).length * 42 := by
  refine (List.sum_le_card_nsmul _ 42 fun n hn => ?_).trans_eq ?_
  · obtain ⟨name, hname, rfl⟩ := List.mem_map.mp hn
    have hle := length_le_of_mem_extensionNames hname
    omega
  · rw [List.length_map]
    rfl

/-- What `textn_init` leaves. -/
theorem textnInit_ok {table table' : List String × Word}
    (h : textnInit entries table = (table', none)) (hfew : table.1.length < 50) :
    table'.1 = table.1 ++ extensionNames entries ∧
      table'.2 = table.2 + BitVec.ofNat 16 (namesLength (extensionNames entries)) ∧
      table'.1.length < 50 := by
  induction entries generalizing table with
  | nil =>
    cases h
    exact ⟨(List.append_nil _).symm, (BitVec.add_zero _).symm, hfew⟩
  | cons e entries ih =>
    unfold textnInit at h
    split at h
    · rename_i htype
      split at h
      · cases h
      · rename_i name hname
        dsimp only at h
        split at h
        · cases h
        · rename_i hfull
          rw [List.length_append, List.length_singleton] at hfull
          obtain ⟨hnames, hoffset, hlt⟩ := ih h (by
            rw [List.length_append, List.length_singleton]
            omega)
          rw [extensionNames_cons htype hname]
          refine ⟨?_, ?_, hlt⟩
          · rw [hnames, List.append_assoc, List.singleton_append]
          · rw [hoffset, BitVec.add_assoc, ← BitVec.ofNat_add]
            rfl
    · rename_i htype
      rw [extensionNames_cons_of_ne htype]
      exact ih h hfew

/-- All extensions that are declared are known. -/
theorem extensionNames_eq_nil {table table' : List String × Word}
    (h : textnInit entries table = (table', none)) :
    extensionNames entries = [] ↔ ∀ e ∈ entries, e.type ≠ .extension := by
  induction entries generalizing table with
  | nil => exact ⟨fun _ e he => absurd he List.not_mem_nil, fun _ => rfl⟩
  | cons e entries ih =>
    unfold textnInit at h
    split at h
    · rename_i htype
      split at h
      · cases h
      · rename_i name hname
        rw [extensionNames_cons htype hname]
        refine ⟨fun hnil => absurd hnil (List.cons_ne_nil _ _), fun hnone => ?_⟩
        exact absurd htype (hnone e List.mem_cons_self)
    · rename_i htype
      rw [extensionNames_cons_of_ne htype, ih h, List.forall_mem_cons]
      exact ⟨fun hrest => ⟨htype, hrest⟩, fun hall => hall.2⟩

theorem AoutByte.refers_iff :
    e.refers = true ↔ e.type = .normal ∧ ∃ name, e.expr = some (.label name) := by
  unfold AoutByte.refers
  rw [Bool.and_eq_true, decide_eq_true_eq]
  refine and_congr_right fun _ => ⟨fun h => ?_, ?_⟩
  · split at h
    · rename_i name hexpr
      exact ⟨name, hexpr⟩
    · cases h
  · rintro ⟨name, hexpr⟩
    rw [hexpr]

theorem labelCounts_cons_of_refers {n : ℕ} (h : e.refers = true) :
    labelCounts n (e :: entries) = (n + e.words) :: labelCounts (n + e.words) entries := if_pos h

theorem labelCounts_cons_of_not {n : ℕ} (h : ¬ e.refers = true) :
    labelCounts n (e :: entries) = labelCounts (n + e.words) entries := if_neg h

theorem length_labelCounts (n : ℕ) (entries : List AoutByte) :
    (labelCounts n entries).length = (entries.filter AoutByte.refers).length := by
  induction entries generalizing n with
  | nil => rfl
  | cons e entries ih =>
    by_cases hrefers : e.refers = true
    · rw [labelCounts_cons_of_refers hrefers, List.filter_cons_of_pos hrefers, List.length_cons, ih,
        List.length_cons]
    · rw [labelCounts_cons_of_not hrefers, List.filter_cons_of_neg hrefers, ih]

/-- What `treloc_init` leaves. -/
theorem trelocInit_ok {n : ℕ} {data data' : List Word}
    (h : trelocInit entries n data = (data', none)) (hfew : data.length < 2000) :
    data' = data ++ (labelCounts n entries).map (BitVec.ofNat 16) ∧ data'.length < 2000 := by
  induction entries generalizing n data with
  | nil =>
    cases h
    exact ⟨(List.append_nil _).symm, hfew⟩
  | cons e entries ih =>
    unfold trelocInit at h
    by_cases htype : e.type = .normal
    · rw [if_neg (not_not.mpr htype)] at h
      have hcount : (if e.label = none then n + 1 else n) = n + e.words := by
        unfold AoutByte.words
        by_cases hlabel : e.label = none
        · rw [if_pos hlabel, if_pos ⟨htype, hlabel⟩]
        · rw [if_neg hlabel, if_neg fun hnone => hlabel hnone.2, Nat.add_zero]
      dsimp only at h
      rw [hcount] at h
      split at h
      · rename_i name hexpr
        rw [labelCounts_cons_of_refers (AoutByte.refers_iff.mpr ⟨htype, name, hexpr⟩)]
        by_cases hfull : (data ++ [BitVec.ofNat 16 (n + e.words)]).length = 2000
        · rw [if_pos hfull] at h
          cases h
        · rw [if_neg hfull] at h
          rw [List.length_append, List.length_singleton] at hfull
          obtain ⟨hdata, hlt⟩ := ih h (by
            rw [List.length_append, List.length_singleton]
            omega)
          refine ⟨?_, hlt⟩
          rw [hdata, List.append_assoc, List.singleton_append, List.map_cons]
      · rename_i hexpr
        rw [labelCounts_cons_of_not]
        · exact ih h hfew
        · intro hrefers
          obtain ⟨-, name, hlabel⟩ := AoutByte.refers_iff.mp hrefers
          exact hexpr name hlabel
    · rw [if_pos htype] at h
      rw [labelCounts_cons_of_not fun hrefers => htype (AoutByte.refers_iff.mp hrefers).1]
      have hwords : e.words = 0 := if_neg fun hnormal => htype hnormal.1
      rw [hwords]
      exact ih h hfew

end Tables

/-! ### The words of the tables -/

/-- The table of extensions. -/
def extensionTable (s : Aout) : List Word :=
  if s.extensionData = [] then []
  else
    [setPcNxtLit, s.extensionOffset + 5, 0x4321, 1, BitVec.ofNat 16 s.extensionData.length] ++
      s.extensionData.flatMap fun name => name.toList.map (BitVec.ofNat 16 ·.toNat) ++ [0]

/-- The table of relocations. -/
def relocationTable (s : Aout) : List Word :=
  [setPcNxtLit, BitVec.ofNat 16 (s.relocData.length + 5), 0x1234, 1,
    BitVec.ofNat 16 s.relocData.length] ++ s.relocData

/-- All words before the code. -/
def headerWords (run : AoutRun) (s : Aout) : List Word :=
  extensionTable s ++ if run.relocatable then relocationTable s else []

section Words

variable {run : AoutRun} {m : Imodes} {out out' : File}

/-- The bytes of words that are written one after the other. -/
theorem iwrites_eq (m : Imodes) (words : List Word) (out : File) :
    iwrites m words out = out.fwrite (words.flatMap m.bytes) := by
  induction words generalizing out with
  | nil => rfl
  | cons w words ih =>
    rw [List.flatMap_cons, File.fwrite_append]
    exact ih (iwrite m w out)

theorem iwrites_append (m : Imodes) (words words' : List Word) (out : File) :
    iwrites m (words ++ words') out = iwrites m words' (iwrites m words out) :=
  List.foldl_append

theorem iwrites_pos (m : Imodes) (words : List Word) (out : File) :
    (iwrites m words out).pos = out.pos + 2 * words.length := by
  rw [iwrites_eq, File.fwrite_pos, m.length_flatMap_bytes]

theorem textnWrite_eq (m : Imodes) (s : Aout) (out : File) :
    textnWrite m s out = iwrites m (extensionTable s) out := by
  unfold textnWrite extensionTable
  split
  · rfl
  · rfl

/-- The tables are written in a row. -/
theorem writeHeader_eq (run : AoutRun) (s : Aout) (out : File) :
    (if run.relocatable then trelocWrite run.modes s (textnWrite run.modes s out)
      else textnWrite run.modes s out) = iwrites run.modes (headerWords run s) out := by
  unfold headerWords
  rw [iwrites_append, ← textnWrite_eq]
  split
  · rfl
  · rfl

theorem writeTables_image (himage : run.intermediate = false) (s : Aout)
    (tables : Table → List LprovEntry) (out : File) :
    writeTables run s tables out = some (s, iwrites run.modes (headerWords run s) out) := by
  unfold writeTables
  rw [himage, if_neg Bool.false_ne_true, ← writeHeader_eq]

theorem length_extensionTable (s : Aout) :
    (extensionTable s).length = extensionLength s.extensionData := by
  unfold extensionTable extensionLength
  split
  · rfl
  · have hflat : ∀ names : List String,
        (names.flatMap fun name =>
          name.toList.map (BitVec.ofNat 16 ·.toNat) ++ [(0 : Word)]).length =
            namesLength names := by
      intro names
      rw [List.length_flatMap]
      unfold namesLength
      refine congrArg List.sum (List.map_congr_left fun name _ => ?_)
      rw [List.length_append, List.length_map, List.length_singleton, String.length_toList]
    rw [List.length_append, hflat]
    exact Nat.add_comm _ _

theorem length_relocationTable (s : Aout) :
    (relocationTable s).length = s.relocData.length + 5 := by
  unfold relocationTable
  rw [List.length_append]
  exact Nat.add_comm _ _

end Words

/-! ### The beginning of `aout_write` -/

/-- What the global variables are once the tables are known. -/
structure Aout.Offset (run : AoutRun) (entries : List AoutByte) (s : Aout) : Prop where
  start : s.start = entries
  trueOrigin : s.trueOrigin = 0
  extensionData : s.extensionData = extensionNames entries
  extensionOffset : s.extensionOffset.toNat = namesLength (extensionNames entries)
  few : namesLength (extensionNames entries) < 50 * 42
  declared : extensionNames entries = [] ↔ ∀ e ∈ entries, e.type ≠ .extension
  relocData : run.relocatable = true → s.relocData = (labelCounts 0 entries).map (BitVec.ofNat 16)
  relocFew : run.relocatable = true → s.relocData.length < 2000
  codeOffset : s.codeOffset.toNat = headerLength run entries

section Init

variable {run : AoutRun} {entries : List AoutByte} {s : Aout}

theorem textnOffset_toNat {names : List String} {offset : Word}
    (h : offset.toNat = namesLength names) (hfew : namesLength names < 50 * 42) :
    (textnOffset (names, offset)).toNat = extensionLength names := by
  unfold textnOffset extensionLength
  by_cases hnil : names = []
  · rw [hnil, if_pos rfl]
    rfl
  · rw [if_neg hnil, if_pos (List.length_pos_iff.mpr hnil)]
    rw [BitVec.toNat_add, h, show (5 : Word).toNat = 5 from rfl]
    exact Nat.mod_eq_of_lt (by omega)

/-- **In a new process the tables are those of the program.** -/
theorem aoutInit_offset (h : aoutInit run { start := entries } = (s, none)) :
    s.Offset run entries := by
  unfold aoutInit at h
  dsimp only at h
  obtain ⟨⟨⟨names, offset⟩, err⟩, htextn⟩ : ∃ t, t = textnInit entries ([], 0) := ⟨_, rfl⟩
  rw [← htextn] at h
  cases err with
  | some err => cases h
  | none =>
    dsimp only at h
    obtain ⟨hnames, hoffset, hlt⟩ := textnInit_ok htextn.symm (Nat.zero_lt_succ 49)
    dsimp only at hnames hoffset hlt
    rw [List.nil_append] at hnames
    replace hoffset := hoffset.trans (BitVec.zero_add _)
    -- fewer than 50 names of at most 41 characters: no length here is cut to 16 bits
    have hle := namesLength_extensionNames_le entries
    rw [← hnames] at hle
    have hfew : namesLength names < 50 * 42 := by omega
    have hoffset' : offset.toNat = namesLength names := by
      rw [hoffset, hnames.symm, BitVec.toNat_ofNat]
      exact Nat.mod_eq_of_lt (by omega)
    have hcode := textnOffset_toNat hoffset' hfew
    have hsmall : extensionLength names < 50 * 42 + 5 := by
      unfold extensionLength
      split <;> omega
    have hdeclared := extensionNames_eq_nil htextn.symm
    by_cases hreloc : run.relocatable = true
    · rw [if_pos hreloc] at h
      obtain ⟨⟨data, err⟩, htreloc⟩ : ∃ t, t = trelocInit entries 0 [] := ⟨_, rfl⟩
      rw [← htreloc] at h
      cases err with
      | some err => cases h
      | none =>
        cases h
        obtain ⟨hdata, hdataLt⟩ := trelocInit_ok htreloc.symm (Nat.zero_lt_succ 1999)
        rw [List.nil_append] at hdata
        have hlength : data.length = (entries.filter AoutByte.refers).length := by
          rw [hdata, List.length_map, length_labelCounts]
        refine ⟨rfl, rfl, hnames, hoffset'.trans (congrArg namesLength hnames), hnames ▸ hfew,
          hdeclared, fun _ => hdata, fun _ => hdataLt, ?_⟩
        unfold headerLength relocationLength
        rw [if_pos hreloc, ← hnames, ← hlength, BitVec.toNat_add, BitVec.toNat_add, hcode,
          BitVec.toNat_ofNat]
        rw [show (0 : Word).toNat = 0 from rfl]
        dsimp only
        omega
    · rw [if_neg hreloc] at h
      cases h
      refine ⟨rfl, rfl, hnames, hoffset'.trans (congrArg namesLength hnames), hnames ▸ hfew,
        hdeclared, fun h => absurd h hreloc, fun h => absurd h hreloc, ?_⟩
      unfold headerLength relocationLength
      rw [if_neg hreloc, ← hnames, BitVec.toNat_add, hcode]
      rw [show (0 : Word).toNat = 0 from rfl]
      omega

/-- The header has the length by which the code is offset. -/
theorem Aout.Offset.length_headerWords (h : s.Offset run entries) :
    (headerWords run s).length = headerLength run entries := by
  unfold headerWords headerLength relocationLength
  rw [List.length_append, length_extensionTable, h.extensionData]
  split
  · rename_i hreloc
    rw [length_relocationTable, h.relocData hreloc, List.length_map, length_labelCounts]
  · rfl

end Init

/-! ### Executing the header -/

/-- Instructions, one after the other. -/
def vmInstructions (host : Host) : ℕ → Vm → Option Vm
  | 0, vm => some vm
  | n + 1, vm => (vmInstruction host vm).bind (vmInstructions host n)

/-- The image is in the memory, as far as it goes. -/
def Vm.Loaded (m : Imodes) (content : List UInt8) (vm : Vm) : Prop :=
  ∀ i < 0x10000, 2 * i + 1 < content.length →
    vm.ram (BitVec.ofNat 16 i) = m.word [content.getD (2 * i) 0, content.getD (2 * i + 1) 0]

/-- How many tables an image begins with. -/
def headerTables (run : AoutRun) (entries : List AoutByte) : ℕ :=
  (if extensionNames entries = [] then 0 else 1) + if run.relocatable then 1 else 0

/-- **The header is passed**: from address 0 the machine comes to the code by one jump for each
table, and is otherwise the same. -/
def PassesHeader (run : AoutRun) (entries : List AoutByte) (codeOffset : Word)
    (content : List UInt8) : Prop :=
  ∀ (host : Host) (vm : Vm), host.hooks = [] → vm.Calm → vm.pc = 0 →
    vm.Loaded run.modes content →
      ∃ n, vmInstructions host (headerTables run entries) vm =
        some { vm with pc := codeOffset, consumed := n }

section Executing

variable {host : Host} {vm : Vm} {m : Imodes} {words : List Word} {content : List UInt8}

/-- A jump. -/
theorem vmInstruction_setPc (hhost : host.hooks = []) (hvm : vm.Calm)
    (hjump : vm.ram vm.pc = setPcNxtLit) :
    vmInstruction host vm =
      some { vm with pc := vm.ram (vm.pc + 1), consumed := vm.consumed + 2 } := by
  have hstep := vmInstruction_eq hhost hvm
  have hdecode : decode setPcNxtLit = .basic .set .pc .nxtLit := by decide
  rw [hjump, vmExecute, hdecode] at hstep
  simp only [vmExecuteBasic, vmOpSet, storeOp, vmResolveValue, vmInternalGetStore,
    vmConsumeWord, hvm.skip, opNumCycles, aluSet, Vm.store, vmHookFireStore,
    Bool.false_eq_true, if_false, Option.map_some, Vm.sleep, Vm.setPc,
    Vm.setSleepCycles] at hstep
  refine hstep.trans (congrArg some ?_)
  have hsleep := hvm.sleepCycles
  have hskip := hvm.skip
  clear hstep hjump hvm
  obtain ⟨⟩ := vm
  subst hsleep hskip
  rfl

theorem Vm.Calm.jump (h : vm.Calm) (pc : Word) (n : ℕ) :
    Vm.Calm { vm with pc := pc, consumed := n } :=
  ⟨h.sleepCycles, h.irqCount, h.halted, h.onFire, h.radiation, h.skip⟩

theorem vmInstructions_succ {vm' : Vm} (h : vmInstruction host vm = some vm') (n : ℕ) :
    vmInstructions host (n + 1) vm = vmInstructions host n vm' := by
  rw [vmInstructions, h, Option.bind_some]

/-- A word between the bytes of words. -/
theorem word_getD_flatMap (m : Imodes) (words : List Word) {i : ℕ} (hi : i < words.length) :
    m.word [(words.flatMap m.bytes).getD (2 * i) 0, (words.flatMap m.bytes).getD (2 * i + 1) 0] =
      words[i] := by
  induction words generalizing i with
  | nil => exact absurd hi (Nat.not_lt_zero i)
  | cons w words ih =>
    obtain ⟨a, b, hbytes⟩ := List.length_eq_two.mp (m.bytes_length w)
    rw [List.flatMap_cons, hbytes]
    cases i with
    | zero =>
      rw [List.getElem_cons_zero, ← m.word_bytes w, hbytes]
      rfl
    | succ i =>
      rw [List.getElem_cons_succ, ← ih (Nat.lt_of_succ_lt_succ hi)]
      rfl

end Executing

/-! ### Behind the header -/

/-- Something is written for an entry, other than for a mere label. -/
def AoutByte.MayWrite (e : AoutByte) : Prop :=
  e.type = .incbin ∨ e.type = .normal ∧ (e.label = none ∨ e.rawUsed = true ∨ e.expr ≠ none)

/-- The address that the last `.SEEK` has gone to. -/
def AoutByte.soughtBehind (w : ℕ) (e : AoutByte) : ℕ := if e.type = .seek then e.opcode.toNat else w

/-- Nothing is written from a `.SEEK` into the header on, until there is another one. -/
def KeepsHeader (length : ℕ) : ℕ → List AoutByte → Prop
  | _, [] => True
  | w, e :: entries => (e.MayWrite → length ≤ w) ∧ KeepsHeader length (e.soughtBehind w) entries

section Behind

variable {run : AoutRun} {e e' : AoutByte} {entries entries' : List AoutByte}
  {out out' : File} {length w : ℕ}

theorem AoutByte.Evaluates.mayWrite (h : e.Evaluates e') (hwrite : e'.MayWrite) : e.MayWrite := by
  unfold AoutByte.MayWrite at hwrite ⊢
  rw [h.type, h.label] at hwrite
  refine hwrite.imp_right ?_
  rintro ⟨htype, hwhy⟩
  refine ⟨htype, ?_⟩
  by_contra hnone
  rw [not_or, not_or, Bool.not_eq_true, not_not] at hnone
  obtain ⟨hlabel, hraw, hexpr⟩ := hnone
  -- a mere label is left as it is
  obtain ⟨hraw', hexpr'⟩ := h.plain (fun _ _ => ⟨hraw, hexpr⟩) (h.type.trans htype)
    (h.label.trans_ne hlabel)
  rcases hwhy with hlabel' | htrue | hsome
  · exact hlabel hlabel'
  · rw [hraw'] at htrue
    cases htrue
  · exact hsome hexpr'

theorem KeepsHeader.evaluates (h : List.Forall₂ AoutByte.Evaluates entries entries')
    (hkeeps : KeepsHeader length w entries) : KeepsHeader length w entries' := by
  induction h generalizing w with
  | nil => trivial
  | @cons e e' _ _ he _ ih =>
    have hsought : e'.soughtBehind w = e.soughtBehind w := by
      unfold AoutByte.soughtBehind
      rw [he.type, he.opcode]
    refine ⟨fun hwrite => hkeeps.1 (he.mayWrite hwrite), ?_⟩
    rw [hsought]
    exact ih hkeeps.2

/-- The beginning of a file is kept. -/
structure KeepsBytes (length : ℕ) (out out' : File) : Prop where
  content : ∀ i < length, out'.content.getD i 0 = out.content.getD i 0
  length_le : out.content.length ≤ out'.content.length

theorem KeepsBytes.refl (length : ℕ) (out : File) : KeepsBytes length out out :=
  ⟨fun _ _ => rfl, Nat.le_refl _⟩

theorem KeepsBytes.trans {out'' : File} (h : KeepsBytes length out out')
    (h' : KeepsBytes length out' out'') : KeepsBytes length out out'' :=
  ⟨fun i hi => (h'.content i hi).trans (h.content i hi), h.length_le.trans h'.length_le⟩

/-- Bytes that are written behind it. -/
theorem keeps_fwrite (bytes : List UInt8) (hpos : length ≤ out.pos) :
    KeepsBytes length out (out.fwrite bytes) := by
  refine ⟨fun i hi => ?_, ?_⟩
  · rw [File.getD_fwrite, if_neg (by omega)]
  · rw [File.length_fwrite]
    split
    · exact Nat.le_refl _
    · exact le_max_left _ _

/-- A turn of the second loop, in an image. -/
theorem writeEntry_keeps (hpos : 2 * w ≤ out.pos) (hkeeps : e.MayWrite → length ≤ w)
    (h : writeEntry run 0 out e = .ok out') :
    2 * e.soughtBehind w ≤ out'.pos ∧ KeepsBytes (2 * length) out out' := by
  unfold writeEntry at h
  unfold AoutByte.soughtBehind
  -- whatever is written begins behind the last `.SEEK`, which has not gone into the header
  have hwrite : e.type ≠ .seek → e.MayWrite → ∀ bytes, out' = out.fwrite bytes →
      2 * (if e.type = .seek then e.opcode.toNat else w) ≤ out'.pos ∧
        KeepsBytes (2 * length) out out' := by
    rintro hseek hmay bytes rfl
    have hle := hkeeps hmay
    rw [if_neg hseek, File.fwrite_pos]
    exact ⟨by omega, keeps_fwrite bytes (by omega)⟩
  cases htype : e.type <;> rw [htype] at h hwrite <;> dsimp only at h
  case seek =>
    cases h
    rw [if_pos rfl]
    refine ⟨?_, fun _ _ => rfl, Nat.le_refl _⟩
    rw [Nat.mul_comm]
    exact Nat.le_add_left _ _
  case incbin =>
    split at h
    · cases h
    · rename_i content _
      cases h
      exact hwrite (by simp) (.inl htype) content rfl
  case normal =>
    split at h
    · rename_i hraw
      cases h
      exact hwrite (by simp) (.inr ⟨htype, .inr (.inl hraw)⟩) _ rfl
    · split at h
      · rename_i hlabel
        cases h
        exact hwrite (by simp) (.inr ⟨htype, .inl hlabel⟩) _ rfl
      · cases h
        exact ⟨hpos, .refl _ _⟩
  all_goals
    cases h
    exact ⟨hpos, .refl _ _⟩

/-- The second loop, in an image. -/
theorem foldlM_writeEntry_keeps (hpos : 2 * w ≤ out.pos) (hkeeps : KeepsHeader length w entries)
    (h : entries.foldlM (writeEntry run 0) out = .ok out') : KeepsBytes (2 * length) out out' := by
  induction entries generalizing out w with
  | nil =>
    cases h
    exact .refl _ _
  | cons e entries ih =>
    rw [List.foldlM_cons] at h
    cases hturn : writeEntry run 0 out e with
    | error err =>
      rw [hturn] at h
      cases h
    | ok out₁ =>
      rw [hturn] at h
      obtain ⟨hpos₁, hkeep⟩ := writeEntry_keeps hpos hkeeps.1 hturn
      exact hkeep.trans (ih hpos₁ hkeeps.2 h)

end Behind

/-! ### What an image begins with -/

/-- The image begins with words. -/
def Begins (m : Imodes) (words : List Word) (content : List UInt8) : Prop :=
  ∀ i w, words[i]? = some w → 2 * i + 1 < content.length ∧
    m.word [content.getD (2 * i) 0, content.getD (2 * i + 1) 0] = w

section Image

variable {run : AoutRun} {source : AoutSource} {m : Imodes} {words : List Word} {out : File}
  {s : Aout} {n : Word} {host : Host} {vm : Vm} {content : List UInt8}

/-- What is written to a new file. -/
theorem begins_iwrites (m : Imodes) (words : List Word) :
    Begins m words (iwrites m words ⟨[], 0, false⟩).content := by
  intro i w hw
  obtain ⟨hi, rfl⟩ := List.getElem?_eq_some_iff.mp hw
  rw [iwrites_eq]
  have hlength := m.length_flatMap_bytes words
  have hwords : words.flatMap m.bytes ≠ [] := by
    intro hnil
    rw [hnil, List.length_nil] at hlength
    omega
  constructor
  · rw [File.length_fwrite, if_neg hwords]
    dsimp only
    rw [List.length_nil]
    omega
  · rw [File.getD_fwrite, File.getD_fwrite, if_pos (by dsimp only; omega),
      if_pos (by dsimp only; omega)]
    exact word_getD_flatMap m words hi

theorem Begins.keeps {out' : File} (h : Begins m words out.content)
    (hkeeps : KeepsBytes (2 * words.length) out out') : Begins m words out'.content := by
  intro i w hw
  obtain ⟨hlt, hword⟩ := h i w hw
  obtain ⟨hi, -⟩ := List.getElem?_eq_some_iff.mp hw
  rw [hkeeps.content _ (by omega), hkeeps.content _ (by omega)]
  exact ⟨hlt.trans_le hkeeps.length_le, hword⟩

/-- The steps of a program that is assembled. -/
theorem assemble_ok (h : assemble run source {} = (s, .ok (out, n))) :
    ∃ s₀ entries scan file,
      aoutInit run { start := source.entries } = (s₀, none) ∧
        aoutScan run s₀.codeOffset s₀.start s₀.start { outIndex := s₀.codeOffset.toNat } =
          .ok (entries, scan) ∧
        writeTables run { s₀ with start := entries } scan.tables ⟨[], 0, false⟩ = some (s, file) ∧
        entries.foldlM (writeEntry run s.trueOrigin) file = .ok out := by
  unfold assemble at h
  dsimp only at h
  split at h
  · cases h
  · unfold aoutWrite at h
    split at h
    · cases h
    · rename_i s₀ hinit
      unfold aoutWriteWords at h
      split at h
      · cases h
      · rename_i entries scan hscan
        dsimp only at h
        split at h
        · cases h
        · rename_i s' file htables
          obtain ⟨rfl, hwords⟩ := Prod.mk.inj h
          refine ⟨s₀, entries, scan, file, hinit, hscan, htables, ?_⟩
          cases hloop : entries.foldlM (writeEntry run s'.trueOrigin) file with
          | error err =>
            rw [hloop] at hwords
            cases hwords
          | ok out' =>
            rw [hloop] at hwords
            cases hwords
            rfl

/-- **An image begins with its header**, if nothing is written over it. -/
theorem assemble_begins (himage : run.intermediate = false)
    (h : assemble run source {} = (s, .ok (out, n)))
    (hkeeps : KeepsHeader (headerLength run source.entries) (headerLength run source.entries)
      source.entries) :
    ∃ s₀ : Aout, s₀.Offset run source.entries ∧ s.codeOffset = s₀.codeOffset ∧
      Begins run.modes (headerWords run s₀) out.content := by
  obtain ⟨s₀, entries, scan, file, hinit, hscan, htables, hloop⟩ := assemble_ok h
  have hoffset := aoutInit_offset hinit
  have hheader : (headerWords run { s₀ with start := entries }).length =
      headerLength run source.entries := hoffset.length_headerWords
  rw [writeTables_image himage] at htables
  cases htables
  rw [hoffset.start] at hscan
  dsimp only at hloop
  rw [hoffset.trueOrigin] at hloop
  refine ⟨s₀, hoffset, rfl, ?_⟩
  refine (begins_iwrites run.modes (headerWords run { s₀ with start := entries })).keeps ?_
  rw [hheader]
  refine foldlM_writeEntry_keeps ?_ (hkeeps.evaluates (aoutScan_turns hscan).1) hloop
  rw [iwrites_pos, hheader]
  exact Nat.le_add_left _ _

/-- A jump in the header. -/
theorem jump_of_begins (hhost : host.hooks = []) (hvm : vm.Calm) (hloaded : vm.Loaded m content)
    (hbegins : Begins m words content) {k : ℕ} {t : Word} (hk : vm.pc.toNat = k)
    (hjump : words[k]? = some setPcNxtLit) (htarget : words[k + 1]? = some t)
    (hlt : k + 1 < 0x10000) :
    vmInstruction host vm = some { vm with pc := t, consumed := vm.consumed + 2 } := by
  subst hk
  have hram : ∀ i w, i < 0x10000 → words[i]? = some w → vm.ram (BitVec.ofNat 16 i) = w := by
    intro i w hi hw
    obtain ⟨hin, hword⟩ := hbegins i w hw
    exact (hloaded i hi hin).trans hword
  have hpc : vm.ram vm.pc = setPcNxtLit := by
    have hat := hram _ _ (by omega) hjump
    rwa [BitVec.ofNat_toNat, BitVec.setWidth_eq] at hat
  have hnext : vm.ram (vm.pc + 1) = t := by
    have hat := hram _ _ hlt htarget
    rwa [BitVec.ofNat_add, BitVec.ofNat_toNat, BitVec.setWidth_eq] at hat
  rw [vmInstruction_setPc hhost hvm hpc, hnext]

/-- There is a machine that has the image in its memory. -/
theorem exists_loaded (m : Imodes) (content : List UInt8) :
    ∃ vm : Vm, vm.Calm ∧ vm.pc = 0 ∧ vm.Loaded m content := by
  obtain ⟨ram, hram⟩ : ∃ ram : Word → Word, ∀ a, ram a =
      m.word [content.getD (2 * a.toNat) 0, content.getD (2 * a.toNat + 1) 0] := ⟨_, fun _ => rfl⟩
  refine ⟨{ ram := ram }, ⟨rfl, rfl, rfl, rfl, rfl, rfl⟩, rfl, fun i hi _ => ?_⟩
  change ram (BitVec.ofNat 16 i) = _
  rw [hram, BitVec.toNat_ofNat, Nat.mod_eq_of_lt hi]

end Image

/-! ### When the header is passed -/

section Passing

variable {run : AoutRun} {source : AoutSource} {entries : List AoutByte} {out : File} {s : Aout}
  {n : Word} {content : List UInt8}

theorem headerWords_extension (hnames : s.extensionData ≠ []) :
    (headerWords run s)[0]? = some setPcNxtLit ∧
      (headerWords run s)[1]? = some (s.extensionOffset + 5) := by
  unfold headerWords extensionTable
  rw [if_neg hnames]
  exact ⟨rfl, rfl⟩

theorem headerWords_relocation (hreloc : run.relocatable = true) :
    (headerWords run s)[extensionLength s.extensionData]? = some setPcNxtLit ∧
      (headerWords run s)[extensionLength s.extensionData + 1]? =
        some (BitVec.ofNat 16 (s.relocData.length + 5)) := by
  unfold headerWords
  rw [if_pos hreloc, ← length_extensionTable, List.getElem?_append_right (Nat.le_refl _),
    List.getElem?_append_right (Nat.le_add_right _ 1), Nat.sub_self, Nat.add_sub_cancel_left]
  exact ⟨rfl, rfl⟩

/-- The jump over the extensions. -/
theorem Aout.Offset.extension_target (h : s.Offset run entries)
    (hnames : extensionNames entries ≠ []) :
    (s.extensionOffset + 5).toNat = extensionLength (extensionNames entries) := by
  have hfew := h.few
  unfold extensionLength
  rw [if_neg hnames, BitVec.toNat_add, h.extensionOffset, show (5 : Word).toNat = 5 from rfl]
  exact Nat.mod_eq_of_lt (by omega)

/-- The jump over the relocations. -/
theorem Aout.Offset.relocation_target (h : s.Offset run entries) (hreloc : run.relocatable = true) :
    (BitVec.ofNat 16 (s.relocData.length + 5)).toNat = relocationLength run entries := by
  have hfew := h.relocFew hreloc
  unfold relocationLength
  rw [if_pos hreloc, BitVec.toNat_ofNat, Nat.mod_eq_of_lt (by omega), h.relocData hreloc,
    List.length_map, length_labelCounts]

/-- Without one of the tables the header is passed. -/
theorem passesHeader (h : s.Offset run entries)
    (hbegins : Begins run.modes (headerWords run s) content)
    (hone : extensionNames entries = [] ∨ run.relocatable = false) :
    PassesHeader run entries s.codeOffset content := by
  intro host vm hhost hvm hpc hloaded
  have hpcNat : vm.pc.toNat = 0 := by
    rw [hpc]
    rfl
  have hoffset := h.codeOffset
  unfold headerLength at hoffset
  unfold headerTables
  by_cases hnames : extensionNames entries = []
  · rw [hnames, show extensionLength [] = 0 from rfl, Nat.zero_add] at hoffset
    rw [if_pos hnames, Nat.zero_add]
    by_cases hreloc : run.relocatable = true
    · rw [if_pos hreloc]
      obtain ⟨hjump, htarget⟩ := headerWords_relocation (s := s) hreloc
      rw [h.extensionData, hnames, show extensionLength [] = 0 from rfl] at hjump htarget
      have hstep := jump_of_begins hhost hvm hloaded hbegins hpcNat hjump htarget
        (by omega)
      refine ⟨vm.consumed + 2, ?_⟩
      rw [BitVec.eq_of_toNat_eq (hoffset.trans (h.relocation_target hreloc).symm)]
      exact vmInstructions_succ hstep 0
    · rw [if_neg hreloc]
      unfold relocationLength at hoffset
      rw [if_neg hreloc] at hoffset
      refine ⟨vm.consumed, congrArg some ?_⟩
      rw [BitVec.eq_of_toNat_eq (hoffset.trans hpcNat.symm)]
  · have hreloc : run.relocatable = false := hone.resolve_left hnames
    obtain ⟨hjump, htarget⟩ := @headerWords_extension run s
      (h.extensionData.trans_ne hnames)
    have hstep := jump_of_begins hhost hvm hloaded hbegins hpcNat hjump htarget (by omega)
    unfold relocationLength at hoffset
    rw [hreloc, if_neg Bool.false_ne_true] at hoffset ⊢
    rw [if_neg hnames]
    refine ⟨vm.consumed + 2, ?_⟩
    rw [BitVec.eq_of_toNat_eq (hoffset.trans (h.extension_target hnames).symm)]
    exact vmInstructions_succ hstep 0

/-- The second of two jumps goes back into the first table. -/
theorem not_passesHeader (h : s.Offset run entries)
    (hbegins : Begins run.modes (headerWords run s) content)
    (hnames : extensionNames entries ≠ []) (hreloc : run.relocatable = true) :
    ¬ PassesHeader run entries s.codeOffset content := by
  intro hpasses
  obtain ⟨vm, hvm, hpc, hloaded⟩ := exists_loaded run.modes content
  have hpcNat : vm.pc.toNat = 0 := by
    rw [hpc]
    rfl
  have hhost : ({} : Host).hooks = [] := rfl
  obtain ⟨n, hrun⟩ := hpasses {} vm hhost hvm hpc hloaded
  unfold headerTables at hrun
  rw [if_neg hnames, if_pos hreloc] at hrun
  obtain ⟨hjump, htarget⟩ := @headerWords_extension run s (h.extensionData.trans_ne hnames)
  -- the first jump is right: it goes to the second table
  have hfirst := jump_of_begins hhost hvm hloaded hbegins hpcNat hjump htarget (by omega)
  obtain ⟨hjump', htarget'⟩ := headerWords_relocation (s := s) hreloc
  have hextension := h.extension_target hnames
  rw [h.extensionData, ← hextension] at hjump' htarget'
  have hsmall : (s.extensionOffset + 5).toNat + 1 < 0x10000 := by
    have hfew := h.few
    unfold extensionLength at hextension
    rw [if_neg hnames] at hextension
    omega
  -- the second one goes to the length of its own table, as if that came first
  have hsecond := jump_of_begins hhost (hvm.jump (s.extensionOffset + 5) (vm.consumed + 2)) hloaded
    hbegins rfl hjump' htarget' hsmall
  have hboth : vmInstructions {} 2 vm = some { vm with
      pc := BitVec.ofNat 16 (s.relocData.length + 5)
      consumed := vm.consumed + 2 + 2 } :=
    (vmInstructions_succ hfirst 1).trans (vmInstructions_succ hsecond 0)
  -- but the code is offset by both lengths
  rw [hboth] at hrun
  have hsame : BitVec.ofNat 16 (s.relocData.length + 5) = s.codeOffset :=
    congrArg Vm.pc (Option.some.inj hrun)
  have hoffset := h.codeOffset
  rw [← hsame, h.relocation_target hreloc] at hoffset
  unfold headerLength extensionLength at hoffset
  rw [if_neg hnames] at hoffset
  omega

/-- **When the header is passed**: if it is not of two tables. -/
theorem passesHeader_iff (himage : run.intermediate = false)
    (h : assemble run source {} = (s, .ok (out, n)))
    (hkeeps : KeepsHeader (headerLength run source.entries) (headerLength run source.entries)
      source.entries) :
    PassesHeader run source.entries s.codeOffset out.content ↔
      ¬ (run.relocatable = true ∧ ∃ e ∈ source.entries, e.type = .extension) := by
  obtain ⟨s₀, hoffset, hcode, hbegins⟩ := assemble_begins himage h hkeeps
  rw [hcode]
  have hdeclared : (∃ e ∈ source.entries, e.type = .extension) ↔
      extensionNames source.entries ≠ [] := by
    rw [Ne, hoffset.declared]
    push Not
    rfl
  rw [hdeclared, not_and, not_not]
  refine ⟨fun hpasses hreloc => ?_, fun hone => ?_⟩
  · by_contra hnames
    exact not_passesHeader hoffset hbegins hnames hreloc hpasses
  · refine passesHeader hoffset hbegins ?_
    cases hreloc : run.relocatable with
    | true => exact .inl (hone hreloc)
    | false => exact .inr rfl

/-- A program that is to be relocated. -/
theorem passesHeader_iff_relocated :
    ∃ s out n, assemble { relocatable := true } ⟨[aoutCreateRaw 7], false⟩ {} = (s, .ok (out, n)) ∧
      (PassesHeader { relocatable := true } [aoutCreateRaw 7] s.codeOffset out.content ↔
        ¬ (true = true ∧ ∃ e ∈ [aoutCreateRaw 7], e.type = .extension)) := by
  obtain ⟨s, out, n, h⟩ : ∃ s out n, assemble { relocatable := true }
      ⟨[aoutCreateRaw 7], false⟩ {} = (s, .ok (out, n)) := ⟨_, _, _, rfl⟩
  exact ⟨s, out, n, h, passesHeader_iff rfl h ⟨fun _ => Nat.le_refl _, trivial⟩⟩

/-- `.EXTENSION`, and a word. -/
def extensionProgram : List AoutByte :=
  [{ type := .extension, label := some "experimental-output-screen-32x12-0x8000" },
    aoutCreateRaw 7]

/-- The global variables when it is written, to be relocated. -/
def extensionProgramAout : Aout where
  start := extensionProgram
  codeOffset := 50
  extensionData := ["experimental-output-screen-32x12-0x8000"]
  extensionOffset := 40

theorem textnVerifyName_extensionProgram :
    textnVerifyName "experimental-output-screen-32x12-0x8000" =
      some "experimental-output-screen-32x12-0x8000" := by
  unfold textnVerifyName extensionMap
  exact List.find?_cons_of_pos (decide_eq_true rfl)

theorem aoutInit_extensionProgram :
    aoutInit { relocatable := true } { start := extensionProgram } =
      (extensionProgramAout, none) := by
  have hlabel : (some "experimental-output-screen-32x12-0x8000").bind textnVerifyName =
      some "experimental-output-screen-32x12-0x8000" := textnVerifyName_extensionProgram
  have htextn : textnInit extensionProgram ([], 0) =
      ((["experimental-output-screen-32x12-0x8000"], 40), none) := by
    unfold extensionProgram textnInit
    rw [if_pos rfl, hlabel]
    rfl
  unfold aoutInit
  rw [htextn]
  rfl

/-- To be relocated, such a program does not come to its code. -/
theorem extensionProgram_not_passesHeader :
    ∃ s out n, assemble { relocatable := true } ⟨extensionProgram, false⟩ {} =
        (s, .ok (out, n)) ∧
      ¬ PassesHeader { relocatable := true } extensionProgram s.codeOffset out.content := by
  have hwords : assemble { relocatable := true } ⟨extensionProgram, false⟩ {} =
      aoutWriteWords { relocatable := true } extensionProgramAout := by
    unfold assemble aoutWrite
    dsimp only [List.nil_append]
    rw [if_neg Bool.false_ne_true, aoutInit_extensionProgram]
  obtain ⟨s, out, n, h⟩ : ∃ s out n, aoutWriteWords { relocatable := true } extensionProgramAout =
      (s, .ok (out, n)) := ⟨_, _, _, rfl⟩
  refine ⟨s, out, n, hwords.trans h, ?_⟩
  have hnames : extensionNames extensionProgram ≠ [] := by
    intro hnil
    have hcons : extensionNames extensionProgram = _ :=
      extensionNames_cons rfl textnVerifyName_extensionProgram
    rw [hcons] at hnil
    exact List.cons_ne_nil _ _ hnil
  have hkeeps : KeepsHeader (headerLength { relocatable := true } extensionProgram)
      (headerLength { relocatable := true } extensionProgram) extensionProgram := by
    refine ⟨?_, fun _ => Nat.le_refl _, trivial⟩
    rintro (htype | ⟨htype, -⟩)
    · cases htype
    · cases htype
  obtain ⟨s₀, hoffset, hcode, hbegins⟩ := assemble_begins rfl (hwords.trans h) hkeeps
  rw [hcode]
  exact not_passesHeader hoffset hbegins hnames rfl

end Passing

end DcpuToolchain
