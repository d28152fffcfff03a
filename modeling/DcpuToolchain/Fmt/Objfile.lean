import DcpuToolchain.Fmt.Dbgfmt
import DcpuToolchain.Ld.Bin

/-!
# Object files

An object file begins with the tables of the linker (`objfile.c`, `ldata.c`): one stream of
records of a label of 256 bytes, a mode, which says the table the record is of, and an
address; a record of the mode `LABEL_END` ends it, and the code follows.

The reader keeps the ends of eight lists, and appends each record to the list of its mode. It
leaves out a section that is at the address of the one before it. What is written is read
back (`DcpuToolchain.objfileLoad_objfileSave`) if no two sections have one address and the
labels that are copied are there.
-/

namespace DcpuToolchain

open Codec

/-! ### Records -/

/-- `struct lprov_entry`, less the link to the next one. -/
structure LprovEntry where
  label : Option CString
  address : UInt16
  deriving DecidableEq, Repr

/-- `struct ldata_entry`. -/
structure LdataEntry where
  label : CString
  mode : ℕ
  address : UInt16
  deriving DecidableEq, Repr

/-- `LABEL_...`. -/
def Table.mode : Table → ℕ
  | .provided => 1
  | .required => 2
  | .adjustment => 3
  | .section => 4
  | .output => 5
  | .jump => 6
  | .optional => 7
  | .call => 8

/-- The tables, in the order in which they are written and their modes are looked for. -/
def objfileTables : List Table :=
  [.provided, .required, .adjustment, .section, .output, .jump, .optional, .call]

/-- `ldata_write`. -/
def ldataWrite (o : Endian) (entry : LdataEntry) : List UInt8 :=
  let cpy :=
    if strlen entry.label + 1 < 256 then
      strcpy entry.label ++ List.replicate (256 - (strlen entry.label + 1)) 0
    else (strcpy entry.label).take 256
  cpy.set 255 0 ++ (put o 1 entry.mode ++ put o 2 entry.address.toNat)

/-- `ldata_read`. -/
def ldataRead (o : Endian) : Reader UInt8 LdataEntry := do
  let label ← take 256
  let mode ← number o 1
  let address ← number o 2
  pure ⟨cText (label.set 255 0), mode, UInt16.ofNat address⟩

/-! ### Writing -/

/-- The label of a record, as it is copied into the 256 bytes there are for it. It may only be
missing where that is looked for. -/
def savedLabel (t : Table) (label : Option CString) : Option CString :=
  let copy (s : CString) := if strlen s + 1 ≤ 256 then some (cText s) else none
  match t with
  | .adjustment => some []
  | .jump => match label with
    | none => some []
    | some s => copy s
  | _ => label.bind copy

/-- A loop of `objfile_save`. -/
def saveTable (o : Endian) (t : Table) : List LprovEntry → Option (List UInt8)
  | [] => some []
  | e :: l => do
    let label ← savedLabel t e.label
    let rest ← saveTable o t l
    pure (ldataWrite o ⟨label, t.mode, e.address⟩ ++ rest)

/-- The loops of `objfile_save`, one after the other. -/
def saveTables (o : Endian) (tables : Table → List LprovEntry) : List Table → Option (List UInt8)
  | [] => some []
  | t :: ts => do
    let saved ← saveTable o t (tables t)
    let rest ← saveTables o tables ts
    pure (saved ++ rest)

/-- The record that ends the tables. -/
def endEntry : LdataEntry := ⟨[], 0, 0⟩

/-- `objfile_save`. -/
def objfileSave (o : Endian) (tables : Table → List LprovEntry) : Option (List UInt8) :=
  (saveTables o tables objfileTables).map (· ++ ldataWrite o endEntry)

/-! ### Reading -/

/-- The variables of `objfile_load`; a table that is `none` is not asked for. -/
structure LoadState where
  tables : Table → Option (List LprovEntry)
  sectionCurrent : Bool
  sectionLastAddress : UInt16

/-- A turn of the loop of `objfile_load`. -/
def loadEntry (offset : UInt16) (s : LoadState) (entry : LdataEntry) : LoadState :=
  match objfileTables.find? (·.mode = entry.mode) with
  | none => s
  | some t =>
    match s.tables t with
    | none => s
    | some l =>
      if t = .section ∧ s.sectionCurrent = true ∧
          entry.address.toNat + offset.toNat = s.sectionLastAddress.toNat then s
      else
        let label := if t = .adjustment then none else some entry.label
        { tables := Function.update s.tables t (some (l ++ [⟨label, entry.address + offset⟩]))
          sectionCurrent := s.sectionCurrent || t = .section
          sectionLastAddress :=
            if t = .section then entry.address + offset else s.sectionLastAddress }

/-- `objfile_load`: the tables, the offset, and the stream that is left. -/
def objfileLoad (o : Endian) (offset : UInt16) (tables : Table → Option (List LprovEntry))
    (file : List UInt8) : Option ((Table → Option (List LprovEntry)) × UInt16 × List UInt8) :=
  ((foldUntil (ldataRead o) (·.mode = 0) (loadEntry offset) (file.length + 1)
    ⟨tables, false, 0⟩).run file).map fun (s, rest) =>
      (s.tables, offset + UInt16.ofNat (rest.length / 2), rest)

/-! ### A record is read back -/

section Records

variable (o : Endian) {entry : LdataEntry}

theorem cText_append_zero {s : CString} (h : (0 : UInt8) ∉ s) (rest : List UInt8) :
    cText (s ++ 0 :: rest) = s := by
  have hall : ∀ c ∈ s, decide (c ≠ 0) = true := by
    rintro c hc
    rw [decide_eq_true_iff]
    rintro rfl
    exact h hc
  rw [cText, List.takeWhile_append_of_pos hall]
  simp

/-- The 256 bytes of a label. -/
theorem cpy_eq {s : CString} (h : (0 : UInt8) ∉ s) (hlength : s.length ≤ 255) :
    (if strlen s + 1 < 256 then strcpy s ++ List.replicate (256 - (strlen s + 1)) 0
      else (strcpy s).take 256) = s ++ List.replicate (256 - s.length) 0 := by
  have hstrlen : strlen s = s.length := by rw [strlen, cText_of_notMem h]
  rw [hstrlen, strcpy, cText_of_notMem h]
  split
  · rw [List.append_assoc, List.singleton_append, ← List.replicate_succ]
    congr 2
    omega
  · have h255 : s.length = 255 := by omega
    rw [List.take_of_length_le (by simp [h255]), h255]
    rfl

theorem set_last {s : CString} (hlength : s.length ≤ 255) :
    (s ++ List.replicate (256 - s.length) 0).set 255 (0 : UInt8) =
      s ++ List.replicate (256 - s.length) 0 := by
  refine List.ext_getElem (List.length_set ..) fun i h1 h2 => ?_
  rw [List.getElem_set]
  split
  · rename_i hi
    subst hi
    rw [List.getElem_append_right hlength, List.getElem_replicate]
  · rfl

/-- **A record is read back.** -/
theorem reads_ldata (hlabel : (0 : UInt8) ∉ entry.label) (hlength : entry.label.length ≤ 255)
    (hmode : entry.mode < 256) : Reads (ldataRead o) (ldataWrite o entry) entry := by
  have hbytes : entry.label ++ List.replicate (256 - entry.label.length) 0 =
      entry.label ++ 0 :: List.replicate (255 - entry.label.length) 0 := by
    rw [← List.replicate_succ]
    congr 2
    omega
  have htake := reads_take (entry.label ++ List.replicate (256 - entry.label.length) 0)
  have hsize : (entry.label ++ List.replicate (256 - entry.label.length) (0 : UInt8)).length =
      256 := by
    rw [List.length_append, List.length_replicate]
    omega
  rw [hsize] at htake
  rw [ldataWrite, cpy_eq hlabel hlength, set_last hlength]
  have hmode' : entry.mode < 256 ^ 1 := hmode
  refine htake.bind ((reads_number o hmode').bind ((reads_uint16 o entry.address).bind_last ?_))
  rw [set_last hlength, hbytes, cText_append_zero hlabel, UInt16.ofNat_toNat]
  exact .pure entry

end Records

/-! ### Saving -/

/-- The record of an entry. -/
def ldataEntry (t : Table) (e : LprovEntry) : LdataEntry :=
  ⟨if t = .adjustment then [] else e.label.getD [], t.mode, e.address⟩

/-- What is read back of an entry: labels of adjustments are dropped, and a label that is
missing is empty. -/
def readBack (t : Table) (e : LprovEntry) : LprovEntry :=
  ⟨if t = .adjustment then none else some (e.label.getD []), e.address⟩

/-- **A label that can be saved**: it has at most 255 characters, none of them NUL, and only
those of adjustments and jumps may be missing. -/
structure Savable (t : Table) (label : Option CString) : Prop where
  missing : label = none → t = .adjustment ∨ t = .jump
  zero : ∀ s ∈ label, (0 : UInt8) ∉ s
  length : ∀ s ∈ label, s.length ≤ 255

section Saving

variable (o : Endian) {t : Table}

theorem savedLabel_eq {label : Option CString} (h : Savable t label) :
    savedLabel t label = some (if t = .adjustment then [] else label.getD []) := by
  by_cases hadjustment : t = .adjustment
  · rw [hadjustment]
    rfl
  · rcases label with - | s
    · rw [(h.missing rfl).resolve_left hadjustment]
      rfl
    · have hcopy : (if strlen s + 1 ≤ 256 then some (cText s) else none) = some s := by
        have hlength := h.length s rfl
        rw [strlen, cText_of_notMem (h.zero s rfl), if_pos (by omega)]
      rw [if_neg hadjustment, Option.getD_some]
      cases t with
      | adjustment => exact absurd rfl hadjustment
      | _ => exact hcopy

theorem saveTable_eq {l : List LprovEntry} (h : ∀ e ∈ l, Savable t e.label) :
    saveTable o t l = some ((l.map (ldataEntry t)).flatMap (ldataWrite o)) := by
  induction l with
  | nil => rfl
  | cons e l ih =>
    rw [List.forall_mem_cons] at h
    rw [saveTable, savedLabel_eq h.1, ih h.2]
    rfl

/-- The records of tables. -/
def ldataEntries (tables : Table → List LprovEntry) (ts : List Table) : List LdataEntry :=
  ts.flatMap fun t => (tables t).map (ldataEntry t)

theorem saveTables_eq {tables : Table → List LprovEntry} (ts : List Table)
    (h : ∀ t, ∀ e ∈ tables t, Savable t e.label) :
    saveTables o tables ts = some ((ldataEntries tables ts).flatMap (ldataWrite o)) := by
  induction ts with
  | nil => rfl
  | cons t ts ih =>
    have happend : ldataEntries tables (t :: ts) =
        (tables t).map (ldataEntry t) ++ ldataEntries tables ts := List.flatMap_cons
    rw [saveTables, saveTable_eq o (h t), ih, happend, List.flatMap_append]
    rfl

theorem ldataEntry_savable {e : LprovEntry} (h : Savable t e.label) :
    (0 : UInt8) ∉ (ldataEntry t e).label ∧ (ldataEntry t e).label.length ≤ 255 := by
  rw [ldataEntry]
  dsimp only
  split
  · exact ⟨List.not_mem_nil, Nat.zero_le _⟩
  · rcases hlabel : e.label with - | s
    · exact ⟨List.not_mem_nil, Nat.zero_le _⟩
    · exact ⟨h.zero s hlabel, h.length s hlabel⟩

end Saving

/-! ### Loading -/

section Loading

variable {s : LoadState} {t : Table}

theorem find?_mode (t : Table) : objfileTables.find? (·.mode = t.mode) = some t := by
  cases t <;> rfl

/-- **A record is appended to its list**, unless it is of a section at the address of the
one before it. -/
theorem loadEntry_eq {l : List LprovEntry} (hl : s.tables t = some l) (e : LprovEntry)
    (hsection : t = .section → s.sectionCurrent = true → e.address ≠ s.sectionLastAddress) :
    loadEntry 0 s (ldataEntry t e) =
      { tables := Function.update s.tables t (some (l ++ [readBack t e]))
        sectionCurrent := s.sectionCurrent || t = .section
        sectionLastAddress := if t = .section then e.address else s.sectionLastAddress } := by
  have hmode : (ldataEntry t e).mode = t.mode := rfl
  have haddress : (ldataEntry t e).address = e.address := rfl
  have hlabel : (if t = .adjustment then none else some (ldataEntry t e).label) =
      (readBack t e).label := by
    rw [readBack, ldataEntry]
    dsimp only
    split <;> rfl
  rw [loadEntry, hmode, find?_mode, haddress]
  dsimp only
  rw [hl]
  dsimp only
  rw [if_neg, hlabel, UInt16.add_zero]
  · rfl
  · rintro ⟨ht, hcurrent, heq⟩
    exact hsection ht hcurrent (UInt16.toNat.inj heq)

/-- The records of a table are appended to its list. -/
theorem foldl_loadEntry {l l' : List LprovEntry} (hl : s.tables t = some l)
    (hnodup : t = .section → (l'.map (·.address)).Nodup ∧
      (s.sectionCurrent = true → s.sectionLastAddress ∉ l'.map (·.address))) :
    ((l'.map (ldataEntry t)).foldl (loadEntry 0) s).tables =
        Function.update s.tables t (some (l ++ l'.map (readBack t))) ∧
      (t ≠ .section →
        ((l'.map (ldataEntry t)).foldl (loadEntry 0) s).sectionCurrent = s.sectionCurrent) := by
  induction l' generalizing s l with
  | nil =>
    refine ⟨?_, fun _ => rfl⟩
    rw [List.map_nil, List.map_nil, List.foldl_nil, List.append_nil, ← hl,
      Function.update_eq_self]
  | cons e l' ih =>
    have hstep := loadEntry_eq hl e fun ht hcurrent heq =>
      (hnodup ht).2 hcurrent (heq ▸ List.mem_cons_self)
    rw [List.map_cons, List.foldl_cons, hstep]
    have hnodup' : t = .section → (l'.map (·.address)).Nodup ∧
        ((s.sectionCurrent || t = .section) = true →
          (if t = .section then e.address else s.sectionLastAddress) ∉ l'.map (·.address)) := by
      intro ht
      have h := (hnodup ht).1
      rw [List.map_cons, List.nodup_cons] at h
      rw [if_pos ht]
      exact ⟨h.2, fun _ => h.1⟩
    obtain ⟨htables, hcurrent⟩ := ih
      (s := ⟨Function.update s.tables t (some (l ++ [readBack t e])),
        s.sectionCurrent || t = .section,
        if t = .section then e.address else s.sectionLastAddress⟩)
      (Function.update_self ..) hnodup'
    refine ⟨?_, fun ht => ?_⟩
    · rw [htables, Function.update_idem, List.append_assoc]
      rfl
    · rw [hcurrent ht]
      simp [ht]

/-- **All records are appended to the lists of their tables.** -/
theorem foldl_ldataEntries {tables : Table → List LprovEntry} (ts : List Table) (hts : ts.Nodup)
    (hs : ∀ t ∈ ts, s.tables t = some []) (hcurrent : .section ∈ ts → s.sectionCurrent = false)
    (hsections : ((tables .section).map (·.address)).Nodup) :
    ((ldataEntries tables ts).foldl (loadEntry 0) s).tables = fun t =>
      if t ∈ ts then some ((tables t).map (readBack t)) else s.tables t := by
  induction ts generalizing s with
  | nil =>
    funext t
    rw [if_neg List.not_mem_nil]
    rfl
  | cons t ts ih =>
    rw [List.nodup_cons] at hts
    have hmem : t ∈ t :: ts := List.mem_cons_self
    have hnodup : t = .section → ((tables t).map (·.address)).Nodup ∧
        (s.sectionCurrent = true → s.sectionLastAddress ∉ (tables t).map (·.address)) := by
      rintro rfl
      refine ⟨hsections, fun h => ?_⟩
      rw [hcurrent hmem] at h
      cases h
    obtain ⟨htables, hkeeps⟩ := foldl_loadEntry (hs t hmem) hnodup
    rw [ldataEntries, List.flatMap_cons, List.foldl_append]
    refine (ih hts.2 (fun t' ht' => ?_) (fun hsection => ?_)).trans ?_
    · have hne : t' ≠ t := fun heq => hts.1 (heq ▸ ht')
      rw [htables, Function.update_of_ne hne]
      exact hs t' (List.mem_cons_of_mem _ ht')
    · have hne : t ≠ .section := fun heq => hts.1 (heq ▸ hsection)
      rw [hkeeps hne]
      exact hcurrent (List.mem_cons_of_mem _ hsection)
    · funext t'
      by_cases ht' : t' ∈ ts
      · rw [if_pos ht', if_pos (List.mem_cons_of_mem _ ht')]
      · rw [if_neg ht', htables]
        by_cases heq : t' = t
        · rw [heq, Function.update_self, if_pos hmem, List.nil_append]
        · rw [Function.update_of_ne heq, if_neg]
          simp [heq, ht']

end Loading

/-! ### The round trip -/

section RoundTrip

variable (o : Endian) {tables : Table → List LprovEntry}

/-- The words of the code, after the tables. -/
def codeBytes (code : List UInt16) : List UInt8 := code.flatMap (put o 2 ·.toNat)

theorem codeBytes_length (code : List UInt16) : (codeBytes o code).length = 2 * code.length := by
  induction code with
  | nil => rfl
  | cons w code ih =>
    have happend : codeBytes o (w :: code) = put o 2 w.toNat ++ codeBytes o code :=
      List.flatMap_cons
    rw [happend, List.length_append, put_length, ih, List.length_cons]
    ring

/-- Every record takes up bytes. -/
theorem length_le_flatMap (l : List LdataEntry) : l.length ≤ (l.flatMap (ldataWrite o)).length := by
  induction l with
  | nil => exact Nat.zero_le _
  | cons e l ih =>
    have hput : 1 ≤ (ldataWrite o e).length := by
      rw [ldataWrite, List.length_append, List.length_append, put_length]
      omega
    rw [List.flatMap_cons, List.length_append, List.length_cons]
    omega

theorem objfileSave_eq (h : ∀ t, ∀ e ∈ tables t, Savable t e.label) :
    objfileSave o tables =
      some ((ldataEntries tables objfileTables).flatMap (ldataWrite o) ++
        ldataWrite o endEntry) := by
  rw [objfileSave, saveTables_eq o _ h]
  rfl

/-- The loop of `objfile_load` reads the records of the tables, up to the one that ends them. -/
theorem reads_ldataEntries (h : ∀ t, ∀ e ∈ tables t, Savable t e.label) {fuel : ℕ}
    (hfuel : (ldataEntries tables objfileTables).length < fuel) (s : LoadState) :
    Reads (foldUntil (ldataRead o) (·.mode = 0) (loadEntry 0) fuel s)
      ((ldataEntries tables objfileTables).flatMap (ldataWrite o) ++ ldataWrite o endEntry)
      ((ldataEntries tables objfileTables).foldl (loadEntry 0) s) := by
  refine reads_foldUntil (fun entry hentry => ?_) (reads_ldata o ?_ ?_ ?_) rfl hfuel s
  · obtain ⟨t, -, hmem⟩ := List.mem_flatMap.1 hentry
    obtain ⟨e, he, rfl⟩ := List.mem_map.1 hmem
    obtain ⟨hzero, hlength⟩ := ldataEntry_savable (h t e he)
    have hmode : (ldataEntry t e).mode < 256 ∧ (ldataEntry t e).mode ≠ 0 := by
      change t.mode < 256 ∧ t.mode ≠ 0
      cases t <;> decide
    exact ⟨reads_ldata o hzero hlength hmode.1, decide_eq_false hmode.2⟩
  · exact List.not_mem_nil
  · exact Nat.zero_le _
  · exact Nat.zero_lt_succ _

/-- What was saved before code is loaded, and the stream is left at the code. -/
theorem objfileLoad_saved (h : ∀ t, ∀ e ∈ tables t, Savable t e.label)
    (hsections : ((tables .section).map (·.address)).Nodup) (code : List UInt16) :
    ∃ bytes, objfileSave o tables = some bytes ∧
      objfileLoad o 0 (fun _ => some []) (bytes ++ codeBytes o code) =
        some (fun t => some ((tables t).map (readBack t)), UInt16.ofNat code.length,
          codeBytes o code) := by
  refine ⟨_, objfileSave_eq o h, ?_⟩
  have hfuel : (ldataEntries tables objfileTables).length <
      ((ldataEntries tables objfileTables).flatMap (ldataWrite o) ++ ldataWrite o endEntry ++
        codeBytes o code).length + 1 := by
    have hle := length_le_flatMap o (ldataEntries tables objfileTables)
    rw [List.length_append, List.length_append]
    omega
  have htables := foldl_ldataEntries (s := ⟨fun _ => some [], false, 0⟩) objfileTables
    (by decide) (fun _ _ => rfl) (fun _ => rfl) hsections
  rw [objfileLoad, reads_ldataEntries o h hfuel, Option.map_some]
  dsimp only
  rw [htables, codeBytes_length, Nat.mul_div_cancel_left _ (by decide), UInt16.zero_add]
  congr 2
  funext t
  rw [if_pos]
  cases t <;> decide

/-- **An object file is read back**: before any code, the tables that were saved are loaded
with their entries in their order, the stream is left at the first word of the code, and the
offset is the number of its words, modulo `2 ^ 16`. -/
theorem objfileLoad_objfileSave (h : ∀ t, ∀ e ∈ tables t, Savable t e.label)
    (hsections : ((tables .section).map (·.address)).Nodup) (code : List UInt16) :
    ∃ bytes, objfileSave o tables = some bytes ∧
      ∃ offset, objfileLoad o 0 (fun _ => some []) (bytes ++ codeBytes o code) =
          some (fun t => some ((tables t).map (readBack t)), offset, codeBytes o code) ∧
        offset.toNat = code.length % 2 ^ 16 := by
  obtain ⟨bytes, hsave, hload⟩ := objfileLoad_saved o h hsections code
  exact ⟨bytes, hsave, _, hload, UInt16.toNat_ofNat'⟩

/-- An entry of each of two tables, and two sections. -/
theorem objfileLoad_objfileSave_start :
    let tables : Table → List LprovEntry := fun t => match t with
      | .provided => [⟨some [115], 2⟩]
      | .jump => [⟨none, 4⟩]
      | .section => [⟨some [65], 0⟩, ⟨some [66], 4⟩]
      | _ => []
    (∀ t, ∀ e ∈ tables t, Savable t e.label) ∧ ((tables .section).map (·.address)).Nodup ∧
      ∃ bytes, objfileSave .little tables = some bytes ∧
        ∃ offset, objfileLoad .little 0 (fun _ => some []) (bytes ++ codeBytes .little [1, 2]) =
            some (fun t => some ((tables t).map (readBack t)), offset,
              codeBytes .little [1, 2]) ∧
          offset.toNat = [(1 : UInt16), 2].length % 2 ^ 16 := by
  intro tables
  have hsavable : ∀ t, ∀ e ∈ tables t, Savable t e.label := by
    rintro t e he
    refine ⟨?_, ?_, ?_⟩ <;> cases t <;> revert e <;> decide
  have hsections : ((tables .section).map (·.address)).Nodup := by decide
  exact ⟨hsavable, hsections, objfileLoad_objfileSave .little hsavable hsections [1, 2]⟩

/-- The tables are read back, and the offset is the number of the words of the code. -/
def ReadsBack (tables : Table → List LprovEntry) (code : List UInt16) : Prop :=
  ∃ bytes, objfileSave o tables = some bytes ∧
    ∃ offset, objfileLoad o 0 (fun _ => some []) (bytes ++ codeBytes o code) =
        some (fun t => some ((tables t).map (readBack t)), offset, codeBytes o code) ∧
      offset.toNat = code.length

/-- A label that is missing is not looked for in the other tables, and the offset of a code of
`2 ^ 16` words is zero. -/
theorem not_forall_readsBack :
    (¬ ∀ tables : Table → List LprovEntry,
      (∀ t, ∀ e ∈ tables t, ∀ s ∈ e.label, (0 : UInt8) ∉ s ∧ s.length ≤ 255) →
      ((tables .section).map (·.address)).Nodup → ReadsBack .little tables []) ∧
    ¬ ∀ code, ReadsBack .little (fun _ => []) code := by
  constructor
  · intro hall
    obtain ⟨bytes, hsave, -⟩ := hall (fun t => if t = .provided then [⟨none, 0⟩] else [])
      (fun t e he s hs => by cases t <;> simp_all) List.nodup_nil
    cases hsave
  · intro hall
    obtain ⟨bytes, hsave, offset, hload, hoffset⟩ := hall (List.replicate (2 ^ 16) 0)
    have hsavable : ∀ t, ∀ e ∈ (fun _ : Table => ([] : List LprovEntry)) t, Savable t e.label :=
      fun _ _ he => by cases he
    obtain ⟨bytes', hsave', hload'⟩ := objfileLoad_saved .little hsavable List.nodup_nil
      (List.replicate (2 ^ 16) 0)
    obtain rfl : bytes = bytes' := Option.some.inj (hsave.symm.trans hsave')
    obtain ⟨-, hrest⟩ := Prod.mk.inj (Option.some.inj (hload.symm.trans hload'))
    rw [(Prod.mk.inj hrest).1, List.length_replicate, UInt16.toNat_ofNat'] at hoffset
    omega

end RoundTrip

end DcpuToolchain
