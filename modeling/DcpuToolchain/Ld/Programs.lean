import DcpuToolchain.Asm.Running
import DcpuToolchain.Ld.Library

/-!
# Linking programs

A program may be in several files, which export and import labels. What it says is its words, one
file after the other (`DcpuToolchain.linkedWords`): in each file the labels of the file have their
positions in the program, and an imported label has the position in the file that exports it.

The linker works on the object files, whose words say nothing about other files and have the
positions in their own file for labels, and on libraries that it has made of files, or of other
libraries (`DcpuToolchain.LinkInputs`). It writes the words of the program, or halts at a label
that is required and not exported (`DcpuToolchain.dtld_writes_program`), so that it makes no
difference whether files are made into a library first (`DcpuToolchain.dtld_library_eq`), and a
program in several files does on the machine what its sources say
(`DcpuToolchain.linked_runs_program`).
-/

namespace DcpuToolchain

open Codec Linking Marks Relation Stdio

/-! ### Programs in several files -/

/-- A source file that can be assembled and linked, with its words: no label that is behind the
last word is exported or referred to, and names fit into an object file. -/
structure ObjectSource where
  lines : List AstNodeLine
  file : List ObjectItem
  items : fileItems lines = some file
  words : List Word
  values : objectValues file = some words
  exports_lt : ∀ name ∈ exportsOf file, ∀ q ∈ labelPosition name 0 (codeItems file), q < words.length
  labels_lt : ∀ r ∈ adjustedOf file,
    ∀ q ∈ labelPosition r.2 0 (codeItems file), q < words.length
  exports_le : ∀ name ∈ exportsOf file, (nameBytes name).length ≤ 255
  imports_le : ∀ t, ∀ r ∈ importsOf file t, (nameBytes r.2).length ≤ 255

/-- The position of an exported label, where files begin at a position. -/
def exportedPosition : ℕ → List ObjectSource → String → Option ℕ
  | _, [], _ => none
  | p, f :: files, name =>
    if name ∈ exportsOf f.file then labelPosition name p (codeItems f.file)
    else exportedPosition (p + f.words.length) files name

/-- The value of an expression in a file that begins at a position, with positions for the labels
that are exported. An optional label that is not exported is zero. -/
def linkedValue (exported : String → Option ℕ) (p : ℕ) (file : List ObjectItem) :
    Expr → Option Word
  | .label name =>
    match importedAs file name with
    | none => labelValues p (codeItems file) name
    | some .optional => some (BitVec.ofNat 16 ((exported name).getD 0))
    | some _ => (exported name).map (BitVec.ofNat 16)
  | x => evaluated (labelValues 0 (codeItems file)) x

/-- The words of files, from a position on. -/
def linkedFrom (exported : String → Option ℕ) : ℕ → List ObjectSource → Option (List Word)
  | _, [] => some []
  | p, f :: files =>
    match itemsValues (linkedValue exported p f.file) (codeItems f.file),
      linkedFrom exported (p + f.words.length) files with
    | some ws, some ws' => some (ws ++ ws')
    | _, _ => none

/-- **The words of a program in several files.** -/
def linkedWords (files : List ObjectSource) : Option (List Word) :=
  linkedFrom (exportedPosition 0 files) 0 files

/-- The instructions of files with their positions and values, from a position on. -/
def linkedListing (exported : String → Option ℕ) :
    ℕ → List ObjectSource → List (ℕ × Instr Word)
  | _, [] => []
  | p, f :: files =>
    ((listing p (codeItems f.file)).map fun q =>
      (q.1, q.2.map fun x => (linkedValue exported p f.file x).getD 0)) ++
        linkedListing exported (p + f.words.length) files

/-- **The instructions of a program in several files.** -/
def linkedCode (files : List ObjectSource) : List (ℕ × Instr Word) :=
  linkedListing (exportedPosition 0 files) 0 files

/-- A word is a required label that no file exports. -/
def LacksExport (files : List ObjectSource) : Prop :=
  ∃ f ∈ files, ∃ r ∈ importsOf f.file .required, ∀ f' ∈ files, r.2 ∉ exportsOf f'.file

/-- No word is an optional label that a file exports. -/
def SettledFiles (files : List ObjectSource) : Prop :=
  ∀ f ∈ files, ∀ r ∈ importsOf f.file .optional, ∀ f' ∈ files, r.2 ∉ exportsOf f'.file

/-- Files that can be linked: with fewer than `0x10000` words, and no label that is exported
twice. -/
structure LinkableSources (files : List ObjectSource) : Prop where
  size_lt : (files.map (·.words.length)).sum < 0x10000
  exports_nodup : (files.flatMap (exportsOf ·.file)).Nodup

/-! ### The object of a file -/

/-- The characters of a name. -/
def nameChars (name : String) : Bstring := labelChars (nameBytes name)

theorem nameChars_inj {name name' : String} : nameChars name = nameChars name' ↔ name = name' :=
  labelChars_inj.trans nameBytes_inj

/-- Expressions other than labels have the same value in an object file as in the program. -/
theorem objectValue_of_ne {imported : String → Option Table} {labels : String → Option Word}
    {x : Expr} (hx : ∀ name, x ≠ .label name) :
    objectValue imported labels x = evaluated labels x := by
  cases x with
  | label name => exact absurd rfl (hx name)
  | _ => rfl

theorem linkedValue_of_ne {exported : String → Option ℕ} {p : ℕ} {file : List ObjectItem} {x : Expr}
    (hx : ∀ name, x ≠ .label name) :
    linkedValue exported p file x = evaluated (labelValues 0 (codeItems file)) x := by
  cases x with
  | label name => exact absurd rfl (hx name)
  | _ => rfl

namespace ObjectSource

/-- The item for a word. -/
def item (f : ObjectSource) : LineWord → Piece Bstring Word
  | .fixed w => .fixed w
  | .value (.label name) =>
    match importedAs f.file name with
    | none => .address ((labelPosition name 0 (codeItems f.file)).getD 0)
    | some t => .imported (t = .optional) (nameChars name)
  | .value x => .fixed ((evaluated (labelValues 0 (codeItems f.file)) x).getD 0)

variable (f : ObjectSource) {name : String} {i : ℕ} {w : LineWord}

theorem item_of_ne {x : Expr} (hx : ∀ name, x ≠ .label name) :
    f.item (.value x) = .fixed ((evaluated (labelValues 0 (codeItems f.file)) x).getD 0) := by
  cases x with
  | label name => exact absurd rfl (hx name)
  | _ => rfl

theorem length_words : (objectWords f.file).length = f.words.length := by
  have hwords := congrArg List.length (objectValues_eq_some f.values).2
  rwa [List.length_map, List.length_map] at hwords

theorem position_isSome (h : name ∈ exportsOf f.file) :
    (labelPosition name 0 (codeItems f.file)).isSome := (objectValues_eq_some f.values).1 name h

/-- The value of a word of the file. -/
theorem word_eq (hw : (objectWords f.file)[i]? = some w) :
    w.word (objectValue (importedAs f.file) (labelValues 0 (codeItems f.file))) = f.words[i]? := by
  have hvalue := congrArg (·[i]?) (objectValues_eq_some f.values).2
  have hi : i < f.words.length := by
    rw [← f.length_words]
    exact (List.getElem?_eq_some_iff.mp hw).1
  rw [List.getElem?_map, List.getElem?_map, hw, List.getElem?_eq_getElem hi, Option.map_some,
    Option.map_some, Option.some.injEq] at hvalue
  rw [hvalue, List.getElem?_eq_getElem hi]

/-- The label of a word is at a position, and the word is this position for now. -/
theorem label_position (hw : (objectWords f.file)[i]? = some (.value (.label name)))
    (himported : importedAs f.file name = none) :
    ∃ q, labelPosition name 0 (codeItems f.file) = some q ∧ q < f.words.length ∧
      f.words[i]? = some (BitVec.ofNat 16 q) := by
  have hword := f.word_eq hw
  rw [LineWord.word, objectValue, himported, Option.isSome_none, if_neg Bool.false_ne_true,
    labelValues] at hword
  have hi : i < f.words.length := by
    rw [← f.length_words]
    exact (List.getElem?_eq_some_iff.mp hw).1
  rw [List.getElem?_eq_getElem hi] at hword
  obtain ⟨q, hq, hqw⟩ := Option.map_eq_some_iff.mp hword
  have hr : (i, name) ∈ adjustedOf f.file :=
    List.mem_filter.mpr ⟨mem_references.mpr ⟨i, _, (Nat.zero_add i).symm, hw, rfl⟩,
      decide_eq_true himported⟩
  refine ⟨q, hq, f.labels_lt _ hr q hq, ?_⟩
  rw [List.getElem?_eq_getElem hi, hqw]

/-- **The object of a file.** -/
def content : LdObject where
  items := (objectWords f.file).map f.item
  exports := (exportsOf f.file).map fun name =>
    (nameChars name, (labelPosition name 0 (codeItems f.file)).getD 0)
  address_lt := by
    intro q hq
    obtain ⟨w, hw, heq⟩ := List.mem_map.mp hq
    obtain ⟨i, hi⟩ := List.mem_iff_getElem?.mp hw
    rw [List.length_map, f.length_words]
    unfold item at heq
    split at heq
    · cases heq
    · split at heq
      · rename_i himported
        obtain ⟨q', hq', hlt, -⟩ := f.label_position hi himported
        rw [hq'] at heq
        cases heq
        exact hlt
      · cases heq
    · cases heq
  exports_lt := by
    intro x hx
    obtain ⟨name, hname, rfl⟩ := List.mem_map.mp hx
    obtain ⟨q, hq⟩ := Option.isSome_iff_exists.mp (f.position_isSome hname)
    dsimp only
    rw [List.length_map, f.length_words, hq]
    exact f.exports_lt name hname q hq

/-! ### The bin of a file -/

section Bin

variable {e : LconvEntry} {t : Table} {o : Bool} {l : List LprovEntry} {q : ℕ} {v : Word}
  {label : Bstring}

theorem item_eq_address (h : f.item w = .address q) : ∃ name, w = .value (.label name) ∧
    importedAs f.file name = none ∧ (labelPosition name 0 (codeItems f.file)).getD 0 = q := by
  unfold item at h
  split at h
  · cases h
  · split at h
    · rename_i himported
      injection h with hq
      exact ⟨_, rfl, himported, hq⟩
    · cases h
  · cases h

theorem item_eq_imported (h : f.item w = .imported o label) : ∃ name t, w = .value (.label name) ∧
    importedAs f.file name = some t ∧ decide (t = .optional) = o ∧ nameChars name = label := by
  unfold item at h
  split at h
  · cases h
  · split at h
    · cases h
    · rename_i t himported
      injection h with ho hlabel
      exact ⟨_, t, rfl, himported, ho, hlabel⟩
  · cases h

theorem item_eq_fixed (h : f.item w = .fixed v) : w = .fixed v ∨ ∃ x, w = .value x ∧
    (∀ name, x ≠ .label name) ∧ (evaluated (labelValues 0 (codeItems f.file)) x).getD 0 = v := by
  unfold item at h
  split at h
  · injection h with hv
    exact .inl (congrArg _ hv)
  · split at h <;> cases h
  · rename_i x hx
    injection h with hv
    exact .inr ⟨x, rfl, hx, hv⟩

theorem getElem?_content {item : Piece Bstring Word} : f.content.items[i]? = some item ↔
    ∃ w, (objectWords f.file)[i]? = some w ∧ f.item w = item := by
  rw [content, List.getElem?_map, Option.map_eq_some_iff]

/-- The bin of a file. -/
def bin (path : Bstring) : LdBin := objectBin path f.file f.words

variable {f} (path : Bstring) (hsize : f.words.length < 0x10000)

theorem mem_listConvert_reverse :
    e ∈ listConvert l.reverse ↔
      ∃ e' ∈ l, e = ⟨(e'.label.map labelChars).getD [], none, e'.address.toNat⟩ := by
  rw [listConvert, List.mem_map]
  constructor
  · rintro ⟨e', he', rfl⟩
    exact ⟨e', List.mem_reverse.mp he', rfl⟩
  · rintro ⟨e', he', rfl⟩
    exact ⟨e', List.mem_reverse.mpr he', rfl⟩

/-- References are to words. -/
theorem mem_references_iff {r : ℕ × String} : r ∈ references 0 (objectWords f.file) ↔
    (objectWords f.file)[r.1]? = some (.value (.label r.2)) := by
  rw [mem_references]
  constructor
  · rintro ⟨j, w, hj, hw, hlabel⟩
    rw [hj, Nat.zero_add, hw, LineWord.eq_of_label hlabel]
  · exact fun hw => ⟨r.1, _, (Nat.zero_add _).symm, hw, rfl⟩

theorem reference_lt {r : ℕ × String} (h : r ∈ references 0 (objectWords f.file)) :
    r.1 < f.words.length := by
  rw [← f.length_words]
  exact (List.getElem?_eq_some_iff.mp (mem_references_iff.mp h)).1

include hsize

theorem toNat_position (h : q < f.words.length) : (UInt16.ofNat q).toNat = q := by
  rw [UInt16.toNat_ofNat', Nat.mod_eq_of_lt (by omega)]

/-- The positions of references in a table. -/
theorem address_listConvert {o : String → Option CString} {rs : List (ℕ × String)}
    (hrs : rs.Sublist (references 0 (objectWords f.file))) :
    (listConvert (rs.map fun r => (⟨o r.2, UInt16.ofNat r.1⟩ : LprovEntry)).reverse).map
      LconvEntry.address = (rs.map Prod.fst).reverse := by
  rw [listConvert, ← List.map_reverse, List.map_map, List.map_map, ← List.map_reverse]
  refine List.map_congr_left fun r hr => ?_
  exact toNat_position hsize (reference_lt (hrs.mem (List.mem_reverse.mp hr)))

theorem adjustedPositions_bin :
    (f.bin path).adjustedPositions = ((adjustedOf f.file).map Prod.fst).reverse :=
  address_listConvert (o := fun _ => none) hsize List.filter_sublist

theorem mem_adjustedPositions_bin : i ∈ (f.bin path).adjustedPositions ↔ ∃ name,
    (objectWords f.file)[i]? = some (.value (.label name)) ∧ importedAs f.file name = none := by
  rw [adjustedPositions_bin path hsize, List.mem_reverse, List.mem_map]
  constructor
  · rintro ⟨r, hr, rfl⟩
    obtain ⟨hreference, himported⟩ := List.mem_filter.mp hr
    exact ⟨r.2, mem_references_iff.mp hreference, of_decide_eq_true himported⟩
  · rintro ⟨name, hw, himported⟩
    exact ⟨(i, name),
      List.mem_filter.mpr ⟨mem_references_iff.mpr hw, decide_eq_true himported⟩, rfl⟩

omit hsize in
/-- The imports of one kind. -/
theorem tables_bin_import (o : Bool) : (f.bin path).tables (importTable o) =
    listConvert ((importsOf f.file (importTable o)).map fun r =>
      (⟨some (nameBytes r.2), UInt16.ofNat r.1⟩ : LprovEntry)).reverse := by
  cases o <;> rfl

/-- **What is imported** is in the bin. -/
theorem mem_imports_bin (o : Bool) : e ∈ (f.bin path).tables (importTable o) ↔
    ∃ name, (objectWords f.file)[e.address]? = some (.value (.label name)) ∧
      importedAs f.file name = some (importTable o) ∧ e = ⟨nameChars name, none, e.address⟩ := by
  rw [tables_bin_import path, mem_listConvert_reverse]
  constructor
  · rintro ⟨e', he', rfl⟩
    obtain ⟨r, hr, rfl⟩ := List.mem_map.mp he'
    obtain ⟨hreference, himported⟩ := List.mem_filter.mp hr
    dsimp only
    rw [toNat_position hsize (reference_lt hreference)]
    exact ⟨r.2, mem_references_iff.mp hreference, of_decide_eq_true himported, rfl⟩
  · rintro ⟨name, hw, himported, heq⟩
    have hreference := mem_references_iff (r := (e.address, name)) |>.mpr hw
    refine ⟨_, List.mem_map.mpr ⟨(e.address, name),
      List.mem_filter.mpr ⟨hreference, decide_eq_true himported⟩, rfl⟩, ?_⟩
    dsimp only
    rw [toNat_position hsize (reference_lt hreference)]
    exact heq

/-- **What is exported** is in the bin. -/
theorem mem_provided_bin : e ∈ (f.bin path).tables .provided ↔
    ∃ x ∈ f.content.exports, e = ⟨x.1, none, x.2⟩ := by
  have htable : (f.bin path).tables .provided =
      listConvert (objectTable f.file .provided).reverse := rfl
  have haddress : ∀ name ∈ exportsOf f.file,
      (UInt16.ofNat ((labelValues 0 (codeItems f.file) name).getD 0).toNat).toNat =
        (labelPosition name 0 (codeItems f.file)).getD 0 := by
    intro name hname
    obtain ⟨q, hq⟩ := Option.isSome_iff_exists.mp (f.position_isSome hname)
    have hlt := f.exports_lt name hname q hq
    rw [labelValues, hq, Option.map_some, Option.getD_some, Option.getD_some, BitVec.toNat_ofNat,
      Nat.mod_eq_of_lt (by omega)]
    exact toNat_position hsize hlt
  rw [htable, mem_listConvert_reverse]
  constructor
  · rintro ⟨e', he', rfl⟩
    obtain ⟨name, hname, rfl⟩ := List.mem_map.mp he'
    refine ⟨_, List.mem_map.mpr ⟨name, hname, rfl⟩, ?_⟩
    dsimp only
    rw [haddress name hname]
    rfl
  · rintro ⟨x, hx, rfl⟩
    obtain ⟨name, hname, rfl⟩ := List.mem_map.mp hx
    refine ⟨_, List.mem_map.mpr ⟨name, hname, rfl⟩, ?_⟩
    dsimp only
    rw [haddress name hname]
    rfl

/-- **The bin of a file is about its object.** -/
theorem carries_bin : (f.bin path).Carries f.content := by
  have hways : ∀ o t, t = .required ∨ t = .optional → decide (t = Table.optional) = o →
      t = importTable o := by
    rintro o t (rfl | rfl) rfl <;> rfl
  have hways' : ∀ o, decide (importTable o = Table.optional) = o := by
    intro o
    cases o <;> rfl
  have himport : ∀ o i label, f.content.items[i]? = some (.imported o label) →
      ∃ e ∈ (f.bin path).tables (importTable o), e.address = i := by
    intro o i label hi
    obtain ⟨w, hw, hitem⟩ := f.getElem?_content.mp hi
    obtain ⟨name, t, rfl, himported, ho, rfl⟩ := f.item_eq_imported hitem
    have ht := hways o t (importedAs_ways himported) ho
    rw [ht] at himported
    exact ⟨⟨nameChars name, none, i⟩,
      (mem_imports_bin path hsize o).mpr ⟨name, hw, himported, rfl⟩, rfl⟩
  refine ⟨?_, fun e => mem_provided_bin path hsize, fun o e he => ?_, fun o => ?_, fun i hi => ?_,
    ?_, fun i v hi => ?_, fun i q hi => ?_, fun i label hi => ?_, fun i label hi => ?_,
    fun t hp hr ho ha => ?_⟩
  · rw [content, List.length_map, f.length_words]
    rfl
  · obtain ⟨name, hw, himported, heq⟩ := (mem_imports_bin path hsize o).mp he
    rw [heq]
    refine ⟨rfl, f.getElem?_content.mpr ⟨_, hw, ?_⟩⟩
    rw [item, himported]
    dsimp only
    rw [hways' o]
  · have hsublist :
        (importsOf f.file (importTable o)).Sublist (references 0 (objectWords f.file)) :=
      List.filter_sublist
    rw [tables_bin_import path,
      address_listConvert (o := fun name => some (nameBytes name)) hsize hsublist,
      List.nodup_reverse]
    exact nodup_references.sublist (hsublist.map _)
  · obtain ⟨name, hw, himported⟩ := (mem_adjustedPositions_bin path hsize).mp hi
    obtain ⟨q, hq, -, hword⟩ := f.label_position hw himported
    refine ⟨q, Object.target_eq_some_iff.mpr ⟨_, f.getElem?_content.mpr ⟨_, hw, rfl⟩, ?_⟩, hword⟩
    rw [item, himported]
    dsimp only
    rw [hq]
    rfl
  · rw [adjustedPositions_bin path hsize, List.nodup_reverse]
    exact nodup_references.sublist (List.filter_sublist.map _)
  · obtain ⟨w, hw, hitem⟩ := f.getElem?_content.mp hi
    have hword := f.word_eq hw
    rcases f.item_eq_fixed hitem with rfl | ⟨x, rfl, hx, rfl⟩
    · exact hword.symm
    · have hlt := (List.getElem?_eq_some_iff.mp hw).1
      rw [f.length_words] at hlt
      rw [LineWord.word, objectValue_of_ne hx, List.getElem?_eq_getElem hlt] at hword
      rw [hword, Option.getD_some]
      exact List.getElem?_eq_getElem hlt
  · obtain ⟨w, hw, hitem⟩ := f.getElem?_content.mp hi
    obtain ⟨name, rfl, himported, -⟩ := f.item_eq_address hitem
    exact (mem_adjustedPositions_bin path hsize).mpr ⟨name, hw, himported⟩
  · -- nothing is filled in yet
    refine iff_of_true (List.mem_map.mpr (himport false i label hi)) fun hadjusted => ?_
    obtain ⟨name, hw, hlocal⟩ := (mem_adjustedPositions_bin path hsize).mp hadjusted
    obtain ⟨w, hw', hitem⟩ := f.getElem?_content.mp hi
    rw [hw] at hw'
    cases hw'
    rw [item, hlocal] at hitem
    cases hitem
  · exact List.mem_map.mpr (himport true i label hi)
  · cases t with
    | provided => exact absurd rfl hp
    | required => exact absurd rfl hr
    | optional => exact absurd rfl ho
    | adjustment => exact absurd rfl ha
    | _ => rfl

omit hsize in
/-- What the object of a file imports. -/
theorem mem_imported_content : .imported o label ∈ f.content.items ↔
    ∃ r ∈ importsOf f.file (importTable o), label = nameChars r.2 := by
  have hways : ∀ t, t = .required ∨ t = .optional → (decide (t = Table.optional) = o ↔
      t = importTable o) := by
    rintro t (rfl | rfl) <;> cases o <;> decide
  constructor
  · intro h
    obtain ⟨i, hi⟩ := List.mem_iff_getElem?.mp h
    obtain ⟨w, hw, hitem⟩ := f.getElem?_content.mp hi
    obtain ⟨name, t, rfl, himported, ho, rfl⟩ := f.item_eq_imported hitem
    rw [(hways t (importedAs_ways himported)).mp ho] at himported
    exact ⟨(i, name), List.mem_filter.mpr ⟨mem_references_iff.mpr hw,
      decide_eq_true himported⟩, rfl⟩
  · rintro ⟨r, hr, rfl⟩
    obtain ⟨hreference, himported⟩ := List.mem_filter.mp hr
    have himported := of_decide_eq_true himported
    refine List.mem_of_getElem? (f.getElem?_content.mpr
      ⟨_, mem_references_iff.mp hreference, ?_⟩)
    rw [item, himported]
    dsimp only
    rw [(hways _ (importedAs_ways himported)).mpr rfl]

omit hsize in
/-- **The names of a file are labels.** -/
theorem hasLabels_content : HasLabels f.content := by
  obtain ⟨hexports, himports⟩ := nul_notMem_names f.items
  have hlabel : ∀ name : String, '\x00' ∉ name.toList → (nameBytes name).length ≤ 255 →
      IsLabel (nameChars name) :=
    fun name hname hlength => ⟨nameBytes name, zero_notMem_nameBytes hname, hlength, rfl⟩
  refine ⟨fun x hx => ?_, fun o label hitem => ?_⟩
  · obtain ⟨name, hname, rfl⟩ := List.mem_map.mp hx
    exact hlabel name (hexports name hname) (f.exports_le name hname)
  · obtain ⟨r, hr, rfl⟩ := mem_imported_content.mp hitem
    have himported := of_decide_eq_true (List.mem_filter.mp hr).2
    exact hlabel r.2 (nul_notMem_imported himports himported) (f.imports_le _ r hr)

end Bin

end ObjectSource

/-! ### The object of a program -/

/-- The object of files, one behind the other. -/
def programObject (files : List ObjectSource) : LdObject :=
  Object.concat (files.map ObjectSource.content)

section Program

variable {files : List ObjectSource} {exported : String → Option ℕ} {name : String} {p : ℕ}
  {ws : List Word}

theorem programObject_cons (f : ObjectSource) (files : List ObjectSource) :
    programObject (f :: files) = f.content.append (programObject files) := rfl

theorem ObjectSource.length_content (f : ObjectSource) :
    f.content.items.length = f.words.length := by
  rw [content, List.length_map, f.length_words]

theorem length_programObject (files : List ObjectSource) :
    (programObject files).items.length = (files.map (·.words.length)).sum := by
  rw [programObject, Object.length_concat, List.map_map]
  congr 1
  exact List.map_congr_left fun f _ => f.length_content

theorem names_content (f : ObjectSource) : f.content.names = (exportsOf f.file).map nameChars := by
  rw [Object.names, ObjectSource.content, List.map_map]
  rfl

theorem names_programObject (files : List ObjectSource) :
    (programObject files).names = (files.flatMap (exportsOf ·.file)).map nameChars := by
  rw [programObject, Object.names_concat, List.flatMap_map, List.map_flatMap]
  congr 1
  funext f
  exact names_content f

theorem nodup_names (h : (files.flatMap (exportsOf ·.file)).Nodup) :
    (programObject files).names.Nodup := by
  rw [names_programObject]
  exact h.map fun _ _ heq => nameChars_inj.mp heq

theorem labelPosition_add (name : String) (items : List LineItem) (p q : ℕ) :
    labelPosition name (p + q) items = (labelPosition name q items).map (p + ·) := by
  induction items generalizing q with
  | nil => rfl
  | cons item items ih =>
    rw [labelPosition, labelPosition]
    split
    · rfl
    · rw [Nat.add_assoc, ih]

/-- The position of a label that a file exports. -/
theorem position_content (f : ObjectSource) (name : String) : f.content.position (nameChars name) =
    if name ∈ exportsOf f.file then labelPosition name 0 (codeItems f.file) else none := by
  cases hposition : f.content.position (nameChars name) with
  | none =>
    rw [Object.position_eq_none_iff, names_content] at hposition
    rw [if_neg fun hname => hposition (List.mem_map_of_mem hname)]
  | some q =>
    obtain ⟨name', hname', heq⟩ := List.mem_map.mp (Object.mem_exports_of_position hposition)
    obtain ⟨hchars, rfl⟩ := Prod.mk.inj heq
    rw [← nameChars_inj.mp hchars, if_pos hname']
    obtain ⟨q, hq⟩ := Option.isSome_iff_exists.mp (f.position_isSome hname')
    rw [hq, Option.getD_some]

/-- **The position of an exported label** is that in the object. -/
theorem exportedPosition_eq (p : ℕ) : exportedPosition p files name =
    ((programObject files).position (nameChars name)).map (p + ·) := by
  induction files generalizing p with
  | nil => rfl
  | cons f files ih =>
    rw [exportedPosition, programObject_cons, Object.position_append, position_content,
      f.length_content]
    split
    · rename_i hname
      obtain ⟨q, hq⟩ := Option.isSome_iff_exists.mp (f.position_isSome hname)
      rw [← Nat.add_zero p, labelPosition_add, hq, Nat.add_zero]
      rfl
    · rw [ih, Option.none_or, Option.map_map]
      congr 1
      funext q
      exact Nat.add_assoc ..

theorem exportedPosition_zero : exportedPosition 0 files name =
    (programObject files).position (nameChars name) := by
  rw [exportedPosition_eq]
  refine (congrArg (Option.map · _) ?_).trans (Option.map_id_apply ..)
  funext q
  exact Nat.zero_add q

/-- The words of files, from a position on, where they have values. -/
def linkedCells (exported : String → Option ℕ) : ℕ → List ObjectSource → List (Option Word)
  | _, [] => []
  | p, f :: files => (objectWords f.file).map (LineWord.word (linkedValue exported p f.file)) ++
      linkedCells exported (p + f.words.length) files

/-- **The words of a program**, word by word. -/
theorem linkedFrom_eq_some_iff :
    linkedFrom exported p files = some ws ↔ linkedCells exported p files = ws.map some := by
  induction files generalizing p ws with
  | nil =>
    rw [linkedFrom, linkedCells, Option.some.injEq, List.nil_eq, List.nil_eq, List.map_eq_nil_iff]
  | cons f files ih =>
    rw [linkedFrom, linkedCells]
    constructor
    · intro h
      split at h
      · rename_i ws₁ ws₂ h₁ h₂
        cases h
        rw [List.map_append, ← itemsValues_eq_some_iff.mp h₁, ih.mp h₂]
        rfl
      · cases h
    · intro h
      obtain ⟨ws₁, ws₂, rfl, h₁, h₂⟩ := List.append_eq_map_iff.mp h
      rw [itemsValues_eq_some_iff.mpr h₁.symm, ih.mpr h₂.symm]

/-- The value of a word is that of its item. -/
theorem word_linkedValue {f : ObjectSource} {c : LdObject} {i : ℕ} {w : LineWord}
    (hposition : ∀ name, c.position (nameChars name) = exported name)
    (hw : (objectWords f.file)[i]? = some w) :
    w.word (linkedValue exported p f.file) =
      c.value (BitVec.ofNat 16) ((f.item w).shift p) := by
  cases w with
  | fixed w => rfl
  | value x =>
    by_cases hx : ∃ name, x = .label name
    · obtain ⟨name, rfl⟩ := hx
      rw [LineWord.word, linkedValue, ObjectSource.item]
      cases himported : importedAs f.file name with
      | none =>
        obtain ⟨q, hq, -, -⟩ := f.label_position hw himported
        dsimp only
        rw [labelValues, ← Nat.add_zero p, labelPosition_add, hq, Nat.add_zero]
        rfl
      | some t =>
        rcases importedAs_ways himported with rfl | rfl
        · exact congrArg (Option.map (BitVec.ofNat 16)) (hposition name).symm
        · exact congrArg (fun r => some (BitVec.ofNat 16 (Option.getD r 0))) (hposition name).symm
    · -- other expressions have values in the file
      have hword := f.word_eq hw
      have hlt := (List.getElem?_eq_some_iff.mp hw).1
      rw [f.length_words] at hlt
      rw [List.getElem?_eq_getElem hlt, LineWord.word, objectValue_of_ne fun name heq =>
        hx ⟨name, heq⟩] at hword
      rw [LineWord.word, linkedValue_of_ne fun name heq => hx ⟨name, heq⟩,
        f.item_of_ne fun name heq => hx ⟨name, heq⟩, hword, Option.getD_some]
      rfl

/-- **The words of files are the values of their items.** -/
theorem linkedCells_eq {c : LdObject}
    (hposition : ∀ name, c.position (nameChars name) = exported name) (p : ℕ) :
    linkedCells exported p files =
      (programObject files).items.map fun item => c.value (BitVec.ofNat 16) (item.shift p) := by
  induction files generalizing p with
  | nil => rfl
  | cons f files ih =>
    rw [linkedCells, programObject_cons, Object.items_append, List.map_append, ih, List.map_map,
      f.length_content, ObjectSource.content, List.map_map]
    congr 1
    · refine List.map_congr_left fun w hw => ?_
      obtain ⟨i, hi⟩ := List.mem_iff_getElem?.mp hw
      exact word_linkedValue hposition hi
    · refine List.map_congr_left fun item _ => ?_
      rw [Function.comp_apply, item.shift_shift]

/-- **The words of a program are the values of its object.** -/
theorem linkedWords_eq_some_iff : linkedWords files = some ws ↔
    (programObject files).values (BitVec.ofNat 16) = ws.map some := by
  rw [linkedWords, linkedFrom_eq_some_iff, linkedCells_eq fun name => exportedPosition_zero.symm,
    Object.values]
  simp only [Piece.shift_zero]

/-- What the object of a program imports. -/
theorem mem_imported_programObject {o : Bool} {label : Bstring} :
    .imported o label ∈ (programObject files).items ↔
      ∃ f ∈ files, ∃ r ∈ importsOf f.file (importTable o), label = nameChars r.2 := by
  rw [programObject, Object.mem_imported_concat]
  constructor
  · rintro ⟨c, hc, hlabel⟩
    obtain ⟨f, hf, rfl⟩ := List.mem_map.mp hc
    exact ⟨f, hf, ObjectSource.mem_imported_content.mp hlabel⟩
  · rintro ⟨f, hf, hlabel⟩
    exact ⟨f.content, List.mem_map_of_mem hf, ObjectSource.mem_imported_content.mpr hlabel⟩

/-- A label without a position is exported by no file. -/
theorem position_eq_none_iff : (programObject files).position (nameChars name) = none ↔
    ∀ f ∈ files, name ∉ exportsOf f.file := by
  rw [Object.position_eq_none_iff, names_programObject, List.mem_map]
  constructor
  · intro h f hf hname
    exact h ⟨name, List.mem_flatMap.mpr ⟨f, hf, hname⟩, rfl⟩
  · rintro h ⟨name', hname', heq⟩
    obtain ⟨f, hf, hexported⟩ := List.mem_flatMap.mp hname'
    exact h f hf (nameChars_inj.mp heq ▸ hexported)

/-- A required label is missing in the object if no file exports it. -/
theorem lacks_iff : (programObject files).Lacks ↔ LacksExport files := by
  constructor
  · rintro ⟨label, hlabel, hnone⟩
    obtain ⟨f, hf, r, hr, rfl⟩ := mem_imported_programObject.mp hlabel
    exact ⟨f, hf, r, hr, position_eq_none_iff.mp hnone⟩
  · rintro ⟨f, hf, r, hr, hnone⟩
    exact ⟨nameChars r.2, mem_imported_programObject.mpr ⟨f, hf, r, hr, rfl⟩,
      position_eq_none_iff.mpr hnone⟩

theorem settled_of_settledFiles (h : SettledFiles files) : (programObject files).Settled := by
  intro label hlabel
  obtain ⟨f, hf, r, hr, rfl⟩ := mem_imported_programObject.mp hlabel
  exact position_eq_none_iff.mpr (h f hf r hr)

theorem hasLabels_programObject (files : List ObjectSource) : HasLabels (programObject files) := by
  refine hasLabels_concat fun c hc => ?_
  obtain ⟨f, -, rfl⟩ := List.mem_map.mp hc
  exact ObjectSource.hasLabels_content

end Program

/-! ### From the files to the image -/

/-- What the assembler writes for a file. -/
def ObjectSource.Written (m : Imodes) (o : Endian) (f : ObjectSource) (bytes : List UInt8) : Prop :=
  ∃ (run : AoutRun) (relativePcIsError : Bool), run.WritesObject ∧ run.modes = m ∧ run.order = o ∧
    assembled run (processRoot relativePcIsError f.lines) {} = .ok bytes

/-- **What the linker is given**, in the order of the arguments: what the assembler writes for a
file, or a library that the linker has made of such inputs. A library must not be made of libraries
in which optional labels have been filled in, since these are filled in once more. The first
argument lists the files that are in each input. -/
inductive LinkInputs (ls : ListSort) (m : Imodes) (o : Endian) :
    List (List ObjectSource) → List (Bstring × List UInt8) → Prop
  | nil : LinkInputs ls m o [] []
  | file {groups inputs} (path : Bstring) {f : ObjectSource} {bytes : List UInt8}
    (hfile : f.Written m o bytes) (h : LinkInputs ls m o groups inputs) :
    LinkInputs ls m o ([f] :: groups) ((path, bytes) :: inputs)
  | library {groups inputs parts partInputs} (path : Bstring) (keepOutputs : Bool)
    {bytes : List UInt8} (hparts : LinkInputs ls m o parts partInputs)
    (hpaths : NamesFit (partInputs.map Prod.fst)) (hsettled : ∀ files ∈ parts, SettledFiles files)
    (hlibrary : dtld ls m o true keepOutputs partInputs = some bytes)
    (h : LinkInputs ls m o groups inputs) :
    LinkInputs ls m o (parts.flatten :: groups) ((path, bytes) :: inputs)

section Image

variable {ls : ListSort} {m : Imodes} {o : Endian} {groups : List (List ObjectSource)}
  {inputs : List (Bstring × List UInt8)} {bytes : List UInt8} {files files' : List ObjectSource}
  {f : ObjectSource}

theorem ObjectSource.Written.load (h : f.Written m o bytes) (path : Bstring) :
    binsLoadFile m o path bytes = some (f.bin path) := by
  obtain ⟨run, relativePcIsError, hrun, rfl, rfl, hbytes⟩ := h
  obtain ⟨words, hwords, hload⟩ := binsLoadFile_assembled hrun f.items hbytes path
  rw [f.values] at hwords
  rw [hload, ← Option.some.inj hwords]
  rfl

/-- **A file can be assembled**, without a warning. -/
theorem ObjectSource.exists_written (f : ObjectSource) {run : AoutRun} (hrun : run.WritesObject) :
    ∃ bytes, f.Written run.modes run.order bytes := by
  have hlength : ∀ t, ∀ e ∈ objectTable f.file t, ∀ label ∈ e.label, label.length ≤ 255 := by
    intro t e he label hlabel
    cases t with
    | provided =>
      obtain ⟨name, hname, rfl⟩ := List.mem_map.mp he
      cases hlabel
      exact f.exports_le name hname
    | required =>
      obtain ⟨r, hr, rfl⟩ := List.mem_map.mp he
      cases hlabel
      exact f.imports_le _ r hr
    | optional =>
      obtain ⟨r, hr, rfl⟩ := List.mem_map.mp he
      cases hlabel
      exact f.imports_le _ r hr
    | adjustment =>
      obtain ⟨r, -, rfl⟩ := List.mem_map.mp he
      cases hlabel
    | _ => cases he
  have hmissing : ∀ t, ∀ e ∈ objectTable f.file t, e.label = none → t = .adjustment := by
    intro t e he hnone
    cases t with
    | adjustment => rfl
    | provided | required | optional =>
      obtain ⟨r, -, rfl⟩ := List.mem_map.mp he
      cases hnone
    | _ => cases he
  have hsaved := @objfileSave_eq run.order
    (fun t => (objectTable f.file t).reverse) fun t e he => by
    have he := List.mem_reverse.mp he
    exact ⟨fun hnone => .inl (hmissing t e he hnone), nul_notMem_objectTable f.items e he,
      hlength t e he⟩
  have hwritten := @assembled_object run false f.lines f.file hrun f.items
  rw [if_neg fun hboth => Bool.false_ne_true hboth.2, f.values, Option.bind_some, hsaved,
    Option.map_some] at hwritten
  cases hbytes : assembled run (processRoot false f.lines) {} with
  | error err =>
    rw [hbytes] at hwritten
    cases hwritten
  | ok bytes => exact ⟨bytes, run, false, hrun, rfl, rfl, hbytes⟩

/-- A part of files that can be linked can be linked. -/
theorem LinkableSources.of_append (h : LinkableSources (files ++ files')) :
    LinkableSources files ∧ LinkableSources files' := by
  obtain ⟨hsize, hnodup⟩ := h
  rw [List.map_append, List.sum_append] at hsize
  rw [List.flatMap_append, List.nodup_append] at hnodup
  exact ⟨⟨by omega, hnodup.1⟩, ⟨by omega, hnodup.2.1⟩⟩

/-- The objects of groups of files, one behind the other. -/
theorem concat_programObject (groups : List (List ObjectSource)) :
    Object.concat (groups.map programObject) = programObject groups.flatten := by
  have hgroups : groups.map programObject =
      (groups.map (List.map ObjectSource.content)).map Object.concat := by
    rw [List.map_map]
    rfl
  rw [hgroups, Object.concat_flatten, ← List.map_flatten]
  rfl

/-- The objects of files can be linked. -/
theorem LinkableSources.object (h : LinkableSources groups.flatten) :
    (Object.concat (groups.map programObject)).names.Nodup ∧
      (Object.concat (groups.map programObject)).items.length < 0x10000 := by
  rw [concat_programObject, length_programObject]
  exact ⟨nodup_names h.exports_nodup, h.size_lt⟩

/-- **A library of files is about the files.** -/
theorem library_of_carries {bins : List LdBin} (ls : ListSort) (keepOutputs : Bool)
    (hcarries : List.Forall₂ LdBin.Carries bins (groups.map programObject))
    (hload : (inputs.mapM fun input => binsLoadFile m o input.1 input.2) = some bins)
    (hnames : bins.map LdBin.name = inputs.map Prod.fst)
    (hpaths : NamesFit (inputs.map Prod.fst)) (hlinkable : LinkableSources groups.flatten)
    (hsettled : ∀ files ∈ groups, SettledFiles files) :
    ∃ bytes, dtld ls m o true keepOutputs inputs = some bytes ∧ ∀ path, ∃ b,
      binsLoadFile m o path bytes = some b ∧ b.name = path ∧
        b.Carries (programObject groups.flatten) := by
  obtain ⟨hnodup, hsize⟩ := hlinkable.object
  rw [← concat_programObject]
  refine dtld_library hcarries hload (hnames ▸ hpaths) hnodup hsize ls keepOutputs
    (fun c hc => ?_) ?_
  · obtain ⟨files, hfiles, rfl⟩ := List.mem_map.mp hc
    exact settled_of_settledFiles (hsettled files hfiles)
  · refine hasLabels_concat fun c hc => ?_
    obtain ⟨files, -, rfl⟩ := List.mem_map.mp hc
    exact hasLabels_programObject files

/-- **What is loaded is about the files.** -/
theorem LinkInputs.load (h : LinkInputs ls m o groups inputs)
    (hlinkable : LinkableSources groups.flatten) :
    ∃ bins, (inputs.mapM fun input => binsLoadFile m o input.1 input.2) = some bins ∧
      List.Forall₂ LdBin.Carries bins (groups.map programObject) ∧
        bins.map LdBin.name = inputs.map Prod.fst := by
  have hcons : ∀ {path : Bstring} {bytes : List UInt8} {inputs : List (Bstring × List UInt8)}
      {bin : LdBin} {bins : List LdBin}, binsLoadFile m o path bytes = some bin →
      (inputs.mapM fun input => binsLoadFile m o input.1 input.2) = some bins →
        (((path, bytes) :: inputs).mapM fun input => binsLoadFile m o input.1 input.2) =
          some (bin :: bins) := by
    intro path bytes inputs bin bins hbin hbins
    rw [List.mapM_cons, hbins, hbin]
    rfl
  induction h with
  | nil => exact ⟨[], rfl, .nil, rfl⟩
  | @file groups inputs path f bytes hfile _ ih =>
    obtain ⟨hfirst, hrest⟩ := LinkableSources.of_append hlinkable
    obtain ⟨bins, hload, hcarries, hnames⟩ := ih hrest
    have hsize : f.words.length < 0x10000 := hfirst.size_lt
    have hobject : programObject [f] = f.content := Object.concat_singleton _
    refine ⟨_, hcons (hfile.load path) hload, .cons ?_ hcarries, ?_⟩
    · rw [hobject]
      exact ObjectSource.carries_bin path hsize
    · rw [List.map_cons, hnames]
      rfl
  | @library groups inputs parts partInputs path keepOutputs bytes _ hpaths hsettled hlibrary _
      ihparts ih =>
    obtain ⟨hfirst, hrest⟩ := LinkableSources.of_append hlinkable
    obtain ⟨bins, hload, hcarries, hnames⟩ := ih hrest
    obtain ⟨partBins, hpartLoad, hpartCarries, hpartNames⟩ := ihparts hfirst
    obtain ⟨bytes', hbytes, hloads⟩ :=
      library_of_carries ls keepOutputs hpartCarries hpartLoad hpartNames hpaths hfirst hsettled
    rw [hlibrary] at hbytes
    cases hbytes
    obtain ⟨bin, hbin, hname, hcarries'⟩ := hloads path
    refine ⟨_, hcons hbin hload, .cons hcarries' hcarries, ?_⟩
    rw [List.map_cons, hnames, hname]
    rfl

theorem LinkInputs.append {groups' : List (List ObjectSource)}
    {inputs' : List (Bstring × List UInt8)} (h : LinkInputs ls m o groups inputs)
    (h' : LinkInputs ls m o groups' inputs') :
    LinkInputs ls m o (groups ++ groups') (inputs ++ inputs') := by
  induction h with
  | nil => exact h'
  | file path hfile _ ih => exact .file path hfile ih
  | library path keepOutputs hparts hpaths hsettled hlibrary _ _ ih =>
    exact .library path keepOutputs hparts hpaths hsettled hlibrary ih

/-- A program without a label that is required has no words. -/
theorem linkedWords_eq_none (hl : LacksExport files) : linkedWords files = none := by
  cases hwords : linkedWords files with
  | none => rfl
  | some ws =>
    have hnone : none ∈ (programObject files).values (BitVec.ofNat 16) :=
      Object.none_mem_values (lacks_iff.mpr hl)
    rw [linkedWords_eq_some_iff.mp hwords] at hnone
    obtain ⟨w, -, hw⟩ := List.mem_map.mp hnone
    cases hw

/-- The linker halts, or writes the words of the program. -/
theorem LinkInputs.dtld_cases (h : LinkInputs ls m o groups inputs)
    (hpaths : NamesFit (inputs.map Prod.fst)) (hlinkable : LinkableSources groups.flatten)
    (keepOutputs : Bool) :
    LacksExport groups.flatten ∧ dtld ls m o false keepOutputs inputs = none ∨
      ¬ LacksExport groups.flatten ∧ ∃ words, linkedWords groups.flatten = some words ∧
        dtld ls m o false keepOutputs inputs = some (words.flatMap m.bytes) := by
  obtain ⟨bins, hload, hcarries, hnames⟩ := h.load hlinkable
  obtain ⟨hnodup, hsize⟩ := hlinkable.object
  have himage := dtld_image hcarries hload (hnames ▸ hpaths) hnodup hsize ls keepOutputs
  rw [concat_programObject, lacks_iff] at himage
  refine himage.imp_right fun himage => ⟨himage.1, ?_⟩
  obtain ⟨words, hvalues, hbytes⟩ := himage.2
  exact ⟨words, linkedWords_eq_some_iff.mpr hvalues, hbytes⟩

/-- `.IMPORT count`, `:loop JSR count` and `SET PC, loop`. -/
def callingSource : ObjectSource where
  lines := [.keyword .imports (some "count") none none, .label "loop",
    .instruction "JSR" [.address (.label "count") false none],
    .instruction "SET" [.registr "PC" false, .address (.label "loop") false none]]
  file := [.imports "count", .code (.label "loop"),
    .code (.instr (.nonbasic .jsr (.nxtLit (.label "count")))),
    .code (.instr (.basic .set .pc (.nxtLit (.label "loop"))))]
  items := by decide +kernel
  words := [0x7C20, 0, 0x7F81, 0]
  values := by decide +kernel
  exports_lt := by decide +kernel
  labels_lt := by decide +kernel
  exports_le := by decide +kernel
  imports_le t := by cases t <;> decide +kernel

/-- `.EXPORT count`, `:count ADD A, 1`, `SET PC, back` and `:back SET PC, POP`. -/
def calledSource : ObjectSource where
  lines := [.keyword .exports (some "count") none none, .label "count",
    .instruction "ADD" [.registr "A" false, .address (.number 1) false none],
    .instruction "SET" [.registr "PC" false, .address (.label "back") false none],
    .label "back", .instruction "SET" [.registr "PC" false, .registr "POP" false]]
  file := [.exports "count", .code (.label "count"),
    .code (.instr (.basic .add (.reg 0) (.nxtLit (.number 1)))),
    .code (.instr (.basic .set .pc (.nxtLit (.label "back")))), .code (.label "back"),
    .code (.instr (.basic .set .pc .pushPop))]
  items := by decide +kernel
  words := [0x7C02, 1, 0x7F81, 4, 0x6381]
  values := by decide +kernel
  exports_lt := by decide +kernel
  labels_lt := by decide +kernel
  exports_le := by decide +kernel
  imports_le t := by cases t <;> decide +kernel

/-- The run that writes code for the linker. -/
def objectRun : AoutRun := { intermediate := true }

theorem linkable_calling : LinkableSources [callingSource, calledSource] :=
  ⟨by decide, by decide⟩

theorem namesFit_calling : NamesFit [['a'], ['b']] := ⟨by decide, by decide, by decide⟩

theorem settled_called : ∀ files ∈ [[calledSource]], SettledFiles files := by
  intro files hfiles f hf r hr
  have hnone : importsOf calledSource.file .optional = [] := by decide +kernel
  rw [List.mem_singleton.mp hfiles] at hf
  rw [List.mem_singleton.mp hf, hnone] at hr
  cases hr

/-- The two files, one of them in a library. -/
theorem linkInputs_calling : ∃ bytes library, LinkInputs .insertion objectRun.modes objectRun.order
    [[callingSource], [calledSource]] [(['a'], bytes), (['b'], library)] := by
  have hrun : objectRun.WritesObject := ⟨rfl, rfl, rfl⟩
  obtain ⟨bytes, hbytes⟩ := callingSource.exists_written hrun
  obtain ⟨bytes', hbytes'⟩ := calledSource.exists_written hrun
  have hparts : LinkInputs .insertion objectRun.modes objectRun.order [[calledSource]]
      [(['c'], bytes')] := .file _ hbytes' .nil
  have hlinkable : LinkableSources [calledSource] := ⟨by decide, by decide⟩
  have hpaths : NamesFit [['c']] := ⟨by decide, by decide, by decide⟩
  obtain ⟨bins, hload, hcarries, hnames⟩ := hparts.load hlinkable
  obtain ⟨library, hlibrary, -⟩ := library_of_carries .insertion false hcarries hload hnames hpaths
    hlinkable settled_called
  exact ⟨bytes, library,
    .file _ hbytes (.library _ false hparts hpaths settled_called hlibrary .nil)⟩

/-- **The instructions are in the memory** where the words are. -/
theorem codeAt_linkedListing {exported : String → Option ℕ} {p : ℕ} {ws : List Word}
    {ram : Word → Word} (hwords : linkedFrom exported p files = some ws)
    (hcode : CodeAt ram (BitVec.ofNat 16 p) ws) {q : ℕ × Instr Word}
    (hq : q ∈ linkedListing exported p files) :
    CodeAt ram (BitVec.ofNat 16 q.1) q.2.encode := by
  induction files generalizing p ws with
  | nil => exact absurd hq List.not_mem_nil
  | cons f files ih =>
    rw [linkedFrom] at hwords
    split at hwords
    · rename_i ws₁ ws₂ h₁ h₂
      cases hwords
      obtain ⟨hcode₁, hcode₂⟩ := codeAt_append_iff.mp hcode
      rcases List.mem_append.mp hq with hq | hq
      · obtain ⟨q, hlisting, rfl⟩ := List.mem_map.mp hq
        exact (codeAt_listing h₁ hcode₁ hlisting).1
      · have hlength : ws₁.length = f.words.length := by
          have hvalues := congrArg List.length (itemsValues_eq_some_iff.mp h₁)
          rw [List.length_map, List.length_map] at hvalues
          rw [← hvalues]
          exact f.length_words
        rw [hlength, ← BitVec.ofNat_add] at hcode₂
        exact ih h₂ hcode₂ hq
    · cases hwords

/-- Some of the names of files. -/
theorem NamesFit.sublist {names names' : List Bstring} (h : NamesFit names)
    (hsublist : names'.Sublist names) : NamesFit names' :=
  ⟨h.nodup.sublist hsublist, fun name hname => h.ne_output name (hsublist.mem hname),
    fun name hname => h.not_section name (hsublist.mem hname)⟩

/-- **Linking is associative**: inputs can be made into a library, and linked with others it gives
the image that they give. -/
theorem dtld_library_eq {before parts after : List (List ObjectSource)}
    {beforeInputs partInputs afterInputs : List (Bstring × List UInt8)} {path : Bstring}
    (hbefore : LinkInputs ls m o before beforeInputs) (hparts : LinkInputs ls m o parts partInputs)
    (hafter : LinkInputs ls m o after afterInputs)
    (hsettled : ∀ files ∈ parts, SettledFiles files)
    (hlinkable : LinkableSources (before ++ (parts ++ after)).flatten)
    (hpaths : NamesFit ((beforeInputs ++ (partInputs ++ afterInputs)).map Prod.fst))
    (hpath : NamesFit (beforeInputs.map Prod.fst ++ path :: afterInputs.map Prod.fst))
    (keepOutputs : Bool) :
    ∃ bytes, dtld ls m o true keepOutputs partInputs = some bytes ∧
      dtld ls m o false keepOutputs (beforeInputs ++ (path, bytes) :: afterInputs) =
        dtld ls m o false keepOutputs (beforeInputs ++ (partInputs ++ afterInputs)) := by
  have hflatten : (before ++ (parts ++ after)).flatten =
      (before ++ parts.flatten :: after).flatten := by
    rw [List.flatten_append, List.flatten_append, List.flatten_append, List.flatten_cons]
  have hpartPaths : NamesFit (partInputs.map Prod.fst) := by
    refine hpaths.sublist ?_
    rw [List.map_append, List.map_append]
    exact (List.sublist_append_left ..).trans (List.sublist_append_right ..)
  have hpartLinkable : LinkableSources parts.flatten := by
    rw [List.flatten_append, List.flatten_append] at hlinkable
    exact hlinkable.of_append.2.of_append.1
  obtain ⟨bins, hload, hcarries, hnames⟩ := hparts.load hpartLinkable
  obtain ⟨bytes, hbytes, -⟩ := library_of_carries ls keepOutputs hcarries hload hnames hpartPaths
    hpartLinkable hsettled
  refine ⟨bytes, hbytes, ?_⟩
  have hlibrary :=
    hbefore.append (.library path keepOutputs hparts hpartPaths hsettled hbytes hafter)
  have hall := hbefore.append (hparts.append hafter)
  have hpath' : NamesFit ((beforeInputs ++ (path, bytes) :: afterInputs).map Prod.fst) := by
    rw [List.map_append, List.map_cons]
    exact hpath
  have hlinkable' := hlinkable
  rw [hflatten] at hlinkable'
  have hfirst := hlibrary.dtld_cases hpath' hlinkable' keepOutputs
  have hsecond := hall.dtld_cases hpaths hlinkable keepOutputs
  rw [← hflatten] at hfirst
  obtain ⟨hl, hfirst⟩ | ⟨hl, words, hwords, hfirst⟩ := hfirst
  · obtain ⟨-, hsecond⟩ | ⟨hl', -⟩ := hsecond
    · rw [hfirst, hsecond]
    · exact absurd hl hl'
  · obtain ⟨hl', -⟩ | ⟨-, words', hwords', hsecond⟩ := hsecond
    · exact absurd hl' hl
    · rw [hwords] at hwords'
      cases hwords'
      rw [hfirst, hsecond]

/-- A library in the place of the second file. -/
theorem dtld_library_eq_calling : ∃ bytes bytes' library,
    dtld .insertion objectRun.modes objectRun.order true false [(['b'], bytes')] = some library ∧
      dtld .insertion objectRun.modes objectRun.order false false
          [(['a'], bytes), (['l'], library)] =
        dtld .insertion objectRun.modes objectRun.order false false
          [(['a'], bytes), (['b'], bytes')] := by
  have hrun : objectRun.WritesObject := ⟨rfl, rfl, rfl⟩
  obtain ⟨bytes, hbytes⟩ := callingSource.exists_written hrun
  obtain ⟨bytes', hbytes'⟩ := calledSource.exists_written hrun
  have hpath : NamesFit [['a'], ['l']] := ⟨by decide, by decide, by decide⟩
  obtain ⟨library, hlibrary⟩ := @dtld_library_eq .insertion objectRun.modes objectRun.order
    [[callingSource]] [[calledSource]] [] [(['a'], bytes)] [(['b'], bytes')] [] ['l']
    (.file _ hbytes .nil) (.file _ hbytes' .nil) .nil settled_called linkable_calling
    namesFit_calling hpath false
  exact ⟨bytes, bytes', library, hlibrary⟩

end Image

end DcpuToolchain
