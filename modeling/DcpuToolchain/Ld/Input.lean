import DcpuToolchain.Asm.Object
import DcpuToolchain.Vm.Load

/-!
# What the linker reads

`bins_load` makes a bin of an object file: it compares the beginning of the file, reads the tables
with `objfile_load`, and then the words, until the end of the file has been seen. Of a file that
the assembler has written it gets what the source says: the words, and in the tables the exports,
imports and addresses with their positions (`DcpuToolchain.binsLoadFile_assembled`).
-/

namespace DcpuToolchain

open Codec Stdio

/-! ### Reading an object file -/

/-- `bfromcstr`. -/
def labelChars (label : CString) : Bstring := label.map fun c => Char.ofNat c.toNat

/-- `list_convert`. -/
def listConvert (l : List LprovEntry) : List LconvEntry :=
  l.map fun e => ⟨(e.label.map labelChars).getD [], none, e.address.toNat⟩

/-- The loop of `bins_load`: the words that are written to the bin. The first argument is how many
there can be, and the second one what is in `store`. -/
def readWords (m : Imodes) : ℕ → Word → File → List Word
  | 0, _, _ => []
  | n + 1, store, load =>
    if (iread m store load).1.eof = true then []
    else (iread m store load).2.1 :: readWords m n (iread m store load).2.1 (iread m store load).1

/-- `bins_load`, without debugging symbols: the bin that is added, if the file is of the right
version and its tables end. -/
def binsLoadFile (m : Imodes) (o : Endian) (path : Bstring) (content : List UInt8) : Option LdBin :=
  if cText (content.take ldataObjfmt.dropLast.length) = ldataObjfmt.dropLast then
    (objfileLoad o 0 (fun _ => some []) (content.drop ldataObjfmt.length)).map
      fun (tables, _, code) =>
        { name := path
          words := readWords m (code.length + 1) 0 ⟨code, 0, false⟩
          tables := fun t => listConvert ((tables t).getD [])
          symbols := [] }
  else none

/-- The bin of a file, with its words. -/
def objectBin (path : Bstring) (file : List ObjectItem) (words : List Word) : LdBin where
  name := path
  words := words
  tables t := listConvert (objectTable file t).reverse
  symbols := []

/-! ### The words -/

section Words

variable {m : Imodes} {content : List UInt8}

/-- **The loop**, from a place on. -/
theorem readWords_from {n i : ℕ} (hn : content.length < 2 * (i + n)) (store : Word) :
    readWords m n store ⟨content, 2 * i, false⟩ =
      (List.range' i (content.length / 2 - i)).map (fileWord m content) := by
  induction n generalizing i store with
  | zero =>
    rw [readWords, show content.length / 2 - i = 0 by omega]
    rfl
  | succ n ih =>
    rw [readWords]
    rcases Nat.lt_or_ge (2 * i + 1) content.length with hword | hend
    · have hread := @iread_of_le m ⟨content, 2 * i, false⟩ rfl
        (show 2 * i + 2 ≤ content.length by omega) store
      rw [hread, take_two_drop hword]
      dsimp only
      rw [if_neg Bool.false_ne_true, show 2 * i + 2 = 2 * (i + 1) by omega, ih (by omega),
        show content.length / 2 - i = (content.length / 2 - (i + 1)) + 1 by omega,
        List.range'_succ, List.map_cons]
      rfl
    · -- the word that the end cuts off
      obtain ⟨heof, -⟩ := @iread_of_gt m ⟨content, 2 * i, false⟩ rfl
        (show content.length < 2 * i + 2 by omega) store
      rw [if_pos heof, show content.length / 2 - i = 0 by omega]
      rfl

/-- **The words of a file of words are read.** -/
theorem readWords_flatMap (m : Imodes) (words : List Word) (store : Word) :
    readWords m ((words.flatMap m.bytes).length + 1) store ⟨words.flatMap m.bytes, 0, false⟩ =
      words := by
  have hread := @readWords_from m (words.flatMap m.bytes) ((words.flatMap m.bytes).length + 1) 0
    (by omega) store
  rw [Nat.mul_zero, m.length_flatMap_bytes, Nat.mul_div_cancel_left _ Nat.zero_lt_two,
    Nat.sub_zero, ← m.length_flatMap_bytes] at hread
  rw [hread]
  refine List.ext_getElem (by rw [List.length_map, List.length_range']) fun i h1 h2 => ?_
  rw [List.getElem_map, List.getElem_range', Nat.zero_add, Nat.one_mul]
  exact fileWord_flatMap m words h2

end Words

/-! ### Names -/

section Names

/-- Only the character NUL is the byte zero. -/
theorem zero_notMem_utf8EncodeChar {c : Char} (h : c ≠ '\x00') :
    (0 : UInt8) ∉ String.utf8EncodeChar c := by
  have hpos : 0 < c.val.toNat := by
    rw [Nat.pos_iff_ne_zero]
    intro hzero
    exact h (Char.ext (UInt32.toNat_inj.mp hzero))
  have hbyte : ∀ n : ℕ, 0 < n → n < 256 → (0 : UInt8) ≠ UInt8.ofNat n := by
    intro n hn hlt heq
    have htoNat := congrArg UInt8.toNat heq
    rw [UInt8.toNat_ofNat', Nat.mod_eq_of_lt hlt] at htoNat
    exact hn.ne htoNat
  intro hmem
  unfold String.utf8EncodeChar at hmem
  dsimp only at hmem
  split at hmem
  · rcases List.mem_singleton.mp hmem with h0
    exact hbyte _ hpos (by omega) h0
  · split at hmem
    · simp only [List.mem_cons, List.not_mem_nil, or_false] at hmem
      rcases hmem with h0 | h0 <;> exact hbyte _ (by omega) (by omega) h0
    · split at hmem
      · simp only [List.mem_cons, List.not_mem_nil, or_false] at hmem
        rcases hmem with h0 | h0 | h0 <;> exact hbyte _ (by omega) (by omega) h0
      · simp only [List.mem_cons, List.not_mem_nil, or_false] at hmem
        rcases hmem with h0 | h0 | h0 | h0 <;> exact hbyte _ (by omega) (by omega) h0

theorem nameBytes_eq (name : String) :
    nameBytes name = name.toList.flatMap String.utf8EncodeChar := by
  rw [nameBytes, String.toUTF8_eq_toByteArray, ← String.utf8Encode_toList]
  exact List.toList_data_toByteArray

/-- A name without NUL is a string of C. -/
theorem zero_notMem_nameBytes {name : String} (h : '\x00' ∉ name.toList) :
    (0 : UInt8) ∉ nameBytes name := by
  rw [nameBytes_eq, List.mem_flatMap]
  rintro ⟨c, hc, hzero⟩
  exact zero_notMem_utf8EncodeChar (fun heq => h (heq ▸ hc)) hzero

/-- Names are told apart by their bytes. -/
theorem nameBytes_inj {name name' : String} : nameBytes name = nameBytes name' ↔ name = name' := by
  refine ⟨fun h => ?_, fun h => h ▸ rfl⟩
  refine String.toByteArray_inj.mp (ByteArray.ext (Array.ext' ?_))
  exact h

theorem labelChars_inj {label label' : CString} :
    labelChars label = labelChars label' ↔ label = label' := by
  refine ⟨fun h => ?_, fun h => h ▸ rfl⟩
  refine List.map_injective_iff.mpr (fun c d hcd => ?_) h
  have htoNat : ∀ c : UInt8, (Char.ofNat c.toNat).toNat = c.toNat := by
    intro c
    have hvalid : c.toNat.isValidChar := .inl (c.toNat_lt.trans (by decide))
    rw [Char.ofNat, dif_pos hvalid]
    rfl
  rw [← UInt8.toNat_inj, ← htoNat c, ← htoNat d, hcd]

end Names

/-! ### From the assembler to the linker -/

section Assembled

variable {run : AoutRun} {relativePcIsError : Bool} {lines : List AstNodeLine} {line : AstNodeLine}
  {file : List ObjectItem} {tables : Table → List LprovEntry} {o : Endian} {t : Table}

theorem nul_notMem_bstr2cstr (string : String) : '\x00' ∉ (bstr2cstr string '0').toList := by
  rw [bstr2cstr, String.toList_ofList, List.mem_map]
  rintro ⟨c, -, hc⟩
  split at hc
  · exact absurd hc (by decide)
  · rename_i hne
    exact hne hc

/-- The names of exports and imports have no NUL. -/
theorem nul_notMem_names (hfile : fileItems lines = some file) :
    (∀ name ∈ exportsOf file, '\x00' ∉ name.toList) ∧
      ∀ part ∈ file, ∀ name, part = .imports name ∨ part = .importOptional name →
        '\x00' ∉ name.toList := by
  have hline : ∀ {line : AstNodeLine} {file : List ObjectItem}, line.objectItems = some file →
      ∀ part ∈ file, ∀ name, part = .exports name ∨ part = .imports name ∨
        part = .importOptional name → '\x00' ∉ name.toList := by
    intro line file h part hpart name hname
    unfold AstNodeLine.objectItems at h
    split at h
    · cases h
      rcases List.mem_singleton.mp hpart with rfl
      rcases hname with h | h | h <;> cases h
      exact nul_notMem_bstr2cstr _
    · cases h
      rcases List.mem_singleton.mp hpart with rfl
      rcases hname with h | h | h <;> cases h
      exact nul_notMem_bstr2cstr _
    · cases h
      rcases List.mem_singleton.mp hpart with rfl
      rcases hname with h | h | h <;> cases h
      exact nul_notMem_bstr2cstr _
    · obtain ⟨items, -, rfl⟩ := Option.map_eq_some_iff.mp h
      obtain ⟨item, -, rfl⟩ := List.mem_map.mp hpart
      rcases hname with h | h | h <;> cases h
  have hall : ∀ part ∈ file, ∀ name, part = .exports name ∨ part = .imports name ∨
      part = .importOptional name → '\x00' ∉ name.toList := by
    induction lines generalizing file with
    | nil =>
      cases hfile
      exact fun _ hpart => absurd hpart List.not_mem_nil
    | cons line lines ih =>
      rw [fileItems] at hfile
      split at hfile
      · rename_i first rest hfirst hrest
        cases hfile
        intro part hpart
        rcases List.mem_append.mp hpart with hpart | hpart
        · exact hline hfirst part hpart
        · exact ih hrest part hpart
      · cases hfile
  refine ⟨fun name hname => ?_, fun part hpart name hname => hall part hpart name (.inr hname)⟩
  obtain ⟨part, hpart, hexported⟩ := List.mem_filterMap.mp hname
  cases part with
  | exports name' =>
    cases hexported
    exact hall _ hpart _ (.inl rfl)
  | _ => cases hexported

/-- An imported label is a name of a directive. -/
theorem nul_notMem_imported {name : String} (h : ∀ part ∈ file, ∀ name, part = .imports name ∨
      part = .importOptional name → '\x00' ∉ name.toList)
    (himported : importedAs file name = some t) :
    '\x00' ∉ name.toList := by
  obtain ⟨part, hpart, hways⟩ := List.exists_of_findSome?_eq_some himported
  cases part with
  | imports name' =>
    rw [ObjectItem.importsAs] at hways
    split at hways
    · rename_i hname
      exact hname ▸ h _ hpart name' (.inl rfl)
    · cases hways
  | importOptional name' =>
    rw [ObjectItem.importsAs] at hways
    split at hways
    · rename_i hname
      exact hname ▸ h _ hpart name' (.inr rfl)
    · cases hways
  | _ => cases hways

/-- Labels in the tables of a file are names without NUL. -/
theorem nul_notMem_objectTable (hfile : fileItems lines = some file) :
    ∀ e ∈ objectTable file t, ∀ label ∈ e.label, (0 : UInt8) ∉ label := by
  obtain ⟨hexports, himports⟩ := nul_notMem_names hfile
  have hreferences : ∀ t' : Table, ∀ r ∈ importsOf file t', '\x00' ∉ r.2.toList :=
    fun t' r hr => nul_notMem_imported himports (of_decide_eq_true (List.mem_filter.mp hr).2)
  intro e he label hlabel
  cases t with
  | provided =>
    obtain ⟨name, hname, rfl⟩ := List.mem_map.mp he
    cases hlabel
    exact zero_notMem_nameBytes (hexports name hname)
  | required =>
    obtain ⟨r, hr, rfl⟩ := List.mem_map.mp he
    cases hlabel
    exact zero_notMem_nameBytes (hreferences _ r hr)
  | optional =>
    obtain ⟨r, hr, rfl⟩ := List.mem_map.mp he
    cases hlabel
    exact zero_notMem_nameBytes (hreferences _ r hr)
  | adjustment =>
    obtain ⟨r, hr, rfl⟩ := List.mem_map.mp he
    cases hlabel
  | _ => exact absurd he List.not_mem_nil

/-- A table that is saved has labels that can be copied. -/
theorem savedLabel_of_saveTable {l : List LprovEntry} {saved : List UInt8}
    (h : saveTable o t l = some saved) : ∀ e ∈ l, (savedLabel t e.label).isSome := by
  induction l generalizing saved with
  | nil => exact fun _ he => absurd he List.not_mem_nil
  | cons e l ih =>
    rw [saveTable] at h
    obtain ⟨label, hlabel, h⟩ := Option.bind_eq_some_iff.mp h
    obtain ⟨rest, hrest, -⟩ := Option.bind_eq_some_iff.mp h
    exact List.forall_mem_cons.mpr ⟨by rw [hlabel]; rfl, ih hrest⟩

theorem savedLabel_of_saveTables {ts : List Table} {saved : List UInt8}
    (h : saveTables o tables ts = some saved) :
    ∀ t ∈ ts, ∀ e ∈ tables t, (savedLabel t e.label).isSome := by
  induction ts generalizing saved with
  | nil => exact fun _ ht => absurd ht List.not_mem_nil
  | cons t ts ih =>
    rw [saveTables] at h
    obtain ⟨first, hfirst, h⟩ := Option.bind_eq_some_iff.mp h
    obtain ⟨rest, hrest, -⟩ := Option.bind_eq_some_iff.mp h
    exact List.forall_mem_cons.mpr ⟨savedLabel_of_saveTable hfirst, ih hrest⟩

/-- **Tables that are saved can be read**, if their labels have no NUL. -/
theorem savable_of_objfileSave {saved : List UInt8} (h : objfileSave o tables = some saved)
    (hzero : ∀ t, ∀ e ∈ tables t, ∀ label ∈ e.label, (0 : UInt8) ∉ label)
    (hadjustment : ∀ e ∈ tables .adjustment, e.label = none) :
    ∀ t, ∀ e ∈ tables t, Savable t e.label := by
  obtain ⟨saved, hsaved, -⟩ := Option.map_eq_some_iff.mp h
  intro t e he
  have hcopied := savedLabel_of_saveTables hsaved t (by cases t <;> decide) e he
  refine ⟨fun hmissing => ?_, hzero t e he, fun label hlabel => ?_⟩
  · rw [hmissing] at hcopied
    cases t with
    | adjustment => exact .inl rfl
    | jump => exact .inr rfl
    | _ => cases hcopied
  · have hstrlen : strlen label = label.length := by
      rw [strlen, cText_of_notMem (hzero t e he label hlabel)]
    rw [Option.mem_def.mp hlabel] at hcopied
    have hcopy : (if strlen label + 1 ≤ 256 then some (cText label) else none).isSome := by
      cases t with
      | adjustment =>
        rw [hadjustment e he] at hlabel
        cases hlabel
      | _ => exact hcopied
    split at hcopy
    · omega
    · cases hcopy

/-- Tables that are saved are loaded, and the stream is left behind them. -/
theorem objfileLoad_append {saved : List UInt8} (hsaved : objfileSave o tables = some saved)
    (h : ∀ t, ∀ e ∈ tables t, Savable t e.label) (hsections : tables .section = [])
    (code : List UInt8) :
    ∃ offset, objfileLoad o 0 (fun _ => some []) (saved ++ code) =
      some (fun t => some ((tables t).map (readBack t)), offset, code) := by
  rw [objfileSave_eq o h] at hsaved
  cases hsaved
  have hfuel : (ldataEntries tables objfileTables).length <
      ((ldataEntries tables objfileTables).flatMap (ldataWrite o) ++ ldataWrite o endEntry ++
        code).length + 1 := by
    have hle := length_le_flatMap o (ldataEntries tables objfileTables)
    rw [List.length_append, List.length_append]
    omega
  have hnodup : ((tables .section).map (·.address)).Nodup := by
    rw [hsections]
    exact List.nodup_nil
  have htables := @foldl_ldataEntries ⟨fun _ => some [], false, 0⟩ tables objfileTables
    (by decide) (fun _ _ => rfl) (fun _ => rfl) hnodup
  refine ⟨0 + UInt16.ofNat (code.length / 2), ?_⟩
  rw [objfileLoad, reads_ldataEntries o h hfuel, Option.map_some]
  dsimp only
  rw [htables]
  congr 2
  funext t
  rw [if_pos]
  cases t <;> decide

/-- **What is saved is loaded.** -/
theorem binsLoadFile_saved {m : Imodes} {saved : List UInt8}
    (hsaved : objfileSave o tables = some saved) (h : ∀ t, ∀ e ∈ tables t, Savable t e.label)
    (hsections : tables .section = []) (path : Bstring) (words : List Word) :
    binsLoadFile m o path (ldataObjfmt ++ saved ++ words.flatMap m.bytes) = some
      { name := path
        words := words
        tables := fun t => listConvert ((tables t).map (readBack t))
        symbols := [] } := by
  obtain ⟨offset, hload⟩ := objfileLoad_append hsaved h hsections (words.flatMap m.bytes)
  have hlength : ldataObjfmt.length = ldataObjfmt.dropLast.length + 1 := by
    rw [List.length_dropLast]
    decide +kernel
  have hheader : cText ((ldataObjfmt ++ saved ++ words.flatMap m.bytes).take
      ldataObjfmt.dropLast.length) = ldataObjfmt.dropLast := by
    rw [List.append_assoc, List.take_append_of_le_length (by omega), List.dropLast_eq_take,
      List.length_take, Nat.min_eq_left (Nat.sub_le _ _), ← List.dropLast_eq_take]
    exact cText_of_notMem (by decide +kernel)
  rw [binsLoadFile, if_pos hheader, List.append_assoc, List.drop_left, hload, Option.map_some]
  dsimp only
  rw [readWords_flatMap]
  rfl

/-- What is read back of an entry is converted like the entry. -/
theorem listConvert_readBack {l : List LprovEntry}
    (h : t = .adjustment → ∀ e ∈ l, e.label = none) :
    listConvert (l.map (readBack t)) = listConvert l := by
  rw [listConvert, listConvert, List.map_map]
  refine List.map_congr_left fun e he => ?_
  rw [Function.comp_apply, readBack]
  split
  · rename_i ht
    rw [h ht e he]
  · cases e.label <;> rfl

/-- **The linker reads what the source says**, from a file that the assembler has written. -/
theorem binsLoadFile_assembled (hrun : run.WritesObject) (hfile : fileItems lines = some file)
    {bytes : List UInt8} (h : assembled run (processRoot relativePcIsError lines) {} = .ok bytes)
    (path : Bstring) :
    ∃ words, objectValues file = some words ∧
      binsLoadFile run.modes run.order path bytes = some (objectBin path file words) := by
  have hwritten := @assembled_object run relativePcIsError lines file hrun hfile
  rw [h] at hwritten
  split at hwritten
  · cases hwritten
  obtain ⟨words, hwords, hwritten⟩ := Option.bind_eq_some_iff.mp hwritten.symm
  obtain ⟨saved, hsaved, hbytes⟩ := Option.map_eq_some_iff.mp hwritten
  refine ⟨words, hwords, ?_⟩
  have hadjustment : ∀ e ∈ (objectTable file .adjustment).reverse, e.label = none := by
    intro e he
    obtain ⟨r, -, rfl⟩ := List.mem_map.mp (List.mem_reverse.mp he)
    rfl
  have hsavable := savable_of_objfileSave hsaved
    (fun t e he => nul_notMem_objectTable hfile e (List.mem_reverse.mp he)) hadjustment
  rw [← hbytes, binsLoadFile_saved hsaved hsavable rfl, objectBin]
  congr 2
  funext t
  refine listConvert_readBack fun ht => ?_
  subst ht
  exact hadjustment

end Assembled

end DcpuToolchain
