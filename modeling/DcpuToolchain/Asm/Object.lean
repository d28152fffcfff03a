import DcpuToolchain.Asm.Program

/-!
# What a file says to the linker

A source file of labels, instructions, data, exports and imports (`DcpuToolchain.ObjectItem`) says
words, as a program does. Besides it says which of these are addresses, which of them are to be
filled in, and what addresses other files may have (`DcpuToolchain.objectTable`). An imported label
takes the place of one of the file, but only in a word that is this label and nothing else: other
expressions have the positions in the file for the labels, and nothing is said about them.

The assembler writes what is said to the linker, the last of each kind first, and behind it the
words (`DcpuToolchain.assembled_object`).
-/

namespace DcpuToolchain

open Codec Stdio

/-! ### Files -/

/-- What a part of a line of a file says. -/
inductive ObjectItem
  | code (item : LineItem)
  | exports (name : String)
  | imports (name : String)
  | importOptional (name : String)
  deriving DecidableEq, Repr

/-- The entries for a part of a file. -/
def ObjectItem.entries : ObjectItem → List AoutByte
  | code item => item.entries
  | exports name => [aoutCreateMetadata .exports (some name)]
  | imports name => [aoutCreateMetadata .imports (some name)]
  | importOptional name => [aoutCreateMetadata .importOptional (some name)]

/-- What a line says, if it is no other directive for the linker or for addresses. -/
def AstNodeLine.objectItems : AstNodeLine → Option (List ObjectItem)
  | .keyword .exports (some string) _ _ => some [.exports (bstr2cstr string '0')]
  | .keyword .imports (some string) _ _ => some [.imports (bstr2cstr string '0')]
  | .keyword .importOptional (some string) _ _ => some [.importOptional (bstr2cstr string '0')]
  | line => line.items.map (·.map .code)

/-- What a file says. -/
def fileItems : List AstNodeLine → Option (List ObjectItem)
  | [] => some []
  | line :: lines =>
    match line.objectItems, fileItems lines with
    | some items, some items' => some (items ++ items')
    | _, _ => none

namespace ObjectItem

/-- The part of the program. -/
def item : ObjectItem → Option LineItem
  | code item => some item
  | _ => none

/-- The label that is exported. -/
def exported : ObjectItem → Option String
  | exports name => some name
  | _ => none

/-- How a label is imported. -/
def importsAs (name : String) : ObjectItem → Option Table
  | imports name' => if name' = name then some .required else none
  | importOptional name' => if name' = name then some .optional else none
  | _ => none

end ObjectItem

/-- The program of a file. -/
def codeItems (file : List ObjectItem) : List LineItem := file.filterMap ObjectItem.item

/-- The labels that a file exports. -/
def exportsOf (file : List ObjectItem) : List String := file.filterMap ObjectItem.exported

/-- How a file imports a label: the first directive counts. -/
def importedAs (file : List ObjectItem) (name : String) : Option Table :=
  file.findSome? (ObjectItem.importsAs name)

/-! ### Words and references -/

/-- What a word of a line is. -/
inductive LineWord
  | fixed (w : Word)
  | value (x : Expr)
  deriving DecidableEq, Repr

/-- The words of an item. -/
def LineItem.lineWords : LineItem → List LineWord
  | label _ => []
  | instr i => .fixed i.word :: i.nexts.map .value
  | raw w => [.fixed w]
  | value x => [.value x]

/-- The words of a file. -/
def objectWords (file : List ObjectItem) : List LineWord :=
  (codeItems file).flatMap LineItem.lineWords

/-- The label that a word is. -/
def LineWord.label : LineWord → Option String
  | .value (.label name) => some name
  | _ => none

/-- The words that are labels, with their positions, from a position on. -/
def references : ℕ → List LineWord → List (ℕ × String)
  | _, [] => []
  | p, w :: words => (w.label.map (p, ·)).toList ++ references (p + 1) words

/-- The value of an expression in a word, where some labels are imported. A word for an imported
label is zero for now. -/
def objectValue (importedAs : String → Option Table) (labels : String → Option Word) :
    Expr → Option Word
  | .label name => if (importedAs name).isSome then some 0 else labels name
  | x => evaluated labels x

/-- The values of the words of a file, which has to have the labels that it exports. -/
def objectValues (file : List ObjectItem) : Option (List Word) :=
  if ∀ name ∈ exportsOf file, (labelPosition name 0 (codeItems file)).isSome then
    itemsValues (objectValue (importedAs file) (labelValues 0 (codeItems file))) (codeItems file)
  else none

/-- The bytes of a name. -/
def nameBytes (name : String) : CString := name.toUTF8.data.toList

/-- The positions that are imported in one way, with the names. -/
def importsOf (file : List ObjectItem) (t : Table) : List (ℕ × String) :=
  (references 0 (objectWords file)).filter fun r => importedAs file r.2 = some t

/-- The positions of addresses. -/
def adjustedOf (file : List ObjectItem) : List (ℕ × String) :=
  (references 0 (objectWords file)).filter fun r => importedAs file r.2 = none

/-- **What a file says to the linker.** -/
def objectTable (file : List ObjectItem) : Table → List LprovEntry
  | .provided => (exportsOf file).map fun name =>
    ⟨some (nameBytes name), UInt16.ofNat ((labelValues 0 (codeItems file) name).getD 0).toNat⟩
  | .required => (importsOf file .required).map fun r => ⟨some (nameBytes r.2), UInt16.ofNat r.1⟩
  | .optional => (importsOf file .optional).map fun r => ⟨some (nameBytes r.2), UInt16.ofNat r.1⟩
  | .adjustment => (adjustedOf file).map fun r => ⟨none, UInt16.ofNat r.1⟩
  | _ => []

/-- A run that writes code for the linker, without a relocation table and without an error for
expressions that are not adjusted. -/
structure AoutRun.WritesObject (run : AoutRun) : Prop where
  relocatable : run.relocatable = false
  intermediate : run.intermediate = true
  notAdjusted : run.treatAsError .expressionNotAdjusted = false

/-! ### What the front end emits -/

section Emitting

variable {lines : List AstNodeLine} {line : AstNodeLine} {items : List LineItem}
  {file file' : List ObjectItem}

theorem codeItems_append : codeItems (file ++ file') = codeItems file ++ codeItems file' :=
  List.filterMap_append

theorem codeItems_map_code : codeItems (items.map .code) = items := by
  rw [codeItems, List.filterMap_map]
  exact List.filterMap_some

theorem flatMap_entries_code :
    (items.map ObjectItem.code).flatMap ObjectItem.entries = items.flatMap LineItem.entries := by
  rw [List.flatMap_map]
  rfl

/-- A line stops only at an instruction about which there is a warning. -/
theorem processLine_of_objectItems (relativePcIsError : Bool) (h : line.objectItems = some file) :
    processLine relativePcIsError line =
      if (codeItems file).any LineItem.relativePc ∧ relativePcIsError = true then
        ([], some .relativePcAddressing)
      else (file.flatMap ObjectItem.entries, none) := by
  have hitems : line.items.map (·.map ObjectItem.code) = some file →
      processLine relativePcIsError line =
        if (codeItems file).any LineItem.relativePc ∧ relativePcIsError = true then
          ([], some .relativePcAddressing)
        else (file.flatMap ObjectItem.entries, none) := by
    intro hmap
    obtain ⟨items, hline, rfl⟩ := Option.map_eq_some_iff.mp hmap
    rw [processLine_of_items relativePcIsError hline, codeItems_map_code, flatMap_entries_code]
  have hnone : ([] : List LineItem).any LineItem.relativePc ∧ relativePcIsError = true → False :=
    fun hboth => Bool.false_ne_true hboth.1
  unfold AstNodeLine.objectItems at h
  split at h
  · cases h
    exact (if_neg hnone).symm
  · cases h
    exact (if_neg hnone).symm
  · cases h
    exact (if_neg hnone).symm
  · exact hitems h

theorem processLines_of_fileItems (relativePcIsError : Bool) (h : fileItems lines = some file) :
    if (codeItems file).any LineItem.relativePc ∧ relativePcIsError = true then
      (processLines relativePcIsError lines).2 = some .relativePcAddressing
    else processLines relativePcIsError lines = (file.flatMap ObjectItem.entries, none) := by
  induction lines generalizing file with
  | nil =>
    cases h
    rw [show codeItems [] = [] from rfl, List.any_nil,
      if_neg fun hfalse => Bool.false_ne_true hfalse.1]
    rfl
  | cons line lines ih =>
    rw [fileItems] at h
    split at h
    · rename_i first rest hfirst hrest
      cases h
      have hline := processLine_of_objectItems relativePcIsError hfirst
      have hlines := ih hrest
      rw [codeItems_append, List.any_append, processLines, List.flatMap_append]
      cases hany : (codeItems first).any LineItem.relativePc with
      | true =>
        rw [hany] at hline
        rw [Bool.true_or]
        by_cases herror : relativePcIsError = true
        · rw [if_pos ⟨rfl, herror⟩] at hline ⊢
          rw [hline]
        · rw [if_neg fun hboth => herror hboth.2] at hline hlines ⊢
          rw [hline, hlines]
      | false =>
        rw [hany, if_neg fun hboth => Bool.false_ne_true hboth.1] at hline
        rw [Bool.false_or, hline]
        split at hlines
        · rename_i hboth
          rw [if_pos hboth]
          exact hlines
        · rename_i hboth
          rw [if_neg hboth, hlines]
    · cases h

end Emitting

/-! ### What is written for the entries -/

/-- The entries of files: those of programs, and those of exports and imports. -/
inductive AoutByte.OfFile : AoutByte → Prop
  | simple {e : AoutByte} (h : e.Simple) : AoutByte.OfFile e
  | exports (name : String) : AoutByte.OfFile (aoutCreateMetadata .exports (some name))
  | imports (name : String) : AoutByte.OfFile (aoutCreateMetadata .imports (some name))
  | importOptional (name : String) :
    AoutByte.OfFile (aoutCreateMetadata .importOptional (some name))

/-- What is recorded for a word that is a label. -/
def referenceRecord (importedAs : String → Option Table) (r : ℕ × String) : Table × LprovEntry :=
  match importedAs r.2 with
  | some t => (t, ⟨some (nameBytes r.2), UInt16.ofNat r.1⟩)
  | none => (.adjustment, ⟨none, UInt16.ofNat r.1⟩)

/-- What is recorded for a label that is exported. -/
def exportRecord (labels : String → Option Word) (name : String) : Table × LprovEntry :=
  (.provided, ⟨some (nameBytes name), UInt16.ofNat ((labels name).getD 0).toNat⟩)

/-- What is recorded for an entry, at a position. -/
def AoutByte.records (importedAs : String → Option Table) (labels : String → Option Word) (p : ℕ)
    (e : AoutByte) : List (Table × LprovEntry) :=
  match e.type, e.label, e.expr with
  | .normal, none, some (.label name) => [referenceRecord importedAs (p, name)]
  | .exports, some name, _ => [exportRecord labels name]
  | _, _, _ => []

/-- What is recorded for entries, from a position on. -/
def entriesRecords (importedAs : String → Option Table) (labels : String → Option Word) :
    ℕ → List AoutByte → List (Table × LprovEntry)
  | _, [] => []
  | p, e :: entries =>
    e.records importedAs labels p ++ entriesRecords importedAs labels (p + e.words) entries

/-- Tables to which records have been added, the last one first. -/
def recordAll (tables : Table → List LprovEntry) (records : List (Table × LprovEntry)) (t : Table) :
    List LprovEntry := ((records.filter (·.1 = t)).map (·.2)).reverse ++ tables t

/-- The words of an entry of a file, if it is no export of a label that is not there. -/
def AoutByte.objectValues (importedAs : String → Option Table) (labels : String → Option Word)
    (e : AoutByte) : Option (List Word) :=
  match e.type, e.label with
  | .exports, some name => (labels name).map fun _ => []
  | _, _ => e.wordsOf (objectValue importedAs labels)

/-- The words of the entries of a file. -/
def entriesValues (importedAs : String → Option Table) (labels : String → Option Word) :
    List AoutByte → Option (List Word)
  | [] => some []
  | e :: entries =>
    match e.objectValues importedAs labels, entriesValues importedAs labels entries with
    | some ws, some ws' => some (ws ++ ws')
    | _, _ => none

section Recording

variable {tables : Table → List LprovEntry} {records records' : List (Table × LprovEntry)}

theorem recordAll_append :
    recordAll tables (records ++ records') = recordAll (recordAll tables records) records' := by
  funext t
  rw [recordAll, recordAll, recordAll, List.filter_append, List.map_append, List.reverse_append,
    List.append_assoc]

theorem tables_record (s : AoutScan) (t : Table) (label : Option String) (address : ℕ) :
    (s.record t label address).tables =
      recordAll s.tables [(t, ⟨label.map nameBytes, UInt16.ofNat address⟩)] := by
  funext t'
  rw [AoutScan.record, recordAll]
  dsimp only
  by_cases ht : t = t'
  · rw [← ht, Function.update_self, List.filter_cons_of_pos (by simp)]
    rfl
  · rw [Function.update_of_ne (Ne.symm ht), List.filter_cons_of_neg (by simpa using ht)]
    rfl

end Recording

section Scanning

variable {run : AoutRun} {start entries : List AoutByte} {e : AoutByte}
  {imported : String → Option Table}

/-- What the search for an import gives. -/
def importEntry (name : String) (t : Table) : AoutByte :=
  aoutCreateMetadata (if t = .required then .imports else .importOptional) (some name)

/-- An expression that is not a label is evaluated, and nothing is recorded. -/
theorem scanExpr_of_ne (hrun : run.WritesObject) {x : Expr} (hx : ∀ name, x ≠ .label name)
    (s : AoutScan) :
    ∃ s', scanExpr run 0 start s (aoutCreateExpr x) x =
        (aoutEvaluate 0 start x).map (fun raw => (aoutCreateRaw raw, s')) ∧
      s'.outIndex = s.outIndex ∧ s'.tables = s.tables := by
  unfold scanExpr
  split
  · exact absurd rfl (hx _)
  · dsimp only
    rw [hrun.notAdjusted, Bool.and_false, if_neg Bool.false_ne_true]
    refine ⟨{ s with shownExprWarning :=
      s.shownExprWarning || (run.relocatable || run.intermediate) && !s.shownExprWarning }, ?_, rfl,
      rfl⟩
    cases aoutEvaluate 0 start x <;> rfl

/-- An expression of an entry is evaluated or left to the linker. -/
theorem scanExpr_ofFile (hrun : run.WritesObject)
    (himported : ∀ name, findImport run name start = .ok ((imported name).map (importEntry name)))
    (hways : ∀ name t, imported name = some t → t = .required ∨ t = .optional) (x : Expr)
    (s : AoutScan) :
    match objectValue imported (addressValues 0 start) x with
    | none => ∃ err, scanExpr run 0 start s (aoutCreateExpr x) x = .error err
    | some w => ∃ e' s', scanExpr run 0 start s (aoutCreateExpr x) x = .ok (e', s') ∧
        s'.outIndex = s.outIndex ∧
        s'.tables = recordAll s.tables
          ((aoutCreateExpr x).records imported (addressValues 0 start) s.outIndex) ∧
        ∀ t out, writeEntry run t out e' = .ok (iwrites run.modes [w] out) := by
  have hother : (∀ name, x ≠ .label name) →
      match evaluated (addressValues 0 start) x with
      | none => ∃ err, scanExpr run 0 start s (aoutCreateExpr x) x = .error err
      | some w => ∃ e' s', scanExpr run 0 start s (aoutCreateExpr x) x = .ok (e', s') ∧
          s'.outIndex = s.outIndex ∧ s'.tables = s.tables ∧
          ∀ t out, writeEntry run t out e' = .ok (iwrites run.modes [w] out) := by
    intro hx
    obtain ⟨s', hscan, hindex, htables⟩ := @scanExpr_of_ne run start hrun x hx s
    rw [hscan, ← toOption_aoutEvaluate]
    cases aoutEvaluate 0 start x with
    | error err => exact ⟨err, rfl⟩
    | ok w => exact ⟨_, _, rfl, hindex, htables, fun t out => rfl⟩
  cases x with
  | label name =>
    unfold scanExpr objectValue
    dsimp only
    rw [himported]
    cases hname : imported name with
    | none =>
      have hrecords : (aoutCreateExpr (.label name)).records imported (addressValues 0 start)
          s.outIndex = [(.adjustment, ⟨none, UInt16.ofNat s.outIndex⟩)] := by
        rw [AoutByte.records]
        dsimp only [aoutCreateExpr, referenceRecord]
        rw [hname]
      have hvalue := @toOption_aoutEvaluate 0 start (.label name)
      rw [hrecords, if_neg (by simp)]
      have hlabel : evaluated (addressValues 0 start) (.label name) =
          addressValues 0 start name := by
        rw [evaluated, Expr.evaluate]
        cases addressValues 0 start name <;> rfl
      rw [← hlabel, ← hvalue]
      dsimp only [Option.map_none]
      cases aoutEvaluate 0 start (.label name) with
      | error err => exact ⟨err, rfl⟩
      | ok w =>
        refine ⟨_, _, rfl, rfl, ?_, fun t out => rfl⟩
        exact tables_record s .adjustment none s.outIndex
    | some t =>
      have hrecords : (aoutCreateExpr (.label name)).records imported (addressValues 0 start)
          s.outIndex = [(t, ⟨some (nameBytes name), UInt16.ofNat s.outIndex⟩)] := by
        rw [AoutByte.records]
        dsimp only [aoutCreateExpr, referenceRecord]
        rw [hname]
      rw [hrecords, if_pos (by simp)]
      have htable : (if (importEntry name t).type = .imports then Table.required
          else Table.optional) = t := by
        rcases hways name t hname with rfl | rfl <;> rfl
      dsimp only [Option.map_some]
      rw [htable]
      refine ⟨_, _, rfl, rfl, tables_record s t (some name) s.outIndex, fun t out => ?_⟩
      -- the word is that of an entry without anything
      have hword : instructionCreate (0 : Word).toNat (0 : Word).toNat (0 : Word).toNat = 0 := by
        decide
      exact congrArg (fun w => Except.ok (iwrite run.modes w out)) hword
  | number w => exact hother fun _ => Expr.noConfusion
  | expr a op b => exact hother fun _ => Expr.noConfusion
  | booleanNot b => exact hother fun _ => Expr.noConfusion

/-- **A turn of both loops**, at an entry of a file. -/
theorem scanEntry_ofFile (hrun : run.WritesObject)
    (himported : ∀ name, findImport run name start = .ok ((imported name).map (importEntry name)))
    (hways : ∀ name t, imported name = some t → t = .required ∨ t = .optional) (he : e.OfFile)
    (s : AoutScan) :
    match e.objectValues imported (addressValues 0 start) with
    | none => ∃ err, scanEntry run 0 start s e = .error err
    | some ws => ∃ e' s', scanEntry run 0 start s e = .ok (e', s') ∧ s'.outIndex = s.outIndex ∧
        s'.tables =
          recordAll s.tables (e.records imported (addressValues 0 start) s.outIndex) ∧
        ∀ t out, writeEntry run t out e' = .ok (iwrites run.modes ws out) := by
  cases he with
  | exports name =>
    have hscan : scanEntry run 0 start s (aoutCreateMetadata .exports (some name)) =
        ((aoutGetLabelAddress 0 start name).map fun address =>
          s.record .provided (some name) address.toNat).map
            (aoutCreateMetadata .exports (some name), ·) := by
      unfold scanEntry linkerDirective
      dsimp only [aoutCreateMetadata]
      rw [hrun.intermediate, if_neg (by decide)]
    have hvalues : (aoutCreateMetadata .exports (some name)).objectValues imported
        (addressValues 0 start) = (addressValues 0 start name).map fun _ => [] := rfl
    have hrecords : (aoutCreateMetadata .exports (some name)).records imported
        (addressValues 0 start) s.outIndex = [exportRecord (addressValues 0 start) name] := rfl
    rw [hscan, hvalues, hrecords, exportRecord, addressValues]
    cases aoutGetLabelAddress 0 start name with
    | error err => exact ⟨err, rfl⟩
    | ok w =>
      exact ⟨_, _, rfl, rfl, tables_record s .provided (some name) w.toNat, fun t out => rfl⟩
  | imports name => exact ⟨_, _, rfl, rfl, rfl, fun t out => rfl⟩
  | importOptional name => exact ⟨_, _, rfl, rfl, rfl, fun t out => rfl⟩
  | simple he =>
    cases he with
    | label name => exact ⟨_, _, rfl, rfl, rfl, fun t out => rfl⟩
    | raw w => exact ⟨_, _, rfl, rfl, rfl, fun t out => rfl⟩
    | instr i => cases i <;> exact ⟨_, _, rfl, rfl, rfl, fun t out => rfl⟩
    | expr x =>
      have hscan := scanExpr_ofFile hrun himported hways x s
      have hentry : scanEntry run 0 start s (aoutCreateExpr x) =
          scanExpr run 0 start s (aoutCreateExpr x) x := rfl
      have hvalues : (aoutCreateExpr x).objectValues imported (addressValues 0 start) =
          valueAll (objectValue imported (addressValues 0 start)) [x] := rfl
      rw [hentry, hvalues, valueAll]
      cases hvalue : objectValue imported (addressValues 0 start) x with
      | none =>
        rw [hvalue] at hscan
        exact hscan
      | some w =>
        rw [hvalue] at hscan
        exact hscan

/-- **Both loops**, over the entries of a file. -/
theorem aoutScan_ofFile (hrun : run.WritesObject)
    (himported : ∀ name, findImport run name start = .ok ((imported name).map (importEntry name)))
    (hways : ∀ name t, imported name = some t → t = .required ∨ t = .optional)
    (hentries : ∀ e ∈ entries, e.OfFile) (s : AoutScan) :
    match entriesValues imported (addressValues 0 start) entries with
    | none => ∃ err, aoutScan run 0 start entries s = .error err
    | some ws => ∃ entries' s', aoutScan run 0 start entries s = .ok (entries', s') ∧
        s'.tables = recordAll s.tables
          (entriesRecords imported (addressValues 0 start) s.outIndex entries) ∧
        ∀ t out, entries'.foldlM (writeEntry run t) out = .ok (iwrites run.modes ws out) := by
  induction entries generalizing s with
  | nil => exact ⟨_, _, rfl, rfl, fun t out => rfl⟩
  | cons e entries ih =>
    obtain ⟨he, hentries⟩ := List.forall_mem_cons.mp hentries
    have hturn := scanEntry_ofFile hrun himported hways he s
    rw [entriesValues, aoutScan]
    cases hwords : e.objectValues imported (addressValues 0 start) with
    | none =>
      rw [hwords] at hturn
      obtain ⟨err, herr⟩ := hturn
      exact ⟨err, by rw [herr]⟩
    | some ws =>
      rw [hwords] at hturn
      obtain ⟨e', s', hscan, hindex, htables, hwrite⟩ := hturn
      have hrest := ih hentries { s' with outIndex := s'.outIndex + e.words }
      rw [hscan]
      dsimp only
      cases hwords' : entriesValues imported (addressValues 0 start) entries with
      | none =>
        rw [hwords'] at hrest
        obtain ⟨err, herr⟩ := hrest
        exact ⟨err, by rw [herr]⟩
      | some ws' =>
        rw [hwords'] at hrest
        obtain ⟨entries', s'', hscan', htables', hwrite'⟩ := hrest
        refine ⟨e' :: entries', s'', by rw [hscan'], ?_, fun t out => ?_⟩
        · rw [htables', htables, hindex, entriesRecords, recordAll_append]
        · rw [List.foldlM_cons, hwrite, iwrites_append]
          exact hwrite' t _

/-- There are no names of extensions. -/
theorem textnInit_ofFile (hentries : ∀ e ∈ entries, e.OfFile) (table : List String × Word) :
    textnInit entries table = (table, none) := by
  induction entries with
  | nil => rfl
  | cons e entries ih =>
    obtain ⟨he, hentries⟩ := List.forall_mem_cons.mp hentries
    rw [textnInit, if_neg, ih hentries]
    cases he with
    | simple he =>
      rw [he.type]
      exact AoutType.noConfusion
    | _ => exact AoutType.noConfusion

/-- **An object file is the tables and the words of the entries.** -/
theorem assembled_ofFile (hrun : run.WritesObject)
    (himported : ∀ name, findImport run name entries = .ok ((imported name).map (importEntry name)))
    (hways : ∀ name t, imported name = some t → t = .required ∨ t = .optional)
    (hentries : ∀ e ∈ entries, e.OfFile) :
    (assembled run ⟨entries, false⟩ {}).toOption =
      (entriesValues imported (addressValues 0 entries) entries).bind fun words =>
        (objfileSave run.order (recordAll (fun _ => [])
          (entriesRecords imported (addressValues 0 entries) 0 entries))).map fun saved =>
            ldataObjfmt ++ saved ++ words.flatMap run.modes.bytes := by
  have hinit : aoutInit run { start := entries } = ({ start := entries }, none) := by
    unfold aoutInit
    rw [textnInit_ofFile hentries, hrun.relocatable]
    rfl
  have hscan := aoutScan_ofFile hrun himported hways hentries { outIndex := 0 }
  have hwrite : assembled run ⟨entries, false⟩ {} =
      (aoutWriteWords run { start := entries }).2.map (·.1.content) := by
    unfold assembled assemble aoutWrite
    rw [List.nil_append, if_neg Bool.false_ne_true, hinit]
  rw [hwrite]
  unfold aoutWriteWords
  cases hwords : entriesValues imported (addressValues 0 entries) entries with
  | none =>
    rw [hwords] at hscan
    obtain ⟨err, herr⟩ := hscan
    rw [show (0 : Word).toNat = 0 from rfl, herr]
    rfl
  | some ws =>
    rw [hwords] at hscan
    obtain ⟨entries', s', hscan, htables, hwritten⟩ := hscan
    rw [show (0 : Word).toNat = 0 from rfl, hscan]
    dsimp only at htables ⊢
    rw [Option.bind_some, ← htables]
    unfold writeTables
    rw [hrun.intermediate, hrun.relocatable, if_pos rfl]
    cases objfileSave run.order s'.tables with
    | none => rfl
    | some saved =>
      have hpos : ((File.mk [] 0 false).fwrite ldataObjfmt).pos =
          ((File.mk [] 0 false).fwrite ldataObjfmt).content.length := by
        rw [File.fwrite_pos, File.content_fwrite_atEnd rfl, List.nil_append, Nat.zero_add]
      have hpos' : (((File.mk [] 0 false).fwrite ldataObjfmt).fwrite saved).pos =
          (((File.mk [] 0 false).fwrite ldataObjfmt).fwrite saved).content.length := by
        rw [File.fwrite_pos, File.content_fwrite_atEnd hpos, List.length_append, hpos]
      have hcontent : (iwrites run.modes ws
          (((File.mk [] 0 false).fwrite ldataObjfmt).fwrite saved)).content =
            ldataObjfmt ++ saved ++ ws.flatMap run.modes.bytes := by
        rw [iwrites_eq, File.content_fwrite_atEnd hpos', File.content_fwrite_atEnd hpos,
          File.content_fwrite_atEnd rfl, List.nil_append]
      dsimp only [Option.map_some]
      rw [if_neg Bool.false_ne_true, hwritten]
      exact congrArg some hcontent

end Scanning

/-! ### The entries of files -/

section Files

variable {run : AoutRun} {file : List ObjectItem} {entries rest : List AoutByte} {name : String}
  {imported : String → Option Table} {labels : String → Option Word}

theorem ofFile_entries (file : List ObjectItem) :
    ∀ e ∈ file.flatMap ObjectItem.entries, e.OfFile := by
  intro e he
  obtain ⟨part, -, hpart⟩ := List.mem_flatMap.mp he
  cases part with
  | code item => exact .simple (simple_entries item e hpart)
  | exports name =>
    rw [List.mem_singleton.mp hpart]
    exact .exports name
  | imports name =>
    rw [List.mem_singleton.mp hpart]
    exact .imports name
  | importOptional name =>
    rw [List.mem_singleton.mp hpart]
    exact .importOptional name

/-- A label is imported in one of two ways. -/
theorem importedAs_ways {t : Table} (h : importedAs file name = some t) :
    t = .required ∨ t = .optional := by
  obtain ⟨part, -, hpart⟩ := List.exists_of_findSome?_eq_some h
  cases part with
  | imports name' =>
    rw [ObjectItem.importsAs] at hpart
    split at hpart <;> cases hpart
    exact .inl rfl
  | importOptional name' =>
    rw [ObjectItem.importsAs] at hpart
    split at hpart <;> cases hpart
    exact .inr rfl
  | _ => cases hpart

/-- Programs import nothing. -/
theorem findImport_append (hsimple : ∀ e ∈ entries, e.Simple) :
    findImport run name (entries ++ rest) = findImport run name rest := by
  induction entries with
  | nil => rfl
  | cons e entries ih =>
    obtain ⟨he, hentries⟩ := List.forall_mem_cons.mp hsimple
    rw [List.cons_append, findImport, if_neg, ih hentries]
    rw [he.type]
    rintro (h | h) <;> cases h

/-- **The search for an import** finds the first directive. -/
theorem findImport_file (hrun : run.WritesObject) :
    findImport run name (file.flatMap ObjectItem.entries) =
      .ok ((importedAs file name).map (importEntry name)) := by
  have hnot : ¬ run.intermediate = false := by
    rw [hrun.intermediate]
    exact Bool.noConfusion
  have hturn : ∀ (type : AoutType) (t : Table) (name' : String) (rest : List AoutByte),
      (type = .imports ∨ type = .importOptional) →
      (if t = .required then AoutType.imports else .importOptional) = type →
      findImport run name ([aoutCreateMetadata type (some name')] ++ rest) =
        if name' = name then .ok (some (importEntry name t)) else findImport run name rest := by
    intro type t name' rest htype hentry
    have hunfold : findImport run name (aoutCreateMetadata type (some name') :: rest) =
        if type = .imports ∨ type = .importOptional then
          if run.intermediate = false then .error .notGeneratingIntermediateCode
          else if some name' = some name then .ok (some (aoutCreateMetadata type (some name')))
          else findImport run name rest
        else findImport run name rest := rfl
    rw [List.singleton_append, hunfold, if_pos htype, if_neg hnot]
    by_cases hname : name' = name
    · rw [if_pos (congrArg some hname), if_pos hname, importEntry, hentry, hname]
    · rw [if_neg fun h => hname (Option.some.inj h), if_neg hname]
  induction file with
  | nil => rfl
  | cons part file ih =>
    rw [List.flatMap_cons, importedAs, List.findSome?_cons, ← importedAs]
    cases part with
    | code item =>
      rw [ObjectItem.entries, findImport_append (simple_entries item), ih]
      rfl
    | exports name' =>
      exact ih
    | imports name' =>
      rw [ObjectItem.entries, hturn .imports .required name' _ (.inl rfl) rfl, ObjectItem.importsAs,
        ih]
      split <;> rfl
    | importOptional name' =>
      rw [ObjectItem.entries, hturn .importOptional .optional name' _ (.inr rfl) rfl,
        ObjectItem.importsAs, ih]
      split <;> rfl

/-- **The address of a label is its position** in the program of the file. -/
theorem labelAddress_file (name : String) (file : List ObjectItem) (p : ℕ) (found : Bool) :
    (labelAddress name (file.flatMap ObjectItem.entries) (BitVec.ofNat 16 p) found).toOption =
      (labelPosition name p (codeItems file)).map (BitVec.ofNat 16) := by
  induction file generalizing p found with
  | nil => rfl
  | cons part file ih =>
    cases part with
    | code item =>
      have hcode : codeItems (.code item :: file) = item :: codeItems file := rfl
      rw [List.flatMap_cons, hcode, labelPosition, ObjectItem.entries, labelAddress_item]
      split
      · rfl
      · exact ih _ _
    | exports name' => exact ih p found
    | imports name' => exact ih p _
    | importOptional name' => exact ih p _

theorem addressValues_file (file : List ObjectItem) :
    addressValues 0 (file.flatMap ObjectItem.entries) = labelValues 0 (codeItems file) := by
  funext name
  exact labelAddress_file name file 0 false

theorem entriesValues_append (entries entries' : List AoutByte) :
    entriesValues imported labels (entries ++ entries') =
      match entriesValues imported labels entries, entriesValues imported labels entries' with
      | some ws, some ws' => some (ws ++ ws')
      | _, _ => none := by
  induction entries with
  | nil =>
    rw [List.nil_append, entriesValues]
    cases entriesValues imported labels entries' <;> rfl
  | cons e entries ih =>
    rw [List.cons_append, entriesValues, entriesValues, ih]
    cases e.objectValues imported labels with
    | none => rfl
    | some ws =>
      cases entriesValues imported labels entries with
      | none => rfl
      | some ws' =>
        cases entriesValues imported labels entries' with
        | none => rfl
        | some ws'' => exact congrArg some (List.append_assoc _ _ _).symm

/-- A program has no exports. -/
theorem entriesValues_simple (hsimple : ∀ e ∈ entries, e.Simple) :
    entriesValues imported labels entries = entriesWords (objectValue imported labels) entries := by
  induction entries with
  | nil => rfl
  | cons e entries ih =>
    obtain ⟨he, hentries⟩ := List.forall_mem_cons.mp hsimple
    have hvalues : e.objectValues imported labels = e.wordsOf (objectValue imported labels) := by
      rw [AoutByte.objectValues, he.type]
    rw [entriesValues, entriesWords, hvalues]
    obtain hrest := ih hentries
    generalize entriesValues imported labels entries = values at hrest ⊢
    subst hrest
    cases e.wordsOf (objectValue imported labels) <;>
      cases entriesWords (objectValue imported labels) entries <;> rfl

/-- **The words of the entries are those of the program**, if the exports are there. -/
theorem entriesValues_file (file : List ObjectItem) :
    entriesValues imported labels (file.flatMap ObjectItem.entries) =
      if ∀ name ∈ exportsOf file, (labels name).isSome then
        itemsValues (objectValue imported labels) (codeItems file)
      else none := by
  have himport : ∀ values : Option (List Word),
      (match (some [] : Option (List Word)), values with
        | some ws, some ws' => some (ws ++ ws')
        | _, _ => none) = values := fun values => by cases values <;> rfl
  induction file with
  | nil => rfl
  | cons part file ih =>
    rw [List.flatMap_cons, entriesValues_append, ih]
    cases part with
    | code item =>
      have hcode : codeItems (.code item :: file) = item :: codeItems file := rfl
      have hexports : exportsOf (.code item :: file) = exportsOf file := rfl
      rw [hcode, hexports, ObjectItem.entries, entriesValues_simple (simple_entries item),
        entriesWords_item, itemsValues]
      by_cases hall : ∀ name ∈ exportsOf file, (labels name).isSome
      · rw [if_pos hall]
        refine Eq.trans ?_ (if_pos hall).symm
        cases item.words (objectValue imported labels) <;>
          cases itemsValues (objectValue imported labels) (codeItems file) <;> rfl
      · rw [if_neg hall, if_neg hall]
        cases item.words (objectValue imported labels) <;> rfl
    | exports name =>
      have hcode : codeItems (.exports name :: file) = codeItems file := rfl
      have hexports : exportsOf (.exports name :: file) = name :: exportsOf file := rfl
      have hvalues : entriesValues imported labels (ObjectItem.exports name).entries =
          (labels name).map fun _ => [] := by
        rw [ObjectItem.entries, entriesValues, entriesValues]
        rw [show (aoutCreateMetadata .exports (some name)).objectValues imported labels =
          (labels name).map fun _ => [] from rfl]
        cases labels name <;> rfl
      have hall : (∀ n ∈ name :: exportsOf file, (labels n).isSome) ↔
          (labels name).isSome ∧ ∀ n ∈ exportsOf file, (labels n).isSome := List.forall_mem_cons
      rw [hcode, hexports, hvalues]
      by_cases hname : (labels name).isSome
      · obtain ⟨w, hw⟩ := Option.isSome_iff_exists.mp hname
        rw [hw]
        by_cases hrest : ∀ name ∈ exportsOf file, (labels name).isSome
        · rw [if_pos hrest, if_pos (hall.mpr ⟨hname, hrest⟩)]
          exact himport _
        · rw [if_neg hrest, if_neg fun h => hrest (hall.mp h).2]
          rfl
      · rw [Option.not_isSome_iff_eq_none.mp hname, if_neg fun h => hname (hall.mp h).1]
        rfl
    | imports name => exact himport _
    | importOptional name => exact himport _

theorem entriesRecords_append (entries entries' : List AoutByte) (p : ℕ) :
    entriesRecords imported labels p (entries ++ entries') =
      entriesRecords imported labels p entries ++
        entriesRecords imported labels (p + (entries.map AoutByte.words).sum) entries' := by
  induction entries generalizing p with
  | nil => rfl
  | cons e entries ih =>
    rw [List.cons_append, entriesRecords, entriesRecords, ih, List.map_cons, List.sum_cons,
      List.append_assoc, Nat.add_assoc]

theorem references_append (words words' : List LineWord) (p : ℕ) :
    references p (words ++ words') =
      references p words ++ references (p + words.length) words' := by
  induction words generalizing p with
  | nil => rfl
  | cons w words ih =>
    rw [List.cons_append, references, references, ih, List.append_assoc, List.length_cons,
      Nat.add_comm words.length, Nat.add_assoc]

/-- The entries for the words behind an instruction word, and for data. -/
theorem records_map_aoutCreateExpr (xs : List Expr) (p : ℕ) :
    entriesRecords imported labels p (xs.map aoutCreateExpr) =
        (references p (xs.map .value)).map (referenceRecord imported) ∧
      ((xs.map aoutCreateExpr).map AoutByte.words).sum = xs.length := by
  induction xs generalizing p with
  | nil => exact ⟨rfl, rfl⟩
  | cons x xs ih =>
    have hwords : (aoutCreateExpr x).words = 1 := rfl
    have hrecords : (aoutCreateExpr x).records imported labels p =
        (((LineWord.value x).label.map (p, ·)).toList).map (referenceRecord imported) := by
      cases x <;> rfl
    refine ⟨?_, ?_⟩
    · rw [List.map_cons, List.map_cons, entriesRecords, references, List.map_append, hwords,
        (ih (p + 1)).1, hrecords]
    · rw [List.map_cons, List.map_cons, List.sum_cons, hwords, (ih p).2, List.length_cons,
        Nat.add_comm]

theorem length_lineWords (item : LineItem) : item.lineWords.length = item.size := by
  cases item with
  | instr i =>
    rw [LineItem.lineWords, List.length_cons, List.length_map, LineItem.size, Instr.size,
      Nat.add_comm]
  | _ => rfl

/-- What is recorded for an item. -/
theorem records_item (item : LineItem) (p : ℕ) :
    entriesRecords imported labels p item.entries =
        (references p item.lineWords).map (referenceRecord imported) ∧
      (item.entries.map AoutByte.words).sum = item.size := by
  cases item with
  | label name => exact ⟨rfl, rfl⟩
  | raw w => exact ⟨rfl, rfl⟩
  | value x => exact records_map_aoutCreateExpr [x] p
  | instr i =>
    have hwords : i.entry.words = 1 := by cases i <;> rfl
    have hrecords : i.entry.records imported labels p = [] := by cases i <;> rfl
    obtain ⟨hnexts, hlength⟩ := @records_map_aoutCreateExpr imported labels i.nexts (p + 1)
    refine ⟨?_, ?_⟩
    · rw [LineItem.entries, Instr.entries, entriesRecords, hrecords, List.nil_append, hwords,
        hnexts]
      rfl
    · rw [LineItem.entries, Instr.entries, List.map_cons, List.sum_cons, hwords, hlength,
        LineItem.size, Instr.size, Nat.add_comm]

/-- **What is recorded for a file**: its exports, and the words that are labels. -/
theorem records_file (hways : ∀ name t, imported name = some t → t = .required ∨ t = .optional)
    (file : List ObjectItem) (p : ℕ) (t : Table) :
    (entriesRecords imported labels p (file.flatMap ObjectItem.entries)).filter (·.1 = t) =
      if t = .provided then (exportsOf file).map (exportRecord labels)
      else ((references p (objectWords file)).map (referenceRecord imported)).filter (·.1 = t) := by
  have hreference : ∀ r, (referenceRecord imported r).1 ≠ .provided := by
    intro r
    rw [referenceRecord]
    cases himported : imported r.2 with
    | none => exact Table.noConfusion
    | some t => rcases hways _ _ himported with rfl | rfl <;> exact Table.noConfusion
  induction file generalizing p with
  | nil => exact (ite_self _).symm
  | cons part file ih =>
    rw [List.flatMap_cons, entriesRecords_append, List.filter_append, ih]
    cases part with
    | code item =>
      have hwords : objectWords (.code item :: file) = item.lineWords ++ objectWords file :=
        List.flatMap_cons
      have hexports : exportsOf (.code item :: file) = exportsOf file := rfl
      obtain ⟨hrecords, hsize⟩ := @records_item imported labels item p
      rw [hwords, hexports, references_append, List.map_append, List.filter_append,
        ObjectItem.entries, hrecords, hsize, length_lineWords]
      by_cases ht : t = .provided
      · rw [if_pos ht, if_pos ht, List.filter_eq_nil_iff.mpr, List.nil_append]
        intro r hr
        obtain ⟨r, -, rfl⟩ := List.mem_map.mp hr
        rw [decide_eq_true_iff, ht]
        exact hreference r
      · rw [if_neg ht, if_neg ht]
    | exports name =>
      have hrecords : entriesRecords imported labels p (ObjectItem.exports name).entries =
          [exportRecord labels name] := rfl
      have hsize : ((ObjectItem.exports name).entries.map AoutByte.words).sum = 0 := rfl
      have hexports : exportsOf (.exports name :: file) = name :: exportsOf file := rfl
      have hwords : objectWords (.exports name :: file) = objectWords file := rfl
      rw [hrecords, hsize, hexports, hwords, Nat.add_zero]
      by_cases ht : t = .provided
      · rw [if_pos ht, if_pos ht, ht]
        rfl
      · rw [if_neg ht, if_neg ht, List.filter_cons_of_neg]
        · rfl
        · rw [decide_eq_true_iff]
          exact Ne.symm ht
    | imports name => rfl
    | importOptional name => rfl

/-- **The tables are what the file says to the linker**, the last entry first. -/
theorem recordAll_file (file : List ObjectItem) :
    recordAll (fun _ => []) (entriesRecords (importedAs file) (labelValues 0 (codeItems file)) 0
      (file.flatMap ObjectItem.entries)) = fun t => (objectTable file t).reverse := by
  have hways : ∀ name t, importedAs file name = some t → t = .required ∨ t = .optional :=
    fun name t => importedAs_ways
  -- records of one table are the references that fulfil a condition
  have hreferences : ∀ (t : Table) (label : String → Option CString) (p : ℕ × String → Bool),
      t ≠ .provided →
      (∀ r, (referenceRecord (importedAs file) r).1 = t ↔ p r = true) →
      (∀ r, p r = true → (referenceRecord (importedAs file) r).2 =
        ⟨label r.2, UInt16.ofNat r.1⟩) →
      recordAll (fun _ => []) (entriesRecords (importedAs file) (labelValues 0 (codeItems file)) 0
        (file.flatMap ObjectItem.entries)) t =
          (((references 0 (objectWords file)).filter p).map fun r =>
            (⟨label r.2, UInt16.ofNat r.1⟩ : LprovEntry)).reverse := by
    intro t label p ht hp hentry
    rw [recordAll, List.append_nil, records_file hways, if_neg ht, List.filter_map, List.map_map]
    congr 1
    have hfilter : (fun r => decide ((referenceRecord (importedAs file) r).1 = t)) = p := by
      funext r
      rw [Bool.eq_iff_iff, decide_eq_true_iff]
      exact hp r
    rw [show ((fun r : Table × LprovEntry => decide (r.1 = t)) ∘
      referenceRecord (importedAs file)) = p from hfilter]
    refine List.map_congr_left fun r hr => ?_
    exact hentry r (List.mem_filter.mp hr).2
  have hrecord : ∀ r, referenceRecord (importedAs file) r =
      match importedAs file r.2 with
      | some t => (t, ⟨some (nameBytes r.2), UInt16.ofNat r.1⟩)
      | none => (.adjustment, ⟨none, UInt16.ofNat r.1⟩) := fun r => rfl
  funext t
  cases t with
  | provided =>
    rw [recordAll, List.append_nil, records_file hways, if_pos rfl, List.map_map]
    rfl
  | required =>
    refine hreferences .required (fun name => some (nameBytes name)) _ Table.noConfusion
      (fun r => ?_) fun r hr => ?_
    · rw [decide_eq_true_iff, referenceRecord]
      cases himported : importedAs file r.2 <;> simp
    · rw [decide_eq_true_iff] at hr
      rw [referenceRecord, hr]
  | optional =>
    refine hreferences .optional (fun name => some (nameBytes name)) _ Table.noConfusion
      (fun r => ?_) fun r hr => ?_
    · rw [decide_eq_true_iff, referenceRecord]
      cases himported : importedAs file r.2 <;> simp
    · rw [decide_eq_true_iff] at hr
      rw [referenceRecord, hr]
  | adjustment =>
    refine hreferences .adjustment (fun _ => none) _ Table.noConfusion (fun r => ?_) fun r hr => ?_
    · rw [decide_eq_true_iff, referenceRecord]
      cases himported : importedAs file r.2 with
      | none => simp
      | some t => rcases hways _ _ himported with rfl | rfl <;> simp
    · rw [decide_eq_true_iff] at hr
      rw [referenceRecord, hr]
  | _ =>
    rw [hreferences _ (fun _ => none) (fun _ => false) Table.noConfusion (fun r => ?_)
      fun r hr => absurd hr Bool.false_ne_true, List.filter_false]
    · rfl
    · rw [referenceRecord]
      cases himported : importedAs file r.2 with
      | none => simp
      | some t => rcases hways _ _ himported with rfl | rfl <;> simp

end Files

/-! ### The words of a file -/

/-- The value of a word. -/
def LineWord.word (value : Expr → Option Word) : LineWord → Option Word
  | .fixed w => some w
  | .value x => value x

section Words

variable {value : Expr → Option Word} {words : List LineWord} {ws : List Word} {name : String}
  {file : List ObjectItem} {p i : ℕ}

theorem valueAll_eq_some_iff {xs : List Expr} :
    valueAll value xs = some ws ↔ xs.map value = ws.map some := by
  induction xs generalizing ws with
  | nil =>
    rw [valueAll, Option.some.injEq, List.map_nil, List.nil_eq, List.nil_eq, List.map_eq_nil_iff]
  | cons x xs ih =>
    rw [valueAll, List.map_cons]
    constructor
    · intro h
      split at h
      · rename_i w ws' hw hws'
        cases h
        rw [List.map_cons, hw, ih.mp hws']
      · cases h
    · intro h
      cases ws with
      | nil => cases h
      | cons w ws =>
        obtain ⟨hw, hws⟩ := List.cons.inj h
        rw [hw, ih.mpr hws]

theorem words_eq_some_iff {item : LineItem} :
    item.words value = some ws ↔ item.lineWords.map (LineWord.word value) = ws.map some := by
  have hvalues : ∀ xs : List Expr, (xs.map LineWord.value).map (LineWord.word value) =
      xs.map value := fun xs => List.map_map ..
  cases item with
  | label name =>
    rw [LineItem.words, LineItem.lineWords, Option.some.injEq, List.map_nil, List.nil_eq,
      List.nil_eq, List.map_eq_nil_iff]
  | raw w =>
    rw [LineItem.words, LineItem.lineWords, Option.some.injEq]
    constructor
    · rintro rfl
      rfl
    · intro h
      cases ws with
      | nil => cases h
      | cons w' ws =>
        obtain ⟨hw, hws⟩ := List.cons.inj h
        rw [Option.some.inj hw, List.map_eq_nil_iff.mp hws.symm]
  | value x => exact valueAll_eq_some_iff
  | instr i =>
    rw [LineItem.words, LineItem.lineWords, List.map_cons, hvalues, Option.map_eq_some_iff]
    constructor
    · rintro ⟨ws, hws, rfl⟩
      rw [valueAll_eq_some_iff.mp hws]
      rfl
    · intro h
      cases ws with
      | nil => cases h
      | cons w ws =>
        obtain ⟨hw, hws⟩ := List.cons.inj h
        exact ⟨ws, valueAll_eq_some_iff.mpr hws, by rw [Option.some.inj hw]⟩

/-- **The words of items**, word by word. -/
theorem itemsValues_eq_some_iff {items : List LineItem} :
    itemsValues value items = some ws ↔
      (items.flatMap LineItem.lineWords).map (LineWord.word value) = ws.map some := by
  induction items generalizing ws with
  | nil =>
    rw [itemsValues, Option.some.injEq, List.flatMap_nil, List.map_nil, List.nil_eq, List.nil_eq,
      List.map_eq_nil_iff]
  | cons item items ih =>
    rw [itemsValues, List.flatMap_cons, List.map_append]
    constructor
    · intro h
      split at h
      · rename_i ws₁ ws₂ h₁ h₂
        cases h
        rw [words_eq_some_iff.mp h₁, ih.mp h₂, List.map_append]
      · cases h
    · intro h
      obtain ⟨ws₁, ws₂, rfl, h₁, h₂⟩ := List.append_eq_map_iff.mp h
      rw [words_eq_some_iff.mpr h₁.symm, ih.mpr h₂.symm]

theorem LineWord.eq_of_label {w : LineWord} (h : w.label = some name) :
    w = .value (.label name) := by
  unfold LineWord.label at h
  split at h
  · exact congrArg (LineWord.value ∘ Expr.label) (Option.some.inj h)
  · cases h

theorem mem_references :
    (i, name) ∈ references p words ↔
      ∃ j w, i = p + j ∧ words[j]? = some w ∧ w.label = some name := by
  induction words generalizing p with
  | nil => exact iff_of_false List.not_mem_nil fun ⟨_, _, _, hw, _⟩ => by cases hw
  | cons w words ih =>
    rw [references, List.mem_append, Option.mem_toList, Option.map_eq_some_iff, ih]
    constructor
    · rintro (⟨name', hname, heq⟩ | ⟨j, w', rfl, hw', hname⟩)
      · cases heq
        exact ⟨0, w, rfl, rfl, hname⟩
      · exact ⟨j + 1, w', by omega, hw', hname⟩
    · rintro ⟨j, w', rfl, hw', hname⟩
      cases j with
      | zero =>
        cases hw'
        exact .inl ⟨name, hname, rfl⟩
      | succ j => exact .inr ⟨j, w', by omega, hw', hname⟩

/-- No word is there twice. -/
theorem nodup_references : ((references p words).map Prod.fst).Nodup := by
  induction words generalizing p with
  | nil => exact List.nodup_nil
  | cons w words ih =>
    rw [references, List.map_append, List.nodup_append]
    refine ⟨?_, ih, ?_⟩
    · cases w.label with
      | none => exact List.nodup_nil
      | some name => exact List.nodup_singleton _
    · rintro a ha b hb rfl
      obtain ⟨r, hr, rfl⟩ := List.mem_map.mp ha
      obtain ⟨name, -, rfl⟩ := Option.map_eq_some_iff.mp (Option.mem_toList.mp hr)
      obtain ⟨⟨i, name'⟩, hr', heq⟩ := List.mem_map.mp hb
      obtain ⟨j, w', hi, -⟩ := mem_references.mp hr'
      dsimp only at heq
      omega

/-- A file with values has the labels that it exports, and its words have values. -/
theorem objectValues_eq_some (h : objectValues file = some ws) :
    (∀ name ∈ exportsOf file, (labelPosition name 0 (codeItems file)).isSome) ∧
      (objectWords file).map (LineWord.word
        (objectValue (importedAs file) (labelValues 0 (codeItems file)))) = ws.map some := by
  rw [objectValues] at h
  split at h
  · rename_i hexports
    exact ⟨hexports, itemsValues_eq_some_iff.mp h⟩
  · cases h

end Words

/-! ### Object files -/

section Objects

variable {run : AoutRun} {relativePcIsError : Bool} {lines : List AstNodeLine}
  {file : List ObjectItem}

/-- **The assembler writes what a file says**: the tables for the linker, and the words. -/
theorem assembled_object (hrun : run.WritesObject) (hfile : fileItems lines = some file) :
    (assembled run (processRoot relativePcIsError lines) {}).toOption =
      if (codeItems file).any LineItem.relativePc ∧ relativePcIsError = true then none
      else (objectValues file).bind fun words =>
        (objfileSave run.order fun t => (objectTable file t).reverse).map fun saved =>
          ldataObjfmt ++ saved ++ words.flatMap run.modes.bytes := by
  have hlines := processLines_of_fileItems relativePcIsError hfile
  have hwritten := @assembled_ofFile run (file.flatMap ObjectItem.entries) (importedAs file) hrun
    (fun name => findImport_file hrun) (fun name t => importedAs_ways) (ofFile_entries file)
  rw [addressValues_file, entriesValues_file, recordAll_file] at hwritten
  have hexported : (∀ name ∈ exportsOf file, (labelValues 0 (codeItems file) name).isSome) ↔
      ∀ name ∈ exportsOf file, (labelPosition name 0 (codeItems file)).isSome := by
    refine forall₂_congr fun name _ => ?_
    rw [labelValues, Option.isSome_map]
  have hvalues : (if ∀ name ∈ exportsOf file, (labelValues 0 (codeItems file) name).isSome then
        itemsValues (objectValue (importedAs file) (labelValues 0 (codeItems file)))
          (codeItems file)
      else none) = objectValues file := by
    rw [objectValues]
    by_cases hall : ∀ name ∈ exportsOf file, (labelValues 0 (codeItems file) name).isSome
    · rw [if_pos hall, if_pos (hexported.mp hall)]
    · rw [if_neg hall, if_neg fun h => hall (hexported.mpr h)]
  rw [hvalues] at hwritten
  unfold processRoot
  split at hlines
  · rename_i hwarned
    rw [hlines, if_pos hwarned]
    rfl
  · rename_i hnot
    rw [hlines, if_neg hnot]
    exact hwritten

end Objects

end DcpuToolchain
