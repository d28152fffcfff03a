import DcpuToolchain.Asm.Headers
import DcpuToolchain.Asm.Labels
import DcpuToolchain.Asm.Source

/-!
# What a program says

A program of labels, instructions and data, without directives for the linker and without
`.ORIGIN` and `.SEEK`, is a list of items (`DcpuToolchain.programItems`), and an item takes a
fixed number of words. So the label in front of an item is at the number of words before it
(`DcpuToolchain.labelPosition`), and what the program says is its words, one item after the
other, with the positions for the labels (`DcpuToolchain.itemsWords`).

The assembler works on entries, which it walks over several times: for the address of each label,
to evaluate the expressions, and to write. It writes what the program says, or nothing
(`DcpuToolchain.assembled_iff`).
-/

namespace DcpuToolchain

open Codec Stdio

/-! ### Items -/

/-- What a part of a line says. -/
inductive LineItem
  | label (name : String)
  | instr (i : Instr Expr)
  | raw (w : Word)
  | value (x : Expr)
  deriving DecidableEq, Repr

/-- The value of an expression, with values for the labels. -/
def evaluated (labels : String → Option Word) (x : Expr) : Option Word :=
  (x.evaluate labels).toOption

/-- The values of expressions. -/
def valueAll (value : Expr → Option Word) : List Expr → Option (List Word)
  | [] => some []
  | x :: xs =>
    match value x, valueAll value xs with
    | some w, some ws => some (w :: ws)
    | _, _ => none

namespace LineItem

/-- How many words an item takes. -/
def size : LineItem → ℕ
  | label _ => 0
  | instr i => i.size
  | raw _ | value _ => 1

/-- The words of an item. -/
def words (valueOf : Expr → Option Word) : LineItem → Option (List Word)
  | label _ => some []
  | instr i => (valueAll valueOf i.nexts).map (i.word :: ·)
  | raw w => some [w]
  | value x => valueAll valueOf [x]

/-- The entries for an item. -/
def entries : LineItem → List AoutByte
  | label name => [aoutCreateLabel name]
  | instr i => i.entries
  | raw w => [aoutCreateRaw w]
  | value x => [aoutCreateExpr x]

end LineItem

/-- The position of a label, from a position on. -/
def labelPosition (name : String) : ℕ → List LineItem → Option ℕ
  | _, [] => none
  | p, item :: items =>
    if item = .label name then some p else labelPosition name (p + item.size) items

/-- The values of the labels of a program that begins at a position. -/
def labelValues (p : ℕ) (items : List LineItem) (name : String) : Option Word :=
  (labelPosition name p items).map (BitVec.ofNat 16)

/-- The words of items, with values for the expressions. -/
def itemsValues (value : Expr → Option Word) : List LineItem → Option (List Word)
  | [] => some []
  | item :: items =>
    match item.words value, itemsValues value items with
    | some ws, some ws' => some (ws ++ ws')
    | _, _ => none

/-- The words of items, with values for the labels. -/
def itemsWords (labels : String → Option Word) (items : List LineItem) : Option (List Word) :=
  itemsValues (evaluated labels) items

/-! ### Lines -/

/-- What a parameter of `DAT` says. -/
def AstNodeParameter.items : AstNodeParameter → Option (List LineItem)
  | .raw data => some (data.map fun c => .raw (BitVec.ofNat 16 c.toNat))
  | .address value bracketed addcmpt =>
    ((AstNodeParameter.address value bracketed addcmpt).arg.bind Arg.next).map ([.value ·])
  | .registr value bracketed =>
    ((AstNodeParameter.registr value bracketed).arg.bind Arg.next).map ([.value ·])

/-- What parameters of `DAT` say. -/
def dataItems : List AstNodeParameter → Option (List LineItem)
  | [] => some []
  | param :: params =>
    match param.items, dataItems params with
    | some items, some items' => some (items ++ items')
    | _, _ => none

/-- What an instruction line says, if it has no surplus. -/
def instructionItems (instruction : String) (parameters : List AstNodeParameter) :
    Option (List LineItem) :=
  match writtenInstr instruction parameters with
  | some i => if emittedNexts parameters = i.nexts then some [.instr i] else none
  | none => none

/-- What a line says, if it is no directive for the linker or for addresses. -/
def AstNodeLine.items : AstNodeLine → Option (List LineItem)
  | .keyword .symbol _ _ _ => some []
  | .keyword .boundary _ _ _ => some (List.replicate 16 (.raw 0))
  | .keyword .fill string expr1 expr2 =>
    match keywordValue string expr1, keywordValue string expr2 with
    | .ok flimit, .ok fchar => some (List.replicate flimit.toNat (.raw fchar))
    | _, _ => none
  | .keyword _ _ _ _ => none
  | .instruction name parameters =>
    if name = "DAT" ∨ name = ".DAT" then dataItems parameters
    else instructionItems name parameters
  | .label name => some [.label name]

/-- What a program says. -/
def programItems : List AstNodeLine → Option (List LineItem)
  | [] => some []
  | line :: lines =>
    match line.items, programItems lines with
    | some items, some items' => some (items ++ items')
    | _, _ => none

/-- Whether an item is an instruction about which the assembler warns. -/
def LineItem.relativePc : LineItem → Bool
  | .instr i => i.relativePc
  | _ => false

/-! ### What the front end emits -/

section Emitting

variable {param : AstNodeParameter} {params : List AstNodeParameter} {line : AstNodeLine}
variable {lines : List AstNodeLine} {items : List LineItem}

theorem processDatum_of_items (h : param.items = some items) :
    processDatum param = .ok (items.flatMap LineItem.entries) := by
  have hvalue : ∀ param : AstNodeParameter, (∀ data, param ≠ .raw data) →
      (param.arg.bind Arg.next).map (fun x => [LineItem.value x]) = some items →
      processDatum param = .ok (items.flatMap LineItem.entries) := by
    intro param hraw hmap
    obtain ⟨x, hx, rfl⟩ := Option.map_eq_some_iff.mp hmap
    obtain ⟨a, ha, hnext⟩ := Option.bind_eq_some_iff.mp hx
    have hsays := processOperand_arg param
    rw [ha] at hsays
    obtain ⟨r, hr, hshows⟩ := hsays
    unfold processOperand at hr
    unfold processDatum
    split at hr
    · rename_i t ht
      rw [ht]
      dsimp only
      split at hr
      · cases hr
      · rename_i hnone
        cases hr
        have hemitted := hshows.emitted
        rw [hnext, Option.map_some, Option.toList_some] at hemitted
        unfold ProcessParameterResults.emitted at hemitted
        have hvraw : r.vRaw = none := by simpa using hnone
        split at hemitted
        · rename_i label hlabel
          rw [hlabel]
          exact congrArg Except.ok hemitted
        · rename_i hlabel
          rw [hlabel, hvraw]
          cases hextra : r.vExtra with
          | none =>
            rw [hextra] at hemitted
            cases hemitted
          | some y =>
            rw [hextra] at hemitted
            exact congrArg Except.ok hemitted
    · cases hr
  cases param with
  | raw data =>
    cases h
    rw [List.flatMap_map]
    exact congrArg Except.ok List.map_eq_flatMap
  | address value bracketed addcmpt =>
    exact hvalue _ (fun _ => AstNodeParameter.noConfusion) h
  | registr value bracketed => exact hvalue _ (fun _ => AstNodeParameter.noConfusion) h

theorem processData_of_items (h : dataItems params = some items) :
    processData params = (items.flatMap LineItem.entries, none) := by
  induction params generalizing items with
  | nil =>
    cases h
    rfl
  | cons param params ih =>
    rw [dataItems] at h
    split at h
    · rename_i first rest hfirst hrest
      cases h
      rw [processData, processDatum_of_items hfirst, ih hrest, List.flatMap_append]
    · cases h

/-- Data are no instructions. -/
theorem any_relativePc_items (h : param.items = some items) :
    items.any LineItem.relativePc = false := by
  cases param with
  | raw data =>
    cases h
    rw [List.any_map]
    exact List.any_eq_false.mpr fun c _ => Bool.false_ne_true
  | address value bracketed addcmpt =>
    obtain ⟨x, -, rfl⟩ := Option.map_eq_some_iff.mp h
    rfl
  | registr value bracketed =>
    obtain ⟨x, -, rfl⟩ := Option.map_eq_some_iff.mp h
    rfl

theorem any_relativePc_dataItems (h : dataItems params = some items) :
    items.any LineItem.relativePc = false := by
  induction params generalizing items with
  | nil =>
    cases h
    rfl
  | cons param params ih =>
    rw [dataItems] at h
    split at h
    · rename_i first rest hfirst hrest
      cases h
      rw [List.any_append, any_relativePc_items hfirst, ih hrest]
      rfl
    · cases h

theorem any_relativePc_replicate (n : ℕ) (w : Word) :
    (List.replicate n (LineItem.raw w)).any LineItem.relativePc = false :=
  List.any_eq_false.mpr fun item hitem => by
    rw [List.eq_of_mem_replicate hitem]
    exact Bool.false_ne_true

/-- The entries that are the same for several words. -/
theorem flatMap_replicate_raw (n : ℕ) (w : Word) :
    (List.replicate n (LineItem.raw w)).flatMap LineItem.entries =
      List.replicate n (aoutCreateRaw w) := by
  induction n with
  | zero => rfl
  | succ n ih => rw [List.replicate_succ, List.flatMap_cons, ih, List.replicate_succ]; rfl

/-- A line stops only at an instruction about which there is a warning. -/
theorem processLine_of_items (relativePcIsError : Bool) (h : line.items = some items) :
    processLine relativePcIsError line =
      if items.any LineItem.relativePc ∧ relativePcIsError = true then
        ([], some .relativePcAddressing)
      else (items.flatMap LineItem.entries, none) := by
  have hnone : items.any LineItem.relativePc = false → processLine relativePcIsError line =
      (items.flatMap LineItem.entries, none) → processLine relativePcIsError line =
        if items.any LineItem.relativePc ∧ relativePcIsError = true then
          ([], some .relativePcAddressing)
        else (items.flatMap LineItem.entries, none) := by
    intro hany hline
    rw [hany, if_neg fun hfalse => Bool.false_ne_true hfalse.1, hline]
  cases line with
  | label name =>
    cases h
    exact hnone rfl rfl
  | instruction name parameters =>
    rw [AstNodeLine.items] at h
    split at h
    · rename_i hdat
      refine hnone ?_ (by rw [processLine, if_pos hdat, processData_of_items h])
      exact any_relativePc_dataItems h
    · rename_i hdat
      rw [processLine, if_neg hdat]
      have hprocessed := processInstruction_eq relativePcIsError name parameters
      unfold instructionItems at h
      split at h
      · rename_i i hwritten
        rw [hwritten] at hprocessed
        dsimp only at hprocessed
        split at h
        · rename_i hnexts
          cases h
          rw [hprocessed, hnexts]
          have hany : [LineItem.instr i].any LineItem.relativePc = i.relativePc := Bool.or_false _
          rw [hany]
          split
          · rfl
          · exact congrArg (·, none) (List.append_nil _).symm
        · cases h
      · cases h
  | keyword keyword string expr1 expr2 =>
    cases keyword with
    | symbol =>
      cases h
      exact hnone rfl rfl
    | boundary =>
      cases h
      exact hnone rfl rfl
    | fill =>
      rw [AstNodeLine.items] at h
      split at h
      · rename_i flimit fchar h1 h2
        cases h
        refine hnone (any_relativePc_replicate _ _) ?_
        have hexpr : ∀ {expr : Option Expr} {w : Word}, keywordValue string expr = .ok w →
            expr ≠ none := by
          rintro expr w hw rfl
          cases hw
        rw [processLine, processKeyword, processFill,
          if_neg fun hor => hor.elim (hexpr h1) (hexpr h2), h1, h2, flatMap_replicate_raw]
        rfl
      · cases h
    | _ => cases h

theorem processLines_of_items (relativePcIsError : Bool) (h : programItems lines = some items) :
    if items.any LineItem.relativePc ∧ relativePcIsError = true then
      (processLines relativePcIsError lines).2 = some .relativePcAddressing
    else processLines relativePcIsError lines = (items.flatMap LineItem.entries, none) := by
  induction lines generalizing items with
  | nil =>
    cases h
    rw [List.any_nil, if_neg fun hfalse => Bool.false_ne_true hfalse.1]
    rfl
  | cons line lines ih =>
    rw [programItems] at h
    split at h
    · rename_i first rest hfirst hrest
      cases h
      have hline := processLine_of_items relativePcIsError hfirst
      have hlines := ih hrest
      rw [List.any_append, processLines, List.flatMap_append]
      cases hany : first.any LineItem.relativePc with
      | true =>
        rw [hany] at hline
        rw [Bool.true_or]
        by_cases herror : relativePcIsError = true
        · rw [if_pos ⟨rfl, herror⟩] at hline ⊢
          rw [hline]
        · rw [if_neg fun hboth => herror hboth.2] at hline hlines ⊢
          rw [hline, hlines]
      | false =>
        rw [hany, if_neg fun hboth => Bool.false_ne_true hboth.1] at hline
        rw [Bool.false_or, hline]
        split at hlines
        · rename_i hboth
          rw [if_pos hboth]
          exact hlines
        · rename_i hboth
          rw [if_neg hboth, hlines]
    · cases h

end Emitting

/-! ### What is written for the entries -/

/-- The words of an entry. -/
def AoutByte.wordsOf (value : Expr → Option Word) (e : AoutByte) : Option (List Word) :=
  match e.label, e.rawUsed, e.expr with
  | some _, _, _ => some []
  | none, true, _ => some [e.raw]
  | none, false, some x => valueAll value [x]
  | none, false, none => some [instructionCreate e.opcode.toNat e.a.toNat e.b.toNat]

/-- The words of entries. -/
def entriesWords (value : Expr → Option Word) : List AoutByte → Option (List Word)
  | [] => some []
  | e :: entries =>
    match e.wordsOf value, entriesWords value entries with
    | some ws, some ws' => some (ws ++ ws')
    | _, _ => none

/-- The entries of programs without directives. -/
inductive AoutByte.Simple : AoutByte → Prop
  | label (name : String) : AoutByte.Simple (aoutCreateLabel name)
  | raw (w : Word) : AoutByte.Simple (aoutCreateRaw w)
  | expr (x : Expr) : AoutByte.Simple (aoutCreateExpr x)
  | instr (i : Instr Expr) : AoutByte.Simple i.entry

/-- A run that writes an image, without a table in front of it. -/
structure AoutRun.WritesImage (run : AoutRun) : Prop where
  relocatable : run.relocatable = false
  intermediate : run.intermediate = false

section Entries

variable {run : AoutRun} {c : Word} {start entries : List AoutByte} {e : AoutByte}

theorem Instr.entry_type (i : Instr Expr) : i.entry.type = .normal := by cases i <;> rfl

theorem AoutByte.Simple.type (h : e.Simple) : e.type = .normal := by
  cases h with
  | instr i => exact i.entry_type
  | _ => rfl

/-- The addresses of the labels. -/
def addressValues (c : Word) (start : List AoutByte) (name : String) : Option Word :=
  (aoutGetLabelAddress c start name).toOption

theorem toOption_aoutEvaluate (x : Expr) :
    (aoutEvaluate c start x).toOption = evaluated (addressValues c start) x := by
  have hlabels : (fun name => (aoutGetLabelAddress c start name).toOption) =
      addressValues c start := rfl
  unfold aoutEvaluate evaluated
  rw [hlabels]
  cases hx : x.evaluate (addressValues c start) with
  | ok w => rfl
  | error exit =>
    cases exit with
    | labelNotFound name => exact (Expr.label_of_evaluate hx).2
    | _ => rfl

theorem findImport_of_simple (hsimple : ∀ e ∈ entries, e.Simple) (name : String) :
    findImport run name entries = .ok none := by
  induction entries with
  | nil => rfl
  | cons e entries ih =>
    obtain ⟨he, hentries⟩ := List.forall_mem_cons.mp hsimple
    rw [findImport, if_neg, ih hentries]
    rw [he.type]
    rintro (h | h) <;> cases h

/-- An expression is evaluated, and its value is put in its place. -/
theorem scanExpr_simple (himage : run.WritesImage) (hstart : ∀ e ∈ start, e.Simple) (x : Expr)
    (s : AoutScan) : ∃ s', scanExpr run c start s (aoutCreateExpr x) x =
      (aoutEvaluate c start x).map fun raw => (aoutCreateRaw raw, s') := by
  have hwarns : (run.relocatable || run.intermediate) = false := by
    rw [himage.relocatable, himage.intermediate]
    rfl
  unfold scanExpr
  split
  · rename_i name
    rw [findImport_of_simple hstart]
    refine ⟨s.record .adjustment none s.outIndex, ?_⟩
    cases aoutEvaluate c start (.label name) <;> rfl
  · refine ⟨s, ?_⟩
    dsimp only
    rw [hwarns, Bool.false_and, Bool.false_and, if_neg Bool.false_ne_true, Bool.or_false]
    cases aoutEvaluate c start x <;> rfl

/-- **A turn of both loops**: the words of an entry are written, or there is an error. -/
theorem scanEntry_simple (himage : run.WritesImage) (hstart : ∀ e ∈ start, e.Simple)
    (he : e.Simple) (s : AoutScan) :
    match e.wordsOf (evaluated (addressValues c start)) with
    | none => ∃ err, scanEntry run c start s e = .error err
    | some ws => ∃ e' s', scanEntry run c start s e = .ok (e', s') ∧
        ∀ t out, writeEntry run t out e' = .ok (iwrites run.modes ws out) := by
  cases he with
  | label name => exact ⟨_, _, rfl, fun t out => rfl⟩
  | raw w => exact ⟨_, _, rfl, fun t out => rfl⟩
  | expr x =>
    obtain ⟨s', hscan⟩ := scanExpr_simple (c := c) himage hstart x s
    have hentry : scanEntry run c start s (aoutCreateExpr x) =
        scanExpr run c start s (aoutCreateExpr x) x := rfl
    have hvalue := @toOption_aoutEvaluate c start x
    rw [hentry, hscan, show (aoutCreateExpr x).wordsOf (evaluated (addressValues c start)) =
      valueAll (evaluated (addressValues c start)) [x] from rfl, valueAll, ← hvalue]
    cases aoutEvaluate c start x with
    | error err => exact ⟨err, rfl⟩
    | ok w => exact ⟨_, _, rfl, fun t out => rfl⟩
  | instr i => cases i <;> exact ⟨_, _, rfl, fun t out => rfl⟩

/-- **Both loops**: the words of all entries are written, or there is an error. -/
theorem aoutScan_simple (himage : run.WritesImage) (hstart : ∀ e ∈ start, e.Simple)
    (hsimple : ∀ e ∈ entries, e.Simple) (s : AoutScan) :
    match entriesWords (evaluated (addressValues c start)) entries with
    | none => ∃ err, aoutScan run c start entries s = .error err
    | some ws => ∃ entries' s', aoutScan run c start entries s = .ok (entries', s') ∧
        ∀ t out, entries'.foldlM (writeEntry run t) out = .ok (iwrites run.modes ws out) := by
  induction entries generalizing s with
  | nil => exact ⟨_, _, rfl, fun t out => rfl⟩
  | cons e entries ih =>
    obtain ⟨he, hentries⟩ := List.forall_mem_cons.mp hsimple
    have hturn := scanEntry_simple (c := c) himage hstart he s
    rw [entriesWords, aoutScan]
    cases hwords : e.wordsOf (evaluated (addressValues c start)) with
    | none =>
      rw [hwords] at hturn
      obtain ⟨err, herr⟩ := hturn
      exact ⟨err, by rw [herr]⟩
    | some ws =>
      rw [hwords] at hturn
      obtain ⟨e', s', hscan, hwrite⟩ := hturn
      have hrest := ih hentries { s' with outIndex := s'.outIndex + e.words }
      rw [hscan]
      dsimp only
      cases hwords' : entriesWords (evaluated (addressValues c start)) entries with
      | none =>
        rw [hwords'] at hrest
        obtain ⟨err, herr⟩ := hrest
        exact ⟨err, by rw [herr]⟩
      | some ws' =>
        rw [hwords'] at hrest
        obtain ⟨entries', s'', hscan', hwrite'⟩ := hrest
        refine ⟨e' :: entries', s'', by rw [hscan'], fun t out => ?_⟩
        rw [List.foldlM_cons, hwrite, iwrites_append]
        exact hwrite' t _

/-- There are no names of extensions. -/
theorem textnInit_simple (hsimple : ∀ e ∈ entries, e.Simple) (table : List String × Word) :
    textnInit entries table = (table, none) := by
  induction entries with
  | nil => rfl
  | cons e entries ih =>
    obtain ⟨he, hentries⟩ := List.forall_mem_cons.mp hsimple
    rw [textnInit, if_neg, ih hentries]
    rw [he.type]
    exact AoutType.noConfusion

/-- **An image is the words of the entries.** -/
theorem assembled_simple (himage : run.WritesImage) (hsimple : ∀ e ∈ entries, e.Simple) :
    (assembled run ⟨entries, false⟩ {}).toOption =
      (entriesWords (evaluated (addressValues 0 entries)) entries).map
        (·.flatMap run.modes.bytes) := by
  have hinit : aoutInit run { start := entries } = ({ start := entries }, none) := by
    unfold aoutInit
    rw [textnInit_simple hsimple, himage.relocatable]
    rfl
  have hscan := aoutScan_simple (c := 0) himage hsimple hsimple { outIndex := 0 }
  have hwrite : assembled run ⟨entries, false⟩ {} =
      (aoutWriteWords run { start := entries }).2.map (·.1.content) := by
    unfold assembled assemble aoutWrite
    rw [List.nil_append, if_neg Bool.false_ne_true, hinit]
  rw [hwrite]
  unfold aoutWriteWords
  cases hwords : entriesWords (evaluated (addressValues 0 entries)) entries with
  | none =>
    rw [hwords] at hscan
    obtain ⟨err, herr⟩ := hscan
    rw [show (0 : Word).toNat = 0 from rfl, herr]
    rfl
  | some ws =>
    rw [hwords] at hscan
    obtain ⟨entries', s', hscan, hwritten⟩ := hscan
    rw [show (0 : Word).toNat = 0 from rfl, hscan]
    dsimp only
    have htables : writeTables run { start := entries' } s'.tables ⟨[], 0, false⟩ =
        some ({ start := entries' }, ⟨[], 0, false⟩) := by
      unfold writeTables
      rw [himage.intermediate, himage.relocatable]
      rfl
    rw [htables]
    dsimp only
    rw [hwritten]
    have hcontent : (iwrites run.modes ws ⟨[], 0, false⟩).content = ws.flatMap run.modes.bytes := by
      rw [iwrites_eq]
      exact File.content_fwrite_atEnd rfl _
    exact congrArg some hcontent

end Entries

/-! ### The entries of items -/

section Items

variable {run : AoutRun} {items : List LineItem} {value : Expr → Option Word}

theorem entriesWords_append (entries entries' : List AoutByte) :
    entriesWords value (entries ++ entries') =
      match entriesWords value entries, entriesWords value entries' with
      | some ws, some ws' => some (ws ++ ws')
      | _, _ => none := by
  induction entries with
  | nil =>
    rw [List.nil_append, entriesWords]
    cases entriesWords value entries' <;> rfl
  | cons e entries ih =>
    rw [List.cons_append, entriesWords, entriesWords, ih]
    cases e.wordsOf value with
    | none => rfl
    | some ws =>
      cases entriesWords value entries with
      | none => rfl
      | some ws' =>
        cases entriesWords value entries' with
        | none => rfl
        | some ws'' => exact congrArg some (List.append_assoc _ _ _).symm

theorem entriesWords_map_aoutCreateExpr (xs : List Expr) :
    entriesWords value (xs.map aoutCreateExpr) = valueAll value xs := by
  induction xs with
  | nil => rfl
  | cons x xs ih =>
    have hword : (aoutCreateExpr x).wordsOf value = valueAll value [x] := rfl
    rw [List.map_cons, entriesWords, hword, ih, valueAll, valueAll, valueAll]
    cases value x <;> cases valueAll value xs <;> rfl

/-- The instruction word is put together again. -/
theorem wordsOf_entry (i : Instr Expr) : i.entry.wordsOf value = some [i.word] := by
  have hcode : ∀ n, n < 0x40 → (BitVec.ofNat 16 n).toNat = n := fun n hn => by
    rw [BitVec.toNat_ofNat]
    exact Nat.mod_eq_of_lt (by omega)
  cases i with
  | two op b a =>
    have hword : (Instr.two op b a).entry.wordsOf value =
        some [instructionCreate (BitVec.ofNat 16 op.code).toNat (BitVec.ofNat 16 b.code).toNat
          (BitVec.ofNat 16 a.code).toNat] := rfl
    rw [hword, hcode _ (op.code_lt.trans (by decide)), hcode _ (b.code_lt.trans (by decide)),
      hcode _ a.code_lt, Instr.word]
  | one op a =>
    have hword : (Instr.one op a).entry.wordsOf value =
        some [instructionCreate 0 (BitVec.ofNat 16 op.code).toNat
          (BitVec.ofNat 16 a.code).toNat] := rfl
    rw [hword, hcode _ (op.code_lt.trans (by decide)), hcode _ a.code_lt, Instr.word]

theorem entriesWords_item (item : LineItem) :
    entriesWords value item.entries = item.words value := by
  cases item with
  | label name => rfl
  | raw w => rfl
  | value x => exact entriesWords_map_aoutCreateExpr [x]
  | instr i =>
    rw [LineItem.entries, Instr.entries, entriesWords, wordsOf_entry,
      entriesWords_map_aoutCreateExpr, LineItem.words]
    cases valueAll value i.nexts <;> rfl

/-- **The words of the entries are those of the items.** -/
theorem entriesWords_items (items : List LineItem) :
    entriesWords value (items.flatMap LineItem.entries) = itemsValues value items := by
  induction items with
  | nil => rfl
  | cons item items ih =>
    rw [List.flatMap_cons, entriesWords_append, entriesWords_item, ih, itemsValues]

theorem simple_entries (item : LineItem) : ∀ e ∈ item.entries, e.Simple := by
  cases item with
  | label name => exact List.forall_mem_singleton.mpr (.label name)
  | raw w => exact List.forall_mem_singleton.mpr (.raw w)
  | value x => exact List.forall_mem_singleton.mpr (.expr x)
  | instr i =>
    refine List.forall_mem_cons.mpr ⟨.instr i, fun e he => ?_⟩
    obtain ⟨x, -, rfl⟩ := List.mem_map.mp he
    exact .expr x

/-- Over entries that are words, addresses are counted. -/
theorem labelAddress_words {name : String} {entries rest : List AoutByte} {found : Bool}
    (hwords : ∀ e ∈ entries, e.type = .normal ∧ e.label = none) (p : ℕ) :
    labelAddress name (entries ++ rest) (BitVec.ofNat 16 p) found =
      labelAddress name rest (BitVec.ofNat 16 (p + entries.length)) found := by
  induction entries generalizing p with
  | nil => rfl
  | cons e entries ih =>
    obtain ⟨⟨htype, hlabel⟩, hentries⟩ := List.forall_mem_cons.mp hwords
    have hplaces : e.places = false := by
      rw [AoutByte.places, htype]
      rfl
    rw [List.cons_append, labelAddress, hplaces, if_neg Bool.false_ne_true, if_pos htype, hlabel]
    have hnext : BitVec.ofNat 16 p + 1 = BitVec.ofNat 16 (p + 1) := (BitVec.ofNat_add p 1).symm
    dsimp only
    rw [hnext, ih hentries, List.length_cons, Nat.add_comm entries.length, Nat.add_assoc]

/-- An item other than a label is as many entries as it takes words. -/
theorem entries_words {item : LineItem} (h : ∀ name, item ≠ .label name) :
    item.entries.length = item.size ∧ ∀ e ∈ item.entries, e.type = .normal ∧ e.label = none := by
  cases item with
  | label name => exact absurd rfl (h name)
  | raw w => exact ⟨rfl, List.forall_mem_singleton.mpr ⟨rfl, rfl⟩⟩
  | value x => exact ⟨rfl, List.forall_mem_singleton.mpr ⟨rfl, rfl⟩⟩
  | instr i =>
    refine ⟨?_, List.forall_mem_cons.mpr ⟨⟨i.entry_type, by cases i <;> rfl⟩, fun e he => ?_⟩⟩
    · rw [LineItem.entries, Instr.entries, List.length_cons, List.length_map, LineItem.size,
        Instr.size, Nat.add_comm]
    · obtain ⟨x, -, rfl⟩ := List.mem_map.mp he
      exact ⟨rfl, rfl⟩

/-- An item is the label that is looked for, or it is passed. -/
theorem labelAddress_item (name : String) (item : LineItem) (rest : List AoutByte) (p : ℕ)
    (found : Bool) :
    labelAddress name (item.entries ++ rest) (BitVec.ofNat 16 p) found =
      if item = .label name then .ok (BitVec.ofNat 16 p)
      else labelAddress name rest (BitVec.ofNat 16 (p + item.size)) found := by
  by_cases hlabel : ∃ name', item = .label name'
  · obtain ⟨name', rfl⟩ := hlabel
    have hturn : labelAddress name ([aoutCreateLabel name'] ++ rest) (BitVec.ofNat 16 p) found =
        if name' = name then .ok (BitVec.ofNat 16 p)
        else labelAddress name rest (BitVec.ofNat 16 p) found := rfl
    rw [LineItem.entries, hturn]
    by_cases hname : name' = name
    · rw [if_pos hname, if_pos (congrArg LineItem.label hname)]
    · rw [if_neg hname, if_neg fun h => hname (LineItem.label.inj h)]
      rfl
  · have hno : ∀ name', item ≠ .label name' := fun name' h => hlabel ⟨name', h⟩
    obtain ⟨hlength, hwords⟩ := entries_words hno
    rw [labelAddress_words hwords, if_neg (hno name), hlength]

/-- **The address of a label is its position.** -/
theorem labelAddress_items (name : String) (items : List LineItem) (p : ℕ) :
    (labelAddress name (items.flatMap LineItem.entries) (BitVec.ofNat 16 p) false).toOption =
      (labelPosition name p items).map (BitVec.ofNat 16) := by
  induction items generalizing p with
  | nil => rfl
  | cons item items ih =>
    rw [List.flatMap_cons, labelPosition, labelAddress_item]
    split
    · rfl
    · exact ih _

theorem addressValues_items (items : List LineItem) :
    addressValues 0 (items.flatMap LineItem.entries) = labelValues 0 items := by
  funext name
  exact labelAddress_items name items 0

end Items

/-! ### Programs -/

section Programs

variable {run : AoutRun} {relativePcIsError : Bool} {lines : List AstNodeLine}
  {items : List LineItem}

/-- What is written for a program. -/
theorem assembled_program (himage : run.WritesImage) (hitems : programItems lines = some items) :
    (assembled run (processRoot relativePcIsError lines) {}).toOption =
      if items.any LineItem.relativePc ∧ relativePcIsError = true then none
      else (itemsWords (labelValues 0 items) items).map (·.flatMap run.modes.bytes) := by
  have hlines := processLines_of_items relativePcIsError hitems
  have hsimple : ∀ e ∈ items.flatMap LineItem.entries, e.Simple := by
    intro e he
    obtain ⟨item, -, hitem⟩ := List.mem_flatMap.mp he
    exact simple_entries item e hitem
  have himages := assembled_simple himage hsimple
  rw [addressValues_items, entriesWords_items] at himages
  unfold processRoot
  split at hlines
  · rename_i hwarned
    rw [hlines, if_pos hwarned]
    rfl
  · rename_i hnot
    rw [hlines, if_neg hnot]
    exact himages

/-- **The assembler writes what a program says**, with the positions for the labels, exactly if
every expression has a value and no warning is treated as an error. -/
theorem assembled_iff (himage : run.WritesImage) (hitems : programItems lines = some items)
    (bytes : List UInt8) :
    assembled run (processRoot relativePcIsError lines) {} = .ok bytes ↔
      ¬ (items.any LineItem.relativePc ∧ relativePcIsError = true) ∧
        ∃ words, itemsWords (labelValues 0 items) items = some words ∧
          bytes = words.flatMap run.modes.bytes := by
  have htoOption : ∀ x : Except AoutError (List UInt8), x = .ok bytes ↔
      x.toOption = some bytes := by
    intro x
    cases x with
    | error err => exact ⟨fun h => (by cases h), fun h => (by cases h)⟩
    | ok content => exact ⟨fun h => (by cases h; rfl), fun h => (by cases h; rfl)⟩
  rw [htoOption, assembled_program himage hitems]
  split
  · rename_i hwarned
    exact iff_of_false (fun h => by cases h) fun h => h.1 hwarned
  · rename_i hnot
    rw [Option.map_eq_some_iff]
    constructor
    · rintro ⟨words, hwords, rfl⟩
      exact ⟨hnot, words, hwords, rfl⟩
    · rintro ⟨-, words, hwords, rfl⟩
      exact ⟨words, hwords, rfl⟩

/-- `:loop ADD A, 1` and `SET PC, loop`. -/
def countingLines : List AstNodeLine :=
  [.label "loop", .instruction "ADD" [.registr "A" false, .address (.number 1) false none],
    .instruction "SET" [.registr "PC" false, .address (.label "loop") false none]]

/-- What these lines say. -/
def countingItems : List LineItem :=
  [.label "loop", .instr (.basic .add (.reg 0) (.nxtLit (.number 1))),
    .instr (.basic .set .pc (.nxtLit (.label "loop")))]

theorem programItems_counting : programItems countingLines = some countingItems := by
  decide +kernel

/-- The label `loop` is at 0. -/
theorem assembled_iff_counting :
    assembled {} (processRoot true countingLines) {} =
      .ok [0x7C, 0x02, 0x00, 0x01, 0x7F, 0x81, 0x00, 0x00] :=
  (assembled_iff ⟨rfl, rfl⟩ programItems_counting _).mpr
    ⟨by decide, [0x7C02, 0x0001, 0x7F81, 0x0000], by decide +kernel, by decide +kernel⟩

end Programs

end DcpuToolchain
