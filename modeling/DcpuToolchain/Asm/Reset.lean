import DcpuToolchain.Asm.Aout

/-!
# One program after another

The assembler can assemble programs one after the other in a process. `aout_reset` takes the
entries of the first away, but not the code offset, to which the tables of each program add, and
not the true origin, which intermediate output sets. And it frees the only entry of a program
twice.

What is written for the second program is what a fresh process writes, if nothing of that matters
(`DcpuToolchain.assembledAfter_eq_assembled`): the code offset is where addresses are counted from
up to the first `.ORIGIN` or `.SEEK`, and the true origin is where `.SEEK` counts from.
-/

namespace DcpuToolchain

open Stdio

/-- The entries in front of the first `.ORIGIN` or `.SEEK`. -/
def unplaced (entries : List AoutByte) : List AoutByte := entries.takeWhile fun e => !e.places

/-- A label behind the first `.ORIGIN` or `.SEEK` has its address from there. -/
theorem labelAddress_congr {name : String} {entries : List AoutByte}
    (h : ∀ e ∈ unplaced entries, e.type = .normal → e.label ≠ some name) (c c' : Word)
    (foundImport : Bool) :
    labelAddress name entries c foundImport = labelAddress name entries c' foundImport := by
  induction entries generalizing c c' foundImport with
  | nil => rfl
  | cons e entries ih =>
    unfold labelAddress
    cases hplaces : e.places with
    | true => rfl
    | false =>
      have hunplaced : unplaced (e :: entries) = e :: unplaced entries :=
        List.takeWhile_cons_of_pos (by rw [hplaces]; rfl)
      rw [hunplaced] at h
      have hrest := ih fun e' hmem => h e' (List.mem_cons_of_mem _ hmem)
      rw [if_neg Bool.false_ne_true, if_neg Bool.false_ne_true]
      split
      · rename_i hnormal
        split
        · exact hrest _ _ _
        · rename_i label hlabel
          have hne : label ≠ name := by
            rintro rfl
            exact h e List.mem_cons_self hnormal hlabel
          rw [if_neg hne, if_neg hne]
          exact hrest _ _ _
      · split <;> exact hrest _ _ _

/-! ### The first loop -/

/-- The labels of which an entry reads the address. -/
def AoutByte.reads (e : AoutByte) : List String :=
  match e.type with
  | .normal => e.expr.elim [] Expr.labels
  | .exports | .jump => e.label.toList
  | _ => []

/-- Whether an entry puts the address it is at in a table. -/
def AoutByte.recordsHere (e : AoutByte) : Bool :=
  match e.type with
  | .sections | .output | .call => true
  | .jump => e.label.isNone
  | .normal => e.expr.any fun expr => match expr with | .label _ => true | _ => false
  | _ => false

/-- An entry from which addresses are counted anew has none in a table. -/
theorem AoutByte.places_of_recordsHere {e : AoutByte} (h : e.recordsHere = true) :
    e.places = false := by
  unfold AoutByte.recordsHere at h
  unfold AoutByte.places
  cases htype : e.type <;> rw [htype] at h <;> first | rfl | cases h

/-- Nothing on which the output depends is in front of the first `.ORIGIN` or `.SEEK`: no label
whose address is read, and if there are tables no entry with its address in one. -/
structure OffsetUnread (run : AoutRun) (entries : List AoutByte) : Prop where
  labels : ∀ e ∈ unplaced entries, e.type = .normal → ∀ name, e.label = some name →
    ∀ e' ∈ entries, name ∉ e'.reads
  records : run.intermediate = true → ∀ e ∈ unplaced entries, e.recordsHere = false

/-- Two scans that differ in addresses that do not matter. -/
structure AoutScan.Same (run : AoutRun) (placed : Bool) (s s' : AoutScan) : Prop where
  tables : run.intermediate = true → s.tables = s'.tables
  hasOutput : s.hasOutput = s'.hasOutput
  shown : s.shownExprWarning = s'.shownExprWarning
  outIndex : placed = true → s.outIndex = s'.outIndex

/-- Both fail in the same way, or give the same and leave related states. -/
def Agree {α β : Type} (R : β → β → Prop) :
    Except AoutError (α × β) → Except AoutError (α × β) → Prop
  | .error err, .error err' => err = err'
  | .ok (a, b), .ok (a', b') => a = a' ∧ R b b'
  | _, _ => False

section Address

variable {run : AoutRun} {c c' : Word} {start : List AoutByte}

/-- Expressions whose labels have the same addresses have the same value. -/
theorem aoutEvaluate_congr {expr : Expr}
    (h : ∀ name ∈ expr.labels,
      aoutGetLabelAddress c start name = aoutGetLabelAddress c' start name) :
    aoutEvaluate c start expr = aoutEvaluate c' start expr := by
  have heval : (expr.evaluate fun name => (aoutGetLabelAddress c start name).toOption) =
      expr.evaluate fun name => (aoutGetLabelAddress c' start name).toOption :=
    Expr.evaluate_congr fun name hmem => by rw [h name hmem]
  unfold aoutEvaluate
  rw [heval]
  split
  · rfl
  · rename_i name hnot
    exact h name (Expr.mem_labels_of_evaluate hnot)
  · rfl

variable {s s' : AoutScan} {placed : Bool} {e : AoutByte}

/-- What fails fails, and what goes on with related states goes on. -/
theorem Agree.map {α β γ : Type} {R : γ → γ → Prop} {x : Except AoutError α} {b : β}
    {f f' : α → γ} (h : ∀ a, R (f a) (f' a)) :
    Agree R ((x.map f).map (b, ·)) ((x.map f').map (b, ·)) := by
  cases x with
  | error err => exact rfl
  | ok a => exact ⟨rfl, h a⟩

/-- Two records agree, if they are the same or there are no tables. -/
theorem AoutScan.Same.record (hs : AoutScan.Same run placed s s') (t : Table)
    (label : Option String) {address address' : ℕ}
    (h : run.intermediate = true → address = address') :
    AoutScan.Same run placed (s.record t label address) (s'.record t label address') where
  tables hint := by
    rw [AoutScan.record, AoutScan.record]
    dsimp only
    rw [hs.tables hint, h hint]
  hasOutput := hs.hasOutput
  shown := hs.shown
  outIndex := hs.outIndex

/-- A directive for the linker does the same, if it records the same in intermediate output. -/
theorem linkerDirective_agree {R : AoutScan → AoutScan → Prop} {keyword : Option String}
    {record record' : Except AoutError AoutScan}
    (h : run.intermediate = true → Agree R (record.map (e, ·)) (record'.map (e, ·))) :
    Agree R (linkerDirective run e keyword record) (linkerDirective run e keyword record') := by
  unfold linkerDirective
  cases keyword with
  | none =>
    dsimp only
    split
    · exact rfl
    · rename_i hint
      exact h (by simpa using hint)
  | some keyword =>
    dsimp only
    split
    · exact rfl
    · split
      · exact rfl
      · rename_i hint
        exact h (by simpa using hint)

/-- An expression is evaluated to the same, and what is recorded agrees. -/
theorem scanExpr_agree {expr : Expr}
    (haddr : ∀ name ∈ expr.labels,
      aoutGetLabelAddress c start name = aoutGetLabelAddress c' start name)
    (hindex : (∃ name, expr = .label name) → run.intermediate = true → s.outIndex = s'.outIndex)
    (hs : AoutScan.Same run placed s s') :
    Agree (AoutScan.Same run placed) (scanExpr run c start s e expr)
      (scanExpr run c' start s' e expr) := by
  have heval := aoutEvaluate_congr haddr
  unfold scanExpr
  split
  · rename_i name
    cases findImport run name start with
    | error err => exact rfl
    | ok found =>
      cases found with
      | some found => exact ⟨rfl, hs.record _ _ (hindex ⟨name, rfl⟩)⟩
      | none =>
        dsimp only
        rw [heval]
        cases aoutEvaluate c' start (.label name) with
        | error err => exact rfl
        | ok raw => exact ⟨rfl, hs.record _ _ (hindex ⟨name, rfl⟩)⟩
  · dsimp only
    rw [hs.shown, heval]
    split
    · exact rfl
    · cases aoutEvaluate c' start expr with
      | error err => exact rfl
      | ok raw => exact ⟨rfl, hs.tables, hs.hasOutput, rfl, hs.outIndex⟩

/-- **A turn of the first loop does the same** with another code offset, if the addresses that it
reads are the same, and so is where it is if it puts that in a table. -/
theorem scanEntry_agree
    (haddr : ∀ name ∈ e.reads,
      aoutGetLabelAddress c start name = aoutGetLabelAddress c' start name)
    (hindex : e.recordsHere = true → run.intermediate = true → s.outIndex = s'.outIndex)
    (hs : AoutScan.Same run placed s s') :
    Agree (AoutScan.Same run (placed || e.places)) (scanEntry run c start s e)
      (scanEntry run c' start s' e) := by
  -- An entry after which addresses go on as they are keeps what it is proved with.
  have hweaken {x y : Except AoutError (AoutByte × AoutScan)} (hplaces : e.places = false)
      (h : Agree (AoutScan.Same run placed) x y) :
      Agree (AoutScan.Same run (placed || e.places)) x y := by
    rw [hplaces, Bool.or_false]
    exact h
  have hplaces (h : e.type ≠ .origin) (h' : e.type ≠ .seek) : e.places = false := by
    rw [AoutByte.places, decide_eq_false h, decide_eq_false h']
    rfl
  unfold AoutByte.reads at haddr
  unfold AoutByte.recordsHere at hindex
  cases htype : e.type
  case origin =>
    unfold scanEntry
    rw [htype]
    dsimp only
    split
    · exact rfl
    · exact ⟨rfl, hs.tables, hs.hasOutput, hs.shown, fun _ => rfl⟩
  case seek =>
    unfold scanEntry
    rw [htype]
    exact ⟨rfl, hs.tables, hs.hasOutput, hs.shown, fun _ => rfl⟩
  all_goals
    refine hweaken (hplaces (by rw [htype]; decide) (by rw [htype]; decide)) ?_
    rw [htype] at haddr hindex
    unfold scanEntry
    rw [htype]
    dsimp only at haddr hindex ⊢
  case extension => exact ⟨rfl, hs⟩
  case incbin => exact ⟨rfl, hs⟩
  case imports => exact ⟨rfl, hs⟩
  case importOptional => exact ⟨rfl, hs⟩
  case sections =>
    refine linkerDirective_agree fun hint => ?_
    rw [hs.hasOutput]
    split
    · exact rfl
    · exact ⟨rfl, hs.record _ _ (hindex rfl)⟩
  case output | call =>
    refine linkerDirective_agree fun hint => ?_
    have hs' :
        AoutScan.Same run placed { s with hasOutput := true } { s' with hasOutput := true } :=
      ⟨hs.tables, rfl, hs.shown, hs.outIndex⟩
    exact ⟨rfl, hs'.record _ _ (hindex rfl)⟩
  case exports =>
    refine linkerDirective_agree fun hint => ?_
    cases hlabel : e.label with
    | none => exact rfl
    | some name =>
      dsimp only
      rw [haddr name (by rw [hlabel]; exact List.mem_cons_self)]
      exact Agree.map fun address => hs.record _ _ fun _ => rfl
  case jump =>
    refine linkerDirective_agree fun hint => ?_
    cases hlabel : e.label with
    | none => exact ⟨rfl, hs.record _ _ (hindex (by rw [hlabel]; rfl))⟩
    | some name =>
      dsimp only
      rw [haddr name (by rw [hlabel]; exact List.mem_cons_self)]
      exact Agree.map fun address => hs.record _ _ fun _ => rfl
  case normal =>
    cases hexpr : e.expr with
    | none => exact ⟨rfl, hs⟩
    | some expr =>
      rw [hexpr] at haddr hindex
      refine scanExpr_agree haddr ?_ hs
      rintro ⟨name, rfl⟩
      exact hindex rfl

/-- **The first loop does the same**, from entries on behind which the addresses of the rest are
read. -/
theorem aoutScan_agree {entries : List AoutByte} (placed : Bool)
    (haddr : ∀ e ∈ entries, ∀ name ∈ e.reads,
      aoutGetLabelAddress c start name = aoutGetLabelAddress c' start name)
    (hindex : placed = false → run.intermediate = true →
      ∀ e ∈ unplaced entries, e.recordsHere = false)
    (hs : AoutScan.Same run placed s s') :
    Agree (fun s s' => run.intermediate = true → s.tables = s'.tables)
      (aoutScan run c start entries s) (aoutScan run c' start entries s') := by
  induction entries generalizing placed s s' with
  | nil => exact ⟨rfl, hs.tables⟩
  | cons e entries ih =>
    have hunplaced : e.places = false → unplaced (e :: entries) = e :: unplaced entries :=
      fun h => List.takeWhile_cons_of_pos (by rw [h]; rfl)
    have hhere : e.recordsHere = true → run.intermediate = true → s.outIndex = s'.outIndex := by
      intro hrecords hint
      refine hs.outIndex (Bool.eq_true_of_not_eq_false fun hplaced => ?_)
      have hplaces : e.places = false := AoutByte.places_of_recordsHere hrecords
      have h := hindex hplaced hint e (by rw [hunplaced hplaces]; exact List.mem_cons_self)
      rw [hrecords] at h
      cases h
    have hstep := scanEntry_agree (haddr e List.mem_cons_self) hhere hs
    unfold aoutScan
    revert hstep
    rcases scanEntry run c start s e with err | ⟨e₁, s₁⟩ <;>
      rcases scanEntry run c' start s' e with err' | ⟨e₁', s₁'⟩ <;> intro hstep
    · exact hstep
    · exact hstep.elim
    · exact hstep.elim
    · obtain ⟨rfl, hs₁⟩ := hstep
      have hrest := @ih { s₁ with outIndex := s₁.outIndex + e.words }
        { s₁' with outIndex := s₁'.outIndex + e.words } (placed || e.places)
        (fun e' hmem => haddr e' (List.mem_cons_of_mem _ hmem)) ?_
        ⟨hs₁.tables, hs₁.hasOutput, hs₁.shown, fun h => congrArg (· + e.words) (hs₁.outIndex h)⟩
      · dsimp only
        revert hrest
        rcases aoutScan run c start entries _ with err | ⟨entries₂, s₂⟩ <;>
          rcases aoutScan run c' start entries _ with err' | ⟨entries₂', s₂'⟩ <;> intro hrest
        · exact hrest
        · exact hrest.elim
        · exact hrest.elim
        · obtain ⟨rfl, hs₂⟩ := hrest
          exact ⟨rfl, hs₂⟩
      · intro hplaced hint e' hmem
        obtain ⟨hplaced, hplaces⟩ := Bool.or_eq_false_iff.mp hplaced
        refine hindex hplaced hint e' ?_
        rw [hunplaced hplaces]
        exact List.mem_cons_of_mem _ hmem

/-- A directive for the linker leaves its entry as it is, and does what its record does. -/
theorem linkerDirective_ok {e' : AoutByte} {keyword : Option String}
    {record : Except AoutError AoutScan}
    (h : linkerDirective run e keyword record = .ok (e', s')) : e' = e ∧ record = .ok s' := by
  have hrecord (h : record.map (e, ·) = .ok (e', s')) : e' = e ∧ record = .ok s' := by
    cases record with
    | error err => cases h
    | ok t =>
      cases h
      exact ⟨rfl, rfl⟩
  unfold linkerDirective at h
  cases keyword with
  | none =>
    dsimp only at h
    split at h
    · cases h
    · exact hrecord h
  | some keyword =>
    dsimp only at h
    split at h
    · cases h
    · split at h
      · cases h
      · exact hrecord h

/-- An entry keeps its type when it is evaluated. -/
theorem scanExpr_type {e' : AoutByte} {expr : Expr}
    (h : scanExpr run c start s e expr = .ok (e', s')) : e'.type = e.type := by
  unfold scanExpr at h
  split at h
  · split at h
    · cases h
    · cases h
      rfl
    · split at h <;> cases h
      rfl
  · dsimp only at h
    split at h
    · cases h
    · split at h <;> cases h
      rfl

theorem scanEntry_type {e' : AoutByte} (h : scanEntry run c start s e = .ok (e', s')) :
    e'.type = e.type := by
  unfold scanEntry at h
  cases htype : e.type <;> rw [htype] at h <;> dsimp only at h
  case origin =>
    split at h <;> cases h
    exact htype
  case normal =>
    split at h
    · cases h
      exact htype
    · exact (scanExpr_type h).trans htype
  case sections | output | exports | jump | call =>
    rw [(linkerDirective_ok h).1, htype]
  all_goals
    cases h
    exact htype

/-- The first loop keeps the types. -/
theorem aoutScan_types {entries entries' : List AoutByte}
    (h : aoutScan run c start entries s = .ok (entries', s')) :
    entries'.map (·.type) = entries.map (·.type) := by
  induction entries generalizing s s' entries' with
  | nil =>
    cases h
    rfl
  | cons e entries ih =>
    unfold aoutScan at h
    split at h
    · cases h
    · rename_i e₁ s₁ hentry
      split at h
      · cases h
      · rename_i entries₁ s₂ hrest
        cases h
        rw [List.map_cons, List.map_cons, scanEntry_type hentry, ih hrest]

end Address

/-! ### The output -/

section Output

variable {run : AoutRun} {t t' : Word} {s s' : Aout} {entries : List AoutByte} {out : File}

/-- Only a `.SEEK` asks for the true origin. -/
theorem foldlM_writeEntry_congr (h : t = t' ∨ ∀ e ∈ entries, e.type ≠ .seek) :
    entries.foldlM (writeEntry run t) out = entries.foldlM (writeEntry run t') out := by
  rcases h with rfl | h
  · rfl
  induction entries generalizing out with
  | nil => rfl
  | cons e entries ih =>
    have he : writeEntry run t out e = writeEntry run t' out e := by
      unfold writeEntry
      cases htype : e.type with
      | seek => exact absurd htype (h e List.mem_cons_self)
      | _ => rfl
    rw [List.foldlM_cons, List.foldlM_cons, he]
    exact congrArg _ (funext fun out => ih fun e' hmem => h e' (List.mem_cons_of_mem _ hmem))

/-- The tables in front of the words are those of the extensions and the relocations. -/
theorem writeTail_congr (hext : s.extensionData = s'.extensionData)
    (hoff : s.extensionOffset = s'.extensionOffset)
    (hreloc : run.relocatable = true → s.relocData = s'.relocData) :
    (if run.relocatable then trelocWrite run.modes s (textnWrite run.modes s out)
      else textnWrite run.modes s out) =
    if run.relocatable then trelocWrite run.modes s' (textnWrite run.modes s' out)
      else textnWrite run.modes s' out := by
  have htextn : textnWrite run.modes s out = textnWrite run.modes s' out := by
    unfold textnWrite
    rw [hext, hoff]
  rw [htextn]
  split
  · rename_i hrelocatable
    unfold trelocWrite
    rw [hreloc hrelocatable]
  · rfl

section Tables

variable {tables tables' : Table → List LprovEntry}
  (htables : run.intermediate = true → tables = tables')
include htables

/-- What comes before the words is the same, if the tables are. -/
theorem writeTables_congr (hext : s.extensionData = s'.extensionData)
    (hoff : s.extensionOffset = s'.extensionOffset)
    (hreloc : run.relocatable = true → s.relocData = s'.relocData) :
    (writeTables run s tables out).map (·.2) = (writeTables run s' tables' out).map (·.2) := by
  unfold writeTables
  dsimp only
  split
  · rename_i hint
    rw [htables hint]
    cases objfileSave run.order tables' with
    | none => rfl
    | some saved => exact congrArg some (writeTail_congr hext hoff hreloc)
  · exact congrArg some (writeTail_congr hext hoff hreloc)

/-- The true origin is set if the output is intermediate, and stays as it is if not. -/
theorem writeTables_trueOrigin (h : run.intermediate = true ∨ s.trueOrigin = s'.trueOrigin) :
    (writeTables run s tables out).map (·.1.trueOrigin) =
      (writeTables run s' tables' out).map (·.1.trueOrigin) := by
  unfold writeTables
  dsimp only
  split
  · rename_i hint
    rw [htables hint]
    cases objfileSave run.order tables' with
    | none => rfl
    | some saved => rfl
  · rename_i hint
    exact congrArg some (h.resolve_left hint)

end Tables

/-- The loops write the same, from globals that differ in what does not matter. -/
theorem aoutWriteWords_congr (hstart : s.start = s'.start)
    (hext : s.extensionData = s'.extensionData) (hoff : s.extensionOffset = s'.extensionOffset)
    (hreloc : run.relocatable = true → s.relocData = s'.relocData)
    (hoffset : s.codeOffset = s'.codeOffset ∨ OffsetUnread run s.start)
    (horigin : s.trueOrigin = s'.trueOrigin ∨ run.intermediate = true ∨
      ∀ e ∈ s.start, e.type ≠ .seek) :
    (aoutWriteWords run s).2.map (·.1.content) = (aoutWriteWords run s').2.map (·.1.content) := by
  have hscan : Agree (fun s s' => run.intermediate = true → s.tables = s'.tables)
      (aoutScan run s.codeOffset s.start s.start { outIndex := s.codeOffset.toNat })
      (aoutScan run s'.codeOffset s.start s.start { outIndex := s'.codeOffset.toNat }) := by
    rcases hoffset with hoffset | hplaced
    · exact aoutScan_agree true (fun e _ name _ => by rw [hoffset]) (fun h => by cases h)
        ⟨fun _ => rfl, rfl, rfl, fun _ => congrArg BitVec.toNat hoffset⟩
    · refine aoutScan_agree false (fun e hmem name hname => ?_)
        (fun _ => hplaced.records) ⟨fun _ => rfl, rfl, rfl, fun h => by cases h⟩
      refine labelAddress_congr (fun e₁ hmem₁ hnormal hlabel => ?_) _ _ false
      exact hplaced.labels e₁ hmem₁ hnormal name hlabel e hmem hname
  unfold aoutWriteWords
  rw [← hstart]
  revert hscan
  rcases hleft : aoutScan run s.codeOffset s.start s.start { outIndex := s.codeOffset.toNat } with
    err | ⟨entries, scan⟩ <;>
  rcases aoutScan run s'.codeOffset s.start s.start { outIndex := s'.codeOffset.toNat } with
    err' | ⟨entries', scan'⟩ <;> intro hscan
  · cases hscan
    rfl
  · exact hscan.elim
  · exact hscan.elim
  obtain ⟨rfl, htables⟩ := hscan
  dsimp only
  have hfile : (writeTables run { s with start := entries } scan.tables ⟨[], 0, false⟩).map (·.2) =
      (writeTables run { s' with start := entries } scan'.tables ⟨[], 0, false⟩).map (·.2) :=
    writeTables_congr htables hext hoff hreloc
  have htypes : (∀ e ∈ s.start, e.type ≠ .seek) → ∀ e ∈ entries, e.type ≠ .seek := by
    intro h e hmem
    have hmem' : e.type ∈ s.start.map (·.type) := by
      rw [← aoutScan_types hleft]
      exact List.mem_map_of_mem hmem
    obtain ⟨e', he', htype⟩ := List.mem_map.mp hmem'
    rw [← htype]
    exact h e' he'
  have hseek : (writeTables run { s with start := entries } scan.tables ⟨[], 0, false⟩).map
        (·.1.trueOrigin) =
      (writeTables run { s' with start := entries } scan'.tables ⟨[], 0, false⟩).map
        (·.1.trueOrigin) ∨ ∀ e ∈ entries, e.type ≠ .seek := by
    rcases horigin with h | h | h
    · exact Or.inl (writeTables_trueOrigin htables (Or.inr h))
    · exact Or.inl (writeTables_trueOrigin htables (Or.inl h))
    · exact Or.inr (htypes h)
  revert hfile hseek
  rcases writeTables run { s with start := entries } scan.tables ⟨[], 0, false⟩ with
    _ | ⟨s₁, out⟩ <;>
  rcases writeTables run { s' with start := entries } scan'.tables ⟨[], 0, false⟩ with
    _ | ⟨s₁', out'⟩ <;> intro hfile hseek
  · rfl
  · cases hfile
  · cases hfile
  · obtain rfl : out = out' := Option.some.inj hfile
    dsimp only
    rw [foldlM_writeEntry_congr (hseek.imp_left Option.some.inj)]
    dsimp only
    cases entries.foldlM (writeEntry run s₁'.trueOrigin) out <;> rfl

/-- **The same is written** with another code offset and another true origin, if they do not
matter. -/
theorem aoutWrite_congr (hstart : s.start = s'.start)
    (hoffset : s.codeOffset = s'.codeOffset ∨ OffsetUnread run s.start)
    (horigin : s.trueOrigin = s'.trueOrigin ∨ run.intermediate = true ∨
      ∀ e ∈ s.start, e.type ≠ .seek) :
    (aoutWrite run s).2.map (·.1.content) = (aoutWrite run s').2.map (·.1.content) := by
  have hplus (w : Word) : s.codeOffset + w = s'.codeOffset + w ∨ OffsetUnread run s.start :=
    hoffset.imp_left fun h => by rw [h]
  unfold aoutWrite aoutInit
  rw [← hstart]
  dsimp only
  cases (textnInit s.start ([], 0)).2 with
  | some err => rfl
  | none =>
    dsimp only
    by_cases hrelocatable : run.relocatable = true
    · rw [if_pos hrelocatable, if_pos hrelocatable]
      cases (trelocInit s.start 0 []).2 with
      | some err => rfl
      | none =>
        exact aoutWriteWords_congr rfl rfl rfl (fun _ => rfl)
          ((hplus _).imp_left (congrArg (· + _))) horigin
    · rw [if_neg hrelocatable, if_neg hrelocatable]
      exact aoutWriteWords_congr rfl rfl rfl (fun h => absurd h hrelocatable) (hplus _) horigin

end Output

/-! ### What a program leaves -/

/-- Whether assembling a program changes the code offset: it has a table of extensions or of
relocations, and there is no error up to there. -/
def AoutSource.offsetsCode (run : AoutRun) (source : AoutSource) : Bool :=
  !source.stops && (textnInit source.entries ([], 0)).2.isNone &&
    (source.entries.any (·.type = .extension) ||
      run.relocatable && (trelocInit source.entries 0 []).2.isNone)

/-- Whether assembling a program sets the true origin: the output is intermediate, and there is no
error before it is written. -/
def AoutSource.setsOrigin (run : AoutRun) (source : AoutSource) : Bool :=
  let s := aoutInit run { start := source.entries }
  let c := s.1.codeOffset
  run.intermediate && !source.stops && s.2.isNone &&
    (aoutScan run c source.entries source.entries { outIndex := c.toNat }).isOk

section Left

variable {run : AoutRun} {source : AoutSource}

/-- Without an extension there is no table of extensions. -/
theorem textnInit_of_not_any {entries : List AoutByte} {table : List String × Word}
    (h : entries.any (·.type = .extension) = false) :
    textnInit entries table = (table, none) := by
  induction entries with
  | nil => rfl
  | cons e entries ih =>
    rw [List.any_cons, Bool.or_eq_false_iff] at h
    rw [textnInit, if_neg (of_decide_eq_false h.1), ih h.2]

/-- Without a table of extensions or of relocations the code offset stays as it is. -/
theorem codeOffset_aoutInit {s : Aout} (hstart : s.start = source.entries)
    (hstops : source.stops = false) (h : source.offsetsCode run = false) :
    (aoutInit run s).1.codeOffset = s.codeOffset := by
  unfold AoutSource.offsetsCode at h
  rw [hstops, Bool.not_false, Bool.true_and] at h
  unfold aoutInit
  rw [hstart]
  dsimp only
  cases hext : (textnInit source.entries ([], 0)).2 with
  | some err => rfl
  | none =>
    rw [hext, Option.isNone_none, Bool.true_and, Bool.or_eq_false_iff] at h
    have hoffset : s.codeOffset + textnOffset (textnInit source.entries ([], 0)).1 =
        s.codeOffset := by
      rw [textnInit_of_not_any h.1]
      exact BitVec.add_zero _
    dsimp only
    split
    · rename_i hrelocatable
      rw [hrelocatable, Bool.true_and] at h
      cases hreloc : (trelocInit source.entries 0 []).2 with
      | some err => exact hoffset
      | none =>
        rw [hreloc] at h
        cases h.2
    · exact hoffset

theorem aoutInit_keeps (s : Aout) :
    (aoutInit run s).1.start = s.start ∧ (aoutInit run s).1.trueOrigin = s.trueOrigin := by
  unfold aoutInit
  dsimp only
  split
  · exact ⟨rfl, rfl⟩
  · split
    · split <;> exact ⟨rfl, rfl⟩
    · exact ⟨rfl, rfl⟩

/-- Of the globals `aout_write` sets the true origin when it writes, if the output is
intermediate. -/
theorem writeTables_globals {s s₁ : Aout} {tables : Table → List LprovEntry} {out out₁ : File}
    (h : writeTables run s tables out = some (s₁, out₁)) :
    s₁.start = s.start ∧ s₁.codeOffset = s.codeOffset ∧
      (run.intermediate = false → s₁.trueOrigin = s.trueOrigin) := by
  unfold writeTables at h
  dsimp only at h
  split at h
  · rename_i hint
    obtain ⟨saved, -, hsaved⟩ := Option.map_eq_some_iff.mp h
    cases hsaved
    exact ⟨rfl, rfl, fun hfalse => by rw [hint] at hfalse; cases hfalse⟩
  · cases h
    exact ⟨rfl, rfl, fun _ => rfl⟩

/-- The loops keep the number of entries and the code offset. -/
theorem aoutWriteWords_keeps (s : Aout) :
    (aoutWriteWords run s).1.start.length = s.start.length ∧
      (aoutWriteWords run s).1.codeOffset = s.codeOffset := by
  unfold aoutWriteWords
  split
  · exact ⟨rfl, rfl⟩
  · rename_i entries scan hscan
    have hlength : entries.length = s.start.length := by
      have h := congrArg List.length (aoutScan_types hscan)
      rwa [List.length_map, List.length_map] at h
    dsimp only
    split
    · exact ⟨hlength, rfl⟩
    · rename_i s₁ out₁ htables
      obtain ⟨hstart, hoffset, -⟩ := writeTables_globals htables
      exact ⟨by rw [hstart]; exact hlength, hoffset⟩

/-- They set the true origin only if the output is intermediate and there is no error in the
first. -/
theorem trueOrigin_aoutWriteWords {s : Aout}
    (h : run.intermediate = false ∨
      (aoutScan run s.codeOffset s.start s.start { outIndex := s.codeOffset.toNat }).isOk = false) :
    (aoutWriteWords run s).1.trueOrigin = s.trueOrigin := by
  unfold aoutWriteWords
  split
  · rfl
  · rename_i entries scan hscan
    rw [hscan] at h
    dsimp only
    split
    · rfl
    · rename_i s₁ out₁ htables
      obtain ⟨-, -, horigin⟩ := writeTables_globals htables
      exact horigin (h.resolve_right fun hfalse => by cases hfalse)

/-- As many entries are left as were emitted. -/
theorem length_start_assemble (run : AoutRun) (source : AoutSource) :
    (assemble run source {}).1.start.length = source.entries.length := by
  unfold assemble
  dsimp only
  split
  · rfl
  · unfold aoutWrite
    have hkeeps := (@aoutInit_keeps run { start := [] ++ source.entries }).1
    split
    · rename_i s err hinit
      rw [hinit] at hkeeps
      exact congrArg List.length hkeeps
    · rename_i s hinit
      rw [hinit] at hkeeps
      rw [(aoutWriteWords_keeps s).1]
      exact congrArg List.length hkeeps

/-- What the code offset is left at. -/
theorem codeOffset_assemble (h : source.offsetsCode run = false) :
    (assemble run source {}).1.codeOffset = 0 := by
  unfold assemble
  dsimp only
  split
  · rfl
  · rename_i hstops
    unfold aoutWrite
    have hkeeps := @codeOffset_aoutInit run source { start := [] ++ source.entries } rfl
      (Bool.eq_false_of_not_eq_true hstops) h
    split
    · rename_i s err hinit
      rw [hinit] at hkeeps
      exact hkeeps
    · rename_i s hinit
      rw [hinit] at hkeeps
      rw [(aoutWriteWords_keeps s).2]
      exact hkeeps

/-- What the true origin is left at. -/
theorem trueOrigin_assemble (h : source.setsOrigin run = false) :
    (assemble run source {}).1.trueOrigin = 0 := by
  unfold assemble
  dsimp only
  split
  · rfl
  · rename_i hstops
    unfold aoutWrite
    have hkeeps := @aoutInit_keeps run { start := [] ++ source.entries }
    unfold AoutSource.setsOrigin at h
    rw [Bool.eq_false_of_not_eq_true hstops] at h
    split
    · rename_i s err hinit
      rw [hinit] at hkeeps
      exact hkeeps.2
    · rename_i s hinit
      rw [hinit] at hkeeps
      obtain ⟨hstart, horigin⟩ := hkeeps
      refine (trueOrigin_aoutWriteWords ?_).trans horigin
      have hinit' : aoutInit run { start := source.entries } = (s, none) := hinit
      have hstart' : s.start = source.entries := hstart
      rw [hinit'] at h
      rw [hstart']
      refine (Bool.eq_false_or_eq_true run.intermediate).symm.imp_right fun hint => ?_
      simpa [hint] using h

end Left

/-- The bytes that are written for a second program, after a first one and `aout_reset`. -/
def assembledAfter (runP : AoutRun) (p : AoutSource) (runQ : AoutRun) (q : AoutSource) :
    Option (Except AoutError (List UInt8)) :=
  (aoutReset (assemble runP p {}).1).map (assembled runQ q)

/-- **A program is assembled after another as in a fresh process**, if the first has not one
entry, and what it leaves is 0 or not read: the code offset in front of the first `.ORIGIN` or
`.SEEK`, and the true origin by a `.SEEK` in output that is not intermediate. -/
theorem assembledAfter_eq_assembled (runP runQ : AoutRun) (p q : AoutSource)
    (hone : p.entries.length ≠ 1)
    (hoffset : q.stops = true ∨ p.offsetsCode runP = false ∨ OffsetUnread runQ q.entries)
    (horigin : q.stops = true ∨ p.setsOrigin runP = false ∨ runQ.intermediate = true ∨
      ∀ e ∈ q.entries, e.type ≠ .seek) :
    assembledAfter runP p runQ q = some (assembled runQ q {}) := by
  unfold assembledAfter aoutReset
  rw [length_start_assemble, if_neg hone]
  refine congrArg some ?_
  unfold assembled assemble
  dsimp only
  cases hstops : q.stops with
  | true => rfl
  | false =>
    rw [hstops] at hoffset horigin
    refine aoutWrite_congr rfl ?_ ?_
    · exact (hoffset.resolve_left Bool.false_ne_true).imp_left codeOffset_assemble
    · exact (horigin.resolve_left Bool.false_ne_true).imp_left trueOrigin_assemble

/-- `DAT 1, 2`. -/
def twoWords : AoutSource := ⟨[aoutCreateRaw 1, aoutCreateRaw 2], false⟩

/-- `:a DAT a`. -/
def ownAddress : AoutSource := ⟨[aoutCreateLabel "a", aoutCreateExpr (.label "a")], false⟩

/-- `:a DAT a` behind `.ORIGIN 0x10`. -/
def ownAddressPlaced : AoutSource :=
  ⟨{ type := .origin, opcode := 0x10 } :: ownAddress.entries, false⟩

theorem assembledAfter_eq_assembled_ownAddressPlaced :
    assembledAfter { relocatable := true } twoWords {} ownAddressPlaced =
      some (assembled {} ownAddressPlaced {}) :=
  assembledAfter_eq_assembled _ _ _ _ (by decide)
    (Or.inr (Or.inr ⟨(fun e hmem => by cases hmem), (fun _ e hmem => by cases hmem)⟩))
    (Or.inr (Or.inl rfl))

/-- A word is at the address 0, and behind the table of relocations of the program before it. -/
theorem not_forall_assembledAfter_eq :
    ¬ ∀ (runP runQ : AoutRun) (p q : AoutSource),
      assembledAfter runP p runQ q = some (assembled runQ q {}) := by
  intro h
  have hfresh : assembled {} ownAddress {} = .ok [0, 0] := by decide +kernel
  have hafter : assembledAfter { relocatable := true } twoWords {} ownAddress =
      some (.ok [0, 5]) := by decide +kernel
  have hsame := h { relocatable := true } {} twoWords ownAddress
  rw [hfresh, hafter] at hsame
  revert hsame
  decide

end DcpuToolchain
