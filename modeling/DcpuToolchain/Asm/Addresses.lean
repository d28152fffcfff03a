import DcpuToolchain.Asm.Reset

/-!
# Addresses of words

Addresses are counted by three walks over the entries of a program: by `aout_get_label_address` for
the labels, by the first loop of `aout_write` for the tables of the linker, and in the second loop,
where they are positions in the file. In a program without `.ORIGIN` an address that is counted
should be the index in the image of the next word that is written.

The first two count neither the words that `.INCBIN` includes nor more than 16 bits, and know
nothing of a `.SEEK` that comes before the next word; and the true origin, from which `.SEEK`
counts in the file, has 16 bits as well. Otherwise the walks agree
(`DcpuToolchain.addressesRight_iff`).
-/

namespace DcpuToolchain

open Codec Stdio

/-! ### Where words are written -/

/-- Whether words are written for an entry. -/
def AoutByte.writes (run : AoutRun) (e : AoutByte) : Bool :=
  match e.type with
  | .normal => e.label.isNone
  | .incbin => (e.label.bind run.incbin).any fun content => !content.isEmpty
  | _ => false

/-- The index of a word in the image, counted from the true origin. -/
def imageIndex (trueOrigin : Word) (out : File) : ℕ := (out.pos - trueOrigin.toNat) / 2

/-- The index of the next word that the second loop writes. -/
def nextIndex (run : AoutRun) (trueOrigin : Word) :
    File → List AoutByte → Except AoutError ℕ
  | out, [] => .ok (imageIndex trueOrigin out)
  | out, e :: entries =>
    if e.writes run then .ok (imageIndex trueOrigin out)
    else
      match writeEntry run trueOrigin out e with
      | .error err => .error err
      | .ok out => nextIndex run trueOrigin out entries

/-- For each entry, the index of the next word from there on. -/
def nextIndices (run : AoutRun) (trueOrigin : Word) :
    File → List AoutByte → Except AoutError (List ℕ)
  | _, [] => .ok []
  | out, e :: entries =>
    match nextIndex run trueOrigin out (e :: entries), writeEntry run trueOrigin out e with
    | .ok i, .ok out => (nextIndices run trueOrigin out entries).map (i :: ·)
    | .error err, _ | _, .error err => .error err

/-- The addresses of a program, and where its words are. -/
structure AoutLayout where
  codeOffset : Word
  tables : Table → List LprovEntry
  indices : List ℕ

/-- `aout_write` as far as addresses go, in a new process. -/
def aoutLayout (run : AoutRun) (source : AoutSource) : Except AoutError AoutLayout :=
  match aoutInit run { start := source.entries } with
  | (_, some err) => .error err
  | (s, none) =>
    match aoutScan run s.codeOffset s.start s.start { outIndex := s.codeOffset.toNat } with
    | .error err => .error err
    | .ok (entries, scan) =>
      match writeTables run { s with start := entries } scan.tables ⟨[], 0, false⟩ with
      | none => .error .undefined
      | some (s', out) =>
        (nextIndices run s'.trueOrigin out entries).map fun indices =>
          ⟨s.codeOffset, scan.tables, indices⟩

/-! ### What should be there -/

/-- The entry defines a label. -/
def AoutByte.defines (e : AoutByte) (name : String) : Bool :=
  e.type = .normal && e.label = some name

/-- The record that is made for an entry: its table, its label, and the label whose address it
has, if that is not where the entry is. -/
def AoutByte.mark (run : AoutRun) (start : List AoutByte) (e : AoutByte) :
    Option (Table × Option String × Option String) :=
  match e.type with
  | .sections => some (.section, e.label, none)
  | .output => some (.output, e.label, none)
  | .call => some (.call, e.label, none)
  | .exports => e.label.map fun name => (.provided, some name, some name)
  | .jump => some (.jump, e.label, e.label)
  | .normal =>
    match e.expr with
    | some (.label name) =>
      match findImport run name start with
      | .ok (some found) =>
        some (if found.type = .imports then .required else .optional, found.label, none)
      | _ => some (.adjustment, none, none)
    | _ => none
  | _ => none

/-- The index of the next word behind a label. -/
def labelIndex (name : String) (indexed : List (AoutByte × ℕ)) : Option ℕ :=
  (indexed.find? fun p => p.1.defines name).map (·.2)

/-- The records of a table: labels with addresses, where those of places and of labels are
given. -/
def recordsWith (run : AoutRun) (start : List AoutByte) (address : String → Option ℕ)
    (indexed : List (AoutByte × ℕ)) (t : Table) : List (Option CString × Option ℕ) :=
  indexed.filterMap fun p => (p.1.mark run start).bind fun (table, label, name) =>
    if table = t then some (label.map (·.toUTF8.data.toList), name.elim (some p.2) address)
    else none

/-- **Addresses are those of the image**: a label has the index of the next word behind it, and
a record of the linker that of the next word from its entry on, or of the label it names. -/
def AddressesRight (run : AoutRun) (source : AoutSource) : Prop :=
  ∀ layout, aoutLayout run source = .ok layout →
    (∀ name a, aoutGetLabelAddress layout.codeOffset source.entries name = .ok a →
      labelIndex name (source.entries.zip layout.indices) = some a.toNat) ∧
    (run.intermediate = true → ∀ t,
      (layout.tables t).reverse.map (fun r => (r.label, some r.address.toNat)) =
        recordsWith run source.entries (labelIndex · (source.entries.zip layout.indices))
          (source.entries.zip layout.indices) t)

/-! ### The second loop -/

/-- An entry as the front end creates it, and as the first loop leaves it: no word is given for a
label. -/
def AoutByte.Plain (e : AoutByte) : Prop :=
  e.type = .normal → e.label ≠ none → e.rawUsed = false ∧ e.expr = none

/-- What the first loop makes of an entry. -/
structure AoutByte.Evaluates (e e' : AoutByte) : Prop where
  type : e'.type = e.type
  label : e'.label = e.label
  opcode : e'.opcode = e.opcode
  plain : e.Plain → e'.Plain

/-- The bytes that an entry includes. -/
def AoutByte.content (run : AoutRun) (e : AoutByte) : List UInt8 :=
  (e.label.bind run.incbin).getD []

/-- The index in the image behind an entry. -/
def AoutByte.indexBehind (run : AoutRun) (w : ℕ) (e : AoutByte) : ℕ :=
  match e.type with
  | .seek => e.opcode.toNat
  | .incbin => w + (e.content run).length / 2
  | _ => w + e.words

/-- The index of the next word. -/
def nextWord (run : AoutRun) : ℕ → List AoutByte → ℕ
  | w, [] => w
  | w, e :: entries =>
    if e.writes run then w else nextWord run (e.indexBehind run w) entries

/-- For each entry, the index of the next word from there on. -/
def nextWords (run : AoutRun) : ℕ → List AoutByte → List ℕ
  | _, [] => []
  | w, e :: entries => nextWord run w (e :: entries) :: nextWords run (e.indexBehind run w) entries

section Writing

variable {run : AoutRun} {t : Word} {out out' : File} {e e' : AoutByte} {w : ℕ}

theorem pos_iwrite (m : Imodes) (v : Word) (out : File) : (iwrite m v out).pos = out.pos + 2 := by
  rw [iwrite, File.fwrite_pos, m.bytes_length]

/-- The position that the file has when the index is `w`. -/
theorem writeEntry_pos (hplain : e.Plain) (heven : e.type = .incbin → Even (e.content run).length)
    (hpos : out.pos = t.toNat + 2 * w) (h : writeEntry run t out e = .ok out') :
    out'.pos = t.toNat + 2 * e.indexBehind run w := by
  unfold writeEntry at h
  unfold AoutByte.indexBehind AoutByte.words
  cases htype : e.type <;> rw [htype] at h <;> dsimp only at h ⊢
  case seek =>
    cases h
    rw [Nat.mul_comm]
    rfl
  case incbin =>
    obtain ⟨k, hk⟩ := heven htype
    unfold AoutByte.content at hk ⊢
    split at h
    · cases h
    · rename_i content hcontent
      cases h
      rw [hcontent, Option.getD_some] at hk ⊢
      rw [File.fwrite_pos, hpos]
      omega
  case normal =>
    cases hlabel : e.label with
    | none =>
      rw [hlabel, if_pos rfl] at h
      rw [if_pos ⟨rfl, rfl⟩]
      split at h <;> cases h <;> rw [pos_iwrite, hpos] <;> omega
    | some name =>
      obtain ⟨hraw, -⟩ := hplain htype (by rw [hlabel]; exact Option.some_ne_none name)
      rw [hraw, hlabel, if_neg Bool.false_ne_true, if_neg (Option.some_ne_none name)] at h
      cases h
      rw [if_neg fun hnone => Option.some_ne_none name hnone.2]
      exact hpos
  all_goals
    cases h
    rw [if_neg fun hnormal => by cases hnormal.1]
    exact hpos

theorem imageIndex_eq (hpos : out.pos = t.toNat + 2 * w) : imageIndex t out = w := by
  unfold imageIndex
  omega

/-- What the entries of a program are like that is assembled. -/
structure AoutByte.Fits (run : AoutRun) (e : AoutByte) : Prop where
  plain : e.Plain
  even : e.type = .incbin → Even (e.content run).length

theorem nextIndex_eq {entries : List AoutByte} (hfits : ∀ e ∈ entries, e.Fits run)
    (hpos : out.pos = t.toNat + 2 * w) {i : ℕ} (h : nextIndex run t out entries = .ok i) :
    i = nextWord run w entries := by
  induction entries generalizing out w with
  | nil =>
    cases h
    exact imageIndex_eq hpos
  | cons e entries ih =>
    obtain ⟨he, hentries⟩ := List.forall_mem_cons.mp hfits
    unfold nextIndex at h
    unfold nextWord
    split at h
    · rename_i hwrites
      cases h
      rw [if_pos hwrites]
      exact imageIndex_eq hpos
    · rename_i hwrites
      rw [if_neg hwrites]
      split at h
      · cases h
      · rename_i out' hout
        exact ih hentries (writeEntry_pos he.plain he.even hpos hout) h

theorem nextIndices_eq {entries : List AoutByte} (hfits : ∀ e ∈ entries, e.Fits run)
    (hpos : out.pos = t.toNat + 2 * w) {indices : List ℕ}
    (h : nextIndices run t out entries = .ok indices) : indices = nextWords run w entries := by
  induction entries generalizing out w indices with
  | nil =>
    cases h
    rfl
  | cons e entries ih =>
    obtain ⟨he, hentries⟩ := List.forall_mem_cons.mp hfits
    unfold nextIndices at h
    split at h
    · rename_i i out' hi hout
      cases hrest : nextIndices run t out' entries with
      | error err =>
        rw [hrest] at h
        cases h
      | ok rest =>
        rw [hrest] at h
        cases h
        rw [nextWords, nextIndex_eq hfits hpos hi,
          ih hentries (writeEntry_pos he.plain he.even hpos hout) hrest]
    · cases h
    · cases h

/-- The indices do not depend on what the first loop evaluates. -/
theorem AoutByte.Evaluates.indexBehind (h : e.Evaluates e') (w : ℕ) :
    e'.indexBehind run w = e.indexBehind run w := by
  unfold AoutByte.indexBehind AoutByte.words AoutByte.content
  rw [h.type, h.label, h.opcode]

theorem AoutByte.Evaluates.writes (h : e.Evaluates e') : e'.writes run = e.writes run := by
  unfold AoutByte.writes
  rw [h.type, h.label]

theorem nextWord_evaluates {entries entries' : List AoutByte}
    (h : List.Forall₂ AoutByte.Evaluates entries entries') (w : ℕ) :
    nextWord run w entries' = nextWord run w entries := by
  induction h generalizing w with
  | nil => rfl
  | cons he _ ih => rw [nextWord, nextWord, he.writes, he.indexBehind, ih]

theorem nextWords_evaluates {entries entries' : List AoutByte}
    (h : List.Forall₂ AoutByte.Evaluates entries entries') (w : ℕ) :
    nextWords run w entries' = nextWords run w entries := by
  induction h generalizing w with
  | nil => rfl
  | cons he hrest ih =>
    rw [nextWords, nextWords, he.indexBehind, ih, nextWord_evaluates (hrest.cons he)]

theorem AoutByte.Evaluates.fits (h : e.Evaluates e') (hfits : e.Fits run) : e'.Fits run := by
  refine ⟨h.plain hfits.plain, fun htype => ?_⟩
  unfold AoutByte.content
  rw [h.label]
  exact hfits.even (h.type.symm.trans htype)

end Writing

/-! ### The first loop -/

/-- The address that is counted behind an entry. -/
def AoutByte.countBehind (n : ℕ) (e : AoutByte) : ℕ :=
  if e.places then e.opcode.toNat else n + e.words

/-- For each entry, the address at which it is counted. -/
def counts : ℕ → List AoutByte → List ℕ
  | _, [] => []
  | n, e :: entries => n % 0x10000 :: counts (e.countBehind n) entries

/-- A record as label and address. -/
def LprovEntry.read (r : LprovEntry) : Option CString × Option ℕ := (r.label, some r.address.toNat)

section Scan

variable {run : AoutRun} {c : Word} {start : List AoutByte} {e e' : AoutByte} {s s' : AoutScan}

theorem recordsWith_cons (address : String → Option ℕ) (p : AoutByte × ℕ)
    (indexed : List (AoutByte × ℕ)) (t : Table) :
    recordsWith run start address (p :: indexed) t =
      recordsWith run start address [p] t ++ recordsWith run start address indexed t := by
  unfold recordsWith
  rw [← List.filterMap_append, List.singleton_append]

theorem recordsWith_of_mark {address : String → Option ℕ} {n : ℕ} {mark : Option _}
    (h : e.mark run start = mark) (t : Table) :
    recordsWith run start address [(e, n)] t = (mark.bind fun (table, label, name) =>
      if table = t then some (label.map (·.toUTF8.data.toList), name.elim (some n) address)
      else none).toList := by
  subst h
  unfold recordsWith
  rw [List.filterMap_cons, List.filterMap_nil]
  dsimp only
  split
  · rename_i hnone
    rw [hnone, Option.toList_none]
  · rename_i r hsome
    rw [hsome, Option.toList_some]

/-- What a record adds to the tables. -/
theorem reverse_record (t₀ : Table) (label : Option String) (n : ℕ) (t : Table) :
    (((s.record t₀ label n).tables t).reverse.map LprovEntry.read) =
      (s.tables t).reverse.map LprovEntry.read ++
        (if t₀ = t then some (label.map (·.toUTF8.data.toList), some (n % 0x10000))
          else none).toList := by
  unfold AoutScan.record
  dsimp only
  by_cases ht : t₀ = t
  · subst ht
    rw [Function.update_self, if_pos rfl, List.reverse_cons, List.map_append]
    rfl
  · rw [Function.update_of_ne (Ne.symm ht), if_neg ht, Option.toList_none, List.append_nil]

/-- The address of a label as a number. -/
def addressOf (c : Word) (start : List AoutByte) (name : String) : Option ℕ :=
  (aoutGetLabelAddress c start name).toOption.map (·.toNat)

/-- What a turn of the first loop does: it evaluates the entry, and adds the record of its
mark. -/
structure Turns (run : AoutRun) (c : Word) (start : List AoutByte) (e e' : AoutByte)
    (s s' : AoutScan) : Prop where
  evaluates : e.Evaluates e'
  outIndex : s'.outIndex = if e.places then e.opcode.toNat else s.outIndex
  tables : ∀ t, (s'.tables t).reverse.map LprovEntry.read =
    (s.tables t).reverse.map LprovEntry.read ++
      recordsWith run start (addressOf c start) [(e, s.outIndex % 0x10000)] t

theorem AoutByte.Evaluates.refl (e : AoutByte) : e.Evaluates e := ⟨rfl, rfl, rfl, id⟩

/-- A turn that records the address of its entry. -/
theorem Turns.record_here {t₀ : Table} {label : Option String} {b : Bool}
    (hmark : e.mark run start = some (t₀, label, none)) (he : e.Evaluates e')
    (hplaces : e.places = false) :
    Turns run c start e e' s ({ s with hasOutput := b }.record t₀ label s.outIndex) := by
  refine ⟨he, by rw [if_neg (by rw [hplaces]; exact Bool.false_ne_true)]; rfl, fun t => ?_⟩
  rw [reverse_record, recordsWith_of_mark hmark]
  rfl

/-- A turn that records the address of a label. -/
theorem Turns.record_label {t₀ : Table} {name : String} {a : Word}
    (hmark : e.mark run start = some (t₀, some name, some name))
    (ha : aoutGetLabelAddress c start name = .ok a) (hplaces : e.places = false) :
    Turns run c start e e s (s.record t₀ (some name) a.toNat) := by
  refine ⟨.refl e, by rw [if_neg (by rw [hplaces]; exact Bool.false_ne_true)]; rfl, fun t => ?_⟩
  rw [reverse_record, recordsWith_of_mark hmark]
  have haddress : addressOf c start name = some (a.toNat % 0x10000) := by
    rw [addressOf, ha, Nat.mod_eq_of_lt a.isLt]
    rfl
  dsimp only [Option.bind_some, Option.elim_some]
  rw [haddress]

/-- A turn that records nothing. -/
theorem Turns.silent (hmark : e.mark run start = none) (he : e.Evaluates e')
    (hindex : s'.outIndex = if e.places then e.opcode.toNat else s.outIndex)
    (htables : s'.tables = s.tables) : Turns run c start e e' s s' := by
  refine ⟨he, hindex, fun t => ?_⟩
  rw [htables, recordsWith_of_mark hmark, Option.bind_none, Option.toList_none, List.append_nil]

/-- What an entry is when its expression has been evaluated. -/
theorem AoutByte.evaluates_expr {expr : Expr} (hexpr : e.expr = some expr) (rawUsed : Bool)
    (raw : Word) : e.Evaluates { e with rawUsed := rawUsed, raw := raw, expr := none } := by
  refine ⟨rfl, rfl, rfl, fun hplain htype hlabel => ?_⟩
  have hnone := (hplain htype hlabel).2
  rw [hexpr] at hnone
  cases hnone

theorem AoutByte.mark_label {name : String} (htype : e.type = .normal)
    (hexpr : e.expr = some (.label name)) : e.mark run start =
      match findImport run name start with
      | .ok (some found) =>
        some (if found.type = .imports then .required else .optional, found.label, none)
      | _ => some (.adjustment, none, none) := by
  unfold AoutByte.mark
  rw [htype, hexpr]

theorem AoutByte.mark_other {expr : Expr} (htype : e.type = .normal) (hexpr : e.expr = some expr)
    (hother : ∀ name, expr ≠ .label name) : e.mark run start = none := by
  unfold AoutByte.mark
  rw [htype, hexpr]
  cases expr with
  | label name => exact absurd rfl (hother name)
  | _ => rfl

theorem scanExpr_turns {expr : Expr} (htype : e.type = .normal) (hexpr : e.expr = some expr)
    (h : scanExpr run c start s e expr = .ok (e', s')) : Turns run c start e e' s s' := by
  have hplaces : e.places = false := by
    unfold AoutByte.places
    rw [htype]
    rfl
  unfold scanExpr at h
  split at h
  · have hmark := @AoutByte.mark_label run start e _ htype hexpr
    split at h
    · cases h
    · rename_i found hfound
      cases h
      rw [hfound] at hmark
      exact .record_here hmark (e.evaluates_expr hexpr _ _) hplaces
    · rename_i hfound
      rw [hfound] at hmark
      split at h <;> cases h
      exact .record_here hmark (e.evaluates_expr hexpr _ _) hplaces
  · rename_i hother
    have hmark := @AoutByte.mark_other run start e _ htype hexpr
      fun name hname => hother name hname
    dsimp only at h
    split at h
    · cases h
    · split at h <;> cases h
      exact .silent hmark (e.evaluates_expr hexpr _ _)
        (by rw [hplaces, if_neg Bool.false_ne_true]) rfl

/-- **What a turn of the first loop does.** -/
theorem scanEntry_turns (h : scanEntry run c start s e = .ok (e', s')) :
    Turns run c start e e' s s' := by
  have hmark : e.mark run start = e.mark run start := rfl
  conv at hmark => rhs; unfold AoutByte.mark
  have hplaces : e.places = (e.type = .origin || e.type = .seek) := rfl
  unfold scanEntry at h
  cases htype : e.type <;> rw [htype] at h hmark hplaces <;> dsimp only at h hmark
  case origin =>
    split at h <;> cases h
    exact .silent hmark (.refl e) (by rw [hplaces]; rfl) rfl
  case seek =>
    cases h
    exact .silent hmark (.refl e) (by rw [hplaces]; rfl) rfl
  case normal =>
    split at h
    · rename_i hexpr
      cases h
      rw [hexpr] at hmark
      exact .silent hmark (.refl e) (by rw [hplaces]; rfl) rfl
    · rename_i expr hexpr
      exact scanExpr_turns htype hexpr h
  case sections =>
    obtain ⟨rfl, h⟩ := linkerDirective_ok h
    split at h <;> cases h
    exact .record_here hmark (.refl _) hplaces
  case output | call =>
    obtain ⟨rfl, h⟩ := linkerDirective_ok h
    cases h
    exact .record_here hmark (.refl _) hplaces
  case exports =>
    obtain ⟨rfl, h⟩ := linkerDirective_ok h
    cases hlabel : e'.label with
    | none =>
      rw [hlabel] at h
      cases h
    | some name =>
      rw [hlabel] at h hmark
      dsimp only at h
      cases ha : aoutGetLabelAddress c start name with
      | error err =>
        rw [ha] at h
        cases h
      | ok a =>
        rw [ha] at h
        cases h
        exact .record_label hmark ha hplaces
  case jump =>
    obtain ⟨rfl, h⟩ := linkerDirective_ok h
    cases hlabel : e'.label with
    | none =>
      rw [hlabel] at h hmark
      cases h
      exact .record_here hmark (.refl _) hplaces
    | some name =>
      rw [hlabel] at h hmark
      dsimp only at h
      cases ha : aoutGetLabelAddress c start name with
      | error err =>
        rw [ha] at h
        cases h
      | ok a =>
        rw [ha] at h
        cases h
        exact .record_label hmark ha hplaces
  all_goals
    cases h
    exact .silent hmark (.refl e) (by rw [hplaces]; rfl) rfl

/-- **What the first loop does.** -/
theorem aoutScan_turns {entries entries' : List AoutByte}
    (h : aoutScan run c start entries s = .ok (entries', s')) :
    List.Forall₂ AoutByte.Evaluates entries entries' ∧
      ∀ t, (s'.tables t).reverse.map LprovEntry.read =
        (s.tables t).reverse.map LprovEntry.read ++
          recordsWith run start (addressOf c start) (entries.zip (counts s.outIndex entries))
            t := by
  induction entries generalizing s s' entries' with
  | nil =>
    cases h
    exact ⟨.nil, fun t => (List.append_nil _).symm⟩
  | cons e entries ih =>
    unfold aoutScan at h
    split at h
    · cases h
    · rename_i e₁ s₁ hentry
      split at h
      · cases h
      · rename_i entries₁ s₂ hrest
        cases h
        have hturn := scanEntry_turns hentry
        obtain ⟨hevaluates, htables⟩ := ih hrest
        refine ⟨.cons hturn.evaluates hevaluates, fun t => ?_⟩
        have hindex : s₁.outIndex + e.words = e.countBehind s.outIndex := by
          rw [hturn.outIndex]
          unfold AoutByte.countBehind
          split
          -- an entry that places the next one takes no words itself
          · rename_i hplaces
            have hwords : e.words = 0 := by
              unfold AoutByte.words
              rw [if_neg]
              rintro ⟨htype, -⟩
              unfold AoutByte.places at hplaces
              rw [htype] at hplaces
              cases hplaces
            rw [hwords]
            rfl
          · rfl
        have htables' := htables t
        rw [hindex] at htables'
        rw [htables', hturn.tables, counts, List.zip_cons_cons, List.append_assoc,
          ← recordsWith_cons]

end Scan

end DcpuToolchain
