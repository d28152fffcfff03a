import DcpuToolchain.Asm.Headers
import Mathlib.Data.List.Sort

/-!
# The table of relocations

The table says which words of an image hold the address of a label. `treloc_init` lists them before
anything is evaluated or written: it walks over the entries and counts the words, itself included,
up to each entry that is a label. So the first word behind the header has number 1.

It counts neither what `.INCBIN` includes nor what `.SEEK` leaves out, and its numbers have 16
bits. As long as no `.SEEK` goes back, the table is right if the words that are counted fill the
file up to each label (`DcpuToolchain.relocatesRight_iff`).
-/

namespace DcpuToolchain

open Codec Stdio

/-! ### Where words are written -/

/-- For each entry, where the file is when the second loop comes to it. -/
def writePlaces (run : AoutRun) (trueOrigin : Word) :
    File → List AoutByte → Except AoutError (List ℕ)
  | _, [] => .ok []
  | out, e :: entries =>
    match writeEntry run trueOrigin out e with
    | .error err => .error err
    | .ok out' => (writePlaces run trueOrigin out' entries).map (out.pos :: ·)

/-- A table of relocations, and where what it is about has been written. -/
structure RelocLayout where
  relocData : List Word
  trueOrigin : Word
  headerEnd : ℕ
  places : List ℕ
  deriving DecidableEq

/-- `aout_write` as far as relocations go, in a new process. -/
def relocLayout (run : AoutRun) (source : AoutSource) : Except AoutError RelocLayout :=
  match aoutInit run { start := source.entries } with
  | (_, some err) => .error err
  | (s, none) =>
    match aoutScan run s.codeOffset s.start s.start { outIndex := s.codeOffset.toNat } with
    | .error err => .error err
    | .ok (entries, scan) =>
      match writeTables run { s with start := entries } scan.tables ⟨[], 0, false⟩ with
      | none => .error .undefined
      | some (s', out) =>
        (writePlaces run s'.trueOrigin out entries).map fun places =>
          ⟨s'.relocData, s'.trueOrigin, out.pos, places⟩

/-- How many bytes are written for an entry. -/
def AoutByte.length (run : AoutRun) (e : AoutByte) : ℕ :=
  if e.type = .incbin then (e.content run).length else 2 * e.words

/-- The word of a label is at a position, and nothing of it has been written over. -/
def LabelHeld (run : AoutRun) : List (AoutByte × ℕ) → ℕ → Prop
  | [], _ => False
  | (e, p) :: rest, pos =>
    (e.refers = true ∧ p = pos ∧
      ∀ q ∈ rest, q.1.length run = 0 ∨ q.2 + q.1.length run ≤ pos ∨ pos + 2 ≤ q.2) ∨
      LabelHeld run rest pos

/-- **The relocations are right**: in increasing order the table lists the words of labels, counted
from the end of the header on, where the first one has a constant as its number. -/
def RelocatesRight (constant : ℤ) (run : AoutRun) (source : AoutSource) : Prop :=
  run.relocatable = true → ∀ layout, relocLayout run source = .ok layout →
    layout.relocData.Pairwise (·.toNat < ·.toNat) ∧
      ∀ pos : ℤ,
        (∃ x ∈ layout.relocData, pos = layout.headerEnd + 2 * (x.toNat - constant)) ↔
          ∃ p : ℕ, pos = p ∧ LabelHeld run (source.entries.zip layout.places) p

/-! ### Positions -/

/-- The position behind an entry. -/
def AoutByte.posBehind (run : AoutRun) (t : Word) (p : ℕ) (e : AoutByte) : ℕ :=
  if e.type = .seek then t.toNat + 2 * e.opcode.toNat else p + e.length run

/-- For each entry, its position. -/
def entryPlaces (run : AoutRun) (t : Word) : ℕ → List AoutByte → List ℕ
  | _, [] => []
  | p, e :: entries => p :: entryPlaces run t (e.posBehind run t p) entries

/-- For each label, what `treloc_init` counts up to it, and its position. -/
def labelPlaces (run : AoutRun) (t : Word) : ℕ → ℕ → List AoutByte → List (ℕ × ℕ)
  | _, _, [] => []
  | n, p, e :: entries =>
    let rest := labelPlaces run t (n + e.words) (e.posBehind run t p) entries
    if e.refers then (n + e.words, p) :: rest else rest

/-- No `.SEEK` goes back. -/
def Forward (run : AoutRun) (t : Word) : ℕ → List AoutByte → Prop
  | _, [] => True
  | p, e :: entries => p ≤ e.posBehind run t p ∧ Forward run t (e.posBehind run t p) entries

/-- **The counts are right**: in increasing order they stand for the places of the words of labels,
and none of these words is written over. -/
structure CountsRight (run : AoutRun) (t : Word) (headerEnd : ℕ) (entries : List AoutByte) :
    Prop where
  increasing : (labelPlaces run t 0 headerEnd entries).Pairwise fun r r' =>
    r.1 % 0x10000 < r'.1 % 0x10000
  placed : ((labelPlaces run t 0 headerEnd entries).map fun r =>
    headerEnd + 2 * (r.1 % 0x10000)).Perm
      ((labelPlaces run t 0 headerEnd entries).map fun r => r.2 + 2)
  kept : ∀ r ∈ labelPlaces run t 0 headerEnd entries,
    LabelHeld run (entries.zip (entryPlaces run t headerEnd entries)) r.2

section Positions

variable {run : AoutRun} {t : Word} {e e' : AoutByte} {entries entries' : List AoutByte}
  {out out' : File} {n p base : ℕ}

/-- A turn of the second loop. -/
theorem writeEntry_posBehind (hplain : e.Plain) (h : writeEntry run t out e = .ok out') :
    out'.pos = e.posBehind run t out.pos := by
  unfold writeEntry at h
  unfold AoutByte.posBehind AoutByte.length AoutByte.words
  cases htype : e.type <;> rw [htype] at h <;> dsimp only at h
  case seek =>
    cases h
    rw [if_pos rfl, Nat.mul_comm]
    rfl
  case incbin =>
    rw [if_neg (by simp), if_pos rfl]
    unfold AoutByte.content
    split at h
    · cases h
    · rename_i content hcontent
      cases h
      rw [hcontent, File.fwrite_pos]
      rfl
  case normal =>
    rw [if_neg (by simp), if_neg (by simp)]
    cases hlabel : e.label with
    | none =>
      rw [hlabel, if_pos rfl] at h
      rw [if_pos ⟨rfl, rfl⟩]
      split at h <;> cases h <;> rw [pos_iwrite]
    | some name =>
      obtain ⟨hraw, -⟩ := hplain htype (by rw [hlabel]; exact Option.some_ne_none name)
      rw [hraw, hlabel, if_neg Bool.false_ne_true, if_neg (Option.some_ne_none name)] at h
      cases h
      rw [if_neg fun hnone => Option.some_ne_none name hnone.2]
      rfl
  all_goals
    cases h
    rw [if_neg (by simp), if_neg (by simp), if_neg fun hnormal => by cases hnormal.1]
    rfl

/-- The second loop. -/
theorem writePlaces_eq (hplain : ∀ e ∈ entries, e.Plain) {places : List ℕ}
    (h : writePlaces run t out entries = .ok places) :
    places = entryPlaces run t out.pos entries := by
  induction entries generalizing out places with
  | nil =>
    cases h
    rfl
  | cons e entries ih =>
    obtain ⟨he, hentries⟩ := List.forall_mem_cons.mp hplain
    unfold writePlaces at h
    split at h
    · cases h
    · rename_i out' hturn
      cases hrest : writePlaces run t out' entries with
      | error err =>
        rw [hrest] at h
        cases h
      | ok rest =>
        rw [hrest] at h
        cases h
        rw [entryPlaces, ← writeEntry_posBehind he hturn, ← ih hentries hrest]

/-- What is written has places. -/
theorem exists_writePlaces (h : entries.foldlM (writeEntry run t) out = .ok out') :
    ∃ places, writePlaces run t out entries = .ok places := by
  induction entries generalizing out with
  | nil => exact ⟨[], rfl⟩
  | cons e entries ih =>
    rw [List.foldlM_cons] at h
    unfold writePlaces
    cases hturn : writeEntry run t out e with
    | error err =>
      rw [hturn] at h
      cases h
    | ok out₁ =>
      rw [hturn] at h
      obtain ⟨places, hplaces⟩ := ih h
      exact ⟨out.pos :: places, congrArg (Except.map (out.pos :: ·)) hplaces⟩

theorem AoutByte.Evaluates.posBehind (h : e.Evaluates e') (p : ℕ) :
    e'.posBehind run t p = e.posBehind run t p := by
  unfold AoutByte.posBehind AoutByte.length AoutByte.words AoutByte.content
  rw [h.type, h.label, h.opcode]

theorem entryPlaces_evaluates (h : List.Forall₂ AoutByte.Evaluates entries entries') (p : ℕ) :
    entryPlaces run t p entries' = entryPlaces run t p entries := by
  induction h generalizing p with
  | nil => rfl
  | cons he _ ih => rw [entryPlaces, entryPlaces, he.posBehind, ih]

theorem plain_evaluates (h : List.Forall₂ AoutByte.Evaluates entries entries')
    (hplain : ∀ e ∈ entries, e.Plain) : ∀ e ∈ entries', e.Plain := by
  induction h with
  | nil => exact hplain
  | cons he _ ih =>
    obtain ⟨hhead, htail⟩ := List.forall_mem_cons.mp hplain
    exact List.forall_mem_cons.mpr ⟨he.plain hhead, ih htail⟩

/-- What is counted for an entry is written. -/
theorem words_le_length (e : AoutByte) : 2 * e.words ≤ e.length run := by
  unfold AoutByte.length
  split
  · rename_i hincbin
    have hwords : e.words = 0 := if_neg fun hnormal => by
      rw [hincbin] at hnormal
      cases hnormal.1
    rw [hwords]
    exact Nat.zero_le _
  · exact Nat.le_refl _

/-- As long as the positions go forward, words take place. -/
theorem words_le_posBehind (hforward : p ≤ e.posBehind run t p) :
    p + 2 * e.words ≤ e.posBehind run t p := by
  unfold AoutByte.posBehind at hforward ⊢
  by_cases hseek : e.type = .seek
  · have hwords : e.words = 0 := if_neg fun hnormal => by
      rw [hseek] at hnormal
      cases hnormal.1
    rw [hwords]
    exact hforward
  · rw [if_neg hseek]
    exact Nat.add_le_add_left (words_le_length e) p

/-- A label that is an expression takes one word. -/
theorem words_of_refers (hplain : e.Plain) (hrefers : e.refers = true) : e.words = 1 := by
  obtain ⟨htype, name, hexpr⟩ := AoutByte.refers_iff.mp hrefers
  have hlabel : e.label = none := by
    by_contra hsome
    have hnone := (hplain htype hsome).2
    rw [hexpr] at hnone
    cases hnone
  exact if_pos ⟨htype, hlabel⟩

theorem posBehind_of_refers (hplain : e.Plain) (hrefers : e.refers = true) :
    e.posBehind run t p = p + 2 := by
  have htype := (AoutByte.refers_iff.mp hrefers).1
  unfold AoutByte.posBehind AoutByte.length
  rw [if_neg (by rw [htype]; simp), if_neg (by rw [htype]; simp), words_of_refers hplain hrefers]

theorem labelPlaces_cons_of_refers (hrefers : e.refers = true) :
    labelPlaces run t n p (e :: entries) =
      (n + e.words, p) :: labelPlaces run t (n + e.words) (e.posBehind run t p) entries :=
  if_pos hrefers

theorem labelPlaces_cons_of_not (hrefers : ¬ e.refers = true) :
    labelPlaces run t n p (e :: entries) =
      labelPlaces run t (n + e.words) (e.posBehind run t p) entries :=
  if_neg hrefers

/-- The counts of the labels. -/
theorem map_fst_labelPlaces (n p : ℕ) (entries : List AoutByte) :
    (labelPlaces run t n p entries).map Prod.fst = labelCounts n entries := by
  induction entries generalizing n p with
  | nil => rfl
  | cons e entries ih =>
    by_cases hrefers : e.refers = true
    · rw [labelPlaces_cons_of_refers hrefers, labelCounts_cons_of_refers hrefers, List.map_cons, ih]
    · rw [labelPlaces_cons_of_not hrefers, labelCounts_cons_of_not hrefers, ih]

/-- Behind an entry nothing is before it. -/
theorem le_of_mem_entryPlaces (hforward : Forward run t p entries) {q : ℕ}
    (hq : q ∈ entryPlaces run t p entries) : p ≤ q := by
  induction entries generalizing p with
  | nil => exact absurd hq List.not_mem_nil
  | cons e entries ih =>
    obtain ⟨hhead, htail⟩ := hforward
    rcases List.mem_cons.mp hq with rfl | hq
    · exact Nat.le_refl q
    · exact hhead.trans (ih htail hq)

/-- A label comes behind what is before it. -/
theorem lt_of_mem_labelPlaces (hplain : ∀ e ∈ entries, e.Plain)
    (hforward : Forward run t p entries) :
    ∀ r ∈ labelPlaces run t n p entries, n < r.1 ∧ p ≤ r.2 := by
  induction entries generalizing n p with
  | nil => exact fun r hr => absurd hr List.not_mem_nil
  | cons e entries ih =>
    obtain ⟨he, hentries⟩ := List.forall_mem_cons.mp hplain
    obtain ⟨hhead, htail⟩ := hforward
    have hrest : ∀ r ∈ labelPlaces run t (n + e.words) (e.posBehind run t p) entries,
        n < r.1 ∧ p ≤ r.2 := by
      intro r hr
      obtain ⟨hcount, hplace⟩ := ih hentries htail r hr
      exact ⟨by omega, by omega⟩
    by_cases hrefers : e.refers = true
    · rw [labelPlaces_cons_of_refers hrefers]
      refine List.forall_mem_cons.mpr ⟨⟨?_, Nat.le_refl p⟩, hrest⟩
      rw [words_of_refers he hrefers]
      exact Nat.lt_add_one n
    · rw [labelPlaces_cons_of_not hrefers]
      exact hrest

/-- No word that is counted is without a place. -/
theorem count_le_of_mem_labelPlaces (hplain : ∀ e ∈ entries, e.Plain)
    (hforward : Forward run t p entries) (hbase : base + 2 * n ≤ p) :
    ∀ r ∈ labelPlaces run t n p entries, base + 2 * r.1 ≤ r.2 + 2 := by
  induction entries generalizing n p with
  | nil => exact fun r hr => absurd hr List.not_mem_nil
  | cons e entries ih =>
    obtain ⟨he, hentries⟩ := List.forall_mem_cons.mp hplain
    obtain ⟨hhead, htail⟩ := hforward
    have hwords := words_le_posBehind hhead
    have hrest := ih hentries htail (n := n + e.words) (by omega)
    by_cases hrefers : e.refers = true
    · rw [labelPlaces_cons_of_refers hrefers]
      refine List.forall_mem_cons.mpr ⟨?_, hrest⟩
      rw [words_of_refers he hrefers]
      dsimp only
      omega
    · rw [labelPlaces_cons_of_not hrefers]
      exact hrest

/-- Labels are counted and placed in increasing order. -/
theorem pairwise_labelPlaces (hplain : ∀ e ∈ entries, e.Plain)
    (hforward : Forward run t p entries) (n : ℕ) :
    (labelPlaces run t n p entries).Pairwise fun r r' => r.1 < r'.1 ∧ r.2 < r'.2 := by
  induction entries generalizing n p with
  | nil => exact .nil
  | cons e entries ih =>
    obtain ⟨he, hentries⟩ := List.forall_mem_cons.mp hplain
    obtain ⟨-, htail⟩ := hforward
    by_cases hrefers : e.refers = true
    · rw [labelPlaces_cons_of_refers hrefers, posBehind_of_refers he hrefers]
      rw [posBehind_of_refers he hrefers] at htail
      refine .cons (fun r hr => ?_) (ih hentries htail _)
      obtain ⟨hcount, hplace⟩ := lt_of_mem_labelPlaces hentries htail r hr
      exact ⟨hcount, Nat.lt_of_lt_of_le (Nat.lt_add_of_pos_right Nat.zero_lt_two) hplace⟩
    · rw [labelPlaces_cons_of_not hrefers]
      exact ih hentries htail _

/-- The words of labels are at the places of labels. -/
theorem exists_of_labelHeld {n pos : ℕ}
    (h : LabelHeld run (entries.zip (entryPlaces run t p entries)) pos) :
    ∃ r ∈ labelPlaces run t n p entries, r.2 = pos := by
  induction entries generalizing n p with
  | nil => exact h.elim
  | cons e entries ih =>
    rw [entryPlaces, List.zip_cons_cons, LabelHeld] at h
    by_cases hrefers : e.refers = true
    · rw [labelPlaces_cons_of_refers hrefers]
      rcases h with ⟨-, hp, -⟩ | hrest
      · exact ⟨_, List.mem_cons_self, hp⟩
      · obtain ⟨r, hr, hpos⟩ := ih hrest
        exact ⟨r, List.mem_cons_of_mem _ hr, hpos⟩
    · rw [labelPlaces_cons_of_not hrefers]
      rcases h with ⟨htrue, -⟩ | hrest
      · exact absurd htrue hrefers
      · exact ih hrest

/-- **Where the words of labels are**: nothing is written over, as long as no `.SEEK` goes
back. -/
theorem labelHeld_iff (hplain : ∀ e ∈ entries, e.Plain) (hforward : Forward run t p entries)
    (n pos : ℕ) :
    LabelHeld run (entries.zip (entryPlaces run t p entries)) pos ↔
      ∃ r ∈ labelPlaces run t n p entries, r.2 = pos := by
  induction entries generalizing n p with
  | nil => exact ⟨False.elim, fun ⟨_, hr, _⟩ => absurd hr List.not_mem_nil⟩
  | cons e entries ih =>
    obtain ⟨he, hentries⟩ := List.forall_mem_cons.mp hplain
    obtain ⟨-, htail⟩ := hforward
    rw [entryPlaces, List.zip_cons_cons, LabelHeld, ih hentries htail (n + e.words)]
    by_cases hrefers : e.refers = true
    · rw [labelPlaces_cons_of_refers hrefers]
      simp only [List.mem_cons, exists_eq_or_imp]
      refine or_congr_left ⟨fun h => h.2.1, fun hp => ⟨hrefers, hp, fun q hq => ?_⟩⟩
      -- what comes later is written behind the word
      rw [posBehind_of_refers he hrefers] at htail hq
      have hle := le_of_mem_entryPlaces htail (List.of_mem_zip hq).2
      omega
    · rw [labelPlaces_cons_of_not hrefers]
      exact or_iff_right fun h => hrefers h.1

end Positions

/-! ### When the relocations are right -/

section Right

variable {run : AoutRun} {source : AoutSource} {layout : RelocLayout}

theorem writeTables_relocData {s s' : Aout} {tables : Table → List LprovEntry} {out out' : File}
    (h : writeTables run s tables out = some (s', out')) : s'.relocData = s.relocData := by
  unfold writeTables at h
  dsimp only at h
  split at h
  · obtain ⟨saved, -, hsaved⟩ := Option.map_eq_some_iff.mp h
    cases hsaved
    rfl
  · cases h
    rfl

/-- A program that is assembled has a layout, with the table that is written. -/
theorem exists_relocLayout {s : Aout} {out : File} {n : Word}
    (h : assemble run source {} = (s, .ok (out, n))) :
    ∃ layout, relocLayout run source = .ok layout ∧ layout.relocData = s.relocData := by
  obtain ⟨s₀, entries, scan, file, hinit, hscan, htables, hloop⟩ := assemble_ok h
  obtain ⟨places, hplaces⟩ := exists_writePlaces hloop
  refine ⟨⟨s.relocData, s.trueOrigin, file.pos, places⟩, ?_, rfl⟩
  unfold relocLayout
  rw [hinit]
  dsimp only
  rw [hscan]
  dsimp only
  rw [htables]
  dsimp only
  rw [hplaces]
  rfl

/-- The table and the places of a program. -/
theorem relocLayout_ok (hreloc : run.relocatable = true) (hplain : ∀ e ∈ source.entries, e.Plain)
    (h : relocLayout run source = .ok layout) :
    layout.relocData = (labelCounts 0 source.entries).map (BitVec.ofNat 16) ∧
      layout.places = entryPlaces run layout.trueOrigin layout.headerEnd source.entries := by
  unfold relocLayout at h
  split at h
  · cases h
  · rename_i s hinit
    have hoffset := aoutInit_offset hinit
    split at h
    · cases h
    · rename_i entries scan hscan
      rw [hoffset.start] at hscan
      have hevaluates := (aoutScan_turns hscan).1
      split at h
      · cases h
      · rename_i s' out htables
        cases hplaces : writePlaces run s'.trueOrigin out entries with
        | error err =>
          rw [hplaces] at h
          cases h
        | ok places =>
          rw [hplaces] at h
          cases h
          refine ⟨(writeTables_relocData htables).trans (hoffset.relocData hreloc), ?_⟩
          dsimp only
          rw [writePlaces_eq (plain_evaluates hevaluates hplain) hplaces,
            entryPlaces_evaluates hevaluates]

/-- The positions that the table stands for. -/
theorem map_relocData (headerEnd : ℕ) (labels : List (ℕ × ℕ)) :
    ((labels.map Prod.fst).map (BitVec.ofNat 16)).map
        (fun x => (headerEnd : ℤ) + 2 * (x.toNat - 1)) =
      labels.map fun r => (headerEnd : ℤ) + 2 * ((r.1 % 0x10000 : ℕ) - 1) := by
  rw [List.map_map, List.map_map]
  refine List.map_congr_left fun r _ => ?_
  rw [Function.comp_apply, Function.comp_apply, BitVec.toNat_ofNat]

/-- The numbers as positions, and the places, less two. -/
theorem perm_iff (headerEnd : ℕ) (labels : List (ℕ × ℕ)) :
    ((labels.map fun r => headerEnd + 2 * (r.1 % 0x10000)).Perm (labels.map fun r => r.2 + 2)) ↔
      (labels.map fun r => (headerEnd : ℤ) + 2 * ((r.1 % 0x10000 : ℕ) - 1)).Perm
        (labels.map fun r => (r.2 : ℤ)) := by
  have hinjective : Function.Injective fun n : ℕ => (n : ℤ) - 2 := fun n n' hn => by
    dsimp only at hn
    omega
  rw [← List.map_perm_map_iff hinjective, List.map_map, List.map_map]
  have hleft : ((fun n : ℕ => (n : ℤ) - 2) ∘ fun r : ℕ × ℕ => headerEnd + 2 * (r.1 % 0x10000)) =
      fun r => (headerEnd : ℤ) + 2 * ((r.1 % 0x10000 : ℕ) - 1) := by
    funext r
    rw [Function.comp_apply]
    omega
  have hright : ((fun n : ℕ => (n : ℤ) - 2) ∘ fun r : ℕ × ℕ => r.2 + 2) = fun r => (r.2 : ℤ) := by
    funext r
    rw [Function.comp_apply]
    omega
  rw [hleft, hright]

/-- What a table that lists counts says about places. -/
theorem table_iff {data : List Word} {labels : List (ℕ × ℕ)} {headerEnd : ℕ} {held : ℕ → Prop}
    (hdata : data = (labels.map Prod.fst).map (BitVec.ofNat 16))
    (hheld : ∀ p, held p → ∃ r ∈ labels, r.2 = p) :
    (data.Pairwise (·.toNat < ·.toNat) ∧
        ∀ pos : ℤ, (∃ x ∈ data, pos = headerEnd + 2 * (x.toNat - 1)) ↔
          ∃ p : ℕ, pos = p ∧ held p) ↔
      (labels.Pairwise fun r r' => r.1 % 0x10000 < r'.1 % 0x10000) ∧
        (labels.map fun r => headerEnd + 2 * (r.1 % 0x10000)).Perm
          (labels.map fun r => r.2 + 2) ∧
        ∀ r ∈ labels, held r.2 := by
  have hincreasing : data.Pairwise (·.toNat < ·.toNat) ↔
      labels.Pairwise fun r r' => r.1 % 0x10000 < r'.1 % 0x10000 := by
    rw [hdata, List.pairwise_map, List.pairwise_map]
    simp only [BitVec.toNat_ofNat]
  have hmem : ∀ pos : ℤ, (∃ x ∈ data, pos = headerEnd + 2 * ((x.toNat : ℤ) - 1)) ↔
      pos ∈ labels.map fun r => (headerEnd : ℤ) + 2 * ((r.1 % 0x10000 : ℕ) - 1) := by
    intro pos
    rw [← map_relocData, ← hdata, List.mem_map]
    simp only [eq_comm]
  simp only [hmem]
  rw [hincreasing, perm_iff]
  refine and_congr_right fun hordered => ?_
  constructor
  · intro hset
    have hsubset : ∀ pos ∈ labels.map fun r => (headerEnd : ℤ) + 2 * ((r.1 % 0x10000 : ℕ) - 1),
        pos ∈ labels.map fun r => (r.2 : ℤ) := by
      intro pos hpos
      obtain ⟨p, rfl, hp⟩ := (hset pos).mp hpos
      obtain ⟨r, hr, rfl⟩ := hheld p hp
      exact List.mem_map_of_mem hr
    -- a table in increasing order lists as many positions as there are labels, so it lists all
    have hnodup : (labels.map fun r =>
        (headerEnd : ℤ) + 2 * ((r.1 % 0x10000 : ℕ) - 1)).Nodup := by
      refine List.Pairwise.imp (fun hlt => ne_of_lt hlt) (List.pairwise_map.mpr ?_)
      exact hordered.imp fun hlt => by omega
    have hperm : (labels.map fun r => (headerEnd : ℤ) + 2 * ((r.1 % 0x10000 : ℕ) - 1)).Perm
        (labels.map fun r => (r.2 : ℤ)) := by
      refine (hnodup.subperm hsubset).perm_of_length_le ?_
      rw [List.length_map, List.length_map]
    refine ⟨hperm, fun r hr => ?_⟩
    obtain ⟨p, hp, hkept⟩ := (hset r.2).mp (hperm.mem_iff.mpr (List.mem_map_of_mem hr))
    rwa [Int.ofNat_inj.mp hp]
  · rintro ⟨hperm, hkept⟩ pos
    rw [hperm.mem_iff, List.mem_map]
    constructor
    · rintro ⟨r, hr, rfl⟩
      exact ⟨r.2, rfl, hkept r hr⟩
    · rintro ⟨p, rfl, hp⟩
      obtain ⟨r, hr, rfl⟩ := hheld p hp
      exact ⟨r, hr, rfl⟩

/-- **When the relocations are right.** -/
theorem relocatesRight_iff (hreloc : run.relocatable = true)
    (hplain : ∀ e ∈ source.entries, e.Plain) (h : relocLayout run source = .ok layout) :
    RelocatesRight 1 run source ↔
      CountsRight run layout.trueOrigin layout.headerEnd source.entries := by
  obtain ⟨hdata, hplaces⟩ := relocLayout_ok hreloc hplain h
  rw [← @map_fst_labelPlaces run layout.trueOrigin 0 layout.headerEnd] at hdata
  have htable := @table_iff layout.relocData _ layout.headerEnd
    (LabelHeld run (source.entries.zip layout.places)) hdata fun p hp =>
      exists_of_labelHeld (hplaces ▸ hp)
  constructor
  · intro hright
    obtain ⟨hincreasing, hplaced, hkept⟩ := htable.mp (hright hreloc layout h)
    exact ⟨hincreasing, hplaced, hplaces ▸ hkept⟩
  · rintro ⟨hincreasing, hplaced, hkept⟩ - layout' h'
    rw [h] at h'
    cases h'
    exact htable.mpr ⟨hincreasing, hplaced, hplaces ▸ hkept⟩

/-- As long as no `.SEEK` goes back, the relocations are right if the words that are counted up to
a label fill the file from the end of the header to it, and are not too many. -/
theorem countsRight_of_forward {t : Word} {headerEnd : ℕ} {entries : List AoutByte}
    (hplain : ∀ e ∈ entries, e.Plain) (hforward : Forward run t headerEnd entries) :
    CountsRight run t headerEnd entries ↔
      ∀ r ∈ labelPlaces run t 0 headerEnd entries,
        r.1 < 0x10000 ∧ headerEnd + 2 * r.1 = r.2 + 2 := by
  have hordered := pairwise_labelPlaces hplain hforward 0
  have hcount : ∀ r ∈ labelPlaces run t 0 headerEnd entries, headerEnd + 2 * r.1 ≤ r.2 + 2 :=
    count_le_of_mem_labelPlaces hplain hforward (Nat.le_refl _)
  constructor
  · intro hright r hr
    have hsame : ((labelPlaces run t 0 headerEnd entries).map fun r =>
        headerEnd + 2 * (r.1 % 0x10000)) =
          (labelPlaces run t 0 headerEnd entries).map fun r => r.2 + 2 := by
      refine List.Pairwise.eq_of_mem_iff (r := (· < ·)) ?_ ?_ fun n => hright.placed.mem_iff
      · rw [List.pairwise_map]
        exact hright.increasing.imp fun hlt => by omega
      · rw [List.pairwise_map]
        exact hordered.imp fun hlt => by omega
    -- a number that was cut to 16 bits would be too small for the words before the label
    have hat := List.map_inj_left.mp hsame r hr
    have hle := hcount r hr
    omega
  · intro hfill
    constructor
    · refine hordered.imp_of_mem fun {r r'} hr hr' hlt => ?_
      have hsmall := (hfill r hr).1
      have hsmall' := (hfill r' hr').1
      omega
    · refine .of_eq (List.map_congr_left fun r hr => ?_)
      have hplace := hfill r hr
      omega
    · exact fun r hr => (labelHeld_iff hplain hforward 0 r.2).mpr ⟨r, hr, rfl⟩

/-- A word for a label behind a word, and the label. -/
def labelProgram : List AoutByte :=
  [aoutCreateRaw 7, aoutCreateExpr (.label "a"), aoutCreateLabel "a"]

/-- A word for a label where a `.SEEK` goes to, and the label. -/
def seekProgram : List AoutByte :=
  [{ type := .seek, opcode := 7 }, aoutCreateExpr (.label "a"), aoutCreateLabel "a"]

theorem plain_aoutCreateRaw (raw : Word) : (aoutCreateRaw raw).Plain := fun _ h => absurd rfl h

theorem plain_aoutCreateExpr (expression : Expr) : (aoutCreateExpr expression).Plain :=
  fun _ h => absurd rfl h

theorem plain_aoutCreateLabel (name : String) : (aoutCreateLabel name).Plain :=
  fun _ _ => ⟨rfl, rfl⟩

theorem plain_labelProgram : ∀ e ∈ labelProgram, e.Plain := by
  unfold labelProgram
  rw [List.forall_mem_cons, List.forall_mem_cons, List.forall_mem_singleton]
  exact ⟨plain_aoutCreateRaw 7, plain_aoutCreateExpr _, plain_aoutCreateLabel "a"⟩

theorem plain_seekProgram : ∀ e ∈ seekProgram, e.Plain := by
  unfold seekProgram
  rw [List.forall_mem_cons, List.forall_mem_cons, List.forall_mem_singleton]
  exact ⟨fun htype => absurd htype (by simp), plain_aoutCreateExpr _, plain_aoutCreateLabel "a"⟩

theorem relocLayout_labelProgram : relocLayout { relocatable := true } ⟨labelProgram, false⟩ =
    .ok ⟨[2], 0, 12, [12, 14, 16]⟩ := rfl

theorem relocLayout_seekProgram : relocLayout { relocatable := true } ⟨seekProgram, false⟩ =
    .ok ⟨[1], 0, 12, [12, 14, 16]⟩ := rfl

/-- The word of a label that is the last but one thing, before the label. -/
theorem labelHeld_middle (run : AoutRun) (e : AoutByte) :
    LabelHeld run ([e, aoutCreateExpr (.label "a"), aoutCreateLabel "a"].zip [12, 14, 16]) 14 := by
  refine .inr (.inl ⟨rfl, rfl, fun q hq => ?_⟩)
  rw [List.mem_singleton.mp hq]
  exact .inr (.inr (Nat.le_refl 16))

/-- Where the relocations are right. -/
theorem relocatesRight_iff_labelProgram :
    RelocatesRight 1 { relocatable := true } ⟨labelProgram, false⟩ ↔
      CountsRight { relocatable := true } 0 12 labelProgram :=
  relocatesRight_iff rfl plain_labelProgram relocLayout_labelProgram

/-- No constant is that of all programs: these two have different ones. -/
theorem not_relocatesRight :
    ¬ ∃ constant : ℤ, ∀ run source, (∀ e ∈ source.entries, e.Plain) →
      RelocatesRight constant run source := by
  rintro ⟨constant, hright⟩
  obtain ⟨x, hx, hword⟩ := ((hright { relocatable := true } ⟨labelProgram, false⟩ plain_labelProgram
    rfl _ relocLayout_labelProgram).2 14).mpr ⟨14, rfl, labelHeld_middle _ _⟩
  obtain ⟨y, hy, hsought⟩ := ((hright { relocatable := true } ⟨seekProgram, false⟩ plain_seekProgram
    rfl _ relocLayout_seekProgram).2 14).mpr ⟨14, rfl, labelHeld_middle _ _⟩
  rw [List.mem_singleton.mp hx, show (2 : Word).toNat = 2 from rfl] at hword
  rw [List.mem_singleton.mp hy, show (1 : Word).toNat = 1 from rfl] at hsought
  dsimp only at hword hsought
  omega

end Right

end DcpuToolchain
