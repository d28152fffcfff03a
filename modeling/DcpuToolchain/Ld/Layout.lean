import DcpuToolchain.Ld.Bins
import DcpuToolchain.Ld.Relocate
import DcpuToolchain.Lib.Weave
import Mathlib.Data.List.MinMax

/-!
# What linking is for

The documented meaning of a link, stated without the linker. The words of the input files
are cells, numbered by file and address. A cell belongs to the part of its file that the
last section entry at or before it opens, or to the non-section code
(`DcpuToolchain.partOf`). The output consists of the non-section code of the files in
order, with the cells of a section woven in at the output of that section
(`DcpuToolchain.layout`).

`DcpuToolchain.Linkable` says for which files the linker does this: the sections and
outputs are arranged as the documentation of the directives asks, everything fits the
address space, file names tell the files apart, and a section refers only to itself and
to non-section code, since a bin knows its contents only relative to its own start.
-/

namespace DcpuToolchain

open Marks Weave

/-- A word of an input file: the number of the file and the address of the word. -/
abbrev Cell := ℕ × ℕ

/-! ### Parts of a file -/

/-- The part of a file an address is in: the last section entry that begins at or before
it, if there is one. -/
def partOf (f : LdBin) (a : ℕ) : Option LconvEntry :=
  ((f.tables .section).filter (·.address ≤ a)).argmax LconvEntry.address

/-- The address an adjusted word holds. -/
def wordAddress (f : LdBin) (a : ℕ) : ℕ := (f.words.getD a 0).toNat

section Files

variable (files : List LdBin)

/-- The file of a number. -/
def fileAt (k : ℕ) : LdBin := files.getD k (binCreate [])

/-- The cells of a file. -/
def cellsOf (k : ℕ) : List Cell := (List.range (fileAt files k).words.length).map (Prod.mk k)

/-- The cells of all files, in order. -/
def allCells : List Cell := (List.range files.length).flatMap (cellsOf files)

/-- The section a cell is in. -/
def sectionOf (c : Cell) : Option Bstring :=
  (partOf (fileAt files c.1) c.2).map LconvEntry.label

/-- The non-section code of the files, in order. -/
def codeCells : List Cell := (allCells files).filter (sectionOf files · = none)

/-- The parts of a section, in order. -/
def sectionCells (label : Bstring) : List Cell :=
  (allCells files).filter (sectionOf files · = some label)

/-- How much non-section code comes before a file. -/
def codeBefore (k : ℕ) : ℕ := ((codeCells files).filter (·.1 < k)).length

/-- The outputs of all files, at their addresses in the non-section code of all files. -/
def outputs : List LconvEntry :=
  (List.range files.length).flatMap fun k =>
    ((fileAt files k).tables .output).map fun o =>
      withAddress o (codeBefore files k + o.address)

/-- The labels of the outputs at an address. -/
def outputsAt (a : ℕ) : List Bstring :=
  ((outputs files).filter (·.address = a)).map LconvEntry.label

/-- **The documented layout**: the non-section code, with the cells of a section at each
output of it. Where outputs coincide `pick` says in which order their sections come. -/
def layout (pick : ℕ → List Bstring) : List Cell :=
  weave (fun a => (pick a).flatMap (sectionCells files)) 0 (codeCells files)

/-- Every section used has exactly one output. -/
def OneOutput : Prop :=
  ∀ f ∈ files, ∀ e ∈ f.tables .section,
    ((files.flatMap (·.tables .output)).filter (·.label = e.label)).length = 1

instance : Decidable (OneOutput files) := by
  unfold OneOutput
  infer_instance

/-- Files that are linked as documented. -/
structure Linkable : Prop where
  names_nodup : (files.map LdBin.name).Nodup
  name_ne_output : ∀ f ∈ files, f.name ≠ outputName
  name_not_section : ∀ f ∈ files, f.name.take 8 ≠ sectionPrefix
  size_lt : (files.map (·.words.length)).sum < 0x10000
  section_nodup : ∀ f ∈ files, ((f.tables .section).map LconvEntry.address).Nodup
  section_le : ∀ f ∈ files, ∀ e ∈ f.tables .section, e.address ≤ f.words.length
  output_le : ∀ f ∈ files, ∀ o ∈ f.tables .output, o.address ≤ f.words.length
  /-- No output is in a section. -/
  output_lt : ∀ f ∈ files, ∀ o ∈ f.tables .output, ∀ e ∈ f.tables .section,
    o.address < e.address
  adjustment_nodup : ∀ f ∈ files, ((f.tables .adjustment).map LconvEntry.address).Nodup
  adjustment_lt : ∀ f ∈ files, ∀ e ∈ f.tables .adjustment, e.address < f.words.length
  /-- A section refers to its own part and to non-section code. -/
  refers : ∀ f ∈ files, ∀ e ∈ f.tables .adjustment, partOf f e.address = none ∨
    (wordAddress f e.address < f.words.length ∧
      (partOf f (wordAddress f e.address) = none ∨
        partOf f (wordAddress f e.address) = partOf f e.address))

/-! ### Adjusted words and marking entries -/

/-- The adjustment of a cell. -/
def adjustedBy (c : Cell) : List LconvEntry :=
  (((fileAt files c.1).tables .adjustment).find? (·.address = c.2)).toList

/-- The cell an adjusted cell refers to. -/
def targetOf (c : Cell) : Cell := (c.1, wordAddress (fileAt files c.1) c.2)

/-- The entries of a table that mark a cell. -/
def marksOf (t : Table) (c : Cell) : List LconvEntry :=
  ((fileAt files c.1).tables t).filter (·.address = c.2)

/-- The entries of a table at the end of a file mark no word. -/
def MarksNoWord (t : Table) (e : LconvEntry) : Prop :=
  ∃ f ∈ files, ∃ e' ∈ f.tables t, f.words.length ≤ e'.address ∧ e'.label = e.label

/-- The cells of the input files. -/
def sourceOf : Source Cell where
  word c := (fileAt files c.1).words.getD c.2 0
  adjusted := adjustedBy files
  target := targetOf files
  marks := marksOf files
  stray := MarksNoWord files
  adjusted_le c := by
    rw [adjustedBy]
    cases ((fileAt files c.1).tables .adjustment).find? (·.address = c.2) <;> simp
  stray_addressFree t := by
    rintro e a ⟨f, hf, e', he', hle, hl⟩
    exact ⟨f, hf, e', he', hle, hl⟩

end Files

/-! ### Cells -/

section Cells

variable {files : List LdBin} {k i : ℕ} {c : Cell}

theorem fileAt_of_lt (h : k < files.length) : fileAt files k = files[k] := by
  rw [fileAt, List.getD_eq_getElem?_getD, List.getElem?_eq_getElem h, Option.getD_some]

theorem fileAt_mem (h : k < files.length) : fileAt files k ∈ files := by
  rw [fileAt_of_lt h]
  exact List.getElem_mem h

theorem exists_fileAt {f : LdBin} (h : f ∈ files) : ∃ k < files.length, fileAt files k = f := by
  obtain ⟨k, hk, rfl⟩ := List.getElem_of_mem h
  exact ⟨k, hk, fileAt_of_lt hk⟩

@[simp] theorem mem_cellsOf : c ∈ cellsOf files k ↔
    c.1 = k ∧ c.2 < (fileAt files k).words.length := by
  obtain ⟨j, i⟩ := c
  simp only [cellsOf, List.mem_map, List.mem_range, Prod.mk.injEq]
  constructor
  · rintro ⟨i, hi, rfl, rfl⟩
    exact ⟨rfl, hi⟩
  · rintro ⟨rfl, hi⟩
    exact ⟨i, hi, rfl, rfl⟩

theorem fileAt_of_ge (h : files.length ≤ k) : fileAt files k = binCreate [] := by
  rw [fileAt, List.getD_eq_getElem?_getD, List.getElem?_eq_none_iff.mpr h, Option.getD_none]

/-- A cell is a word of its file. -/
@[simp] theorem mem_allCells : c ∈ allCells files ↔ c.2 < (fileAt files c.1).words.length := by
  rw [allCells, List.mem_flatMap]
  constructor
  · rintro ⟨k, -, hc⟩
    obtain ⟨rfl, h⟩ := mem_cellsOf.mp hc
    exact h
  · intro h
    refine ⟨c.1, ?_, mem_cellsOf.mpr ⟨rfl, h⟩⟩
    rw [List.mem_range]
    by_contra hk
    rw [fileAt_of_ge (by omega)] at h
    exact absurd h (by simp [binCreate])

theorem allCells_nodup : (allCells files).Nodup := by
  rw [allCells, List.nodup_flatMap]
  refine ⟨fun k _ => ?_, ?_⟩
  · exact List.nodup_range.map fun a b h => (Prod.mk.injEq ..▸ h).2
  · refine List.nodup_range.imp fun {a b} hab => ?_
    refine List.disjoint_left.mpr fun c hc hc' => ?_
    exact hab ((mem_cellsOf.mp hc).1.symm.trans (mem_cellsOf.mp hc').1)

theorem length_allCells : (allCells files).length = (files.map (·.words.length)).sum := by
  rw [allCells, List.length_flatMap]
  congr 1
  refine List.ext_getElem (by simp) fun n h1 h2 => ?_
  simp only [List.getElem_map, List.getElem_range, cellsOf, List.length_map, List.length_range]
  rw [fileAt_of_lt]

/-- A stretch of the cells of a file. -/
def cellsFrom (k a b : ℕ) : List Cell := (List.range' a (b - a)).map (Prod.mk k)

@[simp] theorem length_cellsFrom (k a b : ℕ) : (cellsFrom k a b).length = b - a := by
  rw [cellsFrom, List.length_map, List.length_range']

@[simp] theorem mem_cellsFrom {a b : ℕ} : c ∈ cellsFrom k a b ↔ c.1 = k ∧ a ≤ c.2 ∧ c.2 < b := by
  obtain ⟨j, i⟩ := c
  simp only [cellsFrom, List.mem_map, List.mem_range'_1, Prod.mk.injEq]
  constructor
  · rintro ⟨i, hi, rfl, rfl⟩
    exact ⟨rfl, hi.1, by omega⟩
  · rintro ⟨rfl, h1, h2⟩
    exact ⟨i, ⟨h1, by omega⟩, rfl, rfl⟩

theorem cellsFrom_append {a b d : ℕ} (hab : a ≤ b) (hbd : b ≤ d) :
    cellsFrom k a b ++ cellsFrom k b d = cellsFrom k a d := by
  rw [cellsFrom, cellsFrom, cellsFrom, ← List.map_append]
  congr 1
  have h := @List.range'_append a (b - a) (d - b) 1
  rw [one_mul, show a + (b - a) = b by omega, show b - a + (d - b) = d - a by omega] at h
  exact h

theorem cellsFrom_self (k a : ℕ) : cellsFrom k a a = [] := by
  rw [cellsFrom, Nat.sub_self, List.range'_zero, List.map_nil]

theorem cellsOf_eq : cellsOf files k = cellsFrom k 0 (fileAt files k).words.length := by
  rw [cellsOf, cellsFrom, List.range_eq_range', Nat.sub_zero]

end Cells

/-! ### The parts of a file, from its sorted sections -/

section Parts

variable {f : LdBin} {a : ℕ} {e : LconvEntry}

theorem partOf_eq_none (h : ∀ e ∈ f.tables .section, a < e.address) : partOf f a = none := by
  rw [partOf, List.argmax_eq_none]
  exact List.filter_eq_nil_iff.mpr fun e he => by simpa using h e he

/-- The part of an address is the last section entry that begins at or before it. -/
theorem of_partOf_eq_some (h : partOf f a = some e) : e ∈ f.tables .section ∧ e.address ≤ a ∧
    ∀ e' ∈ f.tables .section, e'.address ≤ a → e'.address ≤ e.address := by
  rw [partOf] at h
  have hmem := List.argmax_mem h
  rw [List.mem_filter, decide_eq_true_iff] at hmem
  refine ⟨hmem.1, hmem.2, fun e' he' hle => ?_⟩
  exact List.le_of_mem_argmax (List.mem_filter.mpr ⟨he', by simpa using hle⟩) h

theorem partOf_eq_some (hnd : ((f.tables .section).map LconvEntry.address).Nodup)
    (he : e ∈ f.tables .section) (hle : e.address ≤ a)
    (hmax : ∀ e' ∈ f.tables .section, e'.address ≤ a → e'.address ≤ e.address) :
    partOf f a = some e := by
  rcases h : partOf f a with - | e'
  · rw [partOf, List.argmax_eq_none] at h
    exact absurd (List.filter_eq_nil_iff.mp h e he) (by simpa using hle)
  · obtain ⟨he', hle', hmax'⟩ := of_partOf_eq_some h
    have heq : e'.address = e.address := Nat.le_antisymm (hmax e' he' hle') (hmax' e he hle)
    rw [List.inj_on_of_nodup_map hnd he' he heq]

/-- Where a part ends: at the next section, or at the end of the file. -/
def partEnd (n : ℕ) (rest : List LconvEntry) : ℕ :=
  match rest with
  | [] => n
  | e :: _ => e.address

variable {secs before rest : List LconvEntry} {n : ℕ}

/-- The sorted section entries of a file. -/
structure SortedSections (f : LdBin) (secs : List LconvEntry) : Prop where
  perm : secs.Perm (f.tables .section)
  sorted : secs.Pairwise (·.address < ·.address)
  le : ∀ e ∈ secs, e.address ≤ f.words.length

theorem SortedSections.of_up (ls : ListSort)
    (hnd : ((f.tables .section).map LconvEntry.address).Nodup)
    (hle : ∀ e ∈ f.tables .section, e.address ≤ f.words.length) :
    SortedSections f (ls.up (f.tables .section)) where
  perm := ls.up_perm _
  sorted := by
    have hnd' : ((ls.up (f.tables .section)).map LconvEntry.address).Nodup :=
      ((ls.up_perm _).map _).nodup_iff.mpr hnd
    refine ((ls.up_sorted _).and (List.pairwise_map.mp hnd')).imp ?_
    exact fun {e e'} ⟨h1, h2⟩ => Nat.lt_of_le_of_ne h1 h2
  le e he := hle e ((ls.up_perm _).mem_iff.mp he)

theorem SortedSections.nodup (h : SortedSections f secs) :
    ((f.tables .section).map LconvEntry.address).Nodup :=
  (h.perm.map _).nodup_iff.mp (List.pairwise_map.mpr (h.sorted.imp fun h => Nat.ne_of_lt h))

/-- The addresses before the first section are the non-section code. -/
theorem SortedSections.partOf_eq_none_iff (h : SortedSections f secs) (ha : a < f.words.length) :
    partOf f a = none ↔ a < partEnd f.words.length secs := by
  constructor
  · intro hn
    cases secs with
    | nil => exact ha
    | cons e es =>
      by_contra hlt
      rw [partOf, List.argmax_eq_none] at hn
      have := List.filter_eq_nil_iff.mp hn e (h.perm.mem_iff.mp List.mem_cons_self)
      rw [partEnd] at hlt
      exact this (by simpa using hlt)
  · intro hlt
    refine partOf_eq_none fun e he => ?_
    have he' := h.perm.mem_iff.mpr he
    cases secs with
    | nil => exact absurd he' List.not_mem_nil
    | cons e' es =>
      rw [partEnd] at hlt
      rcases List.mem_cons.mp he' with rfl | hes
      · exact hlt
      · exact hlt.trans ((List.pairwise_cons.mp h.sorted).1 e hes)

theorem SortedSections.lt_of_mem (h : SortedSections f (before ++ e :: rest))
    {e' : LconvEntry} (he' : e' ∈ rest) : e.address < e'.address := by
  have := (List.pairwise_append.mp h.sorted).2.1
  exact (List.pairwise_cons.mp this).1 e' he'

theorem SortedSections.partEnd_le (h : SortedSections f (before ++ e :: rest)) :
    e.address ≤ partEnd f.words.length rest ∧ partEnd f.words.length rest ≤ f.words.length := by
  cases rest with
  | nil => exact ⟨h.le e (by simp), Nat.le_refl _⟩
  | cons e' rest => exact ⟨(h.lt_of_mem List.mem_cons_self).le, h.le e' (by simp)⟩

/-- The addresses from a section to the next one are its part. -/
theorem SortedSections.partOf_eq_some_iff (h : SortedSections f (before ++ e :: rest))
    (ha : a < f.words.length) :
    partOf f a = some e ↔ e.address ≤ a ∧ a < partEnd f.words.length rest := by
  have hmem : ∀ e', e' ∈ f.tables .section ↔ e' ∈ before ∨ e' = e ∨ e' ∈ rest := fun e' => by
    rw [← h.perm.mem_iff, List.mem_append, List.mem_cons]
  constructor
  · intro hp
    obtain ⟨-, hle, hmax⟩ := of_partOf_eq_some hp
    refine ⟨hle, ?_⟩
    cases rest with
    | nil => exact ha
    | cons e' rest =>
      by_contra hlt
      rw [partEnd] at hlt
      have := hmax e' ((hmem e').mpr (by simp)) (by omega)
      have := h.lt_of_mem (List.mem_cons_self : e' ∈ e' :: rest)
      omega
  · rintro ⟨hle, hlt⟩
    refine partOf_eq_some h.nodup ((hmem e).mpr (by simp)) hle fun e' he' hle' => ?_
    rcases (hmem e').mp he' with he' | rfl | he'
    · exact ((List.pairwise_append.mp h.sorted).2.2 e' he' e (by simp)).le
    · exact Nat.le_refl _
    · exfalso
      cases rest with
      | nil => exact List.not_mem_nil he'
      | cons e'' rest =>
        rw [partEnd] at hlt
        have hs := (List.pairwise_append.mp h.sorted).2.1
        have hs' := (List.pairwise_cons.mp hs).2
        rcases List.mem_cons.mp he' with rfl | he'
        · omega
        · have := (List.pairwise_cons.mp hs').1 e' he'
          omega

end Parts

end DcpuToolchain
