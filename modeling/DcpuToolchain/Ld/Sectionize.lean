import DcpuToolchain.Ld.Linked
import DcpuToolchain.Ld.Load

/-!
# Cutting the sections out

The second loop of `DcpuToolchain.binsSectionize` walks over the files and, in each, over
the sections. Between two steps the file bins hold the non-section code of the files that
are done and everything that is still to do, and a section bin holds the parts of its
section that were met so far, in order (`DcpuToolchain.Cutting`). The step is
`DcpuToolchain.Cutting.steal`, the loops are `DcpuToolchain.Cutting.stealSections` and
`DcpuToolchain.sectionizeLoop_ok`.
-/

namespace DcpuToolchain

open Marks Moves

/-! ### Creating the section bins -/

/-- The section bins after the first loop has met some section entries. -/
structure Created (s₀ : LdBins) (met : List LconvEntry) (r : LdBins × List BinPtr) : Prop where
  bins : r.1.bins = s₀.bins
  next_le : s₀.next ≤ r.1.next
  old : ∀ p < s₀.next, r.1.heap p = s₀.heap p
  fresh : ∀ p ∈ r.2, s₀.next ≤ p ∧ p < r.1.next
  nodup : r.2.Nodup
  new : ∀ p ∈ r.2, ∃ e ∈ met, r.1.heap p = binCreate (sectionName e.label)
  tells : ∀ p ∈ r.2, ∀ q ∈ r.2, (r.1.heap p).name = (r.1.heap q).name → p = q
  all : ∀ e ∈ met, ∃ p ∈ r.2, (r.1.heap p).name = sectionName e.label

theorem Created.step {s₀ : LdBins} {met : List LconvEntry} {r : LdBins × List BinPtr}
    (h : Created s₀ met r) (e : LconvEntry) :
    Created s₀ (met ++ [e]) (createSection r e) := by
  rw [createSection]
  split
  · rename_i hsome
    obtain ⟨p, hp⟩ := Option.isSome_iff_exists.mp hsome
    have hname : (r.1.heap p).name = sectionName e.label := by
      simpa using List.find?_some hp
    refine ⟨h.bins, h.next_le, h.old, h.fresh, h.nodup, fun p hp => ?_, h.tells, fun e' he' => ?_⟩
    · obtain ⟨e', he', hn⟩ := h.new p hp
      exact ⟨e', List.mem_append_left _ he', hn⟩
    · rcases List.mem_append.mp he' with he' | he'
      · exact h.all e' he'
      · rw [List.mem_singleton.mp he']
        exact ⟨p, List.mem_of_find?_eq_some hp, hname⟩
  · rename_i hnone
    have hnot : ∀ p ∈ r.2, (r.1.heap p).name ≠ sectionName e.label := fun p hp heq => by
      rw [Bool.not_eq_true, Option.isSome_eq_false_iff, Option.isNone_iff_eq_none, binSeek,
        List.find?_eq_none] at hnone
      exact hnone p hp (by simpa using heq)
    have hne : ∀ p ∈ r.2, p ≠ r.1.next := fun p hp => Nat.ne_of_lt (h.fresh p hp).2
    set heap := Function.update r.1.heap r.1.next (binCreate (sectionName e.label)) with hheap
    have hold : ∀ p, p ≠ r.1.next → heap p = r.1.heap p := fun p hp => Function.update_of_ne hp _ _
    have hnew : heap r.1.next = binCreate (sectionName e.label) := Function.update_self ..
    have hmem : ∀ {p}, p ∈ r.2 ++ [r.1.next] → p ∈ r.2 ∨ p = r.1.next := fun hp => by
      rwa [List.mem_append, List.mem_singleton] at hp
    refine ⟨h.bins, h.next_le.trans (Nat.le_succ _), fun p hp => ?_, fun p hp => ?_, ?_,
      fun p hp => ?_, fun p hp q hq heq => ?_, fun e' he' => ?_⟩
    · exact (hold p (Nat.ne_of_lt (hp.trans_le h.next_le))).trans (h.old p hp)
    · rcases hmem hp with hp | rfl
      · exact ⟨(h.fresh p hp).1, (h.fresh p hp).2.trans (Nat.lt_succ_self _)⟩
      · exact ⟨h.next_le, Nat.lt_succ_self _⟩
    · exact List.nodup_append.mpr ⟨h.nodup, List.nodup_singleton _, by simpa using hne⟩
    · rcases hmem hp with hp | rfl
      · obtain ⟨e', he', hn⟩ := h.new p hp
        exact ⟨e', List.mem_append_left _ he', (hold p (hne p hp)).trans hn⟩
      · exact ⟨e, by simp, hnew⟩
    · change (heap p).name = (heap q).name at heq
      rcases hmem hp with hp | rfl <;> rcases hmem hq with hq | rfl
      · rw [hold p (hne p hp), hold q (hne q hq)] at heq
        exact h.tells p hp q hq heq
      · rw [hold p (hne p hp), hnew] at heq
        exact absurd heq (hnot p hp)
      · rw [hold q (hne q hq), hnew] at heq
        exact absurd heq.symm (hnot q hq)
      · rfl
    · rcases List.mem_append.mp he' with he' | he'
      · obtain ⟨p, hp, hn⟩ := h.all e' he'
        exact ⟨p, List.mem_append_left _ hp, (congrArg LdBin.name (hold p (hne p hp))).trans hn⟩
      · rw [List.mem_singleton.mp he']
        exact ⟨r.1.next, List.mem_append_right _ (List.mem_singleton_self _),
          congrArg LdBin.name hnew⟩

/-- **Every section used gets one bin.** -/
theorem createSections_ok (s : LdBins) :
    Created s (s.bins.flatMap fun p => (s.heap p).tables .section) (createSections s) := by
  rw [createSections]
  have hrun : ∀ (es met : List LconvEntry) (r : LdBins × List BinPtr), Created s met r →
      Created s (met ++ es) (es.foldl createSection r) := by
    intro es
    induction es with
    | nil =>
      intro met r h
      rwa [List.append_nil]
    | cons e es ih =>
      intro met r h
      have h' := ih (met ++ [e]) _ (h.step e)
      rwa [List.append_assoc, List.singleton_append] at h'
  have h := hrun (s.bins.flatMap fun p => (s.heap p).tables .section) [] (s, [])
    ⟨rfl, Nat.le_refl _, fun _ _ => rfl, by simp, List.nodup_nil, by simp, by simp, by simp⟩
  rwa [List.nil_append] at h

/-! ### Between two steps -/

section Cutting

variable (ls : ListSort) (files : List LdBin) (nm : BinPtr → Bstring) (create : List BinPtr)

/-- The sections of a file, in source order. -/
def sortedSections (k : ℕ) : List LconvEntry := ls.up ((fileAt files k).tables .section)

/-- Where the non-section code of a file ends. -/
def codeEnd (k : ℕ) : ℕ := partEnd (fileAt files k).words.length (sortedSections ls files k)

/-- The cells the loops have met when they have come to an address of a file. -/
def metCells (k a : ℕ) : List Cell := (List.range k).flatMap (cellsOf files) ++ cellsFrom k 0 a

/-- The label of the section a bin is for. -/
def labelOf (p : BinPtr) : Bstring := (nm p).drop 8

@[simp] theorem drop_sectionName (label : Bstring) : (sectionName label).drop 8 = label := rfl

/-- The bins of the sections: there is one for every section used. -/
structure SectionBins : Prop where
  nodup : create.Nodup
  fresh : ∀ p ∈ create, files.length ≤ p
  used : ∀ p ∈ create, ∃ f ∈ files, ∃ e ∈ f.tables .section, nm p = sectionName e.label
  all : ∀ f ∈ files, ∀ e ∈ f.tables .section, ∃ p ∈ create, nm p = sectionName e.label

/-- **The state of the loops** when they have come to address `a` of file `k`. -/
structure Cutting (k a : ℕ) (heap : Heap) (lay : BinPtr → List Cell)
    (loc : Cell → BinPtr × ℕ) : Prop where
  linked : Linked (sourceOf files) nm (allCells files) (List.range files.length)
    (List.range files.length ++ create) (List.range files.length ++ create) heap lay loc
  lay_done : ∀ i < k, lay i = cellsFrom i 0 (codeEnd ls files i)
  lay_current : k < files.length → lay k = cellsFrom k 0 (codeEnd ls files k) ++
    cellsFrom k a (fileAt files k).words.length
  lay_todo : ∀ i, k < i → i < files.length → lay i = cellsOf files i
  lay_section : ∀ p ∈ create,
    lay p = (metCells files k a).filter (sectionOf files · = some (labelOf nm p))
  /-- A cell is in the bin of its file or in a section bin. -/
  own : ∀ c : Cell, (loc c).1 = c.1 ∨ files.length ≤ (loc c).1
  /-- Non-section code does not move. -/
  code : ∀ c : Cell, c.2 < codeEnd ls files c.1 → loc c = c
  /-- The cells of a part stay together. -/
  part : ∀ c ∈ allCells files, ∀ d ∈ allCells files, c.1 = d.1 →
    partOf (fileAt files c.1) c.2 = partOf (fileAt files d.1) d.2 →
    partOf (fileAt files c.1) c.2 ≠ none → (loc c).1 = (loc d).1
  output_file : ∀ i < files.length,
    ((heap i).tables .output).Perm ((fileAt files i).tables .output)
  output_section : ∀ p ∈ create, (heap p).tables .output = []
  section_todo : ∀ i, k < i → i < files.length →
    (heap i).tables .section = (fileAt files i).tables .section

variable {ls files nm create} {k a : ℕ} {heap : Heap} {lay : BinPtr → List Cell}
  {loc : Cell → BinPtr × ℕ}

variable (ls) in
theorem Linkable.sections (hd : Linkable files) (hk : k < files.length) :
    SortedSections (fileAt files k) (sortedSections ls files k) :=
  .of_up ls (hd.section_nodup _ (fileAt_mem hk)) (hd.section_le _ (fileAt_mem hk))

theorem Linkable.codeEnd_le (hd : Linkable files) (hk : k < files.length) :
    codeEnd ls files k ≤ (fileAt files k).words.length := by
  have h := hd.sections ls hk
  rw [codeEnd]
  cases hs : sortedSections ls files k with
  | nil => exact Nat.le_refl _
  | cons e es => exact h.le e (by rw [hs]; exact List.mem_cons_self)

theorem lt_length_of_mem_allCells {c : Cell} (hc : c ∈ allCells files) : c.1 < files.length := by
  rw [mem_allCells] at hc
  by_contra h
  rw [fileAt_of_ge (by omega)] at hc
  exact absurd hc (by simp [binCreate])

variable (ls) in
/-- The non-section code of a file is what lies before its first section. -/
theorem Linkable.partOf_eq_none_iff (hd : Linkable files) {c : Cell} (hc : c ∈ allCells files) :
    partOf (fileAt files c.1) c.2 = none ↔ c.2 < codeEnd ls files c.1 :=
  (hd.sections ls (lt_length_of_mem_allCells hc)).partOf_eq_none_iff (mem_allCells.mp hc)

theorem sectionOf_eq_none_iff {c : Cell} :
    sectionOf files c = none ↔ partOf (fileAt files c.1) c.2 = none := by
  rw [sectionOf, Option.map_eq_none_iff]

/-- What an adjusted cell of a section refers to. -/
theorem Linkable.refers_cell (hd : Linkable files) {c : Cell} (hc : c ∈ allCells files)
    (hadj : (sourceOf files).adjusted c ≠ []) (hp : partOf (fileAt files c.1) c.2 ≠ none) :
    targetOf files c ∈ allCells files ∧
      (partOf (fileAt files c.1) (targetOf files c).2 = none ∨
        partOf (fileAt files c.1) (targetOf files c).2 = partOf (fileAt files c.1) c.2) := by
  obtain ⟨e, he⟩ := List.exists_mem_of_ne_nil _ hadj
  have hfind := Option.mem_toList.mp he
  have haddr : e.address = c.2 := by simpa using List.find?_some hfind
  have h := hd.refers _ (fileAt_mem (lt_length_of_mem_allCells hc)) e
    (List.mem_of_find?_eq_some hfind)
  rw [haddr] at h
  obtain ⟨h1, h2⟩ := h.resolve_left hp
  exact ⟨mem_allCells.mpr h1, h2⟩

theorem codeEnd_of_ge (h : files.length ≤ k) : codeEnd ls files k = 0 := by
  have hs : sortedSections ls files k = [] :=
    List.perm_nil.mp ((ls.up_perm _).trans (by rw [fileAt_of_ge h]; exact List.Perm.nil))
  rw [codeEnd, hs, partEnd, fileAt_of_ge h]
  rfl

/-- Non-section code stays where it is while a part is moved. -/
theorem moveLoc_code {c : Cell} {p : BinPtr} (pos : ℕ) {count : ℕ} (hp : files.length ≤ p)
    (hc : c.2 < codeEnd ls files c.1) :
    insertLoc p k pos (codeEnd ls files k) count c = c ∧
      removeLoc k (codeEnd ls files k) count c = c := by
  have hlt : c.1 < files.length := by
    by_contra h
    rw [codeEnd_of_ge (by omega)] at hc
    omega
  constructor
  · rw [insertLoc, if_neg, if_neg fun h => Nat.ne_of_lt (hlt.trans_le hp) h.1]
    rintro ⟨h, h', -⟩
    rw [h] at hc
    omega
  · rw [removeLoc, if_neg]
    rintro ⟨h, h'⟩
    rw [h] at hc
    omega

end Cutting

/-! ### Moving one part -/

/-- The part from `a` to `b` of file `k`, opened by the section entry `e`, is about to be
moved into the section bin `p`. -/
structure Stealing (ls : ListSort) (files : List LdBin) (nm : BinPtr → Bstring)
    (create : List BinPtr) (k a b : ℕ) (e : LconvEntry) (p : BinPtr) (heap : Heap)
    (lay : BinPtr → List Cell) (loc : Cell → BinPtr × ℕ) : Prop where
  linkable : Linkable files
  bins : SectionBins files nm create
  cutting : Cutting ls files nm create k a heap lay loc
  lt : k < files.length
  mem : p ∈ create
  label : labelOf nm p = e.label
  code_le : codeEnd ls files k ≤ a
  le : a ≤ b
  le_length : b ≤ (fileAt files k).words.length
  output_lt : ∀ o ∈ (fileAt files k).tables .output, o.address < codeEnd ls files k
  mem_part : ∀ c ∈ allCells files,
    (c ∈ cellsFrom k a b ↔ c.1 = k ∧ partOf (fileAt files c.1) c.2 = some e)

namespace Stealing

variable {ls : ListSort} {files : List LdBin} {nm : BinPtr → Bstring} {create : List BinPtr}
  {k a b : ℕ} {e : LconvEntry} {p q : BinPtr} {heap : Heap} {lay : BinPtr → List Cell}
  {loc : Cell → BinPtr × ℕ} {c d : Cell}

/-- Where the cells are after the insertion into the section bin. -/
def locInserted (ls : ListSort) (files : List LdBin) (k a b : ℕ) (p : BinPtr)
    (lay : BinPtr → List Cell) (loc : Cell → BinPtr × ℕ) : Cell → BinPtr × ℕ :=
  insertLoc p k (lay p).length (codeEnd ls files k) (b - a) ∘ loc

/-- Where the cells are after the removal from the file bin. -/
def locMoved (ls : ListSort) (files : List LdBin) (k a b : ℕ) (p : BinPtr)
    (lay : BinPtr → List Cell) (loc : Cell → BinPtr × ℕ) : Cell → BinPtr × ℕ :=
  removeLoc k (codeEnd ls files k) (b - a) ∘ locInserted ls files k a b p lay loc

/-- What the bins hold after the move. -/
def layMoved (ls : ListSort) (files : List LdBin) (k a b : ℕ) (p : BinPtr)
    (lay : BinPtr → List Cell) : BinPtr → List Cell :=
  Function.update (Function.update lay p (lay p ++ cellsFrom k a b)) k
    (cellsFrom k 0 (codeEnd ls files k) ++ cellsFrom k b (fileAt files k).words.length)

theorem le_bin (h : Stealing ls files nm create k a b e p heap lay loc) : files.length ≤ p :=
  h.bins.fresh p h.mem

theorem ne (h : Stealing ls files nm create k a b e p heap lay loc) : p ≠ k :=
  Nat.ne_of_gt (h.lt.trans_le h.le_bin)

theorem live_bin (hq : q ∈ create) : q ∈ List.range files.length ++ create :=
  List.mem_append_right _ hq

theorem live_file (h : Stealing ls files nm create k a b e p heap lay loc) :
    k ∈ List.range files.length ++ create :=
  List.mem_append_left _ (List.mem_range.mpr h.lt)

theorem lay_file (h : Stealing ls files nm create k a b e p heap lay loc) :
    lay k = cellsFrom k 0 (codeEnd ls files k) ++ cellsFrom k a b ++
      cellsFrom k b (fileAt files k).words.length := by
  rw [h.cutting.lay_current h.lt, List.append_assoc, cellsFrom_append h.le h.le_length]

theorem locInserted_code (h : Stealing ls files nm create k a b e p heap lay loc)
    (hc : c.2 < codeEnd ls files c.1) : locInserted ls files k a b p lay loc c = c := by
  rw [locInserted, Function.comp_apply, h.cutting.code c hc]
  exact (moveLoc_code _ h.le_bin hc).1

theorem locMoved_code (h : Stealing ls files nm create k a b e p heap lay loc)
    (hc : c.2 < codeEnd ls files c.1) : locMoved ls files k a b p lay loc c = c := by
  rw [locMoved, Function.comp_apply, h.locInserted_code hc]
  exact (moveLoc_code 0 h.le_bin hc).2

theorem locMoved_fst (c : Cell) :
    (locMoved ls files k a b p lay loc c).1 = (locInserted ls files k a b p lay loc c).1 :=
  removeLoc_fst _ _ _ _

theorem locInserted_own (h : Stealing ls files nm create k a b e p heap lay loc) (c : Cell) :
    (locInserted ls files k a b p lay loc c).1 = c.1 ∨
      files.length ≤ (locInserted ls files k a b p lay loc c).1 := by
  rw [locInserted, Function.comp_apply]
  rcases insertLoc_fst p k (lay p).length (codeEnd ls files k) (b - a) (loc c) with h' | h'
  · rw [h']
    exact h.cutting.own c
  · rw [h']
    exact .inr h.le_bin

/-- The cells of the part go into the section bin. -/
theorem locInserted_part (h : Stealing ls files nm create k a b e p heap lay loc)
    (hc : c ∈ cellsFrom k a b) : (locInserted ls files k a b p lay loc c).1 = p := by
  have hP := Placed.insert (X := lay p) (Y := []) h.ne
    (by rw [List.append_nil]; exact h.cutting.linked.placed p (live_bin h.mem))
    (h.lay_file ▸ h.cutting.linked.placed k h.live_file)
  rw [List.append_nil, length_cellsFrom, length_cellsFrom, Nat.sub_zero] at hP
  obtain ⟨i, hi, hic⟩ := List.getElem_of_mem (List.mem_append_right (lay p) hc)
  rw [locInserted, hP i c (by rw [List.getElem?_eq_getElem hi, hic])]

/-- The other cells stay in their bins. -/
theorem locInserted_other (h : Stealing ls files nm create k a b e p heap lay loc)
    (hc : c ∈ allCells files) (hB : c ∉ cellsFrom k a b) :
    (locInserted ls files k a b p lay loc c).1 = (loc c).1 := by
  have h' := h.cutting.linked.insertLoc_fst p (lay p).length hc h.lay_file hB
  rwa [length_cellsFrom, length_cellsFrom, Nat.sub_zero] at h'

theorem locInserted_together (h : Stealing ls files nm create k a b e p heap lay loc)
    (hc : c ∈ allCells files) (hd : d ∈ allCells files) (h1 : c.1 = d.1)
    (h2 : partOf (fileAt files c.1) c.2 = partOf (fileAt files d.1) d.2)
    (h3 : partOf (fileAt files c.1) c.2 ≠ none) :
    (locInserted ls files k a b p lay loc c).1 = (locInserted ls files k a b p lay loc d).1 := by
  have hiff : c ∈ cellsFrom k a b ↔ d ∈ cellsFrom k a b := by
    rw [h.mem_part c hc, h.mem_part d hd, h2, h1]
  by_cases hB : c ∈ cellsFrom k a b
  · rw [h.locInserted_part hB, h.locInserted_part (hiff.mp hB)]
  · rw [h.locInserted_other hc hB, h.locInserted_other hd (fun h' => hB (hiff.mpr h')),
      h.cutting.part c hc d hd h1 h2 h3]

/-- A cell of a section refers to non-section code or to its own part. -/
theorem refers (h : Stealing ls files nm create k a b e p heap lay loc) (hc : c ∈ allCells files)
    (hadj : (sourceOf files).adjusted c ≠ []) (hpart : partOf (fileAt files c.1) c.2 ≠ none) :
    targetOf files c ∈ allCells files ∧ ((targetOf files c).2 < codeEnd ls files c.1 ∨
      partOf (fileAt files c.1) c.2 = partOf (fileAt files c.1) (targetOf files c).2) := by
  obtain ⟨h1, h2⟩ := h.linkable.refers_cell hc hadj hpart
  exact ⟨h1, h2.imp (fun h' => (h.linkable.partOf_eq_none_iff ls h1).mp h') Eq.symm⟩

/-- The section bins hold cells of sections. -/
theorem of_mem_section (h : Stealing ls files nm create k a b e p heap lay loc) (hq : q ∈ create)
    (hc : c ∈ lay q) :
    c ∈ allCells files ∧ partOf (fileAt files c.1) c.2 ≠ none ∧ (loc c).1 = q := by
  obtain ⟨i, hi, hic⟩ := List.getElem_of_mem hc
  refine ⟨h.cutting.linked.sound q (live_bin hq) c hc, fun h' => ?_, ?_⟩
  · rw [h.cutting.lay_section q hq, List.mem_filter, decide_eq_true_iff,
      sectionOf_eq_none_iff.mpr h'] at hc
    exact absurd hc.2 (by simp)
  · rw [h.cutting.linked.placed q (live_bin hq) i c (by rw [List.getElem?_eq_getElem hi, hic])]

theorem not_mem_part (h : Stealing ls files nm create k a b e p heap lay loc) (hq : q ∈ create)
    (hc : c ∈ lay q) : c ∉ cellsFrom k a b := fun hB => by
  have hP := h.cutting.linked.placed k h.live_file
  rw [h.lay_file] at hP
  obtain ⟨i, hi, hic⟩ := List.getElem_of_mem
    (List.mem_append_left (cellsFrom k b (fileAt files k).words.length)
      (List.mem_append_right (cellsFrom k 0 (codeEnd ls files k)) hB))
  have h1 := (h.of_mem_section hq hc).2.2
  rw [hP i c (by rw [List.getElem?_eq_getElem hi, hic])] at h1
  exact Nat.ne_of_lt (h.lt.trans_le (h.bins.fresh q hq)) h1

/-- The file bins hold cells of their files. -/
theorem of_mem_file (h : Stealing ls files nm create k a b e p heap lay loc)
    (hq : q < files.length) (hc : c ∈ lay q) : c ∈ allCells files ∧ c.1 = q ∧ (loc c).1 = q := by
  have hlive : q ∈ List.range files.length ++ create :=
    List.mem_append_left _ (List.mem_range.mpr hq)
  obtain ⟨i, hi, hic⟩ := List.getElem_of_mem hc
  have hloc : (loc c).1 = q := by
    rw [h.cutting.linked.placed q hlive i c (by rw [List.getElem?_eq_getElem hi, hic])]
  refine ⟨h.cutting.linked.sound q hlive c hc, ?_, hloc⟩
  rcases h.cutting.own c with h' | h'
  · rw [← h', hloc]
  · rw [hloc] at h'
    exact absurd h' (Nat.not_le.mpr hq)

/-- Nothing in another section bin refers to what an insertion moves. -/
theorem locInserted_elsewhere (h : Stealing ls files nm create k a b e p heap lay loc)
    (hq : q ∈ create) (hqp : q ≠ p) (hc : c ∈ lay q) (hadj : (sourceOf files).adjusted c ≠ []) :
    locInserted ls files k a b p lay loc (targetOf files c) = loc (targetOf files c) := by
  obtain ⟨hcc, hcp, hcq⟩ := h.of_mem_section hq hc
  obtain ⟨htc, ht | ht⟩ := h.refers hcc hadj hcp
  · rw [h.locInserted_code ht, h.cutting.code _ ht]
  · have h1 : (loc (targetOf files c)).1 = q := by
      rw [← hcq]
      exact (h.cutting.part c hcc _ htc rfl ht hcp).symm
    refine insertLoc_of_ne ?_ ?_
    · rw [h1]
      exact Nat.ne_of_gt (h.lt.trans_le (h.bins.fresh q hq))
    · rw [h1]
      exact hqp

/-- What the section bins hold after the move. -/
theorem of_mem_layMoved (h : Stealing ls files nm create k a b e p heap lay loc)
    (hq : q ∈ create) (hc : c ∈ layMoved ls files k a b p lay q) :
    c ∈ allCells files ∧ partOf (fileAt files c.1) c.2 ≠ none ∧
      (locInserted ls files k a b p lay loc c).1 = q := by
  have hqk : q ≠ k := Nat.ne_of_gt (h.lt.trans_le (h.bins.fresh q hq))
  have hold : c ∈ lay q → c ∈ allCells files ∧ partOf (fileAt files c.1) c.2 ≠ none ∧
      (locInserted ls files k a b p lay loc c).1 = q := fun hc => by
    obtain ⟨h1, h2, h3⟩ := h.of_mem_section hq hc
    exact ⟨h1, h2, by rw [h.locInserted_other h1 (h.not_mem_part hq hc), h3]⟩
  rw [layMoved, Function.update_of_ne hqk] at hc
  by_cases hqp : q = p
  · rw [hqp, Function.update_self, ← hqp, List.mem_append] at hc
    rcases hc with hc | hc
    · exact hold hc
    · have hcc : c ∈ allCells files := by
        refine h.cutting.linked.sound k h.live_file c ?_
        rw [h.lay_file]
        exact List.mem_append_left _ (List.mem_append_right _ hc)
      refine ⟨hcc, ?_, hqp ▸ h.locInserted_part hc⟩
      rw [((h.mem_part c hcc).mp hc).2]
      simp
  · rw [Function.update_of_ne hqp] at hc
    exact hold hc

/-- Nothing in a section bin refers to what a removal lowers. -/
theorem locMoved_section (h : Stealing ls files nm create k a b e p heap lay loc)
    (hq : q ∈ create) (hc : c ∈ layMoved ls files k a b p lay q)
    (hadj : (sourceOf files).adjusted c ≠ []) :
    locMoved ls files k a b p lay loc (targetOf files c) =
      locInserted ls files k a b p lay loc (targetOf files c) := by
  obtain ⟨hcc, hcp, hcq⟩ := h.of_mem_layMoved hq hc
  obtain ⟨htc, ht | ht⟩ := h.refers hcc hadj hcp
  · rw [h.locMoved_code ht, h.locInserted_code ht]
  · have h1 : (locInserted ls files k a b p lay loc (targetOf files c)).1 = q := by
      rw [← hcq]
      exact (h.locInserted_together hcc htc rfl ht hcp).symm
    refine removeLoc_of_ne ?_
    rw [h1]
    exact Nat.ne_of_gt (h.lt.trans_le (h.bins.fresh q hq))

/-- Nothing in another file bin refers to the file that loses the part. -/
theorem locInserted_ne (h : Stealing ls files nm create k a b e p heap lay loc)
    (hq : q < files.length) (hqk : q ≠ k) (hc : c ∈ lay q) :
    (locInserted ls files k a b p lay loc (targetOf files c)).1 ≠ k := by
  obtain ⟨-, hcq, -⟩ := h.of_mem_file hq hc
  rcases h.locInserted_own (targetOf files c) with h' | h'
  · rw [h', targetOf, hcq]
    exact hqk
  · exact Nat.ne_of_gt (h.lt.trans_le h')

/-- What lies behind the part refers to its own file bin. -/
theorem locInserted_behind (h : Stealing ls files nm create k a b e p heap lay loc)
    (hc : c ∈ cellsFrom k b (fileAt files k).words.length)
    (hadj : (sourceOf files).adjusted c ≠ []) :
    (locInserted ls files k a b p lay loc (targetOf files c)).1 = k := by
  obtain ⟨hck, hbc, hcn⟩ := mem_cellsFrom.mp hc
  have hlay : c ∈ lay k := by
    rw [h.lay_file]
    exact List.mem_append_right _ hc
  obtain ⟨hcc, -, hloc⟩ := h.of_mem_file h.lt hlay
  have hcp : partOf (fileAt files c.1) c.2 ≠ none := fun h' => by
    have := (h.linkable.partOf_eq_none_iff ls hcc).mp h'
    have := h.code_le
    have := h.le
    rw [hck] at *
    omega
  obtain ⟨htc, ht | ht⟩ := h.refers hcc hadj hcp
  · rw [h.locInserted_code ht]
    exact hck
  · rw [← h.locInserted_together hcc htc rfl ht hcp, h.locInserted_other hcc, hloc]
    rw [mem_cellsFrom]
    omega

/-- A target outside the file stays behind everything in the file bin. -/
theorem locMoved_away (h : Stealing ls files nm create k a b e p heap lay loc)
    (hc : c ∈ allCells files) (hadj : (sourceOf files).adjusted c ≠ [])
    (ht : targetOf files c ∉ allCells files) :
    (locMoved ls files k a b p lay loc (targetOf files c)).1 ∈ List.range files.length ∧
      (locMoved ls files k a b p lay loc (targetOf files c)).2 < 0x10000 ∧
      (layMoved ls files k a b p lay
        (locMoved ls files k a b p lay loc (targetOf files c)).1).length ≤
        (locMoved ls files k a b p lay loc (targetOf files c)).2 := by
  obtain ⟨hmem, hlt, hlen⟩ := h.cutting.linked.away c hc hadj ht
  have hpn : p ∉ List.range files.length := fun h' =>
    absurd (List.mem_range.mp h') (Nat.not_lt.mpr h.le_bin)
  have hins : locInserted ls files k a b p lay loc (targetOf files c) = loc (targetOf files c) := by
    exact h.cutting.linked.insertLoc_away hc hadj ht hpn (by rw [h.lay_file]; simp)
  rw [locMoved, Function.comp_apply, hins]
  change (loc (targetOf files c)).1 ∈ _ at hmem
  change (lay (loc (targetOf files c)).1).length ≤ (loc (targetOf files c)).2 at hlen
  change (loc (targetOf files c)).2 < _ at hlt
  by_cases hk : (loc (targetOf files c)).1 = k
  · rw [hk, h.lay_file, List.length_append, List.length_append, length_cellsFrom,
      length_cellsFrom, length_cellsFrom] at hlen
    rw [removeLoc, if_pos ⟨hk, by omega⟩, layMoved, Function.update_self, List.length_append,
      length_cellsFrom, length_cellsFrom]
    exact ⟨List.mem_range.mpr h.lt, by dsimp only; omega, by dsimp only; omega⟩
  · rw [removeLoc_of_ne hk, layMoved, Function.update_of_ne hk,
      Function.update_of_ne (ne_of_mem_of_not_mem hmem hpn)]
    exact ⟨hmem, hlt, hlen⟩

theorem name_eq (h : Stealing ls files nm create k a b e p heap lay loc) (hq : q ∈ create) :
    nm q = sectionName (labelOf nm q) := by
  obtain ⟨f, -, e', -, hn⟩ := h.bins.used q hq
  rw [labelOf, hn, drop_sectionName]

/-- The section bins hold what the loops have met. -/
theorem layMoved_section (h : Stealing ls files nm create k a b e p heap lay loc)
    (hq : q ∈ create) : layMoved ls files k a b p lay q =
      (metCells files k b).filter (sectionOf files · = some (labelOf nm q)) := by
  have hmet : metCells files k b = metCells files k a ++ cellsFrom k a b := by
    rw [metCells, metCells, List.append_assoc, cellsFrom_append (Nat.zero_le _) h.le]
  have hsec : ∀ c ∈ cellsFrom k a b, sectionOf files c = some e.label := fun c hc => by
    have hcc : c ∈ allCells files := by
      refine h.cutting.linked.sound k h.live_file c ?_
      rw [h.lay_file]
      exact List.mem_append_left _ (List.mem_append_right _ hc)
    rw [sectionOf, ((h.mem_part c hcc).mp hc).2, Option.map_some]
  rw [layMoved, Function.update_of_ne (Nat.ne_of_gt (h.lt.trans_le (h.bins.fresh q hq))), hmet,
    List.filter_append, ← h.cutting.lay_section q hq]
  by_cases hqp : q = p
  · rw [hqp, Function.update_self, List.filter_eq_self.mpr fun c hc => ?_]
    rw [hsec c hc, h.label]
    simp
  · rw [Function.update_of_ne hqp, List.filter_eq_nil_iff.mpr fun c hc => ?_, List.append_nil]
    rw [hsec c hc, ← h.label]
    intro heq
    refine hqp (h.cutting.linked.tells q (live_bin hq) p (live_bin h.mem) ?_)
    rw [h.name_eq hq, h.name_eq h.mem]
    exact congrArg sectionName (Option.some.inj (decide_eq_true_iff.mp heq)).symm

/-- **One part is moved into its section bin.** -/
theorem run (h : Stealing ls files nm create k a b e p heap lay loc) :
    ∃ heap', binMove ls false (List.range files.length) p k (lay p).length (codeEnd ls files k)
        (b - a) heap = .ok heap' ∧
      Cutting ls files nm create k b heap' (layMoved ls files k a b p lay)
        (locMoved ls files k a b p lay loc) ∧
      ∀ i, (heap' i).tables .section = (heap i).tables .section := by
  have hne := h.ne
  have hnotFile : ∀ {q}, q ∈ create → q ∉ List.range files.length := fun hq h' =>
    absurd (List.mem_range.mp h') (Nat.not_lt.mpr (h.bins.fresh _ hq))
  have hlenA : (cellsFrom k 0 (codeEnd ls files k)).length = codeEnd ls files k := by
    rw [length_cellsFrom, Nat.sub_zero]
  have hlenB : (cellsFrom k a b).length = b - a := length_cellsFrom _ _ _
  obtain ⟨heap', hok, hlinked, hsec, hout, houtTo, l, hl, houtFrom⟩ :=
    h.cutting.linked.move (locInserted ls files k a b p lay loc)
      (locMoved ls files k a b p lay loc) (List.range files.length) ls false List.nodup_range
      (fun q hq => List.mem_append_left _ hq) (hnotFile h.mem)
      (List.mem_range.mpr h.lt) (live_bin h.mem) h.live_file (hnotFile h.mem) rfl h.lay_file
      (fun q hq hqp hqa c hc hadj => by
        rw [hlenA, hlenB]
        exact h.locInserted_elsewhere ((List.mem_append.mp hq).resolve_left hqa) hqp hc hadj)
      (by rw [hlenA, hlenB, locInserted]) (layMoved ls files k a b p lay) (by rw [layMoved])
      (fun c _ => by rw [hlenA, hlenB]; rfl) (fun q _ c _ _ _ => by rw [hlenA, hlenB]; rfl)
      (fun q hq hqa c hc hadj =>
        h.locMoved_section ((List.mem_append.mp hq).resolve_left hqa) hc hadj)
      (fun q hq hqk c hc _ => h.locInserted_ne (List.mem_range.mp hq) hqk hc)
      (fun c hc hadj => h.locInserted_behind hc hadj)
      (fun c hc hadj ht => h.locMoved_away hc hadj ht)
  rw [hlenA, hlenB] at hok houtTo houtFrom
  have hout_lt : ∀ o ∈ (heap k).tables .output, o.address < codeEnd ls files k := fun o ho =>
    h.output_lt o ((h.cutting.output_file k h.lt).mem_iff.mp ho)
  refine ⟨heap', hok, ⟨hlinked, fun i hi => ?_, fun _ => ?_, fun i hki hi => ?_,
    fun q hq => h.layMoved_section hq, fun c => ?_, fun c hc => h.locMoved_code hc,
    fun c hc d hd h1 h2 h3 => ?_, fun i hi => ?_, fun q hq => ?_, fun i hki hi => ?_⟩, hsec⟩
  · rw [layMoved, Function.update_of_ne (Nat.ne_of_lt hi),
      Function.update_of_ne (Nat.ne_of_lt ((hi.trans h.lt).trans_le h.le_bin)),
      h.cutting.lay_done i hi]
  · rw [layMoved, Function.update_self]
  · rw [layMoved, Function.update_of_ne (Nat.ne_of_gt hki),
      Function.update_of_ne (Nat.ne_of_lt (hi.trans_le h.le_bin)), h.cutting.lay_todo i hki hi]
  · rw [locMoved_fst]
    exact h.locInserted_own c
  · rw [locMoved_fst, locMoved_fst]
    exact h.locInserted_together hc hd h1 h2 h3
  · by_cases hik : i = k
    · rw [hik, houtFrom, binInfoRemove_eq]
      have hl_lt : ∀ o ∈ ls.up l, o.address < codeEnd ls files k := fun o ho =>
        hout_lt o (hl.mem_iff.mp ((ls.up_perm l).mem_iff.mp ho))
      rw [List.filter_eq_self.mpr fun o ho => by have := hl_lt o ho; simp [kept]; omega,
        List.map_congr_left (g := id) fun o ho => by
          have := hl_lt o ho; rw [lowered, if_neg (by omega), id], List.map_id]
      exact ((ls.up_perm l).trans hl).trans (h.cutting.output_file k h.lt)
    · exact (hout i (Nat.ne_of_lt (hi.trans_le h.le_bin)) hik).trans (h.cutting.output_file i hi)
  · by_cases hqp : q = p
    · rw [hqp, houtTo, h.cutting.output_section p h.mem, insertEntries, if_pos rfl,
        if_neg (by simp), List.nil_append, List.map_eq_nil_iff, List.filter_eq_nil_iff]
      intro o ho
      have := hout_lt o ((ls.up_perm _).mem_iff.mp ho)
      simp only [copied, decide_eq_true_iff]
      exact fun h' => absurd h'.1 (Nat.not_le.mpr this)
    · have := hout q hqp (Nat.ne_of_gt (h.lt.trans_le (h.bins.fresh q hq)))
      rw [h.cutting.output_section q hq] at this
      exact List.perm_nil.mp this
  · rw [hsec, h.cutting.section_todo i hki hi]

end Stealing

/-! ### The loops -/

section Loops

variable {ls : ListSort} {files : List LdBin} {nm : BinPtr → Bstring} {create : List BinPtr}
  {k a : ℕ} {heap : Heap} {lay : BinPtr → List Cell} {loc : Cell → BinPtr × ℕ}

theorem codeEnd_le_of_mem {e : LconvEntry} {before rest : List LconvEntry}
    (hd : Linkable files) (hk : k < files.length)
    (hs : sortedSections ls files k = before ++ e :: rest) :
    codeEnd ls files k ≤ e.address ∧
      ∀ o ∈ (fileAt files k).tables .output, o.address < codeEnd ls files k := by
  have hsorted := hd.sections ls hk
  rw [hs] at hsorted
  have hmem : ∀ e', e' ∈ before ++ e :: rest → e' ∈ (fileAt files k).tables .section :=
    fun e' he' => hsorted.perm.mem_iff.mp he'
  rw [codeEnd, hs]
  cases before with
  | nil =>
    exact ⟨Nat.le_refl _, fun o ho =>
      hd.output_lt _ (fileAt_mem hk) o ho e (hmem e List.mem_cons_self)⟩
  | cons e' before =>
    exact ⟨((List.pairwise_append.mp hsorted.sorted).2.2 e' (by simp) e (by simp)).le, fun o ho =>
      hd.output_lt _ (fileAt_mem hk) o ho e' (hmem e' List.mem_cons_self)⟩

/-- A section bin is found by its name. -/
theorem binSeek_section (label : Bstring) (hname : ∀ p ∈ create, (heap p).name = nm p)
    (hu : ∃ p ∈ create, nm p = sectionName label) :
    ∃ p ∈ create, nm p = sectionName label ∧
      binSeek heap create (sectionName label) = some p := by
  obtain ⟨p, hp, hn⟩ := hu
  have hsome : (binSeek heap create (sectionName label)).isSome := by
    rw [binSeek, List.find?_isSome]
    exact ⟨p, hp, by simpa using (hname p hp).trans hn⟩
  obtain ⟨q, hq⟩ := Option.isSome_iff_exists.mp hsome
  have hqm := List.mem_of_find?_eq_some hq
  have hqn : (heap q).name = sectionName label := by simpa using List.find?_some hq
  exact ⟨q, hqm, (hname q hqm).symm.trans hqn, hq⟩

/-- **The sections of one file.** -/
theorem Cutting.stealSections (hd : Linkable files) (hb : SectionBins files nm create)
    (hk : k < files.length) (es before : List LconvEntry)
    (C : Cutting ls files nm create k a heap lay loc)
    (hs : sortedSections ls files k = before ++ es)
    (ha : a = partEnd (fileAt files k).words.length es) :
    ∃ heap' lay' loc', DcpuToolchain.stealSections ls (List.range files.length) create k
        ((a : ℤ) - codeEnd ls files k) es heap = .ok heap' ∧
      Cutting ls files nm create k (fileAt files k).words.length heap' lay' loc' := by
  induction es generalizing before a heap lay loc with
  | nil =>
    rw [partEnd] at ha
    exact ⟨heap, lay, loc, rfl, ha ▸ C⟩
  | cons e rest ih =>
    rw [partEnd] at ha
    have hsorted := hd.sections ls hk
    rw [hs] at hsorted
    obtain ⟨hab, hbn⟩ := hsorted.partEnd_le
    obtain ⟨hca, hout⟩ := codeEnd_le_of_mem hd hk hs
    rw [← ha] at hab hca
    obtain ⟨p, hp, hn, hseek⟩ := binSeek_section e.label
      (fun p hp => (C.linked.hold p (List.mem_append_right _ hp)).1)
      (hb.all _ (fileAt_mem hk) e (hsorted.perm.mem_iff.mp (by simp)))
    have hsteal : Stealing ls files nm create k a (partEnd (fileAt files k).words.length rest) e p
        heap lay loc :=
      ⟨hd, hb, C, hk, hp, by rw [labelOf, hn, drop_sectionName], hca, hab, hbn, hout,
        fun c hc => by
          rw [mem_cellsFrom]
          refine and_congr_right fun hck => ?_
          rw [hck, hsorted.partOf_eq_some_iff (by rw [← hck]; exact mem_allCells.mp hc), ha]⟩
    obtain ⟨heap₁, hok, C₁, -⟩ := hsteal.run
    obtain ⟨heap', lay', loc', hok', C'⟩ := ih (before ++ [e]) C₁ (by rw [hs]; simp) rfl
    refine ⟨heap', lay', loc', ?_, C'⟩
    have hwords : ((heap k).words.length : ℤ) =
        codeEnd ls files k + ((fileAt files k).words.length - a) := by
      rw [(C.linked.hold k hsteal.live_file).2.length_words, C.lay_current hk, List.length_append,
        length_cellsFrom, length_cellsFrom]
      have := hab.trans hbn
      omega
    have hbase : (heap p).words.length = (lay p).length :=
      (C.linked.hold p (List.mem_append_right _ hp)).2.length_words
    have hlen : stealCount (heap k).words.length ((a : ℤ) - codeEnd ls files k) e rest =
        ((partEnd (fileAt files k).words.length rest - a : ℕ) : ℤ) := by
      cases rest with
      | nil =>
        simp only [partEnd, stealCount] at hab ⊢
        omega
      | cons e' rest =>
        simp only [partEnd, stealCount] at hab ⊢
        omega
    rw [DcpuToolchain.stealSections, hseek]
    simp only [hlen]
    rw [show (e.address : ℤ) - ((a : ℤ) - codeEnd ls files k) = (codeEnd ls files k : ℕ) by omega,
      if_neg (by omega), Int.toNat_natCast, Int.toNat_natCast, hbase, hok]
    change DcpuToolchain.stealSections _ _ _ _ _ _ _ = _
    rw [show (a : ℤ) - codeEnd ls files k +
        ((partEnd (fileAt files k).words.length rest - a : ℕ) : ℤ) =
        (partEnd (fileAt files k).words.length rest : ℕ) - codeEnd ls files k by omega]
    exact hok'

/-- From the end of one file to the non-section code of the next. -/
theorem Cutting.next (hd : Linkable files)
    (C : Cutting ls files nm create k (fileAt files k).words.length heap lay loc)
    (hk : k < files.length) :
    Cutting ls files nm create (k + 1) (codeEnd ls files (k + 1)) heap lay loc where
  linked := C.linked
  lay_done i hi := by
    rcases Nat.lt_succ_iff_lt_or_eq.mp hi with hi | rfl
    · exact C.lay_done i hi
    · rw [C.lay_current hk, cellsFrom_self, List.append_nil]
  lay_current hk' := by
    rw [C.lay_todo _ (Nat.lt_succ_self k) hk', cellsOf_eq,
      cellsFrom_append (Nat.zero_le _) (hd.codeEnd_le hk')]
  lay_todo i hi hin := C.lay_todo i (by omega) hin
  lay_section p hp := by
    rw [C.lay_section p hp]
    have hmet : metCells files (k + 1) (codeEnd ls files (k + 1)) =
        metCells files k (fileAt files k).words.length ++
          cellsFrom (k + 1) 0 (codeEnd ls files (k + 1)) := by
      rw [metCells, metCells, List.range_succ, List.flatMap_append, ← cellsOf_eq]
      simp
    rw [hmet, List.filter_append, List.self_eq_append_right, List.filter_eq_nil_iff]
    intro c hc
    obtain ⟨hck, -, hlt⟩ := mem_cellsFrom.mp hc
    have hk' : k + 1 < files.length := by
      by_contra h
      rw [codeEnd_of_ge (by omega)] at hlt
      omega
    have hcc : c ∈ allCells files := mem_allCells.mpr (by
      rw [hck]
      exact hlt.trans_le (hd.codeEnd_le hk'))
    rw [sectionOf_eq_none_iff.mpr ((hd.partOf_eq_none_iff ls hcc).mpr (by rwa [hck]))]
    simp
  own := C.own
  code := C.code
  part := C.part
  output_file := C.output_file
  output_section := C.output_section
  section_todo i hi hin := C.section_todo i (by omega) hin

/-- Sorting the section table of a file bin changes nothing about its cells. -/
theorem Cutting.sortSections (C : Cutting ls files nm create k a heap lay loc) :
    Cutting ls files nm create k a (Function.update heap k ((heap k).sortSections ls)) lay loc := by
  have hheap : ∀ i, (Function.update heap k ((heap k).sortSections ls) i).name = (heap i).name ∧
      (Function.update heap k ((heap k).sortSections ls) i).words = (heap i).words ∧
      ∀ t, t ≠ .section →
        (Function.update heap k ((heap k).sortSections ls) i).tables t = (heap i).tables t :=
    fun i => by
      by_cases hi : i = k
      · rw [hi, Function.update_self]
        exact ⟨rfl, rfl, fun t ht => if_neg ht⟩
      · rw [Function.update_of_ne hi]
        exact ⟨rfl, rfl, fun _ _ => rfl⟩
  refine ⟨{ C.linked with hold := fun p hp => ?_ }, C.lay_done, C.lay_current, C.lay_todo,
    C.lay_section, C.own, C.code, C.part, ?_, ?_, ?_⟩
  · obtain ⟨hn, hH⟩ := C.linked.hold p hp
    refine ⟨(hheap p).1.trans hn, ?_, ?_, fun t ht => ?_⟩
    · rw [(hheap p).2.1]
      exact hH.words
    · rw [(hheap p).2.2 _ (by simp)]
      exact hH.adjustment
    · rw [(hheap p).2.2 t (by rintro rfl; cases ht)]
      exact hH.records t ht
  · intro i hi
    rw [(hheap i).2.2 _ (by simp)]
    exact C.output_file i hi
  · intro p hp
    rw [(hheap p).2.2 _ (by simp)]
    exact C.output_section p hp
  · intro i hki hi
    rw [Function.update_of_ne (Nat.ne_of_gt hki)]
    exact C.section_todo i hki hi

/-- **The sections of all files.** -/
theorem sectionizeLoop_ok (hd : Linkable files) (hb : SectionBins files nm create) (n : ℕ)
    (hkn : k + n = files.length)
    (C : Cutting ls files nm create k (codeEnd ls files k) heap lay loc)
    (hs : k < files.length → (heap k).tables .section = (fileAt files k).tables .section) :
    ∃ heap' lay' loc', sectionizeLoop ls (List.range files.length) create (List.range' k n) heap =
        .ok heap' ∧
      Cutting ls files nm create files.length (codeEnd ls files files.length) heap' lay' loc' := by
  induction n generalizing k heap lay loc with
  | zero =>
    rw [Nat.add_zero] at hkn
    exact ⟨heap, lay, loc, rfl, hkn ▸ C⟩
  | succ n ih =>
    have hk : k < files.length := by omega
    obtain ⟨heap₁, lay₁, loc₁, hok, C₁⟩ := C.sortSections.stealSections hd hb hk
      (sortedSections ls files k) [] rfl rfl
    obtain ⟨heap', lay', loc', hok', C'⟩ := ih (by omega) (C₁.next hd hk)
      (C₁.section_todo _ (Nat.lt_succ_self k))
    refine ⟨heap', lay', loc', ?_, C'⟩
    rw [List.range'_succ, sectionizeLoop]
    simp only [Function.update_self]
    rw [sub_self] at hok
    have hsec : ((heap k).sortSections ls).tables .section = sortedSections ls files k := by
      rw [sortedSections, ← hs hk]
      rfl
    rw [hsec, hok]
    exact hok'

end Loops

/-! ### The whole of `bins_sectionize` -/

/-- No adjustment of a bin that holds cells lies past its end. -/
theorem binsPrint_ok {κ : Type} (S : Source κ) (nm : BinPtr → Bstring) (loc : κ → BinPtr × ℕ)
    {heap : Heap} {ps : List BinPtr} (h : ∀ p ∈ ps, ∃ cs, Holds S nm loc (heap p) cs) :
    binsPrint heap ps = .ok () := by
  rw [binsPrint, if_pos]
  intro p hp e he
  obtain ⟨cs, hH⟩ := h p hp
  have := (address_of_mem_place (hH.adjustment.mem_iff.mp he)).2
  rw [Nat.zero_add] at this
  rw [hH.length_words]
  exact this

theorem sectionName_ne_outputName (label : Bstring) : sectionName label ≠ outputName := by
  rw [sectionName, sectionPrefix, outputName]
  simp

/-- Labels of bins that are told apart by their names, with the state before the loops. -/
theorem Cutting.init {ls : ListSort} {files : List LdBin} {nm : BinPtr → Bstring}
    {create : List BinPtr} {heap : Heap} (hd : Linkable files)
    (hfile : ∀ k < files.length, nm k = (fileAt files k).name ∧
      heap k = (fileAt files k).associate)
    (hsection : ∀ p ∈ create, ∃ l, nm p = sectionName l ∧ heap p = binCreate (sectionName l))
    (htells : ∀ p ∈ create, ∀ q ∈ create, nm p = nm q → p = q)
    (hfresh : ∀ p ∈ create, files.length ≤ p) :
    Cutting ls files nm create 0 (codeEnd ls files 0) heap
      (fun p => if p < files.length then cellsOf files p else []) locLoaded where
  linked := by
    have hcase : ∀ {p}, p ∈ List.range files.length ++ create → p < files.length ∨
        p ∈ create ∧ ¬p < files.length := fun hp => by
      rcases List.mem_append.mp hp with hp | hp
      · exact .inl (List.mem_range.mp hp)
      · exact .inr ⟨hp, Nat.not_lt.mpr (hfresh _ hp)⟩
    have hne : ∀ k < files.length, ∀ p ∈ create, nm k ≠ nm p := fun k hk p hp h => by
      obtain ⟨l, hl, -⟩ := hsection p hp
      refine hd.name_not_section _ (fileAt_mem hk) ?_
      rw [← (hfile k hk).1, h, hl]
      rfl
    refine ⟨fun p hp => ?_, fun p hp => hp, fun p hp => List.mem_append_left _ hp,
      fun p hp q hq heq => ?_, ?_, fun p hp c hc => ?_, fun p hp => ?_, fun c hc => ?_,
      fun c hc _ ht => ?_⟩
    · rcases hcase hp with hp | ⟨hp, hpn⟩
      · rw [if_pos hp, (hfile p hp).2]
        exact ⟨(hfile p hp).1.symm, hd.holds_file hp (hfile p hp).1⟩
      · obtain ⟨l, hl, hheap⟩ := hsection p hp
        rw [if_neg hpn, hheap]
        exact ⟨hl.symm, holds_empty _⟩
    · rcases hcase hp with hp | ⟨hp, -⟩ <;> rcases hcase hq with hq | ⟨hq, -⟩
      · have hp' : p < (files.map LdBin.name).length := by rwa [List.length_map]
        have hq' : q < (files.map LdBin.name).length := by rwa [List.length_map]
        refine (@List.Nodup.getElem_inj_iff _ _ hd.names_nodup p hp' q hq').mp ?_
        rw [List.getElem_map, List.getElem_map, ← fileAt_of_lt, ← fileAt_of_lt,
          ← (hfile p hp).1, ← (hfile q hq).1, heq]
      · exact absurd heq (hne p hp q hq)
      · exact absurd heq.symm (hne q hq p hp)
      · exact htells p hp q hq heq
    · rw [length_allCells]
      exact hd.size_lt
    · rcases hcase hp with hp | ⟨hp, hpn⟩
      · rw [if_pos hp] at hc
        obtain ⟨rfl, hlt⟩ := mem_cellsOf.mp hc
        exact mem_allCells.mpr hlt
      · rw [if_neg hpn] at hc
        exact absurd hc List.not_mem_nil
    · rcases hcase hp with hp | ⟨hp, hpn⟩
      · rw [if_pos hp]
        exact placed_cellsOf p
      · rw [if_neg hpn]
        exact placed_nil
    · have hlt := lt_length_of_mem_allCells hc
      refine ⟨c.1, List.mem_append_left _ (List.mem_range.mpr hlt), ?_⟩
      rw [if_pos hlt]
      exact mem_cellsOf.mpr ⟨rfl, mem_allCells.mp hc⟩
    · have hlt := lt_length_of_mem_allCells hc
      have ht' : targetOf files c ∉ allCells files := ht
      rw [mem_allCells, targetOf] at ht'
      refine ⟨List.mem_range.mpr hlt, BitVec.isLt _, ?_⟩
      change (if c.1 < files.length then cellsOf files c.1 else []).length ≤
        wordAddress (fileAt files c.1) c.2
      rw [if_pos hlt, cellsOf, List.length_map, List.length_range]
      exact Nat.not_lt.mp ht'
  lay_done i hi := absurd hi (Nat.not_lt_zero i)
  lay_current hk := by
    rw [if_pos hk, cellsFrom_append (Nat.zero_le _) (hd.codeEnd_le hk), cellsOf_eq]
  lay_todo i _ hi := if_pos hi
  lay_section p hp := by
    rw [if_neg (Nat.not_lt.mpr (hfresh p hp)), eq_comm, List.filter_eq_nil_iff]
    intro c hc
    rw [metCells, List.range_zero, List.flatMap_nil, List.nil_append, mem_cellsFrom] at hc
    obtain ⟨hck, -, hlt⟩ := hc
    have hk : 0 < files.length := by
      by_contra h
      rw [codeEnd_of_ge (by omega)] at hlt
      omega
    have hcc : c ∈ allCells files := mem_allCells.mpr (by
      rw [hck]
      exact hlt.trans_le (hd.codeEnd_le hk))
    rw [sectionOf_eq_none_iff.mpr ((hd.partOf_eq_none_iff ls hcc).mpr (by rwa [hck]))]
    simp
  own _ := .inl rfl
  code _ _ := rfl
  part _ _ _ _ h _ _ := h
  output_file i hi := by
    rw [(hfile i hi).2]
    exact List.Perm.refl _
  output_section p hp := by
    obtain ⟨l, -, hheap⟩ := hsection p hp
    rw [hheap]
    rfl
  section_todo i _ hi := by
    rw [(hfile i hi).2]
    rfl

/-- **`bins_sectionize` succeeds**: the file bins are left with their non-section code, and
each section bin has all parts of its section. -/
theorem binsSectionize_ok (ls : ListSort) {files : List LdBin} (hd : Linkable files) :
    ∃ s nm create lay loc, binsSectionize ls (binsAssociate (binsLoad files)) = .ok s ∧
      s.bins = List.range files.length ++ create ∧ s.next ∉ s.bins ∧ nm s.next = outputName ∧
      (∀ k < files.length, nm k = (fileAt files k).name) ∧ SectionBins files nm create ∧
      Cutting ls files nm create files.length (codeEnd ls files files.length) s.heap lay loc := by
  set s₀ := binsAssociate (binsLoad files) with hs₀
  have hheap₀ : ∀ k < files.length, s₀.heap k = (fileAt files k).associate := fun k hk =>
    if_pos (List.mem_range.mpr hk)
  have hcreated := createSections_ok s₀
  rcases hr : createSections s₀ with ⟨s₁, create⟩
  rw [hr] at hcreated
  set nm : BinPtr → Bstring :=
    fun p => if p = s₁.next then outputName else (s₁.heap p).name with hnm
  have hfresh : ∀ p ∈ create, files.length ≤ p ∧ p ≠ s₁.next := fun p hp =>
    ⟨(hcreated.fresh p hp).1, Nat.ne_of_lt (hcreated.fresh p hp).2⟩
  have hnext : files.length ≤ s₁.next := hcreated.next_le
  have hfile : ∀ k < files.length, nm k = (fileAt files k).name ∧
      s₁.heap k = (fileAt files k).associate := fun k hk => by
    have hk' : s₁.heap k = (fileAt files k).associate := (hcreated.old k hk).trans (hheap₀ k hk)
    refine ⟨?_, hk'⟩
    rw [hnm]
    simp only
    rw [if_neg (Nat.ne_of_lt (hk.trans_le hnext)), hk']
    rfl
  have hname : ∀ p ∈ create, nm p = (s₁.heap p).name := fun p hp => if_neg (hfresh p hp).2
  have hmet : ∀ e, e ∈ s₀.bins.flatMap (fun p => (s₀.heap p).tables .section) ↔
      ∃ f ∈ files, e ∈ f.tables .section := fun e => by
    rw [List.mem_flatMap]
    constructor
    · rintro ⟨k, hk, he⟩
      have hk' : k < files.length := List.mem_range.mp hk
      rw [hheap₀ k hk'] at he
      exact ⟨fileAt files k, fileAt_mem hk', he⟩
    · rintro ⟨f, hf, he⟩
      obtain ⟨k, hk, rfl⟩ := exists_fileAt hf
      exact ⟨k, List.mem_range.mpr hk, by rw [hheap₀ k hk]; exact he⟩
  have hb : SectionBins files nm create := by
    refine ⟨hcreated.nodup, fun p hp => (hfresh p hp).1, fun p hp => ?_, fun f hf e he => ?_⟩
    · obtain ⟨e, he, hp'⟩ := hcreated.new p hp
      obtain ⟨f, hf, he'⟩ := (hmet e).mp he
      exact ⟨f, hf, e, he', by rw [hname p hp, hp']; rfl⟩
    · obtain ⟨p, hp, hn⟩ := hcreated.all e ((hmet e).mpr ⟨f, hf, he⟩)
      exact ⟨p, hp, by rw [hname p hp, hn]⟩
  have C₀ : Cutting ls files nm create 0 (codeEnd ls files 0) s₁.heap
      (fun p => if p < files.length then cellsOf files p else []) locLoaded :=
    Cutting.init hd hfile
      (fun p hp => by
        obtain ⟨e, -, hp'⟩ := hcreated.new p hp
        exact ⟨e.label, by rw [hname p hp, hp']; rfl, hp'⟩)
      (fun p hp q hq h => hcreated.tells p hp q hq (by rwa [← hname p hp, ← hname q hq]))
      fun p hp => (hfresh p hp).1
  obtain ⟨heap, lay, loc, hok, C⟩ := sectionizeLoop_ok hd hb files.length (Nat.zero_add _) C₀
    fun h => by rw [(hfile 0 h).2]; rfl
  have hbins : s₁.bins = List.range files.length := hcreated.bins
  refine ⟨⟨heap, List.range files.length ++ create, s₁.next⟩, nm, create, lay, loc, ?_, rfl, ?_,
    if_pos rfl, fun k hk => (hfile k hk).1, hb, C⟩
  · rw [binsSectionize, binsPrint_ok (sourceOf files) nm locLoaded
      fun p hp => ?_]
    · simp only [hr]
      rw [← List.range_eq_range'] at hok
      change (sectionizeLoop ls s₁.bins create s₁.bins s₁.heap >>= _) = _
      rw [hbins, hok]
      change (binsPrint heap (List.range files.length ++ create) >>= _) = _
      rw [binsPrint_ok (sourceOf files) nm loc fun p hp => ⟨lay p, (C.linked.hold p hp).2⟩]
      rfl
    · have hp' : p < files.length := List.mem_range.mp hp
      refine ⟨cellsOf files p, ?_⟩
      rw [hheap₀ p hp']
      exact hd.holds_file hp' (hfile p hp').1
  · intro h
    rcases List.mem_append.mp h with h | h
    · exact absurd (List.mem_range.mp h) (Nat.not_lt.mpr hnext)
    · exact (hfresh _ h).2 rfl

end DcpuToolchain
