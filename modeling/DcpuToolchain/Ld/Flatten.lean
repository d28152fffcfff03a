import DcpuToolchain.Ld.Sectionize

/-!
# Stringing the bins together

The first loop of `DcpuToolchain.binsFlatten` moves what is left in the file bins into the
target (`DcpuToolchain.flattenFiles_ok`), the second weaves the section bins in at the
outputs, the last output first (`DcpuToolchain.flattenOutputs_ok`).
-/

namespace DcpuToolchain

open Marks Moves Weave

/-! ### The file bins -/

section Files

variable (ls : ListSort) (files : List LdBin)

/-- The non-section code of the first files. -/
def codeTo (j : ℕ) : List Cell :=
  (List.range j).flatMap fun i => cellsFrom i 0 (codeEnd ls files i)

/-- The outputs of the first files, at their addresses in the non-section code. -/
def outputsTo (j : ℕ) : List LconvEntry :=
  (List.range j).flatMap fun k => ((fileAt files k).tables .output).map fun o =>
    withAddress o ((codeTo ls files k).length + o.address)

/-- **The state of the first loop** when it has come to file `j`. -/
structure Flattening (nm : BinPtr → Bstring) (create : List BinPtr) (target : BinPtr) (j : ℕ)
    (heap : Heap) (lay : BinPtr → List Cell) (loc : Cell → BinPtr × ℕ) : Prop where
  linked : Linked (sourceOf files) nm (allCells files) (List.range files.length)
    (target :: (List.range files.length ++ create)) (target :: (List.range files.length ++ create))
    heap lay loc
  lay_target : lay target = codeTo ls files j
  lay_done : ∀ i < j, lay i = []
  lay_todo : ∀ i, j ≤ i → i < files.length → lay i = cellsFrom i 0 (codeEnd ls files i)
  lay_section : ∀ p ∈ create, lay p = sectionCells files (labelOf nm p)
  own : ∀ c : Cell, (loc c).1 = c.1 ∨ files.length ≤ (loc c).1
  output_target : ((heap target).tables .output).Perm (outputsTo ls files j)
  output_todo : ∀ i, j ≤ i → i < files.length →
    ((heap i).tables .output).Perm ((fileAt files i).tables .output)

variable {ls files} {nm : BinPtr → Bstring} {create : List BinPtr} {target : BinPtr} {j : ℕ}
  {heap : Heap} {lay : BinPtr → List Cell} {loc : Cell → BinPtr × ℕ}

variable (ls) in
theorem Linkable.output_le_codeEnd (hd : Linkable files) (hj : j < files.length)
    {o : LconvEntry} (ho : o ∈ (fileAt files j).tables .output) :
    o.address ≤ codeEnd ls files j := by
  rcases hs : sortedSections ls files j with - | ⟨e, es⟩
  · rw [codeEnd, hs]
    exact hd.output_le _ (fileAt_mem hj) o ho
  · exact ((codeEnd_le_of_mem hd hj (by rw [hs, List.nil_append])).2 o ho).le

/-- The outputs of a file are copied, at their addresses in the target. -/
theorem insertEntries_output {tolist fromlist : List LconvEntry} {size pos : ℕ}
    (h : ∀ o ∈ fromlist, o.address ≤ size) (hb : pos + size < 0x10000) :
    insertEntries true false size pos 0 size tolist fromlist =
      tolist ++ fromlist.map fun o => withAddress o (pos + o.address) := by
  rw [insertEntries, if_pos rfl, if_neg (by simp), List.filter_eq_self.mpr fun o ho => ?_]
  · refine congrArg (tolist ++ ·) (List.map_congr_left fun o ho => ?_)
    have := h o ho
    change withAddress o (u16 (pos + (o.address - 0))) = _
    rw [Nat.sub_zero, u16_of_lt (by omega)]
  · have : o.address ≤ size := h o ho
    rw [copied, decide_eq_true_iff]
    change 0 ≤ o.address ∧ (o.address < _ ∨ (size ≤ o.address ∧ _))
    omega

namespace Flattening

variable {c : Cell} {p : BinPtr}

omit ls in
theorem le_target (htarget : target ∉ List.range files.length ++ create) :
    files.length ≤ target := by
  by_contra h
  exact htarget (List.mem_append_left _ (List.mem_range.mpr (Nat.lt_of_not_le h)))

/-- Where the cells are after the move. -/
def locMoved (target : BinPtr) (j : ℕ) (lay : BinPtr → List Cell) (loc : Cell → BinPtr × ℕ) :
    Cell → BinPtr × ℕ :=
  insertLoc target j (lay target).length 0 (lay j).length ∘ loc

/-- What the bins hold after the move. -/
def layMoved (target : BinPtr) (j : ℕ) (lay : BinPtr → List Cell) : BinPtr → List Cell :=
  Function.update (Function.update lay target (lay target ++ lay j)) j []

theorem layMoved_other (ht : p ≠ target) (hj : p ≠ j) : layMoved target j lay p = lay p := by
  rw [layMoved, Function.update_of_ne hj, Function.update_of_ne ht]

/-- No cell is left in the file bin. -/
theorem locMoved_cell (F : Flattening ls files nm create target j heap lay loc)
    (hj : j < files.length) (htj : target ≠ j) (hc : c ∈ allCells files) :
    (locMoved target j lay loc c).1 ≠ j := by
  have hlive : j ∈ target :: (List.range files.length ++ create) :=
    List.mem_cons_of_mem _ (List.mem_append_left _ (List.mem_range.mpr hj))
  have hlayj : lay j = [] ++ lay j ++ [] := by simp
  by_cases hB : c ∈ lay j
  · have hP := Placed.insert (X := lay target) (Y := []) (A := []) (B := lay j) (C := []) htj
      (by rw [List.append_nil]; exact F.linked.placed target List.mem_cons_self)
      (by rw [← hlayj]; exact F.linked.placed j hlive)
    rw [List.append_nil, List.length_nil] at hP
    obtain ⟨i, hi, hic⟩ := List.getElem_of_mem (List.mem_append_right (lay target) hB)
    rw [locMoved, hP i c (by rw [List.getElem?_eq_getElem hi, hic])]
    exact htj
  · have h := F.linked.insertLoc_fst target (lay target).length hc hlayj hB
    rw [List.length_nil] at h
    rw [locMoved, Function.comp_apply, h]
    obtain ⟨p, -, i, hi, hli, -⟩ := F.linked.loc_cell hc
    rw [hli]
    rintro rfl
    exact hB (List.mem_of_getElem? hi)

/-- A target that is no cell stays in the bin of its file, and what refers to it is
non-section code. -/
theorem locMoved_away (F : Flattening ls files nm create target j heap lay loc)
    (hd : Linkable files) (htarget : target ∉ List.range files.length ++ create)
    (hc : c ∈ allCells files) (hadj : (sourceOf files).adjusted c ≠ [])
    (ht : targetOf files c ∉ allCells files) :
    locMoved target j lay loc (targetOf files c) = loc (targetOf files c) ∧
      (loc (targetOf files c)).1 = c.1 ∧ partOf (fileAt files c.1) c.2 = none := by
  refine ⟨F.linked.insertLoc_away hc hadj ht (fun h => htarget (List.mem_append_left _ h))
    (by simp), ?_, ?_⟩
  · rcases F.own (targetOf files c) with h | h
    · exact h
    · have := (F.linked.away c hc hadj ht).1
      exact absurd (List.mem_range.mp this) (Nat.not_lt.mpr h)
  · by_contra hp
    exact ht (hd.refers_cell hc hadj hp).1

/-- The file bins hold cells of their files. -/
theorem of_mem_file (F : Flattening ls files nm create target j heap lay loc)
    (hp : p < files.length) (hc : c ∈ lay p) : c ∈ allCells files ∧ c.1 = p := by
  refine ⟨F.linked.sound p
    (List.mem_cons_of_mem _ (List.mem_append_left _ (List.mem_range.mpr hp))) c hc, ?_⟩
  rcases Nat.lt_or_ge p j with h | h
  · rw [F.lay_done p h] at hc
    exact absurd hc List.not_mem_nil
  · rw [F.lay_todo p h hp] at hc
    exact (mem_cellsFrom.mp hc).1

/-- The section bins hold cells of sections. -/
theorem of_mem_section (F : Flattening ls files nm create target j heap lay loc)
    (hp : p ∈ create) (hc : c ∈ lay p) :
    c ∈ allCells files ∧ partOf (fileAt files c.1) c.2 ≠ none := by
  rw [F.lay_section p hp, sectionCells, List.mem_filter, decide_eq_true_iff] at hc
  refine ⟨hc.1, fun h => ?_⟩
  rw [sectionOf_eq_none_iff.mpr h] at hc
  exact absurd hc.2 (by simp)

/-- Nothing in another bin refers to the file bin any more. -/
theorem locMoved_ne (F : Flattening ls files nm create target j heap lay loc)
    (hd : Linkable files) (htarget : target ∉ List.range files.length ++ create)
    (hj : j < files.length) (hp : p ∈ List.range files.length ++ create) (hpj : p ≠ j)
    (hc : c ∈ lay p) (hadj : (sourceOf files).adjusted c ≠ []) :
    (locMoved target j lay loc (targetOf files c)).1 ≠ j := by
  by_cases ht : targetOf files c ∈ allCells files
  · exact F.locMoved_cell hj (Nat.ne_of_gt (hj.trans_le (le_target htarget))) ht
  · rcases List.mem_append.mp hp with hpf | hpc
    · obtain ⟨hcc, hcp⟩ := F.of_mem_file (List.mem_range.mp hpf) hc
      obtain ⟨h1, h2, -⟩ := F.locMoved_away hd htarget hcc hadj ht
      rw [h1, h2, hcp]
      exact hpj
    · obtain ⟨hcc, hcp⟩ := F.of_mem_section hpc hc
      exact absurd (F.locMoved_away hd htarget hcc hadj ht).2.2 hcp

/-- **One file bin is moved into the target.** -/
theorem step (F : Flattening ls files nm create target j heap lay loc) (hd : Linkable files)
    (hb : SectionBins files nm create)
    (htarget : target ∉ List.range files.length ++ create) (hj : j < files.length) :
    ∃ heap', binMove ls false (List.range files.length ++ create) target j
        (lay target).length 0 (lay j).length heap = .ok heap' ∧
      Flattening ls files nm create target (j + 1) heap' (layMoved target j lay)
        (locMoved target j lay loc) := by
  have hjall : j ∈ List.range files.length ++ create :=
    List.mem_append_left _ (List.mem_range.mpr hj)
  have htn := le_target htarget
  have htj : target ≠ j := Nat.ne_of_gt (hj.trans_le htn)
  have htfiles : target ∉ List.range files.length := fun h => htarget (List.mem_append_left _ h)
  have hlayj : lay j = [] ++ lay j ++ [] := by simp
  have hnotTarget : ∀ p ∈ List.range files.length ++ create, p ≠ target := fun p hp =>
    ne_of_mem_of_not_mem hp htarget
  obtain ⟨heap', hok, hlinked, -, hout, houtTo, -⟩ :=
    F.linked.move (locMoved target j lay loc) (locMoved target j lay loc)
      (List.range files.length ++ create) (A := []) (B := lay j) (C := []) ls false
      (List.nodup_append.mpr ⟨List.nodup_range, hb.nodup, fun a ha b hb' h => by
        exact absurd (List.mem_range.mp ha) (Nat.not_lt.mpr (h ▸ hb.fresh b hb'))⟩)
      (fun p hp => List.mem_cons_of_mem _ hp) htarget hjall List.mem_cons_self
      (List.mem_cons_of_mem _ hjall) htfiles rfl hlayj
      (fun p hp hpt hpa => absurd ((List.mem_cons.mp hp).resolve_left hpt) hpa)
      (by rw [List.length_nil, locMoved]) (layMoved target j lay)
        (by rw [List.append_nil, layMoved])
      (fun c hc => (removeLoc_of_ne (F.locMoved_cell hj htj hc)).symm)
      (fun p hp c hc hadj ht => by
        by_cases hpj : p = j
        · rw [hpj, layMoved, Function.update_self] at hc
          exact absurd hc List.not_mem_nil
        · rw [layMoved_other (hnotTarget p hp) hpj] at hc
          exact (removeLoc_of_ne (F.locMoved_ne hd htarget hj hp hpj hc hadj)).symm)
      (fun _ _ _ _ _ _ => rfl)
      (fun p hp hpj c hc hadj => F.locMoved_ne hd htarget hj hp hpj hc hadj)
      (fun c hc => absurd hc List.not_mem_nil)
      (fun c hc hadj ht => by
        obtain ⟨h1, -, -⟩ := F.locMoved_away hd htarget hc hadj ht
        obtain ⟨h3, h4, h5⟩ := F.linked.away c hc hadj ht
        change (locMoved target j lay loc (targetOf files c)).1 ∈ _ ∧
          (locMoved target j lay loc (targetOf files c)).2 < _ ∧
          (layMoved target j lay (locMoved target j lay loc (targetOf files c)).1).length ≤
            (locMoved target j lay loc (targetOf files c)).2
        rw [h1]
        refine ⟨h3, h4, ?_⟩
        by_cases hk : (loc (targetOf files c)).1 = j
        · rw [hk, layMoved, Function.update_self]
          exact Nat.zero_le _
        · have h3' : (loc (targetOf files c)).1 ∈ List.range files.length := h3
          rw [layMoved_other (ne_of_mem_of_not_mem h3' htfiles) hk]
          exact h5)
  rw [List.nil_append, List.append_nil, List.length_nil] at houtTo
  rw [List.length_nil] at hok
  refine ⟨heap', hok, ⟨hlinked, ?_, fun i hi => ?_, fun i hi hin => ?_, fun p hp => ?_,
    fun c => ?_, ?_, fun i hi hin => ?_⟩⟩
  · rw [layMoved, Function.update_of_ne htj, Function.update_self, F.lay_target,
      F.lay_todo j (Nat.le_refl _) hj, codeTo, codeTo, List.range_succ, List.flatMap_append,
      List.flatMap_singleton]
  · rcases Nat.lt_succ_iff_lt_or_eq.mp hi with hi | rfl
    · rw [layMoved_other (Nat.ne_of_lt ((hi.trans hj).trans_le htn)) (Nat.ne_of_lt hi),
        F.lay_done i hi]
    · rw [layMoved, Function.update_self]
  · rw [layMoved_other (Nat.ne_of_lt (hin.trans_le htn)) (Nat.ne_of_gt hi),
      F.lay_todo i (by omega) hin]
  · rw [layMoved_other (hnotTarget p (List.mem_append_right _ hp))
      (Nat.ne_of_gt (hj.trans_le (hb.fresh p hp))), F.lay_section p hp]
  · rw [locMoved, Function.comp_apply]
    rcases insertLoc_fst target j (lay target).length 0 (lay j).length (loc c) with h | h
    · rw [h]
      exact F.own c
    · rw [h]
      exact .inr htn
  · have hle : ∀ o ∈ ls.up ((heap j).tables .output), o.address ≤ (lay j).length := fun o ho => by
      rw [F.lay_todo j (Nat.le_refl _) hj, length_cellsFrom, Nat.sub_zero]
      exact hd.output_le_codeEnd ls hj ((F.output_todo j (Nat.le_refl _) hj).mem_iff.mp
        ((ls.up_perm _).mem_iff.mp ho))
    have hlen : (lay target).length + (lay j).length < 0x10000 := by
      have h1 := hlinked.length_lay (p := target) List.mem_cons_self
      have h2 := hlinked.size_lt
      rw [layMoved, Function.update_of_ne htj, Function.update_self, List.length_append] at h1
      omega
    rw [houtTo, insertEntries_output hle hlen, outputsTo, List.range_succ, List.flatMap_append,
      List.flatMap_singleton]
    refine F.output_target.append ?_
    rw [F.lay_target]
    exact ((ls.up_perm _).trans (F.output_todo j (Nat.le_refl _) hj)).map _
  · exact (hout i (Nat.ne_of_lt (hin.trans_le htn)) (Nat.ne_of_gt hi)).trans
      (F.output_todo i (by omega) hin)

end Flattening

/-- The names of file bins are not section names. -/
theorem Linkable.name_take (hd : Linkable files) (hj : j < files.length) :
    (fileAt files j).name.take 8 ≠ sectionPrefix :=
  hd.name_not_section _ (fileAt_mem hj)

/-- Section bins are passed over. -/
theorem flattenFiles_skip {bins rest : List BinPtr}
    (h : ∀ p ∈ rest, (heap p).name.take 8 = sectionPrefix) :
    flattenFiles ls bins target rest heap = .ok heap := by
  induction rest with
  | nil => rfl
  | cons p rest ih =>
    rw [List.forall_mem_cons] at h
    rw [flattenFiles, if_pos h.1, ih h.2]

/-- **All file bins are moved into the target.** -/
theorem flattenFiles_ok (hd : Linkable files) (hb : SectionBins files nm create)
    (htarget : target ∉ List.range files.length ++ create)
    (hnm : ∀ k < files.length, nm k = (fileAt files k).name) (n : ℕ) (hjn : j + n = files.length)
    (F : Flattening ls files nm create target j heap lay loc) :
    ∃ heap' lay' loc', flattenFiles ls (List.range files.length ++ create) target
        (List.range' j n ++ create) heap = .ok heap' ∧
      Flattening ls files nm create target files.length heap' lay' loc' := by
  induction n generalizing j heap lay loc with
  | zero =>
    refine ⟨heap, lay, loc, ?_, ?_⟩
    · rw [List.range'_zero, List.nil_append]
      refine flattenFiles_skip fun p hp => ?_
      obtain ⟨f, -, e, -, hn⟩ := hb.used p hp
      have := (F.linked.hold p (List.mem_cons_of_mem _ (List.mem_append_right _ hp))).1
      rw [this, hn]
      rfl
    · rw [← hjn]
      exact F
  | succ n ih =>
    have hj : j < files.length := by omega
    have hmem : j ∈ target :: (List.range files.length ++ create) :=
      List.mem_cons_of_mem _ (List.mem_append_left _ (List.mem_range.mpr hj))
    obtain ⟨heap₁, hok, F₁⟩ := F.step hd hb htarget hj
    obtain ⟨heap', lay', loc', hok', F'⟩ := ih (by omega) F₁
    refine ⟨heap', lay', loc', ?_, F'⟩
    have hn := (F.linked.hold j hmem).1
    rw [List.range'_succ, List.cons_append, flattenFiles, hn, hnm j hj,
      if_neg (hd.name_take hj), (F.linked.hold target List.mem_cons_self).2.length_words,
      (F.linked.hold j hmem).2.length_words, hok]
    exact hok'

end Files

/-! ### The code of all files -/

section Code

variable {ls : ListSort} {files : List LdBin} {j : ℕ}

/-- The non-section code of a file is what lies before its first section. -/
theorem Linkable.filter_cellsOf (hd : Linkable files) (hj : j < files.length) :
    (cellsOf files j).filter (sectionOf files · = none) =
      cellsFrom j 0 (codeEnd ls files j) := by
  have hcell : ∀ c ∈ cellsOf files j, (sectionOf files c = none ↔ c.2 < codeEnd ls files j) :=
    fun c hc => by
      obtain ⟨hcj, hlt⟩ := mem_cellsOf.mp hc
      have hcc : c ∈ allCells files := mem_allCells.mpr (by rwa [hcj])
      rw [sectionOf_eq_none_iff, hd.partOf_eq_none_iff ls hcc, hcj]
  have hsplit : cellsOf files j = cellsFrom j 0 (codeEnd ls files j) ++
      cellsFrom j (codeEnd ls files j) (fileAt files j).words.length := by
    rw [cellsOf_eq, cellsFrom_append (Nat.zero_le _) (hd.codeEnd_le hj)]
  rw [hsplit, List.filter_append, List.filter_eq_self.mpr fun c hc => ?_,
    List.filter_eq_nil_iff.mpr fun c hc => ?_, List.append_nil]
  · have hc' : c ∈ cellsOf files j := by
      rw [hsplit]
      exact List.mem_append_right _ hc
    have := (mem_cellsFrom.mp hc).2.1
    rw [decide_eq_true_iff, hcell c hc']
    omega
  · have hc' : c ∈ cellsOf files j := by
      rw [hsplit]
      exact List.mem_append_left _ hc
    have := (mem_cellsFrom.mp hc).2.2
    rw [decide_eq_true_iff, hcell c hc']
    exact this

variable (ls) in
theorem Linkable.codeCells_eq (hd : Linkable files) :
    codeCells files = codeTo ls files files.length := by
  rw [codeCells, allCells, List.filter_flatMap, codeTo]
  refine List.flatMap_congr fun j hj => ?_
  exact hd.filter_cellsOf (List.mem_range.mp hj)

variable (ls) in
theorem Linkable.codeBefore_eq (hd : Linkable files) (hj : j ≤ files.length) :
    codeBefore files j = (codeTo ls files j).length := by
  rw [codeBefore, hd.codeCells_eq ls, codeTo, codeTo, List.filter_flatMap]
  obtain ⟨d, hd'⟩ := Nat.exists_eq_add_of_le hj
  rw [hd', List.range_add, List.flatMap_append, List.length_append, List.flatMap_map]
  have h1 : (List.range j).flatMap (fun i => (cellsFrom i 0 (codeEnd ls files i)).filter
      (·.1 < j)) = (List.range j).flatMap fun i => cellsFrom i 0 (codeEnd ls files i) := by
    refine List.flatMap_congr fun i hi => List.filter_eq_self.mpr fun c hc => ?_
    rw [(mem_cellsFrom.mp hc).1]
    simpa using hi
  have h2 : (List.range d).flatMap (fun i => (cellsFrom (j + i) 0 (codeEnd ls files (j + i))).filter
      (·.1 < j)) = [] := by
    rw [List.flatMap_eq_nil_iff]
    intro i _
    refine List.filter_eq_nil_iff.mpr fun c hc => ?_
    rw [(mem_cellsFrom.mp hc).1]
    simp
  rw [h1, h2, List.length_nil, Nat.add_zero]

variable (ls) in
theorem Linkable.outputs_eq (hd : Linkable files) :
    outputs files = outputsTo ls files files.length := by
  rw [outputs, outputsTo]
  refine List.flatMap_congr fun k hk => ?_
  rw [hd.codeBefore_eq ls (List.mem_range.mp hk).le]

end Code

/-! ### The section bins -/

section Outputs

variable (files : List LdBin) (nm : BinPtr → Bstring) (create : List BinPtr) (target : BinPtr)

/-- What the outputs that were met put before an address of the code. -/
def blocks (met : List LconvEntry) (a : ℕ) : List Cell :=
  ((met.filter (·.address = a)).reverse.map LconvEntry.label).flatMap (sectionCells files)

/-- The bins that are still counted: the section bins of the outputs that were met have
gone into the target. -/
def liveBins (met : List LconvEntry) : List BinPtr :=
  target :: (List.range files.length ++
    create.filter fun p => ∀ e ∈ met, e.label ≠ labelOf nm p)

/-- **The state of the second loop** when it has met some outputs. -/
structure Weaving (met : List LconvEntry) (heap : Heap) (lay : BinPtr → List Cell)
    (loc : Cell → BinPtr × ℕ) : Prop where
  linked : Linked (sourceOf files) nm (allCells files) (List.range files.length)
    (target :: (List.range files.length ++ create)) (liveBins files nm create target met)
    heap lay loc
  lay_target : lay target = weave (blocks files met) 0 (codeCells files)
  lay_file : ∀ i < files.length, lay i = []
  lay_section : ∀ p ∈ create, lay p = sectionCells files (labelOf nm p)

variable {files nm create target} {ls : ListSort} {met : List LconvEntry} {e : LconvEntry}
  {heap : Heap} {lay : BinPtr → List Cell} {loc : Cell → BinPtr × ℕ} {p : BinPtr}

theorem blocks_append_self (met : List LconvEntry) (e : LconvEntry) :
    blocks files (met ++ [e]) e.address =
      sectionCells files e.label ++ blocks files met e.address := by
  rw [blocks, List.filter_append, List.filter_cons_of_pos (by simp), List.filter_nil,
    List.reverse_append]
  rfl

theorem blocks_append_of_ne {a : ℕ} (h : a ≠ e.address) :
    blocks files (met ++ [e]) a = blocks files met a := by
  rw [blocks, List.filter_append, List.filter_cons_of_neg (by simpa using h.symm), List.filter_nil,
    List.append_nil]
  rfl

theorem SectionBins.name_eq (hb : SectionBins files nm create) (hp : p ∈ create) :
    nm p = sectionName (labelOf nm p) := by
  obtain ⟨f, -, e', -, hn⟩ := hb.used p hp
  rw [labelOf, hn, drop_sectionName]

/-- A bin with a section name is the section bin. -/
theorem Weaving.of_binSeek (W : Weaving files nm create target met heap lay loc)
    (hd : Linkable files) (hnm : ∀ k < files.length, nm k = (fileAt files k).name)
    {label : Bstring}
    (h : binSeek heap (List.range files.length ++ create) (sectionName label) = some p) :
    p ∈ create ∧ nm p = sectionName label := by
  have hmem := List.mem_of_find?_eq_some h
  have hn : nm p = sectionName label := by
    rw [← (W.linked.hold p (List.mem_cons_of_mem _ hmem)).1]
    simpa using List.find?_some h
  rcases List.mem_append.mp hmem with hp | hp
  · have hp' := List.mem_range.mp hp
    rw [hnm p hp'] at hn
    exact absurd (congrArg (List.take 8) hn) (hd.name_take hp')
  · exact ⟨hp, hn⟩

/-- Where no section bin is found there is no code for the output. -/
theorem Weaving.of_binSeek_none (W : Weaving files nm create target met heap lay loc)
    (hb : SectionBins files nm create) {label : Bstring}
    (h : binSeek heap (List.range files.length ++ create) (sectionName label) = none) :
    (∀ p ∈ create, nm p ≠ sectionName label) ∧ sectionCells files label = [] := by
  have hno : ∀ p ∈ create, nm p ≠ sectionName label := fun p hp hn => by
    rw [binSeek, List.find?_eq_none] at h
    refine h p (List.mem_append_right _ hp) ?_
    rw [decide_eq_true_iff,
      (W.linked.hold p (List.mem_cons_of_mem _ (List.mem_append_right _ hp))).1, hn]
  refine ⟨hno, List.filter_eq_nil_iff.mpr fun c hc hs => ?_⟩
  obtain ⟨e, he, hl⟩ := Option.map_eq_some_iff.mp (decide_eq_true_iff.mp hs)
  obtain ⟨p, hp, hn⟩ := hb.all _ (fileAt_mem (lt_length_of_mem_allCells hc)) e
    (of_partOf_eq_some he).1
  exact hno p hp (by rw [hn, hl])

/-- **One section is woven in.** -/
theorem Weaving.step (ls : ListSort) (W : Weaving files nm create target met heap lay loc)
    (hb : SectionBins files nm create) (htarget : target ∉ List.range files.length ++ create)
    (hle : e.address ≤ (codeCells files).length) (hmet : ∀ o ∈ met, e.address ≤ o.address)
    (hp : p ∈ create) (hn : nm p = sectionName e.label) (hnew : ∀ o ∈ met, o.label ≠ e.label) :
    ∃ heap' lay' loc', binInsert ls true (List.range files.length ++ create) target p e.address 0
        (heap p).words.length heap = .ok heap' ∧
      Weaving files nm create target (met ++ [e]) heap' lay' loc' := by
  have hall : p ∈ List.range files.length ++ create := List.mem_append_right _ hp
  have hpt : p ≠ target := ne_of_mem_of_not_mem hall htarget
  have hlabel : labelOf nm p = e.label := by rw [labelOf, hn, drop_sectionName]
  have hX : ((lay target).take e.address).length = e.address := by
    rw [List.length_take, W.lay_target]
    exact Nat.min_eq_left (hle.trans length_le_weave)
  obtain ⟨heap', hok, hlinked, -, -⟩ := W.linked.consume (List.range files.length ++ create)
    (X := (lay target).take e.address) (Y := (lay target).drop e.address)
    ls true
    (List.nodup_append.mpr ⟨List.nodup_range, hb.nodup, fun a ha b hb' h => by
      exact absurd (List.mem_range.mp ha) (Nat.not_lt.mpr (h ▸ hb.fresh b hb'))⟩)
    (fun q hq => List.mem_cons_of_mem _ hq) htarget hall List.mem_cons_self
    (List.mem_cons_of_mem _ (List.mem_append_right _ (List.mem_filter.mpr
      ⟨hp, by rw [decide_eq_true_iff, hlabel]; exact hnew⟩)))
    (fun h => htarget (List.mem_append_left _ h)) (List.take_append_drop _ _).symm
    (fun q hq => hq) (liveBins files nm create target (met ++ [e])) (fun q => by
      simp only [liveBins, List.mem_cons, List.mem_append, List.mem_filter, List.mem_range,
        decide_eq_true_iff, List.not_mem_nil, or_false]
      constructor
      · rintro (rfl | hq | ⟨hq, h⟩)
        · exact ⟨.inl rfl, hpt.symm⟩
        · exact ⟨.inr (.inl hq), Nat.ne_of_lt (hq.trans_le (hb.fresh p hp))⟩
        · refine ⟨.inr (.inr ⟨hq, fun o ho => h o (.inl ho)⟩), ?_⟩
          rintro rfl
          exact h e (.inr rfl) hlabel.symm
      · rintro ⟨rfl | hq | ⟨hq, h⟩, hqp⟩
        · exact .inl rfl
        · exact .inr (.inl hq)
        · refine .inr (.inr ⟨hq, fun o ho => ?_⟩)
          rcases ho with ho | rfl
          · exact h o ho
          · intro hl
            refine hqp (W.linked.tells q (List.mem_cons_of_mem _ (List.mem_append_right _ hq)) p
              (List.mem_cons_of_mem _ hall) ?_)
            rw [hb.name_eq hq, hn, hl])
  rw [hX] at hok hlinked
  refine ⟨heap', _, _, ?_, ⟨hlinked, ?_, fun i hi => ?_, fun q hq => ?_⟩⟩
  · rw [(W.linked.hold p (List.mem_cons_of_mem _ hall)).2.length_words, hok]
  · rw [Function.update_self, W.lay_target, W.lay_section p hp, hlabel,
      insert_weave _ hle fun i _ hi => ?_, Nat.zero_add]
    · refine weave_congr fun i _ _ => ?_
      by_cases hi : i = e.address
      · rw [hi, Function.update_self, blocks_append_self]
      · rw [Function.update_of_ne hi, blocks_append_of_ne hi]
    · rw [blocks, List.filter_eq_nil_iff.mpr fun o ho => ?_]
      · rfl
      · have := hmet o ho
        rw [decide_eq_true_iff]
        omega
  · rw [Function.update_of_ne, W.lay_file i hi]
    rintro rfl
    exact htarget (List.mem_append_left _ (List.mem_range.mpr hi))
  · rw [Function.update_of_ne (ne_of_mem_of_not_mem (List.mem_append_right _ hq) htarget),
      W.lay_section q hq]

/-- An output without code changes nothing. -/
theorem Weaving.skip (W : Weaving files nm create target met heap lay loc)
    (hb : SectionBins files nm create) (hno : ∀ p ∈ create, nm p ≠ sectionName e.label)
    (hcells : sectionCells files e.label = []) :
    Weaving files nm create target (met ++ [e]) heap lay loc where
  linked := by
    have hlive : liveBins files nm create target (met ++ [e]) =
        liveBins files nm create target met := by
      rw [liveBins, liveBins]
      congr 2
      refine List.filter_congr fun p hp => ?_
      rw [Bool.eq_iff_iff, decide_eq_true_iff, decide_eq_true_iff]
      constructor
      · exact fun h o ho => h o (List.mem_append_left _ ho)
      · intro h o ho
        rcases List.mem_append.mp ho with ho | ho
        · exact h o ho
        · rw [List.mem_singleton.mp ho]
          exact fun hl => hno p hp (by rw [hb.name_eq hp, hl])
    rw [hlive]
    exact W.linked
  lay_target := by
    rw [W.lay_target]
    refine weave_congr fun i _ _ => ?_
    by_cases hi : i = e.address
    · rw [hi, blocks_append_self, hcells, List.nil_append]
    · rw [blocks_append_of_ne hi]
  lay_file := W.lay_file
  lay_section := W.lay_section

/-- **All sections are woven in.** -/
theorem flattenOutputs_ok (ls : ListSort) (es : List LconvEntry) (hd : Linkable files)
    (hb : SectionBins files nm create)
    (hnm : ∀ k < files.length, nm k = (fileAt files k).name)
    (htarget : target ∉ List.range files.length ++ create)
    (W : Weaving files nm create target met heap lay loc)
    (hsorted : (met ++ es).Pairwise (·.address ≥ ·.address))
    (hle : ∀ e ∈ es, e.address ≤ (codeCells files).length)
    (hone : ∀ p ∈ create, ((met ++ es).filter (·.label = labelOf nm p)).length = 1) :
    ∃ heap' lay' loc', flattenOutputs ls (List.range files.length ++ create) target es heap =
        .ok heap' ∧
      Weaving files nm create target (met ++ es) heap' lay' loc' := by
  induction es generalizing met heap lay loc with
  | nil =>
    rw [List.append_nil]
    exact ⟨heap, lay, loc, rfl, W⟩
  | cons e es ih =>
    rw [List.forall_mem_cons] at hle
    have hassoc : met ++ e :: es = met ++ [e] ++ es := by simp
    rw [hassoc] at hsorted hone ⊢
    rw [flattenOutputs]
    cases hseek : binSeek heap (List.range files.length ++ create) (sectionName e.label) with
    | none =>
      obtain ⟨hno, hcells⟩ := W.of_binSeek_none hb hseek
      exact ih (W.skip hb hno hcells) hsorted hle.2 hone
    | some p =>
      obtain ⟨hp, hn⟩ := W.of_binSeek hd hnm hseek
      have hlabel : labelOf nm p = e.label := by rw [labelOf, hn, drop_sectionName]
      have hmet : ∀ o ∈ met, e.address ≤ o.address := fun o ho =>
        (List.pairwise_append.mp (List.pairwise_append.mp hsorted).1).2.2 o ho e
          (List.mem_singleton_self _)
      have hnew : ∀ o ∈ met, o.label ≠ e.label := fun o ho hl => by
        have h1 := hone p hp
        rw [hlabel, List.filter_append, List.filter_append, List.length_append,
          List.length_append, List.filter_cons_of_pos (by simp), List.filter_nil,
          List.length_singleton] at h1
        have h2 : 0 < (met.filter (·.label = e.label)).length :=
          List.length_pos_of_mem (List.mem_filter.mpr ⟨ho, by simpa using hl⟩)
        omega
      obtain ⟨heap₁, lay₁, loc₁, hok, W₁⟩ := W.step ls hb htarget hle.1 hmet hp hn hnew
      obtain ⟨heap', lay', loc', hok', W'⟩ := ih W₁ hsorted hle.2 hone
      refine ⟨heap', lay', loc', ?_, W'⟩
      simp only [hok]
      exact hok'

end Outputs

end DcpuToolchain
