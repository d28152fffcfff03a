import DcpuToolchain.Ld.Flatten

/-!
# The flattened bin

`DcpuToolchain.linkFlat_ok` puts the two loops of `bins_sectionize` and the two of
`bins_flatten` together: files that are linked as documented end up in one bin that holds
all their cells, laid out as documented. Everything said about the words, the adjustments
and the marking entries of the flattened bin is read off that.
-/

namespace DcpuToolchain

open Marks Moves Weave

section

variable {ls : ListSort} {files : List LdBin} {nm : BinPtr → Bstring} {create : List BinPtr}
  {target : BinPtr} {heap : Heap} {lay : BinPtr → List Cell} {loc : Cell → BinPtr × ℕ}

variable (files) in
theorem map_fileAt_range : (List.range files.length).map (fileAt files) = files :=
  List.ext_getElem (by simp) fun k h1 h2 => by
    rw [List.getElem_map, List.getElem_range, fileAt_of_lt]

/-- There are as many outputs of a label in the non-section code as in the files. -/
theorem length_filter_outputs (label : Bstring) :
    ((outputs files).filter (·.label = label)).length =
      ((files.flatMap (·.tables .output)).filter (·.label = label)).length := by
  have hmap : (outputs files).map LconvEntry.label =
      (files.flatMap (·.tables .output)).map LconvEntry.label := by
    conv_rhs => rw [← map_fileAt_range files]
    rw [outputs, List.flatMap_map, List.map_flatMap, List.map_flatMap]
    refine List.flatMap_congr fun k _ => ?_
    rw [List.map_map]
    rfl
  have hcount : ∀ l : List LconvEntry, (l.filter (·.label = label)).length =
      ((l.map LconvEntry.label).filter (· = label)).length := fun l => by
    rw [List.filter_map, List.length_map]
    rfl
  rw [hcount, hcount, hmap]

/-- The bins of `bins_sectionize`, with an empty target beside them. -/
theorem Cutting.flattening
    (C : Cutting ls files nm create files.length (codeEnd ls files files.length) heap lay loc)
    (hb : SectionBins files nm create) (hd : Linkable files)
    (htarget : target ∉ List.range files.length ++ create) (hnt : nm target = outputName)
    (hnm : ∀ k < files.length, nm k = (fileAt files k).name) :
    Flattening ls files nm create target 0 (Function.update heap target (binCreate outputName))
      (Function.update lay target []) loc where
  linked := by
    have hne : ∀ p ∈ List.range files.length ++ create, p ≠ target := fun p hp =>
      ne_of_mem_of_not_mem hp htarget
    have hname : ∀ p ∈ List.range files.length ++ create, nm p ≠ outputName := fun p hp => by
      rcases List.mem_append.mp hp with hp | hp
      · rw [hnm p (List.mem_range.mp hp)]
        exact hd.name_ne_output _ (fileAt_mem (List.mem_range.mp hp))
      · rw [hb.name_eq hp]
        exact sectionName_ne_outputName _
    refine ⟨fun p hp => ?_, fun p hp => hp,
      fun p hp => List.mem_cons_of_mem _ (List.mem_append_left _ hp), fun p hp q hq h => ?_,
      C.linked.size_lt, fun p hp c hc => ?_, fun p hp => ?_, fun c hc => ?_, fun c hc hadj ht => ?_⟩
    · rcases List.mem_cons.mp hp with rfl | hp
      · rw [Function.update_self, Function.update_self]
        exact ⟨hnt.symm, holds_empty _⟩
      · rw [Function.update_of_ne (hne p hp), Function.update_of_ne (hne p hp)]
        exact C.linked.hold p hp
    · rcases List.mem_cons.mp hp with hp' | hp' <;> rcases List.mem_cons.mp hq with hq' | hq'
      · rw [hp', hq']
      · exact absurd (h.symm.trans (by rw [hp', hnt])) (hname q hq')
      · exact absurd (h.trans (by rw [hq', hnt])) (hname p hp')
      · exact C.linked.tells p hp' q hq' h
    · rcases List.mem_cons.mp hp with rfl | hp
      · rw [Function.update_self] at hc
        exact absurd hc List.not_mem_nil
      · rw [Function.update_of_ne (hne p hp)] at hc
        exact C.linked.sound p hp c hc
    · rcases List.mem_cons.mp hp with rfl | hp
      · rw [Function.update_self]
        exact placed_nil
      · rw [Function.update_of_ne (hne p hp)]
        exact C.linked.placed p hp
    · obtain ⟨p, hp, hcp⟩ := C.linked.covers c hc
      exact ⟨p, List.mem_cons_of_mem _ hp, by rwa [Function.update_of_ne (hne p hp)]⟩
    · obtain ⟨h1, h2, h3⟩ := C.linked.away c hc hadj ht
      rw [Function.update_of_ne (hne _ (List.mem_append_left _ h1))]
      exact ⟨h1, h2, h3⟩
  lay_target := by
    rw [Function.update_self]
    rfl
  lay_done i hi := absurd hi (Nat.not_lt_zero i)
  lay_todo i _ hi := by
    rw [Function.update_of_ne, C.lay_done i hi]
    rintro rfl
    exact htarget (List.mem_append_left _ (List.mem_range.mpr hi))
  lay_section p hp := by
    rw [Function.update_of_ne (ne_of_mem_of_not_mem (List.mem_append_right _ hp) htarget),
      C.lay_section p hp, metCells, codeEnd_of_ge (Nat.le_refl _), cellsFrom_self, List.append_nil]
    rfl
  own := C.own
  output_target := by
    rw [Function.update_self]
    exact List.Perm.nil
  output_todo i _ hi := by
    rw [Function.update_of_ne]
    · exact C.output_file i hi
    · rintro rfl
      exact htarget (List.mem_append_left _ (List.mem_range.mpr hi))

/-- The target with its outputs sorted, before the second loop. -/
theorem Flattening.weaving (hd : Linkable files)
    (F : Flattening ls files nm create target files.length heap lay loc) :
    Weaving files nm create target []
      (Function.update heap target ((heap target).sortOutputs ls)) lay loc where
  linked := by
    have hlive : liveBins files nm create target [] =
        target :: (List.range files.length ++ create) := by
      rw [liveBins, List.filter_eq_self.mpr fun p _ => by simp]
    rw [hlive]
    refine { F.linked with hold := fun p hp => ?_ }
    obtain ⟨hn, hH⟩ := F.linked.hold p hp
    by_cases hpt : p = target
    · subst hpt
      rw [Function.update_self]
      exact ⟨hn, hH.words, hH.adjustment, fun t ht => by
        have := hH.records t ht
        cases t <;> first | exact this | cases ht⟩
    · rw [Function.update_of_ne hpt]
      exact ⟨hn, hH⟩
  lay_target := by
    rw [F.lay_target, hd.codeCells_eq ls]
    exact (weave_nil fun _ _ _ => rfl).symm
  lay_file i hi := F.lay_done i hi
  lay_section := F.lay_section

variable (ls files) in
theorem length_codeTo_le {j n : ℕ} (h : j ≤ n) :
    (codeTo ls files j).length ≤ (codeTo ls files n).length := by
  obtain ⟨d, rfl⟩ := Nat.exists_eq_add_of_le h
  rw [codeTo, codeTo, List.range_add, List.flatMap_append, List.length_append]
  omega

/-- Every output is at an address of the code, or just behind it. -/
theorem Linkable.address_le_of_mem_outputs (hd : Linkable files) (ls : ListSort) {o : LconvEntry}
    (ho : o ∈ outputs files) : o.address ≤ (codeCells files).length := by
  rw [hd.outputs_eq ls, outputsTo, List.mem_flatMap] at ho
  obtain ⟨k, hk, ho⟩ := ho
  obtain ⟨o', ho', rfl⟩ := List.mem_map.mp ho
  have hk' := List.mem_range.mp hk
  have h1 := hd.output_le_codeEnd ls hk' ho'
  have h2 : (codeTo ls files (k + 1)).length = (codeTo ls files k).length + codeEnd ls files k := by
    rw [codeTo, codeTo, List.range_succ, List.flatMap_append, List.flatMap_singleton,
      List.length_append, length_cellsFrom, Nat.sub_zero]
  have h3 := length_codeTo_le ls files (show k + 1 ≤ files.length from hk')
  rw [hd.codeCells_eq ls]
  change (codeTo ls files k).length + o'.address ≤ _
  omega

end

/-- **A bin that holds all cells of the files, laid out as documented.** -/
structure LaidOut (files : List LdBin) (b : LdBin) (pick : ℕ → List Bstring) : Prop where
  pick_perm : ∀ a, (pick a).Perm (outputsAt files a)
  perm : (layout files pick).Perm (allCells files)
  holds : ∃ (nm : BinPtr → Bstring) (loc : Cell → BinPtr × ℕ) (p : BinPtr),
    Placed loc p 0 (layout files pick) ∧
      Holds (sourceOf files) nm loc b (layout files pick) ∧
      nm p = outputName ∧ b.name = outputName ∧
      ∀ c ∈ allCells files, adjustedBy files c ≠ [] → targetOf files c ∉ allCells files →
        nm (loc (targetOf files c)).1 ∈ files.map LdBin.name

/-- **Linking succeeds and lays the files out as documented.** -/
theorem linkFlat_ok (ls : ListSort) {files : List LdBin} (hd : Linkable files)
    (ho : OneOutput files) :
    ∃ s pick, linkFlat ls files = .ok s ∧ LaidOut files s.flat pick := by
  obtain ⟨s, nm, create, lay, loc, hok, hbins, hnext, hnt, hnm, hb, C⟩ := binsSectionize_ok ls hd
  set target := s.next with htarget
  rw [hbins] at hnext
  obtain ⟨heap₁, lay₁, loc₁, hok₁, F⟩ := flattenFiles_ok hd hb hnext hnm files.length
    (Nat.zero_add _) (C.flattening hb hd hnext hnt hnm)
  set os := ls.down ((heap₁ target).tables .output) with hos
  have hosPerm : os.Perm (outputs files) := by
    rw [hd.outputs_eq ls]
    exact (ls.down_perm _).trans F.output_target
  have hone : ∀ p ∈ create, (os.filter (·.label = labelOf nm p)).length = 1 := fun p hp => by
    obtain ⟨f, hf, e, he, hn⟩ := hb.used p hp
    rw [(hosPerm.filter _).length_eq, length_filter_outputs, labelOf, hn, drop_sectionName]
    exact ho f hf e he
  obtain ⟨heap₂, lay₂, loc₂, hok₂, W⟩ := flattenOutputs_ok ls os hd hb hnm hnext
    (F.weaving hd) (by rw [List.nil_append]; exact ls.down_sorted _)
    (fun o ho => hd.address_le_of_mem_outputs ls (hosPerm.mem_iff.mp ho))
    (by rw [List.nil_append]; exact hone)
  rw [List.nil_append] at W
  set pick : ℕ → List Bstring := fun a =>
    (os.filter (·.address = a)).reverse.map LconvEntry.label with hpick
  have hlay : lay₂ target = layout files pick := W.lay_target
  have hplaced := W.linked.placed target List.mem_cons_self
  obtain ⟨hname, hH⟩ := W.linked.hold target List.mem_cons_self
  rw [hlay] at hplaced hH
  refine ⟨⟨heap₂, [target], target + 1⟩, pick, ?_, fun a => ?_, ?_, nm, loc₂, target, hplaced, hH,
    hnt, hname.trans hnt, fun c hc hadj ht => ?_⟩
  · rw [linkFlat, hok]
    change binsFlatten ls outputName s = _
    rw [binsFlatten]
    simp only [← htarget, hbins]
    rw [← List.range_eq_range'] at hok₁
    rw [hok₁]
    change (flattenOutputs ls (List.range files.length ++ create) target
      ((Function.update heap₁ target ((heap₁ target).sortOutputs ls) target).tables .output)
      (Function.update heap₁ target ((heap₁ target).sortOutputs ls)) >>= _) = _
    rw [Function.update_self, show ((heap₁ target).sortOutputs ls).tables .output = os from rfl,
      hok₂]
    change (binsPrint heap₂ [target] >>= _) = _
    rw [binsPrint_ok (sourceOf files) nm loc₂ fun p hp =>
      ⟨layout files pick, by rw [List.mem_singleton.mp hp]; exact hH⟩]
    rfl
  · rw [outputsAt]
    exact ((List.reverse_perm _).trans (hosPerm.filter _)).map _
  · refine (List.perm_ext_iff_of_nodup hplaced.nodup allCells_nodup).mpr fun c => ⟨fun hc => ?_,
      fun hc => ?_⟩
    · exact W.linked.sound target List.mem_cons_self c (hlay ▸ hc)
    · obtain ⟨p, hp, hcp⟩ := W.linked.covers c hc
      rcases List.mem_cons.mp hp with rfl | hp
      · rwa [← hlay]
      rcases List.mem_append.mp hp with hp | hp
      · rw [W.lay_file p (List.mem_range.mp hp)] at hcp
        exact absurd hcp List.not_mem_nil
      · -- the one output of the section was met
        rw [List.mem_filter, decide_eq_true_iff] at hp
        have h1 := hone p hp.1
        obtain ⟨o, ho'⟩ :=
          List.exists_mem_of_length_pos (Nat.lt_of_lt_of_eq Nat.zero_lt_one h1.symm)
        rw [List.mem_filter, decide_eq_true_iff] at ho'
        exact absurd ho'.2 (hp.2 o ho'.1)
  · have hk : (loc₂ (targetOf files c)).1 < files.length :=
      List.mem_range.mp (W.linked.away c hc hadj ht).1
    rw [hnm _ hk]
    exact List.mem_map_of_mem (fileAt_mem hk)

/-! ### What is in the flattened bin -/

/-- The word of a cell in its file. -/
def cellWord (files : List LdBin) (c : Cell) : Word := (fileAt files c.1).words.getD c.2 0

/-- The cells of the files in the documented order: every cell once, the non-section code
in the order of the files and in it, at the output of a section, the parts of that
section. The sections of outputs at one address come in any order. -/
def Arranged (files : List LdBin) (out : List Cell) : Prop :=
  out.Perm (allCells files) ∧
    ∃ pick, (∀ a, (pick a).Perm (outputsAt files a)) ∧ out = layout files pick

/-- Words that are those of a sequence of cells, adjusted words being as they may. -/
def AreWordsOf (files : List LdBin) (out : List Cell) (words : List Word) : Prop :=
  List.Forall₂ (fun c w => adjustedBy files c = [] → w = cellWord files c) out words

namespace LaidOut

variable {files : List LdBin} {b : LdBin} {pick : ℕ → List Bstring}

theorem arranged (h : LaidOut files b pick) : Arranged files (layout files pick) :=
  ⟨h.perm, pick, h.pick_perm, rfl⟩

theorem areWordsOf (h : LaidOut files b pick) : AreWordsOf files (layout files pick) b.words := by
  obtain ⟨nm, loc, p, -, hH, -⟩ := h.holds
  rw [AreWordsOf, hH.words, List.forall₂_map_right_iff, List.forall₂_same]
  intro c _ hc
  exact Source.wordAt_of_not_adjusted hc

/-- The adjustments mark the adjusted cells. -/
theorem adjustment (h : LaidOut files b pick) :
    ((b.tables .adjustment).map LconvEntry.address).Perm
      ((place (adjustedBy files) 0 (layout files pick)).map LconvEntry.address) := by
  obtain ⟨nm, loc, p, -, hH, -⟩ := h.holds
  refine (hH.adjustment.map _).trans (List.Perm.of_eq ?_)
  have hforget : (place ((sourceOf files).adjustmentAt nm loc) 0 (layout files pick)).map
      (fun e => (⟨e.label, none, e.address⟩ : LconvEntry)) =
      place (fun c => (adjustedBy files c).map fun e => ⟨e.label, none, e.address⟩) 0
        (layout files pick) := map_place fun i c _ => by
    rw [Source.adjustmentAt, List.map_map, List.map_map, List.map_map]
    rfl
  have hforget' : (place (adjustedBy files) 0 (layout files pick)).map
      (fun e => (⟨e.label, none, e.address⟩ : LconvEntry)) =
      place (fun c => (adjustedBy files c).map fun e => ⟨e.label, none, e.address⟩) 0
        (layout files pick) := map_place fun i c _ => by
    rw [List.map_map, List.map_map]
    rfl
  have := congrArg (List.map LconvEntry.address) (hforget.trans hforget'.symm)
  rwa [List.map_map, List.map_map] at this

/-- An adjusted word holds the address its target has. -/
theorem word_of_adjusted (h : LaidOut files b pick) {i : ℕ} {c : Cell}
    (hc : (layout files pick)[i]? = some c) (hadj : adjustedBy files c ≠ [])
    (ht : targetOf files c ∈ allCells files) :
    ∃ j : ℕ, (layout files pick)[j]? = some (targetOf files c) ∧
      b.words[i]? = some (BitVec.ofNat 16 j) := by
  obtain ⟨nm, loc, p, hplaced, hH, -⟩ := h.holds
  obtain ⟨j, hj⟩ := List.mem_iff_getElem?.mp (h.perm.mem_iff.mpr ht)
  refine ⟨j, hj, ?_⟩
  rw [hH.words, List.getElem?_map, hc, Option.map_some,
    Source.wordAt_of_adjusted (S := sourceOf files) hadj]
  change some (BitVec.ofNat 16 (loc (targetOf files c)).2) = _
  rw [hplaced j _ hj, Nat.zero_add]

/-- The other tables mark the cells that they marked in the files. -/
theorem marks (h : LaidOut files b pick) {t : Table} (ht : t.marksWords = true) :
    ∃ extra, (b.tables t).Perm (place (marksOf files t) 0 (layout files pick) ++ extra) ∧
      ∀ e ∈ extra, MarksNoWord files t e := by
  obtain ⟨nm, loc, p, -, hH, -⟩ := h.holds
  exact hH.records t ht

end LaidOut

/-! ### What the directives promise

The documentation has one example, in which two files have a part of each of two sections
and a third has the outputs; here a word of the third refers to one of the sections. -/

/-- A file of one-word instructions, with the tables that linking uses. -/
def sampleFile (name : Bstring) (words : List Word) (sections outputs adjustments provided :
    List (Bstring × ℕ)) : LdBin where
  name := name
  words := words
  tables
    | .section => sections.map fun e => ⟨e.1, none, e.2⟩
    | .output => outputs.map fun e => ⟨e.1, none, e.2⟩
    | .adjustment => adjustments.map fun e => ⟨e.1, none, e.2⟩
    | .provided => provided.map fun e => ⟨e.1, none, e.2⟩
    | _ => []
  symbols := []

/-- The files `c`, `a` and `b` of the documentation. -/
def documentedFiles : List LdBin :=
  [sampleFile ['c'] [0x35, 0x40, 0x45] [] [(['I'], 1), (['C'], 2)] [] [],
    sampleFile ['a'] [0x5, 0x10, 0x15] [(['I'], 1), (['C'], 2)] [] [] [(['f'], 2)],
    sampleFile ['b'] [2, 0x25, 0x30] [(['I'], 1), (['C'], 2)] [] [([], 0)] [(['g'], 1)]]

theorem documentedFiles_linkable : Linkable documentedFiles where
  names_nodup := by decide
  name_ne_output := by decide
  name_not_section := by decide
  size_lt := by decide
  section_nodup := by decide
  section_le := by decide
  output_le := by decide
  output_lt := by decide
  adjustment_nodup := by decide
  adjustment_lt := by decide
  refers := by decide

theorem documentedFiles_oneOutput : OneOutput documentedFiles := by decide

example : (linkFlat .insertion documentedFiles).map (·.flat.words) =
    .ok [0x35, 0x10, 0x25, 0x40, 0x15, 0x30, 0x45, 0x5, 5] := by decide

/-- **The words of the linked program**: every word of the files is in the output once,
in the documented order. -/
theorem linkFlat_words (ls : ListSort) {files : List LdBin} (hd : Linkable files)
    (ho : OneOutput files) :
    ∃ s out, linkFlat ls files = .ok s ∧ Arranged files out ∧
      AreWordsOf files out s.flat.words := by
  obtain ⟨s, pick, hok, h⟩ := linkFlat_ok ls hd ho
  exact ⟨s, layout files pick, hok, h.arranged, h.areWordsOf⟩

theorem linkFlat_words_documentedFiles :
    ∃ s out, linkFlat .insertion documentedFiles = .ok s ∧ Arranged documentedFiles out ∧
      AreWordsOf documentedFiles out s.flat.words :=
  linkFlat_words .insertion documentedFiles_linkable documentedFiles_oneOutput

/-- Three files of which the first has the output of a section within another section. -/
def nestedFiles : List LdBin :=
  [sampleFile ['a'] [1, 2] [(['A'], 0)] [(['B'], 1)] [] [],
    sampleFile ['b'] [3] [(['B'], 0)] [] [] [(['f'], 0)],
    sampleFile ['c'] [] [] [(['A'], 0)] [] []]

/-- The section whose output is within another section is lost, with its label. -/
theorem linkFlat_nestedFiles :
    ∃ s, linkFlat .insertion nestedFiles = .ok s ∧ s.flat.words = [1, 2] ∧
      s.flat.tables .provided = [] :=
  ⟨_, rfl, by decide, by decide⟩

/-- Where an output is within a section the words of the files are not all in the
output. -/
theorem not_forall_linkFlat_words :
    ¬ ∀ (ls : ListSort) (files : List LdBin), OneOutput files →
      ∃ s out, linkFlat ls files = .ok s ∧ Arranged files out ∧
        AreWordsOf files out s.flat.words := by
  intro h
  obtain ⟨s, out, hok, harr, hwords⟩ := h .insertion nestedFiles (by decide)
  obtain ⟨s', hok', hs', -⟩ := linkFlat_nestedFiles
  obtain rfl : s' = s := Except.ok.inj (hok'.symm.trans hok)
  have hlen : out.length = s'.flat.words.length := hwords.length_eq
  rw [harr.1.length_eq, hs'] at hlen
  exact absurd hlen (by decide)

/-- **Relocation**: the adjustments mark the words that they marked in the files, and an
adjusted word that refers to a word of its file contains the address this word has in the
output. -/
theorem linkFlat_adjustment (ls : ListSort) {files : List LdBin} (hd : Linkable files)
    (ho : OneOutput files) :
    ∃ s out, linkFlat ls files = .ok s ∧ Arranged files out ∧
      AreWordsOf files out s.flat.words ∧
      ((s.flat.tables .adjustment).map LconvEntry.address).Perm
        ((place (adjustedBy files) 0 out).map LconvEntry.address) ∧
      ∀ (i : ℕ) (c : Cell), out[i]? = some c → adjustedBy files c ≠ [] →
        targetOf files c ∈ allCells files →
        ∃ j : ℕ, out[j]? = some (targetOf files c) ∧
          s.flat.words[i]? = some (BitVec.ofNat 16 j) := by
  obtain ⟨s, pick, hok, h⟩ := linkFlat_ok ls hd ho
  exact ⟨s, layout files pick, hok, h.arranged, h.areWordsOf, h.adjustment,
    fun i c hc hadj ht => h.word_of_adjusted hc hadj ht⟩

theorem linkFlat_adjustment_documentedFiles :
    ∃ s out, linkFlat .insertion documentedFiles = .ok s ∧ Arranged documentedFiles out ∧
      AreWordsOf documentedFiles out s.flat.words ∧
      ((s.flat.tables .adjustment).map LconvEntry.address).Perm
        ((place (adjustedBy documentedFiles) 0 out).map LconvEntry.address) ∧
      ∀ (i : ℕ) (c : Cell), out[i]? = some c → adjustedBy documentedFiles c ≠ [] →
        targetOf documentedFiles c ∈ allCells documentedFiles →
        ∃ j : ℕ, out[j]? = some (targetOf documentedFiles c) ∧
          s.flat.words[i]? = some (BitVec.ofNat 16 j) :=
  linkFlat_adjustment .insertion documentedFiles_linkable documentedFiles_oneOutput

/-- Two files of which the first refers from a section to another one. -/
def crossFiles : List LdBin :=
  [sampleFile ['a'] [1, 7] [(['A'], 0), (['B'], 1)] [] [([], 0)] [],
    sampleFile ['b'] [5, 6] [] [(['A'], 1), (['B'], 2)] [] []]

theorem linkFlat_crossFiles :
    ∃ s, linkFlat .insertion crossFiles = .ok s ∧ s.flat.words = [5, 1, 6, 7] :=
  ⟨_, rfl, by decide⟩

/-- A word that refers to another section does not follow it. -/
theorem not_forall_linkFlat_adjustment :
    ¬ ∀ (ls : ListSort) (files : List LdBin), OneOutput files →
      (∀ f ∈ files, ∀ e ∈ f.tables .adjustment, wordAddress f e.address ≤ f.words.length) →
      ∃ s out, linkFlat ls files = .ok s ∧ Arranged files out ∧
        AreWordsOf files out s.flat.words ∧
        ∀ (i : ℕ) (c : Cell), out[i]? = some c → adjustedBy files c ≠ [] →
          targetOf files c ∈ allCells files →
          ∃ j : ℕ, out[j]? = some (targetOf files c) ∧
            s.flat.words[i]? = some (BitVec.ofNat 16 j) := by
  intro h
  obtain ⟨s, out, hok, harr, hwords, hadj⟩ := h .insertion crossFiles (by decide) (by decide)
  obtain ⟨s', hok', hs'⟩ := linkFlat_crossFiles
  obtain rfl : s' = s := Except.ok.inj (hok'.symm.trans hok)
  rw [hs'] at hwords hadj
  obtain ⟨i, hi⟩ := List.mem_iff_getElem?.mp
    (harr.1.mem_iff.mpr (by decide : ((0, 0) : Cell) ∈ allCells crossFiles))
  obtain ⟨j, hj, hw⟩ := hadj i (0, 0) hi (by decide) (by decide)
  -- the target is the word 7, which is the last one
  have hlt : j < ([5, 1, 6, 7] : List Word).length := by
    rw [← hwords.length_eq]
    exact (List.getElem?_eq_some_iff.mp hj).1
  have h7 : ([5, 1, 6, 7] : List Word)[j]? = some 7 := by
    rw [List.getElem?_eq_getElem hlt]
    have := hwords.get (by rwa [hwords.length_eq]) hlt
    rw [List.get_eq_getElem, List.get_eq_getElem,
      (List.getElem?_eq_some_iff.mp hj).2] at this
    rw [this (by decide)]
    rfl
  have hj3 : j = 3 := by
    have : ∀ j < 4, ([5, 1, 6, 7] : List Word)[j]? = some 7 → j = 3 := by decide
    exact this j hlt h7
  subst hj3
  have hmem := List.mem_of_getElem? hw
  exact absurd hmem (by decide)

/-- **Labels follow their words**: an entry that marks a word of a file is in the output
once, at the address this word has there. -/
theorem linkFlat_marks (ls : ListSort) {files : List LdBin} (hd : Linkable files)
    (ho : OneOutput files) :
    ∃ s out, linkFlat ls files = .ok s ∧ Arranged files out ∧
      AreWordsOf files out s.flat.words ∧
      ∀ t, t ∈ [Table.provided, .required, .optional, .call] →
        ∃ extra, (s.flat.tables t).Perm (place (marksOf files t) 0 out ++ extra) ∧
          ∀ e ∈ extra, MarksNoWord files t e := by
  obtain ⟨s, pick, hok, h⟩ := linkFlat_ok ls hd ho
  refine ⟨s, layout files pick, hok, h.arranged, h.areWordsOf, fun t ht => h.marks ?_⟩
  revert t
  decide

theorem linkFlat_marks_documentedFiles :
    ∃ s out, linkFlat .insertion documentedFiles = .ok s ∧ Arranged documentedFiles out ∧
      AreWordsOf documentedFiles out s.flat.words ∧
      ∀ t, t ∈ [Table.provided, .required, .optional, .call] →
        ∃ extra, (s.flat.tables t).Perm (place (marksOf documentedFiles t) 0 out ++ extra) ∧
          ∀ e ∈ extra, MarksNoWord documentedFiles t e :=
  linkFlat_marks .insertion documentedFiles_linkable documentedFiles_oneOutput

/-- Where an output is within a section a label is lost. -/
theorem not_forall_linkFlat_marks :
    ¬ ∀ (ls : ListSort) (files : List LdBin), OneOutput files →
      ∃ s out, linkFlat ls files = .ok s ∧ out.Perm (allCells files) ∧
        ∀ t, t ∈ [Table.provided, .required, .optional, .call] →
          ∃ extra, (s.flat.tables t).Perm (place (marksOf files t) 0 out ++ extra) ∧
            ∀ e ∈ extra, MarksNoWord files t e := by
  intro h
  obtain ⟨s, out, hok, hperm, hmarks⟩ := h .insertion nestedFiles (by decide)
  obtain ⟨s', hok', -, hs'⟩ := linkFlat_nestedFiles
  obtain rfl : s' = s := Except.ok.inj (hok'.symm.trans hok)
  obtain ⟨extra, hp, -⟩ := hmarks .provided (by decide)
  obtain ⟨i, hi⟩ := List.mem_iff_getElem?.mp
    (hperm.mem_iff.mpr (by decide : ((1, 0) : Cell) ∈ allCells nestedFiles))
  have hmark : (⟨['f'], none, 0⟩ : LconvEntry) ∈ marksOf nestedFiles .provided (1, 0) := by decide
  have hin := List.mem_append_left extra ((mem_place (n := 0)).mpr ⟨i, (1, 0), hi, _, hmark, rfl⟩)
  rw [← hp.mem_iff, hs'] at hin
  exact List.not_mem_nil hin

end DcpuToolchain
