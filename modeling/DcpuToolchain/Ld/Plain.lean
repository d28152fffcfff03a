import DcpuToolchain.Ld.Frame
import DcpuToolchain.Ld.Link

/-!
# Files without sections

Where no file has sections and outputs, linking strings the files together
(`DcpuToolchain.linkFlat_strung`): the words of each file come behind those of the files before it,
an adjusted word is raised by the number of these, and so is the address of each entry of a table.
-/

namespace DcpuToolchain

open Marks Moves Weave

/-- A bin without sections and outputs. -/
def LdBin.Bare (b : LdBin) : Prop := b.tables .section = [] ∧ b.tables .output = []

/-- Files without sections and outputs, whose entries mark words and whose addresses are those of
words. -/
structure PlainFiles (files : List LdBin) : Prop where
  bare : ∀ f ∈ files, f.Bare
  marks_lt : ∀ f ∈ files, ∀ t, ∀ e ∈ f.tables t, e.address < f.words.length
  target_lt : ∀ f ∈ files, ∀ e ∈ f.tables .adjustment, wordAddress f e.address < f.words.length

/-- Where a file begins. -/
def binBase (files : List LdBin) (k : ℕ) : ℕ := ((files.take k).map (·.words.length)).sum

/-- The word of a cell, behind the files before it. -/
def strungWord (files : List LdBin) (c : Cell) : Word :=
  if adjustedBy files c = [] then cellWord files c
  else BitVec.ofNat 16 (binBase files c.1 + wordAddress (fileAt files c.1) c.2)

/-- **Files that are strung together.** -/
structure Strung (files : List LdBin) (b : LdBin) : Prop where
  name : b.name = outputName
  words : b.words = (allCells files).map (strungWord files)
  adjustment : ((b.tables .adjustment).map LconvEntry.address).Perm
    ((place (adjustedBy files) 0 (allCells files)).map LconvEntry.address)
  marks : ∀ t, t.marksWords = true →
    (b.tables t).Perm (place (marksOf files t) 0 (allCells files))
  bare : b.Bare

section Plain

variable {files : List LdBin} {k i j : ℕ} {c : Cell}

theorem binBase_succ (hk : k < files.length) :
    binBase files (k + 1) = binBase files k + files[k].words.length := by
  rw [binBase, binBase, List.take_succ_eq_append_getElem hk, List.map_append, List.sum_append]
  rfl

/-- The cells of the files before one. -/
theorem length_flatMap_cellsOf (hk : k ≤ files.length) :
    ((List.range k).flatMap (cellsOf files)).length = binBase files k := by
  induction k with
  | zero => rfl
  | succ k ih =>
    rw [List.range_succ, List.flatMap_append, List.length_append, ih (by omega), binBase_succ hk,
      List.flatMap_singleton, cellsOf, List.length_map, List.length_range, fileAt_of_lt hk]

/-- **Where a cell is**, if the files come one after the other. -/
theorem getElem?_allCells (hk : k < files.length) (hi : i < (fileAt files k).words.length) :
    (allCells files)[binBase files k + i]? = some (k, i) := by
  have hsplit : List.range files.length =
      List.range k ++ (k :: List.range' (k + 1) (files.length - (k + 1))) := by
    rw [List.range_eq_range', List.range_eq_range', ← List.range'_succ,
      show files.length - (k + 1) + 1 = files.length - k by omega]
    have happend := @List.range'_append_1 0 k (files.length - k)
    rw [Nat.zero_add, Nat.add_sub_cancel' hk.le] at happend
    exact happend.symm
  rw [allCells, hsplit, List.flatMap_append, List.flatMap_cons,
    List.getElem?_append_right (by rw [length_flatMap_cellsOf hk.le]; omega),
    length_flatMap_cellsOf hk.le, Nat.add_sub_cancel_left, List.getElem?_append_left, cellsOf,
    List.getElem?_map, List.getElem?_range hi]
  · rfl
  · rw [cellsOf, List.length_map, List.length_range]
    exact hi

/-- A cell that is at a place. -/
theorem getElem?_allCells_iff : (allCells files)[j]? = some c ↔
    c.1 < files.length ∧ c.2 < (fileAt files c.1).words.length ∧ j = binBase files c.1 + c.2 := by
  have hlt : ∀ {c : Cell}, c.2 < (fileAt files c.1).words.length → c.1 < files.length := by
    intro c hc
    by_contra hge
    rw [fileAt_of_ge (by omega)] at hc
    exact absurd hc (Nat.not_lt_zero _)
  constructor
  · intro h
    have hc := mem_allCells.mp (List.mem_of_getElem? h)
    have hat := getElem?_allCells (hlt hc) hc
    refine ⟨hlt hc, hc, ?_⟩
    exact (List.getElem?_inj (List.getElem?_eq_some_iff.mp h).1 allCells_nodup).mp
      (h.trans hat.symm)
  · rintro ⟨hk, hi, rfl⟩
    exact getElem?_allCells hk hi

/-- No cell is in a section. -/
theorem PlainFiles.sectionOf_eq (hp : PlainFiles files) (c : Cell) : sectionOf files c = none := by
  have hsections : (fileAt files c.1).tables .section = [] := by
    rcases Nat.lt_or_ge c.1 files.length with hlt | hge
    · exact (hp.bare _ (fileAt_mem hlt)).1
    · rw [fileAt_of_ge hge]
      rfl
  rw [sectionOf, partOf_eq_none (fun e he => by rw [hsections] at he; cases he), Option.map_none]

/-- **Without sections the files come one after the other.** -/
theorem PlainFiles.layout_eq (hp : PlainFiles files) {pick : ℕ → List Bstring}
    (hpick : ∀ a, (pick a).Perm (outputsAt files a)) : layout files pick = allCells files := by
  have houtputs : outputs files = [] := by
    rw [outputs, List.flatMap_eq_nil_iff]
    intro k hk
    rw [(hp.bare _ (fileAt_mem (List.mem_range.mp hk))).2, List.map_nil]
  have hcode : codeCells files = allCells files := by
    rw [codeCells, List.filter_eq_self]
    exact fun c _ => decide_eq_true (hp.sectionOf_eq c)
  have hnone : ∀ a, pick a = [] := by
    intro a
    have hat := hpick a
    rw [outputsAt, houtputs, List.filter_nil, List.map_nil] at hat
    exact hat.eq_nil
  rw [layout, hcode]
  refine weave_nil fun a _ _ => ?_
  rw [hnone, List.flatMap_nil]

/-- There is one bin in the end. -/
theorem exists_bins_of_linkFlat {ls : ListSort} {s : LdBins} (h : linkFlat ls files = .ok s) :
    ∃ p, s.bins = [p] := by
  rw [linkFlat] at h
  obtain ⟨s', -, h⟩ := exists_of_bind_eq_ok h
  rw [binsFlatten] at h
  obtain ⟨heap₁, -, h⟩ := exists_of_bind_eq_ok h
  obtain ⟨heap₂, -, h⟩ := exists_of_bind_eq_ok h
  obtain ⟨-, -, h⟩ := exists_of_bind_eq_ok h
  cases h
  exact ⟨_, rfl⟩

/-! ### No sections -/

section Bare

variable {ls : ListSort} {b b' src : LdBin} {bins rest : List BinPtr} {target : BinPtr}
  {heap heap' : Heap}

theorem up_nil (ls : ListSort) : ls.up ([] : List LconvEntry) = [] :=
  (ls.up_perm []).eq_nil

theorem Repointed.bare (h : Repointed b b') (hb : b.Bare) : b'.Bare :=
  ⟨(h.tables _ Table.noConfusion).trans hb.1, (h.tables _ Table.noConfusion).trans hb.2⟩

theorem LdBin.Bare.sortTables (hb : b.Bare) : (b.sortTables ls).Bare := by
  refine ⟨hb.1, ?_⟩
  change ls.up (b.tables .output) = []
  rw [hb.2, up_nil ls]

theorem LdBin.Bare.insert (hb : b.Bare) (hsrc : src.Bare) (iterated : Bool)
    (atPos offset count : ℕ) : (b.insert iterated src atPos offset count).Bare := by
  refine ⟨hb.1, ?_⟩
  change insertEntries _ _ _ _ _ _ (b.tables .output) (src.tables .output) = []
  rw [hb.2, hsrc.2, insertEntries]
  cases iterated <;> rfl

theorem LdBin.Bare.remove (hb : b.Bare) (offset count : ℕ) : (b.remove ls offset count).Bare := by
  refine ⟨hb.1, ?_⟩
  change binInfoRemove ls false offset count (b.tables .output) = []
  rw [hb.2, binInfoRemove, up_nil ls]
  rfl

theorem bare_binMove {iterated : Bool} {fromBin : BinPtr} {atPos offset count : ℕ}
    (h : binMove ls iterated bins target fromBin atPos offset count heap = .ok heap')
    (hne : fromBin ≠ target) (hb : ∀ p, (heap p).Bare) (p : BinPtr) : (heap' p).Bare := by
  obtain ⟨-, -, hto, ⟨b, hfrom, hremoved⟩, hother⟩ := binMove_repointed h hne
  rcases eq_or_ne p target with rfl | htarget
  · exact hto.bare ((hb _).insert (hb _).sortTables ..)
  rcases eq_or_ne p fromBin with rfl | hsource
  · exact hremoved.bare ((hfrom.bare (hb _).sortTables).remove ..)
  · exact (hother p htarget hsource).bare (hb p)

theorem bare_flattenFiles (hrest : ∀ p ∈ rest, p ≠ target)
    (h : flattenFiles ls bins target rest heap = .ok heap') (hb : ∀ p, (heap p).Bare) :
    ∀ p, (heap' p).Bare := by
  induction rest generalizing heap with
  | nil =>
    cases h
    exact hb
  | cons bin rest ih =>
    rw [List.forall_mem_cons] at hrest
    rw [flattenFiles] at h
    split at h
    · exact ih hrest.2 h hb
    · obtain ⟨heap₁, hmove, h⟩ := exists_of_bind_eq_ok h
      exact ih hrest.2 h (bare_binMove hmove hrest.1 hb)

theorem bare_update (hb : ∀ p, (heap p).Bare) (hbin : b.Bare) (p q : BinPtr) :
    (Function.update heap p b q).Bare := by
  rcases eq_or_ne q p with rfl | hne
  · rwa [Function.update_self]
  · rw [Function.update_of_ne hne]
    exact hb q

theorem bare_sectionizeLoop {create : List BinPtr}
    (h : sectionizeLoop ls bins create rest heap = .ok heap') (hb : ∀ p, (heap p).Bare) :
    ∀ p, (heap' p).Bare := by
  induction rest generalizing heap with
  | nil =>
    cases h
    exact hb
  | cons bin rest ih =>
    have hsorted : ((heap bin).sortSections ls).Bare := by
      refine ⟨?_, (hb bin).2⟩
      change ls.up ((heap bin).tables .section) = []
      rw [(hb bin).1, up_nil ls]
    rw [sectionizeLoop, Function.update_self, hsorted.1] at h
    exact ih h (bare_update hb hsorted bin)

/-- **Linking does not make sections and outputs.** -/
theorem bare_linkFlat {files : List LdBin} {s : LdBins} (hfiles : ∀ f ∈ files, f.Bare)
    (h : linkFlat ls files = .ok s) (p : BinPtr) : (s.heap p).Bare := by
  have hloaded : ∀ p, ((binsAssociate (binsLoad files)).heap p).Bare := by
    have hfile : ∀ p, ((binsLoad files).heap p).Bare := by
      intro p
      change (files.getD p (binCreate [])).Bare
      rw [List.getD_eq_getElem?_getD]
      cases hp : files[p]? with
      | none => exact ⟨rfl, rfl⟩
      | some f => exact hfiles f (List.mem_of_getElem? hp)
    intro p
    rw [binsAssociate]
    dsimp only
    split
    · exact hfile p
    · exact hfile p
  have hsections : (binsAssociate (binsLoad files)).bins.flatMap (fun p =>
      ((binsAssociate (binsLoad files)).heap p).tables .section) = [] :=
    List.flatMap_eq_nil_iff.mpr fun p _ => (hloaded p).1
  have hcreate : createSections (binsAssociate (binsLoad files)) =
      (binsAssociate (binsLoad files), []) := by
    rw [createSections, hsections, List.foldl_nil]
  rw [linkFlat] at h
  obtain ⟨s₁, hs₁, h⟩ := exists_of_bind_eq_ok h
  rw [binsSectionize, hcreate] at hs₁
  obtain ⟨-, -, hs₁⟩ := exists_of_bind_eq_ok hs₁
  dsimp only at hs₁
  obtain ⟨heap₁, hloop, hs₁⟩ := exists_of_bind_eq_ok hs₁
  obtain ⟨-, -, hs₁⟩ := exists_of_bind_eq_ok hs₁
  cases hs₁
  rw [binsFlatten] at h
  obtain ⟨heap₂, hflatten, h⟩ := exists_of_bind_eq_ok h
  obtain ⟨heap₃, houtputs, h⟩ := exists_of_bind_eq_ok h
  obtain ⟨-, -, h⟩ := exists_of_bind_eq_ok h
  cases h
  have hnext : ∀ p ∈ (binsAssociate (binsLoad files)).bins ++ [],
      p ≠ (binsAssociate (binsLoad files)).next := by
    intro p hp
    rw [List.append_nil] at hp
    exact (List.mem_range.mp hp).ne
  have hflat := bare_flattenFiles hnext hflatten
    (bare_update (bare_sectionizeLoop hloop hloaded) ⟨rfl, rfl⟩ _)
  have hsorted := bare_update hflat (p := (binsAssociate (binsLoad files)).next)
    (b := (heap₂ (binsAssociate (binsLoad files)).next).sortOutputs ls) ⟨(hflat _).1, by
      change ls.down ((heap₂ _).tables .output) = []
      rw [(hflat _).2]
      exact (ls.down_perm []).eq_nil⟩
  rw [(hsorted _).2] at houtputs
  cases houtputs
  exact hsorted p

end Bare

/-- **Linking strings files without sections together.** -/
theorem linkFlat_strung (ls : ListSort) (hd : Linkable files) (hp : PlainFiles files) :
    ∃ s p, linkFlat ls files = .ok s ∧ s.bins = [p] ∧ Strung files (s.heap p) := by
  have hone : OneOutput files := by
    intro f hf e he
    rw [(hp.bare f hf).1] at he
    cases he
  obtain ⟨s, pick, hs, hlaid⟩ := linkFlat_ok ls hd hone
  obtain ⟨p, hbins⟩ := exists_bins_of_linkFlat hs
  rw [LdBins.flat_eq hbins] at hlaid
  have hlayout := hp.layout_eq hlaid.pick_perm
  refine ⟨s, p, hs, hbins, ?_, ?_, ?_, fun t ht => ?_, bare_linkFlat hp.bare hs p⟩
  · obtain ⟨nm, loc, q, -, -, -, hname, -⟩ := hlaid.holds
    exact hname
  · obtain ⟨nm, loc, q, hplaced, hH, -⟩ := hlaid.holds
    rw [hlayout] at hplaced hH
    rw [hH.words]
    refine List.map_congr_left fun c hc => ?_
    rw [strungWord]
    split
    · rename_i hadj
      exact Source.wordAt_of_not_adjusted hadj
    · rename_i hadj
      rw [Source.wordAt_of_adjusted (S := sourceOf files) hadj]
      -- the address is that of a word of the file
      obtain ⟨j, hj⟩ := List.mem_iff_getElem?.mp hc
      obtain ⟨hk, hi, -⟩ := getElem?_allCells_iff.mp hj
      have htarget : wordAddress (fileAt files c.1) c.2 < (fileAt files c.1).words.length := by
        obtain ⟨e, he⟩ := List.exists_mem_of_ne_nil _ hadj
        rw [adjustedBy, Option.mem_toList] at he
        have haddress : e.address = c.2 := by simpa using List.find?_some he
        rw [← haddress]
        exact hp.target_lt _ (fileAt_mem hk) e (List.mem_of_find?_eq_some he)
      have hloc := hplaced _ _ (getElem?_allCells hk htarget)
      rw [Nat.zero_add] at hloc
      exact congrArg (fun l : BinPtr × ℕ => BitVec.ofNat 16 l.2) hloc
  · have hadjustment := hlaid.adjustment
    rwa [hlayout] at hadjustment
  · obtain ⟨extra, hperm, hextra⟩ := hlaid.marks ht
    have hnone : extra = [] := by
      refine List.eq_nil_iff_forall_not_mem.mpr fun e he => ?_
      obtain ⟨f, hf, e', he', hle, -⟩ := hextra e he
      have hlt := hp.marks_lt f hf t e' he'
      omega
    rw [hlayout, hnone, List.append_nil] at hperm
    exact hperm

/-! ### What is in the bin -/

section Cells

variable {f b : LdBin} {t : Table} {e : LconvEntry} (hp : PlainFiles files) (hb : Strung files b)

theorem fileAt_of_getElem? (hf : files[k]? = some f) : fileAt files k = f := by
  rw [fileAt, List.getD_eq_getElem?_getD, hf, Option.getD_some]

/-- Where a word of a file is. -/
theorem cell_of_getElem? (hf : files[k]? = some f) (hi : i < f.words.length) :
    (allCells files)[binBase files k + i]? = some (k, i) := by
  refine getElem?_allCells (List.getElem?_eq_some_iff.mp hf).1 ?_
  rw [fileAt_of_getElem? hf]
  exact hi

/-- The file of a cell. -/
theorem exists_file_of_cell (hc : (allCells files)[j]? = some c) :
    ∃ f, files[c.1]? = some f ∧ c.2 < f.words.length ∧ j = binBase files c.1 + c.2 := by
  obtain ⟨hk, hi, hj⟩ := getElem?_allCells_iff.mp hc
  have hf : files[c.1]? = some files[c.1] := List.getElem?_eq_getElem hk
  rw [fileAt_of_getElem? hf] at hi
  exact ⟨_, hf, hi, hj⟩

/-- The place of a word tells its file. -/
theorem place_inj {f f' : LdBin} {k' i' : ℕ} (hf : files[k]? = some f) (hi : i < f.words.length)
    (hf' : files[k']? = some f') (hi' : i' < f'.words.length)
    (heq : binBase files k + i = binBase files k' + i') : k = k' ∧ f = f' ∧ i = i' := by
  have hsame := cell_of_getElem? hf hi
  rw [heq, cell_of_getElem? hf' hi'] at hsame
  cases hsame
  rw [hf] at hf'
  cases hf'
  exact ⟨rfl, rfl, rfl⟩

/-- **What is placed at cells**, if it marks words of its file. -/
theorem mem_place_allCells {marks : LdBin → List LconvEntry}
    {marksAt : Cell → List LconvEntry}
    (hmarks : ∀ {k f}, files[k]? = some f → ∀ i e',
      e' ∈ marksAt (k, i) ↔ e' ∈ marks f ∧ e'.address = i)
    (hlt : ∀ f ∈ files, ∀ e' ∈ marks f, e'.address < f.words.length) :
    e ∈ place marksAt 0 (allCells files) ↔ ∃ (k : ℕ) (f : LdBin) (e' : LconvEntry),
      files[k]? = some f ∧ e' ∈ marks f ∧
        e = ⟨e'.label, e'.bin, binBase files k + e'.address⟩ := by
  rw [mem_place]
  constructor
  · rintro ⟨n, c, hc, e', he', rfl⟩
    obtain ⟨f, hf, hi, rfl⟩ := exists_file_of_cell hc
    obtain ⟨hmem, haddress⟩ := (hmarks hf c.2 e').mp he'
    refine ⟨c.1, f, e', hf, hmem, ?_⟩
    rw [Nat.zero_add, haddress]
    rfl
  · rintro ⟨k, f, e', hf, he', rfl⟩
    refine ⟨binBase files k + e'.address, (k, e'.address),
      cell_of_getElem? hf (hlt f (List.mem_of_getElem? hf) e' he'), e',
      (hmarks hf e'.address e').mpr ⟨he', rfl⟩, ?_⟩
    rw [Nat.zero_add]
    rfl

include hp hb

/-- **An entry of the bin** is one of a file, behind the files before it. -/
theorem Strung.mem_iff (ht : t.marksWords = true) :
    e ∈ b.tables t ↔ ∃ (k : ℕ) (f : LdBin) (e' : LconvEntry), files[k]? = some f ∧
      e' ∈ f.tables t ∧ e = ⟨e'.label, e'.bin, binBase files k + e'.address⟩ := by
  rw [(hb.marks t ht).mem_iff]
  refine mem_place_allCells (fun hf i e' => ?_) fun f hf e' he' => hp.marks_lt f hf t e' he'
  rw [marksOf, fileAt_of_getElem? hf, List.mem_filter, decide_eq_true_iff]

/-- **An address of the bin** is one of a file. -/
theorem Strung.mem_adjustment (hd : Linkable files) {a : ℕ} :
    a ∈ (b.tables .adjustment).map LconvEntry.address ↔
      ∃ (k : ℕ) (f : LdBin), files[k]? = some f ∧
        ∃ e' ∈ f.tables .adjustment, a = binBase files k + e'.address := by
  have hmem : ∀ e, e ∈ place (adjustedBy files) 0 (allCells files) ↔
      ∃ (k : ℕ) (f : LdBin) (e' : LconvEntry), files[k]? = some f ∧
        e' ∈ f.tables .adjustment ∧ e = ⟨e'.label, e'.bin, binBase files k + e'.address⟩ := by
    intro e
    refine mem_place_allCells (fun {k f} hf i e' => ?_)
      fun f hf e' he' => hp.marks_lt f hf .adjustment e' he'
    have hfile := fileAt_of_getElem? hf
    have hk := (List.getElem?_eq_some_iff.mp hf).1
    rw [hd.adjustedBy_eq hk, hfile, List.mem_filter, decide_eq_true_iff]
  rw [hb.adjustment.mem_iff, List.mem_map]
  constructor
  · rintro ⟨e, he, rfl⟩
    obtain ⟨k, f, e', hf, he', rfl⟩ := (hmem e).mp he
    exact ⟨k, f, hf, e', he', rfl⟩
  · rintro ⟨k, f, hf, e', he', rfl⟩
    exact ⟨_, (hmem _).mpr ⟨k, f, e', hf, he', rfl⟩, rfl⟩

/-- A place of the bin is marked as in its file. -/
theorem Strung.mem_addresses (ht : t.marksWords = true) (hf : files[k]? = some f)
    (hi : i < f.words.length) :
    binBase files k + i ∈ (b.tables t).map LconvEntry.address ↔
      i ∈ (f.tables t).map LconvEntry.address := by
  rw [List.mem_map, List.mem_map]
  constructor
  · rintro ⟨e, he, heq⟩
    obtain ⟨k', f', e', hf', he', rfl⟩ := (hb.mem_iff hp ht).mp he
    have hlt := hp.marks_lt f' (List.mem_of_getElem? hf') t e' he'
    obtain ⟨rfl, rfl, rfl⟩ := place_inj hf' hlt hf hi heq
    exact ⟨e', he', rfl⟩
  · rintro ⟨e', he', rfl⟩
    exact ⟨_, (hb.mem_iff hp ht).mpr ⟨k, f, e', hf, he', rfl⟩, rfl⟩

/-- A place of the bin is adjusted as in its file. -/
theorem Strung.mem_adjusted (hd : Linkable files) (hf : files[k]? = some f)
    (hi : i < f.words.length) :
    binBase files k + i ∈ (b.tables .adjustment).map LconvEntry.address ↔
      i ∈ (f.tables .adjustment).map LconvEntry.address := by
  rw [hb.mem_adjustment hp hd, List.mem_map]
  constructor
  · rintro ⟨k', f', hf', e', he', heq⟩
    have hlt := hp.marks_lt f' (List.mem_of_getElem? hf') .adjustment e' he'
    obtain ⟨rfl, rfl, rfl⟩ := place_inj hf hi hf' hlt heq
    exact ⟨e', he', rfl⟩
  · rintro ⟨e', he', rfl⟩
    exact ⟨k, f, hf, e', he', rfl⟩

omit hp in
/-- **A word that is no address** is that of its file. -/
theorem Strung.word (hf : files[k]? = some f) (hi : i < f.words.length)
    (hnot : ∀ e ∈ f.tables .adjustment, e.address ≠ i) :
    b.words[binBase files k + i]? = f.words[i]? := by
  have hadjusted : adjustedBy files (k, i) = [] := by
    rw [adjustedBy, Option.toList_eq_nil_iff, fileAt_of_getElem? hf]
    exact List.find?_eq_none.mpr fun e he heq => hnot e he (of_decide_eq_true heq)
  rw [hb.words, List.getElem?_map, cell_of_getElem? hf hi, Option.map_some, strungWord,
    if_pos hadjusted, cellWord, fileAt_of_getElem? hf, List.getD_eq_getElem?_getD,
    List.getElem?_eq_getElem hi, Option.getD_some]

omit hp in
/-- **A word that is an address** is raised. -/
theorem Strung.address (hf : files[k]? = some f) (hi : i < f.words.length)
    (hadjusted : ∃ e ∈ f.tables .adjustment, e.address = i) :
    b.words[binBase files k + i]? =
      some (BitVec.ofNat 16 (binBase files k + wordAddress f i)) := by
  obtain ⟨e, he, heq⟩ := hadjusted
  have hadjusted : adjustedBy files (k, i) ≠ [] := by
    intro hnil
    rw [adjustedBy, Option.toList_eq_nil_iff, fileAt_of_getElem? hf] at hnil
    exact absurd (decide_eq_true heq) (List.find?_eq_none.mp hnil e he)
  rw [hb.words, List.getElem?_map, cell_of_getElem? hf hi, Option.map_some, strungWord,
    if_neg hadjusted, fileAt_of_getElem? hf]

omit hp in
theorem Strung.length_words : b.words.length = (files.map (·.words.length)).sum := by
  rw [hb.words, List.length_map, length_allCells]

omit hp in
/-- No word is marked twice. -/
theorem Strung.nodup (ht : t.marksWords = true)
    (hnodup : ∀ f ∈ files, ((f.tables t).map LconvEntry.address).Nodup) :
    ((b.tables t).map LconvEntry.address).Nodup := by
  refine ((hb.marks t ht).map _).nodup_iff.mpr (nodup_address_place fun c hc => ?_)
  obtain ⟨j, hj⟩ := List.mem_iff_getElem?.mp hc
  obtain ⟨f, hf, -, -⟩ := exists_file_of_cell hj
  rw [marksOf, fileAt_of_getElem? hf,
    ← find?_toList_eq_filter (hnodup f (List.mem_of_getElem? hf))]
  exact Option.length_toList_le

omit hp in
theorem Strung.nodup_adjustment : ((b.tables .adjustment).map LconvEntry.address).Nodup :=
  hb.adjustment.nodup_iff.mpr (nodup_address_place fun _ _ => Option.length_toList_le)

end Cells

end Plain

end DcpuToolchain
