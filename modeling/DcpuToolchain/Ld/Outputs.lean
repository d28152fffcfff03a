import DcpuToolchain.Ld.Image
import DcpuToolchain.Ld.Restore

/-!
# Outputs that are kept

A library may keep its outputs, so that more code can be put into it by another link. The table
that is kept is the one over which the second loop of `bins_flatten` iterates, and nothing
changes it on the way (`DcpuToolchain.binsFlatten_outputs`): while the sections are inserted the
outputs are not shifted, and nothing can be appended.

So an output that was in a section is lost, and one that has code inserted before it is kept with
the address it had before, while its own code is moved on
(`DcpuToolchain.getElem?_imageCells_code`).
The table is right only if no output is in a section, at most one of them has code, and no other is
behind that one (`DcpuToolchain.binsFlatten_exports_iff`).
-/

namespace DcpuToolchain

open Marks

/-! ### What is kept and what is meant by it -/

/-- The outputs that `bins_flatten` finds when it has strung the file bins together, at their
addresses in the code of all of them; `base` is the length of the code before a bin. -/
def fileOutputs (ls : ListSort) (heap : Heap) : (base : ℕ) → List BinPtr → List LconvEntry
  | _, [] => []
  | base, p :: rest =>
    if (heap p).isFile then
      (ls.up ((heap p).tables .output)).map (copyEntry base 0) ++
        fileOutputs ls heap (base + (heap p).words.length) rest
    else fileOutputs ls heap base rest

/-- The outputs in the order in which code is inserted at them, the last output first. -/
def outputOrder (ls : ListSort) (s : LdBins) : List LconvEntry :=
  ls.down (fileOutputs ls s.heap 0 s.bins)

/-- The cells of the image: the words of the files, between which the code of the sections is
inserted, at one output after the other. -/
def flatCells (ls : ListSort) (s : LdBins) : List ImageCell :=
  imageCells s 0 (outputOrder ls s) (s.fileCells s.bins)

/-- How many words are inserted at an output: those of the bin of its section, if there is one. -/
def insertedAt (s : LdBins) (o : LconvEntry) : ℕ :=
  match binSeek s.heap s.bins (sectionName o.label) with
  | none => 0
  | some p => (s.heap p).words.length

/-- **The position of an output in the image**, where so many outputs come before it: the code
inserted at the output is there, and it is between the words of the files that were before and
behind the output. An output behind the end of the files is between no words. -/
structure IsPositionOf (s : LdBins) (image : List ImageCell) (turn : ℕ) (o : LconvEntry)
    (position : ℕ) : Prop where
  inside : o.address ≤ (s.fileCells s.bins).length
  code : ∀ i c, (s.codeCells turn o)[i]? = some c → image[position + i]? = some c
  front : ∀ x c, (s.fileCells s.bins)[x]? = some c → x < o.address →
    ∃ y < position, image[y]? = some c
  behind : ∀ x c, (s.fileCells s.bins)[x]? = some c → o.address ≤ x →
    ∃ y, position + insertedAt s o ≤ y ∧ image[y]? = some c

/-- **The outputs are kept**: every output of the files is in the table once, at its position in
the image. The image has a word for each of its cells, and this is the word that the bin of the
cell had before the link, unless adjustments may have come to it. -/
structure ExportsOutputs (ls : ListSort) (files : List LdBin) (s s' : LdBins) : Prop where
  image : List.Forall₂ (fun c w => s'.flat.words.length ≤ 0x10000 →
    s.Untouched c.bin c.index → w = s.cellWord c) (flatCells ls s) s'.flat.words
  present : ((s'.flat.tables .output).map LconvEntry.label).Perm
    ((files.flatMap (·.tables .output)).map LconvEntry.label)
  placed : ∀ before o later, outputOrder ls s = before ++ o :: later →
    ∃ e, (s'.flat.tables .output)[before.length]? = some e ∧ e.label = o.label ∧
      IsPositionOf s (flatCells ls s) before.length o e.address

/-- An output that is in no section of its file, or at its end. -/
def LdBin.outsideSections (f : LdBin) (o : LconvEntry) : Bool :=
  ∀ e ∈ f.tables .section, o.address < e.address ∨ f.words.length ≤ o.address

/-- The labels of the outputs of a file that are in none of its sections. -/
def LdBin.keptLabels (f : LdBin) : List Bstring :=
  ((f.tables .output).filter f.outsideSections).map LconvEntry.label

/-- No output is in a section, or in a file that is taken for one. -/
def OutputsOutside (files : List LdBin) : Prop :=
  ∀ f ∈ files, ∀ o ∈ f.tables .output, f.isFile = true ∧ f.outsideSections o = true

/-- The outputs are in the code of the files; at most one has code, and no other is behind it. -/
structure OneHasCode (s : LdBins) (os : List LconvEntry) : Prop where
  inside : ∀ o ∈ os, o.address ≤ (s.fileCells s.bins).length
  length_le : (os.filter (0 < insertedAt s ·)).length ≤ 1
  last : ∀ o ∈ os, 0 < insertedAt s o → ∀ o' ∈ os, o'.address ≤ o.address

/-! ### Where the words are moved -/

/-- Where a word is moved by the code that is inserted at outputs, one after the other. -/
def movedByOutputs (s : LdBins) (os : List LconvEntry) (x : ℕ) : ℕ :=
  os.foldl (fun x o => movedBy o.address (insertedAt s o) x) x

section Moved

variable {s : LdBins} {os : List LconvEntry} {o : LconvEntry} {x : ℕ}

theorem length_codeCells (s : LdBins) (turn : ℕ) (o : LconvEntry) :
    (s.codeCells turn o).length = insertedAt s o := by
  rw [LdBins.codeCells, insertedAt]
  rcases binSeek s.heap s.bins (sectionName o.label) with - | p
  · rfl
  · dsimp only
    rw [LdBins.binCells, List.length_map, List.length_range]

theorem le_movedByOutputs (s : LdBins) (os : List LconvEntry) (x : ℕ) :
    x ≤ movedByOutputs s os x := by
  induction os generalizing x with
  | nil => exact Nat.le_refl _
  | cons o os ih => exact (le_movedBy _ _ _).trans (ih _)

/-- Code that is inserted before a word moves it by its length. -/
theorem add_le_movedByOutputs (ho : o ∈ os) (hx : o.address ≤ x) :
    x + insertedAt s o ≤ movedByOutputs s os x := by
  induction os generalizing x with
  | nil => cases ho
  | cons o' os ih =>
    rcases List.mem_cons.mp ho with rfl | ho
    · refine Nat.le_trans ?_ (le_movedByOutputs s os _)
      change x + insertedAt s o ≤ movedBy o.address (insertedAt s o) x
      rw [movedBy, if_pos hx]
    · have hle := le_movedBy o'.address (insertedAt s o') x
      exact (Nat.add_le_add_right hle _).trans (ih ho (hx.trans hle))

/-- Where no code is inserted before a word it stays. -/
theorem movedByOutputs_eq (h : ∀ o ∈ os, 0 < insertedAt s o → x < o.address) :
    movedByOutputs s os x = x := by
  induction os with
  | nil => rfl
  | cons o os ih =>
    rw [List.forall_mem_cons] at h
    have hmoved : movedBy o.address (insertedAt s o) x = x := by
      rw [movedBy]
      split
      · rename_i hle
        rcases Nat.eq_zero_or_pos (insertedAt s o) with hzero | hpos
        · rw [hzero, Nat.add_zero]
        · exact absurd (h.1 hpos) (Nat.not_lt.mpr hle)
      · rfl
    rw [movedByOutputs, List.foldl_cons, hmoved]
    exact ih h.2

/-- The outputs with code are not behind the words. -/
def CodeInside (s : LdBins) (size : ℕ) (os : List LconvEntry) : Prop :=
  ∀ o ∈ os, 0 < insertedAt s o → o.address ≤ size

/-- Inserting code at an output, where there may be none. -/
theorem getElem?_insertedCode {cells : List ImageCell} (turn : ℕ)
    (hat : 0 < insertedAt s o → o.address ≤ cells.length) (x : ℕ) :
    (insertedCells cells (s.codeCells turn o) o.address 0 (s.codeCells turn o).length)[
      movedBy o.address (insertedAt s o) x]? = cells[x]? := by
  rcases Nat.eq_zero_or_pos (insertedAt s o) with hzero | hpos
  · have hnil : s.codeCells turn o = [] :=
      List.eq_nil_of_length_eq_zero ((length_codeCells s turn o).trans hzero)
    rw [hzero, movedBy_zero, hnil, insertedCells, List.length_nil, List.take_zero,
      List.append_nil, List.take_append_drop]
  · have hall : 0 + (s.codeCells turn o).length ≤ (s.codeCells turn o).length :=
      Nat.le_of_eq (Nat.zero_add _)
    rw [← length_codeCells s turn o]
    exact getElem?_insertedCells_tgt (hat hpos) hall x

/-- **Where the words of the files are in the image.** -/
theorem getElem?_imageCells (turn : ℕ) {cells : List ImageCell}
    (hinside : CodeInside s cells.length os) (x : ℕ) :
    (imageCells s turn os cells)[movedByOutputs s os x]? = cells[x]? := by
  induction os generalizing turn cells x with
  | nil => rfl
  | cons o os ih =>
    have hlength := (insertedCells_perm cells (s.codeCells turn o) o.address).length_eq
    rw [List.length_append] at hlength
    rw [imageCells, movedByOutputs, List.foldl_cons]
    refine (ih (turn + 1) (fun o' ho' hpos => ?_) _).trans
      (getElem?_insertedCode turn (hinside o List.mem_cons_self) x)
    have := hinside o' (List.mem_cons_of_mem _ ho') hpos
    omega

/-- **Where the code of an output is in the image.** -/
theorem getElem?_imageCells_code (turn : ℕ) {cells : List ImageCell}
    {before later : List LconvEntry}
    (hinside : CodeInside s cells.length (before ++ o :: later)) {i : ℕ}
    (hi : i < insertedAt s o) :
    (imageCells s turn (before ++ o :: later) cells)[movedByOutputs s later (o.address + i)]? =
      (s.codeCells (turn + before.length) o)[i]? := by
  induction before generalizing turn cells with
  | nil =>
    have hat := hinside o List.mem_cons_self (Nat.zero_lt_of_lt hi)
    have hlength := (insertedCells_perm cells (s.codeCells turn o) o.address).length_eq
    rw [List.length_append] at hlength
    have hcode := length_codeCells s turn o
    have hplaced : (insertedCells cells (s.codeCells turn o) o.address 0
        (s.codeCells turn o).length)[o.address + (i - 0)]? = (s.codeCells turn o)[i]? :=
      getElem?_insertedCells_src hat (Nat.le_of_eq (Nat.zero_add _)) (Nat.zero_le i) (by omega)
    rw [Nat.sub_zero] at hplaced
    rw [List.nil_append, imageCells, List.length_nil, Nat.add_zero]
    refine (getElem?_imageCells (turn + 1) (fun o' ho' hpos => ?_) _).trans hplaced
    have := hinside o' (List.mem_cons_of_mem _ ho') hpos
    omega
  | cons o' before ih =>
    have hlength := (insertedCells_perm cells (s.codeCells turn o') o'.address).length_eq
    rw [List.length_append] at hlength
    rw [List.cons_append, imageCells, ih (turn + 1) fun o'' ho'' hpos => ?_, List.length_cons,
      Nat.add_assoc, Nat.add_comm 1]
    have := hinside o'' (List.mem_cons_of_mem _ ho'') hpos
    omega

end Moved

theorem oneHasCode_congr {s : LdBins} {os os' : List LconvEntry} (h : os.Perm os') :
    OneHasCode s os ↔ OneHasCode s os' := by
  have hof : ∀ {l l' : List LconvEntry}, l.Perm l' → OneHasCode s l → OneHasCode s l' := by
    rintro l l' hperm ⟨hinside, hlength, hlast⟩
    refine ⟨fun o ho => hinside o (hperm.mem_iff.mpr ho), (hperm.filter _).length_eq ▸ hlength,
      fun o ho hpos o' ho' => ?_⟩
    exact hlast o (hperm.mem_iff.mpr ho) hpos o' (hperm.mem_iff.mpr ho')
  exact ⟨hof h, hof h.symm⟩

/-- **The addresses of the table are the positions** if at most one output has code, and no other
is behind it. -/
theorem isPositionOf_iff {s : LdBins} {os : List LconvEntry} (hnd : s.bins.Nodup)
    (hinside : CodeInside s (s.fileCells s.bins).length os)
    (hsorted : os.Pairwise (·.address ≥ ·.address)) :
    (∀ before o later, os = before ++ o :: later →
        IsPositionOf s (imageCells s 0 os (s.fileCells s.bins)) before.length o o.address) ↔
      OneHasCode s os := by
  have hfiles := LdBins.nodup_fileCells (s := s) hnd
  -- a cell is at one position of the image only
  have himage : (imageCells s 0 os (s.fileCells s.bins)).Nodup :=
    nodup_imageCells hfiles fun c hc t ht => by simp [LdBins.turn_of_mem_fileCells hc] at ht
  have hunique : ∀ {i j : ℕ} {c : ImageCell},
      (imageCells s 0 os (s.fileCells s.bins))[i]? = some c →
        (imageCells s 0 os (s.fileCells s.bins))[j]? = some c → i = j := fun hi hj =>
    (List.getElem?_inj (List.getElem?_eq_some_iff.mp hi).1 himage).mp (hi.trans hj.symm)
  constructor
  · intro h
    refine ⟨fun o ho => ?_, ?_, fun o ho hpos o' ho' => ?_⟩
    · obtain ⟨before, later, hos⟩ := List.append_of_mem ho
      exact (h before o later hos).inside
    · by_contra hmany
      -- code that is inserted later moves the code that is there
      obtain ⟨o, o', rest, hfilter⟩ :
          ∃ o o' rest, os.filter (0 < insertedAt s ·) = o :: o' :: rest := by
        match hf : os.filter (0 < insertedAt s ·) with
        | [] | [_] => simp [hf] at hmany
        | o :: o' :: rest => exact ⟨o, o', rest, rfl⟩
      obtain ⟨before, later, hos, -, hpos, hlater⟩ := List.filter_eq_cons_iff.mp hfilter
      have hmem : o' ∈ later.filter (0 < insertedAt s ·) := by
        rw [hlater]
        exact List.mem_cons_self
      rw [List.mem_filter, decide_eq_true_iff] at hmem
      rw [decide_eq_true_iff] at hpos
      have hle : o'.address ≤ o.address := by
        rw [hos] at hsorted
        exact (List.pairwise_cons.mp (List.pairwise_append.mp hsorted).2.1).1 o' hmem.1
      obtain ⟨cell, hcell⟩ : ∃ cell, (s.codeCells before.length o)[0]? = some cell :=
        ⟨_, List.getElem?_eq_getElem (by rw [length_codeCells]; exact hpos)⟩
      have hcode := (h before o later hos).code 0 _ hcell
      have hplaced := getElem?_imageCells_code 0 (hos ▸ hinside) hpos
      rw [← hos, Nat.zero_add, hcell] at hplaced
      have hmoved := add_le_movedByOutputs (s := s) hmem.1 hle
      have heq := hunique hcode hplaced
      rw [Nat.add_zero] at heq
      omega
    · by_contra hlt
      -- code that is inserted before the output moves the word in front of it
      obtain ⟨before, later, hos⟩ := List.append_of_mem ho'
      have hposition := h before o' later hos
      have hword := List.getElem?_eq_getElem (l := s.fileCells s.bins) (i := o'.address - 1)
        (by have := hposition.inside; omega)
      obtain ⟨y, hy, hfront⟩ := hposition.front (o'.address - 1) _ hword (by omega)
      have hthere := (getElem?_imageCells 0 hinside (o'.address - 1)).trans hword
      have hmoved := add_le_movedByOutputs (s := s) (x := o'.address - 1) ho (by omega)
      have heq := hunique hfront hthere
      omega
  · rintro hone before o later hos
    have ho : o ∈ os := by
      rw [hos]
      exact List.mem_append_right _ List.mem_cons_self
    refine ⟨hone.inside o ho, fun i c hc => ?_, fun x c hc hx => ?_, fun x c hc hx => ?_⟩
    · have hi : i < insertedAt s o := by
        rw [← length_codeCells s before.length]
        exact (List.getElem?_eq_some_iff.mp hc).1
      have hstays : movedByOutputs s later (o.address + i) = o.address + i := by
        refine movedByOutputs_eq fun o' ho' hpos => ?_
        exfalso
        have hcode : 0 < insertedAt s o := Nat.zero_lt_of_lt hi
        have hlength := hone.length_le
        rw [hos, List.filter_append, List.filter_cons_of_pos (by rwa [decide_eq_true_iff]),
          List.length_append, List.length_cons] at hlength
        have hmem : 0 < (later.filter (0 < insertedAt s ·)).length :=
          List.length_pos_of_mem (List.mem_filter.mpr ⟨ho', by rwa [decide_eq_true_iff]⟩)
        omega
      have hplaced := getElem?_imageCells_code 0 (hos ▸ hinside) hi
      rw [← hos, hstays, Nat.zero_add] at hplaced
      exact hplaced.trans hc
    · refine ⟨movedByOutputs s os x, ?_, (getElem?_imageCells 0 hinside x).trans hc⟩
      rw [movedByOutputs_eq fun o' ho' hpos => hx.trans_le (hone.last o' ho' hpos o ho)]
      exact hx
    · refine ⟨movedByOutputs s os x, ?_, (getElem?_imageCells 0 hinside x).trans hc⟩
      exact (Nat.add_le_add_right hx _).trans (add_le_movedByOutputs ho hx)

/-! ### Flattening -/

section Flatten

variable {ls : ListSort} {bins rest : List BinPtr} {target : BinPtr} {heap heap' heap₀ : Heap}
  {es : List LconvEntry}

/-- All outputs of a bin are copied with it. -/
theorem insert_output {b src : LdBin} (pos : ℕ) :
    (b.insert false src pos 0 src.words.length).tables .output =
      b.tables .output ++ (src.tables .output).map (copyEntry pos 0) := by
  rw [LdBin.insert]
  dsimp only
  rw [if_neg (by decide), insertEntries, if_pos (by decide), if_neg (by decide),
    List.filter_eq_self.mpr fun o _ => ?_]
  rw [copied, decide_eq_true_iff]
  omega

/-- **The first loop of `bins_flatten`** takes the outputs of the file bins along. -/
theorem flattenFiles_outputs (hrest : ∀ p ∈ rest, p ≠ target) (hnd : rest.Nodup)
    (hsame : ∀ p ∈ rest, Repointed (heap₀ p) (heap p))
    (h : flattenFiles ls bins target rest heap = .ok heap') :
    (heap' target).tables .output = (heap target).tables .output ++
      fileOutputs ls heap₀ (heap target).words.length rest := by
  induction rest generalizing heap with
  | nil =>
    cases h
    rw [fileOutputs, List.append_nil]
  | cons bin rest ih =>
    rw [List.forall_mem_cons] at hrest hsame
    rw [List.nodup_cons] at hnd
    rw [fileOutputs]
    rcases flattenFiles_cons h with ⟨hbin, h⟩ | ⟨hbin, heap₁, hmove, h⟩
    · rw [hsame.1.isFile] at hbin
      rw [if_neg (by simp [hbin])]
      exact ih hrest.2 hnd.2 hsame.2 h
    · rw [hsame.1.isFile] at hbin
      obtain ⟨hat, hoffset, hto, -, hother⟩ := binMove_repointed hmove hrest.1
      have hrun := ih hrest.2 hnd.2 (fun p hp => (hsame.2 p hp).trans (hother p (hrest.2 p hp)
        (ne_of_mem_of_not_mem hp hnd.1))) h
      have hsorted : ((heap bin).sortTables ls).tables .output =
          ls.up ((heap₀ bin).tables .output) :=
        congrArg ls.up (hsame.1.tables _ (by decide))
      rw [hrun, hto.tables _ (by decide), if_pos hbin, ← List.append_assoc, ← hsorted]
      refine congrArg₂ (· ++ ·) (insert_output _) ?_
      rw [hto.length.trans (length_insert hat hoffset), hsame.1.length]

end Flatten

/-- **The table that is kept** is the one from which code was inserted. -/
theorem binsFlatten_outputs {ls : ListSort} {name : Bstring} {s s' : LdBins} (hnd : s.bins.Nodup)
    (hnext : s.next ∉ s.bins) (h : binsFlatten ls name s = .ok s') :
    s'.flat.tables .output = outputOrder ls s := by
  obtain ⟨heap, hfiles, houtputs, hbins, -⟩ := binsFlatten_cases h
  have hne : ∀ p ∈ s.bins, p ≠ s.next := fun p hp => ne_of_mem_of_not_mem hp hnext
  have hsame : ∀ p ∈ s.bins, Repointed (s.heap p)
      (Function.update s.heap s.next (binCreate name) p) := fun p hp =>
    .of_eq (Function.update_of_ne (hne p hp) _ _)
  have hstrung := flattenFiles_outputs hne hnd hsame hfiles
  rw [Function.update_self] at hstrung
  rw [LdBins.flat_eq hbins, flattenOutputs_outputs hnext houtputs, Function.update_self]
  exact congrArg ls.down hstrung

/-! ### Cutting the sections out -/

section Sectionize

variable {ls : ListSort} {bins create rest : List BinPtr} {bin other : BinPtr} {heap heap' : Heap}
  {l : List LconvEntry} {a m c n : ℕ} {e : LconvEntry}

/-- Bins keep their names. -/
theorem binMove_name {iterated : Bool} {toBin fromBin : BinPtr} {atPos offset count : ℕ}
    (h : binMove ls iterated bins toBin fromBin atPos offset count heap = .ok heap')
    (hne : fromBin ≠ toBin) (p : BinPtr) : (heap' p).name = (heap p).name := by
  obtain ⟨-, -, hto, ⟨b, hb, hremoved⟩, hother⟩ := binMove_repointed h hne
  by_cases hpt : p = toBin
  · rw [hpt, hto.name]
    rfl
  · by_cases hpf : p = fromBin
    · rw [hpf]
      exact hremoved.name.trans hb.name
    · exact (hother p hpt hpf).name

theorem stealSections_name {stolen : ℤ} {es : List LconvEntry} (hcreate : ∀ p ∈ create, p ≠ bin)
    (h : stealSections ls bins create bin stolen es heap = .ok heap') (p : BinPtr) :
    (heap' p).name = (heap p).name := by
  induction es generalizing stolen heap with
  | nil =>
    cases h
    rfl
  | cons e es ih =>
    obtain ⟨target, htarget, offset, count, heap₁, -, -, hmove, h⟩ := stealSections_cons h
    exact (ih h).trans (binMove_name hmove (hcreate target htarget).symm p)

theorem sectionizeLoop_name (hcreate : ∀ p ∈ create, p ∉ rest)
    (h : sectionizeLoop ls bins create rest heap = .ok heap') (p : BinPtr) :
    (heap' p).name = (heap p).name := by
  induction rest generalizing heap with
  | nil =>
    cases h
    rfl
  | cons bin rest ih =>
    rw [sectionizeLoop] at h
    obtain ⟨heap₂, hsteal, h⟩ := exists_of_bind_eq_ok h
    refine (ih (fun p hp hmem => hcreate p hp (List.mem_cons_of_mem _ hmem)) h).trans
      ((stealSections_name
        (fun p hp heq => hcreate p hp (heq ▸ List.mem_cons_self)) hsteal p).trans ?_)
    by_cases hp : p = bin
    · rw [hp, Function.update_self]
      rfl
    · rw [Function.update_of_ne hp]

theorem kept_add : kept a (m + c) e.address =
    (kept a c (lowered false a m e).address && kept a m e.address) := by
  rw [lowered_address, Bool.eq_iff_iff, Bool.and_eq_true]
  simp only [kept, decide_eq_true_eq]
  split <;> omega

theorem lowered_add (h : kept a (m + c) e.address = true) :
    lowered false a c (lowered false a m e) = lowered false a (m + c) e := by
  have haddress : (lowered false a c (lowered false a m e)).address =
      (lowered false a (m + c) e).address := by
    rw [lowered_address, lowered_address, lowered_address]
    rw [kept, decide_eq_true_iff] at h
    by_cases hm : a + m ≤ e.address
    · rw [if_pos hm]
      split <;> split <;> omega
    · rw [if_neg hm, if_neg (by omega), if_neg (by omega)]
  have hleft : lowered false a c (lowered false a m e) =
      ⟨e.label, e.bin, (lowered false a c (lowered false a m e)).address⟩ :=
    ((movesEntry_lowered a c).comp (movesEntry_lowered a m)) e
  rw [hleft, haddress]
  exact (movesEntry_lowered a (m + c) e).symm

/-- Words are removed from where words were removed before. -/
theorem remove_again (l : List LconvEntry) (a m c : ℕ) :
    (((l.filter (kept a m ·.address)).map (lowered false a m)).filter (kept a c ·.address)).map
        (lowered false a c) =
      (l.filter (kept a (m + c) ·.address)).map (lowered false a (m + c)) := by
  rw [List.filter_map, List.filter_filter, List.map_map]
  have hfilter :
      l.filter (fun e => ((fun e : LconvEntry => kept a c e.address) ∘ lowered false a m) e &&
      kept a m e.address) = l.filter (kept a (m + c) ·.address) :=
    List.filter_congr fun e _ => kept_add.symm
  rw [hfilter]
  exact List.map_congr_left fun e he => lowered_add (List.mem_filter.mp he).2

/-- **The sections of a file are cut out**: all outputs from the first of them on go with them,
except those at the end of the file. -/
theorem stealSections_outputs {es : List LconvEntry} (hcreate : ∀ p ∈ create, p ≠ bin)
    (hlength : (heap bin).words.length + m = n) (hnext : ∀ e ∈ es.head?, e.address = a + m)
    (houtputs : ((heap bin).tables .output).Perm
      ((l.filter (kept a m ·.address)).map (lowered false a m)))
    (h : stealSections ls bins create bin m es heap = .ok heap') :
    ∃ m', (if es = [] then m' = m else a + m' = n) ∧
      ((heap' bin).tables .output).Perm
        ((l.filter (kept a m' ·.address)).map (lowered false a m')) := by
  induction es generalizing m heap with
  | nil =>
    cases h
    exact ⟨m, by simp, houtputs⟩
  | cons e es ih =>
    have he : e.address = a + m := hnext e rfl
    obtain ⟨target, htarget, offset, count, heap₁, hoff, hcount, hmove, h⟩ := stealSections_cons h
    obtain rfl : offset = a := by omega
    obtain ⟨-, hle, -, ⟨b, hb, hremoved⟩, -⟩ :=
      binMove_repointed hmove (hcreate target htarget).symm
    -- the tables of the file are sorted before the section is removed
    have hsorted : b.words.length = (heap bin).words.length := hb.length
    have hlength₁ : (heap₁ bin).words.length + (m + count) = n := by
      have hcut : (b.remove ls offset count).words.length + count = b.words.length :=
        length_remove ls (by omega)
      rw [hremoved.length]
      omega
    have hfrom : b.tables .output = ls.up ((heap bin).tables .output) := hb.tables _ (by decide)
    have houtputs₁ : ((heap₁ bin).tables .output).Perm
        ((l.filter (kept offset (m + count) ·.address)).map
          (lowered false offset (m + count))) := by
      have hremove := binInfoRemove_perm ls offset count id (b.tables .output)
      rw [List.map_id] at hremove
      rw [hremoved.tables _ (by decide), ← remove_again]
      refine hremove.trans ?_
      rw [hfrom]
      exact (((ls.up_perm _).trans houtputs).filter _).map _
    -- the count was taken from the address of the next section, so that one follows
    have hnext₁ : ∀ e' ∈ es.head?, e'.address = offset + (m + count) := by
      intro e' he'
      cases es with
      | nil => cases he'
      | cons e'' es =>
        obtain rfl : e'' = e' := Option.some.inj he'
        rw [stealCount] at hcount
        omega
    obtain ⟨m', hm', hperm⟩ := ih hlength₁ hnext₁ houtputs₁ (by rwa [Nat.cast_add])
    refine ⟨m', ?_, hperm⟩
    rw [if_neg (by simp)]
    by_cases hes : es = []
    · -- the last section goes to the end of the bin
      rw [if_pos hes] at hm'
      rw [hes, stealCount] at hcount
      omega
    · rwa [if_neg hes] at hm'

theorem Repointed.keptLabels {b b' : LdBin} (h : Repointed b b') :
    b'.keptLabels = b.keptLabels := by
  have houtside : b'.outsideSections = b.outsideSections := by
    funext o
    rw [LdBin.outsideSections, LdBin.outsideSections, h.tables _ (by decide), h.length]
  rw [LdBin.keptLabels, LdBin.keptLabels, h.tables _ (by decide), houtside]

/-- What is left of a table when nothing was removed. -/
theorem remove_nothing (l : List LconvEntry) (a : ℕ) :
    (l.filter (kept a 0 ·.address)).map (lowered false a 0) = l := by
  rw [List.filter_eq_self.mpr fun e _ => ?_]
  · conv_rhs => rw [← List.map_id l]
    refine List.map_congr_left fun e _ => ?_
    rw [movesEntry_lowered a 0 e, lowered_address]
    split <;> rfl
  · rw [kept, decide_eq_true_iff]
    omega

/-- The outputs of a file bin when all of its sections are cut out. -/
theorem stealSections_labels {b : LdBin} (hcreate : ∀ p ∈ create, p ≠ bin)
    (hb : heap bin = b.sortSections ls)
    (h : stealSections ls bins create bin 0 ((heap bin).tables .section) heap = .ok heap') :
    ((heap' bin).labels .output).Perm b.keptLabels := by
  have hsections : (heap bin).tables .section = ls.up (b.tables .section) := by
    rw [hb]
    rfl
  have hmem : ∀ e, e ∈ ls.up (b.tables .section) ↔ e ∈ b.tables .section := fun e =>
    (ls.up_perm _).mem_iff
  have hsorted := ls.up_sorted (b.tables .section)
  rw [hsections] at h
  generalize ls.up (b.tables .section) = es at h hmem hsorted
  obtain ⟨a, ha⟩ : ∃ a, ∀ e ∈ es.head?, e.address = a := by
    cases es with
    | nil => exact ⟨0, nofun⟩
    | cons e es => exact ⟨e.address, fun e' he' => congrArg _ (Option.some.inj he').symm⟩
  have houtputs : ((heap bin).tables .output).Perm
      (((b.tables .output).filter (kept a 0 ·.address)).map (lowered false a 0)) := by
    rw [remove_nothing, hb]
    exact .refl _
  have hempty : (heap bin).words.length + 0 = (heap bin).words.length := rfl
  obtain ⟨m, hm, hperm⟩ := stealSections_outputs hcreate hempty ha houtputs h
  have hlabels := hperm.map LconvEntry.label
  rw [List.map_map] at hlabels
  refine hlabels.trans (.of_eq ?_)
  -- the range that is removed goes from the first section to the end
  have hkept : (b.tables .output).filter (kept a m ·.address) =
      (b.tables .output).filter b.outsideSections := by
    refine List.filter_congr fun o _ => ?_
    rw [Bool.eq_iff_iff, LdBin.outsideSections, kept, decide_eq_true_iff, decide_eq_true_iff]
    cases es with
    | nil =>
      rw [if_pos rfl] at hm
      refine ⟨fun _ e he => absurd ((hmem e).mpr he) List.not_mem_nil, fun _ => ?_⟩
      omega
    | cons e es =>
      rw [if_neg (by simp), hb] at hm
      obtain rfl := ha e rfl
      change e.address + m = b.words.length at hm
      constructor
      · intro h e' he'
        have hle : e.address ≤ e'.address := by
          rcases List.mem_cons.mp ((hmem e').mpr he') with rfl | he'
          · exact Nat.le_refl _
          · exact (List.pairwise_cons.mp hsorted).1 e' he'
        omega
      · intro h
        have := h e ((hmem e).mp List.mem_cons_self)
        omega
  rw [hkept]
  exact List.map_congr_left fun e _ => label_lowered

/-- **The second loop of `bins_sectionize`** leaves the file bins with the outputs that are in
no section. -/
theorem sectionizeLoop_labels {heap₀ : Heap} (hcreate : ∀ p ∈ create, p ∉ rest) (hnd : rest.Nodup)
    (hsame : ∀ p ∈ rest, Repointed (heap₀ p) (heap p))
    (h : sectionizeLoop ls bins create rest heap = .ok heap') :
    ∀ p ∈ rest, ((heap' p).labels .output).Perm (heap₀ p).keptLabels := by
  induction rest generalizing heap with
  | nil => exact fun p hp => absurd hp List.not_mem_nil
  | cons bin rest ih =>
    rw [List.nodup_cons] at hnd
    rw [List.forall_mem_cons] at hsame ⊢
    have hbin : ∀ p ∈ create, p ≠ bin := fun p hp heq =>
      hcreate p hp (heq ▸ List.mem_cons_self)
    have hcreate' : ∀ p ∈ create, p ∉ rest := fun p hp hmem =>
      hcreate p hp (List.mem_cons_of_mem _ hmem)
    rw [sectionizeLoop] at h
    obtain ⟨heap₂, hsteal, h⟩ := exists_of_bind_eq_ok h
    have hlabels := stealSections_labels (b := heap bin) hbin (Function.update_self ..) hsteal
    constructor
    · have hkeeps : Repointed (heap₂ bin) (heap' bin) :=
        (sectionizeLoop_keeps [] (fun p hp => ⟨hcreate' p hp, hbin p hp⟩) hnd.1 h).1
      rw [LdBin.labels, hkeeps.tables _ (by decide)]
      rw [hsame.1.keptLabels] at hlabels
      exact hlabels
    · refine ih hcreate' hnd.2 (fun p hp => ?_) h
      have hne : p ≠ bin := ne_of_mem_of_not_mem hp hnd.1
      have hkeeps := (stealSections_keeps []
        (fun q hq => ⟨hbin q hq, fun heq => hcreate' q hq (heq ▸ hp)⟩) hne hsteal).1
      rw [Function.update_of_ne hne] at hkeeps
      exact (hsame.2 p hp).trans hkeeps

/-- **What is left of the outputs when `bins_flatten` begins.** -/
theorem binsSectionize_labels {files : List LdBin} {s : LdBins}
    (h : binsSectionize ls (binsAssociate (binsLoad files)) = .ok s) :
    ∃ create, s.bins = List.range files.length ++ create ∧
      (∀ p ∈ create, (s.heap p).isFile = false) ∧
      ∀ k < files.length, (s.heap k).isFile = (fileAt files k).isFile ∧
        ((s.heap k).labels .output).Perm (fileAt files k).keptLabels := by
  obtain ⟨s₁, create, hcreated, hloop, hbins, -, -⟩ := binsSectionize_cases h
  have hfresh : ∀ p ∈ create, p ∉ List.range files.length := fun p hp hmem =>
    Nat.not_lt.mpr (hcreated.fresh p hp).1 (List.mem_range.mp hmem)
  have hload : ∀ k < files.length, s₁.heap k = (fileAt files k).associate := fun k hk =>
    (hcreated.old k hk).trans (if_pos (List.mem_range.mpr hk))
  have hassociate : ∀ f : LdBin, Repointed f f.associate := fun f =>
    ⟨rfl, rfl, fun t ht => if_neg ht, rfl⟩
  refine ⟨create, hbins, fun p hp => ?_, fun k hk => ⟨?_, ?_⟩⟩
  · obtain ⟨e, -, hnew⟩ := hcreated.new p hp
    rw [LdBin.isFile, sectionizeLoop_name hfresh hloop p, hnew, decide_eq_false_iff_not, not_not]
    rfl
  · rw [LdBin.isFile, sectionizeLoop_name hfresh hloop k, hload k hk]
    rfl
  · have hsame : ∀ p ∈ List.range files.length, Repointed (fileAt files p) (s₁.heap p) :=
      fun p hp => hload p (List.mem_range.mp hp) ▸ hassociate _
    exact sectionizeLoop_labels hfresh List.nodup_range hsame hloop k (List.mem_range.mpr hk)

end Sectionize

/-! ### The table that is kept -/

/-- The outputs that `bins_flatten` finds are those of the file bins. -/
theorem fileOutputs_labels (ls : ListSort) (heap : Heap) (base : ℕ) (ps : List BinPtr) :
    ((fileOutputs ls heap base ps).map LconvEntry.label).Perm
      ((ps.filter fun p => (heap p).isFile).flatMap fun p => (heap p).labels .output) := by
  induction ps generalizing base with
  | nil => exact .refl _
  | cons p ps ih =>
    rw [fileOutputs, List.filter_cons]
    split
    · rw [List.map_append, List.map_map, List.flatMap_cons]
      exact ((ls.up_perm _).map _).append (ih _)
    · exact ih _

/-- What files keep is all they have only if each keeps all it has. -/
theorem keptLabels_perm_iff {files : List LdBin} :
    ((files.flatMap fun f => if f.isFile then f.keptLabels else []).Perm
      (files.flatMap (·.labels .output))) ↔ OutputsOutside files := by
  have hle : ∀ f ∈ files, (if f.isFile then f.keptLabels else []).length ≤
      (f.labels .output).length := by
    intro f _
    split
    · rw [LdBin.keptLabels, LdBin.labels, List.length_map, List.length_map]
      exact List.length_filter_le _ _
    · exact Nat.zero_le _
  constructor
  · intro hperm f hf o ho
    have hlength := hperm.length_eq
    rw [List.length_flatMap, List.length_flatMap] at hlength
    have hall := eq_of_sum_map_eq hle hlength f hf
    split at hall
    · rename_i hfile
      rw [LdBin.keptLabels, LdBin.labels, List.length_map, List.length_map,
        List.length_filter_eq_length_iff] at hall
      exact ⟨hfile, hall o ho⟩
    · rw [LdBin.labels, List.length_map] at hall
      exact absurd (List.length_pos_of_mem ho) (by rw [← hall]; exact Nat.lt_irrefl 0)
  · intro h
    refine .of_eq (List.flatMap_congr fun f hf => ?_)
    rcases hlist : f.tables .output with - | ⟨o, os⟩
    · rw [LdBin.keptLabels, LdBin.labels, hlist, List.filter_nil, List.map_nil, ite_self]
    · have hfile : f.isFile = true := (h f hf o (hlist ▸ List.mem_cons_self)).1
      rw [if_pos hfile, LdBin.keptLabels, LdBin.labels,
        List.filter_eq_self.mpr fun o ho => (h f hf o ho).2]

theorem flatMap_filter {α β : Type} (p : α → Bool) (f : α → List β) (l : List α) :
    (l.filter p).flatMap f = l.flatMap fun x => if p x then f x else [] := by
  induction l with
  | nil => rfl
  | cons x l ih =>
    rw [List.filter_cons, List.flatMap_cons]
    split
    · rw [List.flatMap_cons, ih]
    · exact ih

/-- **Every output is kept** exactly if none is in a section. -/
theorem outputOrder_labels_perm_iff {ls : ListSort} {files : List LdBin} {s : LdBins}
    (h : binsSectionize ls (binsAssociate (binsLoad files)) = .ok s) :
    ((outputOrder ls s).map LconvEntry.label).Perm
        ((files.flatMap (·.tables .output)).map LconvEntry.label) ↔ OutputsOutside files := by
  obtain ⟨create, hbins, hcreate, hfiles⟩ := binsSectionize_labels h
  have hmap : ∀ g : LdBin → List Bstring,
      ((List.range files.length).flatMap fun k => g (fileAt files k)) = files.flatMap g := by
    intro g
    conv_rhs => rw [← map_fileAt_range files]
    rw [List.flatMap_map]
  have hlabels : (files.flatMap (·.tables .output)).map LconvEntry.label =
      files.flatMap (·.labels .output) := List.map_flatMap ..
  have hleft : ((outputOrder ls s).map LconvEntry.label).Perm
      (files.flatMap fun f => if f.isFile then f.keptLabels else []) := by
    have hempty : create.filter (fun p => (s.heap p).isFile) = [] :=
      List.filter_eq_nil_iff.mpr fun p hp => by simp [hcreate p hp]
    have horder : ((outputOrder ls s).map LconvEntry.label).Perm
        ((fileOutputs ls s.heap 0 s.bins).map LconvEntry.label) := (ls.down_perm _).map _
    refine horder.trans ((fileOutputs_labels ls s.heap 0 s.bins).trans ?_)
    rw [hbins, List.filter_append, hempty, List.append_nil, ← hmap]
    -- the bins of the files come first, and the others are sections
    rw [flatMap_filter]
    refine List.Perm.flatMap_left _ fun k hk => ?_
    obtain ⟨hfile, hkept⟩ := hfiles k (List.mem_range.mp hk)
    rw [hfile]
    split
    · exact hkept
    · exact .refl _
  rw [hlabels, hleft.congr_left, keptLabels_perm_iff]

/-- `bins_sectionize` ends by printing the bins, each of which has all its adjustments then. -/
theorem binsSectionize_adjustment_lt {ls : ListSort} {s s' : LdBins}
    (h : binsSectionize ls s = .ok s') :
    ∀ p ∈ s'.bins, ∀ e ∈ (s'.heap p).tables .adjustment,
      e.address < (s'.heap p).words.length := by
  rw [binsSectionize] at h
  obtain ⟨_, -, h⟩ := exists_of_bind_eq_ok h
  obtain ⟨heap, -, h⟩ := exists_of_bind_eq_ok h
  obtain ⟨_, hprint, h⟩ := exists_of_bind_eq_ok h
  cases h
  rw [binsPrint] at hprint
  split at hprint
  · assumption
  · cases hprint

/-- **The table that is kept is right** exactly if no output is in a section, at most one has code,
and no other is behind that one. -/
theorem binsFlatten_exports_iff (ls : ListSort) {files : List LdBin} {s s' : LdBins}
    (hsectionize : binsSectionize ls (binsAssociate (binsLoad files)) = .ok s)
    (hflatten : binsFlatten ls outputName s = .ok s') :
    ExportsOutputs ls files s s' ↔
      OutputsOutside files ∧ OneHasCode s (fileOutputs ls s.heap 0 s.bins) := by
  obtain ⟨-, -, -, -, -, hnd, hnext⟩ := binsSectionize_cases hsectionize
  have hsorted : (outputOrder ls s).Pairwise (·.address ≥ ·.address) := ls.down_sorted _
  have horder : OneHasCode s (fileOutputs ls s.heap 0 s.bins) ↔ OneHasCode s (outputOrder ls s) :=
    oneHasCode_congr (ls.down_perm _).symm
  have htable := binsFlatten_outputs hnd hnext hflatten
  obtain ⟨hholds, hrange⟩ := binsFlatten_holdsCells
    (fun c => s'.flat.words.length ≤ 0x10000 ∧ s.Untouched c.bin c.index) hnd hnext
    (binsSectionize_adjustment_lt hsectionize) (fun _ hc => hc.2) hflatten fun _ hc => hc.1
  rw [htable] at hholds hrange
  have hinside : CodeInside s (s.fileCells s.bins).length (outputOrder ls s) :=
    fun o ho hpos => hrange o ho (List.length_pos_iff.mp (by rwa [length_codeCells]))
  rw [← outputOrder_labels_perm_iff hsectionize, horder, ← isPositionOf_iff hnd hinside hsorted]
  have hget : ∀ before o later, outputOrder ls s = before ++ o :: later →
      (s'.flat.tables .output)[before.length]? = some o := by
    intro before o later horder
    rw [htable, horder, List.getElem?_append_right (Nat.le_refl _), Nat.sub_self,
      List.getElem?_cons_zero]
  constructor
  · -- the entry that is kept is the output itself, at its old address
    rintro ⟨-, hpresent, hplaced⟩
    refine ⟨htable ▸ hpresent, fun before o later horder => ?_⟩
    obtain ⟨e, he, -, hposition⟩ := hplaced before o later horder
    obtain rfl : o = e := Option.some.inj ((hget _ _ _ horder).symm.trans he)
    exact hposition
  · rintro ⟨hpresent, hplaced⟩
    refine ⟨hholds.words.imp fun c w hc hsize huntouched => hc ⟨hsize, huntouched⟩,
      htable ▸ hpresent, fun before o later horder => ?_⟩
    exact ⟨o, hget _ _ _ horder, rfl, hplaced before o later horder⟩

/-- Two sections with the outputs for them, one behind the other. -/
def twoOutputsFile : LdBin where
  name := ['m']
  words := [1, 2, 3, 4]
  tables
    | .section => [⟨['a'], none, 2⟩, ⟨['b'], none, 3⟩]
    | .output => [⟨['a'], none, 0⟩, ⟨['b'], none, 1⟩]
    | _ => []
  symbols := []

theorem binsFlatten_exports_twoOutputsFile :
    ∃ s s', binsSectionize .insertion (binsAssociate (binsLoad [twoOutputsFile])) = .ok s ∧
      binsFlatten .insertion outputName s = .ok s' ∧
      (ExportsOutputs .insertion [twoOutputsFile] s s' ↔
        OutputsOutside [twoOutputsFile] ∧
          OneHasCode s (fileOutputs .insertion s.heap 0 s.bins)) :=
  ⟨_, _, rfl, rfl, binsFlatten_exports_iff .insertion rfl rfl⟩

/-- The code of the section `b` is behind a word of the other section and a word of the file, but
the output is kept with the address of the word of the file. -/
theorem not_forall_binsFlatten_exports :
    ¬ ∀ (ls : ListSort) (files : List LdBin) (s s' : LdBins),
      binsSectionize ls (binsAssociate (binsLoad files)) = .ok s →
        binsFlatten ls outputName s = .ok s' → ExportsOutputs ls files s s' := by
  intro h
  have hexports := h .insertion [twoOutputsFile] _ _ rfl rfl
  obtain ⟨e, he, -, hposition⟩ := hexports.placed [] ⟨['b'], none, 1⟩ [⟨['a'], none, 0⟩] rfl
  obtain rfl : (⟨['b'], none, 1⟩ : LconvEntry) = e := Option.some.inj he
  -- the word of the other section is at its position
  have hcode := hposition.code 0 ⟨some 0, 2, 0⟩ rfl
  exact absurd hcode (by decide)

end DcpuToolchain
