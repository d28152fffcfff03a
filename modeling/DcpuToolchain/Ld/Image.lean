import DcpuToolchain.Ld.Jumplist
import DcpuToolchain.Ld.Symbols

/-!
# The words of the image

`bins_flatten` strings the file bins together and inserts the section bins at the outputs. What
comes out of it is told by a list with a cell for each word, which says of which bin the word is
(`DcpuToolchain.imageCells`). That the bin it makes has the words that these cells stand for, one
for one, is a statement about the run (`DcpuToolchain.binsFlatten_holdsCells`): every walk over the
adjustments goes through all the bins that are not moved yet, and changes words in them.

A word keeps its value as long as no adjustment marks it. An adjustment of a bin that is not moved
yet stays at its word, except that a removal lowers it if it names the bin that loses its words and
lies as far behind as this bin was long; so it may come to any word before its own
(`DcpuToolchain.LdBins.Spares`).
-/

namespace DcpuToolchain

open Marks

/-! ### Cells -/

/-- A word of the image, told by where it is from: a word of a bin, which was put in with its file
(`none`), or at an output that so many others came before. -/
structure ImageCell where
  turn : Option ℕ
  bin : BinPtr
  index : ℕ
  deriving DecidableEq

namespace LdBins

variable (s : LdBins)

/-- The word a cell stands for. -/
def cellWord (c : ImageCell) : Word := (s.heap c.bin).word c.index

/-- The cells of a bin. -/
def binCells (turn : Option ℕ) (p : BinPtr) : List ImageCell :=
  (List.range (s.heap p).words.length).map (⟨turn, p, ·⟩)

/-- The cells of the file bins, strung together. -/
def fileCells (ps : List BinPtr) : List ImageCell :=
  (ps.filter fun p => (s.heap p).isFile).flatMap (s.binCells none)

/-- The cells of the code that is inserted at an output. -/
def codeCells (turn : ℕ) (o : LconvEntry) : List ImageCell :=
  match binSeek s.heap s.bins (sectionName o.label) with
  | none => []
  | some p => s.binCells (some turn) p

/-- An adjustment that no removal of a file bin lowers, whatever this is called: it lies before
the end of each that it names. -/
def Stays (e : LconvEntry) : Prop :=
  ∀ q ∈ s.bins, (s.heap q).isFile = true →
    biseq e.bin (s.heap q).name = true ∨ (s.heap q).name = outputName →
      e.address < (s.heap q).words.length

/-- An adjustment that will not come to a word of its bin. -/
def Spares (e : LconvEntry) (i : ℕ) : Prop := e.address < i ∨ i < e.address ∧ s.Stays e

/-- A word to which no adjustment of its bin will come. -/
def Untouched (p : BinPtr) (i : ℕ) : Prop := ∀ e ∈ (s.heap p).tables .adjustment, s.Spares e i

end LdBins

/-- The cells of an image when code is inserted at outputs, one after the other. -/
def imageCells (s : LdBins) : (turn : ℕ) → List LconvEntry → List ImageCell → List ImageCell
  | _, [], cells => cells
  | turn, o :: os, cells =>
    imageCells s (turn + 1) os
      (insertedCells cells (s.codeCells turn o) o.address 0 (s.codeCells turn o).length)

/-! ### The target -/

section Target

variable {κ : Type} {word : κ → Word} {free : κ → Prop} {cells block : List κ}

/-- A word that is changed may be any if its cell is not free. -/
theorem forall₂_set {R : κ → Word → Prop} {words : List Word} (h : List.Forall₂ R cells words)
    {a : ℕ} {w : Word} (hw : ∀ c, cells[a]? = some c → R c w) :
    List.Forall₂ R cells (words.set a w) := by
  induction h generalizing a with
  | nil => exact .nil
  | cons hcw h ih =>
    cases a with
    | zero => exact .cons (hw _ rfl) h
    | succ a => exact .cons hcw (ih hw)

variable (word free) in
/-- **A bin has the words of its cells**: there is one for each, which is the right one if the
cell is free, and no adjustment marks the word of such a cell. -/
structure HoldsCells (cells : List κ) (b : LdBin) : Prop where
  words : List.Forall₂ (fun c w => free c → w = word c) cells b.words
  lt : ∀ e ∈ b.tables .adjustment, e.address < b.words.length
  apart : ∀ e ∈ b.tables .adjustment, ∀ c, cells[e.address]? = some c → ¬ free c

namespace HoldsCells

variable {b b' src : LdBin} {atPos : ℕ} {iterated : Bool}

theorem length (h : HoldsCells word free cells b) : cells.length = b.words.length :=
  h.words.length_eq

variable {post : LconvEntry → Word → LconvEntry × Word} {missing : LdError}

/-- What a walk makes of the words. -/
theorem walk_words {es : List LconvEntry} {words : List Word} {r : List LconvEntry × List Word}
    (hwords : List.Forall₂ (fun c w => free c → w = word c) cells words)
    (hes : ∀ e ∈ es, ∀ c, cells[e.address]? = some c → ¬ free c)
    (h : adjust id post missing es words = .ok r) :
    List.Forall₂ (fun c w => free c → w = word c) cells r.2 := by
  induction es generalizing words r with
  | nil =>
    cases h
    exact hwords
  | cons e es ih =>
    rw [List.forall_mem_cons] at hes
    rw [adjust] at h
    split at h
    · cases h
    · obtain ⟨r', hrest, h⟩ := exists_of_bind_eq_ok h
      cases h
      change List.Forall₂ _ cells r'.2
      refine ih ?_ hes.2 hrest
      exact forall₂_set hwords fun c hc hfree => absurd hfree (hes.1 c hc)

/-- A walk over the adjustments of the bin that leaves them where they are. -/
theorem walk (h : HoldsCells word free cells b) (hpost : ∀ e w, (post e w).1.address = e.address)
    (hb : b.adjust id post missing = .ok b') : HoldsCells word free cells b' := by
  have hmem : ∀ e' ∈ b'.tables .adjustment, ∃ e ∈ b.tables .adjustment, e'.address = e.address := by
    intro e' he'
    obtain ⟨e, he, -, w, rfl⟩ := LdBin.mem_adjust hb he'
    exact ⟨e, he, hpost _ _⟩
  refine ⟨?_, fun e' he' => ?_, fun e' he' c hc => ?_⟩
  · rw [LdBin.adjust] at hb
    rcases hr : DcpuToolchain.adjust id post missing (b.tables .adjustment) b.words
      with error | r <;>
      rw [hr] at hb <;> cases hb
    exact walk_words h.words h.apart hr
  · obtain ⟨e, he, haddress⟩ := hmem e' he'
    rw [haddress, (LdBin.adjust_repointed hb).length]
    exact h.lt e he
  · obtain ⟨e, he, haddress⟩ := hmem e' he'
    exact h.apart e he c (haddress ▸ hc)

/-- The words of another bin are inserted, with its entries. -/
theorem insert (h : HoldsCells word free cells b) (hsrc : HoldsCells word free block src)
    (hat : atPos ≤ b.words.length)
    (hsize : ∀ c, free c → b.words.length + src.words.length ≤ 0x10000) :
    HoldsCells word free (insertedCells cells block atPos 0 block.length)
      (b.insert iterated src atPos 0 src.words.length) := by
  have hcells := h.length
  have hblock := hsrc.length
  have hat' : atPos ≤ cells.length := by omega
  have hall : 0 + block.length ≤ block.length := Nat.le_of_eq (Nat.zero_add _)
  have htable : (b.insert iterated src atPos 0 src.words.length).tables .adjustment =
      (b.tables .adjustment).map (shiftUp atPos src.words.length) ++
        ((src.tables .adjustment).filter
          (copied src.words.length 0 src.words.length <| address ·)).map (copyEntry atPos 0) := by
    rfl
  have hshift : ∀ e : LconvEntry, (shiftUp atPos src.words.length e).address =
      if atPos ≤ e.address then u16 (e.address + src.words.length) else e.address :=
    shiftUp_address atPos src.words.length
  have hcopy : ∀ e : LconvEntry, (copyEntry atPos 0 e).address = u16 (atPos + (e.address - 0)) :=
    fun _ => rfl
  have hlength : (b.insert iterated src atPos 0 src.words.length).words.length =
      b.words.length + src.words.length :=
    length_insert hat (Nat.le_of_eq (Nat.zero_add _))
  constructor
  · rw [← hblock]
    exact List.rel_append (List.rel_append (List.forall₂_take _ h.words)
      (List.forall₂_take _ (List.forall₂_drop _ hsrc.words))) (List.forall₂_drop _ h.words)
  · intro e he
    rw [htable, List.mem_append, List.mem_map, List.mem_map] at he
    rw [hlength]
    rcases he with ⟨e, he, rfl⟩ | ⟨e, he, rfl⟩
    · have hlt := h.lt e he
      rw [hshift]
      split
      · exact (Nat.mod_le _ _).trans_lt (by omega)
      · omega
    · have hlt := hsrc.lt e (List.mem_filter.mp he).1
      rw [hcopy]
      exact (Nat.mod_le _ _).trans_lt (by omega)
  · intro e he c hc hfree
    have hfit := hsize c hfree
    rw [htable, List.mem_append, List.mem_map, List.mem_map] at he
    rcases he with ⟨e, he, rfl⟩ | ⟨e, he, rfl⟩
    · have hlt := h.lt e he
      have haddress : (shiftUp atPos src.words.length e).address =
          if atPos ≤ e.address then e.address + block.length else e.address := by
        rw [hshift, hblock]
        split
        · exact u16_of_lt (by omega)
        · rfl
      rw [haddress, getElem?_insertedCells_tgt hat' hall] at hc
      exact h.apart e he c hc hfree
    · have he' := (List.mem_filter.mp he).1
      have hlt := hsrc.lt e he'
      have haddress : (copyEntry atPos 0 e).address = atPos + (e.address - 0) :=
        (hcopy e).trans (u16_of_lt (by omega))
      rw [haddress, getElem?_insertedCells_src hat' hall (Nat.zero_le _) (by omega)] at hc
      exact hsrc.apart e he' c hc hfree

end HoldsCells

end Target

/-! ### The bins that are not moved yet -/

/-- **A bin that is still to be moved**: its untouched words are what they were, and no adjustment
will come to them. -/
structure SourceKept (s : LdBins) (p : BinPtr) (b : LdBin) : Prop where
  name : b.name = (s.heap p).name
  length : b.words.length = (s.heap p).words.length
  word : ∀ i, s.Untouched p i → b.words[i]? = (s.heap p).words[i]?
  lt : ∀ e ∈ b.tables .adjustment, e.address < (s.heap p).words.length
  spares : ∀ i, s.Untouched p i → ∀ e ∈ b.tables .adjustment, s.Spares e i

section Sources

variable {ls : ListSort} {s : LdBins} {p q : BinPtr} {b b' : LdBin}

theorem LdBins.Spares.ne {e : LconvEntry} {i : ℕ} (h : s.Spares e i) : e.address ≠ i := by
  rcases h with h | h <;> omega

/-- An adjustment that is one of the target afterwards. -/
theorem LdBins.Spares.repointInserted {e : LconvEntry} {i : ℕ} (h : s.Spares e i)
    (fromName : Bstring) (atPos offset count : ℕ) (w : Word) :
    s.Spares (repointInserted outputName fromName atPos offset count e w).1 i := by
  rw [DcpuToolchain.repointInserted]
  split
  · refine h.imp_right fun hbehind => ⟨hbehind.1, fun q hq hfile hname => ?_⟩
    refine hbehind.2 q hq hfile (.inr ?_)
    rw [biseq_some, decide_eq_true_iff] at hname
    exact hname.elim Eq.symm id
  · split
    · exact h
    · exact h

/-- An adjustment that is lowered lies before the word. -/
theorem LdBins.Spares.lowerRemoved {e : LconvEntry} {i : ℕ} (h : s.Spares e i) (hq : q ∈ s.bins)
    (hfile : (s.heap q).isFile = true) (w : Word) :
    s.Spares (repointRemoved (s.heap q).name 0 (s.heap q).words.length
      (lowerRemoved (s.heap q).name 0 (s.heap q).words.length e) w).1 i := by
  have hlowered :
      s.Spares (DcpuToolchain.lowerRemoved (s.heap q).name 0 (s.heap q).words.length e) i := by
    rw [DcpuToolchain.lowerRemoved]
    split
    · rename_i hlower
      rw [Nat.zero_add] at hlower
      rcases h with h | h
      · exact .inl ((Nat.sub_le _ _).trans_lt h)
      · exact absurd (h.2 q hq hfile (.inl hlower.2)) (Nat.not_lt.mpr hlower.1)
    · exact h
  rw [repointRemoved]
  split
  · exact hlowered
  · exact hlowered

namespace SourceKept

/-- Nothing is moved yet. -/
theorem start (hlt : ∀ e ∈ (s.heap p).tables .adjustment, e.address < (s.heap p).words.length) :
    SourceKept s p (s.heap p) :=
  ⟨rfl, rfl, fun _ _ => rfl, hlt, fun _ hi e he => hi e he⟩

theorem sortTables (ls : ListSort) (h : SourceKept s p b) : SourceKept s p (b.sortTables ls) where
  name := h.name
  length := h.length
  word := h.word
  lt e he := h.lt e ((ls.up_perm _).mem_iff.mp he)
  spares i hi e he := h.spares i hi e ((ls.up_perm _).mem_iff.mp he)

variable {pre : LconvEntry → LconvEntry} {post : LconvEntry → Word → LconvEntry × Word}
  {missing : LdError}

/-- A walk over the adjustments. -/
theorem walk (h : SourceKept s p b) (hpost : ∀ e w, (post e w).1.address = e.address)
    (hspares : ∀ i e w, s.Spares e i → s.Spares (post (pre e) w).1 i)
    (hb : b.adjust pre post missing = .ok b') : SourceKept s p b' := by
  have hsame := LdBin.adjust_repointed hb
  have hspared : ∀ i, s.Untouched p i → ∀ e' ∈ b'.tables .adjustment, s.Spares e' i := by
    intro i hi e' he'
    obtain ⟨e, he, -, w, rfl⟩ := LdBin.mem_adjust hb he'
    exact hspares i e w (h.spares i hi e he)
  refine ⟨hsame.name.trans h.name, hsame.length.trans h.length, fun i hi => ?_, fun e' he' => ?_,
    hspared⟩
  · rw [LdBin.adjust_getElem? hpost hb, h.word i hi]
    rw [← Bool.not_eq_true, adjustedAt_iff]
    rintro ⟨e', he', heq⟩
    exact (hspared i hi e' he').ne heq
  · obtain ⟨e, -, hlt, w, rfl⟩ := LdBin.mem_adjust hb he'
    rw [hpost, ← h.length]
    exact hlt

/-- The words of a bin as cells of the image. -/
theorem holdsCells (h : SourceKept s p b) (turn : Option ℕ) {free : ImageCell → Prop}
    (hfree : ∀ c, free c → s.Untouched c.bin c.index) :
    HoldsCells s.cellWord free (s.binCells turn p) b := by
  have hcell : ∀ {i : ℕ} {c : ImageCell}, (s.binCells turn p)[i]? = some c → c = ⟨turn, p, i⟩ := by
    intro i c hc
    rw [LdBins.binCells, List.getElem?_map] at hc
    obtain ⟨i', hi, rfl⟩ := Option.map_eq_some_iff.mp hc
    obtain ⟨hlt, rfl⟩ := List.getElem?_eq_some_iff.mp hi
    rw [List.getElem_range]
  refine ⟨?_, fun e he => h.length ▸ h.lt e he, fun e he c hc hc' => ?_⟩
  · rw [List.forall₂_iff_get]
    refine ⟨?_, fun i hi hi' hc => ?_⟩
    · rw [h.length, LdBins.binCells, List.length_map, List.length_range]
    · rw [List.get_eq_getElem] at hc
      rw [List.get_eq_getElem, List.get_eq_getElem]
      dsimp only at hc ⊢
      have heq := hcell (List.getElem?_eq_getElem hi)
      rw [heq] at hc ⊢
      have hword := h.word i (hfree _ hc)
      rw [List.getElem?_eq_getElem hi'] at hword
      rw [LdBins.cellWord, LdBin.word, List.getD_eq_getElem?_getD, ← hword]
      rfl
  · rw [hcell hc] at hc'
    have huntouched : s.Untouched p e.address := hfree _ hc'
    exact (h.spares _ huntouched e he).ne rfl

end SourceKept

/-- An insertion into the target walks over all bins. -/
theorem SourceKept.binInsert {iterated : Bool} {target fromBin : BinPtr} {atPos offset count : ℕ}
    {heap heap' : Heap} (hnd : s.bins.Nodup) (htarget : target ∉ s.bins)
    (hname : (heap target).name = outputName) (hfrom : fromBin ∈ s.bins) (hp : p ∈ s.bins)
    (hinsert : binInsert ls iterated s.bins target fromBin atPos offset count heap = .ok heap')
    (h : SourceKept s p (heap p)) : SourceKept s p (heap' p) := by
  have hwalk := binInsert_walk_of_ne hinsert (ne_of_mem_of_not_mem hfrom htarget) hnd hp
    (ne_of_mem_of_not_mem hp htarget)
  rw [hname] at hwalk
  refine SourceKept.walk ?_ (repointInserted_address _ _ _ _ _)
    (fun i e w he => he.repointInserted _ _ _ _ w) hwalk
  split
  · exact h.sortTables ls
  · exact h

/-- A file bin loses all its words, and the others are walked over. -/
theorem SourceKept.binRemove {heap heap' : Heap} (hnd : s.bins.Nodup) (hq : q ∈ s.bins)
    (hfile : (s.heap q).isFile = true) (hname : (heap q).name = (s.heap q).name) (hp : p ∈ s.bins)
    (hne : p ≠ q)
    (hremove : binRemove ls s.bins q 0 (s.heap q).words.length heap = .ok heap')
    (h : SourceKept s p (heap p)) : SourceKept s p (heap' p) := by
  have hwalk := binRemove_walk_of_ne hremove hnd hp hne
  rw [hname] at hwalk
  exact h.walk (repointRemoved_address _ _ _) (fun i e w he => he.lowerRemoved hq hfile w) hwalk

end Sources

/-! ### The loops -/

section Loops

variable {ls : ListSort} {s : LdBins} {free : ImageCell → Prop} {target : BinPtr}
  {heap heap' : Heap} {cells : List ImageCell}

/-- The target when the words of a bin were inserted. -/
theorem HoldsCells.binInsert {iterated : Bool} {bin : BinPtr} {atPos : ℕ} (turn : Option ℕ)
    (htarget : target ∉ s.bins) (hbin : bin ∈ s.bins)
    (hfree : ∀ c, free c → s.Untouched c.bin c.index)
    (hsource : SourceKept s bin (heap bin))
    (hinsert : binInsert ls iterated s.bins target bin atPos 0 (heap bin).words.length heap =
      .ok heap')
    (hsize : ∀ c, free c → (heap' target).words.length ≤ 0x10000)
    (h : HoldsCells s.cellWord free cells (heap target)) :
    HoldsCells s.cellWord free
      (insertedCells cells (s.binCells turn bin) atPos 0 (s.binCells turn bin).length)
      (heap' target) := by
  have hne : bin ≠ target := ne_of_mem_of_not_mem hbin htarget
  have hwalk := binInsert_walk hinsert hne
  obtain ⟨hat, hoffset, hto, -, -⟩ := binInsert_repointed hinsert hne
  refine HoldsCells.walk ?_ (repointInserted_address _ _ _ _ _) hwalk
  have hblock := (hsource.sortTables ls).holdsCells turn hfree
  refine h.insert hblock hat fun c hc => ?_
  have hlength := hto.length.trans (length_insert hat hoffset)
  have := hsize c hc
  change (heap target).words.length + (heap bin).words.length ≤ _
  omega

/-- **The first loop of `bins_flatten`** strings the file bins together. -/
theorem flattenFiles_holdsCells {rest : List BinPtr} (hnd : s.bins.Nodup)
    (htarget : target ∉ s.bins) (hrest : ∀ p ∈ rest, p ∈ s.bins) (hrestnd : rest.Nodup)
    (hfree : ∀ c, free c → s.Untouched c.bin c.index) (hname : (heap target).name = outputName)
    (hsources : ∀ p ∈ s.bins, p ∈ rest ∨ (s.heap p).isFile = false → SourceKept s p (heap p))
    (hfiles : flattenFiles ls s.bins target rest heap = .ok heap')
    (hsize : ∀ c, free c → (heap' target).words.length ≤ 0x10000)
    (h : HoldsCells s.cellWord free cells (heap target)) :
    HoldsCells s.cellWord free (cells ++ s.fileCells rest) (heap' target) ∧
      (heap' target).name = outputName ∧
      ∀ p ∈ s.bins, (s.heap p).isFile = false → SourceKept s p (heap' p) := by
  induction rest generalizing heap cells with
  | nil =>
    cases hfiles
    refine ⟨?_, hname, fun p hp hsection => hsources p hp (.inr hsection)⟩
    rwa [LdBins.fileCells, List.filter_nil, List.flatMap_nil, List.append_nil]
  | cons bin rest ih =>
    have hbin : bin ∈ s.bins := hrest bin List.mem_cons_self
    have hne : bin ≠ target := ne_of_mem_of_not_mem hbin htarget
    rw [List.nodup_cons] at hrestnd
    have hrest' : ∀ p ∈ rest, p ∈ s.bins := fun p hp => hrest p (List.mem_cons_of_mem _ hp)
    have hsource := hsources bin hbin (.inl List.mem_cons_self)
    have hisFile : (heap bin).isFile = (s.heap bin).isFile := by
      rw [LdBin.isFile, hsource.name, LdBin.isFile]
    rw [LdBins.fileCells, List.filter_cons]
    rcases flattenFiles_cons hfiles with ⟨hsection, hfiles⟩ | ⟨hfile, heap₂, hmove, hfiles⟩
    · rw [hisFile] at hsection
      rw [if_neg (by simp [hsection])]
      refine ih hrest' hrestnd.2 hname (fun p hp h => hsources p hp ?_) hfiles h
      exact h.imp_left (List.mem_cons_of_mem _)
    · rw [hisFile] at hfile
      rw [if_pos hfile, List.flatMap_cons, ← List.append_assoc]
      rw [binMove] at hmove
      obtain ⟨heap₁, hinsert, hremove⟩ := exists_of_bind_eq_ok hmove
      have hkept : ∀ p ∈ s.bins, SourceKept s p (heap p) → SourceKept s p (heap₁ p) :=
        fun p hp => SourceKept.binInsert hnd htarget hname hbin hp hinsert
      have hsame : heap₂ target = heap₁ target := binRemove_of_notMem hremove htarget hne.symm
      have hle : (heap₂ target).words.length ≤ (heap' target).words.length :=
        (flattenFiles_keeps [] (fun p hp => ne_of_mem_of_not_mem (hrest' p hp) htarget) hfiles).1
      rw [hsame] at hle
      have hholds : HoldsCells s.cellWord free (cells ++ s.binCells none bin) (heap₁ target) := by
        have hinserted := h.binInsert none htarget hbin hfree hsource hinsert
          fun c hc => hle.trans (hsize c hc)
        rwa [insertedCells, ← h.length, List.take_length, List.drop_length, List.drop_zero,
          List.take_length, List.append_nil] at hinserted
      have hname₁ : (heap₁ target).name = outputName :=
        (binInsert_repointed hinsert hne).2.2.1.name.trans hname
      rw [hsource.length] at hremove
      have hnameBin : (heap₁ bin).name = (s.heap bin).name := (hkept bin hbin hsource).name
      refine ih hrest' hrestnd.2 (hsame ▸ hname₁) (fun p hp h => ?_) hfiles (hsame ▸ hholds)
      have hp' : p ≠ bin := by
        rintro rfl
        rcases h with h | h
        · exact hrestnd.1 h
        · rw [h] at hfile
          cases hfile
      refine SourceKept.binRemove hnd hbin hfile hnameBin hp hp' hremove ?_
      exact hkept p hp (hsources p hp (h.imp_left (List.mem_cons_of_mem _)))

/-- **The second loop of `bins_flatten`** inserts the code at the outputs. -/
theorem flattenOutputs_holdsCells {os : List LconvEntry} {turn : ℕ} (hnd : s.bins.Nodup)
    (htarget : target ∉ s.bins) (hfree : ∀ c, free c → s.Untouched c.bin c.index)
    (hname : (heap target).name = outputName)
    (hnames : ∀ p ∈ s.bins, (heap p).name = (s.heap p).name)
    (hsources : ∀ p ∈ s.bins, (s.heap p).isFile = false → SourceKept s p (heap p))
    (houtputs : flattenOutputs ls s.bins target os heap = .ok heap')
    (hsize : ∀ c, free c → (heap' target).words.length ≤ 0x10000)
    (h : HoldsCells s.cellWord free cells (heap target)) :
    HoldsCells s.cellWord free (imageCells s turn os cells) (heap' target) := by
  induction os generalizing heap cells turn with
  | nil =>
    cases houtputs
    exact h
  | cons o os ih =>
    have hseek := binSeek_congr hnames (sectionName o.label)
    rw [imageCells]
    rcases flattenOutputs_cons houtputs with
      ⟨hnone, houtputs⟩ | ⟨bin, hsome, heap₁, hinsert, houtputs⟩
    · have hcode : s.codeCells turn o = [] := by rw [LdBins.codeCells, ← hseek, hnone]
      refine ih hname hnames hsources houtputs ?_
      rwa [hcode, insertedCells, List.length_nil, List.take_zero, List.append_nil,
        List.take_append_drop]
    · have hcode : s.codeCells turn o = s.binCells (some turn) bin := by
        rw [LdBins.codeCells, ← hseek, hsome]
      obtain ⟨hbin, hsection⟩ := of_binSeek_section hsome
      rw [LdBin.isFile, hnames bin hbin, ← LdBin.isFile] at hsection
      have hne : bin ≠ target := ne_of_mem_of_not_mem hbin htarget
      have hle := (flattenOutputs_keeps [] htarget houtputs).1
      rw [hcode]
      refine ih ((binInsert_repointed hinsert hne).2.2.1.name.trans hname) (fun p hp => ?_)
        (fun p hp hp' => ?_) houtputs ?_
      · exact (binInsert_alike hinsert hne (ne_of_mem_of_not_mem hp htarget)).name.trans
          (hnames p hp)
      · exact (hsources p hp hp').binInsert hnd htarget hname hbin hp hinsert
      · exact h.binInsert (some turn) htarget hbin hfree (hsources bin hbin hsection) hinsert
          fun c hc => hle.trans (hsize c hc)

/-- No output is copied into a table that is iterated, and none is shifted. -/
theorem insert_output_iterated {b src : LdBin} (pos offset count : ℕ) :
    (b.insert true src pos offset count).tables .output = b.tables .output := by
  rw [LdBin.insert]
  dsimp only
  rw [if_neg (by decide), insertEntries, if_pos (by decide), if_pos (by decide), List.append_nil]

/-- **The second loop of `bins_flatten`** leaves the table over which it iterates alone. -/
theorem flattenOutputs_outputs {bins : List BinPtr} {es : List LconvEntry}
    (hbins : target ∉ bins)
    (h : flattenOutputs ls bins target es heap = .ok heap') :
    (heap' target).tables .output = (heap target).tables .output := by
  induction es generalizing heap with
  | nil =>
    cases h
    rfl
  | cons e es ih =>
    rcases flattenOutputs_cons h with ⟨-, h⟩ | ⟨bin, hseek, heap₁, hinsert, h⟩
    · exact ih h
    · have hne : bin ≠ target := ne_of_mem_of_not_mem (of_binSeek_section hseek).1 hbins
      obtain ⟨-, -, hto, -, -⟩ := binInsert_repointed hinsert hne
      rw [ih h, hto.tables _ (by decide)]
      exact insert_output_iterated _ _ _

/-- Code is inserted within the target, and that of later outputs not behind it. -/
theorem flattenOutputs_address_le {os : List LconvEntry}
    (hsorted : os.Pairwise (·.address ≥ ·.address))
    (htarget : target ∉ s.bins) (hnames : ∀ p ∈ s.bins, (heap p).name = (s.heap p).name)
    (hlengths : ∀ p ∈ s.bins, (s.heap p).isFile = false →
      (heap p).words.length = (s.heap p).words.length)
    (houtputs : flattenOutputs ls s.bins target os heap = .ok heap') :
    ∀ o ∈ os, s.codeCells 0 o ≠ [] → o.address ≤ (heap target).words.length := by
  induction os generalizing heap with
  | nil => exact nofun
  | cons o os ih =>
    rw [List.pairwise_cons] at hsorted
    have hseek := binSeek_congr hnames (sectionName o.label)
    rw [List.forall_mem_cons]
    rcases flattenOutputs_cons houtputs with
      ⟨hnone, houtputs⟩ | ⟨bin, hsome, heap₁, hinsert, houtputs⟩
    · refine ⟨fun hcode => absurd ?_ hcode, ih hsorted.2 hnames hlengths houtputs⟩
      rw [LdBins.codeCells, ← hseek, hnone]
    · obtain ⟨hbin, hsection⟩ := of_binSeek_section hsome
      rw [LdBin.isFile, hnames bin hbin, ← LdBin.isFile] at hsection
      have hne : bin ≠ target := ne_of_mem_of_not_mem hbin htarget
      obtain ⟨hat, hoffset, hto, -, -⟩ := binInsert_repointed hinsert hne
      refine ⟨fun _ => hat, fun o' ho' hcode => ?_⟩
      rcases Nat.eq_zero_or_pos (heap bin).words.length with hzero | hpos
      · -- nothing is inserted
        have hlike : ∀ p ∈ s.bins, Alike (heap p) (heap₁ p) := fun p hp =>
          binInsert_alike hinsert hne (ne_of_mem_of_not_mem hp htarget)
        have hrest := ih hsorted.2 (fun p hp => (hlike p hp).name.trans (hnames p hp))
          (fun p hp hp' => (hlike p hp).length.trans (hlengths p hp hp')) houtputs o' ho' hcode
        rwa [hto.length.trans (length_insert hat hoffset), hzero, Nat.add_zero] at hrest
      · exact (hsorted.1 o' ho').trans hat

variable (free) in
/-- **The words of the image are those of its cells**, as far as no adjustment marks them; the
code is inserted at the outputs that the first loop has gathered, and none of it behind the words
of the files. -/
theorem binsFlatten_holdsCells {s' : LdBins} (hnd : s.bins.Nodup) (hnext : s.next ∉ s.bins)
    (hlt : ∀ p ∈ s.bins, ∀ e ∈ (s.heap p).tables .adjustment,
      e.address < (s.heap p).words.length)
    (hfree : ∀ c, free c → s.Untouched c.bin c.index)
    (h : binsFlatten ls outputName s = .ok s')
    (hsize : ∀ c, free c → s'.flat.words.length ≤ 0x10000) :
    HoldsCells s.cellWord free
        (imageCells s 0 (s'.flat.tables .output) (s.fileCells s.bins)) s'.flat ∧
      ∀ o ∈ s'.flat.tables .output, s.codeCells 0 o ≠ [] →
        o.address ≤ (s.fileCells s.bins).length := by
  obtain ⟨heap, hfiles, houtputs, hbins, -⟩ := binsFlatten_cases h
  have hne : ∀ p ∈ s.bins, p ≠ s.next := fun p hp => ne_of_mem_of_not_mem hp hnext
  rw [LdBins.flat_eq hbins] at hsize ⊢
  have hle := (flattenOutputs_keeps [] hnext houtputs).1
  rw [Function.update_self] at hle
  have hsource : ∀ p ∈ s.bins, SourceKept s p
      (Function.update s.heap s.next (binCreate outputName) p) := by
    intro p hp
    rw [Function.update_of_ne (hne p hp)]
    exact .start (hlt p hp)
  have hempty : HoldsCells s.cellWord free []
      (Function.update s.heap s.next (binCreate outputName) s.next) := by
    rw [Function.update_self]
    exact ⟨.nil, nofun, nofun⟩
  obtain ⟨hholds, hname, hsources⟩ := flattenFiles_holdsCells hnd hnext (fun _ hp => hp) hnd hfree
    (by rw [Function.update_self]; rfl) (fun p hp _ => hsource p hp) hfiles
    (fun c hc => hle.trans (hsize c hc)) hempty
  have hnames : ∀ p ∈ s.bins,
      (Function.update heap s.next ((heap s.next).sortOutputs ls) p).name = (s.heap p).name :=
    fun p hp => (flattenFiles_bins hnext hfiles _ p hp).1
  have hsources' : ∀ p ∈ s.bins, (s.heap p).isFile = false →
      SourceKept s p (Function.update heap s.next ((heap s.next).sortOutputs ls) p) := by
    intro p hp hsection
    rw [Function.update_of_ne (hne p hp)]
    exact hsources p hp hsection
  rw [flattenOutputs_outputs hnext houtputs, Function.update_self]
  constructor
  · refine flattenOutputs_holdsCells hnd hnext hfree ?_ hnames hsources' houtputs hsize ?_
    · rw [Function.update_self]
      exact hname
    · rw [Function.update_self]
      exact ⟨hholds.words, hholds.lt, hholds.apart⟩
  · have hrange := flattenOutputs_address_le (ls.down_sorted _) hnext hnames
      (fun p hp hsection => (hsources' p hp hsection).length) houtputs
    rw [Function.update_self] at hrange
    rw [← List.nil_append (s.fileCells s.bins), hholds.length]
    exact hrange

end Loops

/-! ### Every cell is in the image once -/

section Nodup

variable {s : LdBins}

theorem LdBins.nodup_binCells (turn : Option ℕ) (p : BinPtr) : (s.binCells turn p).Nodup :=
  List.nodup_range.map fun _ _ h => congrArg ImageCell.index h

theorem LdBins.eq_of_mem_binCells {turn : Option ℕ} {p : BinPtr} {c : ImageCell}
    (h : c ∈ s.binCells turn p) : c.turn = turn ∧ c.bin = p := by
  obtain ⟨i, -, rfl⟩ := List.mem_map.mp h
  exact ⟨rfl, rfl⟩

theorem LdBins.nodup_fileCells {ps : List BinPtr} (h : ps.Nodup) : (s.fileCells ps).Nodup := by
  rw [LdBins.fileCells, List.nodup_flatMap]
  refine ⟨fun p _ => nodup_binCells none p, (h.filter _).imp fun hne c hc hc' => ?_⟩
  exact hne ((eq_of_mem_binCells hc).2.symm.trans (eq_of_mem_binCells hc').2)

theorem LdBins.turn_of_mem_fileCells {ps : List BinPtr} {c : ImageCell}
    (h : c ∈ s.fileCells ps) : c.turn = none := by
  obtain ⟨p, -, hc⟩ := List.mem_flatMap.mp h
  exact (eq_of_mem_binCells hc).1

theorem LdBins.nodup_codeCells (turn : ℕ) (o : LconvEntry) : (s.codeCells turn o).Nodup := by
  rw [LdBins.codeCells]
  split
  · exact List.nodup_nil
  · exact nodup_binCells _ _

theorem LdBins.turn_of_mem_codeCells {turn : ℕ} {o : LconvEntry} {c : ImageCell}
    (h : c ∈ s.codeCells turn o) : c.turn = some turn := by
  rw [LdBins.codeCells] at h
  split at h
  · cases h
  · exact (eq_of_mem_binCells h).1

theorem insertedCells_perm {κ : Type} (cells block : List κ) (a : ℕ) :
    (insertedCells cells block a 0 block.length).Perm (cells ++ block) := by
  rw [insertedCells, List.drop_zero, List.take_length, List.append_assoc]
  refine (List.perm_append_comm.append_left _).trans ?_
  rw [← List.append_assoc, List.take_append_drop]

/-- The cells of code that is inserted later are others. -/
theorem nodup_imageCells {os : List LconvEntry} {turn : ℕ} {cells : List ImageCell}
    (hcells : cells.Nodup) (hturn : ∀ c ∈ cells, ∀ t, c.turn = some t → t < turn) :
    (imageCells s turn os cells).Nodup := by
  induction os generalizing turn cells with
  | nil => exact hcells
  | cons o os ih =>
    have hperm := insertedCells_perm cells (s.codeCells turn o) o.address
    rw [imageCells]
    refine ih (hperm.nodup_iff.mpr (List.nodup_append.mpr
      ⟨hcells, LdBins.nodup_codeCells turn o, fun c hc c' hc' heq => ?_⟩)) fun c hc t ht => ?_
    · subst heq
      exact absurd (hturn c hc turn (LdBins.turn_of_mem_codeCells hc')) (Nat.lt_irrefl _)
    · rcases List.mem_append.mp (hperm.mem_iff.mp hc) with hc | hc
      · exact (hturn c hc t ht).trans (Nat.lt_succ_self _)
      · rw [LdBins.turn_of_mem_codeCells hc] at ht
        obtain rfl := Option.some.inj ht
        exact Nat.lt_succ_self _

end Nodup

end DcpuToolchain
