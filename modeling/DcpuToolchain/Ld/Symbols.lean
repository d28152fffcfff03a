import DcpuToolchain.Ld.Frame
import DcpuToolchain.Lib.Weave
import Mathlib.Data.List.Forall2

/-!
# Debugging symbols of words that are moved

A debugging symbol describes the word at its address. Moving words shifts, copies and deletes
symbols in loops of their own (`bin_info_insert_symbols`, `bin_info_remove_symbols`), beside
those that move the words, and the walks over the adjustments leave both where they are. Every
symbol stays with its word (`DcpuToolchain.symbols_follow`), provided that the words have
addresses: these are `uint16_t`, and a symbol that is shifted out of the address space comes
in again at the bottom.

To tell the words apart, whatever their values are, the statements are about lists of
anything that stands for them. That the bin then has the words that its list stands for is part
of the statements (`DcpuToolchain.WordsAre`); only an adjusted word can have got another value.
-/

namespace DcpuToolchain

open Marks

/-! ### Words and symbols -/

section Cells

variable {κ : Type}

/-- What a bin consists of after an insertion. -/
def insertedCells (tgt src : List κ) (atPos offset count : ℕ) : List κ :=
  tgt.take atPos ++ (src.drop offset).take count ++ tgt.drop atPos

/-- What a bin consists of after a removal. -/
def removedCells (cells : List κ) (offset count : ℕ) : List κ :=
  cells.take offset ++ cells.drop (offset + count)

/-- **The words of a bin are those that a list stands for**, up to relocation: there is one for
each member of the list, and each that is not adjusted is the word that its member stands for. -/
structure WordsAre (word : κ → Word) (cells : List κ) (b : LdBin) : Prop where
  length : b.words.length = cells.length
  word : ∀ i, b.adjustedAt i = false → b.words[i]? = (cells.map word)[i]?

/-- A symbol stays with its word: if it describes one, it describes the same one afterwards. -/
structure StaysOn (cells cells' : List κ) (sym sym' : DbgSym) : Prop where
  payload : sym'.payload = sym.payload
  word : ∀ c, cells[sym.address]? = some c → cells'[sym'.address]? = some c

variable {tgt src cells : List κ} {atPos offset count : ℕ} {i : ℕ} {c : κ}

/-- Where a word of the target is after an insertion. -/
theorem getElem?_insertedCells_tgt (hat : atPos ≤ tgt.length) (hsrc : offset + count ≤ src.length)
    (i : ℕ) :
    (insertedCells tgt src atPos offset count)[if atPos ≤ i then i + count else i]? = tgt[i]? := by
  have hmid : ((src.drop offset).take count).length = count := by
    rw [List.length_take, List.length_drop]
    omega
  have hget := Weave.getElem?_insert ((src.drop offset).take count) hat i
  rwa [hmid] at hget

/-- Where a copied word is. -/
theorem getElem?_insertedCells_src (hat : atPos ≤ tgt.length) (hsrc : offset + count ≤ src.length)
    (hi : offset ≤ i) (hlt : i < offset + count) :
    (insertedCells tgt src atPos offset count)[atPos + (i - offset)]? = src[i]? := by
  have hcopied : ((src.drop offset).take count)[i - offset]? = src[i]? := by
    rw [List.getElem?_take_of_lt (by omega), List.getElem?_drop]
    exact congrArg (src[·]?) (by omega)
  rw [insertedCells, Weave.getElem?_insert_block hat, hcopied]
  rw [List.length_take, List.length_drop]
  omega

/-- Where a word is after a removal. -/
theorem getElem?_removedCells (hlen : offset + count ≤ cells.length)
    (hi : ¬ (offset ≤ i ∧ i < offset + count)) :
    (removedCells cells offset count)[if offset + count ≤ i then i - count else i]? = cells[i]? :=
  Weave.getElem?_remove hlen hi

end Cells

/-! ### The loops -/

section Loops

variable {κ : Type} {tgt src cells : List κ} {atPos offset count : ℕ}

/-- A symbol of the target is shifted with its word. -/
theorem follows_shiftUp (hat : atPos ≤ tgt.length) (hsrc : offset + count ≤ src.length)
    (hsize : tgt.length + count ≤ 0x10000) (sym : DbgSym) :
    StaysOn tgt (insertedCells tgt src atPos offset count) sym (shiftUp atPos count sym) := by
  refine ⟨?_, fun c hc => ?_⟩
  · rw [shiftUp]
    split <;> rfl
  · have hlt : sym.address < tgt.length := (List.getElem?_eq_some_iff.mp hc).1
    have haddress : (shiftUp atPos count sym).address =
        if atPos ≤ sym.address then sym.address + count else sym.address := by
      rw [shiftUp]
      change (if atPos ≤ sym.address then _ else sym : DbgSym).address = _
      split
      · exact u16_of_lt (by change sym.address + count < _; omega)
      · rfl
    rw [haddress, getElem?_insertedCells_tgt hat hsrc, hc]

/-- The copy of a symbol of a copied word. -/
theorem follows_copyEntry (hat : atPos ≤ tgt.length) (hsrc : offset + count ≤ src.length)
    (hsize : tgt.length + count ≤ 0x10000) {sym : DbgSym} (hoffset : offset ≤ sym.address)
    (hlt : sym.address < offset + count) :
    StaysOn src (insertedCells tgt src atPos offset count) sym (copyEntry atPos offset sym) := by
  refine ⟨rfl, fun c hc => ?_⟩
  have haddress : (copyEntry atPos offset sym).address = atPos + (sym.address - offset) :=
    u16_of_lt (by change atPos + (sym.address - offset) < _; omega)
  rw [haddress, getElem?_insertedCells_src hat hsrc hoffset hlt, hc]

/-- **The loop of `bin_info_remove_symbols`** deletes the symbols of the removed words and
lowers those behind them. -/
theorem removeSymbols_eq (offset count : ℕ) (syms : List DbgSym) :
    removeSymbols offset count syms =
      (syms.filter fun s => ¬ (offset ≤ s.address ∧ s.address < offset + count)).map fun s =>
        ⟨s.payload, if offset + count ≤ s.address then s.address - count else s.address⟩ := by
  induction syms with
  | nil => rfl
  | cons sym syms ih =>
    rw [removeSymbols, ih, List.filter_cons]
    by_cases hbefore : sym.address < offset
    · have hkeep : ¬ (offset ≤ sym.address ∧ sym.address < offset + count) := by omega
      have hnot : ¬ offset + count ≤ sym.address := by omega
      simp [hbefore, hkeep, hnot]
    · by_cases hin : sym.address < offset + count
      · have hdelete : offset ≤ sym.address ∧ sym.address < offset + count := ⟨by omega, hin⟩
        simp [hbefore, hin, hdelete]
      · have hbehind : offset + count ≤ sym.address := by omega
        simp [hbefore, hin, hbehind]

theorem follows_removed (hlen : offset + count ≤ cells.length) {sym : DbgSym}
    (hkeep : ¬ (offset ≤ sym.address ∧ sym.address < offset + count)) :
    StaysOn cells (removedCells cells offset count) sym
      ⟨sym.payload, if offset + count ≤ sym.address then sym.address - count else sym.address⟩ :=
  ⟨rfl, fun c hc => by rw [getElem?_removedCells hlen hkeep, hc]⟩

end Loops

/-! ### The operations -/

/-- **Symbols after an insertion**: each of the target stays with its word, and there is a copy
of each that describes a copied word, which describes the copy of that word. Of the other
symbols only those are copied that describe no word, at the end of the source. -/
structure SymbolsInserted {κ : Type} (word : κ → Word) (tgt src : List κ)
    (atPos offset count : ℕ) (b fromb b' : LdBin) : Prop where
  words : WordsAre word (insertedCells tgt src atPos offset count) b'
  symbols : ∃ kept copies ends, b'.symbols.Perm (kept ++ (copies ++ ends)) ∧
    List.Forall₂ (StaysOn tgt (insertedCells tgt src atPos offset count)) b.symbols kept ∧
    List.Forall₂ (StaysOn src (insertedCells tgt src atPos offset count))
      (fromb.symbols.filter fun s => offset ≤ s.address ∧ s.address < offset + count) copies ∧
    ∀ s ∈ ends, ∃ s₀ ∈ fromb.symbols, src.length ≤ s₀.address ∧ s.payload = s₀.payload

/-- **Symbols after a removal**: those of removed words are gone, and no others; each of these
stays with its word. -/
structure SymbolsRemoved {κ : Type} (word : κ → Word) (cells : List κ) (offset count : ℕ)
    (b b' : LdBin) : Prop where
  words : WordsAre word (removedCells cells offset count) b'
  symbols : ∃ kept, b'.symbols.Perm kept ∧
    List.Forall₂ (StaysOn cells (removedCells cells offset count))
      (b.symbols.filter fun s => ¬ (offset ≤ s.address ∧ s.address < offset + count)) kept

section Operations

variable {κ : Type} {word : κ → Word} {tgt src cells : List κ} {ls : ListSort} {iterated : Bool}
  {all : List BinPtr} {toBin fromBin bin : BinPtr} {atPos offset count : ℕ} {heap heap' : Heap}

/-- The copies are those of symbols of copied words and those of symbols at the end. -/
theorem filter_copied_perm (size offset count : ℕ) (hcount : offset + count ≤ size)
    (l : List DbgSym) :
    (l.filter (copied size offset count <| address ·)).Perm
      (l.filter (fun s => offset ≤ s.address ∧ s.address < offset + count) ++
        l.filter fun s => size ≤ s.address ∧ copied size offset count s.address) := by
  have hsplit := List.filter_append_perm (fun s : DbgSym =>
    decide (offset ≤ s.address ∧ s.address < offset + count))
    (l.filter (copied size offset count <| address ·))
  rw [List.filter_filter, List.filter_filter] at hsplit
  refine hsplit.symm.trans (List.Perm.of_eq ?_)
  congr 1
  · refine List.filter_congr fun s _ => ?_
    rw [Bool.eq_iff_iff]
    change (decide _ && copied size offset count s.address) = true ↔ _
    simp only [copied, Bool.and_eq_true, decide_eq_true_eq]
    omega
  · refine List.filter_congr fun s _ => ?_
    rw [Bool.eq_iff_iff]
    change ((!decide _) && copied size offset count s.address) = true ↔ _
    simp only [copied, Bool.and_eq_true, Bool.not_eq_true', decide_eq_false_iff_not,
      decide_eq_true_eq]
    omega

/-- What an insertion makes of the words. -/
theorem wordsInserted
    (h : binInsert ls iterated all toBin fromBin atPos offset count heap = .ok heap')
    (hne : fromBin ≠ toBin) (htgt : (heap toBin).words = tgt.map word)
    (hsrc : (heap fromBin).words = src.map word) :
    WordsAre word (insertedCells tgt src atPos offset count) (heap' toBin) := by
  have hwords : ((heap toBin).insert iterated ((heap fromBin).sortTables ls) atPos offset
      count).words = (insertedCells tgt src atPos offset count).map word := by
    change (heap toBin).words.take atPos ++ ((heap fromBin).words.drop offset).take count ++
      (heap toBin).words.drop atPos = _
    rw [htgt, hsrc, insertedCells]
    simp only [List.map_append, List.map_take, List.map_drop]
  have hwalk := binInsert_walk h hne
  constructor
  · rw [(LdBin.adjust_repointed hwalk).length, hwords, List.length_map]
  · intro i hi
    rw [LdBin.adjust_getElem? (repointInserted_address _ _ _ _ _) hwalk hi, hwords]

/-- What a removal makes of the words. -/
theorem wordsRemoved (h : binRemove ls all bin offset count heap = .ok heap') (hnd : all.Nodup)
    (hcells : (heap bin).words = cells.map word) :
    WordsAre word (removedCells cells offset count) (heap' bin) := by
  have hwords : ((heap bin).remove ls offset count).words =
      (removedCells cells offset count).map word := by
    change (heap bin).words.take offset ++ (heap bin).words.drop (offset + count) = _
    rw [hcells, removedCells]
    simp only [List.map_append, List.map_take, List.map_drop]
  by_cases hbin : bin ∈ all
  · have hwalk := binRemove_walk h hnd hbin
    constructor
    · rw [(LdBin.adjust_repointed hwalk).length, hwords, List.length_map]
    · intro i hi
      rw [LdBin.adjust_getElem? (repointRemoved_address _ _ _) hwalk hi, hwords]
  · rw [binRemove_eq_of_notMem h hbin]
    exact ⟨by rw [hwords, List.length_map], fun i _ => by rw [hwords]⟩

theorem symbolsInserted
    (h : binInsert ls iterated all toBin fromBin atPos offset count heap = .ok heap')
    (hne : fromBin ≠ toBin) (htgt : (heap toBin).words = tgt.map word)
    (hsrc : (heap fromBin).words = src.map word)
    (hsize : (heap toBin).words.length + count ≤ 0x10000) :
    SymbolsInserted word tgt src atPos offset count (heap toBin) (heap fromBin) (heap' toBin) := by
  refine ⟨wordsInserted h hne htgt hsrc, ?_⟩
  obtain ⟨hat, hoffset, hto, -, -⟩ := binInsert_repointed h hne
  rw [htgt, List.length_map] at hat hsize
  have hsize' : (heap fromBin).words.length = src.length := by rw [hsrc, List.length_map]
  rw [hsize'] at hoffset
  have hsymbols : (heap' toBin).symbols =
      (heap toBin).symbols.map (shiftUp atPos count) ++
        ((heap fromBin).symbols.filter (copied src.length offset count <| address ·)).map
          (copyEntry atPos offset) := by
    rw [hto.symbols, ← hsize']
    rfl
  refine ⟨(heap toBin).symbols.map (shiftUp atPos count),
    ((heap fromBin).symbols.filter fun s => offset ≤ s.address ∧ s.address < offset + count).map
      (copyEntry atPos offset),
    ((heap fromBin).symbols.filter fun s =>
      src.length ≤ s.address ∧ copied src.length offset count s.address).map
        (copyEntry atPos offset), ?_, ?_, ?_, ?_⟩
  · -- besides the symbols of copied words only those at the end of the source are copied
    rw [hsymbols, ← List.map_append]
    exact ((filter_copied_perm _ _ _ hoffset _).map _).append_left _
  · exact List.forall₂_map_right_iff.mpr
      (List.forall₂_same.mpr fun sym _ => follows_shiftUp hat hoffset hsize sym)
  · refine List.forall₂_map_right_iff.mpr (List.forall₂_same.mpr fun sym hsym => ?_)
    obtain ⟨hlow, hhigh⟩ := of_decide_eq_true (List.mem_filter.mp hsym).2
    exact follows_copyEntry hat hoffset hsize hlow hhigh
  · intro s hs
    obtain ⟨s₀, hs₀, rfl⟩ := List.mem_map.mp hs
    exact ⟨s₀, (List.mem_filter.mp hs₀).1, (of_decide_eq_true (List.mem_filter.mp hs₀).2).1, rfl⟩

theorem symbolsRemoved (h : binRemove ls all bin offset count heap = .ok heap') (hnd : all.Nodup)
    (hcells : (heap bin).words = cells.map word) :
    SymbolsRemoved word cells offset count (heap bin) (heap' bin) := by
  refine ⟨wordsRemoved h hnd hcells, ?_⟩
  obtain ⟨hoffset, hbin, -⟩ := binRemove_repointed h
  rw [hcells, List.length_map] at hoffset
  refine ⟨_, ?_, List.forall₂_map_right_iff.mpr (List.forall₂_same.mpr fun sym hsym =>
    follows_removed hoffset (of_decide_eq_true (List.mem_filter.mp hsym).2))⟩
  rw [hbin.symbols]
  change (removeSymbols offset count (ls.up (heap bin).symbols)).Perm _
  rw [removeSymbols_eq]
  exact (((ls.up_perm _).filter _).map _)

variable (word tgt src) in
/-- **Symbols stay with their words**: through any insertion after which all words have an
address, and through any removal from a bin that is not in the global list twice. -/
theorem symbols_follow (hne : fromBin ≠ toBin) (htgt : (heap toBin).words = tgt.map word)
    (hsrc : (heap fromBin).words = src.map word) :
    (binInsert ls iterated all toBin fromBin atPos offset count heap = .ok heap' →
        (heap toBin).words.length + count ≤ 0x10000 →
          SymbolsInserted word tgt src atPos offset count (heap toBin) (heap fromBin)
            (heap' toBin)) ∧
      (binRemove ls all fromBin offset count heap = .ok heap' → all.Nodup →
        SymbolsRemoved word src offset count (heap fromBin) (heap' fromBin)) :=
  ⟨fun h hsize => symbolsInserted h hne htgt hsrc hsize, fun h hnd => symbolsRemoved h hnd hsrc⟩

end Operations

/-- A bin with a symbol and no entries. -/
def symbolBin (words : List Word) (address : ℕ) : LdBin where
  name := ['k']
  words := words
  tables _ := []
  symbols := [⟨.label ['l'], address⟩]

/-- A bin and another one, of two words, the last of which has a symbol. -/
def symbolHeap (words : List Word) (address : ℕ) : Heap := fun p =>
  if p = 0 then symbolBin words address else symbolBin [3, 4] 1

/-- The words of the second bin are inserted into the first one. -/
theorem exists_insert_symbolHeap (words : List Word) (address : ℕ) :
    ∃ heap', binInsert ListSort.insertion false [] 0 1 0 0 2 (symbolHeap words address) =
        .ok heap' ∧
      (heap' 0).symbols = [⟨.label ['l'], u16 (address + 2)⟩, ⟨.label ['l'], 1⟩] := by
  rw [binInsert, if_neg]
  · exact ⟨_, rfl, rfl⟩
  · change ¬ (words.length < 0 ∨ 2 < 0 + 2)
    omega

/-- The words of one bin are inserted into another, and the first of them is removed. -/
theorem symbols_follow_symbolHeap :
    (∃ heap', binInsert ListSort.insertion false [] 0 1 0 0 2 (symbolHeap [1, 2] 1) = .ok heap' ∧
        SymbolsInserted (BitVec.ofNat 16) [1, 2] [3, 4] 0 0 2 (symbolHeap [1, 2] 1 0)
          (symbolHeap [1, 2] 1 1) (heap' 0)) ∧
      ∃ heap', binRemove ListSort.insertion [1] 1 0 1 (symbolHeap [1, 2] 1) = .ok heap' ∧
        SymbolsRemoved (BitVec.ofNat 16) [3, 4] 0 1 (symbolHeap [1, 2] 1 1) (heap' 1) := by
  obtain ⟨heap', hinsert, -⟩ := exists_insert_symbolHeap [1, 2] 1
  refine ⟨⟨heap', hinsert, ?_⟩, _, rfl, ?_⟩
  · exact (symbols_follow (BitVec.ofNat 16) [1, 2] [3, 4] (by decide) rfl rfl).1 hinsert (by decide)
  · exact (@symbols_follow ℕ (BitVec.ofNat 16) [1, 2] [3, 4] ListSort.insertion false [1] 0 1 0 0 1
      (symbolHeap [1, 2] 1) _ (by decide) rfl rfl).2 rfl (by decide)

/-- In a bin of 65535 words a symbol is shifted out of the address space. -/
theorem not_forall_symbols_follow :
    ¬ ∀ (ls : ListSort) (iterated : Bool) (all : List BinPtr) (toBin fromBin : BinPtr)
      (atPos offset count : ℕ) (heap heap' : Heap) (word : ℕ → Word) (tgt src : List ℕ),
        fromBin ≠ toBin → (heap toBin).words = tgt.map word →
          (heap fromBin).words = src.map word →
          binInsert ls iterated all toBin fromBin atPos offset count heap = .ok heap' →
            SymbolsInserted word tgt src atPos offset count (heap toBin) (heap fromBin)
              (heap' toBin) := by
  intro h
  obtain ⟨heap', hinsert, hsymbols⟩ :=
    exists_insert_symbolHeap (List.replicate 0xFFFF 0) 0xFFFE
  -- the words of the first bin are all the same, and are told apart by their positions
  have hwords : List.replicate 0xFFFF (0 : Word) =
      (List.range 0xFFFF).map fun c => BitVec.ofNat 16 (if c < 0xFFFF then 0 else c - 0xFFFC) := by
    refine (List.eq_replicate_iff.mpr ⟨?_, fun w hw => ?_⟩).symm
    · rw [List.length_map, List.length_range]
    · obtain ⟨c, hc, rfl⟩ := List.mem_map.mp hw
      rw [if_pos (List.mem_range.mp hc)]
      rfl
  obtain ⟨kept, copies, ends, hperm, hkept, -⟩ := (h _ _ _ _ _ _ _ _ _ heap' _
    (List.range 0xFFFF) [0xFFFF, 0x10000] (by decide) hwords (by decide) hinsert).symbols
  obtain ⟨sym', rest, hfollows, -, rfl⟩ := List.forall₂_cons_left_iff.mp hkept
  have hmem : sym' ∈ (heap' 0).symbols := hperm.mem_iff.mpr (by simp)
  -- the word of the symbol is the last one, but the symbol is at one of the inserted words
  have hword := hfollows.word 0xFFFE (List.getElem?_range (by decide))
  rw [hsymbols] at hmem
  rcases List.mem_pair.mp hmem with rfl | rfl
  · exact absurd (Option.some.inj hword) (by decide)
  · exact absurd (Option.some.inj hword) (by decide)

end DcpuToolchain
