import DcpuToolchain.Asm.Headers

/-!
# When addresses are those of the image

`DcpuToolchain.AddressesRight` compares the addresses that are counted, of labels and of what is
recorded for the linker, with the places of the words. Both are sums over the entries from the end
of the header on (`DcpuToolchain.counts`, `DcpuToolchain.nextWords`), and the addresses are right
where the sums are the same: at every label, and in object code at every entry that is recorded.
-/

namespace DcpuToolchain

open Codec Stdio

/-! ### Where the code begins -/

/-- The bytes before the header: the tables of the linker, if there are any. -/
def linkerLength (run : AoutRun) (tables : Table → List LprovEntry) : ℕ :=
  if run.intermediate then ldataObjfmt.length + ((objfileSave run.order tables).getD []).length
  else 0

/-- The index of the first word behind the header. The true origin has 16 bits, so the indices are
behind by what is left out of it. -/
def firstIndex (run : AoutRun) (entries : List AoutByte) (tables : Table → List LprovEntry) : ℕ :=
  headerLength run entries + linkerLength run tables / 0x10000 * 0x8000

/-- **The places are counted right**: that of each label, and in object code of each entry whose
address is recorded. -/
structure PlacesCounted (run : AoutRun) (n w : ℕ) (entries : List AoutByte) : Prop where
  labels : ∀ name, labelIndex name (entries.zip (counts n entries)) =
    labelIndex name (entries.zip (nextWords run w entries))
  records : run.intermediate = true →
    ∀ p ∈ entries.zip ((counts n entries).zip (nextWords run w entries)),
      ∀ t label, p.1.mark run entries = some (t, label, none) → p.2.1 = p.2.2

section Labels

variable {run : AoutRun} {entries start : List AoutByte} {e : AoutByte} {name : String}

theorem labelIndex_cons_of_defines {n : ℕ} {indexed : List (AoutByte × ℕ)}
    (h : e.defines name = true) : labelIndex name ((e, n) :: indexed) = some n := by
  have hfind : ((e, n) :: indexed).find? (fun p => p.1.defines name) = some (e, n) :=
    List.find?_cons_of_pos h
  rw [labelIndex, hfind]
  rfl

theorem labelIndex_cons_of_not {n : ℕ} {indexed : List (AoutByte × ℕ)}
    (h : ¬ e.defines name = true) :
    labelIndex name ((e, n) :: indexed) = labelIndex name indexed := by
  have hfind : ((e, n) :: indexed).find? (fun p => p.1.defines name) =
      indexed.find? fun p => p.1.defines name := List.find?_cons_of_neg h
  rw [labelIndex, hfind]
  rfl

theorem length_counts (n : ℕ) (entries : List AoutByte) :
    (counts n entries).length = entries.length := by
  induction entries generalizing n with
  | nil => rfl
  | cons e entries ih => rw [counts, List.length_cons, ih, List.length_cons]

theorem length_nextWords (w : ℕ) (entries : List AoutByte) :
    (nextWords run w entries).length = entries.length := by
  induction entries generalizing w with
  | nil => rfl
  | cons e entries ih => rw [nextWords, List.length_cons, ih, List.length_cons]

/-- Whether a label has an index does not depend on the indices. -/
theorem labelIndex_eq_none {indices indices' : List ℕ} (h : indices.length = entries.length)
    (h' : indices'.length = entries.length) (hnone : labelIndex name (entries.zip indices) = none) :
    labelIndex name (entries.zip indices') = none := by
  induction entries generalizing indices indices' with
  | nil => rfl
  | cons e entries ih =>
    obtain ⟨i, indices, rfl⟩ := List.exists_cons_of_length_eq_add_one h
    obtain ⟨i', indices', rfl⟩ := List.exists_cons_of_length_eq_add_one h'
    rw [List.zip_cons_cons] at hnone ⊢
    by_cases hdefines : e.defines name = true
    · rw [labelIndex_cons_of_defines hdefines] at hnone
      cases hnone
    · rw [labelIndex_cons_of_not hdefines] at hnone ⊢
      exact ih (Nat.succ.inj h) (Nat.succ.inj h') hnone

theorem defines_iff : e.defines name = true ↔ e.type = .normal ∧ e.label = some name := by
  unfold AoutByte.defines
  rw [Bool.and_eq_true, decide_eq_true_eq, decide_eq_true_eq]

/-- The walk of `aout_get_label_address` counts as the first loop does. -/
theorem labelAddress_eq (name : String) (entries : List AoutByte) (n : ℕ) (foundImport : Bool) :
    (labelAddress name entries (BitVec.ofNat 16 n) foundImport).toOption.map (·.toNat) =
      labelIndex name (entries.zip (counts n entries)) := by
  induction entries generalizing n foundImport with
  | nil => rfl
  | cons e entries ih =>
    have hskip : e.type ≠ .normal → ∀ foundImport, (labelAddress name entries
        (BitVec.ofNat 16 (e.countBehind n)) foundImport).toOption.map (·.toNat) =
          labelIndex name ((e :: entries).zip (counts n (e :: entries))) := by
      intro htype foundImport
      rw [ih, counts, List.zip_cons_cons, labelIndex_cons_of_not fun hdefines =>
        htype (defines_iff.mp hdefines).1]
    unfold labelAddress
    by_cases hplaces : e.places = true
    -- an entry that places the next one is counted from anew, in both walks
    · rw [if_pos hplaces]
      have htype : e.type ≠ .normal := by
        intro hnormal
        unfold AoutByte.places at hplaces
        rw [hnormal] at hplaces
        cases hplaces
      have hbehind : e.countBehind n = e.opcode.toNat := if_pos hplaces
      rw [← hskip htype foundImport, hbehind, BitVec.ofNat_toNat, BitVec.setWidth_eq]
    · rw [if_neg hplaces]
      have hbehind : e.countBehind n = n + e.words := if_neg hplaces
      by_cases htype : e.type = .normal
      · rw [if_pos htype]
        cases hlabel : e.label with
        | none =>
          have hwords : e.words = 1 := if_pos ⟨htype, hlabel⟩
          dsimp only
          rw [counts, List.zip_cons_cons, labelIndex_cons_of_not, hbehind, hwords,
            ← ih _ foundImport]
          · rw [BitVec.ofNat_add]
            rfl
          · intro hdefines
            rw [(defines_iff.mp hdefines).2] at hlabel
            cases hlabel
        | some label =>
          have hwords : e.words = 0 := if_neg fun hnone => by
            rw [hlabel] at hnone
            cases hnone.2
          dsimp only
          rw [counts, List.zip_cons_cons]
          by_cases hname : label = name
          · rw [if_pos hname, labelIndex_cons_of_defines]
            · exact congrArg some (BitVec.toNat_ofNat n 16)
            · exact defines_iff.mpr ⟨htype, hlabel.trans (congrArg some hname)⟩
          · rw [if_neg hname, labelIndex_cons_of_not, hbehind, hwords, ← ih _ foundImport]
            · rfl
            · intro hdefines
              have hsame := hlabel.symm.trans (defines_iff.mp hdefines).2
              exact hname (Option.some.inj hsame)
      · have hwords : e.words = 0 := if_neg fun hnormal => htype hnormal.1
        rw [hwords, Nat.add_zero] at hbehind
        rw [if_neg htype]
        split
        · rw [← hskip htype, hbehind]
        · rw [← hskip htype, hbehind]

/-- The address of a label. -/
theorem addressOf_eq (c : Word) (start : List AoutByte) (name : String) :
    addressOf c start name = labelIndex name (start.zip (counts c.toNat start)) := by
  rw [← labelAddress_eq name start c.toNat false, BitVec.ofNat_toNat, BitVec.setWidth_eq]
  rfl

end Labels

/-! ### Records -/

section Records

variable {run : AoutRun} {start entries : List AoutByte} {e : AoutByte}

/-- The record of one entry, at two places. -/
theorem recordsWith_singleton_iff (address : String → Option ℕ) (n i : ℕ) :
    (∀ t, recordsWith run start address [(e, n)] t = recordsWith run start address [(e, i)] t) ↔
      ∀ t label, e.mark run start = some (t, label, none) → n = i := by
  constructor
  · intro h t label hmark
    have hsame := h t
    rw [recordsWith_of_mark hmark, recordsWith_of_mark hmark, Option.bind_some, Option.bind_some]
      at hsame
    dsimp only at hsame
    rw [if_pos rfl, if_pos rfl] at hsame
    injection hsame with hsame
    injection hsame with _ hsame
    exact Option.some.inj hsame
  · intro h t
    obtain ⟨mark, hmark⟩ : ∃ mark, e.mark run start = mark := ⟨_, rfl⟩
    rw [recordsWith_of_mark hmark, recordsWith_of_mark hmark]
    match mark, hmark with
    | none, _ => rfl
    | some (t', label, some name), _ => rfl
    | some (t', label, none), hmark => rw [h t' label hmark]

theorem length_recordsWith_singleton (address : String → Option ℕ) (n i : ℕ) (t : Table) :
    (recordsWith run start address [(e, n)] t).length =
      (recordsWith run start address [(e, i)] t).length := by
  obtain ⟨mark, hmark⟩ : ∃ mark, e.mark run start = mark := ⟨_, rfl⟩
  rw [recordsWith_of_mark hmark, recordsWith_of_mark hmark]
  match mark with
  | none => rfl
  | some (t', label, name) =>
    rw [Option.bind_some, Option.bind_some]
    dsimp only
    split
    · rfl
    · rfl

/-- Records are the same if their places are. -/
theorem recordsWith_zip_iff (address : String → Option ℕ) {ns is : List ℕ}
    (hns : ns.length = entries.length) (his : is.length = entries.length) :
    (∀ t, recordsWith run start address (entries.zip ns) t =
        recordsWith run start address (entries.zip is) t) ↔
      ∀ p ∈ entries.zip (ns.zip is), ∀ t label,
        p.1.mark run start = some (t, label, none) → p.2.1 = p.2.2 := by
  induction entries generalizing ns is with
  | nil => exact ⟨fun _ p hp => absurd hp List.not_mem_nil, fun _ _ => rfl⟩
  | cons e entries ih =>
    obtain ⟨n, ns, rfl⟩ := List.exists_cons_of_length_eq_add_one hns
    obtain ⟨i, is, rfl⟩ := List.exists_cons_of_length_eq_add_one his
    rw [List.zip_cons_cons, List.zip_cons_cons, List.zip_cons_cons, List.zip_cons_cons,
      List.forall_mem_cons, ← ih (Nat.succ.inj hns) (Nat.succ.inj his),
      ← recordsWith_singleton_iff address n i, ← forall_and]
    refine forall_congr' fun t => ?_
    rw [recordsWith_cons, recordsWith_cons address (e, i)]
    constructor
    · exact fun h => List.append_inj h (length_recordsWith_singleton address n i t)
    · rintro ⟨hhead, htail⟩
      rw [hhead, htail]

end Records

/-! ### When addresses are right -/

section Right

variable {run : AoutRun} {source : AoutSource} {layout : AoutLayout}

theorem fits_evaluates {entries entries' : List AoutByte}
    (h : List.Forall₂ AoutByte.Evaluates entries entries') (hfits : ∀ e ∈ entries, e.Fits run) :
    ∀ e ∈ entries', e.Fits run := by
  induction h with
  | nil => exact hfits
  | cons he _ ih =>
    obtain ⟨hhead, htail⟩ := List.forall_mem_cons.mp hfits
    exact List.forall_mem_cons.mpr ⟨he.fits hhead, ih htail⟩

/-- The position behind the header. -/
theorem writeTables_pos {entries : List AoutByte} {s s' : Aout} {tables : Table → List LprovEntry}
    {out : File} (hheader : (headerWords run s).length = headerLength run entries)
    (horigin : s.trueOrigin = 0) (h : writeTables run s tables ⟨[], 0, false⟩ = some (s', out)) :
    out.pos = s'.trueOrigin.toNat + 2 * firstIndex run entries tables := by
  unfold firstIndex linkerLength
  by_cases hintermediate : run.intermediate = true
  -- the header is behind the tables of the linker, whose length the true origin has modulo 2 ^ 16
  · unfold writeTables at h
    rw [if_pos hintermediate] at h ⊢
    obtain ⟨saved, hsaved, hwritten⟩ := Option.map_eq_some_iff.mp h
    dsimp only at hwritten
    rw [writeHeader_eq] at hwritten
    cases hwritten
    rw [iwrites_pos, File.fwrite_pos, File.fwrite_pos, hsaved, Option.getD_some, BitVec.toNat_ofNat]
    change 0 + ldataObjfmt.length + saved.length + 2 * (headerWords run s).length =
      (0 + ldataObjfmt.length + saved.length) % 2 ^ 16 + _
    rw [hheader]
    omega
  · rw [writeTables_image (Bool.not_eq_true _ ▸ hintermediate)] at h
    cases h
    rw [iwrites_pos, if_neg hintermediate, hheader, horigin]
    rfl

/-- What a layout is. -/
theorem aoutLayout_ok (hfits : ∀ e ∈ source.entries, e.Fits run)
    (h : aoutLayout run source = .ok layout) :
    layout.codeOffset.toNat = headerLength run source.entries ∧
      (∀ t, (layout.tables t).reverse.map LprovEntry.read =
        recordsWith run source.entries (addressOf layout.codeOffset source.entries)
          (source.entries.zip (counts layout.codeOffset.toNat source.entries)) t) ∧
      layout.indices =
        nextWords run (firstIndex run source.entries layout.tables) source.entries := by
  unfold aoutLayout at h
  split at h
  · cases h
  · rename_i s hinit
    have hoffset := aoutInit_offset hinit
    split at h
    · cases h
    · rename_i entries scan hscan
      rw [hoffset.start] at hscan
      obtain ⟨hevaluates, hrecords⟩ := aoutScan_turns hscan
      split at h
      · cases h
      · rename_i s' out htables
        have hheader : (headerWords run { s with start := entries }).length =
            headerLength run source.entries := hoffset.length_headerWords
        have hpos := writeTables_pos hheader hoffset.trueOrigin htables
        cases hindices : nextIndices run s'.trueOrigin out entries with
        | error err =>
          rw [hindices] at h
          cases h
        | ok indices =>
          rw [hindices] at h
          cases h
          refine ⟨hoffset.codeOffset, fun t => ?_, ?_⟩
          · exact (hrecords t).trans (List.nil_append _)
          · rw [← nextWords_evaluates hevaluates]
            exact nextIndices_eq (fits_evaluates hevaluates hfits) hpos hindices

theorem exists_nextIndex {t : Word} {entries : List AoutByte} {out out' : File}
    (h : entries.foldlM (writeEntry run t) out = .ok out') :
    ∃ i, nextIndex run t out entries = .ok i := by
  induction entries generalizing out with
  | nil => exact ⟨_, rfl⟩
  | cons e entries ih =>
    rw [List.foldlM_cons] at h
    unfold nextIndex
    split
    · exact ⟨_, rfl⟩
    · cases hturn : writeEntry run t out e with
      | error err =>
        rw [hturn] at h
        cases h
      | ok out₁ =>
        rw [hturn] at h
        exact ih h

theorem exists_nextIndices {t : Word} {entries : List AoutByte} {out out' : File}
    (h : entries.foldlM (writeEntry run t) out = .ok out') :
    ∃ indices, nextIndices run t out entries = .ok indices := by
  induction entries generalizing out with
  | nil => exact ⟨[], rfl⟩
  | cons e entries ih =>
    obtain ⟨i, hi⟩ := exists_nextIndex h
    rw [List.foldlM_cons] at h
    cases hturn : writeEntry run t out e with
    | error err =>
      rw [hturn] at h
      cases h
    | ok out₁ =>
      rw [hturn] at h
      obtain ⟨indices, hindices⟩ := ih h
      refine ⟨i :: indices, ?_⟩
      unfold nextIndices
      rw [hi, hturn]
      dsimp only
      rw [hindices]
      rfl

/-- A program that is assembled has a layout. -/
theorem exists_aoutLayout {s : Aout} {out : File} {n : Word}
    (h : assemble run source {} = (s, .ok (out, n))) :
    ∃ layout, aoutLayout run source = .ok layout := by
  obtain ⟨s₀, entries, scan, file, hinit, hscan, htables, hloop⟩ := assemble_ok h
  obtain ⟨indices, hindices⟩ := exists_nextIndices hloop
  refine ⟨⟨s₀.codeOffset, scan.tables, indices⟩, ?_⟩
  unfold aoutLayout
  rw [hinit]
  dsimp only
  rw [hscan]
  dsimp only
  rw [htables]
  dsimp only
  rw [hindices]
  rfl

/-- The addresses of labels are right, if they are counted right. -/
theorem labels_iff {c : Word} {entries : List AoutByte} {indices : List ℕ}
    (hindices : indices.length = entries.length) :
    (∀ name a, aoutGetLabelAddress c entries name = .ok a →
        labelIndex name (entries.zip indices) = some a.toNat) ↔
      ∀ name, labelIndex name (entries.zip (counts c.toNat entries)) =
        labelIndex name (entries.zip indices) := by
  refine forall_congr' fun name => ?_
  rw [← addressOf_eq]
  unfold addressOf
  constructor
  · intro h
    cases haddress : aoutGetLabelAddress c entries name with
    | error err =>
      have hnone : labelIndex name (entries.zip (counts c.toNat entries)) = none := by
        rw [← addressOf_eq, addressOf, haddress]
        rfl
      exact (labelIndex_eq_none (length_counts _ _) hindices hnone).symm
    | ok a => exact (h a haddress).symm
  · intro h a haddress
    rw [haddress] at h
    exact h.symm

/-- **When addresses are right**: where they are counted right. -/
theorem addressesRight_iff (hfits : ∀ e ∈ source.entries, e.Fits run)
    (h : aoutLayout run source = .ok layout) :
    AddressesRight run source ↔
      PlacesCounted run (headerLength run source.entries)
        (firstIndex run source.entries layout.tables) source.entries := by
  obtain ⟨hcode, hrecords, hindices⟩ := aoutLayout_ok hfits h
  have hlength : layout.indices.length = source.entries.length := by
    rw [hindices, length_nextWords]
  have hlabels := @labels_iff layout.codeOffset source.entries layout.indices hlength
  have hright : AddressesRight run source ↔ _ :=
    ⟨fun hright => hright layout h, fun hright layout' h' => by
      rw [h] at h'
      cases h'
      exact hright⟩
  -- once the labels are right, the records of labels are, and only the others are left
  have hrest : (∀ name, labelIndex name (source.entries.zip (counts layout.codeOffset.toNat
      source.entries)) = labelIndex name (source.entries.zip layout.indices)) →
        ((∀ t, (layout.tables t).reverse.map (fun r => (r.label, some r.address.toNat)) =
          recordsWith run source.entries (labelIndex · (source.entries.zip layout.indices))
            (source.entries.zip layout.indices) t) ↔
          ∀ p ∈ source.entries.zip ((counts layout.codeOffset.toNat source.entries).zip
            layout.indices), ∀ t label, p.1.mark run source.entries = some (t, label, none) →
              p.2.1 = p.2.2) := by
    intro hsame
    have haddress : addressOf layout.codeOffset source.entries =
        (labelIndex · (source.entries.zip layout.indices)) := by
      funext name
      rw [addressOf_eq, hsame]
    rw [← recordsWith_zip_iff _ (length_counts _ _) hlength]
    refine forall_congr' fun t => ?_
    rw [← haddress]
    exact Eq.congr_left (hrecords t)
  rw [hright, hlabels]
  rw [hcode, hindices] at hrest ⊢
  constructor
  · rintro ⟨hsame, hrecorded⟩
    exact ⟨hsame, fun hintermediate => (hrest hsame).mp (hrecorded hintermediate)⟩
  · rintro ⟨hsame, hcounted⟩
    exact ⟨hsame, fun hintermediate => (hrest hsame).mpr (hcounted hintermediate)⟩

/-- The entry takes as many words as are counted for it, and the next one is behind it. -/
def AoutByte.InRow (e : AoutByte) : Prop :=
  e.type ≠ .seek ∧ e.type ≠ .origin ∧ e.type ≠ .incbin

theorem AoutByte.InRow.indexBehind {e : AoutByte} (h : e.InRow) (w : ℕ) :
    e.indexBehind run w = w + e.words := by
  unfold AoutByte.indexBehind
  split
  · rename_i hseek
    exact absurd hseek h.1
  · rename_i hincbin
    exact absurd hincbin h.2.2
  · rfl

theorem AoutByte.InRow.countBehind {e : AoutByte} (h : e.InRow) (n : ℕ) :
    e.countBehind n = n + e.words := by
  unfold AoutByte.countBehind AoutByte.places
  rw [decide_eq_false h.2.1, decide_eq_false h.1]
  rfl

theorem AoutByte.words_of_not_writes {e : AoutByte} (hwrites : ¬ e.writes run = true) :
    e.words = 0 := by
  refine if_neg fun hnormal => hwrites ?_
  unfold AoutByte.writes
  rw [hnormal.1, hnormal.2]
  rfl

theorem nextWord_of_inRow {entries : List AoutByte} (h : ∀ e ∈ entries, e.InRow) (w : ℕ) :
    nextWord run w entries = w := by
  induction entries with
  | nil => rfl
  | cons e entries ih =>
    obtain ⟨he, hentries⟩ := List.forall_mem_cons.mp h
    unfold nextWord
    split
    · rfl
    · rename_i hwrites
      rw [he.indexBehind, AoutByte.words_of_not_writes hwrites, Nat.add_zero, ih hentries]

theorem nextWords_of_inRow {entries : List AoutByte} (h : ∀ e ∈ entries, e.InRow) {w : ℕ}
    (hfew : w + (entries.map AoutByte.words).sum < 0x10000) :
    nextWords run w entries = counts w entries := by
  induction entries generalizing w with
  | nil => rfl
  | cons e entries ih =>
    obtain ⟨he, hentries⟩ := List.forall_mem_cons.mp h
    rw [List.map_cons, List.sum_cons] at hfew
    rw [nextWords, counts, nextWord_of_inRow h, he.indexBehind, he.countBehind,
      Nat.mod_eq_of_lt (by omega), ih hentries (by omega)]

/-- A program of fewer than 65536 words in a row, with fewer bytes of linker tables, is counted
right. -/
theorem placesCounted_of_inRow {entries : List AoutByte} {tables : Table → List LprovEntry}
    (h : ∀ e ∈ entries, e.InRow) (hlinker : linkerLength run tables < 0x10000)
    (hfew : headerLength run entries + (entries.map AoutByte.words).sum < 0x10000) :
    PlacesCounted run (headerLength run entries) (firstIndex run entries tables) entries := by
  have hfirst : firstIndex run entries tables = headerLength run entries := by
    rw [firstIndex, Nat.div_eq_of_lt hlinker, Nat.zero_mul, Nat.add_zero]
  rw [hfirst]
  constructor
  · intro name
    rw [nextWords_of_inRow h hfew]
  · rintro - ⟨e, n, w⟩ hmem t label -
    rw [nextWords_of_inRow h hfew] at hmem
    obtain ⟨i, hi, hpair⟩ := List.mem_iff_getElem.mp (List.of_mem_zip hmem).2
    rw [List.getElem_zip] at hpair
    cases hpair
    rfl

theorem fits_aoutCreateRaw (raw : Word) : (aoutCreateRaw raw).Fits run :=
  ⟨fun _ h => absurd rfl h, fun htype => absurd htype (by simp [aoutCreateRaw])⟩

theorem fits_aoutCreateLabel (name : String) : (aoutCreateLabel name).Fits run :=
  ⟨fun _ _ => ⟨rfl, rfl⟩, fun htype => absurd htype (by simp [aoutCreateLabel])⟩

/-- A label between two words. -/
theorem addressesRight_iff_words :
    AddressesRight {} ⟨[aoutCreateRaw 7, aoutCreateLabel "a", aoutCreateRaw 8], false⟩ ↔
      PlacesCounted {} (headerLength {} [aoutCreateRaw 7, aoutCreateLabel "a", aoutCreateRaw 8])
        (firstIndex {} [aoutCreateRaw 7, aoutCreateLabel "a", aoutCreateRaw 8] fun _ => [])
        [aoutCreateRaw 7, aoutCreateLabel "a", aoutCreateRaw 8] := by
  have hlayout : aoutLayout {} ⟨[aoutCreateRaw 7, aoutCreateLabel "a", aoutCreateRaw 8], false⟩ =
      .ok ⟨0, fun _ => [], [0, 1, 1]⟩ := rfl
  have hfits : ∀ e ∈ [aoutCreateRaw 7, aoutCreateLabel "a", aoutCreateRaw 8], e.Fits {} := by
    rw [List.forall_mem_cons, List.forall_mem_cons, List.forall_mem_singleton]
    exact ⟨fits_aoutCreateRaw 7, fits_aoutCreateLabel "a", fits_aoutCreateRaw 8⟩
  have hiff := addressesRight_iff hfits hlayout
  exact hiff

/-- Files of two words. -/
def incbinRun : AoutRun := { incbin := fun _ => some [0, 7, 0, 7] }

/-- A label behind a file that is included. -/
def incbinProgram : List AoutByte :=
  [{ type := .incbin, label := some "words.bin" }, aoutCreateLabel "a", aoutCreateRaw 8]

/-- The address of a label behind `.INCBIN` is not where the next word is. -/
theorem incbinProgram_not_addressesRight :
    (∀ e ∈ incbinProgram, e.Fits incbinRun ∧ e.type ≠ .origin) ∧
      ¬ AddressesRight incbinRun ⟨incbinProgram, false⟩ := by
  constructor
  · unfold incbinProgram
    rw [List.forall_mem_cons, List.forall_mem_cons, List.forall_mem_singleton]
    refine ⟨⟨⟨fun htype => absurd htype (by simp), fun _ => ⟨2, rfl⟩⟩, by simp⟩,
      ⟨fits_aoutCreateLabel "a", by simp [aoutCreateLabel]⟩,
      ⟨fits_aoutCreateRaw 8, by simp [aoutCreateRaw]⟩⟩
  · intro hright
    have hlayout : aoutLayout incbinRun ⟨incbinProgram, false⟩ =
        .ok ⟨0, fun _ => [], [0, 2, 2]⟩ := rfl
    have haddress : aoutGetLabelAddress 0 incbinProgram "a" = .ok 0 := rfl
    have hindex := (hright _ hlayout).1 "a" 0 haddress
    have hplace : labelIndex "a" (incbinProgram.zip [0, 2, 2]) = some 2 := rfl
    cases hplace.symm.trans hindex

end Right

end DcpuToolchain
