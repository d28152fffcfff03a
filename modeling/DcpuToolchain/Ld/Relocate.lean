import DcpuToolchain.Ld.Tables
import DcpuToolchain.Lib.Moves

/-!
# Bins that hold cells

The words of the input files are cells: a cell has a word, it may be adjusted, and then
it refers to another cell, and entries of the other tables mark it
(`DcpuToolchain.Source`). Where the cells are is a map of locations. A bin holds a
sequence of cells (`DcpuToolchain.Holds`) when its words are theirs, an adjusted cell
containing the position its target has by the map; when its adjustment table marks
exactly the adjusted cells and names the bins their targets are in; and when its other
tables record the marks of the cells.

The walk over the adjustments changes nothing but the map of locations
(`DcpuToolchain.Holds.walk`); the insertion and the removal change the cells, and
leave the map as it was (`DcpuToolchain.Holds.insert`, `DcpuToolchain.Holds.remove`).
-/

namespace DcpuToolchain

open Marks Moves

/-! ### The walk over the adjustments of a bin -/

section Adjust

variable {pre : LconvEntry → LconvEntry} {post : LconvEntry → Word → LconvEntry × Word}
  {missing : LdError}

/-- The first change may be made beforehand. -/
theorem adjust_map_pre (es : List LconvEntry) (words : List Word) :
    adjust pre post missing es words = adjust id post missing (es.map pre) words := by
  induction es generalizing words with
  | nil => rfl
  | cons e es ih =>
    simp only [adjust, List.map_cons, id_eq, ih]

/-- **The walk meets every adjustment once**: where no two adjustments mark one word and
none lies past the end, each entry and the word it marks are changed together and every
other word stays. -/
theorem adjust_ok (post : LconvEntry → Word → LconvEntry × Word) (missing : LdError)
    {es : List LconvEntry} (words : List Word)
    (hnodup : (es.map LconvEntry.address).Nodup) (hlt : ∀ e ∈ es, e.address < words.length) :
    ∃ words', adjust id post missing es words =
        .ok (es.map fun e => (post e (words.getD e.address 0)).1, words') ∧
      words'.length = words.length ∧
      (∀ e ∈ es, words'[e.address]? = some (post e (words.getD e.address 0)).2) ∧
      ∀ i, (∀ e ∈ es, e.address ≠ i) → words'[i]? = words[i]? := by
  induction es generalizing words with
  | nil => exact ⟨words, rfl, rfl, by simp, fun _ _ => rfl⟩
  | cons e es ih =>
    rw [List.forall_mem_cons] at hlt
    rw [List.map_cons, List.nodup_cons] at hnodup
    have hne : ∀ e' ∈ es, e'.address ≠ e.address := fun e' he' heq =>
      hnodup.1 (List.mem_map.mpr ⟨e', he', heq⟩)
    set w := (post e (words.getD e.address 0)).2 with hw
    obtain ⟨words', hok, hlen, hset, hother⟩ :=
      ih (words.set e.address w) hnodup.2 (by simpa using hlt.2)
    have hget : ∀ e' ∈ es, (words.set e.address w).getD e'.address 0 =
        words.getD e'.address 0 := fun e' he' => by
      rw [List.getD_eq_getElem?_getD, List.getElem?_set_ne (hne e' he').symm,
        List.getD_eq_getElem?_getD]
    refine ⟨words', ?_, by simpa using hlen, ?_, fun i hi => ?_⟩
    · rw [adjust, id, List.getElem?_eq_getElem hlt.1]
      have hd : words.getD e.address 0 = words[e.address] := by
        rw [List.getD_eq_getElem?_getD, List.getElem?_eq_getElem hlt.1, Option.getD_some]
      simp only [← hd, ← hw, hok]
      refine congrArg (fun l => Except.ok (_ :: l, words')) ?_
      exact List.map_congr_left fun e' he' => by rw [hget e' he']
    · rw [List.forall_mem_cons]
      refine ⟨?_, fun e' he' => by rw [hset e' he', hget e' he']⟩
      rw [hother _ hne, List.getElem?_set_self hlt.1]
    · rw [List.forall_mem_cons] at hi
      rw [hother i hi.2, List.getElem?_set_ne hi.1]

end Adjust

/-! ### Cells -/

/-- What the linker is given about cells. -/
structure Source (κ : Type) where
  /-- The word of a cell in the input. -/
  word : κ → Word
  /-- The adjustment that marks a cell, if there is one. -/
  adjusted : κ → List LconvEntry
  /-- The cell an adjusted cell refers to. -/
  target : κ → κ
  /-- The entries of the other tables that mark a cell. -/
  marks : Table → κ → List LconvEntry
  /-- The entries that mark no word. -/
  stray : Table → LconvEntry → Prop
  adjusted_le : ∀ c, (adjusted c).length ≤ 1
  stray_addressFree : ∀ t, AddressFree (stray t)

/-- The tables whose entries mark words and nothing else. -/
def Table.marksWords : Table → Bool
  | .adjustment | .section | .output => false
  | _ => true

namespace Source

variable {κ : Type} (S : Source κ) (nm : BinPtr → Bstring) (loc : κ → BinPtr × ℕ)

/-- The word of a cell where the cells lie as `loc` says. -/
def wordAt (c : κ) : Word :=
  if (S.adjusted c).isEmpty then S.word c else BitVec.ofNat 16 (loc (S.target c)).2

/-- The adjustment of a cell where the cells lie as `loc` says. -/
def adjustmentAt (c : κ) : List LconvEntry :=
  (S.adjusted c).map fun e => ⟨e.label, some (nm (loc (S.target c)).1), e.address⟩

variable {S nm loc}

theorem wordAt_of_adjusted {c : κ} (h : S.adjusted c ≠ []) :
    S.wordAt loc c = BitVec.ofNat 16 (loc (S.target c)).2 := by
  rw [wordAt, if_neg (by simpa using h)]

theorem wordAt_of_not_adjusted {c : κ} (h : S.adjusted c = []) : S.wordAt loc c = S.word c := by
  rw [wordAt, if_pos (by simpa using h)]

theorem adjustmentAt_length (c : κ) : (S.adjustmentAt nm loc c).length ≤ 1 := by
  rw [adjustmentAt, List.length_map]
  exact S.adjusted_le c

end Source

/-- **A bin holds a sequence of cells**, which lie as `loc` says. -/
structure Holds {κ : Type} (S : Source κ) (nm : BinPtr → Bstring) (loc : κ → BinPtr × ℕ)
    (b : LdBin) (cs : List κ) : Prop where
  words : b.words = cs.map (S.wordAt loc)
  adjustment : (b.tables .adjustment).Perm (place (S.adjustmentAt nm loc) 0 cs)
  records : ∀ t, t.marksWords = true → Records (S.marks t) (S.stray t) cs (b.tables t)

namespace LdBin

variable {b : LdBin} {r : List LconvEntry × List Word} {t : Table}

@[simp] theorem setAdjusted_name : (b.setAdjusted r).name = b.name := rfl

@[simp] theorem setAdjusted_words : (b.setAdjusted r).words = r.2 := rfl

@[simp] theorem setAdjusted_adjustment : (b.setAdjusted r).tables .adjustment = r.1 := rfl

theorem setAdjusted_tables (h : t ≠ .adjustment) : (b.setAdjusted r).tables t = b.tables t :=
  if_neg h

end LdBin

namespace Holds

variable {κ : Type} {S : Source κ} {nm : BinPtr → Bstring} {loc loc' : κ → BinPtr × ℕ}
  {b : LdBin} {cs : List κ}

theorem length_words (h : Holds S nm loc b cs) : b.words.length = cs.length := by
  rw [h.words, List.length_map]

/-- **The walk over the adjustments**: if it takes the word and the entry of every
adjusted cell from one map of locations to another, it takes the bin there. -/
theorem walk {pre : LconvEntry → LconvEntry} {post : LconvEntry → Word → LconvEntry × Word}
    {missing : LdError} (hw : b.words = cs.map (S.wordAt loc))
    (ha : ((b.tables .adjustment).map pre).Perm (place (S.adjustmentAt nm loc) 0 cs))
    (hr : ∀ t, t.marksWords = true → Records (S.marks t) (S.stray t) cs (b.tables t))
    (hpost : ∀ i c, cs[i]? = some c → ∀ e ∈ S.adjusted c,
      post ⟨e.label, some (nm (loc (S.target c)).1), i⟩
          (BitVec.ofNat 16 (loc (S.target c)).2) =
        (⟨e.label, some (nm (loc' (S.target c)).1), i⟩,
          BitVec.ofNat 16 (loc' (S.target c)).2)) :
    ∃ b', b.adjust pre post missing = .ok b' ∧ Holds S nm loc' b' cs ∧ b'.name = b.name ∧
      ∀ t, t ≠ .adjustment → b'.tables t = b.tables t := by
  set es := (b.tables .adjustment).map pre with hes
  -- every entry of the walk is the adjustment of one cell
  have hmem : ∀ e ∈ es, ∃ i c, cs[i]? = some c ∧ ∃ e₀ ∈ S.adjusted c,
      e = ⟨e₀.label, some (nm (loc (S.target c)).1), i⟩ := fun e he => by
    obtain ⟨i, c, hc, e₁, he₁, rfl⟩ := mem_place.mp (ha.mem_iff.mp he)
    obtain ⟨e₀, he₀, rfl⟩ := List.mem_map.mp he₁
    exact ⟨i, c, hc, e₀, he₀, by rw [Nat.zero_add]; rfl⟩
  have hget : ∀ i c, cs[i]? = some c → S.adjusted c ≠ [] →
      b.words.getD i 0 = BitVec.ofNat 16 (loc (S.target c)).2 := fun i c hc hadj => by
    rw [hw, List.getD_eq_getElem?_getD, List.getElem?_map, hc, Option.map_some, Option.getD_some,
      Source.wordAt_of_adjusted hadj]
  have hnodup : (es.map LconvEntry.address).Nodup :=
    (ha.map _).nodup_iff.mpr (nodup_address_place fun c _ => Source.adjustmentAt_length c)
  have hlt : ∀ e ∈ es, e.address < b.words.length := fun e he => by
    obtain ⟨i, c, hc, e₀, he₀, rfl⟩ := hmem e he
    rw [hw, List.length_map]
    exact (List.getElem?_eq_some_iff.mp hc).1
  obtain ⟨words', hok, hlen, hset, hother⟩ :=
    adjust_ok post missing b.words hnodup hlt
  refine ⟨b.setAdjusted (es.map fun e => (post e (b.words.getD e.address 0)).1, words'), ?_,
    ⟨?_, ?_, fun t ht => ?_⟩, rfl,
    fun t ht => LdBin.setAdjusted_tables ht⟩
  · rw [LdBin.adjust, adjust_map_pre, ← hes, hok]
    rfl
  · refine List.ext_getElem? fun i => ?_
    change words'[i]? = _
    rw [List.getElem?_map]
    rcases hc : cs[i]? with - | c
    · rw [List.getElem?_eq_none_iff] at hc
      rw [Option.map_none, List.getElem?_eq_none_iff, hlen, hw, List.length_map]
      exact hc
    · rw [Option.map_some]
      by_cases hadj : S.adjusted c = []
      · rw [Source.wordAt_of_not_adjusted hadj, hother i fun e he heq => ?_, hw,
          List.getElem?_map, hc, Option.map_some, Source.wordAt_of_not_adjusted hadj]
        obtain ⟨j, c', hc', e₀, he₀, rfl⟩ := hmem e he
        obtain rfl : j = i := heq
        rw [hc, Option.some_inj] at hc'
        rw [← hc', hadj] at he₀
        exact List.not_mem_nil he₀
      · obtain ⟨e₀, he₀⟩ := List.exists_mem_of_ne_nil _ hadj
        have he : (⟨e₀.label, some (nm (loc (S.target c)).1), i⟩ : LconvEntry) ∈ es :=
          ha.mem_iff.mpr (mem_place.mpr ⟨i, c, hc, _, List.mem_map.mpr ⟨e₀, he₀, rfl⟩,
            by rw [Nat.zero_add]; rfl⟩)
        rw [Source.wordAt_of_adjusted hadj, hset _ he, hget i c hc hadj, hpost i c hc e₀ he₀]
  · rw [LdBin.setAdjusted_adjustment]
    refine (ha.map _).trans (List.Perm.of_eq (map_place fun i c hc => ?_))
    rw [List.map_map, Source.adjustmentAt, Source.adjustmentAt, List.map_map, List.map_map]
    refine List.map_congr_left fun e he => ?_
    change (post ⟨e.label, some (nm (loc (S.target c)).1), 0 + i⟩ (b.words.getD (0 + i) 0)).1 =
      ⟨e.label, some (nm (loc' (S.target c)).1), 0 + i⟩
    rw [Nat.zero_add, hget i c hc (List.ne_nil_of_mem he), hpost i c hc e he]
  · rw [LdBin.setAdjusted_tables fun h => by rw [h] at ht; cases ht]
    exact hr t ht

end Holds

/-! ### One bin through an insertion -/

section Insert

variable {κ : Type} {S : Source κ} {nm : BinPtr → Bstring} {loc loc' : κ → BinPtr × ℕ}
  {b : LdBin} {cs : List κ} {toBin fromBin : BinPtr} {atPos offset count : ℕ}

/-- A name tells a bin: a location in a bin of that name is in that bin. -/
def Tells (nm : BinPtr → Bstring) (p : BinPtr) (l : BinPtr × ℕ) : Prop := nm l.1 = nm p → l.1 = p

/-- At one adjustment an insertion does what it does to the location referred to. -/
theorem repointInserted_eq {l : BinPtr × ℕ} {label : Bstring} {i : ℕ} (hto : Tells nm toBin l)
    (hfrom : Tells nm fromBin l) (hl : l.2 < 0x10000) :
    repointInserted (nm toBin) (nm fromBin) atPos offset count ⟨label, some (nm l.1), i⟩
        (BitVec.ofNat 16 l.2) =
      (⟨label, some (nm (insertLoc toBin fromBin atPos offset count l).1), i⟩,
        BitVec.ofNat 16 (insertLoc toBin fromBin atPos offset count l).2) := by
  have hw : (BitVec.ofNat 16 l.2).toNat = l.2 := by
    rw [BitVec.toNat_ofNat]
    exact Nat.mod_eq_of_lt hl
  have hiff : ∀ p, Tells nm p l → (decide (nm l.1 = nm p) = true ↔ l.1 = p) := fun p hp => by
    rw [decide_eq_true_iff]
    exact ⟨hp, fun h => by rw [h]⟩
  simp only [repointInserted, insertLoc, hw, biseq_some, hiff _ hto, hiff _ hfrom]
  by_cases h1 : l.1 = fromBin ∧ offset ≤ l.2 ∧ l.2 < offset + count
  · rw [if_pos ⟨h1.2.1, h1.2.2, h1.1⟩, if_pos h1]
  · rw [if_neg fun h => h1 ⟨h.2.2, h.1, h.2.1⟩, if_neg h1]
    by_cases h2 : l.1 = toBin ∧ atPos ≤ l.2
    · rw [if_pos ⟨h2.2, h2.1⟩, if_pos h2, h2.1]
    · rw [if_neg fun h => h2 ⟨h.2, h.1⟩, if_neg h2]

/-- What an adjusted cell refers to goes where an insertion takes it. -/
def FollowsInsert (S : Source κ) (nm : BinPtr → Bstring) (loc loc' : κ → BinPtr × ℕ)
    (toBin fromBin : BinPtr) (atPos offset count : ℕ) (c : κ) : Prop :=
  S.adjusted c ≠ [] →
    loc' (S.target c) = insertLoc toBin fromBin atPos offset count (loc (S.target c)) ∧
      (loc (S.target c)).2 < 0x10000 ∧ Tells nm toBin (loc (S.target c)) ∧
      Tells nm fromBin (loc (S.target c))

/-- **The walk of an insertion over a bin**: its cells follow what they refer to. -/
theorem Holds.walkInserted {missing : LdError} (h : Holds S nm loc b cs)
    (hf : ∀ c ∈ cs, FollowsInsert S nm loc loc' toBin fromBin atPos offset count c) :
    ∃ b', b.adjust id (repointInserted (nm toBin) (nm fromBin) atPos offset count) missing =
        .ok b' ∧ Holds S nm loc' b' cs ∧ b'.name = b.name ∧
        ∀ t, t ≠ .adjustment → b'.tables t = b.tables t :=
  Holds.walk h.words (by rw [List.map_id]; exact h.adjustment) h.records fun i c hc e he => by
    obtain ⟨hloc, hlt, hto, hfrom⟩ :=
      hf c (List.mem_of_getElem? hc) (List.ne_nil_of_mem he)
    rw [hloc]
    exact repointInserted_eq hto hfrom hlt

variable {A B C X Y : List κ} {b' : LdBin}

/-- **The target of an insertion**, before the walk: it holds the inserted cells among its
own. -/
theorem Holds.insert {iterated : Bool} (hto : Holds S nm loc b (X ++ Y))
    (hfrom : Holds S nm loc b' (A ++ B ++ C)) (hb : (X ++ B ++ Y).length ≤ 0x10000) :
    Holds S nm loc (b.insert iterated b' X.length A.length B.length) (X ++ B ++ Y) where
  words := by
    simp only [LdBin.insert, hto.words, hfrom.words, List.map_append]
    have hX : X.length = (X.map (S.wordAt loc)).length := (List.length_map _).symm
    have hA : A.length = (A.map (S.wordAt loc)).length := (List.length_map _).symm
    have hB : B.length = (B.map (S.wordAt loc)).length := (List.length_map _).symm
    rw [hX, hA, hB, List.take_left, List.drop_left, List.append_assoc (A.map _), List.drop_left,
      List.take_left]
  adjustment := by
    have h := Records.insert (records_false_iff.mpr hto.adjustment)
      (records_false_iff.mpr hfrom.adjustment) (fun _ _ h => h) hb
    rw [records_false_iff] at h
    rw [← hfrom.length_words] at h
    exact h
  records t ht := by
    have h := Records.insert (hto.records t ht) (hfrom.records t ht) (S.stray_addressFree t) hb
    rw [← hfrom.length_words] at h
    cases t <;> first | exact h | cases ht

/-- Sorting the tables of a bin changes nothing about its cells. -/
theorem Holds.sortTables (ls : ListSort) (h : Holds S nm loc b cs) :
    Holds S nm loc (b.sortTables ls) cs where
  words := h.words
  adjustment := (ls.up_perm _).trans h.adjustment
  records t ht := by
    have h' := (h.records t ht).perm (ls.up_perm (b.tables t))
    cases t <;> first | exact h' | cases ht

end Insert

/-! ### One bin through a removal -/

section Remove

variable {κ : Type} {S : Source κ} {nm : BinPtr → Bstring} {loc loc' : κ → BinPtr × ℕ}
  {b : LdBin} {cs : List κ} {bin : BinPtr} {offset count : ℕ}

/-- At one adjustment a removal does what it does to the location referred to. -/
theorem repointRemoved_eq {l : BinPtr × ℕ} {label : Bstring} {i : ℕ} (hbin : Tells nm bin l)
    (hl : l.2 < 0x10000) :
    repointRemoved (nm bin) offset count ⟨label, some (nm l.1), i⟩ (BitVec.ofNat 16 l.2) =
      (⟨label, some (nm (removeLoc bin offset count l).1), i⟩,
        BitVec.ofNat 16 (removeLoc bin offset count l).2) := by
  have hw : (BitVec.ofNat 16 l.2).toNat = l.2 := by
    rw [BitVec.toNat_ofNat]
    exact Nat.mod_eq_of_lt hl
  have hiff : decide (nm l.1 = nm bin) = true ↔ l.1 = bin := by
    rw [decide_eq_true_iff]
    exact ⟨hbin, fun h => by rw [h]⟩
  simp only [repointRemoved, removeLoc, hw, biseq_some, hiff]
  by_cases h : l.1 = bin ∧ offset + count ≤ l.2
  · rw [if_pos ⟨h.2, h.1⟩, if_pos h, h.1]
  · rw [if_neg fun h' => h ⟨h'.2, h'.1⟩, if_neg h]

/-- What an adjusted cell refers to goes where a removal takes it. -/
def FollowsRemove (S : Source κ) (nm : BinPtr → Bstring) (loc loc' : κ → BinPtr × ℕ)
    (bin : BinPtr) (offset count : ℕ) (c : κ) : Prop :=
  S.adjusted c ≠ [] →
    loc' (S.target c) = removeLoc bin offset count (loc (S.target c)) ∧
      (loc (S.target c)).2 < 0x10000 ∧ Tells nm bin (loc (S.target c))

theorem lowerRemoved_of_ne {name : Bstring} {e : LconvEntry} {n : Bstring} (hn : e.bin = some n)
    (h : n ≠ name ∨ e.address < offset + count) : lowerRemoved name offset count e = e := by
  rw [lowerRemoved, if_neg]
  rw [hn, biseq_some, decide_eq_true_iff]
  exact fun h' => h.elim (fun h => h h'.2) fun h => absurd h'.1 (by omega)

/-- **The walk of a removal over another bin**: its cells follow what they refer to,
provided none of its entries is taken for one of the bin that lost words. -/
theorem Holds.walkRemoved (missing : LdError) (h : Holds S nm loc b cs)
    (hf : ∀ c ∈ cs, FollowsRemove S nm loc loc' bin offset count c)
    (hlow : ∀ i c, cs[i]? = some c → S.adjusted c ≠ [] → (loc (S.target c)).1 = bin →
      i < offset + count) :
    ∃ b', b.adjust (lowerRemoved (nm bin) offset count)
        (repointRemoved (nm bin) offset count) missing = .ok b' ∧
        Holds S nm loc' b' cs ∧ b'.name = b.name ∧
        ∀ t, t ≠ .adjustment → b'.tables t = b.tables t := by
  refine Holds.walk h.words ?_ h.records fun i c hc e he => ?_
  · refine List.Perm.trans (List.Perm.of_eq ?_) h.adjustment
    refine (List.map_congr_left fun e he => ?_).trans (List.map_id _)
    obtain ⟨i, c, hc, e₁, he₁, rfl⟩ := mem_place.mp (h.adjustment.mem_iff.mp he)
    obtain ⟨e₀, he₀, rfl⟩ := List.mem_map.mp he₁
    have hadj : S.adjusted c ≠ [] := List.ne_nil_of_mem he₀
    refine lowerRemoved_of_ne rfl ?_
    by_cases hl : nm (loc (S.target c)).1 = nm bin
    · right
      change 0 + i < _
      rw [Nat.zero_add]
      exact hlow i c hc hadj ((hf c (List.mem_of_getElem? hc) hadj).2.2 hl)
    · exact .inl hl
  · obtain ⟨hloc, hlt, hbin⟩ := hf c (List.mem_of_getElem? hc) (List.ne_nil_of_mem he)
    rw [hloc]
    exact repointRemoved_eq hbin hlt

variable {A B C : List κ}

/-- **A removal, with its walk over the bin that lost words**: the bin holds the cells that
stay. The entries behind the removed words are told by the name they carry, so what those
cells refer to has to be in the same bin. -/
theorem Holds.remove (ls : ListSort) (missing : LdError) (h : Holds S nm loc b (A ++ B ++ C))
    (hf : ∀ c ∈ A ++ C, FollowsRemove S nm loc loc' bin A.length B.length c)
    (hC : ∀ c ∈ C, S.adjusted c ≠ [] → (loc (S.target c)).1 = bin) :
    ∃ b', (b.remove ls A.length B.length).adjust (lowerRemoved (nm bin) A.length B.length)
        (repointRemoved (nm bin) A.length B.length) missing = .ok b' ∧
        Holds S nm loc' b' (A ++ C) ∧ b'.name = b.name ∧
        ∀ t, t ≠ .adjustment → b'.tables t = (b.remove ls A.length B.length).tables t := by
  have hw : (b.remove ls A.length B.length).words = (A ++ C).map (S.wordAt loc) := by
    simp only [LdBin.remove, h.words, List.map_append]
    have hA : A.length = (A.map (S.wordAt loc)).length := (List.length_map _).symm
    have hB : A.length + B.length = (A.map (S.wordAt loc) ++ B.map (S.wordAt loc)).length := by
      rw [List.length_append, List.length_map, List.length_map]
    rw [hB, List.drop_left]
    rw [hA, List.append_assoc, List.take_left]
  refine Holds.walk hw ?_ (fun t ht => ?_) fun i c hc e he => ?_
  · refine ((binInfoRemove_adjustment ls h.adjustment).map _).trans (List.Perm.of_eq ?_)
    rw [List.map_append, place_append, Nat.zero_add]
    congr 1
    · refine (List.map_congr_left fun e he => ?_).trans (List.map_id _)
      have haddr : e.address < 0 + A.length := (address_of_mem_place he).2
      obtain ⟨i, c, -, e₁, he₁, rfl⟩ := mem_place.mp he
      obtain ⟨e₀, -, rfl⟩ := List.mem_map.mp he₁
      exact lowerRemoved_of_ne rfl (.inr (by omega))
    · refine map_place fun i c hc => ?_
      rw [List.map_map]
      refine List.map_congr_left fun e he => ?_
      obtain ⟨e₀, he₀, rfl⟩ := List.mem_map.mp he
      change (if A.length + B.length ≤ A.length + B.length + i ∧
          biseq (some (nm (loc (S.target c)).1)) (nm bin) = true then
        (⟨e₀.label, some (nm (loc (S.target c)).1), A.length + B.length + i - B.length⟩ :
          LconvEntry)
        else _) = ⟨e₀.label, some (nm (loc (S.target c)).1), A.length + i⟩
      rw [if_pos ⟨Nat.le_add_right _ _, by
          rw [hC c (List.mem_of_getElem? hc) (List.ne_nil_of_mem he₀)]; simp⟩,
        show A.length + B.length + i - B.length = A.length + i by omega]
  · have h' := Records.remove ls (h.records t ht) (S.stray_addressFree t)
    cases t <;> first | exact h' | cases ht
  · obtain ⟨hloc, hlt, hbin⟩ := hf c (List.mem_of_getElem? hc) (List.ne_nil_of_mem he)
    rw [hloc]
    exact repointRemoved_eq hbin hlt

end Remove

end DcpuToolchain
