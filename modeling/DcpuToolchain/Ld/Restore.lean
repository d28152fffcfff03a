import DcpuToolchain.Ld.Directives
import Mathlib.Algebra.Order.BigOperators.Group.List

/-!
# Taking inserted words out again

`bin_insert` and `bin_remove` walk over the tables of a bin on their own, and only in part
does one do the opposite of the other. An insertion leaves the outputs where they are, which
a removal does not; and a removal lowers an adjustment only if the word it marks is an address
of the same bin. The words and the tables of a bin are what they were exactly if there is
nothing of this kind behind the insertion point, and if no address leaves the address space
(`DcpuToolchain.restores_iff`).
-/

namespace DcpuToolchain

open Marks

/-! ### Tables as multisets -/

/-- Numbers that are not larger and have the same sum are the same. -/
theorem eq_of_sum_map_eq {E : Type} {f g : E → ℕ} {l : List E} (hle : ∀ e ∈ l, f e ≤ g e)
    (hsum : (l.map f).sum = (l.map g).sum) : ∀ e ∈ l, f e = g e := by
  induction l with
  | nil => exact fun e he => absurd he List.not_mem_nil
  | cons e l ih =>
    rw [List.forall_mem_cons] at hle
    rw [List.map_cons, List.map_cons, List.sum_cons, List.sum_cons] at hsum
    have hrest := List.sum_le_sum hle.2
    rw [List.forall_mem_cons]
    exact ⟨by omega, ih hle.2 (by omega)⟩

theorem sum_map_filter {E : Type} (p : E → Bool) (f : E → ℕ) (l : List E) :
    ((l.filter p).map f).sum = (l.map fun e => if p e then f e else 0).sum := by
  induction l with
  | nil => rfl
  | cons e l ih =>
    rw [List.map_cons, List.sum_cons, ← ih]
    rcases hp : p e with - | -
    · rw [List.filter_cons_of_neg (by simp [hp])]
      simp
    · rw [List.filter_cons_of_pos hp]
      simp

/-- An entry at another address. -/
def MovesEntry (g : LconvEntry → LconvEntry) : Prop :=
  ∀ e, g e = ⟨e.label, e.bin, (g e).address⟩

theorem MovesEntry.eq_iff {g : LconvEntry → LconvEntry} (h : MovesEntry g) (e : LconvEntry) :
    g e = e ↔ (g e).address = e.address :=
  ⟨congrArg LconvEntry.address, fun heq => by rw [h e, heq]⟩

/-- **A table from which entries are taken and in which others are lowered** is what it was only
if all of them are. -/
theorem filter_map_perm_iff {p : LconvEntry → Bool} {g : LconvEntry → LconvEntry}
    {l : List LconvEntry} (hg : MovesEntry g)
    (hle : ∀ e ∈ l, p e = true → (g e).address ≤ e.address) :
    ((l.filter p).map g).Perm l ↔ ∀ e ∈ l, p e = true ∧ g e = e := by
  constructor
  · intro hperm
    have hsum := (hperm.map fun e => e.address + 1).sum_eq
    rw [List.map_map, sum_map_filter] at hsum
    have heq := eq_of_sum_map_eq (fun e he => ?_) hsum
    · intro e he
      have hweight := heq e he
      rcases hp : p e with - | -
      · simp [hp] at hweight
      · refine ⟨rfl, (hg.eq_iff e).mpr ?_⟩
        simpa [hp] using hweight
    · split
      · rename_i hp
        exact Nat.succ_le_succ (hle e he hp)
      · exact Nat.zero_le _
  · intro h
    rw [List.filter_eq_self.mpr fun e he => (h e he).1]
    exact List.Perm.of_eq ((List.map_congr_left fun e he => (h e he).2).trans (List.map_id l))

/-- A table in which entries are raised is what it was only if none of them is. -/
theorem map_perm_iff {g : LconvEntry → LconvEntry} {l : List LconvEntry} (hg : MovesEntry g)
    (hle : ∀ e ∈ l, e.address ≤ (g e).address) : (l.map g).Perm l ↔ ∀ e ∈ l, g e = e := by
  constructor
  · intro hperm e he
    have hsum := (hperm.map LconvEntry.address).sum_eq
    rw [List.map_map] at hsum
    exact (hg.eq_iff e).mpr (eq_of_sum_map_eq hle hsum.symm e he).symm
  · intro h
    exact List.Perm.of_eq ((List.map_congr_left h).trans (List.map_id l))

/-! ### The tables of a bin -/

/-- A bin whose adjustments mark its words, each once, none of them an address of another bin;
addresses are `uint16_t`. -/
structure FlatBeside (b : LdBin) (other : Bstring) : Prop extends AdjustedApart b other where
  address_lt : ∀ t, ∀ e ∈ b.tables t, e.address < 0x10000

theorem binInfoRemove_perm (ls : ListSort) (a n : ℕ) (g : LconvEntry → LconvEntry)
    (l : List LconvEntry) :
    (binInfoRemove ls false a n (l.map g)).Perm
      ((l.filter fun e => kept a n (g e).address).map fun e => lowered false a n (g e)) := by
  rw [binInfoRemove_eq]
  refine (((ls.up_perm (l.map g)).filter _).map _).trans (List.Perm.of_eq ?_)
  rw [List.filter_map, List.map_map]
  rfl

theorem lowered_address (a n : ℕ) (e : LconvEntry) :
    (lowered false a n e).address = if a + n ≤ e.address then e.address - n else e.address := by
  rw [lowered]
  by_cases h : a + n ≤ e.address
  · rw [if_pos ⟨h, by simp⟩, if_pos h]
  · rw [if_neg fun h' => h h'.1, if_neg h]

theorem movesEntry_lowered (a n : ℕ) : MovesEntry (lowered false a n) := by
  intro e
  rw [lowered]
  split <;> rfl

theorem movesEntry_shiftUp (a n : ℕ) : MovesEntry (shiftUp a n) := by
  intro e
  rw [shiftUp]
  split <;> rfl

theorem MovesEntry.comp {g g' : LconvEntry → LconvEntry} (h : MovesEntry g) (h' : MovesEntry g') :
    MovesEntry fun e => g (g' e) := by
  intro e
  dsimp only
  rw [h (g' e), h' e]

/-- The entries of a table that is shifted. -/
theorem entries_perm_iff (ls : ListSort) {l : List LconvEntry} {a n : ℕ}
    (hl : ∀ e ∈ l, e.address < 0x10000) (hsize : a + n ≤ 0x10000) :
    (binInfoRemove ls false a n (l.map (shiftUp a n))).Perm l ↔
      ∀ e ∈ l, a ≤ e.address → e.address + n < 0x10000 := by
  rw [(binInfoRemove_perm ls a n (shiftUp a n) l).congr_left, filter_map_perm_iff
    ((movesEntry_lowered a n).comp (movesEntry_shiftUp a n))]
  · refine forall₂_congr fun e he => ?_
    have hlt := hl e he
    rw [((movesEntry_lowered a n).comp (movesEntry_shiftUp a n)).eq_iff, lowered_address,
      shiftUp_address, kept, decide_eq_true_iff, u16]
    by_cases hat : a ≤ e.address
    · rw [if_pos hat]
      split <;> omega
    · rw [if_neg hat]
      split <;> omega
  · intro e he hkept
    have hlt := hl e he
    rw [shiftUp_address, kept, decide_eq_true_iff, u16] at hkept
    rw [lowered_address, shiftUp_address, u16]
    by_cases hat : a ≤ e.address
    · rw [if_pos hat] at hkept ⊢
      split <;> omega
    · rw [if_neg hat] at hkept ⊢
      split <;> omega

/-- The outputs, which are not shifted. -/
theorem outputs_perm_iff (ls : ListSort) (a n : ℕ) (l : List LconvEntry) :
    (binInfoRemove ls false a n l).Perm l ↔ ∀ e ∈ l, e.address < a ∨ n = 0 := by
  have hperm : (binInfoRemove ls false a n l).Perm
      ((l.filter (kept a n ·.address)).map (lowered false a n)) := by
    have hid := binInfoRemove_perm ls a n id l
    rwa [List.map_id] at hid
  rw [hperm.congr_left, filter_map_perm_iff (movesEntry_lowered a n)]
  · refine forall₂_congr fun e he => ?_
    rw [(movesEntry_lowered a n).eq_iff, lowered_address, kept, decide_eq_true_iff]
    split <;> omega
  · intro e he hkept
    rw [lowered_address]
    split <;> omega

/-! ### The adjustments -/

/-- What an insertion and a removal do to an adjustment. -/
def LdBin.readjusted (b : LdBin) (a n : ℕ) (e : LconvEntry) : LconvEntry :=
  lowerRemoved b.name a n (shiftUp a n e)

section Adjustments

variable {b b₁ : LdBin} {other : Bstring} {a : ℕ} {code : List Word}

theorem shifted_adjustment (hb : FlatBeside b other)
    (hsize : b.words.length + code.length ≤ 0x10000) {e : LconvEntry}
    (he : e ∈ b.tables .adjustment) :
    shiftUp a code.length e = ⟨e.label, e.bin, movedBy a code.length e.address⟩ :=
  shiftUp_eq (by have := hb.lt e he; omega)

/-- An adjustment behind the insertion point is lowered again if it is one of the bin. -/
theorem readjusted_eq (hb : FlatBeside b other)
    (hsize : b.words.length + code.length ≤ 0x10000) {e : LconvEntry}
    (he : e ∈ b.tables .adjustment) :
    b.readjusted a code.length e =
      ⟨e.label, e.bin,
        if e.bin = some b.name then e.address else movedBy a code.length e.address⟩ := by
  obtain ⟨name, hbin, -⟩ := hb.named e he
  rw [LdBin.readjusted, shifted_adjustment hb hsize he, lowerRemoved, hbin, biseq_some]
  by_cases hown : name = b.name
  · rw [if_pos (congrArg some hown), movedBy]
    by_cases hat : a ≤ e.address
    · simp [hat, hown]
    · have hnot : ¬ a + code.length ≤ e.address := by omega
      simp [hat, hnot]
  · rw [if_neg fun h => hown (Option.some.inj h)]
    simp [hown]

/-- The adjustments that are left after the removal, before the walk. -/
theorem readjusted_perm (ls : ListSort) (hb : FlatBeside b other)
    (hsize : b.words.length + code.length ≤ 0x10000) (hgained : Gained b a code b₁) :
    (((b₁.remove ls a code.length).tables .adjustment).map (lowerRemoved b.name a code.length)).Perm
      ((b.tables .adjustment).map (b.readjusted a code.length)) := by
  have htable : (b₁.remove ls a code.length).tables .adjustment =
      (ls.up ((b.tables .adjustment).map (shiftUp a code.length))).filter
        (kept a code.length ·.address) := by
    change binInfoRemove ls true a code.length (b₁.tables .adjustment) = _
    rw [binInfoRemove_eq, lowered_true, List.map_id, hgained.tables _ (by decide) (by decide)]
  -- no adjustment is in the inserted code
  have hkept : ((b.tables .adjustment).map (shiftUp a code.length)).filter
      (kept a code.length ·.address) = (b.tables .adjustment).map (shiftUp a code.length) := by
    refine List.filter_eq_self.mpr fun e he => ?_
    obtain ⟨e', he', rfl⟩ := List.mem_map.mp he
    rw [shifted_adjustment hb hsize he', kept, decide_eq_true_iff, movedBy]
    dsimp only
    split <;> omega
  rw [htable]
  refine (((ls.up_perm _).filter _).map _).trans (List.Perm.of_eq ?_)
  rw [hkept, List.map_map]
  rfl

/-- The adjustments of the bin. -/
theorem adjustments_perm_iff (ls : ListSort) (hb : FlatBeside b other)
    (hsize : b.words.length + code.length ≤ 0x10000) (hgained : Gained b a code b₁) :
    (((b₁.remove ls a code.length).tables .adjustment).map (lowerRemoved b.name a code.length)).Perm
        (b.tables .adjustment) ↔
      ∀ e ∈ b.tables .adjustment, a ≤ e.address → e.bin = some b.name ∨ code.length = 0 := by
  have hmoves : MovesEntry (b.readjusted a code.length) := by
    intro e
    have hshift := movesEntry_shiftUp a code.length e
    rw [LdBin.readjusted, lowerRemoved]
    split
    · conv_lhs => rw [hshift]
    · exact hshift
  have haddress : ∀ e ∈ b.tables .adjustment, (b.readjusted a code.length e).address =
      if e.bin = some b.name then e.address else movedBy a code.length e.address := fun e he =>
    congrArg LconvEntry.address (readjusted_eq hb hsize he)
  rw [(readjusted_perm ls hb hsize hgained).congr_left, map_perm_iff hmoves]
  · refine forall₂_congr fun e he => ?_
    rw [hmoves.eq_iff, haddress e he, movedBy]
    by_cases hown : e.bin = some b.name
    · simp [hown]
    · rw [if_neg hown]
      by_cases hat : a ≤ e.address
      · simp [hat, hown]
      · simp [hat]
  · intro e he
    rw [haddress e he, movedBy]
    split
    · exact le_rfl
    · split <;> omega

/-- What a removal does to an address that an insertion has moved. -/
theorem unmoved_eq_iff {n : ℕ} (hn : n < 0x10000) (w : Word) :
    (if a + n ≤ (BitVec.ofNat 16 (movedBy a n w.toNat)).toNat then
        BitVec.ofNat 16 ((BitVec.ofNat 16 (movedBy a n w.toNat)).toNat - n)
      else BitVec.ofNat 16 (movedBy a n w.toNat)) = w ↔
      (a ≤ w.toNat → w.toNat + n < 0x10000 ∨ n = 0) := by
  have hw := w.isLt
  rw [← BitVec.toNat_inj, movedBy]
  split <;> split <;> simp only [BitVec.toNat_ofNat] at * <;> omega

/-- **The walk of the removal**: the words are what they were, if no address has left the address
space. -/
theorem exists_readjusted (ls : ListSort) (hb : FlatBeside b other) (ha : a ≤ b.words.length)
    (hsize : b.words.length + code.length ≤ 0x10000) (hgained : Gained b a code b₁)
    (hown : ∀ e ∈ b.tables .adjustment, a ≤ e.address → e.bin = some b.name ∨ code.length = 0) :
    ∃ b', (b₁.remove ls a code.length).adjust (lowerRemoved b.name a code.length)
        (repointRemoved b.name a code.length) .bug191Workaround = .ok b' ∧
      (b'.words = b.words ↔ ∀ i w, b.words[i]? = some w → b.ownAt i → a ≤ w.toNat →
        w.toNat + code.length < 0x10000 ∨ code.length = 0) := by
  obtain ⟨ws, hwords₁, hlength, hforeign, hmoved⟩ := hgained.words
  have hwords : (b₁.remove ls a code.length).words = ws := by
    have hcut : (ws.take a ++ code).length = a + code.length := by
      rw [List.length_append, List.length_take, hlength, Nat.min_eq_left ha]
    change b₁.words.take a ++ b₁.words.drop (a + code.length) = ws
    rw [hwords₁, ← hcut, List.drop_left, List.append_assoc, List.take_left' (by
      rw [List.length_take, hlength, Nat.min_eq_left ha]), List.take_append_drop]
  set es := ((b₁.remove ls a code.length).tables .adjustment).map
    (lowerRemoved b.name a code.length) with hes
  have hperm : es.Perm (b.tables .adjustment) :=
    (adjustments_perm_iff ls hb hsize hgained).mpr hown
  obtain ⟨words', hok, hlen, hset, hother⟩ := adjust_ok
    (repointRemoved b.name a code.length) .bug191Workaround ws
    ((hperm.map LconvEntry.address).nodup_iff.mpr hb.nodup)
    (fun e he => hlength ▸ hb.lt e (hperm.mem_iff.mp he))
  -- a word that is an address of the bin
  have hownWord : ∀ i w, b.words[i]? = some w → b.ownAt i → (words'[i]? = some w ↔
      (a ≤ w.toNat → w.toNat + code.length < 0x10000 ∨ code.length = 0)) := by
    rintro i w hw ⟨e, he, rfl, hbin⟩
    have hlt := hb.lt e he
    have hn : code.length < 0x10000 := by omega
    rw [hset e (hperm.mem_iff.mpr he), List.getD_eq_getElem?_getD, hmoved _ w hw ⟨e, he, rfl, hbin⟩,
      Option.getD_some, Option.some_inj, repointRemoved, hbin, biseq_some, ← unmoved_eq_iff hn w]
    simp only [decide_true, and_true]
    split <;> rfl
  -- a word that is not
  have hforeignWord : ∀ i w, b.words[i]? = some w → ¬ b.ownAt i → words'[i]? = some w := by
    intro i w hw hnot
    by_cases hmark : ∃ e ∈ b.tables .adjustment, e.address = i
    · obtain ⟨e, he, rfl⟩ := hmark
      have hname : biseq e.bin b.name = false := by
        obtain ⟨name, hbin, -⟩ := hb.named e he
        rw [hbin, biseq_some, decide_eq_false_iff_not]
        rintro rfl
        exact hnot ⟨e, he, rfl, hbin⟩
      rw [hset e (hperm.mem_iff.mpr he), List.getD_eq_getElem?_getD, hforeign _ w hw hnot,
        Option.getD_some, repointRemoved, hname, if_neg (fun h => Bool.false_ne_true h.2)]
    · rw [hother i fun e he heq => hmark ⟨e, hperm.mem_iff.mp he, heq⟩, hforeign i w hw hnot]
  refine ⟨(b₁.remove ls a code.length).setAdjusted (es.map fun e =>
    (repointRemoved b.name a code.length e (ws.getD e.address 0)).1, words'), ?_, ?_⟩
  · rw [LdBin.adjust, adjust_map_pre, ← hes, hwords, hok]
    rfl
  · change words' = b.words ↔ _
    constructor
    · intro heq i w hw howned
      exact (hownWord i w hw howned).mp (heq ▸ hw)
    · intro h
      refine List.ext_getElem? fun i => ?_
      rcases hw : b.words[i]? with - | w
      · rw [List.getElem?_eq_none_iff] at hw ⊢
        rwa [hlen, hlength]
      · by_cases howned : b.ownAt i
        · exact (hownWord i w hw howned).mpr (h i w hw howned)
        · exact hforeignWord i w hw howned

end Adjustments

/-! ### The bin as a whole -/

/-- **An insertion into the only bin there is, followed by the removal of the same words,**
restores its words and all of its tables, as multisets. -/
def Restores (ls : ListSort) (bin src : BinPtr) (a : ℕ) (heap : Heap) : Prop :=
  ∃ heap₁ heap₂,
    binInsert ls false [bin] bin src a 0 (heap src).words.length heap = .ok heap₁ ∧
    binRemove ls [bin] bin a (heap src).words.length heap₁ = .ok heap₂ ∧
    (heap₂ bin).words = (heap bin).words ∧
    ∀ t, ((heap₂ bin).tables t).Perm ((heap bin).tables t)

/-- **What can be restored**: behind the insertion point there are no outputs and no words that
refer to another bin, and no address leaves the address space. -/
structure Restorable (b : LdBin) (a n : ℕ) : Prop where
  outputs : ∀ e ∈ b.tables .output, e.address < a
  adjustments : ∀ e ∈ b.tables .adjustment, a ≤ e.address → e.bin = some b.name
  entries : ∀ t, t ≠ .section → t ≠ .output → t ≠ .adjustment → ∀ e ∈ b.tables t,
    a ≤ e.address → e.address + n < 0x10000
  words : ∀ i w, b.words[i]? = some w → b.ownAt i → a ≤ w.toNat → w.toNat + n < 0x10000

theorem binRemove_single (ls : ListSort) {bin : BinPtr} {a n : ℕ} {heap heap' : Heap}
    (hlength : a + n ≤ (heap bin).words.length) :
    binRemove ls [bin] bin a n heap = .ok heap' ↔
      ∃ b', ((heap bin).remove ls a n).adjust (lowerRemoved (heap bin).name a n)
          (repointRemoved (heap bin).name a n) .bug191Workaround = .ok b' ∧
        heap' = Function.update heap bin b' := by
  have hname : ((heap bin).remove ls a n).name = (heap bin).name := rfl
  rw [binRemove, if_neg (by omega)]
  simp only [adjustBins, Function.update_self, Function.update_idem, hname]
  constructor
  · intro h
    obtain ⟨b', hb', h⟩ := exists_of_bind_eq_ok h
    exact ⟨b', hb', (Except.ok.inj h).symm⟩
  · rintro ⟨b', hb', rfl⟩
    rw [hb']
    rfl

/-- The tables of the bin after the removal. -/
theorem tables_perm_iff (ls : ListSort) {b b₁ b' : LdBin} {other : Bstring} {a : ℕ}
    {code : List Word} (hb : FlatBeside b other) (ha : a ≤ b.words.length)
    (hsize : b.words.length + code.length ≤ 0x10000) (hgained : Gained b a code b₁)
    (hsection : b₁.tables .section = b.tables .section)
    (houtput : b₁.tables .output = b.tables .output)
    (hok : (b₁.remove ls a code.length).adjust (lowerRemoved b.name a code.length)
      (repointRemoved b.name a code.length) .bug191Workaround = .ok b') :
    (∀ t, (b'.tables t).Perm (b.tables t)) ↔
      (∀ e ∈ b.tables .output, e.address < a ∨ code.length = 0) ∧
        (∀ e ∈ b.tables .adjustment, a ≤ e.address → e.bin = some b.name ∨ code.length = 0) ∧
        ∀ t, t ≠ .section → t ≠ .output → t ≠ .adjustment → ∀ e ∈ b.tables t,
          a ≤ e.address → e.address + code.length < 0x10000 := by
  have hother := (LdBin.adjust_repointed hok).tables
  have hremoved : ∀ t, t ≠ .section → t ≠ .adjustment →
      b'.tables t = binInfoRemove ls false a code.length (b₁.tables t) := by
    intro t hs ha
    rw [hother t ha, LdBin.remove]
    simp [hs, ha]
  -- the outputs are not shifted up, but lowered and removed like any other table
  have houtputs : (b'.tables .output).Perm (b.tables .output) ↔
      ∀ e ∈ b.tables .output, e.address < a ∨ code.length = 0 := by
    rw [hremoved _ (by decide) (by decide), houtput]
    exact outputs_perm_iff ls a code.length _
  have hadjustments : (b'.tables .adjustment).Perm (b.tables .adjustment) ↔
      ∀ e ∈ b.tables .adjustment, a ≤ e.address → e.bin = some b.name ∨ code.length = 0 := by
    -- only the adjustments that name the bin are lowered
    have htable : b'.tables .adjustment =
        ((b₁.remove ls a code.length).tables .adjustment).map
          (lowerRemoved b.name a code.length) :=
      (LdBin.adjust_entries (repointRemoved_fst _ _ _) hok).1
    rw [htable]
    exact adjustments_perm_iff ls hb hsize hgained
  have hentries : ∀ t, t ≠ .section → t ≠ .output → t ≠ .adjustment →
      ((b'.tables t).Perm (b.tables t) ↔
        ∀ e ∈ b.tables t, a ≤ e.address → e.address + code.length < 0x10000) := by
    intro t hs ho ha
    rw [hremoved t hs ha, hgained.tables t hs ho]
    exact entries_perm_iff ls (hb.address_lt t) (by omega)
  constructor
  · intro h
    exact ⟨houtputs.mp (h _), hadjustments.mp (h _), fun t hs ho ha =>
      (hentries t hs ho ha).mp (h t)⟩
  · rintro ⟨ho, ha, he⟩ t
    by_cases hs : t = .section
    · rw [hs, hother _ (by decide)]
      exact List.Perm.of_eq hsection
    · by_cases ho' : t = .output
      · exact ho' ▸ houtputs.mpr ho
      · by_cases ha' : t = .adjustment
        · exact ha' ▸ hadjustments.mpr ha
        · exact (hentries t hs ho' ha').mpr (he t hs ho' ha')

/-- **Inserted words can be taken out again** without a trace exactly if there are none, or if
what is behind the insertion point can be restored. -/
theorem restores_iff (ls : ListSort) {bin src : BinPtr} (hne : bin ≠ src) {heap : Heap}
    (hb : FlatBeside (heap bin) (heap src).name) (hsrc : ∀ t, (heap src).tables t = []) {a : ℕ}
    (ha : a ≤ (heap bin).words.length)
    (hsize : (heap bin).words.length + (heap src).words.length ≤ 0x10000) :
    Restores ls bin src a heap ↔
      (heap src).words = [] ∨ Restorable (heap bin) a (heap src).words.length := by
  obtain ⟨heap₁, hinsert, hgained, -, hsection, houtput⟩ :=
    binInsert_plain ls hne hb.toAdjustedApart hsrc ha hsize
  have hcut : a + (heap src).words.length ≤ (heap₁ bin).words.length := by
    rw [hgained.length_words ha]
    omega
  set b := heap bin
  set code := (heap src).words
  have hname : (heap₁ bin).name = b.name := hgained.name
  -- the parts of the condition, each with its own way out for an insertion of no words
  have hparts : Restores ls bin src a heap ↔
      ((∀ e ∈ b.tables .output, e.address < a ∨ code.length = 0) ∧
        (∀ e ∈ b.tables .adjustment, a ≤ e.address → e.bin = some b.name ∨ code.length = 0) ∧
        ∀ t, t ≠ .section → t ≠ .output → t ≠ .adjustment → ∀ e ∈ b.tables t,
          a ≤ e.address → e.address + code.length < 0x10000) ∧
      ∀ i w, b.words[i]? = some w → b.ownAt i → a ≤ w.toNat →
        w.toNat + code.length < 0x10000 ∨ code.length = 0 := by
    constructor
    · rintro ⟨heap₁', heap₂, hinsert', hremove, hwords, htables⟩
      obtain rfl := Except.ok.inj (hinsert'.symm.trans hinsert)
      obtain ⟨b', hok, rfl⟩ := (binRemove_single ls hcut).mp hremove
      rw [Function.update_self] at hwords htables
      rw [hname] at hok
      have hall := (tables_perm_iff ls hb ha hsize hgained hsection houtput hok).mp htables
      obtain ⟨b'', hok', hiff⟩ := exists_readjusted ls hb ha hsize hgained hall.2.1
      obtain rfl := Except.ok.inj (hok'.symm.trans hok)
      exact ⟨hall, hiff.mp hwords⟩
    · rintro ⟨hall, hwords⟩
      obtain ⟨b', hok, hiff⟩ := exists_readjusted ls hb ha hsize hgained hall.2.1
      refine ⟨heap₁, Function.update heap₁ bin b', hinsert,
        (binRemove_single ls hcut).mpr ⟨b', by rw [hname]; exact hok, rfl⟩, ?_, ?_⟩
      · rw [Function.update_self]
        exact hiff.mpr hwords
      · rw [Function.update_self]
        exact (tables_perm_iff ls hb ha hsize hgained hsection houtput hok).mpr hall
  rw [hparts]
  by_cases hnil : code = []
  · have hzero : code.length = 0 := List.length_eq_zero_iff.mpr hnil
    refine iff_of_true ⟨⟨fun _ _ => .inr hzero, fun _ _ _ => .inr hzero, ?_⟩,
      fun _ _ _ _ _ => .inr hzero⟩ (.inl hnil)
    intro t _ _ _ e he _
    rw [hzero]
    exact hb.address_lt t e he
  · have hpos : ¬ code.length = 0 := fun h => hnil (List.length_eq_zero_iff.mp h)
    simp only [hpos, hnil, or_false, false_or]
    exact ⟨fun ⟨⟨ho, ha, he⟩, hw⟩ => ⟨ho, ha, he, hw⟩,
      fun ⟨ho, ha, he, hw⟩ => ⟨⟨ho, ha, he⟩, hw⟩⟩

/-- A bin with a label, a word that refers to it, and an output at the same place. -/
def outputBin : LdBin where
  name := ['k']
  words := [1, 0]
  tables
    | .provided => [⟨['l'], none, 1⟩]
    | .adjustment => [⟨[], some ['k'], 0⟩]
    | .output => [⟨['o'], none, 1⟩]
    | _ => []
  symbols := []

/-- This bin and one of a single word. -/
def outputHeap : Heap := fun p => if p = 0 then outputBin else tempBin [7]

theorem outputBin_flat : FlatBeside outputBin tempName where
  nodup := by decide
  lt := by decide
  named := by
    intro e he
    rw [List.mem_singleton.mp he]
    exact ⟨['k'], rfl, by decide⟩
  address_lt := by
    intro t
    cases t <;> decide

/-- A word is inserted at the output. -/
theorem restores_output_iff :
    Restores ListSort.insertion 0 1 1 outputHeap ↔
      (outputHeap 1).words = [] ∨ Restorable (outputHeap 0) 1 (outputHeap 1).words.length :=
  restores_iff ListSort.insertion (by decide) outputBin_flat (fun _ => rfl) (by decide) (by decide)

/-- The output is taken out with the inserted word. -/
theorem not_forall_restores :
    ¬ ∀ (ls : ListSort) (bin src : BinPtr) (a : ℕ) (heap : Heap), bin ≠ src →
      FlatBeside (heap bin) (heap src).name → (∀ t, (heap src).tables t = []) →
        a ≤ (heap bin).words.length →
          (heap bin).words.length + (heap src).words.length ≤ 0x10000 →
            Restores ls bin src a heap := by
  intro h
  have hrestores := h ListSort.insertion 0 1 1 outputHeap (by decide) outputBin_flat (fun _ => rfl)
    (by decide) (by decide)
  rcases (restores_iff ListSort.insertion (by decide) outputBin_flat (fun _ => rfl) (by decide)
    (by decide)).mp hrestores with hnil | hrestorable
  · exact absurd hnil (by decide)
  · exact absurd (hrestorable.outputs ⟨['o'], none, 1⟩ List.mem_cons_self) (by decide)

end DcpuToolchain
