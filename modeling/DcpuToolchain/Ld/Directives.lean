import DcpuToolchain.Ld.Frame
import DcpuToolchain.Ld.Kernel
import DcpuToolchain.Ld.Link

/-!
# Labels at directives

A directive has no words in its object file, so a label written before it has the same address
as one written behind it. What the linker inserts for a `.CALL` or an `.OUTPUT` it inserts
before whatever is at that address, and all labels there move: they are behind the inserted
code, on whichever side of the directive they were written
(`DcpuToolchain.linked_directives`). The words that refer to such a label move with it.
-/

namespace DcpuToolchain

open Marks Weave

/-! ### Inserting code into a bin -/

/-- The adjustments of a bin mark its words, each once, and say whose addresses these hold. -/
structure WellAdjusted (b : LdBin) : Prop where
  nodup : ((b.tables .adjustment).map LconvEntry.address).Nodup
  lt : ∀ e ∈ b.tables .adjustment, e.address < b.words.length
  named : ∀ e ∈ b.tables .adjustment, ∃ name, e.bin = some name ∧ name ≠ tempName

/-- The adjustments of a bin mark its words, each once, and none of these is an address of
another bin. -/
structure AdjustedApart (b : LdBin) (other : Bstring) : Prop where
  nodup : ((b.tables .adjustment).map LconvEntry.address).Nodup
  lt : ∀ e ∈ b.tables .adjustment, e.address < b.words.length
  named : ∀ e ∈ b.tables .adjustment, ∃ name, e.bin = some name ∧ name ≠ other

theorem WellAdjusted.apart {b : LdBin} (h : WellAdjusted b) : AdjustedApart b tempName :=
  ⟨h.nodup, h.lt, h.named⟩

/-- Whether a word is an address of its own bin. -/
def LdBin.ownAt (b : LdBin) (i : ℕ) : Prop :=
  ∃ e ∈ b.tables .adjustment, e.address = i ∧ e.bin = some b.name

/-- Where an insertion moves an address. -/
def movedBy (a n x : ℕ) : ℕ := if a ≤ x then x + n else x

theorem movedBy_zero (a x : ℕ) : movedBy a 0 x = x := by
  rw [movedBy, Nat.add_zero, ite_self]

theorem le_movedBy (a n x : ℕ) : x ≤ movedBy a n x := by
  rw [movedBy]
  split <;> omega

theorem movedBy_inj {a n x y : ℕ} (h : movedBy a n x = movedBy a n y) : x = y := by
  unfold movedBy at h
  split at h <;> split at h <;> omega

theorem shiftUp_eq {a n : ℕ} {e : LconvEntry} (h : e.address + n < 0x10000) :
    shiftUp a n e = ⟨e.label, e.bin, movedBy a n e.address⟩ := by
  rw [shiftUp, movedBy]
  change (if a ≤ e.address then _ else _) = _
  split
  · exact congrArg (LconvEntry.mk e.label e.bin) (u16_of_lt h)
  · rfl

/-- **A bin into which code was inserted**: the code is there, the entries are moved, and so are
the words that are addresses of the bin. -/
structure Gained (b : LdBin) (a : ℕ) (code : List Word) (b' : LdBin) : Prop where
  name : b'.name = b.name
  words : ∃ ws : List Word, b'.words = ws.take a ++ code ++ ws.drop a ∧
    ws.length = b.words.length ∧
    (∀ i w, b.words[i]? = some w → ¬ b.ownAt i → ws[i]? = some w) ∧
    ∀ i w, b.words[i]? = some w → b.ownAt i →
      ws[i]? = some (BitVec.ofNat 16 (movedBy a code.length w.toNat))
  tables : ∀ t, t ≠ .section → t ≠ .output →
    b'.tables t = (b.tables t).map (shiftUp a code.length)

/-- There is nothing to sort in a bin without entries. -/
theorem sortTables_of_nil (ls : ListSort) {b : LdBin} (h : ∀ t, b.tables t = []) :
    b.sortTables ls = b := by
  refine congrArg (fun tables => (⟨b.name, b.words, tables, b.symbols⟩ : LdBin))
    (funext fun t => ?_)
  rw [h, List.perm_nil.mp (ls.up_perm []), ite_self]

theorem sortTables_tempBin (ls : ListSort) (words : List Word) :
    (tempBin words).sortTables ls = tempBin words := sortTables_of_nil ls fun _ => rfl

/-- A word that is in the bin, seen from the inserted code. -/
theorem getElem?_inserted {ws code : List Word} {a : ℕ} (ha : a ≤ ws.length) (i : ℕ) :
    (ws.take a ++ code ++ ws.drop a)[movedBy a code.length i]? = ws[i]? :=
  getElem?_insert code ha i

/-- What the walk does at a word, if code was inserted. -/
theorem repointInserted_other {own source name : Bstring} (label : Bstring) (address a n : ℕ)
    (w : Word) (hname : name ≠ source) :
    repointInserted own source a 0 n ⟨label, some name, address⟩ w =
      (⟨label, some name, address⟩,
        if name = own then BitVec.ofNat 16 (movedBy a n w.toNat) else w) := by
  rw [repointInserted, if_neg]
  · rw [biseq_some, movedBy]
    by_cases ha : a ≤ w.toNat
    · by_cases hb : name = own
      · simp [ha, hb]
      · simp [hb]
    · simp [ha]
  · rintro ⟨-, -, h⟩
    rw [biseq_some, decide_eq_true_iff] at h
    exact hname h

/-- What code was inserted into is what is around it. -/
theorem exists_inserted {words code : List Word} {a n : ℕ}
    (hlength : words.length = n + code.length)
    (ha : a ≤ n) (hcode : (words.drop a).take code.length = code) :
    ∃ ws : List Word, words = ws.take a ++ code ++ ws.drop a ∧ ws.length = n := by
  have htake : (words.take a).length = a := by
    rw [List.length_take]
    omega
  refine ⟨words.take a ++ words.drop (a + code.length), ?_, ?_⟩
  · rw [List.take_left' htake, List.drop_left' htake]
    conv_lhs => rw [← List.take_append_drop a words,
      ← List.take_append_drop code.length (words.drop a), hcode, List.drop_drop]
    rw [List.append_assoc]
  · rw [List.length_append, List.length_drop, htake]
    omega

/-- The walk over the adjustments after the code of a bin without entries was inserted. -/
theorem Gained.of_insert {b src : LdBin} (hb : AdjustedApart b src.name)
    (hsrc : ∀ t, src.tables t = []) {a : ℕ} (ha : a ≤ b.words.length)
    (hsize : b.words.length + src.words.length ≤ 0x10000) :
    ∃ b', (b.insert false src a 0 src.words.length).adjust id
        (repointInserted b.name src.name a 0 src.words.length) .assertion = .ok b' ∧
      Gained b a src.words b' := by
  set code := src.words with hcode₁
  set b₁ := b.insert false src a 0 code.length with hb₁
  have hwords : b₁.words = b.words.take a ++ code ++ b.words.drop a := by
    rw [hb₁, LdBin.insert]
    rw [List.drop_zero, ← hcode₁, List.take_length]
  have htables : ∀ t, t ≠ .section → t ≠ .output →
      b₁.tables t = (b.tables t).map (shiftUp a code.length) := by
    intro t hsection houtput
    rw [hb₁, LdBin.insert]
    dsimp only
    rw [if_neg hsection, insertEntries]
    simp [houtput, hsrc]
  have hshift : ∀ e ∈ b.tables .adjustment, shiftUp a code.length e =
      ⟨e.label, e.bin, movedBy a code.length e.address⟩ := fun e he =>
    shiftUp_eq (by have := hb.lt e he; omega)
  have hget : ∀ i, b₁.words[movedBy a code.length i]? = b.words[i]? := fun i => by
    rw [hwords, getElem?_inserted ha]
  -- the adjustments after the shift
  have hnodup : ((b₁.tables .adjustment).map LconvEntry.address).Nodup := by
    rw [htables _ (by decide) (by decide), List.map_map]
    have hmap : (b.tables .adjustment).map (LconvEntry.address ∘ shiftUp a code.length) =
        ((b.tables .adjustment).map LconvEntry.address).map (movedBy a code.length) := by
      rw [List.map_map]
      exact List.map_congr_left fun e he => by rw [Function.comp_apply, hshift e he]; rfl
    rw [hmap]
    exact hb.nodup.map fun x y => movedBy_inj
  have hmem : ∀ e ∈ b₁.tables .adjustment, ∃ e' ∈ b.tables .adjustment,
      e = ⟨e'.label, e'.bin, movedBy a code.length e'.address⟩ := by
    intro e he
    rw [htables _ (by decide) (by decide)] at he
    obtain ⟨e', he', rfl⟩ := List.mem_map.mp he
    exact ⟨e', he', hshift e' he'⟩
  have hlength₁ : b₁.words.length = b.words.length + code.length := by
    rw [hwords]
    simp only [List.length_append, List.length_take, List.length_drop]
    omega
  have hlt : ∀ e ∈ b₁.tables .adjustment, e.address < b₁.words.length := by
    intro e he
    obtain ⟨e', he', rfl⟩ := hmem e he
    have := hb.lt e' he'
    change movedBy a code.length e'.address < b₁.words.length
    unfold movedBy
    split <;> omega
  obtain ⟨words', hok, hlength, hset, hother⟩ := adjust_ok
    (repointInserted b.name src.name a 0 code.length) .assertion b₁.words hnodup hlt
  have hsame : (b₁.tables .adjustment).map (fun e =>
      (repointInserted b.name src.name a 0 code.length e (b₁.words.getD e.address 0)).1) =
      b₁.tables .adjustment := by
    conv_rhs => rw [← List.map_id (b₁.tables .adjustment)]
    refine List.map_congr_left fun e he => ?_
    obtain ⟨e', he', rfl⟩ := hmem e he
    obtain ⟨name, hbin, hname⟩ := hb.named e' he'
    rw [hbin, repointInserted_other _ _ _ _ _ hname]
    rfl
  rw [hsame] at hok
  have hset' : ∀ e ∈ b.tables .adjustment, words'[movedBy a code.length e.address]? =
      some (repointInserted b.name src.name a 0 code.length
        ⟨e.label, e.bin, movedBy a code.length e.address⟩ (b.words[e.address]?.getD 0)).2 := by
    intro e he
    have := hset _ (htables .adjustment (by decide) (by decide) ▸ List.mem_map_of_mem he)
    rwa [hshift e he, List.getD_eq_getElem?_getD, hget] at this
  -- no adjustment is in the inserted code
  have hcode : (words'.drop a).take code.length = code := by
    refine List.ext_getElem? fun i => ?_
    rw [List.getElem?_take, List.getElem?_drop]
    split
    · rename_i hi
      rw [hother, hwords, List.append_assoc, List.getElem?_append_right, List.length_take,
        Nat.min_eq_left ha, Nat.add_sub_cancel_left, List.getElem?_append_left hi]
      · rw [List.length_take]
        omega
      · intro e he
        obtain ⟨e', -, rfl⟩ := hmem e he
        change movedBy a code.length e'.address ≠ a + i
        unfold movedBy
        split <;> omega
    · rename_i hi
      rw [List.getElem?_eq_none (by omega)]
  obtain ⟨ws, hsplit, hws⟩ := exists_inserted (by rw [hlength, hlength₁]) ha hcode
  have hfinal : ∀ i, ws[i]? = words'[movedBy a code.length i]? := fun i => by
    rw [hsplit, getElem?_inserted (hws.symm ▸ ha)]
  refine ⟨b₁.setAdjusted (b₁.tables .adjustment, words'), ?_, rfl, ⟨ws, hsplit, hws, ?_, ?_⟩, ?_⟩
  · rw [LdBin.adjust, hok]
    rfl
  · intro i w hw hown
    rw [hfinal]
    by_cases hmark : ∃ e ∈ b.tables .adjustment, e.address = i
    · obtain ⟨e, he, rfl⟩ := hmark
      obtain ⟨name, hbin, hname⟩ := hb.named e he
      rw [hset' e he, hw, Option.getD_some, hbin, repointInserted_other _ _ _ _ _ hname, if_neg]
      rintro rfl
      exact hown ⟨e, he, rfl, hbin⟩
    · rw [hother, hget, hw]
      rintro e he h
      obtain ⟨e', he', rfl⟩ := hmem e he
      exact hmark ⟨e', he', movedBy_inj h⟩
  · rintro i w hw ⟨e, he, rfl, hbin⟩
    obtain ⟨name, hbin', hname⟩ := hb.named e he
    obtain rfl : b.name = name := Option.some.inj (hbin.symm.trans hbin')
    rw [hfinal, hset' e he, hw, Option.getD_some, hbin, repointInserted_other _ _ _ _ _ hname,
      if_pos rfl]
  · intro t hsection houtput
    rw [← htables t hsection houtput]
    by_cases ht : t = .adjustment
    · rw [ht]
      rfl
    · exact LdBin.setAdjusted_tables ht

theorem Gained.length_words {b b' : LdBin} {a : ℕ} {code : List Word} (h : Gained b a code b')
    (ha : a ≤ b.words.length) : b'.words.length = b.words.length + code.length := by
  obtain ⟨ws, hwords, hlength, -⟩ := h.words
  rw [hwords]
  simp only [List.length_append, List.length_take, List.length_drop]
  omega

theorem Gained.wellAdjusted {b b' : LdBin} {a : ℕ} {code : List Word} (h : Gained b a code b')
    (hb : WellAdjusted b) (ha : a ≤ b.words.length)
    (hsize : b.words.length + code.length < 0x10000) : WellAdjusted b' := by
  have hshift : ∀ e ∈ b.tables .adjustment, shiftUp a code.length e =
      ⟨e.label, e.bin, movedBy a code.length e.address⟩ := fun e he =>
    shiftUp_eq (by have := hb.lt e he; omega)
  have htable := h.tables .adjustment (by decide) (by decide)
  refine ⟨?_, fun e he => ?_, fun e he => ?_⟩
  · have hmap : (b'.tables .adjustment).map LconvEntry.address =
        ((b.tables .adjustment).map LconvEntry.address).map (movedBy a code.length) := by
      rw [htable, List.map_map, List.map_map]
      exact List.map_congr_left fun e he => by rw [Function.comp_apply, hshift e he]; rfl
    rw [hmap]
    exact hb.nodup.map fun x y => movedBy_inj
  · rw [htable] at he
    obtain ⟨e', he', rfl⟩ := List.mem_map.mp he
    have := hb.lt e' he'
    rw [h.length_words ha, hshift e' he']
    change movedBy a code.length e'.address < _
    unfold movedBy
    split <;> omega
  · rw [htable] at he
    obtain ⟨e', he', rfl⟩ := List.mem_map.mp he
    rw [hshift e' he']
    exact hb.named e' he'

/-- A walk that changes nothing. -/
theorem LdBin.adjust_id {pre : LconvEntry → LconvEntry}
    {post : LconvEntry → Word → LconvEntry × Word} (missing : LdError) {b : LdBin}
    (hpre : ∀ e ∈ b.tables .adjustment, pre e = e)
    (hpost : ∀ e ∈ b.tables .adjustment, ∀ w, post e w = (e, w))
    (hlt : ∀ e ∈ b.tables .adjustment, e.address < b.words.length) :
    b.adjust pre post missing = .ok b := by
  have hwalk : ∀ es, (∀ e ∈ es, pre e = e) → (∀ e ∈ es, ∀ w, post e w = (e, w)) →
      (∀ e ∈ es, e.address < b.words.length) →
      DcpuToolchain.adjust pre post missing es b.words = .ok (es, b.words) := by
    intro es hpre hpost hlt
    induction es with
    | nil => rfl
    | cons e es ih =>
      rw [List.forall_mem_cons] at hpre hpost hlt
      rw [DcpuToolchain.adjust, hpre.1, List.getElem?_eq_getElem hlt.1]
      simp only [hpost.1, List.set_getElem_self, ih hpre.2 hpost.2 hlt.2]
      rfl
  rw [LdBin.adjust, hwalk _ hpre hpost hlt]
  refine congrArg Except.ok ?_
  rw [LdBin.setAdjusted]
  refine congrArg (fun tables => (⟨b.name, b.words, tables, b.symbols⟩ : LdBin))
    (funext fun t => ?_)
  split
  · rename_i ht
    rw [ht]
  · rfl

/-- What a removal of the temporary bin does to the adjustments of another: nothing. -/
theorem LdBin.adjust_removed {b : LdBin} (hb : WellAdjusted b) (n : ℕ) :
    b.adjust (lowerRemoved tempName 0 n) (repointRemoved tempName 0 n) .bug191Workaround =
      .ok b := by
  refine LdBin.adjust_id _ (fun e he => ?_) (fun e he w => ?_) hb.lt
  · obtain ⟨name, hbin, hname⟩ := hb.named e he
    rw [lowerRemoved, hbin, biseq_some, decide_eq_false hname, if_neg]
    exact fun h => Bool.false_ne_true h.2
  · obtain ⟨name, hbin, hname⟩ := hb.named e he
    rw [repointRemoved, hbin, biseq_some, decide_eq_false hname, if_neg]
    exact fun h => Bool.false_ne_true h.2

/-- **A bin without entries is inserted into the only bin there is.** -/
theorem binInsert_plain (ls : ListSort) {bin src : BinPtr} (hne : bin ≠ src) {h : Heap}
    (hb : AdjustedApart (h bin) (h src).name) (hsrc : ∀ t, (h src).tables t = []) {a : ℕ}
    (ha : a ≤ (h bin).words.length)
    (hsize : (h bin).words.length + (h src).words.length ≤ 0x10000) :
    ∃ h', binInsert ls false [bin] bin src a 0 (h src).words.length h = .ok h' ∧
      Gained (h bin) a (h src).words (h' bin) ∧ h' src = h src ∧
      (h' bin).tables .section = (h bin).tables .section ∧
      (h' bin).tables .output = (h bin).tables .output := by
  obtain ⟨b', hok, hgained⟩ := Gained.of_insert hb hsrc ha hsize
  have hrepointed := LdBin.adjust_repointed hok
  set h₁ := Function.update h bin ((h bin).insert false (h src) a 0 (h src).words.length) with hh₁
  have hinsert : binInsert ls false [bin] bin src a 0 (h src).words.length h =
      .ok (Function.update h₁ bin b') := by
    have hsorted : Function.update h src ((h src).sortTables ls) = h := by
      rw [sortTables_of_nil ls hsrc, Function.update_eq_self]
    have hfilter : [bin].filter (fun p => decide (p ≠ bin)) ++ [bin] = [bin] := by simp
    rw [binInsert, if_neg (by omega), hsorted, hfilter]
    simp only [adjustBins, Function.update_self, Function.update_of_ne hne.symm]
    change (LdBin.adjust id (repointInserted (h bin).name (h src).name a 0 _) .assertion
      _ >>= _) = _
    rw [hok]
    rfl
  refine ⟨_, hinsert, ?_, ?_, ?_, ?_⟩
  · rwa [Function.update_self]
  · rw [Function.update_of_ne hne.symm, hh₁, Function.update_of_ne hne.symm]
  · rw [Function.update_self, hrepointed.tables _ (by decide)]
    rfl
  · rw [Function.update_self, hrepointed.tables _ (by decide), LdBin.insert]
    simp [insertEntries, hsrc]

/-- **The code of a call is moved into the flattened bin.** -/
theorem binMove_temp (ls : ListSort) {bin temp : BinPtr} (hne : bin ≠ temp) {h : Heap}
    (hb : WellAdjusted (h bin)) {a : ℕ} (ha : a ≤ (h bin).words.length) {code : List Word}
    (hsize : (h bin).words.length + code.length < 0x10000) :
    ∃ h', binMove ls false [bin] bin temp a 0 code.length
        (Function.update h temp (tempBin code)) = .ok h' ∧ Gained (h bin) a code (h' bin) := by
  set h₁ := Function.update h temp (tempBin code) with hh₁
  have hbin : h₁ bin = h bin := Function.update_of_ne hne _ _
  have htemp : h₁ temp = tempBin code := Function.update_self _ _ _
  obtain ⟨h₂, hinsert, hgained, htemp₂⟩ : ∃ h₂,
      binInsert ls false [bin] bin temp a 0 code.length h₁ = .ok h₂ ∧
      Gained (h bin) a code (h₂ bin) ∧ h₂ temp = tempBin code := by
    obtain ⟨h₂, hinsert, hgained, htemp₂, -⟩ := binInsert_plain ls hne
      (by rw [hbin, htemp]; exact hb.apart) (fun t => by rw [htemp]; rfl) (hbin ▸ ha)
      (by rw [hbin, htemp]; exact hsize.le)
    rw [htemp] at hinsert hgained htemp₂
    rw [hbin] at hgained
    exact ⟨h₂, hinsert, hgained, htemp₂⟩
  refine ⟨Function.update (Function.update h₂ temp ((tempBin code).remove ls 0 code.length)) bin
    (h₂ bin), ?_, by rwa [Function.update_self]⟩
  rw [binMove, hinsert]
  change binRemove ls [bin] temp 0 code.length h₂ = _
  rw [binRemove, if_neg, htemp₂]
  · simp only [adjustBins, Function.update_self, Function.update_of_ne hne]
    change (LdBin.adjust (lowerRemoved tempName 0 code.length)
      (repointRemoved tempName 0 code.length) .bug191Workaround (h₂ bin) >>= _) = _
    rw [LdBin.adjust_removed (hgained.wellAdjusted hb ha hsize)]
    rfl
  · rw [htemp₂]
    change ¬(code.length < 0 + code.length)
    omega

/-! ### Inserting the code of several calls -/

/-- An entry that was moved with the words of its bin. -/
def Moved (blocks : ℕ → List Word) (size : ℕ) (e e' : LconvEntry) : Prop :=
  e'.label = e.label ∧ e'.bin = e.bin ∧
    (e.address ≤ size → e'.address = position blocks 0 e.address)

/-- **A bin with blocks of code between its words**: all entries are moved with the words, and
so are the words that are addresses of the bin. -/
structure Spread (b : LdBin) (blocks : ℕ → List Word) (b' : LdBin) : Prop where
  name : b'.name = b.name
  words : ∃ ws : List Word, b'.words = weave blocks 0 ws ∧ ws.length = b.words.length ∧
    (∀ i w, b.words[i]? = some w → ¬ b.ownAt i → ws[i]? = some w) ∧
    ∀ i w, b.words[i]? = some w → b.ownAt i → w.toNat ≤ b.words.length →
      ws[i]? = some (BitVec.ofNat 16 (position blocks 0 w.toNat))
  entries : ∀ t, t ≠ .section → t ≠ .output →
    List.Forall₂ (Moved blocks b.words.length) (b.tables t) (b'.tables t)

namespace Spread

variable {b b₁ b₂ : LdBin} {blocks : ℕ → List Word} {a : ℕ} {code : List Word}

theorem refl (b : LdBin) : Spread b (fun _ => []) b where
  name := rfl
  words := by
    refine ⟨b.words, (weave_nil fun _ _ _ => rfl).symm, rfl, fun i w hw _ => hw,
      fun i w hw _ _ => ?_⟩
    rw [position_nil fun _ => rfl, BitVec.ofNat_toNat, BitVec.setWidth_eq, hw]
  entries t _ _ := by
    refine List.forall₂_same.mpr fun e _ => ⟨rfl, rfl, fun _ => ?_⟩
    rw [position_nil fun _ => rfl]

theorem length_words (h : Spread b blocks b₁) :
    b₁.words.length = position blocks 0 b.words.length := by
  obtain ⟨ws, hwords, hlength, -⟩ := h.words
  rw [hwords, length_weave, hlength]

theorem adjustment (h : Spread b blocks b₁) (hb : WellAdjusted b) :
    b₁.tables .adjustment =
      (b.tables .adjustment).map fun e => ⟨e.label, e.bin, position blocks 0 e.address⟩ := by
  have hlt := hb.lt
  have hentries := h.entries .adjustment (by decide) (by decide)
  generalize b.tables .adjustment = l at hlt hentries ⊢
  generalize b₁.tables .adjustment = l' at hentries ⊢
  induction hentries with
  | nil => rfl
  | @cons e e' l l' hmoved _ ih =>
    rw [List.forall_mem_cons] at hlt
    rw [List.map_cons, ← ih hlt.2, ← hmoved.1, ← hmoved.2.1, ← hmoved.2.2 hlt.1.le]

theorem wellAdjusted (h : Spread b blocks b₁) (hb : WellAdjusted b) : WellAdjusted b₁ := by
  have htable := h.adjustment hb
  refine ⟨?_, fun e he => ?_, fun e he => ?_⟩
  · have hmap : (b₁.tables .adjustment).map LconvEntry.address =
        ((b.tables .adjustment).map LconvEntry.address).map (position blocks 0) := by
      rw [htable, List.map_map, List.map_map]
      rfl
    rw [hmap]
    refine hb.nodup.map fun x y hxy => ?_
    exact Nat.le_antisymm (position_le_iff.mp hxy.le) (position_le_iff.mp hxy.ge)
  · rw [htable] at he
    obtain ⟨e', he', rfl⟩ := List.mem_map.mp he
    rw [h.length_words]
    exact position_lt (hb.lt e' he')
  · rw [htable] at he
    obtain ⟨e', he', rfl⟩ := List.mem_map.mp he
    exact hb.named e' he'

theorem ownAt_iff (h : Spread b blocks b₁) (hb : WellAdjusted b) (i : ℕ) :
    b₁.ownAt (position blocks 0 i) ↔ b.ownAt i := by
  rw [LdBin.ownAt, LdBin.ownAt, h.adjustment hb, h.name]
  constructor
  · rintro ⟨e, he, hi, hbin⟩
    obtain ⟨e', he', rfl⟩ := List.mem_map.mp he
    refine ⟨e', he', ?_, hbin⟩
    exact Nat.le_antisymm (position_le_iff.mp hi.le) (position_le_iff.mp hi.ge)
  · rintro ⟨e, he, rfl, hbin⟩
    exact ⟨_, List.mem_map_of_mem he, rfl, hbin⟩

/-- **Code that is inserted directly before a word** makes the block there longer. -/
theorem gained (h : Spread b blocks b₁) (hb : WellAdjusted b) (ha : a ≤ b.words.length)
    (hgained : Gained b₁ (position blocks 0 a) code b₂)
    (hsize : b₁.words.length + code.length < 0x10000) :
    Spread b (Function.update blocks a (blocks a ++ code)) b₂ := by
  have hposition : ∀ x, movedBy (position blocks 0 a) code.length (position blocks 0 x) =
      position (Function.update blocks a (blocks a ++ code)) 0 x := by
    intro x
    have hupdate : position (Function.update blocks (0 + a) (blocks (0 + a) ++ code)) 0 x =
        position blocks 0 x + if a ≤ x then code.length else 0 := position_update code a x
    rw [Nat.zero_add] at hupdate
    rw [hupdate, movedBy]
    simp only [position_le_iff]
    split <;> rfl
  have hlength := h.length_words
  refine ⟨hgained.name.trans h.name, ?_, fun t hsection houtput => ?_⟩
  · obtain ⟨ws, hwords, hws, hother, hown⟩ := h.words
    obtain ⟨ws₁, hwords₁, hws₁, hother₁, hown₁⟩ := hgained.words
    have hget : ∀ i < b.words.length, b₁.words[position blocks 0 i]? = ws[i]? := by
      intro i hi
      rw [hwords, getElem?_weave (hws.symm ▸ hi)]
    -- the words of the bin, as the walk has left them
    set ws' := (List.range b.words.length).map fun i => ws₁.getD (position blocks 0 i) 0 with hws'
    have hlength' : ws'.length = b.words.length := by rw [hws', List.length_map, List.length_range]
    have hget' : ∀ i < b.words.length, ws'[i]? = ws₁[position blocks 0 i]? := by
      intro i hi
      have hlt : position blocks 0 i < ws₁.length := by
        rw [hws₁, hlength]
        exact position_lt hi
      rw [hws', List.getElem?_map, List.getElem?_range hi, Option.map_some,
        List.getD_eq_getElem?_getD, List.getElem?_eq_getElem hlt, Option.getD_some]
    have hweave : ws₁ = weave blocks 0 ws' := by
      refine List.ext_getElem? fun i => ?_
      by_cases hword : ∃ x < b.words.length, i = position blocks 0 x
      · obtain ⟨x, hx, rfl⟩ := hword
        rw [getElem?_weave (hlength'.symm ▸ hx), hget' x hx]
      by_cases hi : i < b₁.words.length
      · have hi' : i < (weave blocks 0 ws).length := hwords ▸ hi
        have hblock := (position_or_block hi').resolve_left (by rwa [hws]) ws'
          (hlength'.trans hws.symm)
        rw [hblock, ← hwords]
        refine (hother₁ i _ (List.getElem?_eq_getElem hi) ?_).trans
          (List.getElem?_eq_getElem hi).symm
        rintro ⟨e, he, rfl, -⟩
        rw [h.adjustment hb] at he
        obtain ⟨e', he', rfl⟩ := List.mem_map.mp he
        exact hword ⟨e'.address, hb.lt e' he', rfl⟩
      · rw [List.getElem?_eq_none (by omega), List.getElem?_eq_none]
        rw [length_weave, hlength', ← hlength]
        omega
    refine ⟨ws', ?_, hlength', fun i w hw hi => ?_, fun i w hw hi hle => ?_⟩
    · rw [hwords₁, hweave, insert_weave_position code (hlength'.symm ▸ ha), Nat.zero_add]
    · have hlt := (List.getElem?_eq_some_iff.mp hw).1
      rw [hget' i hlt]
      refine hother₁ _ _ ((hget i hlt).trans (hother i w hw hi)) ?_
      rwa [h.ownAt_iff hb]
    · have hlt := (List.getElem?_eq_some_iff.mp hw).1
      have hsmall : position blocks 0 w.toNat < 0x10000 := by
        have : position blocks 0 w.toNat ≤ position blocks 0 b.words.length :=
          position_le_iff.mpr hle
        omega
      rw [hget' i hlt, hown₁ _ _ ((hget i hlt).trans (hown i w hw hi hle))
        ((h.ownAt_iff hb i).mpr hi), BitVec.toNat_ofNat, Nat.mod_eq_of_lt hsmall, hposition]
  · rw [hgained.tables t hsection houtput, List.forall₂_map_right_iff]
    refine (h.entries t hsection houtput).imp fun e e' hmoved => ?_
    have hkeeps : (shiftUp (position blocks 0 a) code.length e').label = e'.label ∧
        (shiftUp (position blocks 0 a) code.length e').bin = e'.bin := by
      rw [shiftUp]
      split <;> exact ⟨rfl, rfl⟩
    refine ⟨hkeeps.1.trans hmoved.1, hkeeps.2.trans hmoved.2.1, fun hle => ?_⟩
    have hsmall : position blocks 0 e.address ≤ position blocks 0 b.words.length :=
      position_le_iff.mpr hle
    rw [shiftUp_eq (by rw [hmoved.2.2 hle]; omega)]
    change movedBy _ _ e'.address = _
    rw [hmoved.2.2 hle, hposition]

end Spread

/-! ### The loop over the calls -/

/-- The code of the calls at an address, in the order of the calls. -/
def codeAt (calls : List (LconvEntry × List Word)) (i : ℕ) : List Word :=
  (calls.filter fun c => c.1.address = i).flatMap Prod.snd

theorem codeAt_append (calls : List (LconvEntry × List Word)) (call : LconvEntry)
    (code : List Word) : codeAt (calls ++ [(call, code)]) =
      Function.update (codeAt calls) call.address (codeAt calls call.address ++ code) := by
  funext i
  rw [codeAt, List.filter_append, List.flatMap_append]
  by_cases hi : i = call.address
  · subst hi
    rw [Function.update_self, List.filter_cons_of_pos (by simp), List.filter_nil]
    simp [codeAt]
  · rw [Function.update_of_ne hi, List.filter_cons_of_neg (by simpa using Ne.symm hi)]
    simp [codeAt]

/-- The code depends on the label of the call alone. -/
theorem callCode_congr (policies : Policies) (bin : LdBin) {call call' : LconvEntry}
    (h : call'.label = call.label) : callCode policies bin call' = callCode policies bin call := by
  obtain ⟨label, _, _⟩ := call
  obtain ⟨label', _, _⟩ := call'
  obtain rfl : label' = label := h
  rfl

theorem length_binMove {ls : ListSort} {all : List BinPtr} {bin temp : BinPtr}
    {iterated : Bool} {a n : ℕ} {h h' : Heap} (hne : bin ≠ temp)
    (hok : binMove ls iterated all bin temp a 0 n h = .ok h') :
    a ≤ (h bin).words.length ∧ (h' bin).words.length = (h bin).words.length + n := by
  obtain ⟨ha, hn, hto, -, -⟩ := binMove_repointed hok hne.symm
  exact ⟨ha, hto.length.trans (length_insert ha hn)⟩

theorem ldcallGenerate_cases {ls : ListSort} {policies : Policies} {all : List BinPtr}
    {bin temp : BinPtr} {call : LconvEntry} {h h' : Heap}
    (hok : ldcallGenerate ls policies all bin temp call h = .ok h') :
    ∃ code, callCode policies (h bin) call = .ok code ∧
      binMove ls false all bin temp call.address 0 code.length
        (Function.update h temp (tempBin code)) = .ok h' := by
  rw [ldcallGenerate] at hok
  cases hcode : callCode policies (h bin) call with
  | error _ =>
    rw [hcode] at hok
    cases hok
  | ok code =>
    rw [hcode] at hok
    refine ⟨code, rfl, ?_⟩
    change (binMove ls false all bin temp call.address 0 code.length
      (Function.update h temp (tempBin code))).mapError CallError.bins = _ at hok
    cases hmove : binMove ls false all bin temp call.address 0 code.length
        (Function.update h temp (tempBin code)) with
    | error _ =>
      rw [hmove] at hok
      cases hok
    | ok h₁ =>
      rw [hmove] at hok
      cases hok
      rfl

theorem resolveCalls_cons {ls : ListSort} {policies : Policies} {bin temp : BinPtr} {i : ℕ}
    {is : List ℕ} {h h' : Heap} {call : LconvEntry} (hcall : ((h bin).tables .call)[i]? = some call)
    (hok : resolveCalls ls policies bin temp (i :: is) h = .ok h') :
    ∃ h₁, ldcallGenerate ls policies [bin] bin temp call h = .ok h₁ ∧
      resolveCalls ls policies bin temp is h₁ = .ok h' := by
  rw [resolveCalls, hcall] at hok
  dsimp only at hok
  cases hgenerate : ldcallGenerate ls policies [bin] bin temp call h with
  | error _ =>
    rw [hgenerate] at hok
    cases hok
  | ok h₁ =>
    rw [hgenerate] at hok
    exact ⟨h₁, rfl, hok⟩

/-- The bin never gets shorter. -/
theorem length_le_resolveCalls {ls : ListSort} {policies : Policies} {bin temp : BinPtr}
    (hne : bin ≠ temp) {is : List ℕ} {h h' : Heap}
    (hok : resolveCalls ls policies bin temp is h = .ok h') :
    (h bin).words.length ≤ (h' bin).words.length := by
  induction is generalizing h with
  | nil =>
    cases hok
    exact Nat.le_refl _
  | cons i is ih =>
    cases hcall : ((h bin).tables .call)[i]? with
    | none =>
      rw [resolveCalls, hcall] at hok
      cases hok
      exact Nat.le_refl _
    | some call =>
      obtain ⟨h₁, hgenerate, hrest⟩ := resolveCalls_cons hcall hok
      obtain ⟨code, -, hmove⟩ := ldcallGenerate_cases hgenerate
      have hlength := (length_binMove hne hmove).2
      rw [Function.update_of_ne hne] at hlength
      exact (Nat.le_add_right _ _).trans (hlength.symm.le.trans (ih hrest))

/-- **The loop of `bins_resolve_kernel`** puts the code of each call at its address, behind
that of the calls before it. -/
theorem Spread.resolveCalls {ls : ListSort} {policies : Policies} {bin temp : BinPtr}
    (hne : bin ≠ temp) {b : LdBin} (hb : WellAdjusted b)
    (hcalls : ∀ e ∈ b.tables .call, e.address ≤ b.words.length) (n : ℕ) {k : ℕ}
    (hk : k + n = (b.tables .call).length) {h h' : Heap} {calls : List (LconvEntry × List Word)}
    (hdone : calls.map Prod.fst = (b.tables .call).take k)
    (hcode : ∀ c ∈ calls, ∃ bin, callCode policies bin c.1 = .ok c.2)
    (hspread : Spread b (codeAt calls) (h bin))
    (hok : DcpuToolchain.resolveCalls ls policies bin temp (List.range' k n) h = .ok h')
    (hsize : (h' bin).words.length < 0x10000) :
    ∃ calls : List (LconvEntry × List Word), calls.map Prod.fst = b.tables .call ∧
      (∀ c ∈ calls, ∃ bin, callCode policies bin c.1 = .ok c.2) ∧
      Spread b (codeAt calls) (h' bin) := by
  induction n generalizing k h calls with
  | zero =>
    cases hok
    refine ⟨calls, ?_, hcode, hspread⟩
    rw [hdone, List.take_of_length_le (by omega)]
  | succ n ih =>
    have hlt : k < (b.tables .call).length := by omega
    have hentries := hspread.entries .call (by decide) (by decide)
    have hlt' : k < ((h bin).tables .call).length := hentries.length_eq ▸ hlt
    have hmoved := hentries.get hlt hlt'
    rw [List.get_eq_getElem, List.get_eq_getElem] at hmoved
    obtain ⟨hlabel, -, haddress⟩ := hmoved
    have hle := hcalls _ (List.getElem_mem hlt)
    rw [List.range'_succ] at hok
    obtain ⟨h₁, hgenerate, hrest⟩ := resolveCalls_cons (List.getElem?_eq_getElem hlt') hok
    obtain ⟨code, hcallCode, hmove⟩ := ldcallGenerate_cases hgenerate
    rw [haddress hle] at hmove
    have hlength := (length_binMove hne hmove).2
    rw [Function.update_of_ne hne] at hlength
    have hfits : (h bin).words.length + code.length < 0x10000 := by
      have := length_le_resolveCalls hne hrest
      omega
    obtain ⟨h₂, hmove', hgained⟩ := binMove_temp ls hne (hspread.wellAdjusted hb)
      (hspread.length_words ▸ position_le_iff.mpr hle) hfits
    obtain rfl : h₂ = h₁ := Except.ok.inj (hmove'.symm.trans hmove)
    have hdone' : (calls ++ [((b.tables .call)[k], code)]).map Prod.fst =
        (b.tables .call).take (k + 1) := by
      rw [List.map_append, hdone, List.take_succ_eq_append_getElem hlt]
      rfl
    refine ih (by omega) hdone' ?_ ?_ hrest
    · intro c hc
      rcases List.mem_append.mp hc with hc | hc
      · exact hcode c hc
      · rw [List.mem_singleton.mp hc]
        exact ⟨h bin, (callCode_congr policies (h bin) hlabel).symm.trans hcallCode⟩
    · rw [codeAt_append]
      exact hspread.gained hb hle hgained hfits

/-! ### The linked program -/

/-- The bins that are left when a link is flattened. -/
theorem linkFlat_bins {ls : ListSort} {files : List LdBin} {s : LdBins}
    (hok : linkFlat ls files = .ok s) : ∃ p, s.bins = [p] ∧ s.next = p + 1 := by
  rw [linkFlat] at hok
  cases hsectionize : binsSectionize ls (binsAssociate (binsLoad files)) with
  | error _ =>
    rw [hsectionize] at hok
    cases hok
  | ok s₁ =>
    rw [hsectionize] at hok
    change binsFlatten ls outputName s₁ = _ at hok
    rw [binsFlatten] at hok
    dsimp only at hok
    cases hfiles : flattenFiles ls s₁.bins s₁.next s₁.bins
        (Function.update s₁.heap s₁.next (binCreate outputName)) with
    | error _ =>
      rw [hfiles] at hok
      cases hok
    | ok heap =>
      rw [hfiles] at hok
      set sorted := Function.update heap s₁.next ((heap s₁.next).sortOutputs ls) with hsorted
      change (flattenOutputs ls s₁.bins s₁.next ((sorted s₁.next).tables .output) sorted >>= _) = _
        at hok
      cases houtputs : flattenOutputs ls s₁.bins s₁.next ((sorted s₁.next).tables .output)
          sorted with
      | error _ =>
        rw [houtputs] at hok
        cases hok
      | ok heap' =>
        rw [houtputs] at hok
        change (binsPrint heap' [s₁.next] >>= _) = _ at hok
        cases hprint : binsPrint heap' [s₁.next] with
        | error _ =>
          rw [hprint] at hok
          cases hok
        | ok _ =>
          rw [hprint] at hok
          cases hok
          exact ⟨s₁.next, rfl, rfl⟩

namespace LaidOut

variable {files : List LdBin} {b : LdBin} {pick : ℕ → List Bstring}

/-- The adjustments of the flattened bin. -/
theorem exists_adjustment (h : LaidOut files b pick) : ∃ place : Cell → Bstring,
    (∀ c, adjustedBy files c ≠ [] → targetOf files c ∈ allCells files → place c = b.name) ∧
    (∀ c ∈ allCells files, adjustedBy files c ≠ [] →
      place c ∈ outputName :: files.map LdBin.name) ∧
    (b.tables .adjustment).Perm (Marks.place
      (fun c => (adjustedBy files c).map fun e => ⟨e.label, some (place c), e.address⟩) 0
      (layout files pick)) := by
  obtain ⟨nm, loc, p, hplaced, hH, hnm, hname, haway⟩ := h.holds
  have hcell : ∀ c, targetOf files c ∈ allCells files → nm (loc (targetOf files c)).1 = b.name := by
    intro c ht
    obtain ⟨j, hj⟩ := List.mem_iff_getElem?.mp (h.perm.mem_iff.mpr ht)
    rw [hplaced j _ hj, hname, hnm]
  refine ⟨fun c => nm (loc (targetOf files c)).1, fun c _ ht => hcell c ht, fun c hc hadj => ?_,
    hH.adjustment⟩
  by_cases ht : targetOf files c ∈ allCells files
  · dsimp only
    rw [hcell c ht, hname]
    exact List.mem_cons_self
  · exact List.mem_cons_of_mem _ (haway c hc hadj ht)

/-- An adjustment of the flattened bin is that of a cell. -/
theorem mem_adjustment (h : LaidOut files b pick) {e : LconvEntry}
    (he : e ∈ b.tables .adjustment) :
    ∃ c, (layout files pick)[e.address]? = some c ∧ adjustedBy files c ≠ [] ∧
      (∃ name ∈ outputName :: files.map LdBin.name, e.bin = some name) := by
  obtain ⟨place, -, hnames, hperm⟩ := h.exists_adjustment
  obtain ⟨i, c, hc, e', he', rfl⟩ := mem_place.mp (hperm.mem_iff.mp he)
  obtain ⟨e₀, he₀, rfl⟩ := List.mem_map.mp he'
  have hmem := h.perm.mem_iff.mp (List.mem_of_getElem? hc)
  refine ⟨c, ?_, List.ne_nil_of_mem he₀, place c, hnames c hmem (List.ne_nil_of_mem he₀), rfl⟩
  change (layout files pick)[0 + i]? = _
  rwa [Nat.zero_add]

theorem length_words (h : LaidOut files b pick) : b.words.length = (layout files pick).length :=
  h.areWordsOf.length_eq.symm

theorem wellAdjusted (h : LaidOut files b pick) (htemp : ∀ f ∈ files, f.name ≠ tempName) :
    WellAdjusted b where
  nodup := by
    obtain ⟨place, -, -, hperm⟩ := h.exists_adjustment
    refine (hperm.map _).nodup_iff.mpr (nodup_address_place fun c _ => ?_)
    rw [List.length_map]
    exact (sourceOf files).adjusted_le c
  lt e he := by
    obtain ⟨c, hc, -⟩ := h.mem_adjustment he
    rw [h.length_words]
    exact (List.getElem?_eq_some_iff.mp hc).1
  named e he := by
    obtain ⟨c, -, -, name, hname, hbin⟩ := h.mem_adjustment he
    refine ⟨name, hbin, ?_⟩
    rcases List.mem_cons.mp hname with rfl | hname
    · decide
    · obtain ⟨f, hf, rfl⟩ := List.mem_map.mp hname
      exact htemp f hf

theorem not_ownAt (h : LaidOut files b pick) {i : ℕ} {c : Cell}
    (hc : (layout files pick)[i]? = some c) (hadj : adjustedBy files c = []) : ¬ b.ownAt i := by
  rintro ⟨e, he, rfl, -⟩
  obtain ⟨c', hc', hadj', -⟩ := h.mem_adjustment he
  obtain rfl : c = c' := Option.some.inj (hc.symm.trans hc')
  exact hadj' hadj

theorem ownAt (h : LaidOut files b pick) {i : ℕ} {c : Cell}
    (hc : (layout files pick)[i]? = some c) (hadj : adjustedBy files c ≠ [])
    (ht : targetOf files c ∈ allCells files) : b.ownAt i := by
  obtain ⟨place, hplace, -, hperm⟩ := h.exists_adjustment
  obtain ⟨e, he⟩ := List.exists_mem_of_ne_nil _ hadj
  refine ⟨⟨e.label, some (place c), 0 + i⟩, hperm.mem_iff.mpr (mem_place.mpr
    ⟨i, c, hc, ⟨e.label, some (place c), e.address⟩, List.mem_map_of_mem he, rfl⟩), ?_, ?_⟩
  · exact Nat.zero_add i
  · rw [hplace c hadj ht]

end LaidOut

/-- The sections whose outputs are at an address, in the order in which `pick` takes them. -/
def outputCells (files : List LdBin) (pick : ℕ → List Bstring) (a : ℕ) : List Cell :=
  (pick a).flatMap (sectionCells files)

/-- **A linked program.** The cells of the files are laid out with the sections of an output
directly before the cell that is at the output; the code of a call is directly before the cell
that is at the call. Labels and references follow their cells. -/
structure FollowsDirectives (files : List LdBin) (policies : Policies) (flat linked : LdBin)
    (pick : ℕ → List Bstring) (calls : List (LconvEntry × List Word)) : Prop where
  outputs : ∀ a, (pick a).Perm (outputsAt files a)
  calls_eq : calls.map Prod.fst = flat.tables .call
  code : ∀ c ∈ calls, ∃ bin, callCode policies bin c.1 = .ok c.2
  words : ∃ ws, AreWordsOf files (layout files pick) ws ∧ linked.words = weave (codeAt calls) 0 ws
  /-- A cell at an output is directly behind the sections of the outputs there. -/
  output_cell : ∀ a c, (codeCells files)[a]? = some c →
    (layout files pick)[position (outputCells files pick) 0 a]? = some c
  /-- The code of a call is before the cell that is at the call. -/
  call_cell : ∀ i c, (layout files pick)[i]? = some c → ∀ e ∈ marksOf files .call c,
    ∃ d ∈ calls, d.1.label = e.label ∧ d.1.address = i
  /-- A label at a cell is directly behind the code of the calls there. -/
  label : ∀ i c, (layout files pick)[i]? = some c → ∀ t, t.marksWords = true →
    ∀ e ∈ marksOf files t c, ∃ e' ∈ linked.tables t,
      e'.label = e.label ∧ e'.address = position (codeAt calls) 0 i
  /-- A word that refers to a cell has the address that labels at the cell have. -/
  reference : ∀ i c, (layout files pick)[i]? = some c → adjustedBy files c ≠ [] →
    targetOf files c ∈ allCells files → ∃ j : ℕ, (layout files pick)[j]? = some (targetOf files c) ∧
      linked.words[position (codeAt calls) 0 i]? =
        some (BitVec.ofNat 16 (position (codeAt calls) 0 j))

/-- The entries of a cell in the flattened bin. -/
theorem LaidOut.exists_mark {files : List LdBin} {b : LdBin} {pick : ℕ → List Bstring}
    (h : LaidOut files b pick) {i : ℕ} {c : Cell} (hc : (layout files pick)[i]? = some c)
    {t : Table} (ht : t.marksWords = true) {e : LconvEntry} (he : e ∈ marksOf files t c) :
    ∃ e' ∈ b.tables t, e'.label = e.label ∧ e'.address = i := by
  obtain ⟨extra, hperm, -⟩ := h.marks ht
  refine ⟨⟨e.label, e.bin, 0 + i⟩, hperm.mem_iff.mpr (List.mem_append_left _ (mem_place.mpr
    ⟨i, c, hc, e, he, rfl⟩)), rfl, Nat.zero_add i⟩

theorem exists_of_forall₂_left {α β : Type} {R : α → β → Prop} {l : List α} {l' : List β}
    (h : List.Forall₂ R l l') {x : α} (hx : x ∈ l) : ∃ y ∈ l', R x y := by
  induction h with
  | nil => cases hx
  | cons hxy _ ih =>
    rcases List.mem_cons.mp hx with rfl | hx
    · exact ⟨_, List.mem_cons_self, hxy⟩
    · obtain ⟨y, hy, h⟩ := ih hx
      exact ⟨y, List.mem_cons_of_mem _ hy, h⟩

/-- **Labels are behind what is inserted at their address**, on whichever side of the directive
they were written, and references agree with them. -/
theorem linked_directives (ls : ListSort) {files : List LdBin} (hd : Linkable files)
    (ho : OneOutput files) (htemp : ∀ f ∈ files, f.name ≠ tempName) (policies : Policies)
    {s s' : LdBins} (hflat : linkFlat ls files = .ok s)
    (hcalls : ∀ e ∈ s.flat.tables .call, e.address ≤ s.flat.words.length)
    (hkernel : binsResolveKernel ls policies s = .ok s')
    (hsize : s'.flat.words.length < 0x10000) :
    ∃ pick calls, FollowsDirectives files policies s.flat s'.flat pick calls := by
  obtain ⟨s₁, pick, hok, hlaid⟩ := linkFlat_ok ls hd ho
  obtain rfl : s₁ = s := Except.ok.inj (hok.symm.trans hflat)
  obtain ⟨p, hbins, hnext⟩ := linkFlat_bins hflat
  have hflatBin : s₁.flat = s₁.heap p := by
    rw [LdBins.flat, hbins]
    rfl
  rw [hflatBin] at hlaid hcalls ⊢
  have hb := hlaid.wellAdjusted htemp
  rw [binsResolveKernel, hbins] at hkernel
  dsimp only at hkernel
  cases hloop : resolveCalls ls policies p s₁.next
      (List.range ((s₁.heap p).tables .call).length) s₁.heap with
  | error _ =>
    rw [hloop] at hkernel
    cases hkernel
  | ok heap =>
    rw [hloop] at hkernel
    cases hkernel
    change (heap p).words.length < 0x10000 at hsize
    change ∃ pick calls, FollowsDirectives files policies (s₁.heap p) (heap p) pick calls
    have hne : p ≠ s₁.next := hnext ▸ Nat.ne_of_lt (Nat.lt_succ_self p)
    rw [List.range_eq_range'] at hloop
    have hstart : Spread (s₁.heap p) (codeAt []) (s₁.heap p) := Spread.refl _
    obtain ⟨calls, hcallsEq, hcode, hspread⟩ := Spread.resolveCalls hne hb hcalls _
      (Nat.zero_add _) rfl (by simp) hstart hloop hsize
    obtain ⟨ws, hwords, hlength, hother, hown⟩ := hspread.words
    have hlayout := hlaid.length_words
    have hword : ∀ i c, (layout files pick)[i]? = some c → i < (s₁.heap p).words.length := by
      intro i c hc
      rw [hlayout]
      exact (List.getElem?_eq_some_iff.mp hc).1
    refine ⟨pick, calls, hlaid.pick_perm, hcallsEq, hcode, ⟨ws, ?_, hwords⟩, ?_, ?_, ?_, ?_⟩
    · refine List.forall₂_iff_get.mpr ⟨(hlength.trans hlayout).symm, fun i hi hi' hadj => ?_⟩
      have hi'' : i < (s₁.heap p).words.length := hlength ▸ hi'
      have hcell := List.getElem?_eq_getElem hi
      rw [List.get_eq_getElem] at hadj ⊢
      have hw := hlaid.areWordsOf.get hi hi'' hadj
      rw [List.get_eq_getElem] at hw
      have hws := hother i _ (List.getElem?_eq_getElem hi'') (hlaid.not_ownAt hcell hadj)
      rw [List.getElem?_eq_getElem hi', Option.some_inj] at hws
      exact hws.trans hw
    · intro a c hc
      exact (getElem?_weave (List.getElem?_eq_some_iff.mp hc).1).trans hc
    · intro i c hc e he
      obtain ⟨e', he', hlabel, haddress⟩ := hlaid.exists_mark hc rfl he
      rw [← hcallsEq] at he'
      obtain ⟨d, hd, rfl⟩ := List.mem_map.mp he'
      exact ⟨d, hd, hlabel, haddress⟩
    · intro i c hc t ht e he
      obtain ⟨e', he', hlabel, haddress⟩ := hlaid.exists_mark hc ht he
      have hentries := hspread.entries t (by rintro rfl; cases ht) (by rintro rfl; cases ht)
      obtain ⟨e'', he'', hmoved⟩ := exists_of_forall₂_left hentries he'
      refine ⟨e'', he'', hmoved.1.trans hlabel, ?_⟩
      rw [hmoved.2.2 (haddress ▸ (hword i c hc).le), haddress]
    · intro i c hc hadj ht
      obtain ⟨j, hj, hw⟩ := hlaid.word_of_adjusted hc hadj ht
      refine ⟨j, hj, ?_⟩
      have hlt := hword i c hc
      have hjlt := hword j _ hj
      have hle := length_le_resolveCalls hne hloop
      have htoNat : (BitVec.ofNat 16 j).toNat = j := by
        rw [BitVec.toNat_ofNat, Nat.mod_eq_of_lt (by omega)]
      rw [hwords, getElem?_weave (hlength.symm ▸ hlt),
        hown i _ hw (hlaid.ownAt hc hadj ht) (by rw [htoNat]; exact hjlt.le), htoNat]

/-- A label and a `.CALL` at one address, and a word that refers to it. -/
def callingFile : LdBin where
  name := ['m']
  words := [1, 0x45]
  tables
    | .provided => [⟨['l'], none, 1⟩]
    | .call => [⟨['k'], none, 1⟩]
    | .adjustment => [⟨[], none, 0⟩]
    | _ => []
  symbols := []

/-- Policies of a kernel with a jump table. -/
def jumplistPolicies : Policies :=
  some fun name => if name = "jumplist".toList then some [] else none

theorem callingFile_linkable : Linkable [callingFile] where
  names_nodup := by decide
  name_ne_output := by decide
  name_not_section := by decide
  size_lt := by decide
  section_nodup := by decide
  section_le := by decide
  output_le := by decide
  output_lt := by decide
  adjustment_nodup := by decide
  adjustment_lt := by decide
  refers := by decide

theorem linked_directives_callingFile :
    ∃ s s', linkFlat .insertion [callingFile] = .ok s ∧
      binsResolveKernel .insertion jumplistPolicies s = .ok s' ∧
      ∃ pick calls, FollowsDirectives [callingFile] jumplistPolicies s.flat s'.flat pick calls :=
  ⟨_, _, rfl, rfl, linked_directives .insertion callingFile_linkable (by decide) (by decide)
    jumplistPolicies rfl (by decide) rfl (by decide)⟩

/-- The label is behind the code of the call, and so is what the word refers to. -/
theorem resolveKernel_callingFile :
    ∃ s s', linkFlat .insertion [callingFile] = .ok s ∧
      binsResolveKernel .insertion jumplistPolicies s = .ok s' ∧
      s'.flat.words = [3, instructionCreate 0x00 0x01 0x1E, 0, 0x45] ∧
      s'.flat.tables .provided = [⟨['l'], none, 3⟩] :=
  ⟨_, _, rfl, rfl, by decide, by decide⟩

/-- A label at the address of a call, written before it or not, is not at its code. -/
theorem not_forall_label_at_call : ¬∀ (ls : ListSort) (files : List LdBin) (policies : Policies)
    (s s' : LdBins), linkFlat ls files = .ok s → binsResolveKernel ls policies s = .ok s' →
      ∀ f ∈ files, ∀ e ∈ f.tables .provided, ∀ call ∈ f.tables .call, call.address = e.address →
        ∃ e' ∈ s'.flat.tables .provided, e'.label = e.label ∧
          ∃ bin code, callCode policies bin call = .ok code ∧
            s'.flat.words[e'.address]? = code.head? := by
  intro h
  obtain ⟨s, s', hflat, hkernel, hwords, hprovided⟩ := resolveKernel_callingFile
  obtain ⟨e', he', -, bin, code, hcode, hword⟩ := h .insertion [callingFile] jumplistPolicies s s'
    hflat hkernel callingFile List.mem_cons_self ⟨['l'], none, 1⟩ (by decide) ⟨['k'], none, 1⟩
    (by decide) rfl
  rw [hprovided, List.mem_singleton] at he'
  subst he'
  cases hcode
  rw [hwords] at hword
  change ([3, instructionCreate 0x00 0x01 0x1E, 0, 0x45] : List Word)[3]? =
    some (instructionCreate 0x00 0x01 0x1E) at hword
  exact absurd hword (by decide)

end DcpuToolchain
