import DcpuToolchain.Ld.Compress
import DcpuToolchain.Ld.Frame
import DcpuToolchain.Ld.Relocate
import DcpuToolchain.Lib.Gaps
import DcpuToolchain.Lib.Weave

/-!
# A bin without some of its words

The words that `bins_compress` takes away it takes away one at a time, and each removal moves the
tables, the symbols and the addresses in adjusted words (`DcpuToolchain.Lost`). What is left after
many of them is stated once for the bin as it was: `DcpuToolchain.Squeezed` says of every position
that stays what word it has in the end, and that everything about it has moved there. One more
literal is one more position (`DcpuToolchain.SqueezedAt.remove`).

A removal tells its bin by name, so that it moves no adjustment that names another one. What it
does whatever the adjustments are is less (`DcpuToolchain.WordsCut`): every word that stays is
where it belongs, but one that is adjusted may have any value, and its adjustment may be left
behind.
-/

namespace DcpuToolchain

open Marks Gaps

/-! ### Tables of what stays -/

section Entries

variable {E : Type} [Addressed E] {R : List ℕ} {q : ℕ}

/-- The entries of a table when some positions are removed. -/
def moveEntries (R : List ℕ) (l : List E) : List E :=
  (l.filter (address · ∉ R)).map fun e => withAddress e (closed R (address e))

theorem mem_moveEntries {l : List E} {e' : E} :
    e' ∈ moveEntries R l ↔ ∃ e ∈ l, address e ∉ R ∧ e' = withAddress e (closed R (address e)) := by
  rw [moveEntries, List.mem_map]
  refine exists_congr fun e => ?_
  rw [List.mem_filter, decide_eq_true_iff, and_assoc, eq_comm (b := e')]

theorem moveEntries_nil (l : List E) : moveEntries [] l = l := by
  simp [moveEntries]

theorem moveEntries_perm {l l' : List E} (h : l.Perm l') :
    (moveEntries R l).Perm (moveEntries R l') := (h.filter _).map _

/-- One position after the others. -/
theorem moveEntries_cons (hR : R.Nodup) (hq : q ∉ R) (l : List E) :
    moveEntries [closed R q] (moveEntries R l) = moveEntries (q :: R) l := by
  rw [moveEntries, moveEntries, moveEntries, List.filter_map, List.map_map, List.filter_filter]
  refine congrArg₂ List.map (funext fun e => ?_) (List.filter_congr fun e _ => ?_)
  · simp only [Function.comp_apply, Addressed.address_withAddress,
      Addressed.withAddress_withAddress]
    rw [closed_singleton, closed_cons hR hq]
  · simp only [Function.comp_apply, Addressed.address_withAddress, List.mem_cons, not_or,
      Bool.decide_and]
    by_cases he : address e ∈ R
    · simp [he]
    · have hiff : closed R (address e) = closed R q ↔ address e = q :=
        ⟨closed_inj hR he hq, fun h => by rw [h]⟩
      simp [he, hiff]

end Entries

/-! ### One removal -/

/-- Whether a walk over the adjustments may change a word: an adjustment of it names the bin. -/
def LdBin.repointedAt (b : LdBin) (p : ℕ) : Bool :=
  (b.tables .adjustment).any fun e => e.address = p ∧ biseq e.bin b.name

theorem repointedAt_iff {b : LdBin} {p : ℕ} : b.repointedAt p = true ↔
    ∃ e ∈ b.tables .adjustment, e.address = p ∧ biseq e.bin b.name = true := by
  simp [LdBin.repointedAt]

theorem repointedAt_of_adjustedAt {b : LdBin} {p : ℕ} (h : b.adjustedAt p = false) :
    b.repointedAt p = false := by
  rw [← Bool.not_eq_true, repointedAt_iff]
  rintro ⟨e, he, hat, -⟩
  rw [adjustedAt_iff.mpr ⟨e, he, hat⟩] at h
  cases h

/-- **The adjustments of a bin follow** when words are removed at a position and behind it: they
mark words of the bin, and one that does not name the bin, which is left as it is, lies before the
position, and its word refers to nothing behind it. -/
structure AdjustmentsFollow (b : LdBin) (r : ℕ) : Prop where
  lt : ∀ e ∈ b.tables .adjustment, e.address < b.words.length
  named : ∀ e ∈ b.tables .adjustment, biseq e.bin b.name = true ∨
    e.address < r ∧ (b.word e.address).toNat ≤ r

theorem AdjustmentsFollow.mono {b : LdBin} {r r' : ℕ} (h : AdjustmentsFollow b r) (hle : r ≤ r') :
    AdjustmentsFollow b r' where
  lt := h.lt
  named e he := (h.named e he).imp_right fun hbefore =>
    ⟨hbefore.1.trans_le hle, hbefore.2.trans hle⟩

/-- An address when a position is removed. -/
def lowerWord (i : ℕ) (w : Word) : Word := BitVec.ofNat 16 (closed [i] w.toNat)

/-- **A bin that lost a word.** -/
structure Lost (b : LdBin) (i : ℕ) (b' : LdBin) : Prop where
  name : b'.name = b.name
  length : b'.words.length + 1 = b.words.length
  words : ∀ p, p ≠ i → b'.words[closed [i] p]? =
    b.words[p]?.map fun w => if b.adjustedAt p then lowerWord i w else w
  tables : ∀ t, t ≠ .section → (b'.tables t).Perm (moveEntries [i] (b.tables t))
  symbols : b'.symbols.Perm (moveEntries [i] b.symbols)

section Lost

variable {b : LdBin} {i : ℕ}

theorem getElem?_word {p : ℕ} (h : p < b.words.length) : b.words[p]? = some (b.word p) := by
  rw [LdBin.word, List.getD_eq_getElem?_getD, List.getElem?_eq_getElem h, Option.getD_some]

theorem kept_one (i address : ℕ) : kept i 1 address = decide (address ∉ [i]) := by
  simp only [kept, List.mem_singleton]
  exact decide_eq_decide.mpr (by omega)

theorem lowered_one (e : LconvEntry) :
    lowered false i 1 e = withAddress e (closed [i] e.address) := by
  rw [lowered, closed_singleton]
  change (if _ then _ else e) = (⟨e.label, e.bin, if i + 1 ≤ e.address then _ else _⟩ : LconvEntry)
  by_cases h : i + 1 ≤ e.address
  · rw [if_pos ⟨h, by simp⟩, if_pos h]
  · rw [if_neg fun h' => h h'.1, if_neg h]

/-- A table that is not walked over. -/
theorem binInfoRemove_one (ls : ListSort) (l : List LconvEntry) :
    (binInfoRemove ls false i 1 l).Perm (moveEntries [i] l) := by
  rw [binInfoRemove_eq]
  refine List.Perm.trans (List.Perm.of_eq ?_) (moveEntries_perm (ls.up_perm l))
  rw [moveEntries]
  exact congrArg₂ List.map (funext lowered_one) (List.filter_congr fun e _ => kept_one i e.address)

theorem removeSymbols_one (l : List DbgSym) : removeSymbols i 1 l = moveEntries [i] l := by
  induction l with
  | nil => rfl
  | cons sym syms ih =>
    have hcons : moveEntries [i] (sym :: syms) =
        (if sym.address ≠ i then [withAddress sym (closed [i] sym.address)] else []) ++
          moveEntries [i] syms := by
      rw [moveEntries, List.filter_cons]
      change (if decide (sym.address ∉ [i]) = true then _ else _ : List DbgSym).map _ = _
      by_cases h : sym.address = i
      · simp [h, moveEntries]
      · simp [h, moveEntries]
        rfl
    rw [removeSymbols, ih, hcons, closed_singleton]
    by_cases hlow : sym.address < i
    · rw [if_pos hlow, if_pos (Nat.ne_of_lt hlow), if_neg (by omega)]
      rfl
    · rw [if_neg hlow]
      by_cases hat : sym.address = i
      · rw [if_pos (by omega), if_neg (not_not.mpr hat), List.nil_append]
      · rw [if_neg (by omega), if_pos hat, if_pos (by omega)]
        rfl

/-- Where the words of a bin are when one is removed. -/
theorem getElem?_remove (ws : List Word) {p : ℕ} (hp : p ≠ i) (hi : i < ws.length) :
    (ws.take i ++ ws.drop (i + 1))[closed [i] p]? = ws[p]? := by
  rw [closed_singleton]
  exact Weave.getElem?_remove hi (by omega)

/-- The adjustments of a bin before the walk of a removal. -/
theorem remove_adjustment (ls : ListSort) (b : LdBin) (i : ℕ) :
    (b.remove ls i 1).tables .adjustment =
      (ls.up (b.tables .adjustment)).filter (address · ∉ [i]) := by
  change binInfoRemove ls true i 1 (b.tables .adjustment) = _
  rw [binInfoRemove_eq, lowered_true, List.map_id]
  exact List.filter_congr fun e _ => kept_one i e.address

/-- An adjustment that names the bin, or that lies before the word. -/
theorem lowerRemoved_one {e : LconvEntry} {name : Bstring}
    (h : biseq e.bin name = true ∨ e.address < i) :
    lowerRemoved name i 1 e = withAddress e (closed [i] e.address) := by
  rw [lowerRemoved, closed_singleton]
  change (if _ then _ else e) = (⟨e.label, e.bin, if i + 1 ≤ e.address then _ else _⟩ : LconvEntry)
  by_cases hbehind : i + 1 ≤ e.address
  · rw [if_pos ⟨hbehind, h.resolve_right (by omega)⟩, if_pos hbehind]
  · rw [if_neg fun h' => hbehind h'.1, if_neg hbehind]

/-- A word of an adjustment that names the bin, or that refers to nothing behind the word. -/
theorem repointRemoved_one {e : LconvEntry} {name : Bstring} {w : Word}
    (h : biseq e.bin name = true ∨ w.toNat ≤ i) :
    repointRemoved name i 1 e w = (e, lowerWord i w) := by
  have hlower : lowerWord i w = if i + 1 ≤ w.toNat then BitVec.ofNat 16 (w.toNat - 1) else w := by
    rw [lowerWord, closed_singleton]
    split
    · rfl
    · rw [BitVec.ofNat_toNat, BitVec.setWidth_eq]
  rw [repointRemoved, hlower]
  by_cases hw : i + 1 ≤ w.toNat
  · rw [if_pos ⟨hw, h.resolve_right (by omega)⟩, if_pos hw]
  · rw [if_neg fun h' => hw h'.1, if_neg hw]

/-- **A word is removed from a bin that is alone**: nothing goes wrong, and everything else
moves up. -/
theorem binRemove_lost (ls : ListSort) {bin : BinPtr} {h : Heap}
    (hnd : (((h bin).tables .adjustment).map LconvEntry.address).Nodup)
    (hb : AdjustmentsFollow (h bin) i) (hi : i < (h bin).words.length)
    (hfree : (h bin).adjustedAt i = false) :
    ∃ h', binRemove ls [bin] bin i 1 h = .ok h' ∧ Lost (h bin) i (h' bin) := by
  set b := h bin with hbdef
  set b₁ := b.remove ls i 1 with hb₁
  set es := (b₁.tables .adjustment).map (lowerRemoved b.name i 1) with hes
  have hne : ∀ e ∈ b.tables .adjustment, e.address ≠ i := fun e he heq => by
    rw [adjustedAt_iff.mpr ⟨e, he, heq⟩] at hfree
    cases hfree
  -- the entries before the walk
  have hentries : es.Perm (moveEntries [i] (b.tables .adjustment)) := by
    refine List.Perm.trans (List.Perm.of_eq ?_) (moveEntries_perm (ls.up_perm _))
    rw [hes, hb₁, remove_adjustment, moveEntries]
    refine List.map_congr_left fun e he => lowerRemoved_one ?_
    exact (hb.named e ((ls.up_perm _).mem_iff.mp (List.mem_filter.mp he).1)).imp_right And.left
  have hmem : ∀ e', e' ∈ es ↔ ∃ e ∈ b.tables .adjustment,
      e' = ⟨e.label, e.bin, closed [i] e.address⟩ := fun e' => by
    rw [hentries.mem_iff, mem_moveEntries]
    constructor
    · rintro ⟨e, he, -, rfl⟩
      exact ⟨e, he, rfl⟩
    · rintro ⟨e, he, rfl⟩
      exact ⟨e, he, fun h => hne e he (List.mem_singleton.mp h), rfl⟩
  have hlength : b₁.words.length + 1 = b.words.length := length_remove ls (by omega)
  have hinj : ∀ {p q}, p ≠ i → q ≠ i → closed [i] p = closed [i] q → p = q := fun hp hq =>
    closed_inj (List.nodup_singleton i) (by simpa using hp) (by simpa using hq)
  have hnodup : (es.map LconvEntry.address).Nodup := by
    have haddress : (moveEntries [i] (b.tables .adjustment)).map LconvEntry.address =
        (((b.tables .adjustment).filter (address · ∉ [i])).map LconvEntry.address).map
          (closed [i]) := by
      rw [moveEntries, List.map_map, List.map_map]
      rfl
    rw [(hentries.map _).nodup_iff, haddress]
    refine List.Nodup.map_on (fun p hp q hq => ?_) (hnd.sublist (List.filter_sublist.map _))
    obtain ⟨e, he, rfl⟩ := List.mem_map.mp hp
    obtain ⟨e', he', rfl⟩ := List.mem_map.mp hq
    exact hinj (hne e (List.mem_filter.mp he).1) (hne e' (List.mem_filter.mp he').1)
  have hlt : ∀ e ∈ es, e.address < b₁.words.length := fun e' he' => by
    obtain ⟨e, he, rfl⟩ := (hmem e').mp he'
    have h1 := hb.lt e he
    have h2 := hne e he
    change closed [i] e.address < _
    rw [closed_singleton]
    split <;> omega
  obtain ⟨words, hok, hlen, hset, hother⟩ := adjust_ok
    (repointRemoved b.name i 1) .bug191Workaround b₁.words hnodup hlt
  have hget : ∀ {p}, p ≠ i → b₁.words[closed [i] p]? = b.words[p]? := fun hp =>
    getElem?_remove b.words hp hi
  have hsame : (es.map fun e => (repointRemoved b.name i 1 e (b₁.words.getD e.address 0)).1) = es :=
    (List.map_congr_left fun e _ => repointRemoved_fst ..).trans (List.map_id _)
  rw [hsame] at hok
  have hwalk : b₁.adjust (lowerRemoved b.name i 1) (repointRemoved b.name i 1) .bug191Workaround =
      .ok (b₁.setAdjusted (es, words)) := by
    rw [LdBin.adjust, adjust_map_pre, ← hes, hok]
    rfl
  refine ⟨Function.update (Function.update h bin b₁) bin (b₁.setAdjusted (es, words)), ?_, ?_⟩
  · rw [binRemove, if_neg (Nat.not_lt.mpr (Nat.succ_le_of_lt hi)), ← hbdef, ← hb₁]
    simp only [adjustBins, Function.update_self]
    change (b₁.adjust (lowerRemoved b.name i 1) (repointRemoved b.name i 1) .bug191Workaround >>=
      _) = _
    rw [hwalk]
    rfl
  · rw [Function.update_self]
    refine ⟨rfl, by rw [LdBin.setAdjusted_words, hlen, hlength], fun p hp => ?_, fun t ht => ?_, ?_⟩
    · rw [LdBin.setAdjusted_words]
      by_cases hadjusted : b.adjustedAt p = true
      · obtain ⟨e, he, rfl⟩ := adjustedAt_iff.mp hadjusted
        have he' := (hmem _).mpr ⟨e, he, rfl⟩
        have hword : b₁.words.getD (closed [i] e.address) 0 = b.word e.address := by
          rw [List.getD_eq_getElem?_getD, hget hp, ← List.getD_eq_getElem?_getD, LdBin.word]
        have hnamed :
            biseq (⟨e.label, e.bin, closed [i] e.address⟩ : LconvEntry).bin b.name = true ∨
              (b.word e.address).toNat ≤ i := (hb.named e he).imp_right And.right
        rw [hset _ he', hword, repointRemoved_one hnamed, getElem?_word (hb.lt e he),
          Option.map_some, if_pos hadjusted]
      · rw [hother, hget hp]
        · rw [Bool.not_eq_true] at hadjusted
          simp [hadjusted]
        · intro e' he' heq
          obtain ⟨e, he, rfl⟩ := (hmem e').mp he'
          exact hadjusted (adjustedAt_iff.mpr ⟨e, he, hinj (hne e he) hp heq⟩)
    · by_cases hadjustment : t = .adjustment
      · subst hadjustment
        exact hentries
      · rw [LdBin.setAdjusted_tables hadjustment, hb₁, LdBin.remove]
        dsimp only
        rw [if_neg ht, decide_eq_false hadjustment]
        exact binInfoRemove_one ls _
    · change (removeSymbols i 1 (ls.up b.symbols)).Perm _
      rw [removeSymbols_one]
      exact moveEntries_perm (ls.up_perm _)

/-- **What a removal leaves of the adjustments**, whatever they are. -/
theorem binRemove_adjustment {ls : ListSort} {bin : BinPtr} {h h' : Heap}
    (hremove : binRemove ls [bin] bin i 1 h = .ok h') :
    (h' bin).tables .adjustment = ((ls.up ((h bin).tables .adjustment)).filter
        (address · ∉ [i])).map (lowerRemoved (h bin).name i 1) ∧
      ∀ e ∈ (h bin).tables .adjustment, e.address ≠ i →
        (lowerRemoved (h bin).name i 1 e).address + 1 < (h bin).words.length := by
  obtain ⟨hoffset, -, -⟩ := binRemove_repointed hremove
  have hwalk := binRemove_walk hremove (List.nodup_singleton bin) (List.mem_singleton_self bin)
  obtain ⟨hentries, hlt, -⟩ := LdBin.adjust_entries (repointRemoved_fst _ _ _) hwalk
  rw [remove_adjustment] at hentries hlt
  refine ⟨hentries, fun e he hne => ?_⟩
  have hlt' := hlt e (List.mem_filter.mpr ⟨(ls.up_perm _).mem_iff.mpr he,
    decide_eq_true fun hmem => hne (List.mem_singleton.mp hmem)⟩)
  have := length_remove ls hoffset
  omega

/-- **What a removal leaves of the words**, whatever the adjustments are. -/
theorem binRemove_words {ls : ListSort} {bin : BinPtr} {h h' : Heap}
    (hremove : binRemove ls [bin] bin i 1 h = .ok h') {p : ℕ} (hp : p ≠ i)
    (hfree : (h bin).repointedAt p = false) :
    (h' bin).words[closed [i] p]? = (h bin).words[p]? := by
  obtain ⟨hoffset, -, -⟩ := binRemove_repointed hremove
  have hwalk := binRemove_walk hremove (List.nodup_singleton bin) (List.mem_singleton_self bin)
  obtain ⟨-, -, hwords⟩ := LdBin.adjust_entries (repointRemoved_fst _ _ _) hwalk
  refine (hwords _ fun e he hat w => ?_).trans (getElem?_remove _ hp hoffset)
  rw [remove_adjustment, List.mem_filter, (ls.up_perm _).mem_iff] at he
  by_cases hnames : biseq e.bin (h bin).name = true
  · -- an adjustment that names the bin is one of another word
    exfalso
    rw [lowerRemoved_one (.inl hnames)] at hat
    have hne : e.address ∉ [i] := of_decide_eq_true he.2
    have heq := closed_inj (List.nodup_singleton i) hne (by simpa using hp) hat
    rw [repointedAt_iff.mpr ⟨e, he.1, heq, hnames⟩] at hfree
    cases hfree
  · rw [repointRemoved, if_neg fun h' => hnames ?_]
    rw [lowerRemoved, if_neg fun h' => hnames h'.2] at h'
    exact h'.2

/-- The adjustments that name the bin are moved. -/
theorem binRemove_repointedAt {ls : ListSort} {bin : BinPtr} {h h' : Heap}
    (hremove : binRemove ls [bin] bin i 1 h = .ok h') {p : ℕ} (hp : p ≠ i) :
    (h' bin).repointedAt (closed [i] p) = (h bin).repointedAt p := by
  have hname : (h' bin).name = (h bin).name := (binRemove_repointed hremove).2.1.name
  rw [Bool.eq_iff_iff, repointedAt_iff, repointedAt_iff, (binRemove_adjustment hremove).1, hname]
  simp only [List.mem_map, List.mem_filter, (ls.up_perm _).mem_iff, decide_eq_true_eq]
  have hp' : p ∉ [i] := by simpa using hp
  constructor
  · rintro ⟨_, ⟨e, ⟨he, hne⟩, rfl⟩, hat, hnames⟩
    have hnames' : biseq e.bin (h bin).name = true := by
      rw [lowerRemoved] at hnames
      split at hnames
      · exact hnames
      · exact hnames
    rw [lowerRemoved_one (.inl hnames')] at hat
    exact ⟨e, he, closed_inj (List.nodup_singleton i) hne hp' hat, hnames'⟩
  · rintro ⟨e, he, rfl, hnames⟩
    refine ⟨_, ⟨e, ⟨he, hp'⟩, rfl⟩, ?_⟩
    rw [lowerRemoved_one (.inl hnames)]
    exact ⟨rfl, hnames⟩

end Lost

/-! ### Short forms -/

/-- An instruction with the short literal of a value. -/
def shortForm (inst value : Word) : Word :=
  instructionCreate (instructionGetOp inst) (instructionGetB inst) ((shortLiteral value).getD 0)

/-- A word when the literals at some positions are gone: the instruction before such a literal has
its short form, and an adjusted word is the address that its own has become. -/
def squeezedWord (b : LdBin) (R : List ℕ) (p : ℕ) : Word :=
  if p + 1 ∈ R then shortForm (b.word p) (b.word (p + 1))
  else if b.adjustedAt p then BitVec.ofNat 16 (closed R (b.word p).toNat)
  else b.word p

/-- **A bin without the words at some positions**: the others in their order, with what refers
to them. -/
structure Squeezed (b : LdBin) (R : List ℕ) (b' : LdBin) : Prop where
  name : b'.name = b.name
  words : b'.words = (stays R b.words.length).map (squeezedWord b R)
  tables : ∀ t, t ≠ .section → (b'.tables t).Perm (moveEntries R (b.tables t))
  symbols : b'.symbols.Perm (moveEntries R b.symbols)

section Short

variable {value : Word} {store : ℕ}

theorem shortLiteral_lt (h : shortLiteral value = some store) : 0x20 ≤ store ∧ store < 0x40 := by
  rw [shortLiteral] at h
  split at h
  · cases h
    omega
  · split at h
    · cases h
      omega
    · cases h

/-- **The short form of an instruction**: it has the opcode and the other operand, and for `a` the
literal of the value. -/
theorem shortForm_fields (inst : Word) (h : (shortLiteral value).isSome) :
    instructionGetOp (shortForm inst value) = instructionGetOp inst ∧
      instructionGetB (shortForm inst value) = instructionGetB inst ∧
      0x20 ≤ instructionGetA (shortForm inst value) ∧
      BitVec.ofNat 16 (instructionGetA (shortForm inst value)) - 0x21 = value := by
  obtain ⟨store, hstore⟩ := Option.isSome_iff_exists.mp h
  obtain ⟨hlow, hhigh⟩ := shortLiteral_lt hstore
  obtain ⟨hop, hb, ha⟩ := instructionCreate_fields (instructionGetOp_lt inst)
    (instructionGetB_lt inst) hhigh
  rw [shortForm, hstore, Option.getD_some, hop, hb, ha]
  refine ⟨rfl, rfl, hlow, ?_⟩
  rw [shortLiteral] at hstore
  split at hstore
  · cases hstore
    rename_i hvalue
    rw [hvalue]
    rfl
  · split at hstore
    · cases hstore
      rw [BitVec.ofNat_add, BitVec.ofNat_toNat, BitVec.setWidth_eq]
      exact BitVec.add_sub_cancel value 0x21
    · cases hstore

/-- A value that can be short is no instruction with a literal. -/
theorem getA_of_short (inst : Word) (h : (shortLiteral value).isSome) :
    instructionGetA value ≠ 0x1F ∧ shortForm inst value ≠ value := by
  obtain ⟨-, -, hlow, hvalue⟩ := shortForm_fields inst h
  have hcases : value = 0xFFFF ∨ value.toNat ≤ 0x1E := by
    rw [shortLiteral] at h
    split at h
    · exact .inl ‹_›
    · split at h
      · exact .inr ‹_›
      · cases h
  rcases hcases with rfl | hsmall
  · refine ⟨by decide, fun heq => ?_⟩
    rw [heq] at hvalue
    exact absurd hvalue (by decide)
  · have hzero : instructionGetA value = 0 := by
      rw [instructionGetA_eq]
      omega
    refine ⟨by omega, fun heq => ?_⟩
    rw [heq] at hlow
    omega

end Short

/-! ### One literal after the other -/

section Squeeze

variable {b b' b₀ b₁ : LdBin} {R : List ℕ} {p q r : ℕ}

/-- A bin without the words at some positions, said of one position after the other. -/
structure SqueezedAt (b : LdBin) (R : List ℕ) (b' : LdBin) : Prop where
  name : b'.name = b.name
  length : b'.words.length = closed R b.words.length
  words : ∀ q < b.words.length, q ∉ R → b'.words[closed R q]? = some (squeezedWord b R q)
  tables : ∀ t, t ≠ .section → (b'.tables t).Perm (moveEntries R (b.tables t))
  symbols : b'.symbols.Perm (moveEntries R b.symbols)

theorem Squeezed.at (h : Squeezed b R b') (hR : R.Nodup) : SqueezedAt b R b' where
  name := h.name
  length := by rw [h.words, List.length_map, length_stays hR]
  words q hq hqR := by rw [h.words, List.getElem?_map, getElem?_stays hR hq hqR, Option.map_some]
  tables := h.tables
  symbols := h.symbols

theorem SqueezedAt.squeezed (h : SqueezedAt b R b') (hR : R.Nodup) : Squeezed b R b' where
  name := h.name
  words := eq_map_stays hR h.length h.words
  tables := h.tables
  symbols := h.symbols

theorem squeezed_nil (b : LdBin) : Squeezed b [] b where
  name := rfl
  words := by
    refine eq_map_stays List.nodup_nil closed_nil.symm fun p hp _ => ?_
    rw [closed_nil, getElem?_word hp, squeezedWord, if_neg List.not_mem_nil, closed_nil,
      BitVec.ofNat_toNat, BitVec.setWidth_eq, ite_self]
  tables t _ := by rw [moveEntries_nil]
  symbols := by rw [moveEntries_nil]

theorem Squeezed.length (h : Squeezed b R b') (hR : R.Nodup) :
    b'.words.length = closed R b.words.length := (h.at hR).length

theorem Squeezed.getElem? (h : Squeezed b R b') (hR : R.Nodup) (hp : p < b.words.length)
    (hpR : p ∉ R) : b'.words[closed R p]? = some (squeezedWord b R p) :=
  (h.at hR).words p hp hpR

/-- A position that stays is marked as it was. -/
theorem SqueezedAt.any (h : SqueezedAt b R b') (hR : R.Nodup) (hq : q ∉ R) {t : Table}
    (ht : t ≠ .section) :
    (b'.tables t).any (·.address = closed R q) = (b.tables t).any (·.address = q) := by
  rw [Bool.eq_iff_iff, List.any_eq_true, List.any_eq_true]
  simp only [decide_eq_true_eq]
  constructor
  · rintro ⟨e', he', haddress⟩
    obtain ⟨e, he, hstays, rfl⟩ := mem_moveEntries.mp ((h.tables t ht).mem_iff.mp he')
    exact ⟨e, he, closed_inj hR hstays hq haddress⟩
  · rintro ⟨e, he, rfl⟩
    exact ⟨_, (h.tables t ht).mem_iff.mpr (mem_moveEntries.mpr ⟨e, he, hq, rfl⟩), rfl⟩

theorem SqueezedAt.adjustedAt (h : SqueezedAt b R b') (hR : R.Nodup) (hq : q ∉ R) :
    b'.adjustedAt (closed R q) = b.adjustedAt q := h.any hR hq (by decide)

theorem SqueezedAt.fixedAt (h : SqueezedAt b R b') (hR : R.Nodup) (hq : q ∉ R) :
    b'.fixedAt (closed R q) = b.fixedAt q := by
  simp only [LdBin.fixedAt, List.any_cons, List.any_nil]
  rw [h.any hR hq (by decide), h.any hR hq (by decide), h.any hR hq (by decide)]

theorem adjustedAt_of_fixedAt (h : b.fixedAt q = false) : b.adjustedAt q = false := by
  simp only [LdBin.fixedAt, List.any_cons, List.any_nil, Bool.or_eq_false_iff] at h
  exact h.2.2.1

/-- The adjustments are those of the bin, moved. -/
theorem SqueezedAt.mem_adjustment (h : SqueezedAt b R b') {e' : LconvEntry}
    (he' : e' ∈ b'.tables .adjustment) :
    ∃ e ∈ b.tables .adjustment, e.address ∉ R ∧ e' = ⟨e.label, e.bin, closed R e.address⟩ := by
  obtain ⟨e, he, hstays, rfl⟩ :=
    mem_moveEntries.mp ((h.tables .adjustment (by decide)).mem_iff.mp he')
  exact ⟨e, he, hstays, rfl⟩

/-- Each adjusted word is listed once afterwards if it was before. -/
theorem SqueezedAt.nodup (h : SqueezedAt b R b') (hR : R.Nodup)
    (hnd : ((b.tables .adjustment).map LconvEntry.address).Nodup) :
    ((b'.tables .adjustment).map LconvEntry.address).Nodup := by
  have haddress : (moveEntries R (b.tables .adjustment)).map LconvEntry.address =
      (((b.tables .adjustment).filter (address · ∉ R)).map LconvEntry.address).map
        (closed R) := by
    rw [moveEntries, List.map_map, List.map_map]
    rfl
  rw [((h.tables .adjustment (by decide)).map _).nodup_iff, haddress]
  refine List.Nodup.map_on (fun p hp q hq => ?_) (hnd.sublist (List.filter_sublist.map _))
  obtain ⟨e, he, rfl⟩ := List.mem_map.mp hp
  obtain ⟨e', he', rfl⟩ := List.mem_map.mp hq
  exact closed_inj hR (of_decide_eq_true (List.mem_filter.mp he).2)
    (of_decide_eq_true (List.mem_filter.mp he').2)

/-- What follows from a position on follows when words from there on are gone. -/
theorem SqueezedAt.follows (h : SqueezedAt b R b') (hR : R.Nodup) (hb : AdjustmentsFollow b r)
    (hrR : ∀ x ∈ R, r ≤ x) (hshortened : ∀ k, k + 1 ∈ R → b.adjustedAt k = false) :
    AdjustmentsFollow b' r := by
  refine ⟨fun e' he' => ?_, fun e' he' => ?_⟩
  · obtain ⟨e, he, hstays, rfl⟩ := h.mem_adjustment he'
    rw [h.length]
    exact closed_lt hR hstays (hb.lt e he)
  · obtain ⟨e, he, hstays, rfl⟩ := h.mem_adjustment he'
    rw [h.name]
    refine (hb.named e he).imp_right fun hbefore => ?_
    have hword : b'.word (closed R e.address) = squeezedWord b R e.address := by
      rw [LdBin.word, List.getD_eq_getElem?_getD, h.words _ (hb.lt e he) hstays, Option.getD_some]
    have hadjusted : b.adjustedAt e.address = true := adjustedAt_iff.mpr ⟨e, he, rfl⟩
    have hnot : e.address + 1 ∉ R := fun hmem => by
      rw [hshortened _ hmem] at hadjusted
      cases hadjusted
    have hstay : closed R (b.word e.address).toNat = (b.word e.address).toNat :=
      closed_of_le fun x hx => hbefore.2.trans (hrR x hx)
    refine ⟨closed_le.trans_lt hbefore.1, ?_⟩
    rw [hword, squeezedWord, if_neg hnot, if_pos hadjusted, hstay, BitVec.ofNat_toNat,
      BitVec.setWidth_eq]
    exact hbefore.2

/-- A word that is not adjusted may be any. -/
theorem follows_setWord {i : ℕ} {w : Word} (h : AdjustmentsFollow b r)
    (hi : b.adjustedAt i = false) : AdjustmentsFollow (b.setWord i w) r := by
  refine ⟨fun e he => ?_, fun e he => (h.named e he).imp_right fun hbefore => ⟨hbefore.1, ?_⟩⟩
  · rw [LdBin.setWord, List.length_set]
    exact h.lt e he
  · have hne : i ≠ e.address := fun heq => by
      have hmark : b.adjustedAt e.address = true := adjustedAt_iff.mpr ⟨e, he, rfl⟩
      rw [← heq, hi] at hmark
      cases hmark
    have hword : (b.setWord i w).word e.address = b.word e.address := by
      rw [LdBin.word, List.getD_eq_getElem?_getD, LdBin.setWord, List.getElem?_set_ne hne,
        ← List.getD_eq_getElem?_getD, LdBin.word]
    rw [hword]
    exact hbefore.2

/-- **One more literal is gone**, and its instruction has the short form. -/
theorem SqueezedAt.step {short : Word} (h : SqueezedAt b R b₀) (hR : R.Nodup) (hp : p ∉ R)
    (hq : p + 1 ∉ R) (hlt : p + 1 < b.words.length) (hunadjusted : b.adjustedAt p = false)
    (hshort : short = shortForm (b.word p) (b.word (p + 1)))
    (hshortened : ∀ k, k + 1 ∈ R → b.adjustedAt k = false)
    (hlost : Lost (b₀.setWord (closed R p) short) (closed R (p + 1)) b₁) :
    SqueezedAt b ((p + 1) :: R) b₁ := by
  have hclosed : ∀ k, closed [closed R (p + 1)] (closed R k) = closed ((p + 1) :: R) k :=
    fun k => by rw [closed_singleton, closed_cons hR hq]
  refine ⟨hlost.name.trans h.name, ?_, fun k hk hkR => ?_, fun t ht => ?_, ?_⟩
  · have hlength := hlost.length
    rw [LdBin.setWord, List.length_set, h.length] at hlength
    have := closed_lt hR hq hlt
    rw [closed_cons hR hq, if_pos (by omega)]
    omega
  · rw [List.mem_cons, not_or] at hkR
    have hne : closed R k ≠ closed R (p + 1) := fun heq => hkR.1 (closed_inj hR hkR.2 hq heq)
    have hword := hlost.words _ hne
    rw [hclosed] at hword
    rw [hword, LdBin.setWord]
    change ((b₀.words.set _ _)[closed R k]?).map
      (fun w => if b₀.adjustedAt (closed R k) then _ else w) = _
    rw [h.adjustedAt hR hkR.2]
    by_cases hkp : k = p
    · subst hkp
      rw [List.getElem?_set_self (by rw [h.length]; exact closed_lt hR hkR.2 hk),
        Option.map_some, hunadjusted, squeezedWord, if_pos List.mem_cons_self, hshort]
      rfl
    · have hkp' : closed R p ≠ closed R k := fun heq => hkp (closed_inj hR hp hkR.2 heq).symm
      rw [List.getElem?_set_ne hkp', h.words k hk hkR.2, Option.map_some]
      refine congrArg some ?_
      rw [squeezedWord, squeezedWord]
      by_cases hshort : k + 1 ∈ R
      · rw [if_pos hshort, if_pos (List.mem_cons_of_mem _ hshort), hshortened k hshort]
        rfl
      · have hshort' : k + 1 ∉ (p + 1) :: R := by
          rw [List.mem_cons, not_or]
          exact ⟨by omega, hshort⟩
        rw [if_neg hshort, if_neg hshort']
        split
        · rw [lowerWord, BitVec.toNat_ofNat, Nat.mod_eq_of_lt
            ((closed_le).trans_lt (b.word k).isLt), hclosed]
        · rfl
  · refine (hlost.tables t ht).trans ?_
    rw [← moveEntries_cons hR hq]
    exact moveEntries_perm (h.tables t ht)
  · refine hlost.symbols.trans ?_
    rw [← moveEntries_cons hR hq]
    exact moveEntries_perm h.symbols

/-- The word of an instruction is written and its next word removed. -/
theorem SqueezedAt.remove {bin : BinPtr} {heap : Heap} (ls : ListSort) {short : Word}
    (h : SqueezedAt b R (heap bin)) (hR : R.Nodup)
    (hnd : ((b.tables .adjustment).map LconvEntry.address).Nodup) (hb : AdjustmentsFollow b r)
    (hrR : ∀ x ∈ R, r ≤ x) (hrp : r ≤ p + 1)
    (hp : p ∉ R) (hq : p + 1 ∉ R) (hlt : p + 1 < b.words.length)
    (hnext : b.adjustedAt (p + 1) = false) (hunadjusted : b.adjustedAt p = false)
    (hshort : short = shortForm (b.word p) (b.word (p + 1)))
    (hshortened : ∀ k, k + 1 ∈ R → b.adjustedAt k = false) :
    ∃ heap', binRemove ls [bin] bin (closed R (p + 1)) 1
        (Function.update heap bin ((heap bin).setWord (closed R p) short)) = .ok heap' ∧
      SqueezedAt b ((p + 1) :: R) (heap' bin) := by
  set heap₁ := Function.update heap bin ((heap bin).setWord (closed R p) short) with hheap₁
  have hbin : heap₁ bin = (heap bin).setWord (closed R p) short := Function.update_self ..
  have hrq : r ≤ closed R (p + 1) := by
    rw [← closed_of_le hrR]
    exact closed_mono hR hrp
  have hfollows : AdjustmentsFollow (heap₁ bin) (closed R (p + 1)) := by
    rw [hbin]
    exact follows_setWord ((h.follows hR hb hrR hshortened).mono hrq)
      ((h.adjustedAt hR hp).trans hunadjusted)
  obtain ⟨heap', hremove, hlost⟩ := binRemove_lost (i := closed R (p + 1)) ls
    (by
      rw [hbin]
      exact h.nodup hR hnd) hfollows
    (by
      rw [hbin, LdBin.setWord, List.length_set, h.length]
      exact closed_lt hR hq hlt)
    (by
      rw [hbin]
      exact (h.adjustedAt hR hq).trans hnext)
  rw [hbin] at hlost
  exact ⟨heap', hremove, h.step hR hp hq hlt hunadjusted hshort hshortened hlost⟩

/-- In its short form an instruction has another operand. -/
theorem getA_squeezedWord (ha : instructionGetA (b.word q) = 0x1F)
    (hfree : b.adjustedAt q = false) (hshort : (shortLiteral (b.word (q + 1))).isSome) :
    instructionGetA (squeezedWord b R q) = 0x1F ↔ q + 1 ∉ R := by
  rw [squeezedWord]
  by_cases h : q + 1 ∈ R
  · obtain ⟨-, -, hlow, -⟩ := shortForm_fields (b.word q) hshort
    rw [if_pos h]
    exact ⟨fun heq => by omega, fun hnot => absurd h hnot⟩
  · rw [if_neg h, hfree, if_neg Bool.false_ne_true]
    exact ⟨fun _ => h, fun _ => ha⟩

/-! ### One word after the other -/

/-- A word when the words at some positions are gone, with the short form of the word before each
of them. -/
def cutWord (b : LdBin) (A : List ℕ) (p : ℕ) : Word :=
  if p + 1 ∈ A then shortForm (b.word p) (b.word (p + 1)) else b.word p

/-- **A bin from which words were taken**, whatever its adjustments are: the others are where they
belong, and so are the adjustments that name the bin; the words of these may be any. -/
structure WordsCut (b : LdBin) (A : List ℕ) (b' : LdBin) : Prop where
  name : b'.name = b.name
  length : b'.words.length = closed A b.words.length
  words : ∀ q < b.words.length, q ∉ A → b.repointedAt q = false →
    b'.words[closed A q]? = some (cutWord b A q)
  repointedAt : ∀ q, q ∉ A → b'.repointedAt (closed A q) = b.repointedAt q

/-- A bin that has lost literals only, if its adjustments follow. -/
theorem Squeezed.cut (h : Squeezed b R b') (hR : R.Nodup)
    (hfollows : R = [] ∨ AdjustmentsFollow b r) (hrR : ∀ x ∈ R, r ≤ x)
    (hshortened : ∀ k, k + 1 ∈ R → b.adjustedAt k = false) :
    WordsCut b R b' := by
  refine ⟨h.name, h.length hR, fun q hq hqR hfree => ?_, fun q hqR => ?_⟩
  · rw [h.getElem? hR hq hqR, squeezedWord, cutWord]
    split
    · rfl
    · split
      · rename_i hadjusted
        obtain ⟨e, he, rfl⟩ := adjustedAt_iff.mp hadjusted
        have hstay : closed R (b.word e.address).toNat = (b.word e.address).toNat := by
          rcases hfollows with rfl | hfollows
          · exact closed_nil
          · refine closed_of_le fun x hx => le_trans ?_ (hrR x hx)
            rcases hfollows.named e he with hnames | hbefore
            · rw [repointedAt_iff.mpr ⟨e, he, rfl, hnames⟩] at hfree
              cases hfree
            · exact hbefore.2
        rw [hstay, BitVec.ofNat_toNat, BitVec.setWidth_eq]
      · rfl
  · rw [Bool.eq_iff_iff, repointedAt_iff, repointedAt_iff, h.name]
    constructor
    · rintro ⟨e', he', haddress, hnames⟩
      obtain ⟨e, he, hstays, rfl⟩ :=
        mem_moveEntries.mp ((h.tables .adjustment (by decide)).mem_iff.mp he')
      exact ⟨e, he, closed_inj hR hstays hqR haddress, hnames⟩
    · rintro ⟨e, he, rfl, hnames⟩
      exact ⟨_, (h.tables .adjustment (by decide)).mem_iff.mpr
        (mem_moveEntries.mpr ⟨e, he, hqR, rfl⟩), rfl, hnames⟩

/-- **One more word is gone**, whatever it was. -/
theorem WordsCut.remove {bin : BinPtr} {heap heap' : Heap} {ls : ListSort} {A : List ℕ}
    {short : Word} (h : WordsCut b A (heap bin)) (hA : A.Nodup) (hp : p ∉ A) (hq : p + 1 ∉ A)
    (hlt : p + 1 < b.words.length)
    (hshort : b.repointedAt p = false → short = shortForm (b.word p) (b.word (p + 1)))
    (hremove : binRemove ls [bin] bin (closed A (p + 1)) 1
      (Function.update heap bin ((heap bin).setWord (closed A p) short)) = .ok heap') :
    WordsCut b ((p + 1) :: A) (heap' bin) := by
  set heap₁ := Function.update heap bin ((heap bin).setWord (closed A p) short) with hheap₁
  have hbin : heap₁ bin = (heap bin).setWord (closed A p) short := Function.update_self ..
  have hclosed : ∀ k, closed [closed A (p + 1)] (closed A k) = closed ((p + 1) :: A) k :=
    fun k => by rw [closed_singleton, closed_cons hA hq]
  have hmarks : ∀ k ∉ A, (heap₁ bin).repointedAt (closed A k) = b.repointedAt k := fun k hk => by
    rw [hbin]
    exact h.repointedAt k hk
  have hne : ∀ k ∉ (p + 1) :: A, k ∉ A ∧ closed A k ≠ closed A (p + 1) := fun k hk => by
    rw [List.mem_cons, not_or] at hk
    exact ⟨hk.2, fun heq => hk.1 (closed_inj hA hk.2 hq heq)⟩
  obtain ⟨hoffset, hrepointed, -⟩ := binRemove_repointed hremove
  refine ⟨?_, ?_, fun k hk hkA hfree => ?_, fun k hkA => ?_⟩
  · rw [hrepointed.name]
    change (heap₁ bin).name = _
    rw [hbin]
    exact h.name
  · have hlength := length_remove ls hoffset
    rw [← hrepointed.length, hbin, LdBin.setWord, List.length_set, h.length] at hlength
    have := closed_lt hA hq hlt
    rw [closed_cons hA hq, if_pos (by omega)]
    omega
  · obtain ⟨hkA', hne'⟩ := hne k hkA
    rw [← hclosed, binRemove_words hremove hne' ((hmarks k hkA').trans hfree), hbin, LdBin.setWord,
      cutWord]
    by_cases hkp : k = p
    · subst hkp
      rw [List.getElem?_set_self (by rw [h.length]; exact closed_lt hA hkA' hk),
        if_pos List.mem_cons_self, hshort hfree]
    · have hkp' : closed A p ≠ closed A k := fun heq => hkp (closed_inj hA hp hkA' heq).symm
      rw [List.getElem?_set_ne hkp', h.words k hk hkA' hfree, cutWord]
      have hiff : k + 1 ∈ (p + 1) :: A ↔ k + 1 ∈ A := by
        rw [List.mem_cons, or_iff_right (by omega)]
      simp only [hiff]
  · obtain ⟨hkA', hne'⟩ := hne k hkA
    rw [← hclosed, binRemove_repointedAt hremove hne', hmarks k hkA']

end Squeeze

end DcpuToolchain
