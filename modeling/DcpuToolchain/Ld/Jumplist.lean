import DcpuToolchain.Ld.Compress
import DcpuToolchain.Ld.Directives
import DcpuToolchain.Ld.Resolve
import DcpuToolchain.Ld.Sectionize

/-!
# Linking against a jumplist

The entries of a jumplist are absolute addresses of a kernel. `bins_load_jumplist` makes a bin of
them, without a word, that is loaded before the files, and from then on they are entries like
any others: they lie behind all the words of the linked bin, so whatever is inserted there takes
them along, and what is removed brings them back only as far (`DcpuToolchain.Displaced`).

Nothing ever stops that. An entry has the address it had in the jumplist exactly as long as the
linked bin has no words (`DcpuToolchain.jumpsKept_iff`).
-/

namespace DcpuToolchain

open Marks

/-! ### The code and what it is for -/

/-- The name `bins_load_jumplist` gives its bin. -/
def jumplistName : Bstring := "<jumplist>".toList

/-- The bin that `bins_load_jumplist` adds for the entries of a jumplist. -/
def jumplistBin (jump : List LconvEntry) : LdBin where
  name := jumplistName
  words := []
  tables t := if t = .jump then jump else []
  symbols := []

/-- The bins when `bins_flatten` begins, linking files against a jumplist. -/
def sectionizeJumplist (ls : ListSort) (jump : List LconvEntry) (files : List LdBin) :
    Except LdError LdBins :=
  binsSectionize ls (binsAssociate (binsLoad (jumplistBin jump :: files)))

/-- **A jump entry is found at the address of the jumplist** by whoever looks up its label: the
generator of a jump, or `bins_resolve` at an import. -/
def KeepsJumps (jump : List LconvEntry) (b : LdBin) : Prop :=
  ∀ e ∈ jump, ∃ e', seek (b.tables .jump) e.label = some e' ∧ e'.address = e.address

/-- The addresses are kept while `bins_resolve_kernel` generates one call after the other, and
when it is done. -/
def JumpsKept (ls : ListSort) (policies : Policies) (jump : List LconvEntry) (s : LdBins) : Prop :=
  ∀ n heap, resolveCalls ls policies (s.bins.headD 0) s.next (List.range n) s.heap = .ok heap →
    KeepsJumps jump (heap (s.bins.headD 0))

/-- Whether a bin is one of a file. -/
def LdBin.isFile (b : LdBin) : Bool := b.name.take 8 ≠ sectionPrefix

/-- Nothing is there to be linked: no file bin has a word or a call left, and neither has any
section that a file bin puts out. -/
structure NothingToLink (s : LdBins) : Prop where
  files : ∀ p ∈ s.bins, (s.heap p).isFile →
    (s.heap p).words = [] ∧ (s.heap p).tables .call = []
  sections : ∀ p ∈ s.bins, (s.heap p).isFile → ∀ e ∈ (s.heap p).tables .output, ∀ q,
    binSeek s.heap s.bins (sectionName e.label) = some q →
      (s.heap q).words = [] ∧ (s.heap q).tables .call = []

/-! ### Where an entry goes -/

/-- Where the entry of an address may be in a bin that has `n` words and never had more than
`m`: behind them by as much as it was, or below where it was, if it went past the last
address. -/
def Displaced (m n a a' : ℕ) : Prop := a' = a + n ∨ a' + 0x10000 ≤ a + m

theorem Displaced.ne {m n a a' : ℕ} (h : Displaced m n a a') (hn : 0 < n) (hm : m < 0x10000) :
    a' ≠ a := by
  rcases h with h | h <;> omega

theorem Displaced.eq {a a' : ℕ} (h : Displaced 0 0 a a') (ha : a < 0x10000) : a' = a := by
  rcases h with h | h <;> omega

/-- An insertion anywhere in the bin shifts the entry up. -/
theorem Displaced.shiftUp {m n a at' count : ℕ} {e : LconvEntry} (h : Displaced m n a e.address)
    (hmn : m = n) (ha : a < 0x10000) (hat : at' ≤ n) (hfit : n + count < 0x10000) :
    Displaced (m + count) (n + count) a (shiftUp at' count e).address := by
  subst hmn
  have haddress : (DcpuToolchain.shiftUp at' count e).address =
      if at' ≤ e.address then u16 (e.address + count) else e.address := by
    rw [DcpuToolchain.shiftUp]
    change (if at' ≤ e.address then _ else _ : LconvEntry).address = _
    split <;> rfl
  rw [haddress, u16]
  rcases h with h | h
  · rw [h, if_pos (by omega)]
    by_cases hwrap : a + m + count < 0x10000
    · exact .inl (by omega)
    · exact .inr (by omega)
  · right
    split <;> omega

/-- A removal in the bin lowers it. -/
theorem Displaced.lowered {m n a offset : ℕ} {e : LconvEntry} (h : Displaced m n a e.address)
    (hoffset : offset + 1 ≤ n) : Displaced m (n - 1) a (lowered false offset 1 e).address := by
  have haddress : (DcpuToolchain.lowered false offset 1 e).address =
      if offset + 1 ≤ e.address then e.address - 1 else e.address := by
    rw [DcpuToolchain.lowered]
    split <;> split <;> first | rfl | omega | simp_all
  rw [haddress]
  rcases h with h | h
  · left
    rw [if_pos (by omega)]
    omega
  · right
    split <;> omega

/-! ### One bin -/

section Bin

variable {jump : List LconvEntry} {m : ℕ} {b b' src : LdBin} {iterated : Bool}
  {atPos offset count : ℕ}

/-- The entries of the jumplist are where they may be. -/
def Displaces (jump : List LconvEntry) (m : ℕ) (b : LdBin) : Prop :=
  ∀ e' ∈ b.tables .jump, ∀ e ∈ jump, e'.label = e.label →
    Displaced m b.words.length e.address e'.address

/-- Every label of the jumplist has an entry. -/
def Lists (jump : List LconvEntry) (b : LdBin) : Prop :=
  ∀ e ∈ jump, ∃ e' ∈ b.tables .jump, e'.label = e.label

/-- A bin without entries for the labels of the jumplist. -/
def Apart (jump : List LconvEntry) (b : LdBin) : Prop :=
  ∀ e' ∈ b.tables .jump, ∀ e ∈ jump, e'.label ≠ e.label

theorem Displaces.repointed (h : Displaces jump m b) (hb : Repointed b b') :
    Displaces jump m b' := by
  intro e' he' e he hlabel
  rw [hb.tables _ (by decide)] at he'
  rw [hb.length]
  exact h e' he' e he hlabel

theorem Lists.repointed (h : Lists jump b) (hb : Repointed b b') : Lists jump b' := by
  rw [Lists, hb.tables _ (by decide)]
  exact h

/-- Sorting a bin, walking over it and removing words from it brings no entries. -/
theorem Apart.of_labels (h : Apart jump b)
    (hlabel : ∀ e' ∈ b'.tables .jump, ∃ e₀ ∈ b.tables .jump, e'.label = e₀.label) :
    Apart jump b' := by
  intro e' he' e he
  obtain ⟨e₀, he₀, heq⟩ := hlabel e' he'
  rw [heq]
  exact h e₀ he₀ e he

theorem Apart.repointed (h : Apart jump b) (hb : Repointed b b') : Apart jump b' :=
  h.of_labels fun e' he' => ⟨e', by rwa [hb.tables _ (by decide)] at he', rfl⟩

theorem Apart.sortTables (ls : ListSort) (h : Apart jump b) : Apart jump (b.sortTables ls) :=
  h.of_labels fun e' he' => ⟨e', (ls.up_perm _).mem_iff.mp he', rfl⟩

theorem label_lowered {isAdjustment : Bool} {e : LconvEntry} :
    (lowered isAdjustment offset count e).label = e.label := by
  rw [lowered]
  split <;> rfl

/-- The jump table of a bin from which words were removed. -/
theorem mem_jump_remove {ls : ListSort} {e' : LconvEntry}
    (h : e' ∈ (b.remove ls offset count).tables .jump) :
    ∃ e ∈ b.tables .jump, e' = lowered false offset count e := by
  change e' ∈ binInfoRemove ls false offset count (b.tables .jump) at h
  rw [binInfoRemove_eq] at h
  obtain ⟨e, he, rfl⟩ := List.mem_map.mp h
  exact ⟨e, (ls.up_perm _).mem_iff.mp (List.mem_filter.mp he).1, rfl⟩

theorem Apart.remove (ls : ListSort) (h : Apart jump b) : Apart jump (b.remove ls offset count) :=
  h.of_labels fun e' he' => by
    obtain ⟨e, he, rfl⟩ := mem_jump_remove he'
    exact ⟨e, he, label_lowered⟩

theorem label_shiftUp {e : LconvEntry} : (shiftUp atPos count e).label = e.label := by
  rw [shiftUp]
  split <;> rfl

/-- The jump table of a bin into which words were inserted. -/
theorem mem_jump_insert {e' : LconvEntry} :
    e' ∈ (b.insert iterated src atPos offset count).tables .jump ↔
      (∃ e ∈ b.tables .jump, e' = shiftUp atPos count e) ∨
      ∃ e ∈ src.tables .jump, copied src.words.length offset count e.address = true ∧
        e' = copyEntry atPos offset e := by
  change e' ∈ insertEntries false _ src.words.length atPos offset count (b.tables .jump)
    (src.tables .jump) ↔ _
  rw [insertEntries, if_neg Bool.false_ne_true, if_neg (by simp), List.mem_append, List.mem_map,
    List.mem_map]
  refine or_congr ?_ ?_
  · exact exists_congr fun e => and_congr_right fun _ => eq_comm
  · refine exists_congr fun e => ?_
    rw [List.mem_filter, and_assoc]
    exact and_congr_right fun _ => and_congr_right fun _ => eq_comm

theorem Apart.insert (h : Apart jump b) (hsrc : Apart jump src) :
    Apart jump (b.insert iterated src atPos offset count) := by
  intro e' he'
  rcases mem_jump_insert.mp he' with ⟨e, he, rfl⟩ | ⟨e, he, -, rfl⟩
  · rw [label_shiftUp]
    exact h e he
  · exact hsrc e he

theorem Lists.insert (h : Lists jump b) :
    Lists jump (b.insert iterated src atPos offset count) := by
  intro e he
  obtain ⟨e', he', hlabel⟩ := h e he
  exact ⟨_, mem_jump_insert.mpr (.inl ⟨e', he', rfl⟩), label_shiftUp.trans hlabel⟩

/-- **Through an insertion** of words that bring no such entries. -/
theorem Displaces.insert (iterated : Bool) (hjump : ∀ e ∈ jump, e.address < 0x10000)
    (h : Displaces jump b.words.length b) (hsrc : Apart jump src) (hat : atPos ≤ b.words.length)
    (hoffset : offset + count ≤ src.words.length) (hfit : b.words.length + count < 0x10000) :
    Displaces jump (b.words.length + count) (b.insert iterated src atPos offset count) := by
  intro e' he' e he hlabel
  rw [length_insert hat hoffset]
  rcases mem_jump_insert.mp he' with ⟨e₀, he₀, rfl⟩ | ⟨e₀, he₀, -, rfl⟩
  · exact (h e₀ he₀ e he (label_shiftUp.symm.trans hlabel)).shiftUp rfl (hjump e he) hat hfit
  · exact absurd hlabel (hsrc e₀ he₀ e he)

/-- **Through a removal** of one word. -/
theorem Displaces.remove (ls : ListSort) (h : Displaces jump m b)
    (hoffset : offset + 1 ≤ b.words.length) :
    Displaces jump m (b.remove ls offset 1) := by
  intro e' he' e he hlabel
  obtain ⟨e₀, he₀, rfl⟩ := mem_jump_remove he'
  have hlength := length_remove ls hoffset
  rw [show (b.remove ls offset 1).words.length = b.words.length - 1 by omega]
  exact (h e₀ he₀ e he (label_lowered.symm.trans hlabel)).lowered hoffset

/-- Where nothing was ever inserted the entries are kept. -/
theorem Displaces.keepsJumps (hjump : ∀ e ∈ jump, e.address < 0x10000) (hlists : Lists jump b)
    (h : Displaces jump 0 b) (hwords : b.words = []) : KeepsJumps jump b := by
  intro e he
  obtain ⟨e₀, he₀, hlabel₀⟩ := hlists e he
  obtain ⟨e', he'⟩ : ∃ e', seek (b.tables .jump) e.label = some e' :=
    Option.isSome_iff_exists.mp (List.find?_isSome.mpr ⟨e₀, he₀, by simpa using hlabel₀⟩)
  have hdisplaced := h e' (List.mem_of_find?_eq_some he') e he (seek_label he')
  rw [hwords] at hdisplaced
  exact ⟨e', he', hdisplaced.eq (hjump e he)⟩

/-- Where there are words they are not. -/
theorem Displaces.not_keepsJumps (h : Displaces jump m b) (hm : m < 0x10000) (hne : jump ≠ [])
    (hwords : b.words ≠ []) : ¬ KeepsJumps jump b := by
  obtain ⟨e, he⟩ := List.exists_mem_of_ne_nil _ hne
  intro hkeeps
  obtain ⟨e', he', haddress⟩ := hkeeps e he
  exact (h e' (List.mem_of_find?_eq_some he') e he (seek_label he')).ne
    (List.length_pos_iff.mpr hwords) hm haddress

end Bin

/-! ### Flattening -/

section Flatten

variable {ls : ListSort} {jump : List LconvEntry} {bins rest : List BinPtr} {target bin : BinPtr}
  {heap heap' heap₀ : Heap}

theorem flattenFiles_cons (h : flattenFiles ls bins target (bin :: rest) heap = .ok heap') :
    ((heap bin).isFile = false ∧ flattenFiles ls bins target rest heap = .ok heap') ∨
    ((heap bin).isFile = true ∧ ∃ heap₁,
      binMove ls false bins target bin (heap target).words.length 0 (heap bin).words.length heap =
        .ok heap₁ ∧ flattenFiles ls bins target rest heap₁ = .ok heap') := by
  rw [flattenFiles] at h
  split at h
  · rename_i hname
    exact .inl ⟨by simp [LdBin.isFile, hname], h⟩
  · rename_i hname
    exact .inr ⟨by simp [LdBin.isFile, hname], exists_of_bind_eq_ok h⟩

theorem Repointed.isFile {b b' : LdBin} (h : Repointed b b') : b'.isFile = b.isFile := by
  rw [LdBin.isFile, h.name, LdBin.isFile]

theorem isFile_jumplistBin : (jumplistBin jump).isFile = true :=
  decide_eq_true (by decide : jumplistName.take 8 ≠ sectionPrefix)

/-- What one move of a whole bin into the target does to the entries of the jumplist. -/
theorem Displaces.move {iterated : Bool} {atPos : ℕ} (hjump : ∀ e ∈ jump, e.address < 0x10000)
    (hne : bin ≠ target) (hbin : Apart jump (heap bin))
    (h : binMove ls iterated bins target bin atPos 0 (heap bin).words.length heap = .ok heap')
    (htracks : Displaces jump (heap target).words.length (heap target))
    (hfit : (heap' target).words.length < 0x10000) :
    Displaces jump (heap' target).words.length (heap' target) := by
  obtain ⟨hat, hoffset, hto, -, -⟩ := binMove_repointed h hne
  have hlength := hto.length.trans (length_insert hat hoffset)
  rw [hlength] at hfit ⊢
  exact (htracks.insert _ hjump (hbin.sortTables ls) hat hoffset hfit).repointed hto

/-- The moves bring such entries to no bin but the target, and there only from the source. -/
theorem Apart.move {iterated : Bool} {atPos offset count : ℕ} (hne : bin ≠ target)
    (h : binMove ls iterated bins target bin atPos offset count heap = .ok heap') {p : BinPtr}
    (hbin : p = target → Apart jump (heap bin)) (hapart : Apart jump (heap p)) :
    Apart jump (heap' p) := by
  obtain ⟨-, -, hto, ⟨b, hb, hremoved⟩, hother⟩ := binMove_repointed h hne
  by_cases hpt : p = target
  · subst hpt
    exact (hapart.insert ((hbin rfl).sortTables ls)).repointed hto
  · by_cases hpb : p = bin
    · subst hpb
      exact (((hapart.sortTables ls).repointed hb).remove ls).repointed hremoved
    · exact hapart.repointed (hother p hpt hpb)

/-- What the first loop of `bins_flatten` keeps, whatever it moves. -/
theorem flattenFiles_keeps (jump : List LconvEntry) (hrest : ∀ p ∈ rest, p ≠ target)
    (h : flattenFiles ls bins target rest heap = .ok heap') :
    (heap target).words.length ≤ (heap' target).words.length ∧
      (Lists jump (heap target) → Lists jump (heap' target)) ∧
      (∀ p, p ≠ target → Apart jump (heap p) → Apart jump (heap' p)) ∧
      (∀ p, p ≠ target → (heap' p).name = (heap p).name) ∧
      ∀ p, p ≠ target → (heap p).isFile = false → Repointed (heap p) (heap' p) := by
  induction rest generalizing heap with
  | nil =>
    cases h
    exact ⟨Nat.le_refl _, id, fun _ _ => id, fun _ _ => rfl, fun _ _ _ => .refl _⟩
  | cons bin rest ih =>
    rw [List.forall_mem_cons] at hrest
    rcases flattenFiles_cons h with ⟨-, h⟩ | ⟨hfile, heap₁, hmove, h⟩
    · exact ih hrest.2 h
    · obtain ⟨hat, hoffset, hto, ⟨b, hb, hremoved⟩, hother⟩ := binMove_repointed hmove hrest.1
      obtain ⟨hlength, hlists, hapart, hname, hsections⟩ := ih hrest.2 h
      have hinsert := hto.length.trans (length_insert hat hoffset)
      refine ⟨by omega, fun hl => hlists (hl.insert.repointed hto),
        fun p hp ha => hapart p hp (ha.move hrest.1 hmove (absurd · hp)),
        fun p hp => (hname p hp).trans ?_, fun p hp hsection => ?_⟩
      · by_cases hpb : p = bin
        · subst hpb
          exact hremoved.name.trans hb.name
        · exact (hother p hp hpb).name
      · have hpb : p ≠ bin := fun heq => by
          rw [heq, hfile] at hsection
          exact absurd hsection (by simp)
        have hp₁ := hother p hp hpb
        exact hp₁.trans (hsections p hp (hp₁.isFile.trans hsection))

/-- **The first loop of `bins_flatten`** takes the entries of the jumplist along. -/
theorem Displaces.flattenFiles (hjump : ∀ e ∈ jump, e.address < 0x10000)
    (hrest : ∀ p ∈ rest, p ≠ target ∧ Apart jump (heap p))
    (h : flattenFiles ls bins target rest heap = .ok heap')
    (htracks : Displaces jump (heap target).words.length (heap target))
    (hfit : (heap' target).words.length < 0x10000) :
    Displaces jump (heap' target).words.length (heap' target) := by
  induction rest generalizing heap with
  | nil =>
    cases h
    exact htracks
  | cons bin rest ih =>
    rw [List.forall_mem_cons] at hrest
    rcases flattenFiles_cons h with ⟨-, h⟩ | ⟨-, heap₁, hmove, h⟩
    · exact ih hrest.2 h htracks
    · have hle := (flattenFiles_keeps jump (fun p hp => (hrest.2 p hp).1) h).1
      refine ih (fun p hp => ⟨(hrest.2 p hp).1, ?_⟩) h
        (htracks.move hjump hrest.1.1 hrest.1.2 hmove (by omega))
      exact (hrest.2 p hp).2.move hrest.1.1 hmove (absurd · (hrest.2 p hp).1)

theorem flattenOutputs_cons {e : LconvEntry} {es : List LconvEntry}
    (h : flattenOutputs ls bins target (e :: es) heap = .ok heap') :
    (binSeek heap bins (sectionName e.label) = none ∧
      flattenOutputs ls bins target es heap = .ok heap') ∨
    ∃ bin, binSeek heap bins (sectionName e.label) = some bin ∧ ∃ heap₁,
      binInsert ls true bins target bin e.address 0 (heap bin).words.length heap = .ok heap₁ ∧
        flattenOutputs ls bins target es heap₁ = .ok heap' := by
  rw [flattenOutputs] at h
  split at h
  · rename_i hseek
    exact .inl ⟨hseek, h⟩
  · rename_i bin hseek
    exact .inr ⟨bin, hseek, exists_of_bind_eq_ok h⟩

theorem of_binSeek_section {label : Bstring}
    (h : binSeek heap bins (sectionName label) = some bin) :
    bin ∈ bins ∧ (heap bin).isFile = false := by
  refine ⟨List.mem_of_find?_eq_some h, ?_⟩
  have hname : (heap bin).name = sectionName label := by simpa using List.find?_some h
  rw [LdBin.isFile, hname, sectionName, decide_eq_false_iff_not, not_not]
  rfl

/-- What the second loop of `bins_flatten` keeps. -/
theorem flattenOutputs_keeps (jump : List LconvEntry) {es : List LconvEntry}
    (hbins : target ∉ bins)
    (h : flattenOutputs ls bins target es heap = .ok heap') :
    (heap target).words.length ≤ (heap' target).words.length ∧
      (Lists jump (heap target) → Lists jump (heap' target)) := by
  induction es generalizing heap with
  | nil =>
    cases h
    exact ⟨Nat.le_refl _, id⟩
  | cons e es ih =>
    rcases flattenOutputs_cons h with ⟨-, h⟩ | ⟨bin, hseek, heap₁, hinsert, h⟩
    · exact ih h
    · have hne : bin ≠ target := ne_of_mem_of_not_mem (of_binSeek_section hseek).1 hbins
      obtain ⟨hat, hoffset, hto, -, -⟩ := binInsert_repointed hinsert hne
      obtain ⟨hlength, hlists⟩ := ih h
      have hinserted := hto.length.trans (length_insert hat hoffset)
      exact ⟨by omega, fun hl => hlists (hl.insert.repointed hto)⟩

/-- **The second loop of `bins_flatten`** takes the entries of the jumplist along. -/
theorem Displaces.flattenOutputs (hjump : ∀ e ∈ jump, e.address < 0x10000) {es : List LconvEntry}
    (hbins : target ∉ bins)
    (hapart : ∀ p ∈ bins, (heap p).isFile = false → Apart jump (heap p))
    (h : flattenOutputs ls bins target es heap = .ok heap')
    (htracks : Displaces jump (heap target).words.length (heap target))
    (hfit : (heap' target).words.length < 0x10000) :
    Displaces jump (heap' target).words.length (heap' target) := by
  induction es generalizing heap with
  | nil =>
    cases h
    exact htracks
  | cons e es ih =>
    rcases flattenOutputs_cons h with ⟨-, h⟩ | ⟨bin, hseek, heap₁, hinsert, h⟩
    · exact ih hapart h htracks
    · obtain ⟨hmem, hsection⟩ := of_binSeek_section hseek
      have hne : bin ≠ target := ne_of_mem_of_not_mem hmem hbins
      obtain ⟨hat, hoffset, hto, hfrom, hother⟩ := binInsert_repointed hinsert hne
      have hle := (flattenOutputs_keeps jump hbins h).1
      have hlength := hto.length.trans (length_insert hat hoffset)
      refine ih (fun p hp hp' => ?_) h ?_
      · by_cases hpb : p = bin
        · subst hpb
          exact ((hapart p hmem hsection).sortTables ls).repointed hfrom
        · have hp₁ := hother p (ne_of_mem_of_not_mem hp hbins) hpb
          exact (hapart p hp (hp₁.isFile.symm.trans hp')).repointed hp₁
      · rw [hlength]
        exact (htracks.insert _ hjump ((hapart bin hmem hsection).sortTables ls) hat hoffset
          (by omega)).repointed hto

end Flatten

/-! ### What gets into the linked bin -/

/-- Bins with one name, as many words, and the same entries but for the adjustments. -/
structure Alike (b b' : LdBin) : Prop where
  name : b'.name = b.name
  length : b'.words.length = b.words.length
  tables : ∀ t, t ≠ .adjustment → (b'.tables t).Perm (b.tables t)

theorem Repointed.alike {b b' : LdBin} (h : Repointed b b') : Alike b b' :=
  ⟨h.name, h.length, fun t ht => .of_eq (h.tables t ht)⟩

theorem alike_sortTables (ls : ListSort) (b : LdBin) : Alike b (b.sortTables ls) where
  name := rfl
  length := rfl
  tables t _ := by
    change (if t = .section then b.tables t else ls.up (b.tables t)).Perm _
    split
    · exact .refl _
    · exact ls.up_perm _

theorem Alike.trans {b b' b'' : LdBin} (h : Alike b b') (h' : Alike b' b'') : Alike b b'' where
  name := h'.name.trans h.name
  length := h'.length.trans h.length
  tables t ht := (h'.tables t ht).trans (h.tables t ht)

/-- An insertion leaves all bins alike but the target. -/
theorem binInsert_alike {ls : ListSort} {iterated : Bool} {all : List BinPtr}
    {toBin fromBin p : BinPtr} {atPos offset count : ℕ} {heap heap' : Heap}
    (h : binInsert ls iterated all toBin fromBin atPos offset count heap = .ok heap')
    (hne : fromBin ≠ toBin) (hp : p ≠ toBin) : Alike (heap p) (heap' p) := by
  obtain ⟨-, -, -, hfrom, hother⟩ := binInsert_repointed h hne
  by_cases hpf : p = fromBin
  · subst hpf
    exact (alike_sortTables ls _).trans hfrom.alike
  · exact (hother p hp hpf).alike

/-- The labels in a table. -/
def LdBin.labels (b : LdBin) (t : Table) : List Bstring := (b.tables t).map LconvEntry.label

theorem Alike.mem_labels {b b' : LdBin} (h : Alike b b') {t : Table} (ht : t ≠ .adjustment)
    {label : Bstring} : label ∈ b'.labels t ↔ label ∈ b.labels t :=
  ((h.tables t ht).map _).mem_iff

/-- A bin to which other bins were added: it has no words as long as none of them had, and then
it has all their entries of a table. -/
structure Gathered (heap : Heap) (t : Table) (ps : List BinPtr) (b : LdBin) : Prop where
  words : b.words = [] ↔ ∀ p ∈ ps, (heap p).words = []
  labels : b.words = [] → ∀ label, label ∈ b.labels t ↔ ∃ p ∈ ps, label ∈ (heap p).labels t

/-- An empty bin leaves all its entries where it is put. -/
theorem mem_labels_insert {b src : LdBin} {iterated : Bool} {atPos : ℕ} {t : Table}
    (hsrc : src.words = []) (hsection : t ≠ .section) (houtput : iterated = true → t ≠ .output)
    {label : Bstring} : label ∈ (b.insert iterated src atPos 0 0).labels t ↔
      label ∈ b.labels t ∨ label ∈ src.labels t := by
  have hlabels : (b.insert iterated src atPos 0 0).labels t = b.labels t ++ src.labels t := by
    rw [LdBin.labels, LdBin.insert]
    dsimp only
    have hcopied : ¬decide (t = .output ∧ iterated = true) = true := by
      rw [decide_eq_true_iff]
      exact fun h => houtput h.2 h.1
    rw [if_neg hsection, insertEntries, if_neg hcopied, hsrc]
    have hfilter : (src.tables t).filter (fun e => copied 0 0 0 (address e)) = src.tables t :=
      List.filter_eq_self.mpr fun e _ => by simp [copied]
    rw [List.length_nil, hfilter, List.map_append, List.map_map, LdBin.labels, LdBin.labels]
    refine congrArg₂ (· ++ ·) ?_ rfl
    split
    · rfl
    · rw [List.map_map]
      exact List.map_congr_left fun e _ => label_shiftUp
  rw [hlabels, List.mem_append]

/-- **Another bin is added.** -/
theorem Gathered.insert {heap : Heap} {t : Table} {ps : List BinPtr} {b b' src : LdBin}
    {iterated : Bool} {atPos : ℕ} {p : BinPtr} (hsection : t ≠ .section)
    (hadjustment : t ≠ .adjustment) (houtput : iterated = true → t ≠ .output)
    (h : Gathered heap t ps b) (hsrc : Alike (heap p) src) (hat : atPos ≤ b.words.length)
    (hb : Repointed (b.insert iterated src atPos 0 src.words.length) b') :
    Gathered heap t (ps ++ [p]) b' := by
  have hlength : b'.words.length = b.words.length + src.words.length :=
    hb.length.trans (length_insert hat (by omega))
  have hnil : b'.words = [] ↔ b.words = [] ∧ src.words = [] := by
    rw [← List.length_eq_zero_iff, ← List.length_eq_zero_iff, ← List.length_eq_zero_iff]
    omega
  have hsrcnil : src.words = [] ↔ (heap p).words = [] := by
    rw [← List.length_eq_zero_iff, hsrc.length, List.length_eq_zero_iff]
  refine ⟨?_, fun hwords label => ?_⟩
  · rw [hnil, h.words, hsrcnil, List.forall_mem_append, List.forall_mem_singleton]
  · obtain ⟨hbnil, hs⟩ := hnil.mp hwords
    rw [hb.alike.mem_labels hadjustment, hs, List.length_nil, mem_labels_insert hs hsection houtput,
      h.labels hbnil, hsrc.mem_labels hadjustment]
    simp only [List.mem_append, List.mem_singleton, or_and_right, exists_or, exists_eq_left]

section Gather

variable {ls : ListSort} {bins rest ps : List BinPtr} {target : BinPtr}
  {heap heap' heap₀ : Heap} {t : Table}

/-- **The first loop of `bins_flatten`** adds the file bins. -/
theorem Gathered.flattenFiles (hsection : t ≠ .section) (hadjustment : t ≠ .adjustment)
    (hrest : ∀ p ∈ rest, p ≠ target) (hnd : rest.Nodup)
    (hsame : ∀ p ∈ rest, Repointed (heap₀ p) (heap p))
    (h : flattenFiles ls bins target rest heap = .ok heap')
    (hg : Gathered heap₀ t ps (heap target)) :
    Gathered heap₀ t (ps ++ rest.filter fun p => (heap₀ p).isFile) (heap' target) := by
  induction rest generalizing heap ps with
  | nil =>
    cases h
    rwa [List.filter_nil, List.append_nil]
  | cons bin rest ih =>
    rw [List.forall_mem_cons] at hrest hsame
    rw [List.nodup_cons] at hnd
    rcases flattenFiles_cons h with ⟨hbin, h⟩ | ⟨hbin, heap₁, hmove, h⟩
    · rw [hsame.1.isFile] at hbin
      rw [List.filter_cons_of_neg (by simp [hbin])]
      exact ih hrest.2 hnd.2 hsame.2 h hg
    · rw [hsame.1.isFile] at hbin
      obtain ⟨hat, hoffset, hto, -, hother⟩ := binMove_repointed hmove hrest.1
      have hstep : Gathered heap₀ t (ps ++ [bin]) (heap₁ target) :=
        hg.insert hsection hadjustment (by simp)
          (hsame.1.alike.trans (alike_sortTables ls _)) hat hto
      have hrun := ih hrest.2 hnd.2 (fun p hp => (hsame.2 p hp).trans (hother p (hrest.2 p hp)
        (ne_of_mem_of_not_mem hp hnd.1))) h hstep
      rw [List.filter_cons, if_pos hbin]
      rwa [List.append_assoc, List.singleton_append] at hrun

theorem binSeek_congr (h : ∀ p ∈ bins, (heap p).name = (heap₀ p).name) (name : Bstring) :
    binSeek heap bins name = binSeek heap₀ bins name := by
  rw [binSeek, binSeek]
  induction bins with
  | nil => rfl
  | cons p bins ih =>
    rw [List.forall_mem_cons] at h
    rw [List.find?_cons, List.find?_cons, h.1, ih h.2]

/-- The section bins that output entries put out. -/
def putOut (heap : Heap) (bins : List BinPtr) (es : List LconvEntry) : List BinPtr :=
  es.filterMap fun e => binSeek heap bins (sectionName e.label)

theorem mem_putOut {es : List LconvEntry} {q : BinPtr} : q ∈ putOut heap bins es ↔
    ∃ label ∈ es.map LconvEntry.label, binSeek heap bins (sectionName label) = some q := by
  rw [putOut, List.mem_filterMap]
  simp only [List.mem_map, exists_exists_and_eq_and]

/-- **The second loop of `bins_flatten`** adds the sections that are put out. -/
theorem Gathered.flattenOutputs {es : List LconvEntry} (hsection : t ≠ .section)
    (hadjustment : t ≠ .adjustment) (houtput : t ≠ .output) (hbins : target ∉ bins)
    (hname : ∀ p ∈ bins, (heap p).name = (heap₀ p).name)
    (hsame : ∀ p ∈ bins, (heap p).isFile = false → Alike (heap₀ p) (heap p))
    (h : flattenOutputs ls bins target es heap = .ok heap')
    (hg : Gathered heap₀ t ps (heap target)) :
    Gathered heap₀ t (ps ++ putOut heap₀ bins es) (heap' target) := by
  induction es generalizing heap ps with
  | nil =>
    cases h
    rwa [putOut, List.filterMap_nil, List.append_nil]
  | cons e es ih =>
    have hseek := binSeek_congr hname (sectionName e.label)
    rcases flattenOutputs_cons h with ⟨hnone, h⟩ | ⟨bin, hsome, heap₁, hinsert, h⟩
    · rw [show putOut heap₀ bins (e :: es) = putOut heap₀ bins es from
        List.filterMap_cons_none (hseek.symm.trans hnone)]
      exact ih hname hsame h hg
    · obtain ⟨hmem, hfile⟩ := of_binSeek_section hsome
      have hne : bin ≠ target := ne_of_mem_of_not_mem hmem hbins
      obtain ⟨hat, hoffset, hto, -, -⟩ := binInsert_repointed hinsert hne
      have hstep : Gathered heap₀ t (ps ++ [bin]) (heap₁ target) :=
        hg.insert hsection hadjustment (fun _ => houtput)
          ((hsame bin hmem hfile).trans (alike_sortTables ls _)) hat hto
      have hlike : ∀ p ∈ bins, Alike (heap p) (heap₁ p) := fun p hp =>
        binInsert_alike hinsert hne (ne_of_mem_of_not_mem hp hbins)
      have hrun := ih (fun p hp => (hlike p hp).name.trans (hname p hp)) (fun p hp hp' =>
        (hsame p hp (by rwa [LdBin.isFile, ← (hlike p hp).name])).trans (hlike p hp)) h hstep
      rw [show putOut heap₀ bins (e :: es) = bin :: putOut heap₀ bins es from
        List.filterMap_cons_some (hseek.symm.trans hsome)]
      rwa [List.append_assoc, List.singleton_append] at hrun

end Gather

/-! ### Cutting the sections out -/

section Sectionize

variable {ls : ListSort} {jump : List LconvEntry} {bins create rest : List BinPtr}
  {bin other : BinPtr} {heap heap' : Heap}

theorem stealSections_cons {stolen : ℤ} {e : LconvEntry} {es : List LconvEntry}
    (h : stealSections ls bins create bin stolen (e :: es) heap = .ok heap') :
    ∃ target ∈ create, ∃ (offset count : ℕ) (heap₁ : Heap),
      (offset : ℤ) = e.address - stolen ∧
      (count : ℤ) = stealCount (heap bin).words.length stolen e es ∧
      binMove ls false bins target bin (heap target).words.length offset count heap = .ok heap₁ ∧
      stealSections ls bins create bin (stolen + count) es heap₁ = .ok heap' := by
  rw [stealSections] at h
  split at h
  · cases h
  · rename_i target hseek
    dsimp only at h
    split at h
    · cases h
    · rename_i hsign
      obtain ⟨heap₁, hmove, h⟩ := exists_of_bind_eq_ok h
      refine ⟨target, List.mem_of_find?_eq_some hseek, _, _, heap₁, Int.toNat_of_nonneg (by omega),
        Int.toNat_of_nonneg (by omega), hmove, ?_⟩
      rwa [Int.toNat_of_nonneg (by omega)]

/-- Cutting the sections out of a bin leaves the others alone, but for the section bins, and
brings the labels of the jumplist nowhere. -/
theorem stealSections_keeps (jump : List LconvEntry) {stolen : ℤ} {es : List LconvEntry}
    (hcreate : ∀ p ∈ create, p ≠ bin ∧ p ≠ other) (hne : other ≠ bin)
    (h : stealSections ls bins create bin stolen es heap = .ok heap') :
    Repointed (heap other) (heap' other) ∧
      (Apart jump (heap bin) → ∀ p, Apart jump (heap p) → Apart jump (heap' p)) := by
  induction es generalizing stolen heap with
  | nil =>
    cases h
    exact ⟨.refl _, fun _ _ => id⟩
  | cons e es ih =>
    obtain ⟨target, htarget, offset, count, heap₁, -, -, hmove, h⟩ := stealSections_cons h
    obtain ⟨hbin, hother⟩ := hcreate target htarget
    obtain ⟨hr, hapart⟩ := ih h
    refine ⟨((binMove_repointed hmove hbin.symm).2.2.2.2 other hother.symm hne).trans hr,
      fun ha p hp => hapart (ha.move hbin.symm hmove fun _ => ha) p
        (hp.move hbin.symm hmove fun _ => ha)⟩

theorem apart_sortSections {b : LdBin} : Apart jump (b.sortSections ls) ↔ Apart jump b := Iff.rfl

theorem sectionizeLoop_keeps (jump : List LconvEntry)
    (hcreate : ∀ p ∈ create, p ∉ rest ∧ p ≠ other) (hother : other ∉ rest)
    (h : sectionizeLoop ls bins create rest heap = .ok heap') :
    Repointed (heap other) (heap' other) ∧
      ((∀ p ∈ rest, Apart jump (heap p)) → ∀ p, Apart jump (heap p) → Apart jump (heap' p)) := by
  induction rest generalizing heap with
  | nil =>
    cases h
    exact ⟨.refl _, fun _ _ => id⟩
  | cons bin rest ih =>
    rw [List.mem_cons, not_or] at hother
    have hcreate' : ∀ p ∈ create, p ≠ bin ∧ p ≠ other := fun p hp =>
      ⟨fun heq => (hcreate p hp).1 (heq ▸ List.mem_cons_self), (hcreate p hp).2⟩
    rw [sectionizeLoop] at h
    set heap₁ := Function.update heap bin ((heap bin).sortSections ls) with hheap₁
    obtain ⟨heap₂, hsteal, h⟩ := exists_of_bind_eq_ok h
    obtain ⟨hr₁, hapart₁⟩ := stealSections_keeps jump hcreate' hother.1 hsteal
    obtain ⟨hr₂, hapart₂⟩ := ih (fun p hp => ⟨fun hmem => (hcreate p hp).1
      (List.mem_cons_of_mem _ hmem), (hcreate p hp).2⟩) hother.2 h
    have hsorted : ∀ p, Apart jump (heap p) → Apart jump (heap₁ p) := fun p hp => by
      by_cases hpb : p = bin
      · subst hpb
        rw [hheap₁, Function.update_self]
        exact apart_sortSections.mpr hp
      · rwa [hheap₁, Function.update_of_ne hpb]
    refine ⟨?_, fun ha p hp => ?_⟩
    · rw [hheap₁, Function.update_of_ne hother.1] at hr₁
      exact hr₁.trans hr₂
    · rw [List.forall_mem_cons] at ha
      have hstep := hapart₁ (hsorted bin ha.1)
      exact hapart₂ (fun q hq => hstep q (hsorted q (ha.2 q hq))) p (hstep p (hsorted p hp))

/-- The bins when `bins_flatten` begins: those of the files, and behind them those of the
sections. -/
theorem binsSectionize_cases {files : List LdBin} {s : LdBins}
    (h : binsSectionize ls (binsAssociate (binsLoad files)) = .ok s) :
    ∃ s₁ create, Created (binsAssociate (binsLoad files))
        ((List.range files.length).flatMap fun k =>
          ((binsAssociate (binsLoad files)).heap k).tables .section) (s₁, create) ∧
      sectionizeLoop ls (List.range files.length) create (List.range files.length) s₁.heap =
        .ok s.heap ∧
      s.bins = List.range files.length ++ create ∧ s.bins.Nodup ∧ s.next ∉ s.bins := by
  rw [binsSectionize] at h
  have hcreated := createSections_ok (binsAssociate (binsLoad files))
  rcases hr : createSections (binsAssociate (binsLoad files)) with ⟨s₁, create⟩
  rw [hr] at hcreated
  obtain ⟨_, -, h⟩ := exists_of_bind_eq_ok h
  rw [hr] at h
  obtain ⟨heap, hloop, h⟩ := exists_of_bind_eq_ok h
  obtain ⟨_, -, h⟩ := exists_of_bind_eq_ok h
  cases h
  have hbins : s₁.bins = List.range files.length := hcreated.bins
  have hfresh : ∀ p ∈ create, files.length ≤ p ∧ p < s₁.next := hcreated.fresh
  have hle : files.length ≤ s₁.next := hcreated.next_le
  rw [hbins] at hloop
  refine ⟨s₁, create, hcreated, hloop, congrArg (· ++ create) hbins, ?_, fun hmem => ?_⟩
  · rw [hbins]
    exact List.nodup_append.mpr ⟨List.nodup_range, hcreated.nodup, fun a ha b hb =>
      Nat.ne_of_lt ((List.mem_range.mp ha).trans_le (hfresh b hb).1)⟩
  · rw [hbins] at hmem
    rcases List.mem_append.mp hmem with hmem | hmem
    · exact Nat.not_lt.mpr hle (List.mem_range.mp hmem)
    · exact Nat.lt_irrefl _ (hfresh _ hmem).2

/-- **The bins when `bins_flatten` begins**: the bin of the jumplist is the first, and is as it
was loaded; no other has an entry for a label of the jumplist. -/
theorem sectionizeJumplist_ok {files : List LdBin} {s : LdBins}
    (hfiles : ∀ f ∈ files, Apart jump f) (h : sectionizeJumplist ls jump files = .ok s) :
    ∃ rest, s.bins = 0 :: rest ∧ s.bins.Nodup ∧ s.next ∉ s.bins ∧
      Repointed (jumplistBin jump) (s.heap 0) ∧ ∀ p ∈ rest, Apart jump (s.heap p) := by
  obtain ⟨s₁, create, hcreated, hloop, hbins, hnd, hnext⟩ := binsSectionize_cases h
  set s₀ := binsAssociate (binsLoad (jumplistBin jump :: files)) with hs₀
  have hrange' : List.range (files.length + 1) = 0 :: List.range' 1 files.length := by
    rw [List.range_eq_range', List.range'_succ]
  rw [List.length_cons, hrange'] at hloop hbins
  have hfresh : ∀ p ∈ create, files.length + 1 ≤ p ∧ p < s₁.next := hcreated.fresh
  have hrange : ∀ p ∈ List.range' 1 files.length, 1 ≤ p ∧ p < files.length + 1 := fun p hp => by
    have := List.mem_range'_1.mp hp
    omega
  -- before the loop
  have hzero : s₁.heap 0 = (jumplistBin jump).associate :=
    (hcreated.old 0 (Nat.succ_pos _)).trans (if_pos (List.mem_range.mpr (Nat.succ_pos _)))
  have hassociate : Repointed (jumplistBin jump) (jumplistBin jump).associate :=
    ⟨rfl, rfl, fun t ht => if_neg ht, rfl⟩
  have hapart₁ : ∀ p ∈ List.range' 1 files.length ++ create, Apart jump (s₁.heap p) := by
    intro p hp
    rcases List.mem_append.mp hp with hp | hp
    · obtain ⟨hpos, hlt⟩ := hrange p hp
      rw [hcreated.old p hlt]
      have hload : s₀.heap p = ((jumplistBin jump :: files).getD p (binCreate [])).associate :=
        if_pos (List.mem_range.mpr hlt)
      obtain ⟨k, rfl⟩ : ∃ k, p = k + 1 := ⟨p - 1, by omega⟩
      have hk : k < files.length := by omega
      rw [hload, List.getD_cons_succ, ← fileAt, fileAt_of_lt hk]
      exact (hfiles _ (List.getElem_mem hk) : Apart jump files[k])
    · obtain ⟨e, -, hnew⟩ := hcreated.new p hp
      rw [hnew]
      exact fun e' he' => absurd he' List.not_mem_nil
  -- the bin of the jumplist has no sections
  rw [sectionizeLoop, hzero] at hloop
  set heap₁ := Function.update s₁.heap 0 ((jumplistBin jump).associate.sortSections ls) with hheap₁
  have hnosections : (heap₁ 0).tables .section = [] := by
    rw [hheap₁, Function.update_self]
    exact List.perm_nil.mp (ls.up_perm [])
  rw [hnosections] at hloop
  change sectionizeLoop ls _ create (List.range' 1 files.length) heap₁ = .ok s.heap at hloop
  have hzero₁ : Repointed (jumplistBin jump) (heap₁ 0) := by
    rw [hheap₁, Function.update_self]
    refine hassociate.trans ⟨rfl, rfl, fun t _ => ?_, rfl⟩
    rw [LdBin.sortSections]
    dsimp only
    split
    · rename_i ht
      rw [ht]
      exact List.perm_nil.mp (ls.up_perm [])
    · rfl
  have hrest : ∀ p ∈ List.range' 1 files.length ++ create, p ≠ 0 := fun p hp => by
    rcases List.mem_append.mp hp with hp | hp
    · have := hrange p hp
      omega
    · have := hfresh p hp
      omega
  obtain ⟨hr₀, hapart⟩ := sectionizeLoop_keeps jump
    (fun p hp => ⟨fun hmem => by have := hrange p hmem; have := hfresh p hp; omega,
      hrest p (List.mem_append_right _ hp)⟩)
    (fun hmem => hrest 0 (List.mem_append_left _ hmem) rfl) hloop
  have hapart₂ : ∀ p ∈ List.range' 1 files.length ++ create, Apart jump (heap₁ p) := fun p hp => by
    rw [hheap₁, Function.update_of_ne (hrest p hp)]
    exact hapart₁ p hp
  exact ⟨List.range' 1 files.length ++ create, hbins, hnd, hnext, hzero₁.trans hr₀, fun p hp =>
    hapart (fun q hq => hapart₂ q (List.mem_append_left _ hq)) p (hapart₂ p hp)⟩

end Sectionize

/-! ### The stages of a link -/

section Stages

variable {ls : ListSort} {jump : List LconvEntry} {name : Bstring} {s s' : LdBins}

theorem binsFlatten_cases (h : binsFlatten ls name s = .ok s') :
    ∃ heap, flattenFiles ls s.bins s.next s.bins (Function.update s.heap s.next (binCreate name)) =
        .ok heap ∧
      flattenOutputs ls s.bins s.next (ls.down ((heap s.next).tables .output))
        (Function.update heap s.next ((heap s.next).sortOutputs ls)) = .ok s'.heap ∧
      s'.bins = [s.next] ∧ s'.next = s.next + 1 := by
  rw [binsFlatten] at h
  obtain ⟨heap, hfiles, h⟩ := exists_of_bind_eq_ok h
  obtain ⟨heap', houtputs, h⟩ := exists_of_bind_eq_ok h
  obtain ⟨_, -, h⟩ := exists_of_bind_eq_ok h
  cases h
  refine ⟨heap, hfiles, ?_, rfl, rfl⟩
  rwa [Function.update_self] at houtputs

theorem sortOutputs_alike (ls : ListSort) (b : LdBin) : Alike b (b.sortOutputs ls) where
  name := rfl
  length := rfl
  tables t _ := by
    change (if t = .output then ls.down (b.tables t) else b.tables t).Perm _
    split
    · exact ls.down_perm _
    · exact .refl _

theorem Gathered.alike {heap : Heap} {t : Table} {ps : List BinPtr} {b b' : LdBin}
    (h : Gathered heap t ps b) (ht : t ≠ .adjustment) (hb : Alike b b') :
    Gathered heap t ps b' := by
  have hnil : b'.words = [] ↔ b.words = [] := by
    rw [← List.length_eq_zero_iff, hb.length, List.length_eq_zero_iff]
  exact ⟨hnil.trans h.words, fun hwords label => by
    rw [hb.mem_labels ht, h.labels (hnil.mp hwords)]⟩

/-- The bins when the second loop of `bins_flatten` begins: they have their names, and those of
the sections are as they were. -/
theorem flattenFiles_bins {heap : Heap} (hnext : s.next ∉ s.bins)
    (hfiles : flattenFiles ls s.bins s.next s.bins
      (Function.update s.heap s.next (binCreate name)) = .ok heap) (b : LdBin) :
    ∀ p ∈ s.bins, (Function.update heap s.next b p).name = (s.heap p).name ∧
      ((Function.update heap s.next b p).isFile = false →
        Repointed (s.heap p) (Function.update heap s.next b p)) := by
  intro p hp
  have hne : ∀ p ∈ s.bins, p ≠ s.next := fun p hp => ne_of_mem_of_not_mem hp hnext
  have hkeeps := flattenFiles_keeps [] hne hfiles
  have hname := hkeeps.2.2.2.1 p (hne p hp)
  have hsection := hkeeps.2.2.2.2 p (hne p hp)
  rw [Function.update_of_ne (hne p hp)] at hname hsection
  rw [Function.update_of_ne (hne p hp)]
  exact ⟨hname, fun h => hsection (by rwa [LdBin.isFile, ← hname])⟩

/-- **What is linked is nothing** exactly when the flattened bin has neither words nor calls. -/
theorem nothingToLink_iff (hnd : s.bins.Nodup) (hnext : s.next ∉ s.bins)
    (h : binsFlatten ls name s = .ok s') :
    NothingToLink s ↔ s'.flat.words = [] ∧ s'.flat.tables .call = [] := by
  obtain ⟨heap, hfiles, houtputs, hbins, -⟩ := binsFlatten_cases h
  set files := s.bins.filter fun p => (s.heap p).isFile with hfilesdef
  have hne : ∀ p ∈ s.bins, p ≠ s.next := fun p hp => ne_of_mem_of_not_mem hp hnext
  have hbin := flattenFiles_bins hnext hfiles ((heap s.next).sortOutputs ls)
  have hgathered : ∀ t, t ≠ .section → t ≠ .adjustment →
      Gathered s.heap t files (heap s.next) := fun t hsection hadjustment => by
    have hnil : Gathered s.heap t [] (Function.update s.heap s.next (binCreate name) s.next) := by
      rw [Function.update_self]
      exact ⟨by simp [binCreate], fun _ label => by simp [LdBin.labels, binCreate]⟩
    exact Gathered.flattenFiles hsection hadjustment hne hnd
      (fun p hp => .of_eq (Function.update_of_ne (hne p hp) _ _)) hfiles hnil
  set qs := putOut s.heap s.bins (ls.down ((heap s.next).tables .output)) with hqs
  have hflat : Gathered s.heap .call (files ++ qs) s'.flat := by
    rw [LdBins.flat_eq hbins]
    refine Gathered.flattenOutputs (by decide) (by decide) (by decide) hnext
      (fun p hp => (hbin p hp).1) (fun p hp hsection => ((hbin p hp).2 hsection).alike) houtputs ?_
    rw [Function.update_self]
    exact (hgathered .call (by decide) (by decide)).alike (by decide) (sortOutputs_alike ls _)
  have houtput := hgathered .output (by decide) (by decide)
  have hfile : ∀ {p}, p ∈ files ↔ p ∈ s.bins ∧ (s.heap p).isFile = true :=
    fun {p} => List.mem_filter
  -- the sections put out, as long as there are no words
  have hput : (heap s.next).words = [] → ∀ q, q ∈ qs ↔ ∃ p ∈ files, ∃ e ∈ (s.heap p).tables .output,
      binSeek s.heap s.bins (sectionName e.label) = some q := fun hwords q => by
    have hlabels := houtput.labels hwords
    simp only [LdBin.labels] at hlabels
    rw [hqs, mem_putOut]
    simp only [((ls.down_perm _).map LconvEntry.label).mem_iff, hlabels]
    constructor
    · rintro ⟨label, ⟨p, hp, hlabel⟩, hseek⟩
      obtain ⟨e, he, rfl⟩ := List.mem_map.mp hlabel
      exact ⟨p, hp, e, he, hseek⟩
    · rintro ⟨p, hp, e, he, hseek⟩
      exact ⟨e.label, ⟨p, hp, List.mem_map_of_mem he⟩, hseek⟩
  have hcall : ∀ {b : LdBin}, b.tables .call = [] ↔ ∀ label, label ∉ b.labels .call := fun {b} => by
    rw [LdBin.labels, ← List.eq_nil_iff_forall_not_mem, List.map_eq_nil_iff]
  constructor
  · rintro ⟨hfiles', hsections⟩
    have hwords : (heap s.next).words = [] := houtput.words.mpr fun p hp =>
      (hfiles' p (hfile.mp hp).1 (hfile.mp hp).2).1
    have hempty : ∀ p ∈ files ++ qs, (s.heap p).words = [] ∧ (s.heap p).tables .call = [] := by
      intro p hp
      rcases List.mem_append.mp hp with hp | hp
      · exact hfiles' p (hfile.mp hp).1 (hfile.mp hp).2
      · obtain ⟨p', hp', e, he, hseek⟩ := (hput hwords p).mp hp
        exact hsections p' (hfile.mp hp').1 (hfile.mp hp').2 e he p hseek
    have hflatwords := hflat.words.mpr fun p hp => (hempty p hp).1
    refine ⟨hflatwords, hcall.mpr fun label hlabel => ?_⟩
    obtain ⟨p, hp, hlabel⟩ := (hflat.labels hflatwords label).mp hlabel
    exact hcall.mp (hempty p hp).2 label hlabel
  · rintro ⟨hflatwords, hflatcall⟩
    have hempty : ∀ p ∈ files ++ qs, (s.heap p).words = [] ∧ (s.heap p).tables .call = [] :=
      fun p hp => ⟨hflat.words.mp hflatwords p hp, hcall.mpr fun label hlabel =>
        hcall.mp hflatcall label ((hflat.labels hflatwords label).mpr ⟨p, hp, hlabel⟩)⟩
    have hwords : (heap s.next).words = [] := houtput.words.mpr fun p hp =>
      (hempty p (List.mem_append_left _ hp)).1
    exact ⟨fun p hp hf => hempty p (List.mem_append_left _ (hfile.mpr ⟨hp, hf⟩)),
      fun p hp hf e he q hseek => hempty q (List.mem_append_right _
        ((hput hwords q).mpr ⟨p, hfile.mpr ⟨hp, hf⟩, e, he, hseek⟩))⟩

/-- What `bins_flatten` makes of the bin of the jumplist, which is the first. -/
theorem tracks_jumplistBin (hjump : ∀ e ∈ jump, e.address < 0x10000)
    (hlabels : (jump.map LconvEntry.label).Nodup) {bins : List BinPtr} {target : BinPtr}
    {heap heap' : Heap} (hne : 0 ≠ target) (hjumplist : Repointed (jumplistBin jump) (heap 0))
    (htarget : heap target = binCreate name)
    (h : binMove ls false bins target 0 (heap target).words.length 0 (heap 0).words.length heap =
      .ok heap') :
    Displaces jump (heap' target).words.length (heap' target) ∧ Lists jump (heap' target) := by
  obtain ⟨hat, hoffset, hto, -, -⟩ := binMove_repointed h hne
  have hwords : (heap 0).words = [] := hjumplist.words_eq_nil.mpr rfl
  have hzero : (heap' target).words.length = 0 := by
    have hlength := hto.length.trans (length_insert hat hoffset)
    rw [hlength, htarget, hwords]
    rfl
  have htable : ∀ e, e ∈ ((heap 0).sortTables ls).tables .jump ↔ e ∈ jump := fun e => by
    change e ∈ ls.up ((heap 0).tables .jump) ↔ _
    rw [(ls.up_perm _).mem_iff, hjumplist.tables _ (by decide)]
    rfl
  -- an entry is copied as it is
  have hcopy : ∀ e ∈ jump, copyEntry (heap target).words.length 0 e = e := fun e he => by
    rw [htarget]
    change (⟨e.label, e.bin, u16 (0 + (e.address - 0))⟩ : LconvEntry) = e
    rw [Nat.zero_add, Nat.sub_zero, u16_of_lt (hjump e he)]
  have hmem : ∀ e, e ∈ (heap' target).tables .jump ↔ e ∈ jump := fun e => by
    rw [hto.tables _ (by decide), mem_jump_insert, htarget]
    constructor
    · rintro (⟨e₀, he₀, -⟩ | ⟨e₀, he₀, -, rfl⟩)
      · exact absurd he₀ List.not_mem_nil
      · have he := (htable e₀).mp he₀
        rw [← htarget, hcopy e₀ he]
        exact he
    · intro he
      refine .inr ⟨e, (htable e).mpr he, ?_, ?_⟩
      · change copied (heap 0).words.length 0 (heap 0).words.length e.address = true
        rw [hwords]
        simp [copied]
      · rw [← htarget, hcopy e he]
  refine ⟨fun e' he' e he hlabel => ?_, fun e he => ⟨e, (hmem e).mpr he, rfl⟩⟩
  rw [List.inj_on_of_nodup_map hlabels ((hmem e').mp he') he hlabel, hzero]
  exact .inl rfl

/-- **Through `bins_flatten`.** -/
theorem tracks_flatten (hjump : ∀ e ∈ jump, e.address < 0x10000)
    (hlabels : (jump.map LconvEntry.label).Nodup) {rest : List BinPtr} (hbins : s.bins = 0 :: rest)
    (hnext : s.next ∉ s.bins) (hjumplist : Repointed (jumplistBin jump) (s.heap 0))
    (hapart : ∀ p ∈ rest, Apart jump (s.heap p)) (h : binsFlatten ls name s = .ok s')
    (hfit : s'.flat.words.length < 0x10000) :
    Displaces jump s'.flat.words.length s'.flat ∧ Lists jump s'.flat := by
  obtain ⟨heap, hfiles, houtputs, hbins', -⟩ := binsFlatten_cases h
  rw [LdBins.flat_eq hbins'] at hfit ⊢
  set heap₀ := Function.update s.heap s.next (binCreate name) with hheap₀
  have hne : ∀ p ∈ s.bins, p ≠ s.next := fun p hp => ne_of_mem_of_not_mem hp hnext
  have hold : ∀ p ∈ s.bins, heap₀ p = s.heap p := fun p hp => Function.update_of_ne (hne p hp) _ _
  have hmem₀ : 0 ∈ s.bins := by
    rw [hbins]
    exact List.mem_cons_self
  have hrest : ∀ p ∈ rest, p ∈ s.bins := fun p hp => by
    rw [hbins]
    exact List.mem_cons_of_mem _ hp
  -- the jumplist is moved first
  have hzero : Repointed (jumplistBin jump) (heap₀ 0) := by
    rwa [hold 0 hmem₀]
  have hfirst : flattenFiles ls s.bins s.next (0 :: rest) heap₀ = .ok heap := by
    rwa [← hbins]
  rcases flattenFiles_cons hfirst with ⟨hsection, -⟩ | ⟨-, heap₁, hmove, hmoves⟩
  · rw [hzero.isFile, isFile_jumplistBin] at hsection
    exact absurd hsection (by decide)
  obtain ⟨htracks₁, hlists₁⟩ := tracks_jumplistBin hjump hlabels (hne 0 hmem₀).symm.symm hzero
    (Function.update_self ..) hmove
  have hapart₁ : ∀ p ∈ rest, p ≠ s.next ∧ Apart jump (heap₁ p) := fun p hp => by
    refine ⟨hne p (hrest p hp), Apart.move (hne 0 hmem₀) hmove (absurd · (hne p (hrest p hp))) ?_⟩
    rw [hold p (hrest p hp)]
    exact hapart p hp
  obtain ⟨-, hlists₂, hapart₂, -, -⟩ := flattenFiles_keeps jump
    (fun p hp => (hapart₁ p hp).1) hmoves
  -- then the sections are inserted
  set heap₂ := Function.update heap s.next ((heap s.next).sortOutputs ls) with hheap₂
  have htarget₂ : heap₂ s.next = (heap s.next).sortOutputs ls := Function.update_self ..
  obtain ⟨hle, hlists₃⟩ := flattenOutputs_keeps jump hnext houtputs
  have hsorted : Displaces jump (heap s.next).words.length (heap s.next) →
      Displaces jump (heap₂ s.next).words.length (heap₂ s.next) := fun ht => by
    rw [htarget₂]
    exact ht
  rw [htarget₂] at hle
  refine ⟨Displaces.flattenOutputs hjump hnext (fun p hp hsection => ?_) houtputs
    (hsorted (htracks₁.flattenFiles hjump hapart₁ hmoves (hle.trans_lt hfit))) hfit, hlists₃ ?_⟩
  · rw [hheap₂, Function.update_of_ne (hne p hp)] at hsection ⊢
    rw [hbins] at hp
    rcases List.mem_cons.mp hp with rfl | hp
    · -- the bin of the jumplist is a file's
      have hname := (flattenFiles_keeps jump hne hfiles).2.2.2.1 0 (hne 0 hmem₀)
      rw [LdBin.isFile, hname, ← LdBin.isFile, hzero.isFile, isFile_jumplistBin] at hsection
      exact absurd hsection (by decide)
    · exact hapart₂ p (hapart₁ p hp).1 (hapart₁ p hp).2
  · rw [htarget₂]
    exact hlists₂ hlists₁

/-- Nothing is done to a bin without words. -/
theorem binsCompress_nil {p : BinPtr} {saved : ℕ} (hbins : s.bins = [p])
    (hwords : s.flat.words = []) (h : binsCompress ls s = .ok (s', saved)) : s' = s := by
  obtain ⟨r, hloop, rfl⟩ := (binsCompress_single hbins).mp h
  rw [compressLoop_end (by rw [← LdBins.flat_eq hbins, hwords]; exact Nat.zero_le _)] at hloop
  cases hloop
  obtain ⟨heap, bins, next⟩ := s
  obtain rfl : bins = [p] := hbins
  rfl

theorem Displaces.setWord {b : LdBin} {m address : ℕ} {word : Word} (h : Displaces jump m b) :
    Displaces jump m (b.setWord address word) := by
  intro e' he' e he hlabel
  rw [LdBin.setWord, List.length_set]
  exact h e' he' e he hlabel

/-- **Through `bins_compress`**, which takes no word from before the first instruction. -/
theorem Displaces.compress {p : BinPtr} {m saved : ℕ} (hbins : s.bins = [p])
    (h : binsCompress ls s = .ok (s', saved)) (htracks : Displaces jump m s.flat)
    (hwords : s.flat.words ≠ []) :
    s'.bins = [p] ∧ Displaces jump m s'.flat ∧ s'.flat.words ≠ [] := by
  rw [LdBins.flat_eq hbins] at htracks hwords
  obtain ⟨r, hloop, rfl⟩ := (binsCompress_single hbins).mp h
  refine ⟨rfl, ?_⟩
  refine (compressLoop_run (P := fun _ heap => Displaces jump m (heap p) ∧ (heap p).words ≠ [])
    (fun _ _ _ hP _ _ => hP) (fun i heap inst short heap' hP _ _ hremove => ?_) hloop
    ⟨htracks, hwords⟩).elim fun _ hinv => hinv
  obtain ⟨hoffset, hremoved, -⟩ := binRemove_repointed hremove
  rw [Function.update_self] at hoffset hremoved
  refine ⟨(hP.1.setWord.remove ls hoffset).repointed hremoved, fun hnil => ?_⟩
  have hlength := length_remove ls hoffset
  rw [hremoved.words_eq_nil] at hnil
  rw [hnil, List.length_nil] at hlength
  omega

/-- With a jumplist a call is a jump through its table. -/
theorem callCode_jumplist {policies : Policies} {setting : Bstring → Option Bstring}
    {path : Bstring} (hpolicies : policies = some setting)
    (hpath : setting "jumplist".toList = some path) {bin : LdBin} {call : LconvEntry}
    {code : List Word} (h : callCode policies bin call = .ok code) :
    code = generateJump bin call := by
  subst hpolicies
  unfold callCode at h
  dsimp only at h
  rw [hpath] at h
  rcases hinterrupt : setting "interrupt-call".toList with - | text <;> rw [hinterrupt] at h <;>
    cases h
  rfl

/-- **The generated code of a call** takes the entries along as well. -/
theorem Displaces.call {policies : Policies} {bin temp : BinPtr} {call : LconvEntry}
    {heap heap' : Heap} (hjump : ∀ e ∈ jump, e.address < 0x10000)
    (hpolicies : ∃ setting path, policies = some setting ∧ setting "jumplist".toList = some path)
    (hne : bin ≠ temp) (hwords : (heap bin).words = [])
    (h : ldcallGenerate ls policies [bin] bin temp call heap = .ok heap')
    (htracks : Displaces jump 0 (heap bin)) :
    Displaces jump 2 (heap' bin) ∧ (heap' bin).words ≠ [] := by
  obtain ⟨setting, path, hsetting, hpath⟩ := hpolicies
  obtain ⟨code, hcode, hmove⟩ := ldcallGenerate_cases h
  obtain rfl := callCode_jumplist hsetting hpath hcode
  obtain ⟨hat, hoffset, hto, -, -⟩ := binMove_repointed hmove hne.symm
  rw [Function.update_of_ne hne] at hat hto
  rw [Function.update_self] at hoffset hto
  have hlength := hto.length.trans (length_insert hat hoffset)
  have hzero : (heap bin).words.length = 0 := List.length_eq_zero_iff.mpr hwords
  have hapart : Apart jump ((tempBin (generateJump (heap bin) call)).sortTables ls) := by
    rw [sortTables_tempBin]
    exact fun e' he' => absurd he' List.not_mem_nil
  have htwo : (generateJump (heap bin) call).length = 2 := rfl
  have hinsert := Displaces.insert false hjump (by rwa [hzero]) hapart hat hoffset
    (by omega)
  refine ⟨?_, fun hnil => ?_⟩
  · have := hinsert.repointed hto
    rwa [hzero, htwo] at this
  · rw [hnil, hzero, htwo] at hlength
    exact absurd hlength (by decide)

end Stages

theorem resolveCalls_nil {ls : ListSort} {policies : Policies} {bin temp : BinPtr} {heap : Heap}
    (h : (heap bin).tables .call = []) (is : List ℕ) :
    resolveCalls ls policies bin temp is heap = .ok heap := by
  cases is with
  | nil => rfl
  | cons i is => rw [resolveCalls, h, List.getElem?_nil]

/-- **The addresses of a jumplist survive a link that links nothing, and no other**: the entries
keep them exactly if there are none, or neither words nor calls get into the linked bin. -/
theorem jumpsKept_iff (ls : ListSort) {jump : List LconvEntry} {files : List LdBin}
    {policies : Policies} {s s₂ s₃ s₄ : LdBins} {saved : ℕ}
    (hjump : ∀ e ∈ jump, e.address < 0x10000) (hlabels : (jump.map LconvEntry.label).Nodup)
    (hfiles : ∀ f ∈ files, Apart jump f)
    (hpolicies : ∃ setting path, policies = some setting ∧ setting "jumplist".toList = some path)
    (h : sectionizeJumplist ls jump files = .ok s) (h₂ : binsFlatten ls outputName s = .ok s₂)
    (hfit : s₂.flat.words.length < 0x10000) (h₃ : binsCompress ls s₂ = .ok (s₃, saved))
    (h₄ : binsResolveKernel ls policies s₃ = .ok s₄) :
    JumpsKept ls policies jump s₃ ↔ jump = [] ∨ NothingToLink s := by
  obtain ⟨rest, hbins, hnd, hnext, hjumplist, hapart⟩ := sectionizeJumplist_ok hfiles h
  obtain ⟨htracks, hlists⟩ := tracks_flatten hjump hlabels hbins hnext hjumplist hapart h₂ hfit
  obtain ⟨-, -, -, hbins₂, hnext₂⟩ := binsFlatten_cases h₂
  have hflat₂ := LdBins.flat_eq hbins₂
  rw [nothingToLink_iff hnd hnext h₂]
  constructor
  · intro hkept
    by_contra hcond
    rw [not_or] at hcond
    obtain ⟨hne, hcond⟩ := hcond
    by_cases hwords : s₂.flat.words = []
    · -- the first call inserts words
      obtain rfl := binsCompress_nil hbins₂ hwords h₃
      have hcall : s₃.flat.tables .call ≠ [] := fun hnil => hcond ⟨hwords, hnil⟩
      rw [hwords] at htracks
      rw [hflat₂] at hwords hcall htracks
      obtain ⟨call, hfirst⟩ : ∃ call, ((s₃.heap s.next).tables .call)[0]? = some call :=
        ⟨_, List.getElem?_eq_getElem (List.length_pos_iff.mpr hcall)⟩
      rw [binsResolveKernel, hbins₂] at h₄
      obtain ⟨heap, hcalls, -⟩ := exists_of_bind_eq_ok h₄
      obtain ⟨n, hn⟩ : ∃ n, ((s₃.heap s.next).tables .call).length = n + 1 :=
        Nat.exists_eq_add_one.mpr (List.length_pos_iff.mpr hcall)
      rw [hn, List.range_succ_eq_map] at hcalls
      obtain ⟨heap₁, hgenerate, -⟩ := resolveCalls_cons hfirst hcalls
      obtain ⟨htracks₁, hwords₁⟩ := htracks.call hjump hpolicies
        (by rw [hnext₂]; exact Nat.ne_of_lt (Nat.lt_succ_self _)) hwords hgenerate
      refine htracks₁.not_keepsJumps (by decide) hne hwords₁ ?_
      have hkept₁ := hkept 1 heap₁
      rw [hbins₂] at hkept₁
      refine hkept₁ ?_
      change resolveCalls ls policies s.next s₃.next [0] s₃.heap = _
      rw [resolveCalls, hfirst]
      change (ldcallGenerate ls policies [s.next] s.next s₃.next call s₃.heap >>= _) = _
      rw [hgenerate]
      rfl
    · -- there are words before the first call
      obtain ⟨hbins₃, htracks₃, hwords₃⟩ := htracks.compress hbins₂ h₃ hwords
      refine htracks₃.not_keepsJumps hfit hne hwords₃ ?_
      exact hkept 0 s₃.heap rfl
  · rintro (rfl | ⟨hwords, hcall⟩)
    · exact fun _ _ _ e he => absurd he List.not_mem_nil
    · obtain rfl := binsCompress_nil hbins₂ hwords h₃
      intro n heap hn
      have hheap : heap = s₃.heap := by
        rw [resolveCalls_nil hcall] at hn
        cases hn
        rfl
      rw [hheap]
      rw [hwords] at htracks
      exact htracks.keepsJumps hjump hlists hwords

/-- A jumplist with the entry `f` at `0x10`. -/
def smallJumplist : List LconvEntry := [⟨['f'], none, 0x10⟩]

/-- A file of one word. -/
def wordFile : LdBin where
  name := ['w']
  words := [0]
  tables _ := []
  symbols := []

theorem wordFile_apart (jump : List LconvEntry) : ∀ f ∈ [wordFile], Apart jump f := by
  rw [List.forall_mem_singleton]
  exact fun e' he' => absurd he' List.not_mem_nil

theorem jumpsKept_iff_wordFile :
    ∃ s s₂ s₃ s₄ saved, sectionizeJumplist .insertion smallJumplist [wordFile] = .ok s ∧
      binsFlatten .insertion outputName s = .ok s₂ ∧ binsCompress .insertion s₂ = .ok (s₃, saved) ∧
      binsResolveKernel .insertion jumplistPolicies s₃ = .ok s₄ ∧
      (JumpsKept .insertion jumplistPolicies smallJumplist s₃ ↔
        smallJumplist = [] ∨ NothingToLink s) :=
  ⟨_, _, _, _, _, rfl, rfl, rfl, rfl, jumpsKept_iff .insertion (by decide) (by decide)
    (wordFile_apart _) ⟨_, _, rfl, rfl⟩ rfl rfl (by decide) rfl rfl⟩

/-- The word of the file moves the entry from `0x10` to `0x11`. -/
theorem not_forall_jumpsKept :
    ¬∀ (ls : ListSort) (jump : List LconvEntry) (files : List LdBin) (policies : Policies)
      (s s₂ s₃ s₄ : LdBins) (saved : ℕ), (∀ e ∈ jump, e.address < 0x10000) →
      (jump.map LconvEntry.label).Nodup → (∀ f ∈ files, Apart jump f) →
      (∃ setting path, policies = some setting ∧ setting "jumplist".toList = some path) →
      sectionizeJumplist ls jump files = .ok s → binsFlatten ls outputName s = .ok s₂ →
      s₂.flat.words.length < 0x10000 → binsCompress ls s₂ = .ok (s₃, saved) →
      binsResolveKernel ls policies s₃ = .ok s₄ → JumpsKept ls policies jump s₃ := by
  intro h
  have hkept := h .insertion smallJumplist [wordFile] jumplistPolicies _ _ _ _ _ (by decide)
    (by decide) (wordFile_apart _) ⟨_, _, rfl, rfl⟩ rfl rfl (by decide) rfl rfl
  obtain ⟨e', he', haddress⟩ := hkept 0 _ rfl ⟨['f'], none, 0x10⟩ List.mem_cons_self
  cases he'
  exact absurd haddress (by decide)

end DcpuToolchain
