import DcpuToolchain.Ld.Tables

/-!
# What moving words leaves alone

An insertion and a removal first change one or two bins and then walk over the adjustments of
all. The walk changes the values of words and the adjustment tables, and nothing else
(`DcpuToolchain.Repointed`), so that whenever an operation succeeds every bin is what it was
before the walk up to that (`DcpuToolchain.binInsert_repointed`,
`DcpuToolchain.binRemove_repointed`). Nothing is asked of the bins.
-/

namespace DcpuToolchain

open Marks

/-- What succeeds in a chain has succeeded at its first step. -/
theorem exists_of_bind_eq_ok {ε α β : Type} {x : Except ε α} {k : α → Except ε β} {b : β}
    (h : (x >>= k) = .ok b) : ∃ a, x = .ok a ∧ k a = .ok b := by
  cases x with
  | error _ => cases h
  | ok a => exact ⟨a, rfl, h⟩

/-! ### The walk -/

/-- The word at a position. -/
def LdBin.word (b : LdBin) (p : ℕ) : Word := b.words.getD p 0

/-- Whether a word is adjusted. -/
def LdBin.adjustedAt (b : LdBin) (p : ℕ) : Bool := (b.tables .adjustment).any (·.address = p)

theorem adjustedAt_iff {b : LdBin} {p : ℕ} :
    b.adjustedAt p = true ↔ ∃ e ∈ b.tables .adjustment, e.address = p := by
  simp [LdBin.adjustedAt]

/-- A bin after walks over its adjustments. -/
structure Repointed (b b' : LdBin) : Prop where
  name : b'.name = b.name
  length : b'.words.length = b.words.length
  tables : ∀ t, t ≠ .adjustment → b'.tables t = b.tables t
  symbols : b'.symbols = b.symbols

namespace Repointed

theorem refl (b : LdBin) : Repointed b b := ⟨rfl, rfl, fun _ _ => rfl, rfl⟩

theorem of_eq {b b' : LdBin} (h : b' = b) : Repointed b b' := h ▸ refl b

theorem trans {b b' b'' : LdBin} (h : Repointed b b') (h' : Repointed b' b'') :
    Repointed b b'' where
  name := h'.name.trans h.name
  length := h'.length.trans h.length
  tables t ht := (h'.tables t ht).trans (h.tables t ht)
  symbols := h'.symbols.trans h.symbols

theorem words_eq_nil {b b' : LdBin} (h : Repointed b b') : b'.words = [] ↔ b.words = [] := by
  rw [← List.length_eq_zero_iff, h.length, List.length_eq_zero_iff]

end Repointed

section Walk

variable {pre : LconvEntry → LconvEntry} {post : LconvEntry → Word → LconvEntry × Word}
  {missing : LdError}

theorem length_adjust {es : List LconvEntry} {words : List Word} {r : List LconvEntry × List Word}
    (h : adjust pre post missing es words = .ok r) : r.2.length = words.length := by
  induction es generalizing words r with
  | nil =>
    cases h
    rfl
  | cons e es ih =>
    rw [adjust] at h
    split at h
    · cases h
    · obtain ⟨r', hrest, h⟩ := exists_of_bind_eq_ok h
      cases h
      exact (ih hrest).trans (List.length_set ..)

/-- A walk that leaves the entries where it finds them changes only words that they mark. -/
theorem adjust_getElem? (hpost : ∀ e w, (post e w).1.address = e.address) {es : List LconvEntry}
    {words : List Word} {r : List LconvEntry × List Word}
    (h : adjust pre post missing es words = .ok r) {i : ℕ} (hi : ∀ e ∈ r.1, e.address ≠ i) :
    r.2[i]? = words[i]? := by
  induction es generalizing words r with
  | nil =>
    cases h
    rfl
  | cons e es ih =>
    rw [adjust] at h
    split at h
    · cases h
    · obtain ⟨r', hrest, h⟩ := exists_of_bind_eq_ok h
      cases h
      rw [List.forall_mem_cons, hpost] at hi
      exact (ih hrest hi.2).trans (List.getElem?_set_ne hi.1)

/-- The entries after a walk are those before it, and each of them was in the bin. -/
theorem mem_adjust {es : List LconvEntry} {words : List Word} {r : List LconvEntry × List Word}
    (h : adjust pre post missing es words = .ok r) {e' : LconvEntry} (he' : e' ∈ r.1) :
    ∃ e ∈ es, (pre e).address < words.length ∧ ∃ w, e' = (post (pre e) w).1 := by
  induction es generalizing words r with
  | nil =>
    cases h
    cases he'
  | cons e es ih =>
    rw [adjust] at h
    split at h
    · cases h
    · rename_i w hw
      obtain ⟨r', hrest, h⟩ := exists_of_bind_eq_ok h
      cases h
      rcases List.mem_cons.mp he' with rfl | he'
      · exact ⟨e, List.mem_cons_self, (List.getElem?_eq_some_iff.mp hw).1, w, rfl⟩
      · obtain ⟨e₀, he₀, hlt, hw₀⟩ := ih hrest he'
        rw [List.length_set] at hlt
        exact ⟨e₀, List.mem_cons_of_mem _ he₀, hlt, hw₀⟩

theorem LdBin.mem_adjust {b b' : LdBin} (h : b.adjust pre post missing = .ok b')
    {e' : LconvEntry} (he' : e' ∈ b'.tables .adjustment) :
    ∃ e ∈ b.tables .adjustment, (pre e).address < b.words.length ∧
      ∃ w, e' = (post (pre e) w).1 := by
  rw [LdBin.adjust] at h
  rcases hr : DcpuToolchain.adjust pre post missing (b.tables .adjustment) b.words
    with error | r <;>
    rw [hr] at h <;> cases h
  exact DcpuToolchain.mem_adjust hr he'

/-- A walk that changes no entry but by `pre`: the entries are in the bin, and a word that no entry
changes stays. -/
theorem adjust_entries (hpost : ∀ e w, (post e w).1 = e) {es : List LconvEntry}
    {words : List Word} {r : List LconvEntry × List Word}
    (h : adjust pre post missing es words = .ok r) :
    r.1 = es.map pre ∧ (∀ e ∈ es, (pre e).address < words.length) ∧
      ∀ i, (∀ e ∈ es, (pre e).address = i → ∀ w, (post (pre e) w).2 = w) →
        r.2[i]? = words[i]? := by
  induction es generalizing words r with
  | nil =>
    cases h
    exact ⟨rfl, nofun, fun _ _ => rfl⟩
  | cons e es ih =>
    rw [adjust] at h
    split at h
    · cases h
    · rename_i w hw
      obtain ⟨r', hrest, h⟩ := exists_of_bind_eq_ok h
      cases h
      obtain ⟨hentries, hlt, hwords⟩ := ih hrest
      rw [List.length_set] at hlt
      have hlt' := (List.getElem?_eq_some_iff.mp hw).1
      refine ⟨by rw [hpost, List.map_cons, hentries], List.forall_mem_cons.mpr ⟨hlt', hlt⟩,
        fun i hi => ?_⟩
      rw [List.forall_mem_cons] at hi
      rw [hwords i hi.2]
      by_cases hat : (pre e).address = i
      · rw [hi.1 hat, ← hat, List.getElem?_set_self hlt', hw]
      · exact List.getElem?_set_ne hat

theorem LdBin.adjust_entries (hpost : ∀ e w, (post e w).1 = e) {b b' : LdBin}
    (h : b.adjust pre post missing = .ok b') :
    b'.tables .adjustment = (b.tables .adjustment).map pre ∧
      (∀ e ∈ b.tables .adjustment, (pre e).address < b.words.length) ∧
      ∀ i, (∀ e ∈ b.tables .adjustment, (pre e).address = i → ∀ w, (post (pre e) w).2 = w) →
        b'.words[i]? = b.words[i]? := by
  rw [LdBin.adjust] at h
  rcases hr : DcpuToolchain.adjust pre post missing (b.tables .adjustment) b.words
    with error | r <;>
    rw [hr] at h <;> cases h
  exact DcpuToolchain.adjust_entries hpost hr

/-- The words of a bin that are not adjusted are what they were before a walk. -/
theorem LdBin.adjust_getElem? (hpost : ∀ e w, (post e w).1.address = e.address) {b b' : LdBin}
    (h : b.adjust pre post missing = .ok b') {i : ℕ} (hi : b'.adjustedAt i = false) :
    b'.words[i]? = b.words[i]? := by
  rw [LdBin.adjust] at h
  rcases hr : DcpuToolchain.adjust pre post missing (b.tables .adjustment) b.words
    with error | r <;>
    rw [hr] at h <;> cases h
  refine DcpuToolchain.adjust_getElem? hpost hr fun e he heq => ?_
  rw [adjustedAt_iff.mpr ⟨e, he, heq⟩] at hi
  cases hi

theorem LdBin.adjust_repointed {b b' : LdBin} (h : b.adjust pre post missing = .ok b') :
    Repointed b b' := by
  rw [LdBin.adjust] at h
  rcases hr : DcpuToolchain.adjust pre post missing (b.tables .adjustment) b.words
    with error | r <;>
    rw [hr] at h <;> cases h
  exact ⟨rfl, length_adjust hr, fun t ht => if_neg ht, rfl⟩

theorem adjustBins_repointed {ps : List BinPtr} {heap heap' : Heap}
    (h : adjustBins (LdBin.adjust pre post missing) ps heap = .ok heap') (p : BinPtr) :
    Repointed (heap p) (heap' p) := by
  induction ps generalizing heap with
  | nil =>
    cases h
    exact .refl _
  | cons q ps ih =>
    rw [adjustBins] at h
    obtain ⟨b, hb, h⟩ := exists_of_bind_eq_ok h
    refine Repointed.trans ?_ (ih h)
    by_cases hp : p = q
    · subst hp
      rw [Function.update_self]
      exact LdBin.adjust_repointed hb
    · rw [Function.update_of_ne hp]
      exact .refl _

/-- A walk leaves the bins alone that are not in its list. -/
theorem adjustBins_of_notMem {f : LdBin → Except LdError LdBin} {ps : List BinPtr}
    {heap heap' : Heap} (h : adjustBins f ps heap = .ok heap') {p : BinPtr} (hp : p ∉ ps) :
    heap' p = heap p := by
  induction ps generalizing heap with
  | nil =>
    cases h
    rfl
  | cons q ps ih =>
    rw [List.mem_cons, not_or] at hp
    rw [adjustBins] at h
    obtain ⟨b, -, h⟩ := exists_of_bind_eq_ok h
    rw [ih h hp.2, Function.update_of_ne hp.1]

/-- A bin that is in the list once is walked over once. -/
theorem adjustBins_of_count_eq_one {f : LdBin → Except LdError LdBin} {ps : List BinPtr}
    {heap heap' : Heap} (h : adjustBins f ps heap = .ok heap') {p : BinPtr}
    (hp : ps.count p = 1) : f (heap p) = .ok (heap' p) := by
  induction ps generalizing heap with
  | nil => cases hp
  | cons q ps ih =>
    rw [adjustBins] at h
    obtain ⟨b, hb, h⟩ := exists_of_bind_eq_ok h
    rcases eq_or_ne q p with rfl | hq
    · rw [List.count_cons_self, Nat.succ_inj, List.count_eq_zero] at hp
      rw [adjustBins_of_notMem h hp, Function.update_self]
      exact hb
    · rw [List.count_cons_of_ne hq] at hp
      have hrest := ih h hp
      rwa [Function.update_of_ne hq.symm] at hrest

end Walk

/-! ### The operations -/

section Operations

variable {ls : ListSort} {iterated : Bool} {all : List BinPtr} {toBin fromBin bin : BinPtr}
  {atPos offset count : ℕ} {heap heap' : Heap}

/-- **A successful insertion**: the source bin is sorted, the target bin has the words and the
entries, and every bin is walked over. -/
theorem binInsert_repointed
    (h : binInsert ls iterated all toBin fromBin atPos offset count heap = .ok heap')
    (hne : fromBin ≠ toBin) :
    atPos ≤ (heap toBin).words.length ∧ offset + count ≤ (heap fromBin).words.length ∧
      Repointed ((heap toBin).insert iterated ((heap fromBin).sortTables ls) atPos offset count)
        (heap' toBin) ∧
      Repointed ((heap fromBin).sortTables ls) (heap' fromBin) ∧
      ∀ p, p ≠ toBin → p ≠ fromBin → Repointed (heap p) (heap' p) := by
  rw [binInsert] at h
  split at h
  · cases h
  · rename_i hguard
    rw [not_or, Nat.not_lt, Nat.not_lt] at hguard
    have hall := adjustBins_repointed h
    refine ⟨hguard.1, hguard.2, ?_, ?_, fun p hto hfrom => ?_⟩
    · have := hall toBin
      rwa [Function.update_self, Function.update_of_ne hne.symm, Function.update_self] at this
    · have := hall fromBin
      rwa [Function.update_of_ne hne, Function.update_self] at this
    · have := hall p
      rwa [Function.update_of_ne hto, Function.update_of_ne hfrom] at this

/-- **A successful removal**: the bin is without the words and the entries, and every bin is
walked over. -/
theorem binRemove_repointed (h : binRemove ls all bin offset count heap = .ok heap') :
    offset + count ≤ (heap bin).words.length ∧
      Repointed ((heap bin).remove ls offset count) (heap' bin) ∧
      ∀ p, p ≠ bin → Repointed (heap p) (heap' p) := by
  rw [binRemove] at h
  split at h
  · cases h
  · rename_i hguard
    rw [Nat.not_lt] at hguard
    have hall := adjustBins_repointed h
    refine ⟨hguard, ?_, fun p hp => ?_⟩
    · have := hall bin
      rwa [Function.update_self] at this
    · have := hall p
      rwa [Function.update_of_ne hp] at this

theorem shiftUp_address (a n : ℕ) (e : LconvEntry) :
    (shiftUp a n e).address = if a ≤ e.address then u16 (e.address + n) else e.address := by
  rw [shiftUp]
  change (if a ≤ e.address then _ else e).address = _
  split <;> rfl

theorem repointInserted_address (toName fromName : Bstring) (atPos offset count : ℕ)
    (e : LconvEntry) (w : Word) :
    (repointInserted toName fromName atPos offset count e w).1.address = e.address := by
  rw [repointInserted]
  split
  · rfl
  · split <;> rfl

theorem repointRemoved_fst (name : Bstring) (offset count : ℕ) (e : LconvEntry) (w : Word) :
    (repointRemoved name offset count e w).1 = e := by
  rw [repointRemoved]
  split <;> rfl

theorem repointRemoved_address (name : Bstring) (offset count : ℕ) (e : LconvEntry) (w : Word) :
    (repointRemoved name offset count e w).1.address = e.address := by
  rw [repointRemoved_fst]

/-- The target of an insertion is walked over after the other bins. -/
theorem binInsert_walk
    (h : binInsert ls iterated all toBin fromBin atPos offset count heap = .ok heap')
    (hne : fromBin ≠ toBin) :
    LdBin.adjust id
        (repointInserted (heap toBin).name (heap fromBin).name atPos offset count) .assertion
        ((heap toBin).insert iterated ((heap fromBin).sortTables ls) atPos offset count) =
      .ok (heap' toBin) := by
  rw [binInsert] at h
  split at h
  · cases h
  · have hcount : (all.filter (· ≠ toBin) ++ [toBin]).count toBin = 1 := by
      rw [List.count_append, List.count_singleton_self, List.count_eq_zero.mpr (by simp)]
    have hwalk := adjustBins_of_count_eq_one h hcount
    rw [Function.update_self, Function.update_of_ne hne, Function.update_self,
      Function.update_of_ne hne.symm] at hwalk
    exact hwalk

/-- A removal walks over its bin if that is in the list. -/
theorem binRemove_walk (h : binRemove ls all bin offset count heap = .ok heap') (hnd : all.Nodup)
    (hbin : bin ∈ all) :
    LdBin.adjust (lowerRemoved (heap bin).name offset count)
        (repointRemoved (heap bin).name offset count) .bug191Workaround
        ((heap bin).remove ls offset count) = .ok (heap' bin) := by
  rw [binRemove] at h
  split at h
  · cases h
  · have hwalk := adjustBins_of_count_eq_one h (List.count_eq_one_of_mem hnd hbin)
    rw [Function.update_self] at hwalk
    exact hwalk

/-- If it is not, nothing more happens to it. -/
theorem binRemove_eq_of_notMem (h : binRemove ls all bin offset count heap = .ok heap')
    (hbin : bin ∉ all) : heap' bin = (heap bin).remove ls offset count := by
  rw [binRemove] at h
  split at h
  · cases h
  · rw [adjustBins_of_notMem h hbin, Function.update_self]

/-- Each other bin of the list is walked over after an insertion. -/
theorem binInsert_walk_of_ne
    (h : binInsert ls iterated all toBin fromBin atPos offset count heap = .ok heap')
    (hne : fromBin ≠ toBin) (hnd : all.Nodup) {p : BinPtr} (hp : p ∈ all) (hto : p ≠ toBin) :
    LdBin.adjust id
        (repointInserted (heap toBin).name (heap fromBin).name atPos offset count) .assertion
        (if p = fromBin then (heap p).sortTables ls else heap p) = .ok (heap' p) := by
  rw [binInsert] at h
  split at h
  · cases h
  · have hcount : (all.filter (· ≠ toBin) ++ [toBin]).count p = 1 := by
      rw [List.count_append, List.count_filter (by simpa using hto),
        List.count_eq_one_of_mem hnd hp, List.count_eq_zero.mpr (by simpa using hto)]
    have hwalk := adjustBins_of_count_eq_one h hcount
    rw [Function.update_self, Function.update_of_ne hne, Function.update_self,
      Function.update_of_ne hne.symm, Function.update_of_ne hto] at hwalk
    by_cases hfrom : p = fromBin
    · subst hfrom
      rw [Function.update_self] at hwalk
      rw [if_pos rfl]
      exact hwalk
    · rw [Function.update_of_ne hfrom] at hwalk
      rw [if_neg hfrom]
      exact hwalk

/-- Each other bin of the list is walked over after a removal. -/
theorem binRemove_walk_of_ne (h : binRemove ls all bin offset count heap = .ok heap')
    (hnd : all.Nodup) {p : BinPtr} (hp : p ∈ all) (hne : p ≠ bin) :
    LdBin.adjust (lowerRemoved (heap bin).name offset count)
        (repointRemoved (heap bin).name offset count) .bug191Workaround (heap p) =
      .ok (heap' p) := by
  rw [binRemove] at h
  split at h
  · cases h
  · have hwalk := adjustBins_of_count_eq_one h (List.count_eq_one_of_mem hnd hp)
    rw [Function.update_self, Function.update_of_ne hne] at hwalk
    exact hwalk

/-- A removal leaves the bins alone that are not in its list. -/
theorem binRemove_of_notMem (h : binRemove ls all bin offset count heap = .ok heap')
    {p : BinPtr} (hp : p ∉ all) (hne : p ≠ bin) : heap' p = heap p := by
  rw [binRemove] at h
  split at h
  · cases h
  · rw [adjustBins_of_notMem h hp, Function.update_of_ne hne]

/-- The words of a bin into which words were inserted. -/
theorem length_insert {b src : LdBin} (hat : atPos ≤ b.words.length)
    (hoffset : offset + count ≤ src.words.length) :
    (b.insert iterated src atPos offset count).words.length = b.words.length + count := by
  rw [LdBin.insert]
  simp only [List.length_append, List.length_take, List.length_drop]
  omega

/-- The words of a bin from which words were removed. -/
theorem length_remove (ls : ListSort) {b : LdBin} (hoffset : offset + count ≤ b.words.length) :
    (b.remove ls offset count).words.length + count = b.words.length := by
  rw [LdBin.remove]
  simp only [List.length_append, List.length_take, List.length_drop]
  omega

/-- **A successful move**, seen from the target bin, the source bin and the others. -/
theorem binMove_repointed
    (h : binMove ls iterated all toBin fromBin atPos offset count heap = .ok heap')
    (hne : fromBin ≠ toBin) :
    atPos ≤ (heap toBin).words.length ∧ offset + count ≤ (heap fromBin).words.length ∧
      Repointed ((heap toBin).insert iterated ((heap fromBin).sortTables ls) atPos offset count)
        (heap' toBin) ∧
      (∃ b, Repointed ((heap fromBin).sortTables ls) b ∧
        Repointed (b.remove ls offset count) (heap' fromBin)) ∧
      ∀ p, p ≠ toBin → p ≠ fromBin → Repointed (heap p) (heap' p) := by
  rw [binMove] at h
  obtain ⟨heap₁, hinsert, hremove⟩ := exists_of_bind_eq_ok h
  obtain ⟨hat, hoffset, hto, hfrom, hother⟩ := binInsert_repointed hinsert hne
  obtain ⟨-, hremoved, hother'⟩ := binRemove_repointed hremove
  exact ⟨hat, hoffset, hto.trans (hother' toBin hne.symm), ⟨_, hfrom, hremoved⟩,
    fun p hp hp' => (hother p hp hp').trans (hother' p hp')⟩

end Operations

end DcpuToolchain
