import DcpuToolchain.Ld.Bins

/-!
# Resolving labels

`bins_resolve` fills the words of the flattened bin that imports mark: first the required
ones, then the optional ones. A word filled from a provided label is an address of the
bin and is to be adjusted from then on; one filled from a jump entry or with zero is
absolute.

The pointer that carries the new adjustment is set where a provided label is found and
never reset, so that after the first such word every word filled is entered in the
adjustment table. `DcpuToolchain.resolve_resolves_iff` says that this is the only
thing that goes wrong.
-/

namespace DcpuToolchain

/-! ### The code -/

/-- `list_seek` with `lconv_entry_seeker`: the first entry of a label. -/
def seek (list : List LconvEntry) (label : Bstring) : Option LconvEntry :=
  list.find? (·.label = label)

/-- What the loops of `bins_resolve` change: the words and the adjustments of the bin,
and the pointer `adjustment`, of whose entry only the label outlives an iteration. -/
structure ResolveState where
  words : List Word
  adjustment : List LconvEntry
  pointer : Option Bstring

namespace ResolveState

/-- `*word = value`, where `word` is what `list_get_at` returned. -/
def setWord (s : ResolveState) (address value : ℕ) : Except LdError ResolveState :=
  if address < s.words.length then
    .ok ⟨s.words.set address (BitVec.ofNat 16 value), s.adjustment, s.pointer⟩
  else .error .nullPointer

/-- The end of an iteration: if there is an adjustment it is appended. -/
def appendAdjustment (s : ResolveState) (name : Bstring) (address : ℕ) : ResolveState :=
  match s.pointer with
  | none => s
  | some label => ⟨s.words, s.adjustment ++ [⟨label, some name, address⟩], s.pointer⟩

/-- A new adjustment, with the label of the provided entry. -/
def newAdjustment (s : ResolveState) (label : Bstring) : ResolveState :=
  ⟨s.words, s.adjustment, some label⟩

end ResolveState

/-- The body of the two loops of `bins_resolve`. An optional entry may refer to an address
that the bin does not have, and is set to zero when it is missing. -/
def resolveEntry (isOptional allowMissing : Bool) (b : LdBin) (e : LconvEntry)
    (s : ResolveState) : Except LdError ResolveState :=
  if isOptional ∧ s.words.length < e.address then .ok s
  else
    match seek (b.tables .provided) e.label, seek (b.tables .jump) e.label with
    | none, none =>
      if allowMissing then .ok s
      else if isOptional then (·.appendAdjustment b.name e.address) <$> s.setWord e.address 0
      else .error .labelNotFound
    | some _, some _ => .error .labelAmbigiousProvidedJump
    | some provided, none =>
      (fun s => (s.newAdjustment provided.label).appendAdjustment b.name e.address) <$>
        s.setWord e.address provided.address
    | none, some jump => (·.appendAdjustment b.name e.address) <$> s.setWord e.address jump.address

/-- A loop of `bins_resolve`. -/
def resolveLoop (isOptional allowMissing : Bool) (b : LdBin) :
    List LconvEntry → ResolveState → Except LdError ResolveState
  | [], s => .ok s
  | e :: es, s => do
    let s ← resolveEntry isOptional allowMissing b e s
    resolveLoop isOptional allowMissing b es s

/-- Whether nothing in a bin has a label. -/
def LdBin.lacks (b : LdBin) (label : Bstring) : Bool :=
  (seek (b.tables .provided) label).isNone && (seek (b.tables .jump) label).isNone

/-- `bins_resolve` on the flattened bin. -/
def LdBin.resolve (keepProvided allowMissing keepOptional : Bool) (b : LdBin) :
    Except LdError LdBin := do
  let s ← resolveLoop false allowMissing b (b.tables .required)
    ⟨b.words, b.tables .adjustment, none⟩
  let s ← resolveLoop true allowMissing b (b.tables .optional) s
  let left := fun e : LconvEntry => b.lacks e.label && allowMissing
  .ok
    { name := b.name
      words := s.words
      tables
        | .adjustment => s.adjustment
        | .required => (b.tables .required).filter left
        | .optional =>
          if keepOptional then b.tables .optional else (b.tables .optional).filter left
        | .provided => if keepProvided then b.tables .provided else []
        | t => b.tables t
      symbols := b.symbols }

/-- `bins_resolve`. -/
def binsResolve (keepProvided allowMissing keepOptional : Bool) (s : LdBins) :
    Except LdError LdBins :=
  match s.bins with
  | [p] => do
    let b ← (s.heap p).resolve keepProvided allowMissing keepOptional
    .ok ⟨Function.update s.heap p b, [p], s.next⟩
  | _ => .error .assertion

/-! ### What resolving is for -/

section Meaning

variable (allowMissing : Bool) (b : LdBin)

/-- The entries that mark words to be filled, in the order of the loops. -/
def imports : List LconvEntry :=
  b.tables .required ++ (b.tables .optional).filter (·.address < b.words.length)

/-- An import found among the provided labels. -/
def FromProvided (e : LconvEntry) : Prop := (seek (b.tables .provided) e.label).isSome

instance : DecidablePred (FromProvided b) := fun _ => inferInstanceAs (Decidable (_ = true))

/-- What the word of an import is to be: the address of the provided label or of the jump
entry, or zero. -/
def importValue (e : LconvEntry) : Option ℕ :=
  match seek (b.tables .provided) e.label, seek (b.tables .jump) e.label with
  | some provided, _ => some provided.address
  | none, some jump => some jump.address
  | none, none => if allowMissing then none else some 0

/-- A required label is missing, and must not be. -/
def MustHalt : Prop := allowMissing = false ∧ ∃ e ∈ b.tables .required, b.lacks e.label = true

/-- **The words of the imports are filled**, no others are changed, and the words filled
from provided labels are adjusted from now on. -/
structure Resolves (b' : LdBin) : Prop where
  length : b'.words.length = b.words.length
  filled : ∀ e ∈ imports b, ∀ v, importValue allowMissing b e = some v →
    b'.words[e.address]? = some (BitVec.ofNat 16 v)
  unchanged : ∀ i, (∀ e ∈ imports b, e.address = i → importValue allowMissing b e = none) →
    b'.words[i]? = b.words[i]?
  adjustment : ((b'.tables .adjustment).map LconvEntry.address).Perm
    ((b.tables .adjustment).map LconvEntry.address ++
      ((imports b).filter (FromProvided b ·)).map LconvEntry.address)

/-- The outcome is a halt where a required label is missing, and a resolved bin
otherwise. -/
def ResolvesOrHalts : Except LdError LdBin → Prop
  | .error e => e = .labelNotFound ∧ MustHalt allowMissing b
  | .ok b' => ¬ MustHalt allowMissing b ∧ Resolves allowMissing b b'

/-- A bin whose imports mark words, each its own, and are not ambiguous. -/
structure Resolvable : Prop where
  required_lt : ∀ e ∈ b.tables .required, e.address < b.words.length
  optional_ne : ∀ e ∈ b.tables .optional, e.address ≠ b.words.length
  nodup : ((imports b).map LconvEntry.address).Nodup
  unambiguous : ∀ e ∈ imports b, FromProvided b e → seek (b.tables .jump) e.label = none

/-- No word is filled from a jump entry or with zero after one that was filled from a
provided label. -/
def NoAbsoluteAfterProvided : Prop :=
  (imports b).Pairwise fun e e' =>
    FromProvided b e → importValue allowMissing b e' ≠ none → FromProvided b e'

end Meaning

/-! ### One entry after the other -/

section Loops

variable {isOptional allowMissing : Bool} {b : LdBin} {e : LconvEntry} {es : List LconvEntry}
  {s : ResolveState}

theorem seek_label {list : List LconvEntry} {label : Bstring} (h : seek list label = some e) :
    e.label = label := by
  simpa using List.find?_some h

/-- The state after an import was filled. -/
def ResolveState.after (allowMissing : Bool) (b : LdBin) (s : ResolveState) (e : LconvEntry) :
    ResolveState :=
  match importValue allowMissing b e with
  | none => s
  | some v =>
    (⟨s.words.set e.address (BitVec.ofNat 16 v), s.adjustment,
      if FromProvided b e then some e.label else s.pointer⟩ : ResolveState).appendAdjustment
        b.name e.address

/-- The state after imports were filled one after the other. -/
def ResolveState.afterAll (allowMissing : Bool) (b : LdBin) (s : ResolveState)
    (es : List LconvEntry) : ResolveState := es.foldl (ResolveState.after allowMissing b) s

@[simp] theorem words_appendAdjustment (s : ResolveState) (name : Bstring) (address : ℕ) :
    (s.appendAdjustment name address).words = s.words := by
  rcases s with ⟨words, adjustment, - | label⟩ <;> rfl

@[simp] theorem pointer_appendAdjustment (s : ResolveState) (name : Bstring) (address : ℕ) :
    (s.appendAdjustment name address).pointer = s.pointer := by
  rcases s with ⟨words, adjustment, - | label⟩ <;> rfl

theorem address_appendAdjustment (s : ResolveState) (name : Bstring) (address : ℕ) :
    (s.appendAdjustment name address).adjustment.map LconvEntry.address =
      s.adjustment.map LconvEntry.address ++ if s.pointer.isSome then [address] else [] := by
  rcases s with ⟨words, adjustment, - | label⟩ <;> simp [ResolveState.appendAdjustment]

theorem words_after : (s.after allowMissing b e).words =
    match importValue allowMissing b e with
    | none => s.words
    | some v => s.words.set e.address (BitVec.ofNat 16 v) := by
  rw [ResolveState.after]
  rcases importValue allowMissing b e with - | v <;> simp

@[simp] theorem length_words_after : (s.after allowMissing b e).words.length = s.words.length := by
  rw [words_after]
  rcases importValue allowMissing b e with - | v <;> simp

/-- An import that marks a word, is not ambiguous and need not halt is filled. -/
theorem resolveEntry_ok (hlt : e.address < s.words.length)
    (hun : FromProvided b e → seek (b.tables .jump) e.label = none)
    (hm : isOptional = true ∨ allowMissing = true ∨ b.lacks e.label = false) :
    resolveEntry isOptional allowMissing b e s = .ok (s.after allowMissing b e) := by
  rw [resolveEntry, if_neg fun h => absurd h.2 (by omega), ResolveState.after, importValue]
  rcases hp : seek (b.tables .provided) e.label with - | provided <;>
    rcases hj : seek (b.tables .jump) e.label with - | jump
  · have hlack : b.lacks e.label = true := by rw [LdBin.lacks, hp, hj]; rfl
    rcases allowMissing with - | -
    · obtain rfl : isOptional = true := by simpa [hlack] using hm
      have hnp : ¬ FromProvided b e := by rw [FromProvided, hp]; simp
      simp [ResolveState.setWord, hlt, hnp]
    · rfl
  · have hnp : ¬ FromProvided b e := by rw [FromProvided, hp]; simp
    simp [ResolveState.setWord, hlt, hnp]
  · have hfp : FromProvided b e := by rw [FromProvided, hp]; rfl
    simp [ResolveState.setWord, hlt, hfp, ResolveState.newAdjustment, seek_label hp]
  · have hfp : FromProvided b e := by rw [FromProvided, hp]; rfl
    rw [hun hfp] at hj
    exact absurd hj (by simp)

/-- A required label that is missing and must not be halts the linker. -/
theorem resolveEntry_halt (hl : b.lacks e.label = true) :
    resolveEntry false false b e s = .error .labelNotFound := by
  rw [LdBin.lacks, Bool.and_eq_true, Option.isNone_iff_eq_none, Option.isNone_iff_eq_none] at hl
  rw [resolveEntry, if_neg (by simp), hl.1, hl.2]
  rfl

/-- **A loop fills its imports** one after the other; it leaves out the entries behind the
end of the bin. -/
theorem resolveLoop_ok
    (hlt : ∀ e ∈ es, e.address < s.words.length ∨ (isOptional = true ∧ s.words.length < e.address))
    (hun : ∀ e ∈ es, e.address < s.words.length → FromProvided b e →
      seek (b.tables .jump) e.label = none)
    (hm : ∀ e ∈ es, isOptional = true ∨ allowMissing = true ∨ b.lacks e.label = false) :
    resolveLoop isOptional allowMissing b es s =
      .ok (s.afterAll allowMissing b (es.filter (·.address < s.words.length))) := by
  induction es generalizing s with
  | nil => rfl
  | cons e es ih =>
    rw [List.forall_mem_cons] at hlt hun hm
    rw [resolveLoop]
    rcases hlt.1 with h | ⟨ho, h⟩
    · rw [resolveEntry_ok h (hun.1 h) hm.1, List.filter_cons_of_pos (by simpa using h),
        ResolveState.afterAll, List.foldl_cons]
      change resolveLoop isOptional allowMissing b es (s.after allowMissing b e) = _
      rw [ih (by simpa using hlt.2) (by simpa using hun.2) hm.2, length_words_after,
        ResolveState.afterAll]
    · rw [resolveEntry, if_pos ⟨ho, h⟩, List.filter_cons_of_neg (by simp; omega)]
      exact ih hlt.2 hun.2 hm.2

/-- The first loop halts where a required label is missing and must not be. -/
theorem resolveLoop_halt (hlt : ∀ e ∈ es, e.address < s.words.length)
    (hun : ∀ e ∈ es, FromProvided b e → seek (b.tables .jump) e.label = none)
    (hl : ∃ e ∈ es, b.lacks e.label = true) :
    resolveLoop false false b es s = .error .labelNotFound := by
  induction es generalizing s with
  | nil =>
    obtain ⟨e, he, -⟩ := hl
    exact absurd he List.not_mem_nil
  | cons e es ih =>
    rw [List.forall_mem_cons] at hlt hun
    rw [resolveLoop]
    rcases h : b.lacks e.label with - | -
    · obtain ⟨e', he', hl'⟩ := hl
      have hmem : e' ∈ es := (List.mem_cons.mp he').resolve_left fun heq => by
        rw [heq, h] at hl'
        exact absurd hl' (by simp)
      rw [resolveEntry_ok hlt.1 hun.1 (.inr (.inr h))]
      exact ih (by simpa using hlt.2) hun.2 ⟨e', hmem, hl'⟩
    · rw [resolveEntry_halt h]
      rfl

theorem afterAll_cons : s.afterAll allowMissing b (e :: es) =
    (s.after allowMissing b e).afterAll allowMissing b es := rfl

variable (allowMissing b) in
/-- What the words are after all imports were filled. -/
theorem words_afterAll (s : ResolveState) (hnd : (es.map LconvEntry.address).Nodup)
    (hlt : ∀ e ∈ es, e.address < s.words.length) :
    (s.afterAll allowMissing b es).words.length = s.words.length ∧
      (∀ e ∈ es, ∀ v, importValue allowMissing b e = some v →
        (s.afterAll allowMissing b es).words[e.address]? = some (BitVec.ofNat 16 v)) ∧
      ∀ i, (∀ e ∈ es, e.address = i → importValue allowMissing b e = none) →
        (s.afterAll allowMissing b es).words[i]? = s.words[i]? := by
  induction es generalizing s with
  | nil => simp [ResolveState.afterAll]
  | cons e es ih =>
    rw [List.forall_mem_cons] at hlt
    rw [List.map_cons, List.nodup_cons] at hnd
    obtain ⟨h1, h2, h3⟩ := ih (s.after allowMissing b e) hnd.2 (by simpa using hlt.2)
    rw [afterAll_cons]
    refine ⟨h1.trans length_words_after, ?_, fun i hi => ?_⟩
    · rw [List.forall_mem_cons]
      refine ⟨fun v hv => ?_, h2⟩
      rw [h3 _ fun e' he' heq => absurd (List.mem_map.mpr ⟨e', he', heq⟩) hnd.1, words_after, hv,
        List.getElem?_set_self hlt.1]
    · rw [List.forall_mem_cons] at hi
      rw [h3 i hi.2, words_after]
      rcases hv : importValue allowMissing b e with - | v
      · rfl
      · have hne : e.address ≠ i := fun heq => by
          rw [hi.1 heq] at hv
          exact absurd hv (by simp)
        exact List.getElem?_set_ne hne

/-- The imports that are entered as adjusted: all that are filled, once the pointer was
set. -/
def entered (allowMissing : Bool) (b : LdBin) : Bool → List LconvEntry → List LconvEntry
  | _, [] => []
  | pointer, e :: es =>
    let pointer := pointer || FromProvided b e
    (if pointer ∧ importValue allowMissing b e ≠ none then [e] else []) ++
      entered allowMissing b pointer es

variable (allowMissing) in
theorem importValue_of_fromProvided (h : FromProvided b e) :
    importValue allowMissing b e ≠ none := by
  rw [FromProvided, Option.isSome_iff_exists] at h
  obtain ⟨provided, h⟩ := h
  simp [importValue, h]

variable (allowMissing b) in
/-- What is entered in the adjustment table. -/
theorem adjustment_afterAll (es : List LconvEntry) (s : ResolveState) :
    (s.afterAll allowMissing b es).adjustment.map LconvEntry.address =
      s.adjustment.map LconvEntry.address ++
        (entered allowMissing b s.pointer.isSome es).map LconvEntry.address := by
  induction es generalizing s with
  | nil => simp [entered, ResolveState.afterAll]
  | cons e es ih =>
    have hpointer : (s.after allowMissing b e).pointer.isSome =
        (s.pointer.isSome || FromProvided b e) := by
      rw [ResolveState.after]
      by_cases hp : FromProvided b e
      · obtain ⟨v, hv⟩ :=
          Option.ne_none_iff_exists'.mp (importValue_of_fromProvided allowMissing hp)
        simp [hv, hp]
      · rcases importValue allowMissing b e with - | v <;> simp [hp]
    have hadj : (s.after allowMissing b e).adjustment.map LconvEntry.address =
        s.adjustment.map LconvEntry.address ++
          (if (s.pointer.isSome || FromProvided b e) = true ∧ importValue allowMissing b e ≠ none
            then [e.address] else []) := by
      rw [ResolveState.after]
      rcases importValue allowMissing b e with - | v
      · simp
      · simp only [address_appendAdjustment, ne_eq, reduceCtorEq, not_false_eq_true, and_true]
        by_cases hp : FromProvided b e <;> simp [hp]
    rw [afterAll_cons, ih, hpointer, hadj, entered, List.append_assoc, List.map_append]
    congr 2
    split <;> rfl

/-- Once the pointer was set, all filled words are entered. -/
theorem entered_true : entered allowMissing b true es =
    es.filter (importValue allowMissing b · ≠ none) := by
  induction es with
  | nil => rfl
  | cons e es ih =>
    rw [entered, Bool.true_or, ih]
    by_cases h : importValue allowMissing b e = none
    · rw [if_neg (by simp [h]), List.filter_cons_of_neg (by simp [h]), List.nil_append]
    · rw [if_pos ⟨rfl, h⟩, List.filter_cons_of_pos (by simp [h])]
      rfl

theorem entered_false_cons (e : LconvEntry) (es : List LconvEntry) :
    entered allowMissing b false (e :: es) =
      if FromProvided b e then e :: es.filter (importValue allowMissing b · ≠ none)
      else entered allowMissing b false es := by
  rw [entered, Bool.false_or]
  by_cases h : FromProvided b e
  · rw [if_pos h, decide_eq_true h, if_pos ⟨rfl, importValue_of_fromProvided allowMissing h⟩,
      entered_true]
    rfl
  · rw [if_neg h, decide_eq_false h, if_neg (by simp), List.nil_append]

/-- The words filled from provided labels are among all filled words. -/
theorem filter_fromProvided_sublist :
    (es.filter (FromProvided b ·)).Sublist (es.filter (importValue allowMissing b · ≠ none)) := by
  refine List.monotone_filter_right es fun e he => ?_
  simp only [decide_eq_true_eq] at he ⊢
  exact importValue_of_fromProvided allowMissing he

/-- **What is entered is what was filled from provided labels**, exactly where no other
word was filled after the first of these. -/
theorem length_entered_iff :
    (entered allowMissing b false es).length = (es.filter (FromProvided b ·)).length ↔
      es.Pairwise fun e e' =>
        FromProvided b e → importValue allowMissing b e' ≠ none → FromProvided b e' := by
  induction es with
  | nil => simp [entered]
  | cons e es ih =>
    rw [entered_false_cons, List.pairwise_cons]
    by_cases h : FromProvided b e
    · rw [if_pos h, List.filter_cons_of_pos (by simpa using h), List.length_cons, List.length_cons,
        Nat.add_right_cancel_iff]
      constructor
      · intro hlen
        have heq := filter_fromProvided_sublist.eq_of_length hlen.symm
        have hall : ∀ e' ∈ es, importValue allowMissing b e' ≠ none → FromProvided b e' :=
          fun e' he' hv => by
            have hmem : e' ∈ es.filter (FromProvided b ·) := by
              rw [heq]
              exact List.mem_filter.mpr ⟨he', by simpa using hv⟩
            simpa using (List.mem_filter.mp hmem).2
        exact ⟨fun e' he' _ => hall e' he',
          List.pairwise_of_forall_mem_list fun _ _ e₂ he₂ _ => hall e₂ he₂⟩
      · intro hp
        refine congrArg List.length (List.filter_congr fun e' he' => ?_)
        rw [decide_eq_decide]
        exact ⟨hp.1 e' he' h, importValue_of_fromProvided allowMissing⟩
    · rw [if_neg h, List.filter_cons_of_neg (by simpa using h), ih]
      exact ⟨fun hp => ⟨fun _ _ h' => absurd h' h, hp⟩, fun hp => hp.2⟩

theorem entered_eq (h : es.Pairwise fun e e' =>
    FromProvided b e → importValue allowMissing b e' ≠ none → FromProvided b e') :
    entered allowMissing b false es = es.filter (FromProvided b ·) := by
  have hsub : (es.filter (FromProvided b ·)).Sublist (entered allowMissing b false es) := by
    clear h
    induction es with
    | nil => simp
    | cons e es ih =>
      rw [entered_false_cons]
      by_cases h : FromProvided b e
      · rw [if_pos h, List.filter_cons_of_pos (by simpa using h)]
        exact filter_fromProvided_sublist.cons_cons _
      · rwa [if_neg h, List.filter_cons_of_neg (by simpa using h)]
  exact (hsub.eq_of_length (length_entered_iff.mpr h).symm).symm

end Loops

/-! ### When the labels are resolved properly -/

section Main

variable {allowMissing : Bool} {b : LdBin}

theorem Resolvable.lt_of_mem_imports (hr : Resolvable b) {e : LconvEntry} (he : e ∈ imports b) :
    e.address < b.words.length := by
  rcases List.mem_append.mp he with h | h
  · exact hr.required_lt e h
  · simpa using (List.mem_filter.mp h).2

/-- The two loops together. -/
theorem Resolvable.loops (hr : Resolvable b) (hm : ¬ MustHalt allowMissing b) :
    (resolveLoop false allowMissing b (b.tables .required) ⟨b.words, b.tables .adjustment, none⟩ >>=
      resolveLoop true allowMissing b (b.tables .optional)) =
      .ok (ResolveState.afterAll allowMissing b ⟨b.words, b.tables .adjustment, none⟩
        (imports b)) := by
  have hun : ∀ e ∈ b.tables .required, FromProvided b e → seek (b.tables .jump) e.label = none :=
    fun e he => hr.unambiguous e (List.mem_append_left _ he)
  have hfilter : (b.tables .required).filter (·.address < b.words.length) = b.tables .required :=
    List.filter_eq_self.mpr fun e he => by simpa using hr.required_lt e he
  rw [resolveLoop_ok (fun e he => .inl (hr.required_lt e he))
    (fun e he _ => hun e he) fun e he => ?_]
  · set s := ResolveState.afterAll allowMissing b ⟨b.words, b.tables .adjustment, none⟩
      ((b.tables .required).filter (·.address < b.words.length)) with hs
    have hlen : s.words.length = b.words.length := by
      rw [hs, hfilter]
      exact (words_afterAll _ _ _ ((List.sublist_append_left _ _).map _ |>.nodup hr.nodup)
        hr.required_lt).1
    change resolveLoop true allowMissing b (b.tables .optional) s = _
    rw [resolveLoop_ok, hlen, imports, ResolveState.afterAll, ResolveState.afterAll,
      List.foldl_append, hs, hfilter, ResolveState.afterAll]
    · intro e he
      rw [hlen]
      rcases Nat.lt_trichotomy e.address b.words.length with h | h | h
      · exact .inl h
      · exact absurd h (hr.optional_ne e he)
      · exact .inr ⟨rfl, h⟩
    · intro e he h
      rw [hlen] at h
      exact hr.unambiguous e (List.mem_append_right _ (List.mem_filter.mpr ⟨he, by simpa using h⟩))
    · exact fun _ _ => .inl rfl
  · rcases h : allowMissing with - | -
    · rcases hl : b.lacks e.label with - | -
      · exact .inr (.inr rfl)
      · exact absurd ⟨h, e, he, hl⟩ hm
    · exact .inr (.inl rfl)

/-- What `bins_resolve` leaves of a bin, after the loops. -/
structure LeavesBin (keepProvided allowMissing keepOptional : Bool) (b : LdBin) (s : ResolveState)
    (b' : LdBin) : Prop where
  name : b'.name = b.name
  words : b'.words = s.words
  adjustment : b'.tables .adjustment = s.adjustment
  required : b'.tables .required =
    (b.tables .required).filter fun e => b.lacks e.label && allowMissing
  optional : b'.tables .optional = if keepOptional = true then b.tables .optional
    else (b.tables .optional).filter fun e => b.lacks e.label && allowMissing
  provided : b'.tables .provided = if keepProvided = true then b.tables .provided else []
  others : ∀ t, t ≠ .adjustment → t ≠ .required → t ≠ .optional → t ≠ .provided →
    b'.tables t = b.tables t

/-- What is left of a bin, if the linker does not halt. -/
theorem Resolvable.resolve_ok (keepProvided keepOptional : Bool) (hr : Resolvable b)
    (hm : ¬ MustHalt allowMissing b) :
    ∃ b', b.resolve keepProvided allowMissing keepOptional = .ok b' ∧
      LeavesBin keepProvided allowMissing keepOptional b (ResolveState.afterAll allowMissing b
        ⟨b.words, b.tables .adjustment, none⟩ (imports b)) b' := by
  have hloops := hr.loops hm
  rw [LdBin.resolve]
  cases hrequired : resolveLoop false allowMissing b (b.tables .required)
      ⟨b.words, b.tables .adjustment, none⟩ with
  | error err =>
    rw [hrequired] at hloops
    cases hloops
  | ok s =>
    rw [hrequired] at hloops
    change resolveLoop true allowMissing b (b.tables .optional) s = _ at hloops
    simp only [bind, Except.bind, hloops]
    refine ⟨_, rfl, rfl, rfl, rfl, rfl, rfl, rfl,
      fun t hadjustment hrequired hoptional hprovided => ?_⟩
    cases t with
    | adjustment => exact absurd rfl hadjustment
    | required => exact absurd rfl hrequired
    | optional => exact absurd rfl hoptional
    | provided => exact absurd rfl hprovided
    | _ => rfl

/-- The linker halts. -/
theorem Resolvable.resolve_halt (keepProvided keepOptional : Bool) (hr : Resolvable b)
    (hl : ∃ e ∈ b.tables .required, b.lacks e.label = true) :
    b.resolve keepProvided false keepOptional = .error .labelNotFound := by
  rw [LdBin.resolve, resolveLoop_halt hr.required_lt
    (fun e he => hr.unambiguous e (List.mem_append_left _ he)) hl]
  rfl

/-- **Labels are resolved properly exactly where no word is filled from a jump entry or
with zero after one that was filled from a provided label**, or where the linker halts. -/
theorem resolve_resolves_iff (keepProvided keepOptional : Bool) (hr : Resolvable b) :
    ResolvesOrHalts allowMissing b (b.resolve keepProvided allowMissing keepOptional) ↔
      MustHalt allowMissing b ∨ NoAbsoluteAfterProvided allowMissing b := by
  by_cases hm : MustHalt allowMissing b
  · refine ⟨fun _ => .inl hm, fun _ => ?_⟩
    obtain ⟨rfl, hl⟩ := hm
    have herr : b.resolve keepProvided false keepOptional = .error .labelNotFound := by
      rw [LdBin.resolve, resolveLoop_halt hr.required_lt
        (fun e he => hr.unambiguous e (List.mem_append_left _ he)) hl]
      rfl
    rw [herr]
    exact ⟨rfl, rfl, hl⟩
  · have hloops := hr.loops hm
    set s := ResolveState.afterAll allowMissing b ⟨b.words, b.tables .adjustment, none⟩ (imports b)
      with hs
    obtain ⟨b', hb', hwords, hadj⟩ :
        ∃ b', b.resolve keepProvided allowMissing keepOptional = .ok b' ∧
        b'.words = s.words ∧ b'.tables .adjustment = s.adjustment := by
      rw [LdBin.resolve]
      rcases h1 : resolveLoop false allowMissing b (b.tables .required)
          ⟨b.words, b.tables .adjustment, none⟩ with err | s₁
      · rw [h1] at hloops
        exact absurd hloops (by rintro ⟨⟩)
      · rw [h1] at hloops
        change resolveLoop true allowMissing b (b.tables .optional) s₁ = .ok s at hloops
        refine ⟨_, by simp only [bind, Except.bind, hloops]; rfl, rfl, rfl⟩
    obtain ⟨hw1, hw2, hw3⟩ := words_afterAll allowMissing b ⟨b.words, b.tables .adjustment, none⟩
      hr.nodup fun e he => hr.lt_of_mem_imports he
    have hent := adjustment_afterAll allowMissing b (imports b)
      ⟨b.words, b.tables .adjustment, none⟩
    rw [← hs] at hw1 hw2 hw3 hent
    rw [hb']
    constructor
    · rintro ⟨-, h⟩
      refine .inr (length_entered_iff.mp ?_)
      have hlen := h.adjustment.length_eq
      rw [hadj, hent] at hlen
      simpa using hlen
    · intro h
      have hp : NoAbsoluteAfterProvided allowMissing b := h.resolve_left hm
      refine ⟨hm,
        ⟨by rw [hwords]; exact hw1, by rw [hwords]; exact hw2, by rw [hwords]; exact hw3, ?_⟩⟩
      rw [hadj, hent]
      exact List.Perm.of_eq (congrArg _ (congrArg _ (entered_eq hp)))

end Main

/-- A bin with an import that is found among the provided labels, and one that is found in
the jump list. -/
def mixedBin : LdBin where
  name := outputName
  words := [0x7c20, 0, 0x7c20, 0]
  tables
    | .provided => [⟨['f'], none, 0⟩]
    | .jump => [⟨['g'], none, 0x100⟩]
    | .required => [⟨['f'], none, 1⟩, ⟨['g'], none, 3⟩]
    | _ => []
  symbols := []

theorem mixedBin_resolvable : Resolvable mixedBin where
  required_lt := by decide
  optional_ne := by decide
  nodup := by decide
  unambiguous := by decide

theorem resolve_mixedBin_iff :
    ResolvesOrHalts false mixedBin (mixedBin.resolve false false false) ↔
      MustHalt false mixedBin ∨ NoAbsoluteAfterProvided false mixedBin :=
  resolve_resolves_iff false false mixedBin_resolvable

/-- The word that is filled from the jump entry is entered as one to be adjusted. -/
theorem not_forall_resolve_resolves :
    ¬ ∀ (keepProvided allowMissing keepOptional : Bool) (b : LdBin), Resolvable b →
      ResolvesOrHalts allowMissing b (b.resolve keepProvided allowMissing keepOptional) := by
  intro h
  have hm := h false false false mixedBin mixedBin_resolvable
  rcases hr : mixedBin.resolve false false false with err | b'
  · have : (mixedBin.resolve false false false).isOk = true := rfl
    rw [hr] at this
    exact absurd this (by simp [Except.isOk, Except.toBool])
  · rw [hr] at hm
    have hok : (mixedBin.resolve false false false).map (·.tables .adjustment |>.length) = .ok 2 :=
      rfl
    rw [hr] at hok
    have hadj : (b'.tables .adjustment).length = 2 := Except.ok.inj hok
    have hlen := hm.2.adjustment.length_eq
    rw [List.length_map, hadj] at hlen
    exact absurd hlen (by decide)

end DcpuToolchain
