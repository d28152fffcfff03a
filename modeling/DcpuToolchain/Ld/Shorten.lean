import DcpuToolchain.Ld.Squeeze

/-!
# What short literals do to a program

A program is a sequence of instructions and words of data. `bins_compress` preserves one if it
takes away nothing but next words of instructions that can be short literals, and leaves all that
is about the others where it belongs (`DcpuToolchain.Preserves`).

Its walk does not know where the instructions are (`DcpuToolchain.Walks`): it counts no word for an
operand of the form `[register+word]`, and takes words of data for instructions. It preserves the
program if and only if on the way it never takes a word away behind one that is no instruction,
never looks for a word behind the last, and when it takes the first word away all adjustments
follow (`DcpuToolchain.binsCompress_preserves_iff`). When it does take a word away that is no
literal, the bin is from there on a word ahead of every bin that has lost literals only, and
nothing that it does later can make up for that (`DcpuToolchain.WordsCut.ahead`). An adjustment that
does not follow is one that names another bin, as the linker leaves it to a word that refers to
the end of its file; no later step brings it or its word to where it belongs
(`DcpuToolchain.follows_of_preserves`).
-/

namespace DcpuToolchain

open Marks Gaps

/-! ### Programs and their literals -/

/-- A piece of a program: an instruction with the next words of its operands, the one of `a`
first, or a word of data. -/
inductive Item
  | inst (word : Word) (next : List Word)
  | data (word : Word)
  deriving DecidableEq, Repr

/-- How many next words the operands of an instruction have. -/
def operandWords (w : Word) : ℕ :=
  (operand (instructionGetA w)).hasNext.toNat +
    if instructionGetOp w = 0 then 0 else (operand (instructionGetB w)).hasNext.toNat

def Item.words : Item → List Word
  | .inst word next => word :: next
  | .data word => [word]

/-- An instruction has the next words it asks for. -/
def Item.WellFormed : Item → Prop
  | .inst word next => next.length = operandWords word
  | .data _ => True

/-- The words of a program. -/
def codeOf (items : List Item) : List Word := items.flatMap Item.words

/-- An instruction begins at a position. -/
def BeginsAt (items : List Item) (p : ℕ) : Prop :=
  ∃ before word next after, items = before ++ .inst word next :: after ∧ (codeOf before).length = p

/-- A piece of the program begins at a position, or it is the end. -/
def AtBoundary (items : List Item) (p : ℕ) : Prop :=
  ∃ before after, items = before ++ after ∧ (codeOf before).length = p

/-- A bin that holds a program: each adjusted word is listed once, no instruction word is adjusted,
and labels and symbols lie between the pieces. -/
structure IsProgram (items : List Item) (b : LdBin) : Prop where
  words : b.words = codeOf items
  wellFormed : ∀ item ∈ items, item.WellFormed
  adjusted : ((b.tables .adjustment).map LconvEntry.address).Nodup
  unadjusted : ∀ p, BeginsAt items p → b.adjustedAt p = false
  labels : ∀ t ∈ [Table.provided, .output, .jump, .call], ∀ e ∈ b.tables t,
    AtBoundary items e.address
  symbols : ∀ sym ∈ b.symbols, AtBoundary items sym.address

/-- The next word of the `a` operand of an instruction, if it can be a short literal and is not a
required, optional or adjusted word. -/
structure IsLiteral (items : List Item) (b : LdBin) (r : ℕ) : Prop where
  literal : ∃ p, r = p + 1 ∧ BeginsAt items p ∧ instructionGetA (b.word p) = 0x1F
  short : (shortLiteral (b.word r)).isSome
  free : b.fixedAt r = false

/-- An entry of a table or a symbol is about the word at a position. -/
def LdBin.Designated (b : LdBin) (p : ℕ) : Prop :=
  (∃ t, t ≠ .section ∧ ∃ e ∈ b.tables t, e.address = p) ∨ ∃ sym ∈ b.symbols, sym.address = p

/-- **`bins_compress` preserves a program**: it takes away nothing but literals that can be
short, and that nothing is about. -/
def Preserves (items : List Item) (ls : ListSort) (s : LdBins) : Prop :=
  ∃ s' saved R, binsCompress ls s = .ok (s', saved) ∧ R.Nodup ∧
    (∀ r ∈ R, IsLiteral items s.flat r ∧ ¬s.flat.Designated r) ∧ Squeezed s.flat R s'.flat

/-! ### The walk -/

section Walk

variable (items : List Item) (b : LdBin)

/-- The word at a position, when those at some are gone, is taken for an instruction whose literal
can go. -/
def Shortens (R : List ℕ) (p : ℕ) : Prop :=
  instructionGetA (squeezedWord b R p) = 0x1F ∧ p + 1 < b.words.length ∧
    b.fixedAt (p + 1) = false ∧ (shortLiteral (b.word (p + 1))).isSome

/-- The word is the last, and is taken for an instruction with a next word. -/
def LooksPast (R : List ℕ) (p : ℕ) : Prop :=
  instructionGetA (squeezedWord b R p) = 0x1F ∧ p + 1 = b.words.length

/-- **The positions `bins_compress` comes to**, in the bin as it was, with those of the words it
has removed, as long as these belong to instructions. -/
inductive Walks : ℕ → List ℕ → Prop
  | start : Walks 0 []
  | pass {p : ℕ} {R : List ℕ} : Walks p R → p < b.words.length → ¬Shortens b R p →
      ¬LooksPast b R p → Walks (p + compressSize (squeezedWord b R p)) R
  | shorten {p : ℕ} {R : List ℕ} : Walks p R → Shortens b R p → BeginsAt items p →
      Walks (p + compressSize (squeezedWord b R p)) ((p + 1) :: R)

/-- The walk comes to a word that it takes for an instruction whose literal can go, and that is
none, or to the last word, and looks for its next; or the first word goes, and some adjustment does
not follow. -/
structure Misstep (p : ℕ) (R : List ℕ) : Prop where
  walks : Walks items b p R
  misstep : LooksPast b R p ∨ (Shortens b R p ∧ ¬BeginsAt items p) ∨
    (R = [] ∧ Shortens b R p ∧ ¬AdjustmentsFollow b (p + 1))

/-- All adjustments follow when the first word goes. -/
def WalkFollowed : Prop := ∀ p, Walks items b p [] → Shortens b [] p → AdjustmentsFollow b (p + 1)

end Walk

section Walks

variable {items : List Item} {b : LdBin} {R : List ℕ} {p : ℕ}

theorem length_codeOf_append (items items' : List Item) :
    (codeOf (items ++ items')).length = (codeOf items).length + (codeOf items').length := by
  rw [codeOf, List.flatMap_append, List.length_append, ← codeOf, ← codeOf]

theorem length_codeOf_cons (item : Item) (items : List Item) :
    (codeOf (item :: items)).length = item.words.length + (codeOf items).length := by
  rw [codeOf, List.flatMap_cons, List.length_append, ← codeOf]

/-- The first word of an instruction. -/
theorem word_begin {before after : List Item} {word : Word} {next : List Word}
    (hb : b.words = codeOf (before ++ .inst word next :: after)) :
    b.word (codeOf before).length = word := by
  rw [LdBin.word, hb, List.getD_eq_getElem?_getD, codeOf, List.flatMap_append, ← codeOf,
    List.getElem?_append_right (Nat.le_refl _), Nat.sub_self, List.flatMap_cons]
  rfl

/-- An instruction with a literal for `a` has a next word. -/
theorem BeginsAt.not_boundary (h : ∀ item ∈ items, item.WellFormed) (hb : b.words = codeOf items)
    (hp : BeginsAt items p) (ha : instructionGetA (b.word p) = 0x1F) :
    ¬AtBoundary items (p + 1) := by
  obtain ⟨before, word, next, after, rfl, rfl⟩ := hp
  have hnext : 1 ≤ next.length := by
    have hwell : next.length = operandWords word := h (.inst word next) (by simp)
    rw [hwell, operandWords, ← word_begin hb, ha]
    exact Nat.le_add_right 1 _
  rintro ⟨before', after', hitems, hlength⟩
  rcases List.append_eq_append_iff.mp hitems with
    ⟨between, hbefore, hrest⟩ | ⟨between, hbefore, hrest⟩
  · rw [hbefore, length_codeOf_append] at hlength
    cases between with
    | nil => exact absurd hlength (by simp [codeOf])
    | cons item between =>
      obtain ⟨rfl, -⟩ := List.cons.inj hrest
      rw [length_codeOf_cons, Item.words, List.length_cons] at hlength
      omega
  · rw [hbefore, length_codeOf_append] at hlength
    omega

/-- A literal is within an instruction. -/
theorem IsLiteral.not_boundary (h : IsLiteral items b p) (hprog : IsProgram items b) :
    ¬AtBoundary items p := by
  obtain ⟨p, rfl, hbegins, ha⟩ := h.literal
  exact hbegins.not_boundary hprog.wellFormed hprog.words ha

theorem IsLiteral.not_begins (h : IsLiteral items b p) (hprog : IsProgram items b) :
    ¬BeginsAt items p := fun ⟨before, _, _, _, hitems, hlength⟩ =>
  h.not_boundary hprog ⟨before, _, hitems, hlength⟩

theorem IsLiteral.not_designated (h : IsLiteral items b p) (hprog : IsProgram items b) :
    ¬b.Designated p := by
  have hfree := h.free
  simp only [LdBin.fixedAt, List.any_cons, List.any_nil, Bool.or_eq_false_iff, List.any_eq_false,
    decide_eq_true_eq] at hfree
  have hlabel : ∀ t ∈ [Table.provided, .output, .jump, .call], ∀ e ∈ b.tables t, e.address ≠ p :=
    fun t ht e he haddress => h.not_boundary hprog (haddress ▸ hprog.labels t ht e he)
  rintro (⟨t, ht, e, he, haddress⟩ | ⟨sym, hsym, rfl⟩)
  · cases t with
    | «section» => exact ht rfl
    | required => exact hfree.1 e he haddress
    | optional => exact hfree.2.1 e he haddress
    | adjustment => exact hfree.2.2.1 e he haddress
    | provided => exact hlabel .provided (by decide) e he haddress
    | output => exact hlabel .output (by decide) e he haddress
    | jump => exact hlabel .jump (by decide) e he haddress
    | call => exact hlabel .call (by decide) e he haddress
  · exact h.not_boundary hprog (hprog.symbols sym hsym)

theorem one_lt_compressSize {inst : Word} (h : instructionGetA inst = 0x1F) :
    2 ≤ compressSize inst := by
  rw [compressSize, h]
  change 2 ≤ 1 + 1 + _
  omega

/-- What the walk has removed is behind it and was literals. -/
theorem Walks.removed (h : Walks items b p R)
    (hunadjusted : ∀ p, BeginsAt items p → b.adjustedAt p = false) :
    R.Nodup ∧ (∀ r ∈ R, r < p) ∧ ∀ r ∈ R, IsLiteral items b r := by
  induction h with
  | start => exact ⟨List.nodup_nil, by simp, by simp⟩
  | @pass p R _ _ _ _ ih =>
    obtain ⟨hnd, hlt, hliteral⟩ := ih
    exact ⟨hnd, fun r hr => (hlt r hr).trans_le (Nat.le_add_right _ _), hliteral⟩
  | @shorten p R _ hshort hbegins ih =>
    obtain ⟨hnd, hlt, hliteral⟩ := ih
    obtain ⟨ha, -, hfree, hvalue⟩ := hshort
    have hsize := one_lt_compressSize ha
    have hp : p + 1 ∉ R := fun hmem => absurd (hlt _ hmem) (by omega)
    rw [squeezedWord, if_neg hp, hunadjusted p hbegins] at ha
    refine ⟨List.nodup_cons.mpr ⟨hp, hnd⟩, ?_, ?_⟩
    · rw [List.forall_mem_cons]
      exact ⟨by omega, fun r hr => (hlt r hr).trans_le (Nat.le_add_right _ _)⟩
    · rw [List.forall_mem_cons]
      exact ⟨⟨⟨p, rfl, hbegins, ha⟩, hvalue, hfree⟩, hliteral⟩

/-- Before a word goes that is not the first it is known from where on all adjustments follow. -/
theorem Walks.followed (h : Walks items b p R) (hfollowed : WalkFollowed items b) (hR : R ≠ [])
    (hunadjusted : ∀ p, BeginsAt items p → b.adjustedAt p = false) :
    ∃ r, AdjustmentsFollow b r ∧ ∀ x ∈ R, r ≤ x := by
  induction h with
  | start => exact absurd rfl hR
  | pass _ _ _ _ ih => exact ih hR
  | @shorten p R hwalk hshort _ ih =>
    by_cases hnil : R = []
    · subst hnil
      exact ⟨p + 1, hfollowed p hwalk hshort, by simp⟩
    · obtain ⟨r, hr, hle⟩ := ih hnil
      obtain ⟨x, hx⟩ := List.exists_mem_of_ne_nil R hnil
      have hlt := (hwalk.removed hunadjusted).2.1 x hx
      have hrx := hle x hx
      refine ⟨r, hr, ?_⟩
      rw [List.forall_mem_cons]
      exact ⟨by omega, hle⟩

/-- The word before one that was removed is that of an instruction. -/
theorem Walks.shortened (h : Walks items b p R)
    (hunadjusted : ∀ p, BeginsAt items p → b.adjustedAt p = false) (k : ℕ) (hk : k + 1 ∈ R) :
    b.adjustedAt k = false := by
  obtain ⟨k', hk', hbegin, -⟩ := ((h.removed hunadjusted).2.2 _ hk).literal
  obtain rfl : k = k' := by omega
  exact hunadjusted k hbegin

variable {b' : LdBin}

/-- What the loop decides where the walk is. -/
theorem compressAt_squeezed (hS : Squeezed b R b') (hR : R.Nodup) (hlt : ∀ r ∈ R, r < p)
    (hp : p < b.words.length) :
    compressAt b' (closed R p) (squeezedWord b R p) =
      if instructionGetA (squeezedWord b R p) = 0x1F then
        if p + 1 = b.words.length then .error .nullPointer
        else if b.fixedAt (p + 1) then .ok none
        else .ok ((shortLiteral (b.word (p + 1))).map
          (instructionCreate (instructionGetOp (squeezedWord b R p))
            (instructionGetB (squeezedWord b R p))))
      else .ok none := by
  have hpR : p + 1 ∉ R := fun hmem => absurd (hlt _ hmem) (by omega)
  rw [compressAt, ← closed_add hR hlt, (hS.at hR).fixedAt hR hpR]
  refine if_congr Iff.rfl ?_ rfl
  split
  · rename_i hnone
    rw [List.getElem?_eq_none_iff, hS.length hR] at hnone
    rw [if_pos]
    by_contra hne
    exact absurd (closed_lt hR hpR (show p + 1 < b.words.length by omega)) (Nat.not_lt.mpr hnone)
  · rename_i value hvalue
    have hlt' : p + 1 < b.words.length := by
      have hlength := (List.getElem?_eq_some_iff.mp hvalue).1
      rw [hS.length hR] at hlength
      by_contra hge
      exact absurd (closed_mono hR (Nat.not_lt.mp hge)) (Nat.not_le.mpr hlength)
    rw [if_neg (Nat.ne_of_lt hlt')]
    by_cases hfixed : b.fixedAt (p + 1) = true
    · rw [if_pos hfixed, if_pos hfixed]
    · rw [if_neg hfixed, if_neg hfixed]
      rw [hS.getElem? hR hlt' hpR, squeezedWord, if_neg fun hmem => absurd (hlt _ hmem) (by omega),
        adjustedAt_of_fixedAt (Bool.not_eq_true _ ▸ hfixed), Option.some_inj] at hvalue
      rw [← hvalue]
      rfl

theorem compressAt_shortens (hS : Squeezed b R b') (hR : R.Nodup) (hlt : ∀ r ∈ R, r < p)
    (h : Shortens b R p) : compressAt b' (closed R p) (squeezedWord b R p) =
      .ok (some (shortForm (squeezedWord b R p) (b.word (p + 1)))) := by
  obtain ⟨ha, hlt', hfree, hvalue⟩ := h
  obtain ⟨store, hstore⟩ := Option.isSome_iff_exists.mp hvalue
  rw [compressAt_squeezed hS hR hlt (by omega), if_pos ha, if_neg (Nat.ne_of_lt hlt'), hfree,
    if_neg Bool.false_ne_true, shortForm, hstore]
  rfl

theorem compressAt_pass (hS : Squeezed b R b') (hR : R.Nodup) (hlt : ∀ r ∈ R, r < p)
    (hp : p < b.words.length) (h : ¬Shortens b R p)
    (hlast : ¬LooksPast b R p) :
    compressAt b' (closed R p) (squeezedWord b R p) = .ok none := by
  rw [compressAt_squeezed hS hR hlt hp]
  split
  · rename_i ha
    have hne : p + 1 ≠ b.words.length := fun heq => hlast ⟨ha, heq⟩
    rw [if_neg hne]
    split
    · rfl
    · rename_i hfree
      have hnone : (shortLiteral (b.word (p + 1))).isSome = false := by
        by_contra hsome
        exact h ⟨ha, by omega, by simpa using hfree,
          Bool.eq_true_of_not_eq_false hsome⟩
      rw [Option.isSome_eq_false_iff, Option.isNone_iff_eq_none] at hnone
      rw [hnone]
      rfl
  · rfl

theorem compressAt_looksPast (hS : Squeezed b R b') (hR : R.Nodup) (hlt : ∀ r ∈ R, r < p)
    (h : LooksPast b R p) :
    compressAt b' (closed R p) (squeezedWord b R p) = .error .nullPointer := by
  rw [compressAt_squeezed hS hR hlt (Nat.lt_of_succ_le h.2.le), if_pos h.1, if_pos h.2]

end Walks

/-! ### The loop -/

section Loop

variable {ls : ListSort} {items : List Item} {b : LdBin} {bin : BinPtr} {R : List ℕ}
  {p fuel saved : ℕ} {heap : Heap}

/-- The loop passes over a word. -/
theorem compressLoop_pass (hS : Squeezed b R (heap bin)) (hR : R.Nodup) (hlt : ∀ r ∈ R, r < p)
    (hp : p < b.words.length) (h : ¬Shortens b R p) (hlast : ¬LooksPast b R p) :
    compressLoop ls [bin] bin (fuel + 1) (closed R p) saved heap =
      compressLoop ls [bin] bin fuel (closed R (p + compressSize (squeezedWord b R p))) saved
        heap := by
  have hpR : p ∉ R := fun hmem => absurd (hlt _ hmem) (Nat.lt_irrefl p)
  rw [compressLoop, hS.getElem? hR hp hpR, closed_add hR hlt]
  dsimp only
  rw [compressAt_pass hS hR hlt hp h hlast]
  rfl

/-- The loop takes a word away. -/
theorem compressLoop_shortens (hS : Squeezed b R (heap bin)) (hR : R.Nodup)
    (hlt : ∀ r ∈ R, r < p) (h : Shortens b R p) :
    compressLoop ls [bin] bin (fuel + 1) (closed R p) saved heap =
      (binRemove ls [bin] bin (closed R (p + 1)) 1 (Function.update heap bin
        ((heap bin).setWord (closed R p) (shortForm (squeezedWord b R p) (b.word (p + 1))))) >>=
          compressLoop ls [bin] bin fuel
            (closed ((p + 1) :: R) (p + compressSize (squeezedWord b R p))) (u16 (saved + 1))) := by
  have hpR : p ∉ R := fun hmem => absurd (hlt _ hmem) (Nat.lt_irrefl p)
  rw [compressLoop, hS.getElem? hR (Nat.lt_of_succ_lt h.2.1) hpR,
    closed_succ_cons_add hR hlt (one_lt_compressSize h.1), closed_add hR hlt]
  dsimp only
  rw [compressAt_shortens hS hR hlt h]
  rfl

/-- It does so without going wrong if the word is a literal and the adjustments follow. -/
theorem Walks.shorten_ok (ls : ListSort) (h : Walks items b p R) (hprog : IsProgram items b)
    (hfollowed : WalkFollowed items b) (hS : Squeezed b R (heap bin)) (hshort : Shortens b R p)
    (hbegin : BeginsAt items p) (fuel saved : ℕ) :
    ∃ heap', compressLoop ls [bin] bin (fuel + 1) (closed R p) saved heap =
        compressLoop ls [bin] bin fuel
          (closed ((p + 1) :: R) (p + compressSize (squeezedWord b R p))) (u16 (saved + 1)) heap' ∧
      Squeezed b ((p + 1) :: R) (heap' bin) := by
  obtain ⟨hR, hlt, -⟩ := h.removed hprog.unadjusted
  have hR' := ((h.shorten hshort hbegin).removed hprog.unadjusted).1
  have hunadjusted := hprog.unadjusted p hbegin
  have hpR : p ∉ R := fun hmem => absurd (hlt _ hmem) (Nat.lt_irrefl p)
  have hqR : p + 1 ∉ R := fun hmem => absurd (hlt _ hmem) (by omega)
  obtain ⟨r, hr, hle⟩ := (h.shorten hshort hbegin).followed hfollowed (List.cons_ne_nil _ _)
    hprog.unadjusted
  rw [List.forall_mem_cons] at hle
  have hword : shortForm (squeezedWord b R p) (b.word (p + 1)) =
      shortForm (b.word p) (b.word (p + 1)) := by
    rw [squeezedWord, if_neg hqR, hunadjusted, if_neg Bool.false_ne_true]
  obtain ⟨heap', hremove, hS'⟩ := (hS.at hR).remove ls hR hprog.adjusted hr hle.2 hle.1 hpR hqR
    hshort.2.1 (adjustedAt_of_fixedAt hshort.2.2.1) hunadjusted hword (h.shortened hprog.unadjusted)
  refine ⟨heap', ?_, hS'.squeezed hR'⟩
  rw [compressLoop_shortens hS hR hlt hshort, hremove]
  rfl

/-- **Where the walk comes the loop comes**, with a bin that has lost the literals on the way. -/
theorem Walks.reaches (ls : ListSort) (saved : ℕ) (h : Walks items b p R)
    (hprog : IsProgram items b) (hfollowed : R ≠ [] → WalkFollowed items b) (hheap : heap bin = b)
    (hfuel : b.words.length ≤ fuel) :
    ∃ heap' fuel' saved', compressLoop ls [bin] bin fuel 0 saved heap =
        compressLoop ls [bin] bin fuel' (closed R p) saved' heap' ∧
      Squeezed b R (heap' bin) ∧ b.words.length ≤ p + fuel' := by
  induction h with
  | start =>
    refine ⟨heap, fuel, saved, by rw [closed_nil], ?_, by omega⟩
    rw [hheap]
    exact squeezed_nil b
  | @pass p R hwalk hp hshort hlast ih =>
    obtain ⟨heap', fuel', saved', hloop, hS, hle⟩ := ih hfollowed
    obtain ⟨hR, hlt, -⟩ := hwalk.removed hprog.unadjusted
    obtain ⟨n, rfl⟩ : ∃ n, fuel' = n + 1 := ⟨fuel' - 1, by omega⟩
    refine ⟨heap', n, saved', ?_, hS, ?_⟩
    · rw [hloop, compressLoop_pass hS hR hlt hp hshort hlast]
    · have := compressSize_pos (squeezedWord b R p)
      omega
  | @shorten p R hwalk hshort hbegin ih =>
    have hfollowed := hfollowed (List.cons_ne_nil _ _)
    obtain ⟨heap', fuel', saved', hloop, hS, hle⟩ := ih fun _ => hfollowed
    have hp : p + 1 < b.words.length := hshort.2.1
    obtain ⟨n, rfl⟩ : ∃ n, fuel' = n + 1 := ⟨fuel' - 1, by omega⟩
    obtain ⟨heap'', hstep, hS'⟩ := hwalk.shorten_ok ls hprog hfollowed hS hshort hbegin n saved'
    refine ⟨heap'', n, u16 (saved' + 1), hloop.trans hstep, hS', ?_⟩
    have := compressSize_pos (squeezedWord b R p)
    omega

/-- **Without a misstep the loop comes to an end** with a bin that has lost literals. -/
theorem compressLoop_squeezed (ls : ListSort) (saved : ℕ) (hprog : IsProgram items b)
    (hsteps : ∀ p R, ¬Misstep items b p R) (h : Walks items b p R) (hS : Squeezed b R (heap bin))
    (hfuel : b.words.length ≤ p + fuel) :
    ∃ r R', compressLoop ls [bin] bin fuel (closed R p) saved heap = .ok r ∧ R'.Nodup ∧
      (∀ q ∈ R', IsLiteral items b q) ∧ Squeezed b R' (r.1 bin) := by
  have hfollowed : WalkFollowed items b := fun p hwalk hshort => by
    by_contra hnot
    exact hsteps p [] ⟨hwalk, .inr (.inr ⟨rfl, hshort, hnot⟩)⟩
  obtain ⟨hR, hlt, hliteral⟩ := h.removed hprog.unadjusted
  by_cases hp : b.words.length ≤ p
  · refine ⟨(heap, saved), R, compressLoop_end ?_, hR, hliteral, hS⟩
    rw [hS.length hR]
    exact closed_mono hR hp
  · induction fuel generalizing p R saved heap with
    | zero => exact absurd hfuel hp
    | succ fuel ih =>
      rw [Nat.not_le] at hp
      have hsize := compressSize_pos (squeezedWord b R p)
      have hnext : ∀ {R' : List ℕ} {saved' : ℕ} {heap' : Heap},
          Walks items b (p + compressSize (squeezedWord b R p)) R' → Squeezed b R' (heap' bin) →
          ∃ r R'', compressLoop ls [bin] bin fuel
              (closed R' (p + compressSize (squeezedWord b R p))) saved' heap' = .ok r ∧
            R''.Nodup ∧ (∀ q ∈ R'', IsLiteral items b q) ∧ Squeezed b R'' (r.1 bin) := by
        intro R' saved' heap' hwalk hS'
        obtain ⟨hR', hlt', hliteral'⟩ := hwalk.removed hprog.unadjusted
        by_cases hend : b.words.length ≤ p + compressSize (squeezedWord b R p)
        · refine ⟨(heap', saved'), R', compressLoop_end ?_, hR', hliteral', hS'⟩
          rw [hS'.length hR']
          exact closed_mono hR' hend
        · exact ih saved' hwalk hS' (by omega) hR' hlt' hliteral' hend
      by_cases hshort : Shortens b R p
      · have hbegin : BeginsAt items p := by
          by_contra hnot
          exact hsteps p R ⟨h, .inr (.inl ⟨hshort, hnot⟩)⟩
        obtain ⟨heap', hstep, hS'⟩ := h.shorten_ok ls hprog hfollowed hS hshort hbegin fuel saved
        rw [hstep]
        exact hnext (h.shorten hshort hbegin) hS'
      · have hlast : ¬LooksPast b R p := fun hlast => hsteps p R ⟨h, .inl hlast⟩
        rw [compressLoop_pass hS hR hlt hp hshort hlast]
        exact hnext (h.pass hp hshort hlast) hS

end Loop

/-! ### After a misstep -/

/-- What the loop takes away, also after a misstep: only words behind such with a literal for `a`,
as far as no adjustment changes these. -/
structure Removable (b : LdBin) (A : List ℕ) : Prop where
  nodup : A.Nodup
  literal : ∀ q, q + 1 ∈ A → b.repointedAt q = false → instructionGetA (b.word q) = 0x1F

section Rest

variable {ls : ListSort} {items : List Item} {b b' : LdBin} {bin : BinPtr} {A R : List ℕ}
  {p q fuel saved : ℕ} {heap : Heap}

/-- What the loop takes away is not required, optional or adjusted. -/
theorem fixedAt_of_compressAt {i : ℕ} {inst short : Word}
    (h : compressAt b i inst = .ok (some short)) :
    instructionGetA inst = 0x1F ∧ b.fixedAt (i + 1) = false ∧
      ∃ value, b.words[i + 1]? = some value ∧ (shortLiteral value).isSome ∧
        short = shortForm inst value := by
  rw [compressAt] at h
  split at h
  · rename_i ha
    split at h
    · cases h
    · rename_i value hvalue
      split at h
      · cases h
      · rename_i hfixed
        rw [Except.ok.injEq, Option.map_eq_some_iff] at h
        obtain ⟨store, hstore, rfl⟩ := h
        refine ⟨ha, Bool.not_eq_true _ ▸ hfixed, value, hvalue, by rw [hstore]; rfl, ?_⟩
        rw [shortForm, hstore]
        rfl
  · cases h

/-- One more word that the loop takes away. -/
theorem WordsCut.compressAt {inst short : Word} (hS : WordsCut b A b') (hA : Removable b A)
    (hlt : ∀ r ∈ A, r < p) (hinst : b'.words[closed A p]? = some inst)
    (h : compressAt b' (closed A p) inst = .ok (some short)) :
    instructionGetA inst = 0x1F ∧ p + 1 < b.words.length ∧ Removable b ((p + 1) :: A) ∧
      (b.repointedAt p = false → short = shortForm (b.word p) (b.word (p + 1))) := by
  have hpA : p ∉ A := fun hmem => absurd (hlt _ hmem) (Nat.lt_irrefl p)
  have hqA : p + 1 ∉ A := fun hmem => absurd (hlt _ hmem) (by omega)
  have hq'A : p + 1 + 1 ∉ A := fun hmem => absurd (hlt _ hmem) (by omega)
  obtain ⟨ha, hfixed, value, hvalue, -, hshort⟩ := fixedAt_of_compressAt h
  rw [← closed_add hA.nodup hlt] at hvalue hfixed
  have hfree := repointedAt_of_adjustedAt (adjustedAt_of_fixedAt hfixed)
  rw [hS.repointedAt _ hqA] at hfree
  have hq : p + 1 < b.words.length := by
    have hlength := (List.getElem?_eq_some_iff.mp hvalue).1
    rw [hS.length] at hlength
    by_contra hge
    exact absurd (closed_mono hA.nodup (Nat.not_lt.mp hge)) (Nat.not_le.mpr hlength)
  rw [hS.words _ hq hqA hfree, cutWord, if_neg hq'A, Option.some_inj] at hvalue
  have hword : b.repointedAt p = false → inst = b.word p := fun hunadjusted => by
    rw [hS.words _ (Nat.lt_of_succ_lt hq) hpA hunadjusted, cutWord, if_neg hqA,
      Option.some_inj] at hinst
    exact hinst.symm
  refine ⟨ha, hq, ⟨List.nodup_cons.mpr ⟨hqA, hA.nodup⟩, fun q hq' hfree' => ?_⟩,
    fun hunadjusted => by rw [hshort, ← hword hunadjusted, ← hvalue]⟩
  rcases List.mem_cons.mp hq' with heq | hmem
  · obtain rfl : q = p := by omega
    rwa [← hword hfree']
  · exact hA.literal q hmem hfree'

/-- **The rest of the loop**, from wherever it is: it takes more words away behind. -/
theorem compressLoop_rest {r : Heap × ℕ}
    (h : compressLoop ls [bin] bin fuel (closed R p) saved heap = .ok r)
    (hS : WordsCut b R (heap bin)) (hR : Removable b R) (hlt : ∀ q ∈ R, q < p) :
    ∃ A, Removable b A ∧ WordsCut b A (r.1 bin) ∧ ∀ q < p, q ∈ A ↔ q ∈ R := by
  refine (compressLoop_run
    (P := fun i h => ∃ A p', closed A p' = i ∧ p ≤ p' ∧ (∀ q ∈ A, q < p') ∧ Removable b A ∧
      WordsCut b A (h bin) ∧ ∀ q < p, q ∈ A ↔ q ∈ R) ?_ ?_ h
    ⟨R, p, rfl, Nat.le_refl p, hlt, hR, hS, fun _ _ => Iff.rfl⟩).elim ?_
  · rintro i heap' inst ⟨A, p', rfl, hle, hltA, hA, hSA, hsame⟩ - -
    exact ⟨A, p' + compressSize inst, closed_add hA.nodup hltA _, by omega,
      fun q hq => (hltA q hq).trans_le (Nat.le_add_right _ _), hA, hSA, hsame⟩
  · rintro i heap' inst short heap'' ⟨A, p', rfl, hle, hltA, hA, hSA, hsame⟩ hinst hat hremove
    obtain ⟨ha, hq, hA', hshort⟩ := hSA.compressAt hA hltA hinst hat
    have hpA : p' ∉ A := fun hmem => absurd (hltA _ hmem) (Nat.lt_irrefl p')
    have hqA : p' + 1 ∉ A := fun hmem => absurd (hltA _ hmem) (by omega)
    rw [← closed_add hA.nodup hltA] at hremove
    have hS' := hSA.remove hA.nodup hpA hqA hq hshort hremove
    have hsize := one_lt_compressSize ha
    refine ⟨(p' + 1) :: A, p' + compressSize inst, closed_succ_cons_add hA.nodup hltA hsize,
      by omega, ?_, hA', hS', fun q hq => ?_⟩
    · rw [List.forall_mem_cons]
      exact ⟨by omega, fun q hq => (hltA q hq).trans_le (Nat.le_add_right _ _)⟩
    · rw [List.mem_cons, ← hsame q hq, or_iff_right (by omega)]
  · rintro - ⟨A, p', -, -, -, hA, hSA, hsame⟩
    exact ⟨A, hA, hSA, hsame⟩

/-- An adjustment that does not name the bin is left behind by the whole loop. -/
theorem compressLoop_adjustment {i : ℕ} {r : Heap × ℕ} {e : LconvEntry} {name : Bstring}
    (h : compressLoop ls [bin] bin fuel i saved heap = .ok r) (hname : (heap bin).name = name)
    (hforeign : ¬biseq e.bin name = true) (he : e ∈ (heap bin).tables .adjustment) :
    e ∈ (r.1 bin).tables .adjustment := by
  refine (compressLoop_run (P := fun _ h => (h bin).name = name ∧ e ∈ (h bin).tables .adjustment)
    (fun _ _ _ hP _ _ => hP) ?_ h ⟨hname, he⟩).elim fun _ hP => hP.2
  rintro i heap' inst short heap'' ⟨hname, he⟩ - hat hremove
  have hunadjusted := adjustedAt_of_fixedAt (fixedAt_of_compressAt hat).2.1
  have hne : e.address ∉ [i + 1] := fun hmem => by
    rw [adjustedAt_iff.mpr ⟨e, he, List.mem_singleton.mp hmem⟩] at hunadjusted
    cases hunadjusted
  have hname' := (binRemove_repointed hremove).2.1.name
  have hentries := (binRemove_adjustment hremove).1
  rw [Function.update_self] at hname' hentries
  refine ⟨hname'.trans hname, ?_⟩
  rw [hentries, List.mem_map]
  refine ⟨e, List.mem_filter.mpr ⟨(ls.up_perm _).mem_iff.mpr he, decide_eq_true hne⟩, ?_⟩
  rw [lowerRemoved, if_neg fun hlower => hforeign ?_]
  rw [← hname]
  exact hlower.2

/-- **The loop when the walk takes a word away**, whatever it is: the words that are gone up to
there are the one and those that the walk has removed. -/
theorem Walks.cut {r : Heap × ℕ} (h : Walks items b p R) (hprog : IsProgram items b)
    (hfollowed : R ≠ [] → WalkFollowed items b) (hshort : Shortens b R p) (hheap : heap bin = b)
    (hfuel : b.words.length ≤ fuel)
    (hloop : compressLoop ls [bin] bin fuel 0 saved heap = .ok r) :
    (∃ A, Removable b A ∧ WordsCut b A (r.1 bin) ∧ ∀ q ≤ p + 1, q ∈ A ↔ q ∈ (p + 1) :: R) ∧
      ∃ heap₀ heap₁ short, Squeezed b R (heap₀ bin) ∧
        binRemove ls [bin] bin (closed R (p + 1)) 1 (Function.update heap₀ bin
          ((heap₀ bin).setWord (closed R p) short)) = .ok heap₁ := by
  obtain ⟨heap₀, fuel, saved₀, hreach, hS₀, hfuel⟩ :=
    h.reaches ls saved hprog hfollowed hheap hfuel
  obtain ⟨hR, hlt, hliteral⟩ := h.removed hprog.unadjusted
  have hp : p + 1 < b.words.length := hshort.2.1
  have hpR : p ∉ R := fun hmem => absurd (hlt _ hmem) (Nat.lt_irrefl p)
  have hqR : p + 1 ∉ R := fun hmem => absurd (hlt _ hmem) (by omega)
  have hsize := one_lt_compressSize hshort.1
  obtain ⟨n, rfl⟩ : ∃ n, fuel = n + 1 := ⟨fuel - 1, by omega⟩
  rw [hreach, compressLoop_shortens hS₀ hR hlt hshort] at hloop
  obtain ⟨heap₁, hremove, hloop⟩ := exists_of_bind_eq_ok hloop
  -- what is gone so far
  have hcut₀ : WordsCut b R (heap₀ bin) := by
    by_cases hnil : R = []
    · subst hnil
      exact hS₀.cut (r := 0) hR (.inl rfl) nofun nofun
    · obtain ⟨r, hr, hle⟩ := h.followed (hfollowed hnil) hnil hprog.unadjusted
      exact hS₀.cut hR (.inr hr) hle (h.shortened hprog.unadjusted)
  have hword : b.repointedAt p = false → squeezedWord b R p = b.word p := by
    intro hfree
    have hthere := hcut₀.words p (Nat.lt_of_succ_lt hp) hpR hfree
    rw [hS₀.getElem? hR (Nat.lt_of_succ_lt hp) hpR, Option.some_inj, cutWord, if_neg hqR] at hthere
    exact hthere
  have hcut₁ := hcut₀.remove hR hpR hqR hp (fun hfree => by rw [hword hfree]) hremove
  have hremovable : Removable b ((p + 1) :: R) := by
    refine ⟨List.nodup_cons.mpr ⟨hqR, hR⟩, fun q hq hfree => ?_⟩
    rcases List.mem_cons.mp hq with heq | hmem
    · obtain rfl : q = p := by omega
      rw [← hword hfree]
      exact hshort.1
    · obtain ⟨k, hk, -, ha⟩ := (hliteral _ hmem).literal
      obtain rfl : q = k := by omega
      exact ha
  have hlt₁ : ∀ q ∈ (p + 1) :: R, q < p + compressSize (squeezedWord b R p) := by
    rw [List.forall_mem_cons]
    exact ⟨by omega, fun q hq => (hlt q hq).trans_le (Nat.le_add_right _ _)⟩
  obtain ⟨A, hA, hcut, hsame⟩ := compressLoop_rest hloop hcut₁ hremovable hlt₁
  exact ⟨⟨A, hA, hcut, fun q hq => hsame q (by omega)⟩, heap₀, heap₁, _, hS₀, hremove⟩

end Rest

/-! ### Two ways to take words away -/

section Agree

variable {items : List Item} {b b' : LdBin} {A R : List ℕ} {p q : ℕ} {value : Word}

/-- Words that are not adjusted are the same on either account. -/
theorem squeezedWord_eq_cutWord (h : b.adjustedAt q = false) :
    squeezedWord b A q = cutWord b A q := by
  rw [squeezedWord, cutWord, h, if_neg Bool.false_ne_true]

/-- As long as the one way takes only literals away it is the same that are gone: elsewhere the
instruction before would not have its short form. -/
theorem WordsCut.agree (h : WordsCut b A b') (h' : Squeezed b R b') (hA : A.Nodup)
    (hR : R.Nodup) (hprog : IsProgram items b) (hp : p < b.words.length)
    (hliteral : ∀ r ∈ A, r ≤ p → IsLiteral items b r) (hliteral' : ∀ r ∈ R, IsLiteral items b r)
    (hq : q ≤ p) : q ∈ A ↔ q ∈ R := by
  induction q using Nat.strong_induction_on with
  | _ q ih =>
    by_cases hliteral₀ : IsLiteral items b q
    · obtain ⟨k, rfl, hbegins, ha⟩ := hliteral₀.literal
      have hfree := hprog.unadjusted k hbegins
      have hkA : k ∉ A := fun hmem => (hliteral k hmem (by omega)).not_begins hprog hbegins
      have hkR : k ∉ R := fun hmem => (hliteral' k hmem).not_begins hprog hbegins
      have hclosed : closed A k = closed R k :=
        closed_congr hA hR fun r hr => ih r (by omega) (by omega)
      have hword := h.words k (by omega) hkA (repointedAt_of_adjustedAt hfree)
      rw [hclosed, h'.getElem? hR (by omega) hkR, Option.some_inj,
        ← squeezedWord_eq_cutWord hfree] at hword
      have hiff := getA_squeezedWord (R := A) ha hfree hliteral₀.short
      rw [← hword, getA_squeezedWord ha hfree hliteral₀.short] at hiff
      exact (not_iff_not.mp hiff).symm
    · exact iff_of_false (fun hmem => hliteral₀ (hliteral q hmem hq))
        fun hmem => hliteral₀ (hliteral' q hmem)

/-- **Who is ahead stays ahead.** To catch up, the other way would have to take a literal away at
whose place the one way has the literal itself, for an instruction in its short form. -/
theorem WordsCut.ahead (h : WordsCut b A b') (h' : Squeezed b R b') (hA : Removable b A)
    (hR : R.Nodup) (hprog : IsProgram items b) (hliteral : ∀ r ∈ R, IsLiteral items b r)
    (hlt : closed A p < closed R p) (hpq : p ≤ q) (hq : q ≤ b.words.length) :
    closed A q < closed R q := by
  induction q, hpq using Nat.le_induction with
  | base => exact hlt
  | succ q _ ih =>
    have ih := ih (Nat.le_of_succ_le hq)
    by_cases hqA : q ∈ A
    · rw [closed_succ hA.nodup, if_pos hqA]
      exact ih.trans_le (closed_mono hR (Nat.le_succ q))
    · by_cases hqR : q ∈ R
      · rw [closed_succ hA.nodup, closed_succ hR, if_neg hqA, if_pos hqR]
        by_contra hnot
        obtain ⟨⟨k, rfl, hbegins, -⟩, hshort, hfixed⟩ := hliteral q hqR
        have hkR : k ∉ R := fun hmem => (hliteral k hmem).not_begins hprog hbegins
        have hcatch : closed A (k + 1) = closed R k := by
          have hk := closed_succ hR (p := k)
          rw [if_neg hkR] at hk
          omega
        have hfree := repointedAt_of_adjustedAt (adjustedAt_of_fixedAt hfixed)
        have hword := h.words (k + 1) hq hqA hfree
        rw [hcatch, h'.getElem? hR (by omega) hkR, Option.some_inj, squeezedWord, if_pos hqR,
          cutWord] at hword
        obtain ⟨hne, hne'⟩ := getA_of_short (b.word k) hshort
        by_cases hmore : k + 1 + 1 ∈ A
        · exact hne (hA.literal _ hmore hfree)
        · rw [if_neg hmore] at hword
          exact hne' hword
      · rw [closed_succ hA.nodup, closed_succ hR, if_neg hqA, if_neg hqR]
        omega

end Agree

/-! ### `bins_compress` -/

section Compress

variable {ls : ListSort} {items : List Item} {s : LdBins} {bin : BinPtr} {R : List ℕ} {p : ℕ}

/-- Without a misstep the program is preserved. -/
theorem preserves_of_no_misstep (hbins : s.bins = [bin]) (hprog : IsProgram items s.flat)
    (hsteps : ∀ p R, ¬Misstep items s.flat p R) : Preserves items ls s := by
  have hnil : Squeezed s.flat [] (s.heap bin) := by
    rw [← LdBins.flat_eq hbins]
    exact squeezed_nil _
  obtain ⟨⟨heap, saved⟩, R, hloop, hR, hliteral, hS⟩ := compressLoop_squeezed ls 0 hprog hsteps
    .start hnil (show s.flat.words.length ≤ 0 + s.flat.words.length by omega)
  rw [closed_nil] at hloop
  exact ⟨_, saved, R, (binsCompress_single hbins).mpr ⟨heap, hloop, rfl⟩, hR,
    fun r hr => ⟨hliteral r hr, (hliteral r hr).not_designated hprog⟩, hS⟩

/-- A walk that looks past the end goes wrong. -/
theorem Misstep.looksPast (h : Misstep items s.flat p R) (hbins : s.bins = [bin])
    (hprog : IsProgram items s.flat) (hfollowed : WalkFollowed items s.flat)
    (hpast : LooksPast s.flat R p) : ¬Preserves items ls s := by
  rintro ⟨s', saved, -, hok, -⟩
  obtain ⟨heap, hloop, -⟩ := (binsCompress_single hbins).mp hok
  obtain ⟨heap', fuel, saved', hreach, hS, hfuel⟩ := h.walks.reaches ls 0
    hprog (fun _ => hfollowed) (LdBins.flat_eq hbins).symm (Nat.le_refl _)
  obtain ⟨hR, hlt, -⟩ := h.walks.removed hprog.unadjusted
  have hp : p < s.flat.words.length := Nat.lt_of_succ_le hpast.2.le
  obtain ⟨n, rfl⟩ : ∃ n, fuel = n + 1 := ⟨fuel - 1, by omega⟩
  rw [hreach, compressLoop, hS.getElem? hR hp fun hmem => absurd (hlt p hmem) (Nat.lt_irrefl p)]
    at hloop
  dsimp only at hloop
  rw [compressAt_looksPast hS hR hlt hpast] at hloop
  cases hloop

/-- **A walk that takes a word away that is no literal** has one more gone from there on to the
end. -/
theorem Walks.shortens (h : Walks items s.flat p R) (hbins : s.bins = [bin])
    (hprog : IsProgram items s.flat) (hfollowed : R ≠ [] → WalkFollowed items s.flat)
    (hshort : Shortens s.flat R p) (hbegins : ¬BeginsAt items p) : ¬Preserves items ls s := by
  rintro ⟨s', saved, R', hok, hR', hliterals, hS'⟩
  have hliteral' : ∀ r ∈ R', IsLiteral items s.flat r := fun r hr => (hliterals r hr).1
  obtain ⟨heap, hloop, rfl⟩ := (binsCompress_single hbins).mp hok
  obtain ⟨⟨A, hA, hcut, hsame⟩, -⟩ := h.cut hprog hfollowed hshort (LdBins.flat_eq hbins).symm
    (Nat.le_refl _) hloop
  obtain ⟨hR, hlt, hliteral⟩ := h.removed hprog.unadjusted
  have hp : p + 1 < s.flat.words.length := hshort.2.1
  have hfinal : Squeezed s.flat R' (heap bin) := hS'
  -- the same words are gone up to the misstep
  have hagree : ∀ q ≤ p, q ∈ A ↔ q ∈ R' := fun q hq =>
    hcut.agree hfinal hA.nodup hR' hprog (Nat.lt_of_succ_lt hp)
      (fun r hr hle => hliteral r ((List.mem_cons.mp ((hsame r (by omega)).mp hr)).resolve_left
        (by omega))) hliteral' hq
  have hqA : p + 1 ∈ A := (hsame (p + 1) (Nat.le_refl _)).mpr List.mem_cons_self
  have hqR' : p + 1 ∉ R' := fun hmem => by
    obtain ⟨k, hk, hbegins', -⟩ := (hliteral' _ hmem).literal
    obtain rfl : p = k := by omega
    exact hbegins hbegins'
  have hclosed : closed A (p + 1) = closed R' (p + 1) :=
    closed_congr hA.nodup hR' fun r hr => hagree r (Nat.lt_succ_iff.mp hr)
  -- from there on one more
  have hahead : closed A (p + 1 + 1) < closed R' (p + 1 + 1) := by
    rw [closed_succ hA.nodup, closed_succ hR', if_pos hqA, if_neg hqR']
    omega
  have hend := hcut.ahead hfinal hA hR' hprog hliteral' hahead (Nat.succ_le_of_lt hp)
    (Nat.le_refl _)
  rw [← hcut.length, hfinal.length hR'] at hend
  exact absurd hend (Nat.lt_irrefl _)

/-- The adjustments are within the bin, if the first word that goes can be removed. -/
theorem address_lt_of_remove {b : LdBin} {heap₀ heap₁ : Heap} {short : Word}
    (hS : Squeezed b [] (heap₀ bin))
    (hne : ∀ e ∈ b.tables .adjustment, e.address ≠ p + 1)
    (hremove : binRemove ls [bin] bin (closed [] (p + 1)) 1 (Function.update heap₀ bin
      ((heap₀ bin).setWord (closed [] p) short)) = .ok heap₁) :
    ∀ e ∈ b.tables .adjustment, e.address < b.words.length := by
  intro e he
  have hlt := (binRemove_adjustment hremove).2 e
  rw [Function.update_self, LdBin.setWord, List.length_set, hS.length List.nodup_nil] at hlt
  simp only [closed_nil] at hlt
  have hmem : e ∈ (heap₀ bin).tables .adjustment := by
    have hperm := hS.tables .adjustment (by decide)
    rw [moveEntries_nil] at hperm
    exact hperm.mem_iff.mpr he
  have hlt := hlt hmem (hne e he)
  rw [lowerRemoved] at hlt
  split at hlt
  · change e.address - 1 + 1 < _ at hlt
    omega
  · exact Nat.lt_of_succ_lt hlt

/-- **An adjustment that stays where it is is before the word that goes**: it would be the place
of an adjustment further behind otherwise, and so on to the end of the bin. -/
theorem address_lt_of_stays {b : LdBin} (hgone : p + 1 ∈ R)
    (hlength : ∀ e ∈ b.tables .adjustment, e.address < b.words.length)
    (hne : ∀ e ∈ b.tables .adjustment, e.address ≠ p + 1) {stays : LconvEntry → Prop}
    (hstays : ∀ e ∈ b.tables .adjustment, stays e →
      ∃ e₀ ∈ b.tables .adjustment, stays e₀ ∧ e.address = closed R e₀.address)
    {e : LconvEntry} (he : e ∈ b.tables .adjustment) (hstay : stays e) : e.address < p + 1 := by
  by_contra hge
  induction hn : b.words.length - e.address using Nat.strong_induction_on generalizing e with
  | _ n ih =>
    obtain ⟨e₀, he₀, hstay₀, haddress⟩ := hstays e he hstay
    have hat := hne e he
    have hle : e.address ≤ e₀.address := haddress ▸ closed_le
    have hbehind : closed R e₀.address < e₀.address := closed_lt_self hgone (by omega)
    have hlt₀ := hlength e₀ he₀
    exact ih _ (by omega) he₀ hstay₀ (by omega) rfl

/-- The word of an adjustment that stays where it is designates no word behind the one that goes:
it would be lowered on one account and not on the other. -/
theorem word_le_of_stays {b b' : LdBin} {A : List ℕ} {e : LconvEntry} (hcut : WordsCut b A b')
    (hfinal : Squeezed b R b') (hA : A.Nodup) (hR : R.Nodup) (hgone : p + 1 ∈ R)
    (hsingle : ∀ q ≤ p + 1, q ∈ A ↔ q = p + 1) (hagree : ∀ q ≤ p + 1, q ∈ A ↔ q ∈ R)
    (he : e ∈ b.tables .adjustment) (hlength : e.address < b.words.length) (hlt : e.address < p)
    (hfree : b.repointedAt e.address = false) : (b.word e.address).toNat ≤ p + 1 := by
  by_contra hgt
  have hadjusted : b.adjustedAt e.address = true := adjustedAt_iff.mpr ⟨e, he, rfl⟩
  have hnotA : ∀ q ≤ p, q ∉ A := fun q hq hmem => by
    have heq := (hsingle q (by omega)).mp hmem
    omega
  have hnotR : ∀ q ≤ p, q ∉ R := fun q hq hmem =>
    hnotA q hq ((hagree q (by omega)).mpr hmem)
  have hword := hcut.words e.address hlength (hnotA _ hlt.le) hfree
  have hclosed : closed A e.address = closed R e.address :=
    closed_congr hA hR fun q hq => hagree q (by omega)
  rw [hclosed, hfinal.getElem? hR hlength (hnotR _ hlt.le), Option.some_inj, squeezedWord,
    if_neg (hnotR _ hlt), if_pos hadjusted, cutWord, if_neg (hnotA _ hlt)] at hword
  have hvalue := congrArg BitVec.toNat hword
  have hlower : closed R (b.word e.address).toNat < (b.word e.address).toNat :=
    closed_lt_self hgone (by omega)
  rw [BitVec.toNat_ofNat, Nat.mod_eq_of_lt (hlower.trans (BitVec.isLt _))] at hvalue
  omega

/-- **What the adjustments are when the first word goes**, if the program is preserved: one that
does not name the bin stays where it is, and so does its word. -/
theorem follows_of_preserves (h : Walks items s.flat p []) (hbins : s.bins = [bin])
    (hprog : IsProgram items s.flat) (hshort : Shortens s.flat [] p) (hbegins : BeginsAt items p)
    (hpreserves : Preserves items ls s) : AdjustmentsFollow s.flat (p + 1) := by
  obtain ⟨s', saved, R', hok, hR', hliterals, hS'⟩ := hpreserves
  have hliteral' : ∀ r ∈ R', IsLiteral items s.flat r := fun r hr => (hliterals r hr).1
  obtain ⟨heap, hloop, rfl⟩ := (binsCompress_single hbins).mp hok
  obtain ⟨⟨A, hA, hcut, hsame⟩, heap₀, heap₁, short, hS₀, hremove⟩ := h.cut hprog (absurd rfl)
    hshort (LdBins.flat_eq hbins).symm (Nat.le_refl _) hloop
  have hp : p + 1 < s.flat.words.length := hshort.2.1
  have hfinal : Squeezed s.flat R' (heap bin) := hS'
  have hnext : s.flat.adjustedAt (p + 1) = false := adjustedAt_of_fixedAt hshort.2.2.1
  have hunadjusted := hprog.unadjusted p hbegins
  have hne : ∀ e ∈ s.flat.tables .adjustment, e.address ≠ p + 1 ∧ e.address ≠ p := by
    refine fun e he => ⟨fun hat => ?_, fun hat => ?_⟩
    · rw [adjustedAt_iff.mpr ⟨e, he, hat⟩] at hnext
      cases hnext
    · rw [adjustedAt_iff.mpr ⟨e, he, hat⟩] at hunadjusted
      cases hunadjusted
  have hsingle : ∀ q ≤ p + 1, q ∈ A ↔ q = p + 1 := fun q hq =>
    (hsame q hq).trans List.mem_singleton
  -- the literal is gone on either account
  have hliteral : IsLiteral items s.flat (p + 1) := by
    have ha := hshort.1
    rw [squeezedWord, if_neg List.not_mem_nil, hunadjusted, if_neg Bool.false_ne_true] at ha
    exact ⟨⟨p, rfl, hbegins, ha⟩, hshort.2.2.2, hshort.2.2.1⟩
  have hagree : ∀ q ≤ p + 1, q ∈ A ↔ q ∈ R' := fun q hq =>
    hcut.agree hfinal hA.nodup hR' hprog hp
      (fun r hr hle => (hsingle r hle).mp hr ▸ hliteral) hliteral' hq
  have hgone : p + 1 ∈ R' := (hagree _ (Nat.le_refl _)).mp ((hsingle _ (Nat.le_refl _)).mpr rfl)
  have hlength := address_lt_of_remove hS₀ (fun e he => (hne e he).1) hremove
  have hstays : ∀ e ∈ s.flat.tables .adjustment, ¬biseq e.bin s.flat.name = true →
      ∃ e₀ ∈ s.flat.tables .adjustment, ¬biseq e₀.bin s.flat.name = true ∧
        e.address = closed R' e₀.address := by
    intro e he hforeign
    have hstay : e ∈ (heap bin).tables .adjustment :=
      compressLoop_adjustment hloop rfl (LdBins.flat_eq hbins ▸ hforeign)
        (LdBins.flat_eq hbins ▸ he)
    obtain ⟨e₀, he₀, -, heq⟩ := mem_moveEntries.mp
      ((hfinal.tables .adjustment (by decide)).mem_iff.mp hstay)
    have hbin : e.bin = (withAddress e₀ (closed R' e₀.address)).bin := congrArg LconvEntry.bin heq
    rw [hbin] at hforeign
    exact ⟨e₀, he₀, hforeign, congrArg LconvEntry.address heq⟩
  refine ⟨hlength, fun e he => or_iff_not_imp_left.mpr fun hforeign => ?_⟩
  have hbefore := address_lt_of_stays hgone hlength (fun e he => (hne e he).1) hstays he hforeign
  have hfree : s.flat.repointedAt e.address = false := by
    rw [← Bool.not_eq_true, repointedAt_iff]
    rintro ⟨e', he', hat, hnames⟩
    exact hforeign (List.inj_on_of_nodup_map hprog.adjusted he' he hat ▸ hnames)
  have hlt : e.address < p := by
    have hat := (hne e he).2
    omega
  exact ⟨hbefore, word_le_of_stays hcut hfinal hA.nodup hR' hgone hsingle hagree he (hlength e he)
    hlt hfree⟩

/-- **`bins_compress` preserves a program if and only if its walk makes no misstep on it.** -/
theorem binsCompress_preserves_iff (ls : ListSort) (hbins : s.bins = [bin])
    (hprog : IsProgram items s.flat) :
    Preserves items ls s ↔ ∀ p R, ¬Misstep items s.flat p R := by
  refine ⟨fun hpreserves => ?_, preserves_of_no_misstep hbins hprog⟩
  have hfirst : ∀ p, Walks items s.flat p [] → Shortens s.flat [] p → BeginsAt items p := by
    intro p hwalk hshort
    by_contra hbegins
    exact hwalk.shortens hbins hprog (absurd rfl) hshort hbegins hpreserves
  have hfollowed : WalkFollowed items s.flat := fun p hwalk hshort =>
    follows_of_preserves hwalk hbins hprog hshort (hfirst p hwalk hshort) hpreserves
  intro p R h
  rcases h.misstep with hpast | ⟨hshort, hbegins⟩ | ⟨rfl, hshort, hnot⟩
  · exact h.looksPast hbins hprog hfollowed hpast hpreserves
  · exact h.walks.shortens hbins hprog (fun _ => hfollowed) hshort hbegins hpreserves
  · exact hnot (hfollowed p h.walks hshort)

end Compress

/-! ### Programs that are counted right -/

/-- An instruction of which `bins_compress` knows the size. -/
def Item.Counted : Item → Prop
  | .inst word next => compressSize word = next.length + 1
  | .data _ => False

section Counted

variable {items : List Item} {b : LdBin} {R : List ℕ} {p : ℕ}

/-- Behind an instruction begins the next, or it was the last. -/
theorem begins_or_end (before : List Item) {after : List Item} (h : ∀ item ∈ after, item.Counted) :
    BeginsAt (before ++ after) (codeOf before).length ∨
      (codeOf before).length = (codeOf (before ++ after)).length := by
  cases after with
  | nil => exact .inr (by rw [List.append_nil])
  | cons item after =>
    cases item with
    | inst word next => exact .inl ⟨before, word, next, after, rfl, rfl⟩
    | data word => exact absurd (h _ List.mem_cons_self) id

/-- Where every instruction is counted right the walk comes to instructions only. -/
theorem Walks.begins (h : Walks items b p R) (hprog : IsProgram items b)
    (hcounted : ∀ item ∈ items, item.Counted) : BeginsAt items p ∨ p = b.words.length := by
  have hstep : ∀ {p R}, Walks items b p R → BeginsAt items p →
      BeginsAt items (p + compressSize (squeezedWord b R p)) ∨
        p + compressSize (squeezedWord b R p) = b.words.length := by
    intro p R hwalk hbegins
    obtain ⟨-, hlt, -⟩ := hwalk.removed hprog.unadjusted
    rw [squeezedWord, if_neg fun hmem => absurd (hlt _ hmem) (by omega), hprog.unadjusted p hbegins,
      if_neg Bool.false_ne_true]
    obtain ⟨before, word, next, after, hitems, rfl⟩ := hbegins
    have hsize : compressSize word = next.length + 1 :=
      hcounted (.inst word next) (by simp [hitems])
    have hlength : (codeOf (before ++ [.inst word next])).length =
        (codeOf before).length + compressSize word := by
      rw [length_codeOf_append, length_codeOf_cons, hsize]
      rfl
    have hitems' : items = (before ++ [.inst word next]) ++ after := by
      rw [hitems, List.append_assoc, List.singleton_append]
    rw [word_begin (hitems ▸ hprog.words), hprog.words, ← hlength, hitems']
    exact begins_or_end _ fun item hitem => hcounted item (by simp [hitems, hitem])
  induction h with
  | start =>
    rw [hprog.words]
    exact begins_or_end [] hcounted
  | pass hwalk hp _ _ ih => exact hstep hwalk (ih.resolve_right (Nat.ne_of_lt hp))
  | shorten hwalk _ hbegins _ => exact hstep hwalk hbegins

/-- **A program of instructions that are counted right is free of missteps**, if all its
adjustments name the bin. -/
theorem no_misstep (hprog : IsProgram items b) (hcounted : ∀ item ∈ items, item.Counted)
    (hfollows : AdjustmentsFollow b 0) : ¬Misstep items b p R := by
  rintro ⟨hwalk, hmisstep⟩
  have hp : p < b.words.length := by
    rcases hmisstep with hpast | ⟨hshort, -⟩ | ⟨-, hshort, -⟩
    · exact Nat.lt_of_succ_le hpast.2.le
    · exact Nat.lt_of_succ_lt hshort.2.1
    · exact Nat.lt_of_succ_lt hshort.2.1
  have hbegins := (hwalk.begins hprog hcounted).resolve_right (Nat.ne_of_lt hp)
  rcases hmisstep with ⟨ha, hlast⟩ | ⟨-, hnot⟩ | ⟨-, -, hnot⟩
  · -- the last instruction has its next word behind it
    obtain ⟨-, hlt, -⟩ := hwalk.removed hprog.unadjusted
    rw [squeezedWord, if_neg fun hmem => absurd (hlt _ hmem) (by omega), hprog.unadjusted p hbegins,
      if_neg Bool.false_ne_true] at ha
    obtain ⟨before, word, next, after, hitems, rfl⟩ := hbegins
    rw [word_begin (hitems ▸ hprog.words)] at ha
    have hsize : compressSize word = next.length + 1 :=
      hcounted (.inst word next) (by simp [hitems])
    have hlow := one_lt_compressSize ha
    rw [hprog.words, hitems, length_codeOf_append, length_codeOf_cons, Item.words,
      List.length_cons] at hlast
    omega
  · exact hnot hbegins
  · exact hnot (hfollows.mono (Nat.zero_le _))

end Counted

/-! ### Two programs -/

/-- A bin with the words of a program and nothing else. -/
def programBin (items : List Item) : LdBin where
  name := outputName
  words := codeOf items
  tables _ := []
  symbols := []

theorem isProgram_programBin {items : List Item} (h : ∀ item ∈ items, item.WellFormed) :
    IsProgram items (programBin items) where
  words := rfl
  wellFormed := h
  adjusted := List.nodup_nil
  unadjusted _ _ := rfl
  labels _ _ _ he := absurd he List.not_mem_nil
  symbols _ hsym := absurd hsym List.not_mem_nil

/-- The bins with a program linked. -/
def linkedBins (items : List Item) : LdBins := ⟨fun _ => programBin items, [0], 1⟩

theorem bins_linkedBins (items : List Item) : (linkedBins items).bins = [0] := rfl

/-- `SET A, 5`. -/
def literalProgram : List Item := [.inst 0x7C01 [5]]

/-- `SET B, [A+0x7C01]` and `SET A, A`. The next word of the first is that of a `SET` with a
next word, and the second is a small value. -/
def indexedProgram : List Item := [.inst 0x4021 [0x7C01], .inst 0x0001 []]

theorem binsCompress_preserves_literalProgram :
    Preserves literalProgram .insertion (linkedBins literalProgram) := by
  have hprog : IsProgram literalProgram (linkedBins literalProgram).flat :=
    isProgram_programBin (List.forall_mem_singleton.mpr rfl)
  exact (binsCompress_preserves_iff .insertion (bins_linkedBins _) hprog).mpr fun _ _ =>
    no_misstep hprog (List.forall_mem_singleton.mpr rfl) ⟨nofun, nofun⟩

/-- The second instruction of the program is taken for the literal of the first. -/
theorem not_forall_preserves :
    ¬∀ (ls : ListSort) (items : List Item) (s : LdBins) (bin : BinPtr), s.bins = [bin] →
      IsProgram items s.flat → Preserves items ls s := by
  intro h
  have hprog : IsProgram indexedProgram (linkedBins indexedProgram).flat :=
    isProgram_programBin (by
      rw [indexedProgram, List.forall_mem_cons, List.forall_mem_singleton]
      exact ⟨rfl, rfl⟩)
  have hbegins : ¬BeginsAt indexedProgram 1 := by
    rintro ⟨before, word, next, after, hitems, hlength⟩
    cases before with
    | nil => cases hlength
    | cons item before =>
      obtain ⟨rfl, -⟩ := List.cons.inj hitems
      rw [length_codeOf_cons] at hlength
      change 2 + _ = 1 at hlength
      omega
  have hwalk : Walks indexedProgram (linkedBins indexedProgram).flat 1 [] :=
    Walks.start.pass (by decide) (fun h => absurd h.1 (by decide)) fun h => absurd h.1 (by decide)
  exact hwalk.shortens (bins_linkedBins _) hprog (absurd rfl) ⟨by decide, by decide, rfl, rfl⟩
    hbegins (h .insertion _ _ 0 (bins_linkedBins _) hprog)

end DcpuToolchain
