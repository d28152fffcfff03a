import DcpuToolchain.Ld.Plain
import DcpuToolchain.Ld.Resolve
import DcpuToolchain.Lib.Objects
import Mathlib.Algebra.Order.BigOperators.Group.List

/-!
# The objects in bins

A bin without sections, jumps and calls is about an object (`DcpuToolchain.LdBin.Carries`): its
words are the items, and its tables say which of them are positions and which are names. A word
for a name that is required is either left to be filled in or has the position by now, and then
it is adjusted like other positions.

Linking files without sections puts their objects one behind the other
(`DcpuToolchain.carries_concat`). Resolving then fills in the words, or halts if a name that is
required is missing (`DcpuToolchain.LdBin.Carries.resolve_values`). For a library it fills in only
what there is, which leaves the object as it is (`DcpuToolchain.LdBin.Carries.resolve`).
-/

namespace DcpuToolchain

open Linking Marks

/-- The objects of the linker. -/
abbrev LdObject := Object Bstring Word

/-- The table of the imports of a kind. -/
def importTable : (isOptional : Bool) → Table
  | false => .required
  | true => .optional

/-- The positions of the words that are adjusted. -/
def LdBin.adjustedPositions (b : LdBin) : List ℕ := (b.tables .adjustment).map LconvEntry.address

/-- **A bin is about an object.** -/
structure LdBin.Carries (b : LdBin) (c : LdObject) : Prop where
  length : b.words.length = c.items.length
  provided : ∀ e, e ∈ b.tables .provided ↔ ∃ x ∈ c.exports, e = ⟨x.1, none, x.2⟩
  imports : ∀ o, ∀ e ∈ b.tables (importTable o), e.bin = none ∧
    c.items[e.address]? = some (.imported o e.label)
  imports_nodup : ∀ o, ((b.tables (importTable o)).map LconvEntry.address).Nodup
  adjusted : ∀ i ∈ b.adjustedPositions,
    ∃ q, c.target i = some q ∧ b.words[i]? = some (BitVec.ofNat 16 q)
  adjusted_nodup : b.adjustedPositions.Nodup
  fixed : ∀ (i : ℕ) (w : Word), c.items[i]? = some (.fixed w) → b.words[i]? = some w
  address : ∀ (i q : ℕ), c.items[i]? = some (.address q) → i ∈ b.adjustedPositions
  required : ∀ (i : ℕ) (name : Bstring), c.items[i]? = some (.imported false name) →
    (i ∈ (b.tables .required).map LconvEntry.address ↔ i ∉ b.adjustedPositions)
  optional : ∀ (i : ℕ) (name : Bstring), c.items[i]? = some (.imported true name) →
    i ∈ (b.tables .optional).map LconvEntry.address
  others : ∀ t, t ≠ .provided → t ≠ .required → t ≠ .optional → t ≠ .adjustment → b.tables t = []

/-- Bins with names that the linker does not use itself. -/
structure NamesFit (names : List Bstring) : Prop where
  nodup : names.Nodup
  ne_output : ∀ name ∈ names, name ≠ outputName
  not_section : ∀ name ∈ names, name.take 8 ≠ sectionPrefix

namespace LdBin.Carries

variable {b : LdBin} {c : LdObject} (h : b.Carries c)
include h

theorem bare : b.Bare :=
  ⟨h.others _ Table.noConfusion Table.noConfusion Table.noConfusion Table.noConfusion,
    h.others _ Table.noConfusion Table.noConfusion Table.noConfusion Table.noConfusion⟩

theorem jump_eq_nil : b.tables .jump = [] :=
  h.others _ Table.noConfusion Table.noConfusion Table.noConfusion Table.noConfusion

theorem adjustedPositions_lt {i : ℕ} (hi : i ∈ b.adjustedPositions) : i < b.words.length := by
  obtain ⟨q, -, hword⟩ := h.adjusted i hi
  exact (List.getElem?_eq_some_iff.mp hword).1

theorem import_lt {o : Bool} {e : LconvEntry} (he : e ∈ b.tables (importTable o)) :
    e.address < b.words.length := by
  rw [h.length]
  exact (List.getElem?_eq_some_iff.mp (h.imports o e he).2).1

/-- Entries mark words. -/
theorem marks_lt {t : Table} {e : LconvEntry} (he : e ∈ b.tables t) :
    e.address < b.words.length := by
  cases t with
  | provided =>
    obtain ⟨x, hx, rfl⟩ := (h.provided e).mp he
    rw [h.length]
    exact c.exports_lt x hx
  | required => exact h.import_lt (o := false) he
  | optional => exact h.import_lt (o := true) he
  | adjustment => exact h.adjustedPositions_lt (List.mem_map_of_mem he)
  | _ =>
    rw [h.others _ Table.noConfusion Table.noConfusion Table.noConfusion Table.noConfusion] at he
    cases he

/-- The address that an adjusted word is. -/
theorem wordAddress_eq (hsize : c.items.length < 0x10000) {i : ℕ} (hi : i ∈ b.adjustedPositions) :
    c.target i = some (wordAddress b i) := by
  obtain ⟨q, hq, hword⟩ := h.adjusted i hi
  have hlt := Object.target_lt hq
  rw [wordAddress, List.getD_eq_getElem?_getD, hword, Option.getD_some, BitVec.toNat_ofNat,
    Nat.mod_eq_of_lt (by omega), hq]

end LdBin.Carries

/-! ### Linking -/

section Linking

variable {bins : List LdBin} {cs : List LdObject} {k : ℕ}
  (h : List.Forall₂ LdBin.Carries bins cs)
include h

theorem lengths_eq : bins.map (·.words.length) = cs.map (·.items.length) := by
  induction h with
  | nil => rfl
  | cons hb _ ih => rw [List.map_cons, List.map_cons, hb.length, ih]

theorem binBase_eq (k : ℕ) : binBase bins k = Object.base cs k := by
  rw [binBase, Object.base, List.map_take, List.map_take, lengths_eq h]

theorem exists_object {b : LdBin} (hb : bins[k]? = some b) :
    ∃ c, cs[k]? = some c ∧ b.Carries c := by
  obtain ⟨hk, rfl⟩ := List.getElem?_eq_some_iff.mp hb
  have hk' : k < cs.length := h.length_eq ▸ hk
  exact ⟨cs[k], List.getElem?_eq_getElem hk', h.get hk hk'⟩

theorem exists_bin {c : LdObject} (hc : cs[k]? = some c) :
    ∃ b, bins[k]? = some b ∧ b.Carries c := by
  obtain ⟨hk, rfl⟩ := List.getElem?_eq_some_iff.mp hc
  have hk' : k < bins.length := h.length_eq ▸ hk
  exact ⟨bins[k], List.getElem?_eq_getElem hk', h.get hk' hk⟩

variable (hsize : (Object.concat cs).items.length < 0x10000)
include hsize

omit h in
/-- Objects are not larger than all of them. -/
theorem length_items_lt {c : LdObject} (hc : cs[k]? = some c) : c.items.length < 0x10000 := by
  rw [Object.length_concat] at hsize
  exact (List.le_sum_of_mem (List.mem_map_of_mem (List.mem_of_getElem? hc))).trans_lt hsize

/-- **The files have no sections.** -/
theorem plainFiles_of_carries : PlainFiles bins := by
  have hcarries : ∀ f ∈ bins, ∃ c, f.Carries c ∧ c.items.length < 0x10000 := by
    intro f hf
    obtain ⟨k, hk⟩ := List.mem_iff_getElem?.mp hf
    obtain ⟨c, hc, hcarry⟩ := exists_object h hk
    exact ⟨c, hcarry, length_items_lt hsize hc⟩
  refine ⟨fun f hf => ?_, fun f hf t e he => ?_, fun f hf e he => ?_⟩
  · obtain ⟨c, hcarry, -⟩ := hcarries f hf
    exact hcarry.bare
  · obtain ⟨c, hcarry, -⟩ := hcarries f hf
    exact hcarry.marks_lt he
  · obtain ⟨c, hcarry, hlt⟩ := hcarries f hf
    rw [hcarry.length]
    exact Object.target_lt (hcarry.wordAddress_eq hlt (List.mem_map_of_mem he))

/-- **The files can be linked.** -/
theorem linkable_of_carries (hnames : NamesFit (bins.map LdBin.name)) : Linkable bins := by
  have hplain := plainFiles_of_carries h hsize
  have hnone : ∀ f ∈ bins, ∀ e ∈ f.tables .section, False := by
    intro f hf e he
    rw [(hplain.bare f hf).1] at he
    cases he
  refine ⟨hnames.nodup, fun f hf => hnames.ne_output _ (List.mem_map_of_mem hf),
    fun f hf => hnames.not_section _ (List.mem_map_of_mem hf), ?_, fun f hf => ?_,
    fun f hf e he => absurd (hnone f hf e he) id, fun f hf e he => (hplain.marks_lt f hf _ e he).le,
    fun f hf _ _ e he => absurd (hnone f hf e he) id, fun f hf => ?_,
    fun f hf e he => hplain.marks_lt f hf _ e he, fun f hf e _ => .inl ?_⟩
  · rw [lengths_eq h, ← Object.length_concat]
    exact hsize
  · rw [(hplain.bare f hf).1]
    exact List.nodup_nil
  · obtain ⟨k, hk⟩ := List.mem_iff_getElem?.mp hf
    obtain ⟨c, -, hcarry⟩ := exists_object h hk
    exact hcarry.adjusted_nodup
  · exact partOf_eq_none fun e he => absurd (hnone f hf e he) id

omit hsize in
/-- An item of all objects is one of a bin. -/
theorem exists_item {j : ℕ} {item : Piece Bstring Word}
    (hj : (Object.concat cs).items[j]? = some item) :
    ∃ (k : ℕ) (f : LdBin) (c : LdObject) (i : ℕ) (item' : Piece Bstring Word), bins[k]? = some f ∧
      cs[k]? = some c ∧ f.Carries c ∧ c.items[i]? = some item' ∧ i < f.words.length ∧
        j = binBase bins k + i ∧ item = item'.shift (binBase bins k) := by
  obtain ⟨k, c, i, item', hc, hi, rfl, rfl⟩ := Object.getElem?_concat_iff.mp hj
  obtain ⟨f, hf, hcarry⟩ := exists_bin h hc
  refine ⟨k, f, c, i, item', hf, hc, hcarry, hi, ?_, ?_, ?_⟩
  · rw [hcarry.length]
    exact (List.getElem?_eq_some_iff.mp hi).1
  · rw [binBase_eq h]
  · rw [binBase_eq h]

omit hsize in
/-- An item of a bin is one of all objects. -/
theorem getElem?_concat {c : LdObject} {i : ℕ} {item : Piece Bstring Word} (hc : cs[k]? = some c)
    (hi : c.items[i]? = some item) :
    (Object.concat cs).items[binBase bins k + i]? = some (item.shift (binBase bins k)) := by
  rw [binBase_eq h]
  exact Object.getElem?_concat_iff.mpr ⟨k, c, i, item, hc, hi, rfl, rfl⟩

/-- **Linking puts the objects one behind the other.** -/
theorem carries_concat {b : LdBin} (hnodup : (Object.concat cs).names.Nodup)
    (hnames : NamesFit (bins.map LdBin.name)) (hb : Strung bins b) :
    b.Carries (Object.concat cs) := by
  have hplain := plainFiles_of_carries h hsize
  have hd := linkable_of_carries h hsize hnames
  have hmarks : ∀ o, (importTable o).marksWords = true := by
    intro o
    cases o <;> rfl
  refine ⟨?_, fun e => ?_, fun o e he => ?_, fun o => ?_, fun j hj => ?_, hb.nodup_adjustment,
    fun j w hj => ?_, fun j q hj => ?_, fun j name hj => ?_, fun j name hj => ?_, ?_⟩
  · rw [hb.length_words, lengths_eq h, Object.length_concat]
  · rw [hb.mem_iff hplain rfl]
    constructor
    · rintro ⟨k, f, e', hf, he', rfl⟩
      obtain ⟨c, hc, hcarry⟩ := exists_object h hf
      obtain ⟨x, hx, rfl⟩ := (hcarry.provided e').mp he'
      exact ⟨(x.1, binBase bins k + x.2), Object.mem_exports_concat.mpr
        ⟨k, c, x.2, hc, hx, by rw [binBase_eq h]⟩, rfl⟩
    · rintro ⟨x, hx, rfl⟩
      obtain ⟨k, c, q, hc, hq, heq⟩ := Object.mem_exports_concat.mp hx
      obtain ⟨f, hf, hcarry⟩ := exists_bin h hc
      refine ⟨k, f, _, hf, (hcarry.provided _).mpr ⟨_, hq, rfl⟩, ?_⟩
      rw [heq, binBase_eq h]
  · obtain ⟨k, f, e', hf, he', rfl⟩ := (hb.mem_iff hplain (hmarks o)).mp he
    obtain ⟨c, hc, hcarry⟩ := exists_object h hf
    obtain ⟨hbin, hitem⟩ := hcarry.imports o e' he'
    exact ⟨hbin, getElem?_concat h hc hitem⟩
  · refine hb.nodup (hmarks o) fun f hf => ?_
    obtain ⟨k, hk⟩ := List.mem_iff_getElem?.mp hf
    obtain ⟨c, -, hcarry⟩ := exists_object h hk
    exact hcarry.imports_nodup o
  · obtain ⟨k, f, hf, e', he', rfl⟩ := (hb.mem_adjustment hplain hd).mp hj
    obtain ⟨c, hc, hcarry⟩ := exists_object h hf
    have hadjusted : e'.address ∈ f.adjustedPositions := List.mem_map_of_mem he'
    have htarget := hcarry.wordAddress_eq (length_items_lt hsize hc) hadjusted
    refine ⟨_, ?_, hb.address hf (hcarry.adjustedPositions_lt hadjusted) ⟨e', he', rfl⟩⟩
    rw [binBase_eq h]
    exact Object.target_concat hnodup hc htarget
  · obtain ⟨k, f, c, i, item, hf, hc, hcarry, hi, hlt, rfl, heq⟩ := exists_item h hj
    cases item with
    | fixed w' =>
      cases heq
      rw [hb.word hf hlt fun e he haddress => ?_]
      · exact hcarry.fixed i w hi
      · obtain ⟨q, hq, -⟩ := hcarry.adjusted i (List.mem_map.mpr ⟨e, he, haddress⟩)
        rw [Object.target, hi] at hq
        cases hq
    | _ => cases heq
  · obtain ⟨k, f, c, i, item, hf, hc, hcarry, hi, hlt, rfl, heq⟩ := exists_item h hj
    cases item with
    | address q' => exact (hb.mem_adjusted hplain hd hf hlt).mpr (hcarry.address i q' hi)
    | _ => cases heq
  · obtain ⟨k, f, c, i, item, hf, hc, hcarry, hi, hlt, rfl, heq⟩ := exists_item h hj
    cases item with
    | imported o name' =>
      cases heq
      rw [hb.mem_addresses hplain rfl hf hlt, hcarry.required i name hi]
      exact not_congr (hb.mem_adjusted hplain hd hf hlt).symm
    | _ => cases heq
  · obtain ⟨k, f, c, i, item, hf, hc, hcarry, hi, hlt, rfl, heq⟩ := exists_item h hj
    cases item with
    | imported o name' =>
      cases heq
      rw [hb.mem_addresses hplain rfl hf hlt]
      exact hcarry.optional i name hi
    | _ => cases heq
  · intro t hprovided hrequired hoptional hadjustment
    by_cases hsection : t = .section ∨ t = .output
    · rcases hsection with rfl | rfl
      · exact hb.bare.1
      · exact hb.bare.2
    · have hmarks : t.marksWords = true := by
        cases t with
        | adjustment => exact absurd rfl hadjustment
        | «section» => exact absurd (.inl rfl) hsection
        | output => exact absurd (.inr rfl) hsection
        | _ => rfl
      refine List.eq_nil_iff_forall_not_mem.mpr fun e he => ?_
      obtain ⟨k, f, e', hf, he', -⟩ := (hb.mem_iff hplain hmarks).mp he
      obtain ⟨c, -, hcarry⟩ := exists_object h hf
      rw [hcarry.others t hprovided hrequired hoptional hadjustment] at he'
      cases he'

omit hsize in
/-- An optional name has not been filled in where it is not exported. -/
theorem fresh_of_settled {b : LdBin} (hsettled : ∀ c ∈ cs, c.Settled) (hplain : PlainFiles bins)
    (hd : Linkable bins) (hb : Strung bins b) :
    ∀ e ∈ b.tables .optional, e.address ∉ b.adjustedPositions := by
  intro e he hadjusted
  obtain ⟨k, f, e', hf, he', rfl⟩ := (hb.mem_iff hplain rfl).mp he
  obtain ⟨c, hc, hcarry⟩ := exists_object h hf
  have hlt := hcarry.marks_lt he'
  obtain ⟨q, hq, -⟩ := hcarry.adjusted _ ((hb.mem_adjusted hplain hd hf hlt).mp hadjusted)
  have hitem := (hcarry.imports true e' he').2
  rw [Object.target, hitem] at hq
  have hnone := hsettled c (List.mem_of_getElem? hc) e'.label (List.mem_of_getElem? hitem)
  exact absurd (hnone.symm.trans hq) (Option.some_ne_none q).symm

end Linking

/-! ### Resolving -/

namespace LdBin.Carries

section Resolving

variable {b : LdBin} {c : LdObject} (h : b.Carries c) (hnodup : c.names.Nodup)
include h

theorem mem_imports_iff {e : LconvEntry} :
    e ∈ DcpuToolchain.imports b ↔ e ∈ b.tables .required ∨ e ∈ b.tables .optional := by
  have hlt : e ∈ b.tables .optional → e.address < b.words.length := h.import_lt (o := true)
  rw [DcpuToolchain.imports, List.mem_append, List.mem_filter, decide_eq_true_iff,
    and_iff_left_of_imp hlt]

/-- Entries for imports are of one kind. -/
theorem import_address_ne {e e' : LconvEntry} (he : e ∈ b.tables .required)
    (he' : e' ∈ b.tables .optional) : e.address ≠ e'.address := by
  intro heq
  have hitem := (h.imports false e he).2
  rw [heq, (h.imports true e' he').2] at hitem
  cases hitem

/-- **The imports can be resolved.** -/
theorem resolvable : Resolvable b := by
  refine ⟨fun e he => h.import_lt (o := false) he,
    fun e he => (h.import_lt (o := true) he).ne, ?_, fun e _ _ => ?_⟩
  · have hfilter : (b.tables .optional).filter (·.address < b.words.length) = b.tables .optional :=
      List.filter_eq_self.mpr fun e he => decide_eq_true (h.import_lt (o := true) he)
    rw [DcpuToolchain.imports, hfilter, List.map_append, List.nodup_append]
    refine ⟨h.imports_nodup false, h.imports_nodup true, ?_⟩
    rintro a ha a' ha' rfl
    obtain ⟨e, he, rfl⟩ := List.mem_map.mp ha
    obtain ⟨e', he', heq⟩ := List.mem_map.mp ha'
    exact h.import_address_ne he he' heq.symm
  · rw [h.jump_eq_nil]
    rfl

include hnodup

/-- **An exported name is found** at its position. -/
theorem seek_provided (name : Bstring) :
    (seek (b.tables .provided) name).map LconvEntry.address = c.position name := by
  cases hseek : seek (b.tables .provided) name with
  | none =>
    refine (Object.position_eq_none_iff.mpr fun hname => ?_).symm
    obtain ⟨x, hx, rfl⟩ := List.mem_map.mp hname
    exact absurd (decide_eq_true rfl)
      (List.find?_eq_none.mp hseek _ ((h.provided _).mpr ⟨x, hx, rfl⟩))
  | some e =>
    obtain ⟨x, hx, rfl⟩ := (h.provided e).mp (List.mem_of_find?_eq_some hseek)
    refine ((Object.position_eq_some_iff hnodup).mpr ?_).symm
    have hlabel : x.1 = name := seek_label hseek
    rw [← hlabel]
    exact hx

theorem lacks_eq (name : Bstring) : b.lacks name = (c.position name).isNone := by
  rw [LdBin.lacks, h.jump_eq_nil, ← h.seek_provided hnodup name]
  cases seek (b.tables .provided) name <;> rfl

theorem fromProvided_iff (e : LconvEntry) : FromProvided b e ↔ (c.position e.label).isSome := by
  rw [FromProvided, ← h.seek_provided hnodup, Option.isSome_map]

/-- **What an import is filled with.** -/
theorem importValue_eq (allowMissing : Bool) (e : LconvEntry) :
    importValue allowMissing b e =
      (c.position e.label).or (if allowMissing = true then none else some 0) := by
  rw [importValue, h.jump_eq_nil, ← h.seek_provided hnodup]
  cases seek (b.tables .provided) e.label <;> rfl

/-- The linker halts where a name that is required is missing. -/
theorem mustHalt_iff : MustHalt false b ↔ c.Lacks := by
  rw [MustHalt, and_iff_right rfl]
  constructor
  · rintro ⟨e, he, hlacks⟩
    rw [h.lacks_eq hnodup, Option.isNone_iff_eq_none] at hlacks
    exact ⟨e.label, List.mem_of_getElem? (h.imports false e he).2, hlacks⟩
  · rintro ⟨name, hname, hlacks⟩
    obtain ⟨i, hi⟩ := List.mem_iff_getElem?.mp hname
    -- the word is not filled yet, since it would have the position
    have hmem : i ∈ (b.tables .required).map LconvEntry.address := by
      refine (h.required i name hi).mpr fun hadjusted => ?_
      obtain ⟨q, hq, -⟩ := h.adjusted i hadjusted
      rw [Object.target, hi] at hq
      exact absurd (hlacks.symm.trans hq) (Option.some_ne_none _).symm
    obtain ⟨e, he, rfl⟩ := List.mem_map.mp hmem
    have hlabel := (h.imports false e he).2
    rw [hi] at hlabel
    cases hlabel
    refine ⟨e, he, ?_⟩
    rw [h.lacks_eq hnodup, hlacks]
    rfl

omit hnodup in
/-- An import that marks the word of an item. -/
theorem import_of_item {i : ℕ} {item : Piece Bstring Word} (hi : c.items[i]? = some item)
    {e : LconvEntry} (he : e ∈ b.tables .required ∨ e ∈ b.tables .optional)
    (haddress : e.address = i) :
    ∃ o, item = .imported o e.label ∧ e ∈ b.tables (importTable o) := by
  have hof : ∀ o, e ∈ b.tables (importTable o) →
      ∃ o, item = .imported o e.label ∧ e ∈ b.tables (importTable o) := by
    intro o he
    have hitem := (h.imports o e he).2
    rw [haddress, hi] at hitem
    exact ⟨o, Option.some.inj hitem, he⟩
  rcases he with he | he
  · exact hof false he
  · exact hof true he

omit hnodup in
/-- **What the words are** when imports have been filled in. -/
theorem words_afterAll (allowMissing : Bool) :
    let words := (ResolveState.afterAll allowMissing b ⟨b.words, b.tables .adjustment, none⟩
      (DcpuToolchain.imports b)).words
    words.length = b.words.length ∧
      (∀ e, e ∈ b.tables .required ∨ e ∈ b.tables .optional →
        ∀ v, importValue allowMissing b e = some v →
          words[e.address]? = some (BitVec.ofNat 16 v)) ∧
      ∀ i, (∀ e, e ∈ b.tables .required ∨ e ∈ b.tables .optional → e.address = i →
        importValue allowMissing b e = none) → words[i]? = b.words[i]? := by
  obtain ⟨hlength, hfilled, hunchanged⟩ := DcpuToolchain.words_afterAll allowMissing b
    ⟨b.words, b.tables .adjustment, none⟩ h.resolvable.nodup
    fun e he => h.resolvable.lt_of_mem_imports he
  exact ⟨hlength, fun e he => hfilled e (h.mem_imports_iff.mpr he),
    fun i hi => hunchanged i fun e he => hi e (h.mem_imports_iff.mp he)⟩

/-- **Resolving fills in the positions of the names**, if none is missing. -/
theorem resolve_values (hl : ¬ c.Lacks) :
    ∃ b', b.resolve false false false = .ok b' ∧ b'.name = b.name ∧
      c.values (BitVec.ofNat 16) = b'.words.map some := by
  obtain ⟨b', hresolve, hleaves⟩ := h.resolvable.resolve_ok false false
    fun hm => hl ((h.mustHalt_iff hnodup).mp hm)
  obtain ⟨hlength, hfilled, hunchanged⟩ := h.words_afterAll false
  rw [← hleaves.words] at hlength hfilled hunchanged
  refine ⟨b', hresolve, hleaves.name, List.ext_getElem? fun i => ?_⟩
  rw [Object.values, List.getElem?_map, List.getElem?_map]
  cases hi : c.items[i]? with
  | none =>
    rw [List.getElem?_eq_none_iff, ← h.length, ← hlength] at hi
    rw [List.getElem?_eq_none hi]
    rfl
  | some item =>
    -- a word that is not filled keeps the position that it has
    have hkept : (∀ o name, item = .imported o name →
        i ∉ (b.tables (importTable o)).map LconvEntry.address) → b'.words[i]? = b.words[i]? := by
      intro hnone
      refine hunchanged i fun e he haddress => ?_
      obtain ⟨o, heq, he⟩ := h.import_of_item hi he haddress
      exact absurd (List.mem_map.mpr ⟨e, he, haddress⟩) (hnone o _ heq)
    have hposition : i ∈ b.adjustedPositions → ∃ q, c.targetOf item = some q ∧
        b.words[i]? = some (BitVec.ofNat 16 q) := by
      intro hadjusted
      obtain ⟨q, hq, hword⟩ := h.adjusted i hadjusted
      rw [Object.target, hi] at hq
      exact ⟨q, hq, hword⟩
    cases item with
    | fixed w =>
      have hkeeps := hkept (by
        rintro o name heq
        cases heq)
      rw [hkeeps, h.fixed i w hi]
      rfl
    | address q =>
      obtain ⟨q', hq', hword⟩ := hposition (h.address i q hi)
      cases hq'
      have hkeeps := hkept (by
        rintro o name heq
        cases heq)
      rw [hkeeps, hword]
      rfl
    | imported o name =>
      by_cases hpending : i ∈ (b.tables (importTable o)).map LconvEntry.address
      · obtain ⟨e, he, rfl⟩ := List.mem_map.mp hpending
        have hlabel := (h.imports o e he).2
        rw [hi] at hlabel
        cases hlabel
        have hvalue := h.importValue_eq hnodup false e
        cases o with
        | false =>
          cases hname : c.position e.label with
          | none => exact absurd ⟨_, List.mem_of_getElem? hi, hname⟩ hl
          | some q =>
            rw [hname] at hvalue
            rw [hfilled e (.inl he) q hvalue, Option.map_some, Option.map_some, Object.value, hname]
            rfl
        | true =>
          rw [hfilled e (.inr he) ((c.position e.label).getD 0) (hvalue.trans ?_)]
          · rfl
          · cases c.position e.label <;> rfl
      · cases o with
        | false =>
          -- the word has been filled before
          have hadjusted := not_not.mp fun hnot => hpending ((h.required i name hi).mpr hnot)
          obtain ⟨q, hq, hword⟩ := hposition hadjusted
          have hname : c.position name = some q := hq
          have hkeeps := hkept (by
            rintro o' name' heq
            cases heq
            exact hpending)
          rw [hkeeps, hword, Option.map_some, Option.map_some, Object.value, hname]
          rfl
        | true => exact absurd (h.optional i name hi) hpending

/-- **What a library is adjusted at**: also where names have been filled in. -/
theorem adjustment_afterAll_true :
    (ResolveState.afterAll true b ⟨b.words, b.tables .adjustment, none⟩
      (DcpuToolchain.imports b)).adjustment.map LconvEntry.address = b.adjustedPositions ++
        ((DcpuToolchain.imports b).filter (FromProvided b ·)).map LconvEntry.address := by
  rw [adjustment_afterAll, show (none : Option Bstring).isSome = false from rfl, entered_eq]
  · rfl
  · -- with missing names allowed, all that is filled in is a position
    refine List.pairwise_of_forall fun e e' _ hvalue => ?_
    rw [h.importValue_eq hnodup, if_pos rfl, Option.or_none] at hvalue
    rw [h.fromProvided_iff hnodup]
    exact Option.isSome_iff_ne_none.mpr hvalue

/-- **Resolving a library leaves its object as it is**, if no optional name has been filled in
before. -/
theorem resolve (hfresh : ∀ e ∈ b.tables .optional, e.address ∉ b.adjustedPositions) :
    ∃ b', b.resolve true true true = .ok b' ∧ b'.name = b.name ∧ b'.Carries c := by
  have hm : ¬ MustHalt true b := by
    rintro ⟨hfalse, -⟩
    cases hfalse
  obtain ⟨b', hresolve, hleaves⟩ := h.resolvable.resolve_ok true true hm
  obtain ⟨hlength, hfilled, hunchanged⟩ := h.words_afterAll true
  rw [← hleaves.words] at hlength hfilled hunchanged
  refine ⟨b', hresolve, hleaves.name, ?_⟩
  have hadjustedPositions : b'.adjustedPositions = b.adjustedPositions ++
      ((DcpuToolchain.imports b).filter (FromProvided b ·)).map LconvEntry.address := by
    rw [LdBin.adjustedPositions, hleaves.adjustment, h.adjustment_afterAll_true hnodup]
  have hmem : ∀ i, i ∈ b'.adjustedPositions ↔ i ∈ b.adjustedPositions ∨ ∃ e,
      (e ∈ b.tables .required ∨ e ∈ b.tables .optional) ∧ (c.position e.label).isSome ∧
        e.address = i := by
    intro i
    rw [hadjustedPositions, List.mem_append, List.mem_map]
    refine or_congr_right (exists_congr fun e => ?_)
    rw [List.mem_filter, decide_eq_true_iff, h.fromProvided_iff hnodup, h.mem_imports_iff,
      and_assoc]
  -- where an item stands for a position, the word has it now
  have hposition : ∀ i ∈ b'.adjustedPositions, ∃ q, c.target i = some q ∧
      b'.words[i]? = some (BitVec.ofNat 16 q) := by
    intro i hi
    by_cases hpending : ∃ e, (e ∈ b.tables .required ∨ e ∈ b.tables .optional) ∧
        (c.position e.label).isSome ∧ e.address = i
    · obtain ⟨e, he, hname, rfl⟩ := hpending
      obtain ⟨q, hq⟩ := Option.isSome_iff_exists.mp hname
      obtain ⟨item, hitem⟩ : ∃ item, c.items[e.address]? = some item := by
        rcases he with he | he
        · exact ⟨_, (h.imports false e he).2⟩
        · exact ⟨_, (h.imports true e he).2⟩
      obtain ⟨o, rfl, -⟩ := h.import_of_item hitem he rfl
      refine ⟨q, ?_, hfilled e he q ?_⟩
      · rw [Object.target, hitem]
        exact hq
      · rw [h.importValue_eq hnodup, hq]
        rfl
    · have hbefore := ((hmem i).mp hi).resolve_right hpending
      obtain ⟨q, hq, hword⟩ := h.adjusted i hbefore
      refine ⟨q, hq, ?_⟩
      rw [hunchanged i fun e he haddress => ?_, hword]
      rw [h.importValue_eq hnodup, if_pos rfl, Option.or_none]
      by_contra hname
      exact hpending ⟨e, he, Option.isSome_iff_ne_none.mpr hname, haddress⟩
  have hrequired : ∀ e, e ∈ b'.tables .required ↔
      e ∈ b.tables .required ∧ c.position e.label = none := by
    intro e
    rw [hleaves.required, List.mem_filter, Bool.and_true, h.lacks_eq hnodup,
      Option.isNone_iff_eq_none]
  have hoptional : b'.tables .optional = b.tables .optional := hleaves.optional
  have hprovided : b'.tables .provided = b.tables .provided := hleaves.provided
  refine ⟨hlength.trans h.length, fun e => ?_, fun o e he => ?_, fun o => ?_, hposition, ?_,
    fun i w hi => ?_, fun i q hi => (hmem i).mpr (.inl (h.address i q hi)), fun i name hi => ?_,
    fun i name hi => ?_, fun t hp hr ho ha => ?_⟩
  · rw [hprovided]
    exact h.provided e
  · cases o with
    | false => exact h.imports false e ((hrequired e).mp he).1
    | true => exact h.imports true e (hoptional ▸ he)
  · cases o with
    | false =>
      change ((b'.tables .required).map LconvEntry.address).Nodup
      rw [hleaves.required]
      exact (h.imports_nodup false).sublist (List.filter_sublist.map _)
    | true =>
      change ((b'.tables .optional).map LconvEntry.address).Nodup
      rw [hoptional]
      exact h.imports_nodup true
  · -- a word that is filled in has not been adjusted before
    rw [hadjustedPositions, List.nodup_append]
    refine ⟨h.adjusted_nodup, h.resolvable.nodup.sublist (List.filter_sublist.map _), ?_⟩
    rintro i hi i' hi' rfl
    obtain ⟨e, he, rfl⟩ := List.mem_map.mp hi'
    obtain ⟨he, hname⟩ := List.mem_filter.mp he
    rw [decide_eq_true_iff, h.fromProvided_iff hnodup] at hname
    rcases h.mem_imports_iff.mp he with he | he
    · exact (h.required _ _ (h.imports false e he).2).mp (List.mem_map_of_mem he) hi
    · exact hfresh e he hi
  · rw [hunchanged i fun e he haddress => ?_, h.fixed i w hi]
    obtain ⟨o, heq, -⟩ := h.import_of_item hi he haddress
    cases heq
  · rw [hmem, List.mem_map]
    constructor
    · rintro ⟨e, he, rfl⟩ hfilled'
      obtain ⟨he, hname⟩ := (hrequired e).mp he
      rcases hfilled' with hbefore | ⟨e', he', hname', haddress⟩
      · exact (h.required _ _ hi).mp (List.mem_map_of_mem he) hbefore
      · obtain ⟨o, heq, -⟩ := h.import_of_item (h.imports false e he).2 he' haddress
        injection heq with _ hlabel
        rw [← hlabel, hname] at hname'
        cases hname'
    · intro hnot
      rw [not_or] at hnot
      obtain ⟨e, he, rfl⟩ := List.mem_map.mp ((h.required i name hi).mpr hnot.1)
      refine ⟨e, (hrequired e).mpr ⟨he, ?_⟩, rfl⟩
      by_contra hname
      exact hnot.2 ⟨e, .inl he, Option.isSome_iff_ne_none.mpr hname, rfl⟩
  · rw [hoptional]
    exact h.optional i name hi
  · rw [hleaves.others t ha hr ho hp]
    exact h.others t hp hr ho ha

end Resolving

end LdBin.Carries

end DcpuToolchain
