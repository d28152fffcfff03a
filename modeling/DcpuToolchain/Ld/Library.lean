import DcpuToolchain.Ld.Contents
import DcpuToolchain.Ld.Input

/-!
# Images and libraries

`bins_save` writes the words of the linked bin, and for a static library the tables in front of
them, so that the library can be linked like an object file. What is loaded of a library is about
the same object as what was saved (`DcpuToolchain.binsSave_library`).
-/

namespace DcpuToolchain

open Codec Linking Marks Stdio

/-! ### Saving -/

/-- `bstr2cstr` with `'0'`, on the labels of the linker. -/
def labelBytes (label : Bstring) : CString :=
  label.map fun c => if c = '\x00' then 0x30 else UInt8.ofNat c.toNat

/-- `list_revert`. -/
def listRevert (list : List LconvEntry) : List LprovEntry :=
  list.map fun e => ⟨some (labelBytes e.label), UInt16.ofNat e.address⟩

/-- `bins_save`, without a jumplist and debugging symbols. -/
def binsSave (m : Imodes) (o : Endian) (isStatic keepOutputs : Bool) (b : LdBin) :
    Option (List UInt8) :=
  let header :=
    if isStatic then
      (objfileSave o fun t =>
        if t = .output ∧ keepOutputs = false then [] else listRevert (b.tables t)).map
          (ldataObjfmt ++ ·)
    else some []
  header.map fun header => (iwrites m b.words ⟨header, header.length, false⟩).content

/-- `main` of the linker on files, for an application without a kernel or a static library, with
the options by which neither the code is optimized nor literals are shortened: what is saved,
unless the linker halts. -/
def dtld (ls : ListSort) (m : Imodes) (o : Endian) (isStatic keepOutputs : Bool)
    (inputs : List (Bstring × List UInt8)) : Option (List UInt8) :=
  (inputs.mapM fun input => binsLoadFile m o input.1 input.2).bind fun files =>
    (linkFlat ls files).toOption.bind fun s =>
      (binsResolve isStatic isStatic isStatic s).toOption.bind fun s =>
        (binSeek s.heap s.bins outputName).bind fun p =>
          binsSave m o isStatic keepOutputs (s.heap p)

/-! ### Labels -/

/-- A label that is a string of C and fits into an object file. -/
def IsLabel (label : Bstring) : Prop :=
  ∃ s : CString, (0 : UInt8) ∉ s ∧ s.length ≤ 255 ∧ label = labelChars s

/-- The labels of an object. -/
def HasLabels (c : LdObject) : Prop :=
  (∀ x ∈ c.exports, IsLabel x.1) ∧ ∀ o name, .imported o name ∈ c.items → IsLabel name

section Labels

variable {label : Bstring} {s : CString}

theorem labelBytes_labelChars (h : (0 : UInt8) ∉ s) : labelBytes (labelChars s) = s := by
  rw [labelBytes, labelChars, List.map_map]
  refine (List.map_congr_left fun c hc => ?_).trans s.map_id
  have hvalid : c.toNat.isValidChar := .inl (c.toNat_lt.trans (by decide))
  have htoNat : (Char.ofNat c.toNat).toNat = c.toNat := by
    rw [Char.ofNat, dif_pos hvalid]
    rfl
  have hne : Char.ofNat c.toNat ≠ '\x00' := by
    intro hzero
    rw [hzero] at htoNat
    refine h ?_
    rwa [show c = 0 from UInt8.toNat_inj.mp htoNat.symm] at hc
  rw [Function.comp_apply, if_neg hne, htoNat, UInt8.ofNat_toNat]
  rfl

theorem IsLabel.bytes (h : IsLabel label) :
    ((0 : UInt8) ∉ labelBytes label ∧ (labelBytes label).length ≤ 255) ∧
      labelChars (labelBytes label) = label := by
  obtain ⟨s, hs, hlength, rfl⟩ := h
  rw [labelBytes_labelChars hs]
  exact ⟨⟨hs, hlength⟩, rfl⟩

theorem hasLabels_concat {cs : List LdObject} (h : ∀ c ∈ cs, HasLabels c) :
    HasLabels (Object.concat cs) := by
  refine ⟨fun x hx => ?_, fun o name hname => ?_⟩
  · obtain ⟨k, c, q, hc, hq, -⟩ := Object.mem_exports_concat.mp hx
    exact (h c (List.mem_of_getElem? hc)).1 (x.1, q) hq
  · obtain ⟨c, hc, hname⟩ := Object.mem_imported_concat.mp hname
    exact (h c hc).2 o name hname

end Labels

/-! ### Loading what was saved -/

section Saved

variable {o : Endian} {m : Imodes} {tables tables' : Table → List LprovEntry}

/-- The labels of adjustments are not saved. -/
def withoutLabels (tables : Table → List LprovEntry) (t : Table) : List LprovEntry :=
  if t = .adjustment then (tables t).map fun e => ⟨none, e.address⟩ else tables t

theorem saveTable_adjustment (l : List LprovEntry) :
    saveTable o .adjustment (l.map fun e => ⟨none, e.address⟩) = saveTable o .adjustment l := by
  induction l with
  | nil => rfl
  | cons e l ih =>
    rw [List.map_cons, saveTable, saveTable, ih]
    rfl

theorem objfileSave_withoutLabels (o : Endian) (tables : Table → List LprovEntry) :
    objfileSave o (withoutLabels tables) = objfileSave o tables := by
  have hsame : ∀ ts, saveTables o (withoutLabels tables) ts = saveTables o tables ts := by
    intro ts
    induction ts with
    | nil => rfl
    | cons t ts ih =>
      have htable : saveTable o t (withoutLabels tables t) = saveTable o t (tables t) := by
        rw [withoutLabels]
        split
        · rename_i ht
          rw [ht, saveTable_adjustment]
        · rfl
      rw [saveTables, saveTables, ih, htable]
  rw [objfileSave, objfileSave, hsame]

variable {b : LdBin} {c : LdObject} {bytes : List UInt8} {keepOutputs : Bool}

/-- Another bin about an object: with the same words, entries and adjusted places. -/
theorem LdBin.Carries.congr {b' : LdBin} (h : b.Carries c) (hwords : b'.words = b.words)
    (htables : ∀ t, t ≠ .adjustment → b'.tables t = b.tables t)
    (hadjusted : b'.adjustedPositions = b.adjustedPositions) : b'.Carries c := by
  have himports : ∀ o, b'.tables (importTable o) = b.tables (importTable o) := by
    intro o
    cases o with
    | false => exact htables _ Table.noConfusion
    | true => exact htables _ Table.noConfusion
  refine ⟨by rw [hwords, h.length], ?_, fun o => ?_, fun o => ?_, ?_, ?_, ?_, ?_, ?_, ?_,
    fun t hp hr ho ha => ?_⟩
  · rw [htables _ Table.noConfusion]
    exact h.provided
  · rw [himports o]
    exact h.imports o
  · rw [himports o]
    exact h.imports_nodup o
  · rw [hadjusted, hwords]
    exact h.adjusted
  · rw [hadjusted]
    exact h.adjusted_nodup
  · rw [hwords]
    exact h.fixed
  · rw [hadjusted]
    exact h.address
  · rw [hadjusted, htables _ Table.noConfusion]
    exact h.required
  · rw [htables _ Table.noConfusion]
    exact h.optional
  · rw [htables t ha]
    exact h.others t hp hr ho ha

/-- The labels of the entries of a bin. -/
theorem LdBin.Carries.isLabel (h : b.Carries c) (hlabels : HasLabels c) {t : Table}
    (ht : t ≠ .adjustment) {e : LconvEntry} (he : e ∈ b.tables t) :
    e.bin = none ∧ IsLabel e.label := by
  have himport : ∀ o, e ∈ b.tables (importTable o) → e.bin = none ∧ IsLabel e.label := by
    intro o he
    obtain ⟨hbin, hitem⟩ := h.imports o e he
    exact ⟨hbin, hlabels.2 o _ (List.mem_of_getElem? hitem)⟩
  cases t with
  | provided =>
    obtain ⟨x, hx, rfl⟩ := (h.provided e).mp he
    exact ⟨rfl, hlabels.1 x hx⟩
  | required => exact himport false he
  | optional => exact himport true he
  | adjustment => exact absurd rfl ht
  | _ =>
    rw [h.others _ Table.noConfusion Table.noConfusion Table.noConfusion Table.noConfusion] at he
    cases he

/-- **A library can be saved**, and when it is loaded it is about the object that was saved. -/
theorem binsSave_library (m : Imodes) (o : Endian) (keepOutputs : Bool) (h : b.Carries c)
    (hlabels : HasLabels c) (hsize : c.items.length < 0x10000) :
    ∃ bytes, binsSave m o true keepOutputs b = some bytes ∧ ∀ path, ∃ b',
      binsLoadFile m o path bytes = some b' ∧ b'.name = path ∧ b'.Carries c := by
  have houtputs : (fun t => if t = .output ∧ keepOutputs = false then []
      else listRevert (b.tables t)) = fun t => listRevert (b.tables t) := by
    funext t
    split
    · rename_i ht
      rw [ht.1, h.bare.2]
      rfl
    · rfl
  set tables := withoutLabels fun t => listRevert (b.tables t) with htables
  have hadjustment : tables .adjustment =
      (b.tables .adjustment).map fun e => ⟨none, UInt16.ofNat e.address⟩ := by
    rw [htables, withoutLabels, if_pos rfl, listRevert, List.map_map]
    rfl
  have hother : ∀ t, t ≠ .adjustment → tables t = listRevert (b.tables t) := by
    intro t ht
    rw [htables, withoutLabels, if_neg ht]
  have hnone : ∀ e ∈ tables .adjustment, e.label = none := by
    intro e he
    rw [hadjustment] at he
    obtain ⟨e', -, rfl⟩ := List.mem_map.mp he
    rfl
  have hsavable : ∀ t, ∀ e ∈ tables t, Savable t e.label := by
    intro t e he
    by_cases ht : t = .adjustment
    · subst ht
      have hlabel := hnone e he
      refine ⟨fun _ => .inl rfl, fun label heq => ?_, fun label heq => ?_⟩ <;>
        rw [hlabel] at heq <;> cases heq
    · rw [hother t ht] at he
      obtain ⟨e', he', rfl⟩ := List.mem_map.mp he
      obtain ⟨hzero, hlength⟩ := (h.isLabel hlabels ht he').2.bytes.1
      refine ⟨fun hmissing => ?_, fun label heq => ?_, fun label heq => ?_⟩
      · cases hmissing
      · cases heq
        exact hzero
      · cases heq
        exact hlength
  have hsections : tables .section = [] := by
    rw [hother _ Table.noConfusion, h.bare.1]
    rfl
  have htoNat : ∀ {e : LconvEntry} {t : Table}, e ∈ b.tables t →
      (UInt16.ofNat e.address).toNat = e.address := by
    intro e t he
    have hlt := h.marks_lt he
    rw [h.length] at hlt
    rw [UInt16.toNat_ofNat', Nat.mod_eq_of_lt (by omega)]
  obtain ⟨saved, hsaved⟩ : ∃ saved, objfileSave o tables = some saved :=
    ⟨_, objfileSave_eq o hsavable⟩
  have hsave : binsSave m o true keepOutputs b =
      some (ldataObjfmt ++ saved ++ b.words.flatMap m.bytes) := by
    have hwithout := hsaved
    rw [htables, objfileSave_withoutLabels] at hwithout
    rw [binsSave, if_pos rfl, houtputs, hwithout, Option.map_some, Option.map_some, iwrites_eq]
    exact congrArg some (File.content_fwrite_atEnd rfl _)
  refine ⟨_, hsave, fun path => ?_⟩
  have hload := @binsLoadFile_saved tables o m saved hsaved hsavable hsections path b.words
  refine ⟨_, hload, rfl, h.congr rfl (fun t ht => ?_) ?_⟩
  · dsimp only
    rw [listConvert_readBack fun heq => absurd heq ht, hother t ht, listConvert, listRevert,
      List.map_map]
    refine (List.map_congr_left fun e he => ?_).trans (b.tables t).map_id
    obtain ⟨hbin, hlabel⟩ := h.isLabel hlabels ht he
    obtain ⟨label, bin, address⟩ := e
    dsimp only at hbin
    rw [Function.comp_apply, id, hbin]
    dsimp only
    rw [Option.map_some, Option.getD_some, hlabel.bytes.2, htoNat he]
  · rw [LdBin.adjustedPositions]
    dsimp only
    rw [listConvert_readBack fun _ => hnone, hadjustment, listConvert,
      List.map_map, List.map_map]
    exact List.map_congr_left fun e he => htoNat he

end Saved

/-! ### The linker on files -/

section Dtld

variable {ls : ListSort} {m : Imodes} {o : Endian} {isStatic keepOutputs : Bool}
  {inputs : List (Bstring × List UInt8)} {bins : List LdBin} {cs : List LdObject}
  {bytes : List UInt8}

theorem binsResolve_of_resolve {s : LdBins} {p : BinPtr} (hbins : s.bins = [p]) :
    binsResolve isStatic isStatic isStatic s =
      ((s.heap p).resolve isStatic isStatic isStatic).map fun b =>
        ⟨Function.update s.heap p b, [p], s.next⟩ := by
  rw [binsResolve, hbins]
  dsimp only
  cases (s.heap p).resolve isStatic isStatic isStatic <;> rfl

/-- **What the linker does**: it strings the files together, resolves and saves. -/
theorem dtld_eq (ls : ListSort) (isStatic keepOutputs : Bool)
    (hload : (inputs.mapM fun input => binsLoadFile m o input.1 input.2) = some bins)
    (hd : Linkable bins) (hp : PlainFiles bins) :
    ∃ b, Strung bins b ∧
      (∀ err, b.resolve isStatic isStatic isStatic = .error err →
        dtld ls m o isStatic keepOutputs inputs = none) ∧
      ∀ b', b.resolve isStatic isStatic isStatic = .ok b' → b'.name = b.name →
        dtld ls m o isStatic keepOutputs inputs = binsSave m o isStatic keepOutputs b' := by
  obtain ⟨s, p, hlink, hbins, hb⟩ := linkFlat_strung ls hd hp
  have hflat : (linkFlat ls bins).toOption = some s := by rw [hlink]; rfl
  refine ⟨s.heap p, hb, fun err herror => ?_, fun b' hresolve hname => ?_⟩
  · rw [dtld, hload, Option.bind_some, hflat, Option.bind_some, binsResolve_of_resolve hbins,
      herror]
    rfl
  · have hupdate : Function.update s.heap p b' p = b' := Function.update_self ..
    have hseek : binSeek (Function.update s.heap p b') [p] outputName = some p := by
      rw [binSeek, List.find?_cons_of_pos]
      rw [hupdate, hname, hb.name]
      exact decide_eq_true rfl
    have hsaved := congrArg (Option.bind · fun p' =>
      binsSave m o isStatic keepOutputs (Function.update s.heap p b' p')) hseek
    rw [Option.bind_some, hupdate] at hsaved
    rw [dtld, hload, Option.bind_some, hflat, Option.bind_some, binsResolve_of_resolve hbins,
      hresolve]
    exact hsaved

variable (hcarry : List.Forall₂ LdBin.Carries bins cs)
  (hload : (inputs.mapM fun input => binsLoadFile m o input.1 input.2) = some bins)
  (hnames : NamesFit (bins.map LdBin.name)) (hnodup : (Object.concat cs).names.Nodup)
  (hsize : (Object.concat cs).items.length < 0x10000)
include hcarry hload hnames hnodup hsize

/-- **An image has the values of the objects**, or a name is missing and there is none. -/
theorem dtld_image (ls : ListSort) (keepOutputs : Bool) :
    (Object.concat cs).Lacks ∧ dtld ls m o false keepOutputs inputs = none ∨
      ¬ (Object.concat cs).Lacks ∧ ∃ words : List Word,
        (Object.concat cs).values (BitVec.ofNat 16) = words.map some ∧
          dtld ls m o false keepOutputs inputs = some (words.flatMap m.bytes) := by
  have hplain := plainFiles_of_carries hcarry hsize
  have hd := linkable_of_carries hcarry hsize hnames
  obtain ⟨b, hb, herror, hok⟩ := dtld_eq ls false keepOutputs hload hd hplain
  have hlinked := carries_concat hcarry hsize hnodup hnames hb
  by_cases hl : (Object.concat cs).Lacks
  · obtain ⟨-, hhalts⟩ := (hlinked.mustHalt_iff hnodup).mpr hl
    exact .inl ⟨hl, herror _ (hlinked.resolvable.resolve_halt false false hhalts)⟩
  · obtain ⟨b', hresolve, hname, hvalues⟩ := hlinked.resolve_values hnodup hl
    refine .inr ⟨hl, b'.words, hvalues, ?_⟩
    rw [hok b' hresolve hname, binsSave, if_neg Bool.false_ne_true, Option.map_some, iwrites_eq]
    exact congrArg some (File.content_fwrite_atEnd rfl _)

/-- **A library is about the objects**, one behind the other, when it is loaded. -/
theorem dtld_library (ls : ListSort) (keepOutputs : Bool) (hsettled : ∀ c ∈ cs, c.Settled)
    (hlabels : HasLabels (Object.concat cs)) :
    ∃ bytes, dtld ls m o true keepOutputs inputs = some bytes ∧ ∀ path, ∃ b,
      binsLoadFile m o path bytes = some b ∧ b.name = path ∧ b.Carries (Object.concat cs) := by
  have hplain := plainFiles_of_carries hcarry hsize
  have hd := linkable_of_carries hcarry hsize hnames
  obtain ⟨b, hb, -, hok⟩ := dtld_eq ls true keepOutputs hload hd hplain
  have hlinked := carries_concat hcarry hsize hnodup hnames hb
  obtain ⟨b', hresolve, hname, hcarries⟩ :=
    hlinked.resolve hnodup (fresh_of_settled hcarry hsettled hplain hd hb)
  rw [hok b' hresolve hname]
  exact binsSave_library m o keepOutputs hcarries hlabels hsize

end Dtld

end DcpuToolchain
