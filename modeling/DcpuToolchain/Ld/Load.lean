import DcpuToolchain.Ld.Layout

/-!
# What the loaded files hold

Before anything is moved, every file bin holds the cells of its file, each at its own
address (`DcpuToolchain.Linkable.holds_file`).
-/

namespace DcpuToolchain

open Marks Moves

section

variable {files : List LdBin} {k : ℕ} {nm : BinPtr → Bstring}

/-- The first record with an address is the only one when no two share it. -/
theorem find?_toList_eq_filter {l : List LconvEntry} (h : (l.map LconvEntry.address).Nodup)
    (a : ℕ) : (l.find? (·.address = a)).toList = l.filter (·.address = a) := by
  induction l with
  | nil => rfl
  | cons e l ih =>
    rw [List.map_cons, List.nodup_cons] at h
    by_cases he : e.address = a
    · rw [List.find?_cons_of_pos (by simpa using he), List.filter_cons_of_pos (by simpa using he),
        List.filter_eq_nil_iff.mpr fun e' he' => ?_]
      · rfl
      · rw [decide_eq_true_iff]
        exact fun h' => h.1 (List.mem_map.mpr ⟨e', he', h'.trans he.symm⟩)
    · rw [List.find?_cons_of_neg (by simpa using he), List.filter_cons_of_neg (by simpa using he),
        ih h.2]

/-- Where the cells are at the beginning. -/
def locLoaded (c : Cell) : BinPtr × ℕ := c

theorem Linkable.adjustedBy_eq (hd : Linkable files) (hk : k < files.length) (i : ℕ) :
    adjustedBy files (k, i) = ((fileAt files k).tables .adjustment).filter (·.address = i) :=
  find?_toList_eq_filter (hd.adjustment_nodup _ (fileAt_mem hk)) i

/-- **A loaded file bin holds the cells of its file.** -/
theorem Linkable.holds_file (hd : Linkable files) (hk : k < files.length)
    (hnm : nm k = (fileAt files k).name) :
    Holds (sourceOf files) nm locLoaded (fileAt files k).associate (cellsOf files k) where
  words := by
    change (fileAt files k).words = _
    refine List.ext_getElem (by simp [cellsOf]) fun i h1 h2 => ?_
    have hw : (fileAt files k).words.getD i 0 = (fileAt files k).words.get ⟨i, h1⟩ := by
      rw [List.getD_eq_getElem?_getD, List.getElem?_eq_getElem h1, Option.getD_some]
      rfl
    simp only [cellsOf, List.getElem_map, List.getElem_range]
    by_cases hadj : (sourceOf files).adjusted (k, i) = []
    · rw [Source.wordAt_of_not_adjusted hadj]
      exact hw.symm
    · rw [Source.wordAt_of_adjusted hadj]
      change _ = BitVec.ofNat 16 ((fileAt files k).words.getD i 0).toNat
      rw [hw, BitVec.ofNat_toNat, BitVec.setWidth_eq]
      rfl
  adjustment := by
    change (((fileAt files k).tables .adjustment).map fun e =>
      (⟨e.label, some (fileAt files k).name, e.address⟩ : LconvEntry)).Perm _
    have hall := List.filter_eq_self.mpr fun e he =>
      decide_eq_true (hd.adjustment_lt _ (fileAt_mem hk) e he)
    have h := place_filter_perm ((fileAt files k).tables .adjustment) (fileAt files k).words.length
    have hplace : (place (fun i => ((fileAt files k).tables .adjustment).filter (address · = i)) 0
        (List.range (fileAt files k).words.length)).map
        (fun e => (⟨e.label, some (fileAt files k).name, e.address⟩ : LconvEntry)) =
        place ((sourceOf files).adjustmentAt nm locLoaded ∘ Prod.mk k) 0
          (List.range (fileAt files k).words.length) := map_place fun i c hc => ?_
    refine List.Perm.trans ?_ (List.Perm.of_eq (hplace.trans (place_map (Prod.mk k) _).symm))
    · refine List.Perm.map _ (List.Perm.symm ?_)
      refine h.trans (List.Perm.of_eq ?_)
      exact hall
    · rw [List.map_map, Function.comp_apply, Source.adjustmentAt]
      change _ = ((adjustedBy files (k, c)).map _).map _
      rw [hd.adjustedBy_eq hk, List.map_map]
      refine List.map_congr_left fun e _ => ?_
      change (⟨e.label, some (fileAt files k).name, 0 + i⟩ : LconvEntry) =
        ⟨e.label, some (nm k), 0 + i⟩
      rw [hnm]
  records t ht := by
    have htab : (fileAt files k).associate.tables t = (fileAt files k).tables t := by
      cases t <;> first | rfl | cases ht
    refine ⟨((fileAt files k).tables t).filter
      fun e => !decide (e.address < (fileAt files k).words.length), ?_, fun e he => ?_⟩
    · rw [htab, cellsOf, place_map]
      refine (List.filter_append_perm (·.address < (fileAt files k).words.length) _).symm.trans ?_
      exact (place_filter_perm ((fileAt files k).tables t) _).symm.append_right _
    · rw [List.mem_filter] at he
      exact ⟨fileAt files k, fileAt_mem hk, e, he.1, by simpa using he.2, rfl⟩

theorem placed_cellsOf (k : ℕ) : Placed locLoaded k 0 (cellsOf files k) := fun i c hc => by
  rw [cellsOf, List.getElem?_map] at hc
  obtain ⟨j, hj, rfl⟩ := Option.map_eq_some_iff.mp hc
  obtain ⟨hi, hij⟩ := List.getElem?_eq_some_iff.mp hj
  rw [List.getElem_range] at hij
  rw [locLoaded, Nat.zero_add, hij]

/-- A bin without words and entries holds no cells. -/
theorem holds_empty {κ : Type} {S : Source κ} {loc : κ → BinPtr × ℕ} (name : Bstring) :
    Holds S nm loc (binCreate name) [] where
  words := rfl
  adjustment := List.Perm.nil
  records _ _ := ⟨[], List.Perm.nil, by simp⟩

end

end DcpuToolchain
