import DcpuToolchain.Ld.Tables

/-!
# What is left of a table

The scan of `bin_info_remove` with its positions as they are in the source, in variables of type
`unsigned int` where -1 stands for a position that is not known yet. A table never has so many
entries that this is a position, so that the scan finds the same range as
`DcpuToolchain.removeScan`, whose positions are integers (`DcpuToolchain.removeScanUnsigned_eq`).
-/

namespace DcpuToolchain

open Marks

/-- A table as `list_t` holds it: `numels` is an `unsigned int`. -/
structure EntryList where
  entries : List LconvEntry
  numels_lt : entries.length < 2 ^ 32

/-- The scan of `bin_info_remove` that is not about adjustments: the entries with their new
addresses, `del_start`, `del_end` and `list->iter_pos`. -/
def removeScanUnsigned (offset count : ℕ) :
    BitVec 32 → BitVec 32 → BitVec 32 → List LconvEntry →
      List LconvEntry × BitVec 32 × BitVec 32 × BitVec 32
  | iterPos, delStart, delEnd, [] => ([], delStart, delEnd, iterPos)
  | iterPos, delStart, delEnd, e :: es =>
    -- `list_iterator_next` has moved the iterator past the entry
    let iterPos := iterPos + 1
    if e.address < offset then
      let r := removeScanUnsigned offset count iterPos delStart delEnd es
      (e :: r.1, r.2)
    else if e.address < offset + count then
      let delStart := if delStart = -1 then iterPos - 1 else delStart
      let r := removeScanUnsigned offset count iterPos delStart delEnd es
      (e :: r.1, r.2)
    else
      let delEnd := if delEnd = -1 then iterPos - 2 else delEnd
      let r := removeScanUnsigned offset count iterPos delStart delEnd es
      (⟨e.label, e.bin, e.address - count⟩ :: r.1, r.2)

/-- `bin_info_remove` for a table that is not of adjustments. -/
def binInfoRemoveUnsigned (ls : ListSort) (offset count : ℕ) (list : EntryList) : List LconvEntry :=
  let (entries, delStart, delEnd, iterPos) :=
    removeScanUnsigned offset count 0 (-1) (-1) (ls.up list.entries)
  let delEnd := if delEnd = -1 then iterPos - 1 else delEnd
  if delEnd ≠ -1 ∧ delStart ≠ -1 ∧ delStart ≤ delEnd then
    listDeleteRange entries delStart.toNat delEnd.toNat
  else entries

/-! ### Positions -/

theorem ofInt_sub (x y : ℤ) : BitVec.ofInt 32 (x - y) = BitVec.ofInt 32 x - BitVec.ofInt 32 y := by
  rw [Int.sub_eq_add_neg, BitVec.ofInt_add, BitVec.ofInt_neg, BitVec.sub_eq_add_neg]

theorem ofInt_one : BitVec.ofInt 32 1 = 1 := rfl

/-- A position, or -1, in an `unsigned int`. -/
structure IsPosition (z : ℤ) (w : BitVec 32) : Prop where
  ge : -1 ≤ z
  lt : z < 2 ^ 32 - 1
  eq : w = BitVec.ofInt 32 z

namespace IsPosition

variable {z z' : ℤ} {w w' : BitVec 32}

theorem toNat_eq (h : IsPosition z w) (hz : 0 ≤ z) : w.toNat = z.toNat := by
  have hlt := h.lt
  rw [h.eq, BitVec.toNat_ofInt, Int.emod_eq_of_lt hz (by omega)]

/-- Only an unknown position is -1. -/
theorem eq_neg_one_iff (h : IsPosition z w) : w = -1 ↔ z = -1 := by
  have hlt := h.lt
  constructor
  · intro hw
    by_contra hne
    have hge := h.ge
    have hnat := h.toNat_eq (by omega)
    rw [hw, show (-1 : BitVec 32).toNat = 2 ^ 32 - 1 from rfl] at hnat
    omega
  · rintro rfl
    exact h.eq

theorem le_iff (h : IsPosition z w) (h' : IsPosition z' w') (hz : z ≠ -1) (hz' : z' ≠ -1) :
    w ≤ w' ↔ z ≤ z' := by
  have hge := h.ge
  have hge' := h'.ge
  rw [BitVec.le_def, h.toNat_eq (by omega), h'.toNat_eq (by omega)]
  omega

end IsPosition

/-- **The scan with unsigned positions** does what the one with integers does. -/
theorem removeScanUnsigned_eq {offset count : ℕ} {iterPos delStart delEnd : ℤ}
    {iterPos' delStart' delEnd' : BitVec 32} (l : List LconvEntry)
    (hiter : iterPos' = BitVec.ofInt 32 iterPos) (hnonneg : 0 ≤ iterPos)
    (hroom : iterPos + l.length < 2 ^ 32) (hstart : IsPosition delStart delStart')
    (hend : IsPosition delEnd delEnd') :
    (removeScanUnsigned offset count iterPos' delStart' delEnd' l).1 =
        (removeScan false offset count iterPos delStart delEnd l).1 ∧
      IsPosition (removeScan false offset count iterPos delStart delEnd l).2.1
        (removeScanUnsigned offset count iterPos' delStart' delEnd' l).2.1 ∧
      IsPosition (removeScan false offset count iterPos delStart delEnd l).2.2.1
        (removeScanUnsigned offset count iterPos' delStart' delEnd' l).2.2.1 ∧
      (removeScan false offset count iterPos delStart delEnd l).2.2.2 = iterPos + l.length ∧
      (removeScanUnsigned offset count iterPos' delStart' delEnd' l).2.2.2 =
        BitVec.ofInt 32 (iterPos + l.length) := by
  induction l generalizing iterPos delStart delEnd iterPos' delStart' delEnd' with
  | nil => exact ⟨rfl, hstart, hend, by simp [removeScan], by simp [removeScanUnsigned, hiter]⟩
  | cons e l ih =>
    rw [List.length_cons, Nat.cast_add, Nat.cast_one] at hroom
    have hiter₁ : iterPos' + 1 = BitVec.ofInt 32 (iterPos + 1) := by
      rw [BitVec.ofInt_add, hiter]
      rfl
    have hlength : iterPos + (e :: l).length = iterPos + 1 + l.length := by
      rw [List.length_cons, Nat.cast_add, Nat.cast_one]
      omega
    rw [removeScanUnsigned, removeScan, hlength]
    by_cases hlow : e.address < offset
    · simp only [if_pos hlow]
      obtain ⟨hentries, hrest⟩ := ih hiter₁ (by omega) (by omega) hstart hend
      exact ⟨congrArg _ hentries, hrest⟩
    · by_cases hmid : e.address < offset + count
      · simp only [if_neg hlow, if_pos hmid]
        have hstart₁ : IsPosition (if delStart = -1 then iterPos + 1 - 1 else delStart)
            (if delStart' = -1 then iterPos' + 1 - 1 else delStart') := by
          by_cases hunknown : delStart = -1
          · rw [if_pos hunknown, if_pos (hstart.eq_neg_one_iff.mpr hunknown)]
            exact ⟨by omega, by omega, by rw [BitVec.add_sub_cancel, hiter, Int.add_sub_cancel]⟩
          · rw [if_neg hunknown, if_neg (hstart.eq_neg_one_iff.not.mpr hunknown)]
            exact hstart
        obtain ⟨hentries, hrest⟩ := ih hiter₁ (by omega) (by omega) hstart₁ hend
        exact ⟨congrArg _ hentries, hrest⟩
      · simp only [if_neg hlow, if_neg hmid]
        -- if this is the first entry of all, the end stays unknown, and so does the beginning
        have hend₁ : IsPosition (if delEnd = -1 then iterPos + 1 - 2 else delEnd)
            (if delEnd' = -1 then iterPos' + 1 - 2 else delEnd') := by
          by_cases hunknown : delEnd = -1
          · rw [if_pos hunknown, if_pos (hend.eq_neg_one_iff.mpr hunknown)]
            exact ⟨by omega, by omega, by rw [ofInt_sub, hiter₁]; rfl⟩
          · rw [if_neg hunknown, if_neg (hend.eq_neg_one_iff.not.mpr hunknown)]
            exact hend
        obtain ⟨hentries, hrest⟩ := ih hiter₁ (by omega) (by omega) hstart hend₁
        exact ⟨congrArg (List.cons ⟨e.label, e.bin, e.address - count⟩) hentries, hrest⟩

/-- The same range is deleted. -/
theorem binInfoRemoveUnsigned_eq (ls : ListSort) (offset count : ℕ) (list : EntryList) :
    binInfoRemoveUnsigned ls offset count list =
      binInfoRemove ls false offset count list.entries := by
  have hlength : (ls.up list.entries).length < 2 ^ 32 := by
    rw [(ls.up_perm _).length_eq]
    exact list.numels_lt
  have hunknown : IsPosition (-1) (-1) := ⟨by omega, by omega, rfl⟩
  obtain ⟨hentries, hstart, hend, hiter, hiter'⟩ :=
    removeScanUnsigned_eq (ls.up list.entries) (show (0 : BitVec 32) = BitVec.ofInt 32 0 from rfl)
      (by omega) (by omega) hunknown hunknown
  rw [binInfoRemoveUnsigned, binInfoRemove]
  generalize removeScanUnsigned offset count 0 (-1) (-1) (ls.up list.entries) = r' at *
  generalize removeScan false offset count 0 (-1) (-1) (ls.up list.entries) = r at *
  obtain ⟨entries, delStart, delEnd, iterPos⟩ := r
  obtain ⟨entries', delStart', delEnd', iterPos'⟩ := r'
  dsimp only at *
  rw [hentries]
  have hend₁ : IsPosition (if delEnd = -1 then iterPos - 1 else delEnd)
      (if delEnd' = -1 then iterPos' - 1 else delEnd') := by
    by_cases hnot : delEnd = -1
    · rw [if_pos hnot, if_pos (hend.eq_neg_one_iff.mpr hnot), hiter, hiter']
      exact ⟨by omega, by omega, by rw [ofInt_sub, ofInt_one]⟩
    · rw [if_neg hnot, if_neg (hend.eq_neg_one_iff.not.mpr hnot)]
      exact hend
  generalize (if delEnd = -1 then iterPos - 1 else delEnd) = stop at *
  generalize (if delEnd' = -1 then iterPos' - 1 else delEnd') = stop' at *
  have hcond : (stop' ≠ -1 ∧ delStart' ≠ -1 ∧ delStart' ≤ stop') ↔
      (stop ≠ -1 ∧ delStart ≠ -1 ∧ delStart ≤ stop) := by
    rw [ne_eq, ne_eq, hend₁.eq_neg_one_iff, hstart.eq_neg_one_iff]
    exact and_congr_right fun hstop => and_congr_right fun hknown =>
      hstart.le_iff hend₁ hknown hstop
  by_cases h : stop ≠ -1 ∧ delStart ≠ -1 ∧ delStart ≤ stop
  · have hge := hstart.ge
    have hge' := hend₁.ge
    rw [if_pos h, if_pos (hcond.mpr h), hstart.toNat_eq (by omega), hend₁.toNat_eq (by omega)]
  · rw [if_neg h, if_neg (hcond.not.mpr h)]

/-! ### What is left -/

/-- The entries that are kept, in two parts. -/
theorem filter_lowered_perm (offset count : ℕ) (l : List LconvEntry) :
    ((l.filter (kept offset count ·.address)).map (lowered false offset count)).Perm
      (l.filter (·.address < offset) ++
        (l.filter (offset + count ≤ ·.address)).map fun e =>
          ⟨e.label, e.bin, e.address - count⟩) := by
  induction l with
  | nil => exact .refl _
  | cons e l ih =>
    by_cases hlow : e.address < offset
    · rw [List.filter_cons_of_pos (by simp [kept]; omega),
        List.filter_cons_of_pos (by simpa using hlow), List.filter_cons_of_neg (by simp; omega),
        List.map_cons, lowered, if_neg (by omega)]
      exact ih.cons e
    · by_cases hmid : e.address < offset + count
      · rw [List.filter_cons_of_neg (by simp [kept]; omega),
          List.filter_cons_of_neg (by simpa using hlow),
            List.filter_cons_of_neg (by simpa using hmid)]
        exact ih
      · rw [List.filter_cons_of_pos (by simp [kept]; omega),
          List.filter_cons_of_neg (by simpa using hlow),
            List.filter_cons_of_pos (by simpa using hmid),
          List.map_cons, List.map_cons, lowered, if_pos ⟨by omega, by simp⟩]
        exact (ih.cons _).trans List.perm_middle.symm

/-- **Exactly the entries outside the removed range are left**: those before it as they were, and
those behind it with their addresses lowered. -/
theorem binInfoRemove_leaves (ls : ListSort) (offset count : ℕ) (list : EntryList) :
    (binInfoRemoveUnsigned ls offset count list).Perm
      (list.entries.filter (·.address < offset) ++
        (list.entries.filter (offset + count ≤ ·.address)).map fun e =>
          ⟨e.label, e.bin, e.address - count⟩) := by
  rw [binInfoRemoveUnsigned_eq, binInfoRemove_eq]
  exact (((ls.up_perm _).filter _).map _).trans (filter_lowered_perm offset count _)

end DcpuToolchain
