import DcpuToolchain.Ld.Bin

/-!
# What moving words does to a table

The scan of `DcpuToolchain.binInfoRemove` marks the two ends of a range while it walks
over the sorted table and deletes the range afterwards. Because the table is sorted the
entries of the removed words are next to each other, so what it computes is a selection
followed by a shift (`DcpuToolchain.binInfoRemove_eq`).

For a table whose entries mark cells, an insertion and a removal are then the same
operation on the sequence of cells (`DcpuToolchain.insertEntries_place`,
`DcpuToolchain.binInfoRemove_place`). Entries that mark no word, those at the end of a
bin, are carried along: nothing is said about their number or their addresses.
-/

namespace DcpuToolchain

open Marks

/-! ### The scan -/

section Scan

variable {isAdjustment : Bool} {offset count : ℕ} {iterPos delStart delEnd : ℤ}
  {l l' : List LconvEntry}

/-- What the scan does to an entry it keeps. -/
def lowered (isAdjustment : Bool) (offset count : ℕ) (e : LconvEntry) : LconvEntry :=
  if offset + count ≤ e.address ∧ ¬isAdjustment then ⟨e.label, e.bin, e.address - count⟩ else e

theorem removeScan_cons_low {e : LconvEntry} (h : e.address < offset) :
    removeScan isAdjustment offset count iterPos delStart delEnd (e :: l) =
      (e :: (removeScan isAdjustment offset count (iterPos + 1) delStart delEnd l).1,
        (removeScan isAdjustment offset count (iterPos + 1) delStart delEnd l).2) := by
  rw [removeScan, if_pos h]

theorem removeScan_cons_mid {e : LconvEntry} (h : offset ≤ e.address ∧ e.address < offset + count)
    {s : ℤ} (hs : s = if delStart = -1 then iterPos else delStart) :
    removeScan isAdjustment offset count iterPos delStart delEnd (e :: l) =
      (e :: (removeScan isAdjustment offset count (iterPos + 1) s delEnd l).1,
        (removeScan isAdjustment offset count (iterPos + 1) s delEnd l).2) := by
  rw [removeScan, if_neg (Nat.not_lt.mpr h.1), if_pos h.2, hs, add_sub_cancel_right]

theorem removeScan_cons_high {e : LconvEntry} (h : offset + count ≤ e.address) {d : ℤ}
    (hd : d = if delEnd = -1 then iterPos - 1 else delEnd) :
    removeScan isAdjustment offset count iterPos delStart delEnd (e :: l) =
      (lowered isAdjustment offset count e ::
          (removeScan isAdjustment offset count (iterPos + 1) delStart d l).1,
        (removeScan isAdjustment offset count (iterPos + 1) delStart d l).2) := by
  rw [removeScan, if_neg (by omega), if_neg (by omega), hd,
    show iterPos + 1 - 2 = iterPos - 1 by omega]
  cases isAdjustment <;> simp [lowered, h]

/-- Over entries before the removed range the scan only moves on. -/
theorem removeScan_low (h : ∀ e ∈ l, e.address < offset) :
    removeScan isAdjustment offset count iterPos delStart delEnd (l ++ l') =
      (l ++ (removeScan isAdjustment offset count (iterPos + l.length) delStart delEnd l').1,
        (removeScan isAdjustment offset count (iterPos + l.length) delStart delEnd l').2) := by
  induction l generalizing iterPos with
  | nil => simp
  | cons e l ih =>
    rw [List.forall_mem_cons] at h
    rw [List.cons_append, removeScan_cons_low h.1, ih h.2, List.length_cons,
      show iterPos + 1 + (l.length : ℤ) = iterPos + (l.length + 1 : ℕ) by omega]
    rfl

/-- Over the removed range, its beginning once found, the scan only moves on. -/
theorem removeScan_mid (h : ∀ e ∈ l, offset ≤ e.address ∧ e.address < offset + count)
    (hs : delStart ≠ -1) :
    removeScan isAdjustment offset count iterPos delStart delEnd (l ++ l') =
      (l ++ (removeScan isAdjustment offset count (iterPos + l.length) delStart delEnd l').1,
        (removeScan isAdjustment offset count (iterPos + l.length) delStart delEnd l').2) := by
  induction l generalizing iterPos with
  | nil => simp
  | cons e l ih =>
    rw [List.forall_mem_cons] at h
    rw [List.cons_append, removeScan_cons_mid h.1 (if_neg hs).symm, ih h.2, List.length_cons,
      show iterPos + 1 + (l.length : ℤ) = iterPos + (l.length + 1 : ℕ) by omega]
    rfl

/-- Behind the removed range, its end once found, the scan only lowers. -/
theorem removeScan_high (h : ∀ e ∈ l, offset + count ≤ e.address) (hd : delEnd ≠ -1) :
    removeScan isAdjustment offset count iterPos delStart delEnd l =
      (l.map (lowered isAdjustment offset count), delStart, delEnd, iterPos + l.length) := by
  induction l generalizing iterPos with
  | nil => simp [removeScan]
  | cons e l ih =>
    rw [List.forall_mem_cons] at h
    rw [removeScan_cons_high h.1 (if_neg hd).symm, ih h.2, List.length_cons,
      show iterPos + 1 + (l.length : ℤ) = iterPos + (l.length + 1 : ℕ) by omega]
    rfl

variable (isAdjustment iterPos delStart delEnd) in
/-- Behind the removed range the scan lowers and never touches the beginning. -/
theorem removeScan_high_fst (h : ∀ e ∈ l, offset + count ≤ e.address) :
    (removeScan isAdjustment offset count iterPos delStart delEnd l).1 =
        l.map (lowered isAdjustment offset count) ∧
      (removeScan isAdjustment offset count iterPos delStart delEnd l).2.1 = delStart := by
  induction l generalizing iterPos delEnd with
  | nil => simp [removeScan]
  | cons e l ih =>
    rw [List.forall_mem_cons] at h
    rw [removeScan_cons_high h.1 rfl]
    refine ⟨?_, (ih _ _ h.2).2⟩
    rw [(ih _ _ h.2).1, List.map_cons]

end Scan

/-- A sorted table falls into the entries before an address range, in it and behind it. -/
theorem filter_append_of_sorted {l : List LconvEntry} (hl : l.Pairwise (·.address ≤ ·.address))
    {x y : ℕ} (hxy : x ≤ y) :
    l = l.filter (·.address < x) ++ (l.filter (fun e => x ≤ e.address ∧ e.address < y) ++
      l.filter (y ≤ ·.address)) := by
  induction l with
  | nil => rfl
  | cons e l ih =>
    rw [List.pairwise_cons] at hl
    have hl' := ih hl.2
    by_cases h1 : e.address < x
    · rw [List.filter_cons_of_pos (by simpa using h1), List.filter_cons_of_neg (by simp; omega),
        List.filter_cons_of_neg (by simp; omega), List.cons_append, ← hl']
    · have hlow : l.filter (·.address < x) = [] :=
        List.filter_eq_nil_iff.mpr fun e' he' => by have := hl.1 e' he'; simp; omega
      rw [hlow, List.nil_append] at hl'
      rw [List.filter_cons_of_neg (by simpa using h1), hlow, List.nil_append]
      by_cases h2 : e.address < y
      · rw [List.filter_cons_of_pos (by simp; omega), List.filter_cons_of_neg (by simp; omega),
          List.cons_append, ← hl']
      · have hmid : l.filter (fun e => x ≤ e.address ∧ e.address < y) = [] :=
          List.filter_eq_nil_iff.mpr fun e' he' => by have := hl.1 e' he'; simp; omega
        rw [hmid, List.nil_append] at hl'
        rw [List.filter_cons_of_neg (by simp; omega), List.filter_cons_of_pos (by simp; omega),
          hmid, List.nil_append, ← hl']

/-- Whether an entry survives a removal. -/
def kept (offset count address : ℕ) : Bool := ¬(offset ≤ address ∧ address < offset + count)

/-- **The scan deletes the entries of the removed words and lowers those behind them.** -/
theorem binInfoRemove_eq (ls : ListSort) (isAdjustment : Bool) (offset count : ℕ)
    (list : List LconvEntry) :
    binInfoRemove ls isAdjustment offset count list =
      ((ls.up list).filter (kept offset count ·.address)).map
        (lowered isAdjustment offset count) := by
  have hsplit := filter_append_of_sorted (ls.up_sorted list) (Nat.le_add_right offset count)
  set L := (ls.up list).filter (·.address < offset) with hL
  set M := (ls.up list).filter fun e => offset ≤ e.address ∧ e.address < offset + count with hM
  set R := (ls.up list).filter (offset + count ≤ ·.address) with hR
  have hl : ∀ e ∈ L, e.address < offset := fun e he => by simpa using (List.mem_filter.mp he).2
  have hm : ∀ e ∈ M, offset ≤ e.address ∧ e.address < offset + count := fun e he => by
    simpa using (List.mem_filter.mp he).2
  have hr : ∀ e ∈ R, offset + count ≤ e.address := fun e he => by
    simpa using (List.mem_filter.mp he).2
  have hres : ((ls.up list).filter (kept offset count ·.address)).map
      (lowered isAdjustment offset count) = L ++ R.map (lowered isAdjustment offset count) := by
    have hlL : L.map (lowered isAdjustment offset count) = L := by
      conv_rhs => rw [← List.map_id L]
      refine List.map_congr_left fun e he => ?_
      have := hl e he
      rw [lowered, if_neg (by omega), id]
    rw [hsplit, List.filter_append, List.filter_append,
      List.filter_eq_self.mpr fun e he => by have := hl e he; simp [kept]; omega,
      List.filter_eq_nil_iff.mpr fun e he => by have := hm e he; simp [kept]; omega,
      List.filter_eq_self.mpr fun e he => by have := hr e he; simp [kept]; omega,
      List.nil_append, List.map_append, hlL]
  rw [hres, binInfoRemove, hsplit, removeScan_low hl]
  clear_value L M R
  cases M with
  | nil =>
    -- nothing to delete: the beginning is never found
    obtain ⟨h1, h2⟩ := removeScan_high_fst isAdjustment (0 + L.length) (-1) (-1) hr
    simp only [List.nil_append, h1, h2]
    rw [if_neg (by simp)]
  | cons m M =>
    rw [List.forall_mem_cons] at hm
    rw [List.cons_append, removeScan_cons_mid hm.1 (if_pos rfl).symm,
      removeScan_mid hm.2 (by omega)]
    cases R with
    | nil =>
      simp only [removeScan, List.append_nil, List.map_nil]
      simp only [if_true]
      rw [if_pos (by omega), listDeleteRange, List.drop_of_length_le]
      · rw [show (0 + (L.length : ℤ)).toNat = L.length by omega, List.take_left, List.append_nil]
      · rw [List.length_append, List.length_cons]
        omega
    | cons r R =>
      rw [List.forall_mem_cons] at hr
      rw [removeScan_cons_high hr.1 (if_pos rfl).symm, removeScan_high hr.2 (by omega)]
      simp only
      rw [if_neg (show ¬0 + (L.length : ℤ) + 1 + M.length - 1 = -1 by omega), if_pos (by omega),
        listDeleteRange,
        show (0 + (L.length : ℤ)).toNat = L.length by omega, List.take_left,
        show (0 + (L.length : ℤ) + 1 + M.length - 1).toNat + 1 = (L ++ m :: M).length by
          rw [List.length_append, List.length_cons]; omega,
        show ∀ X : List LconvEntry, L ++ m :: (M ++ X) = (L ++ m :: M) ++ X by simp,
        List.drop_left, List.map_cons]

/-! ### Tables that record the marks of cells -/

section Records

variable {E κ : Type} [Addressed E] {m : κ → List E} {stray : E → Prop} {A B C X Y : List κ}

/-- A table records the marks of the cells of a bin, each once; whatever else it holds is
a stray, an entry that marks no word. -/
def Records (m : κ → List E) (stray : E → Prop) (cs : List κ) (l : List E) : Prop :=
  ∃ junk, l.Perm (place m 0 cs ++ junk) ∧ ∀ e ∈ junk, stray e

/-- A table without strays. -/
theorem records_false_iff {cs : List κ} {l : List E} :
    Records m (fun _ => False) cs l ↔ l.Perm (place m 0 cs) := by
  constructor
  · rintro ⟨junk, hl, hjunk⟩
    rwa [List.eq_nil_iff_forall_not_mem.mpr hjunk, List.append_nil] at hl
  · exact fun h => ⟨[], by rwa [List.append_nil], by simp⟩

theorem Records.perm {cs : List κ} {l l' : List E} (h : Records m stray cs l) (hl : l'.Perm l) :
    Records m stray cs l' := by
  obtain ⟨junk, hp, hjunk⟩ := h
  exact ⟨junk, hl.trans hp, hjunk⟩

/-- Being a stray does not depend on the address. -/
def AddressFree (stray : E → Prop) : Prop := ∀ e a, stray e → stray (withAddress e a)

theorem AddressFree.shiftUp (h : AddressFree stray) {atPos count : ℕ} {e : E} (he : stray e) :
    stray (shiftUp atPos count e) := by
  rw [DcpuToolchain.shiftUp]
  split
  · exact h _ _ he
  · exact he

theorem map_shiftUp_low {n atPos count : ℕ} (h : n + X.length ≤ atPos) :
    (place m n X).map (shiftUp atPos count) = place m n X := by
  refine (List.map_congr_left fun e he => ?_).trans (List.map_id _)
  have := (address_of_mem_place he).2
  rw [shiftUp, if_neg (by omega), id]

theorem map_shiftUp_high {n atPos count : ℕ} (h : atPos ≤ n)
    (hb : n + Y.length + count ≤ 0x10000) :
    (place m n Y).map (shiftUp atPos count) = place m (n + count) Y := by
  refine map_place fun i c hc => ?_
  have hi := (List.getElem?_eq_some_iff.mp hc).1
  rw [List.map_map]
  refine List.map_congr_left fun e _ => ?_
  simp only [Function.comp_apply, shiftUp, Addressed.address_withAddress,
    Addressed.withAddress_withAddress]
  rw [if_pos (by omega), u16_of_lt (by omega), Nat.add_right_comm]

theorem map_copyEntry {atPos offset : ℕ} (hb : atPos + B.length ≤ 0x10000) :
    (place m offset B).map (copyEntry atPos offset) = place m atPos B := by
  refine map_place fun i c hc => ?_
  have hi := (List.getElem?_eq_some_iff.mp hc).1
  rw [List.map_map]
  refine List.map_congr_left fun e _ => ?_
  simp only [Function.comp_apply, copyEntry, Addressed.address_withAddress,
    Addressed.withAddress_withAddress]
  rw [Nat.add_sub_cancel_left, u16_of_lt (by omega)]

/-- Of the marks of a bin an insertion copies those of the inserted cells. -/
theorem filter_copied :
    (place m 0 (A ++ B ++ C)).filter
        (copied (A ++ B ++ C).length A.length B.length <| address ·) =
      place m A.length B := by
  rw [List.append_assoc, place_append, place_append, List.filter_append, List.filter_append,
    filter_place_of_forall_not, filter_place_of_forall, filter_place_of_forall_not,
    List.nil_append, List.append_nil, Nat.zero_add]
  all_goals
    intro i h1 h2
    simp [copied] at *
    omega

omit [Addressed E] in
theorem perm_insert (x y j b k : List E) :
    (x ++ y ++ j ++ (b ++ k)).Perm (x ++ b ++ y ++ (j ++ k)) := by
  have h : (y ++ j ++ b).Perm (b ++ (y ++ j)) := List.perm_append_comm
  simpa using (h.append_right k).append_left x

/-- **An insertion takes the marks along**: the target records the marks of its cells with
the inserted ones among them. -/
theorem Records.insert {tolist fromlist : List E} (hto : Records m stray (X ++ Y) tolist)
    (hfrom : Records m stray (A ++ B ++ C) fromlist) (hstray : AddressFree stray)
    (hb : (X ++ B ++ Y).length ≤ 0x10000) :
    Records m stray (X ++ B ++ Y)
      (insertEntries false false (A ++ B ++ C).length X.length A.length B.length tolist
        fromlist) := by
  obtain ⟨j, hj, hstrayj⟩ := hto
  obtain ⟨j', hj', hstrayj'⟩ := hfrom
  rw [List.length_append, List.length_append] at hb
  refine ⟨j.map (shiftUp X.length B.length) ++
    (j'.filter (copied (A ++ B ++ C).length A.length B.length <| address ·)).map
      (copyEntry X.length A.length), ?_, ?_⟩
  · have hshift : (tolist.map (shiftUp X.length B.length)).Perm
        (place m 0 X ++ place m (X.length + B.length) Y ++
          j.map (shiftUp X.length B.length)) := by
      refine (hj.map _).trans ?_
      rw [place_append, List.map_append, List.map_append, map_shiftUp_low (by omega),
        map_shiftUp_high (by omega) (by omega), Nat.zero_add]
    have hcopy : ((fromlist.filter (copied (A ++ B ++ C).length A.length B.length <| address ·)).map
        (copyEntry X.length A.length)).Perm
        (place m X.length B ++
          (j'.filter (copied (A ++ B ++ C).length A.length B.length <| address ·)).map
            (copyEntry X.length A.length)) := by
      refine ((hj'.filter _).map _).trans ?_
      rw [List.filter_append, List.map_append, filter_copied, map_copyEntry (by omega)]
    rw [insertEntries, if_neg (by simp), if_neg (by simp)]
    refine (hshift.append hcopy).trans ?_
    rw [place_append, place_append, Nat.zero_add, Nat.zero_add,
      show (X ++ B).length = X.length + B.length from List.length_append]
    exact perm_insert _ _ _ _ _
  · intro e he
    rcases List.mem_append.mp he with he | he
    · obtain ⟨e₀, he₀, rfl⟩ := List.mem_map.mp he
      exact hstray.shiftUp (hstrayj e₀ he₀)
    · obtain ⟨e₀, he₀, rfl⟩ := List.mem_map.mp he
      exact hstray _ _ (hstrayj' e₀ (List.mem_filter.mp he₀).1)

end Records

/-! ### Removal -/

section Remove

variable {κ : Type} {m : κ → List LconvEntry} {stray : LconvEntry → Prop} {A B C : List κ}

theorem map_lowered_low {a : Bool} {offset count n : ℕ} (h : n + A.length ≤ offset) :
    (place m n A).map (lowered a offset count) = place m n A := by
  refine (List.map_congr_left fun e he => ?_).trans (List.map_id _)
  have h2 : e.address < n + A.length := (address_of_mem_place he).2
  rw [lowered, if_neg (by omega), id]

theorem map_lowered_high {offset count n : ℕ} (h : offset + count ≤ n) :
    (place m n C).map (lowered false offset count) = place m (n - count) C := by
  refine map_place fun i c _ => ?_
  rw [List.map_map]
  refine List.map_congr_left fun e _ => ?_
  have hc : offset + count ≤ n + i ∧ ¬(false = true) := ⟨by omega, by simp⟩
  change (if offset + count ≤ n + i ∧ ¬(false = true) then _ else _) = _
  rw [if_pos hc]
  change (⟨e.label, e.bin, n + i - count⟩ : LconvEntry) = ⟨e.label, e.bin, n - count + i⟩
  rw [show n + i - count = n - count + i by omega]

theorem lowered_true (offset count : ℕ) : lowered true offset count = id := by
  funext e
  simp [lowered]

/-- Of the marks of a bin a removal keeps those of the cells that stay. -/
theorem filter_kept :
    (place m 0 (A ++ B ++ C)).filter (kept A.length B.length ·.address) =
      place m 0 A ++ place m (A.length + B.length) C := by
  have hmid : (place m A.length B).filter (kept A.length B.length ·.address) = [] :=
    filter_place_of_forall_not fun i h1 h2 => by simp [kept]; omega
  have hlow : (place m 0 A).filter (kept A.length B.length ·.address) = place m 0 A :=
    filter_place_of_forall fun i h1 h2 => by simp [kept]; omega
  have hhigh : (place m (A.length + B.length) C).filter (kept A.length B.length ·.address) =
      place m (A.length + B.length) C :=
    filter_place_of_forall fun i h1 h2 => by simp [kept]; omega
  rw [place_append, place_append, Nat.zero_add, List.length_append, Nat.zero_add,
    List.filter_append, List.filter_append]
  exact congrArg₂ (· ++ ·) ((congrArg₂ (· ++ ·) hlow hmid).trans (List.append_nil _)) hhigh

/-- **A removal takes the marks of the removed cells away** and lowers the others. -/
theorem Records.remove (ls : ListSort) {list : List LconvEntry}
    (h : Records m stray (A ++ B ++ C) list) (hstray : AddressFree stray) :
    Records m stray (A ++ C) (binInfoRemove ls false A.length B.length list) := by
  obtain ⟨j, hj, hstrayj⟩ := h
  refine ⟨(j.filter (kept A.length B.length ·.address)).map (lowered false A.length B.length),
    ?_, ?_⟩
  · rw [binInfoRemove_eq]
    refine ((((ls.up_perm list).trans hj).filter _).map _).trans ?_
    rw [List.filter_append, filter_kept, List.map_append, List.map_append,
      map_lowered_low (by omega), map_lowered_high (by omega), place_append, Nat.zero_add,
      Nat.add_sub_cancel]
  · intro e he
    obtain ⟨e₀, he₀, rfl⟩ := List.mem_map.mp he
    have hs := hstrayj e₀ (List.mem_filter.mp he₀).1
    rw [lowered]
    split
    · exact hstray e₀ _ hs
    · exact hs

/-- The adjustments of the cells behind the removed ones keep their addresses for now. -/
theorem binInfoRemove_adjustment (ls : ListSort) {list : List LconvEntry}
    (h : list.Perm (place m 0 (A ++ B ++ C))) :
    (binInfoRemove ls true A.length B.length list).Perm
      (place m 0 A ++ place m (A.length + B.length) C) := by
  rw [binInfoRemove_eq, lowered_true, List.map_id, ← filter_kept]
  exact ((ls.up_perm list).trans h).filter _

end Remove

end DcpuToolchain
