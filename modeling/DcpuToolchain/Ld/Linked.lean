import DcpuToolchain.Ld.Move

/-!
# The invariant of linking

Through the whole of a link the cells of the input are spread over the bins: every cell is
in exactly one place, and the bins hold what the map of locations says
(`DcpuToolchain.Linked`). The bins that are *held* are all that the walks over the
adjustments may meet; the *live* ones are those that cells are counted in, so a section
bin whose content was copied into the output is held but no longer live.

An adjusted word may hold an address outside its file. Such a target is no cell; its
location stays in the bin of the file, behind everything the bin contains, so no walk
takes it for a cell.

`DcpuToolchain.Linked.move` is a `bin_move` and `DcpuToolchain.Linked.consume` the
insertion of a whole section bin.
-/

namespace DcpuToolchain

open Marks Moves

variable {κ : Type} {S : Source κ} {nm : BinPtr → Bstring} {loc loc' loc'' : κ → BinPtr × ℕ}
  {lay : BinPtr → List κ}

/-- A bin does not care where cells are that nothing in it refers to. -/
theorem Holds.congr {b : LdBin} {cs : List κ} (h : Holds S nm loc b cs)
    (hloc : ∀ c ∈ cs, S.adjusted c ≠ [] → loc' (S.target c) = loc (S.target c)) :
    Holds S nm loc' b cs where
  words := by
    rw [h.words]
    refine List.map_congr_left fun c hc => ?_
    by_cases hadj : S.adjusted c = []
    · rw [Source.wordAt_of_not_adjusted hadj, Source.wordAt_of_not_adjusted hadj]
    · rw [Source.wordAt_of_adjusted hadj, Source.wordAt_of_adjusted hadj, hloc c hc hadj]
  adjustment := by
    refine h.adjustment.trans (List.Perm.of_eq ?_)
    rw [← List.map_id (place (S.adjustmentAt nm loc) 0 cs)]
    refine map_place fun i c hc => ?_
    rw [List.map_id, Source.adjustmentAt, Source.adjustmentAt]
    rcases hadj : S.adjusted c with - | ⟨e, es⟩
    · rfl
    · rw [hloc c (List.mem_of_getElem? hc) (by simp [hadj])]
  records := h.records

/-- **The cells of the input, spread over the bins.** -/
structure Linked (S : Source κ) (nm : BinPtr → Bstring) (cells : List κ)
    (files held live : List BinPtr) (heap : Heap) (lay : BinPtr → List κ)
    (loc : κ → BinPtr × ℕ) : Prop where
  hold : BinsHold S nm loc heap held lay
  live_held : ∀ p ∈ live, p ∈ held
  files_held : ∀ p ∈ files, p ∈ held
  tells : ∀ p ∈ held, ∀ q ∈ held, nm p = nm q → p = q
  size_lt : cells.length < 0x10000
  sound : ∀ p ∈ held, ∀ c ∈ lay p, c ∈ cells
  placed : ∀ p ∈ live, Placed loc p 0 (lay p)
  covers : ∀ c ∈ cells, ∃ p ∈ live, c ∈ lay p
  away : ∀ c ∈ cells, S.adjusted c ≠ [] → S.target c ∉ cells →
    (loc (S.target c)).1 ∈ files ∧ (loc (S.target c)).2 < 0x10000 ∧
      (lay (loc (S.target c)).1).length ≤ (loc (S.target c)).2

namespace Linked

variable {cells : List κ} {files held live all : List BinPtr} {heap : Heap}

theorem length_lay {p : BinPtr} (L : Linked S nm cells files held live heap lay loc)
    (hp : p ∈ live) : (lay p).length ≤ cells.length :=
  ((L.placed p hp).nodup.subperm fun c hc => L.sound p (L.live_held p hp) c hc).length_le

/-- A cell lies in a live bin. -/
theorem loc_cell (L : Linked S nm cells files held live heap lay loc) {c : κ} (hc : c ∈ cells) :
    ∃ p ∈ live, ∃ i, (lay p)[i]? = some c ∧ loc c = (p, i) ∧ i < 0x10000 := by
  obtain ⟨p, hp, hcp⟩ := L.covers c hc
  obtain ⟨i, hi, hic⟩ := List.getElem_of_mem hcp
  have hget : (lay p)[i]? = some c := by rw [List.getElem?_eq_getElem hi, hic]
  have hloc := L.placed p hp i c hget
  rw [Nat.zero_add] at hloc
  have := L.length_lay hp
  have := L.size_lt
  exact ⟨p, hp, i, hget, hloc, by omega⟩

/-- What an adjusted cell refers to is in a bin the walks meet. -/
theorem loc_target (L : Linked S nm cells files held live heap lay loc) {c : κ}
    (hc : c ∈ cells) (hadj : S.adjusted c ≠ []) :
    (loc (S.target c)).1 ∈ held ∧ (loc (S.target c)).2 < 0x10000 := by
  by_cases ht : S.target c ∈ cells
  · obtain ⟨p, hp, i, -, hloc, hi⟩ := L.loc_cell ht
    rw [hloc]
    exact ⟨L.live_held p hp, hi⟩
  · obtain ⟨h1, h2, -⟩ := L.away c hc hadj ht
    exact ⟨L.files_held _ h1, h2⟩

theorem tells_target (L : Linked S nm cells files held live heap lay loc) {c : κ} {p : BinPtr}
    (hc : c ∈ cells) (hadj : S.adjusted c ≠ []) (hp : p ∈ held) :
    Tells nm p (loc (S.target c)) :=
  L.tells _ (L.loc_target hc hadj).1 p hp

/-- A target that is no cell is where an insertion leaves it. -/
theorem insertLoc_away (L : Linked S nm cells files held live heap lay loc) {c : κ}
    (hc : c ∈ cells) (hadj : S.adjusted c ≠ []) (ht : S.target c ∉ cells)
    {toBin fromBin : BinPtr} {atPos offset count : ℕ} (hto : toBin ∉ files)
    (hlen : offset + count ≤ (lay fromBin).length) :
    insertLoc toBin fromBin atPos offset count (loc (S.target c)) = loc (S.target c) := by
  obtain ⟨hf, -, hlen'⟩ := L.away c hc hadj ht
  have hne : (loc (S.target c)).1 ≠ toBin := ne_of_mem_of_not_mem hf hto
  rw [insertLoc, if_neg, if_neg (fun h => hne h.1)]
  rintro ⟨h1, -, h2⟩
  rw [h1] at hlen'
  omega

variable {A B C X Y : List κ} {toBin fromBin : BinPtr}

/-- A cell that is not among the inserted ones stays in its bin. -/
theorem insertLoc_fst (L : Linked S nm cells files held live heap lay loc) (toBin : BinPtr)
    (atPos : ℕ) {c : κ} (hc : c ∈ cells) (hA : lay fromBin = A ++ B ++ C) (hB : c ∉ B) :
    (insertLoc toBin fromBin atPos A.length B.length (loc c)).1 = (loc c).1 := by
  obtain ⟨p, -, i, hi, hli, -⟩ := L.loc_cell hc
  rw [hli, insertLoc, if_neg]
  · split
    · rename_i h
      exact h.1.symm
    · rfl
  · rintro ⟨hp, h1, h2⟩
    dsimp only at hp h1 h2
    rw [hp, hA, List.append_assoc, List.getElem?_append_right h1,
      List.getElem?_append_left (by omega)] at hi
    exact hB (List.mem_of_getElem? hi)

/-- The insertion of a range of a live bin into another. -/
theorem binInsert (L : Linked S nm cells files held live heap lay loc) (ls : ListSort)
    (iterated : Bool) (hnd : all.Nodup) (hall : ∀ p ∈ all, p ∈ held) (hto : toBin ∉ all)
    (hfrom : fromBin ∈ all) (htolive : toBin ∈ live) (hfromlive : fromBin ∈ live)
    (hX : lay toBin = X ++ Y) (hA : lay fromBin = A ++ B ++ C)
    (hout : ∀ p ∈ held, p ≠ toBin → p ∉ all → ∀ c ∈ lay p, S.adjusted c ≠ [] →
      insertLoc toBin fromBin X.length A.length B.length (loc (S.target c)) = loc (S.target c))
    (hloc : loc' = insertLoc toBin fromBin X.length A.length B.length ∘ loc) :
    ∃ heap', DcpuToolchain.binInsert ls iterated all toBin fromBin X.length A.length B.length heap =
        .ok heap' ∧
      BinsHold S nm loc' heap' held (Function.update lay toBin (X ++ B ++ Y)) ∧
      Placed loc' toBin 0 (X ++ B ++ Y) ∧
      (∀ p, (heap' p).tables .section = (heap p).tables .section) ∧
      (∀ p, p ≠ toBin → ((heap' p).tables .output).Perm ((heap p).tables .output)) ∧
      (heap' toBin).tables .output = insertEntries true iterated (A ++ B ++ C).length X.length
        A.length B.length ((heap toBin).tables .output) (ls.up ((heap fromBin).tables .output)) ∧
      ∀ p, p ∉ toBin :: all → heap' p = heap p := by
  have hne : toBin ≠ fromBin := fun h => hto (h ▸ hfrom)
  have hPTo := L.placed toBin htolive
  have hPFrom := L.placed fromBin hfromlive
  rw [hX] at hPTo
  rw [hA] at hPFrom
  have hPlaced : Placed loc' toBin 0 (X ++ B ++ Y) := by
    rw [hloc]
    exact Placed.insert hne hPTo hPFrom
  have hsub : ∀ c ∈ X ++ B ++ Y, c ∈ cells := fun c hc => by
    have h : c ∈ X ++ Y ∨ c ∈ A ++ B ++ C := by
      simp only [List.mem_append] at hc ⊢
      tauto
    rcases h with h | h
    · exact L.sound toBin (L.live_held _ htolive) c (hX ▸ h)
    · exact L.sound fromBin (hall _ hfrom) c (hA ▸ h)
  have hlen : (X ++ B ++ Y).length ≤ 0x10000 := by
    have := (hPlaced.nodup.subperm hsub).length_le
    have := L.size_lt
    omega
  obtain ⟨heap', hok, hold', hsec, houtp, houtTo, hother⟩ := binInsert_ok loc' ls
    iterated hnd hto hfrom
    (fun p hp =>
      L.hold p ((List.mem_cons.mp hp).elim (fun h => h ▸ L.live_held _ htolive) (hall p)))
    hX hA hlen fun p hp c hc hadj => by
      have hcc : c ∈ cells := by
        by_cases hpt : p = toBin
        · rw [hpt, Function.update_self] at hc
          exact hsub c hc
        · rw [Function.update_of_ne hpt] at hc
          exact L.sound p (hall p ((List.mem_cons.mp hp).resolve_left hpt)) c hc
      exact ⟨by rw [hloc]; rfl, (L.loc_target hcc hadj).2,
        L.tells_target hcc hadj (L.live_held _ htolive), L.tells_target hcc hadj (hall _ hfrom)⟩
  refine ⟨heap', hok, fun p hp => ?_, hPlaced, hsec, houtp, houtTo, hother⟩
  by_cases hpa : p ∈ toBin :: all
  · exact hold' p hpa
  · have hpa' := List.mem_cons.not.mp hpa
    rw [not_or] at hpa'
    rw [hother p hpa, Function.update_of_ne hpa'.1]
    exact ⟨(L.hold p hp).1, (L.hold p hp).2.congr fun c hc hadj => by
      rw [hloc, Function.comp_apply, hout p hp hpa'.1 hpa'.2 c hc hadj]⟩

variable (all) in
/-- **A whole bin is copied into another** and no longer counted. -/
theorem consume (L : Linked S nm cells files held live heap lay loc) (ls : ListSort)
    (iterated : Bool) (hnd : all.Nodup) (hall : ∀ p ∈ all, p ∈ held) (hto : toBin ∉ all)
    (hfrom : fromBin ∈ all) (htolive : toBin ∈ live) (hfromlive : fromBin ∈ live)
    (htofiles : toBin ∉ files) (hX : lay toBin = X ++ Y)
    (hheld : ∀ p ∈ held, p ∈ toBin :: all) (live' : List BinPtr)
    (hlive' : ∀ p, p ∈ live' ↔ p ∈ live ∧ p ≠ fromBin) :
    ∃ heap', DcpuToolchain.binInsert ls iterated all toBin fromBin X.length 0
        (lay fromBin).length heap = .ok heap' ∧
      Linked S nm cells files held live' heap'
        (Function.update lay toBin (X ++ lay fromBin ++ Y))
        (insertLoc toBin fromBin X.length 0 (lay fromBin).length ∘ loc) ∧
      (∀ p, p ≠ toBin → ((heap' p).tables .output).Perm ((heap p).tables .output)) ∧
      (heap' toBin).tables .output = insertEntries true iterated (lay fromBin).length X.length
        0 (lay fromBin).length ((heap toBin).tables .output)
        (ls.up ((heap fromBin).tables .output)) := by
  have hne : toBin ≠ fromBin := fun h => hto (h ▸ hfrom)
  obtain ⟨heap', hok, hold', hPlaced, -, houtp, houtTo, hother⟩ := L.binInsert ls iterated hnd hall
    hto hfrom htolive hfromlive hX (A := []) (B := lay fromBin) (C := []) (by simp)
    (fun p hp hpt hpa => absurd (hheld p hp) (by simp [hpt, hpa])) rfl
  rw [List.length_nil, List.nil_append, List.append_nil] at houtTo
  refine ⟨heap', hok, ⟨hold', fun p hp => L.live_held p ((hlive' p).mp hp).1, L.files_held, L.tells,
    L.size_lt, fun p hp c hc => ?_, fun p hp => ?_, fun c hc => ?_, fun c hc hadj ht => ?_⟩, houtp,
    houtTo⟩
  · by_cases hpt : p = toBin
    · rw [hpt, Function.update_self, List.mem_append, List.mem_append] at hc
      rcases hc with (hc | hc) | hc
      · exact L.sound toBin (L.live_held _ htolive) c (by rw [hX]; exact List.mem_append_left _ hc)
      · exact L.sound fromBin (hall _ hfrom) c hc
      · exact L.sound toBin (L.live_held _ htolive) c (by rw [hX]; exact List.mem_append_right _ hc)
    · rw [Function.update_of_ne hpt] at hc
      exact L.sound p hp c hc
  · obtain ⟨hpl, hpf⟩ := (hlive' p).mp hp
    by_cases hpt : p = toBin
    · subst hpt
      rw [Function.update_self]
      exact hPlaced
    · rw [Function.update_of_ne hpt]
      exact (L.placed p hpl).insert_other hpf hpt
  · obtain ⟨p, hp, hcp⟩ := L.covers c hc
    by_cases hpt : p = toBin
    · refine ⟨toBin, (hlive' _).mpr ⟨htolive, hne⟩, ?_⟩
      rw [hpt, hX, List.mem_append] at hcp
      rw [Function.update_self, List.mem_append, List.mem_append]
      tauto
    · by_cases hpf : p = fromBin
      · refine ⟨toBin, (hlive' _).mpr ⟨htolive, hne⟩, ?_⟩
        rw [hpf] at hcp
        rw [Function.update_self, List.mem_append, List.mem_append]
        tauto
      · exact ⟨p, (hlive' p).mpr ⟨hp, hpf⟩, by rwa [Function.update_of_ne hpt]⟩
  · have haway := L.away c hc hadj ht
    rw [Function.comp_apply, L.insertLoc_away hc hadj ht htofiles (by simp)]
    rwa [Function.update_of_ne (ne_of_mem_of_not_mem haway.1 htofiles)]

/-! ### Moving a range -/

/-- The cells of the bins when a range of one was moved behind the cells of another. -/
def movedLay (lay : BinPtr → List κ) (toBin fromBin : BinPtr) (X A B C : List κ) :
    BinPtr → List κ :=
  Function.update (Function.update lay toBin (X ++ B)) fromBin (A ++ C)

theorem movedLay_to (hne : toBin ≠ fromBin) :
    movedLay lay toBin fromBin X A B C toBin = X ++ B := by
  rw [movedLay, Function.update_of_ne hne, Function.update_self]

theorem movedLay_from : movedLay lay toBin fromBin X A B C fromBin = A ++ C :=
  Function.update_self ..

theorem movedLay_other {p : BinPtr} (hto : p ≠ toBin) (hfrom : p ≠ fromBin) :
    movedLay lay toBin fromBin X A B C p = lay p := by
  rw [movedLay, Function.update_of_ne hfrom, Function.update_of_ne hto]

/-- What lies in the bins are still cells. -/
theorem moved_sound (L : Linked S nm cells files held live heap lay loc) (hne : toBin ≠ fromBin)
    (hto : toBin ∈ held) (hfrom : fromBin ∈ held) (hX : lay toBin = X)
    (hA : lay fromBin = A ++ B ++ C) {p : BinPtr} (hp : p ∈ held) {c : κ}
    (hc : c ∈ movedLay lay toBin fromBin X A B C p) : c ∈ cells := by
  by_cases hpt : p = toBin
  · rw [hpt, movedLay_to hne, List.mem_append] at hc
    rcases hc with hc | hc
    · exact L.sound toBin hto c (hX ▸ hc)
    · refine L.sound fromBin hfrom c ?_
      rw [hA]
      simp [hc]
  · by_cases hpf : p = fromBin
    · rw [hpf, movedLay_from, List.mem_append] at hc
      refine L.sound fromBin hfrom c ?_
      rw [hA]
      rcases hc with hc | hc <;> simp [hc]
    · rw [movedLay_other hpt hpf] at hc
      exact L.sound p hp c hc

/-- Every cell is still in a live bin. -/
theorem moved_covers (L : Linked S nm cells files held live heap lay loc) (hne : toBin ≠ fromBin)
    (hto : toBin ∈ live) (hfrom : fromBin ∈ live) (hX : lay toBin = X)
    (hA : lay fromBin = A ++ B ++ C) {c : κ} (hc : c ∈ cells) :
    ∃ p ∈ live, c ∈ movedLay lay toBin fromBin X A B C p := by
  obtain ⟨p, hp, hcp⟩ := L.covers c hc
  by_cases hpt : p = toBin
  · refine ⟨toBin, hto, ?_⟩
    rw [hpt, hX] at hcp
    rw [movedLay_to hne]
    exact List.mem_append_left _ hcp
  · by_cases hpf : p = fromBin
    · rw [hpf, hA, List.mem_append, List.mem_append] at hcp
      rcases hcp with (hcp | hcp) | hcp
      · exact ⟨fromBin, hfrom, by rw [movedLay_from]; exact List.mem_append_left _ hcp⟩
      · exact ⟨toBin, hto, by rw [movedLay_to hne]; exact List.mem_append_right _ hcp⟩
      · exact ⟨fromBin, hfrom, by rw [movedLay_from]; exact List.mem_append_right _ hcp⟩
    · exact ⟨p, hp, by rwa [movedLay_other hpt hpf]⟩

/-- A cell that is neither in the bin it would be moved to nor in the range stays where it is. -/
theorem insertLoc_stays (L : Linked S nm cells files held live heap lay loc)
    (hne : toBin ≠ fromBin) (hX : lay toBin = X) (hA : lay fromBin = A ++ B ++ C) {c : κ}
    (hc : c ∈ cells) (hcX : c ∉ X) (hcB : c ∉ B) :
    insertLoc toBin fromBin X.length A.length B.length (loc c) = loc c := by
  obtain ⟨p, -, i, hi, hli, -⟩ := L.loc_cell hc
  have hfst := L.insertLoc_fst toBin X.length hc hA hcB
  rw [hli] at hfst ⊢
  rw [insertLoc] at hfst ⊢
  split at hfst
  · rename_i h
    exact absurd (hfst.trans h.1) hne
  · rename_i h
    rw [if_neg h, if_neg]
    rintro ⟨rfl, -⟩
    rw [hX] at hi
    exact hcX (List.mem_of_getElem? hi)

/-- After the insertion every target is where the walks can tell it. -/
theorem inserted_target (L : Linked S nm cells files held live heap lay loc)
    (hne : toBin ≠ fromBin) (hto : toBin ∈ live) (hfrom : fromBin ∈ live) (htofiles : toBin ∉ files)
    (hX : lay toBin = X) (hA : lay fromBin = A ++ B ++ C)
    (hPlaced : Placed (insertLoc toBin fromBin X.length A.length B.length ∘ loc) toBin 0 (X ++ B))
    {c : κ} (hc : c ∈ cells) (hadj : S.adjusted c ≠ []) :
    (insertLoc toBin fromBin X.length A.length B.length (loc (S.target c))).1 ∈ held ∧
      (insertLoc toBin fromBin X.length A.length B.length (loc (S.target c))).2 < 0x10000 := by
  by_cases ht : S.target c ∈ cells
  · by_cases hin : S.target c ∈ X ++ B
    · obtain ⟨j, hj, hjc⟩ := List.getElem_of_mem hin
      have hget : (X ++ B)[j]? = some (S.target c) := by
        rw [List.getElem?_eq_getElem hj, hjc]
      have hl := hPlaced j _ hget
      rw [Function.comp_apply] at hl
      rw [hl, Nat.zero_add]
      have hsub : ∀ d ∈ X ++ B, d ∈ cells := fun d hd =>
        L.moved_sound hne (L.live_held _ hto) (L.live_held _ hfrom) hX hA (L.live_held _ hto)
          (movedLay_to (C := C) hne ▸ hd)
      have hlength := (hPlaced.nodup.subperm hsub).length_le
      have hsize := L.size_lt
      exact ⟨L.live_held _ hto, show j < 0x10000 by omega⟩
    · rw [List.mem_append, not_or] at hin
      rw [L.insertLoc_stays hne hX hA ht hin.1 hin.2]
      exact L.loc_target hc hadj
  · rw [L.insertLoc_away hc hadj ht htofiles (by rw [hA]; simp)]
    exact L.loc_target hc hadj

/-- The cells are where they should be when the range was removed. -/
theorem moved_placed (L : Linked S nm cells files held live heap lay loc) (hne : toBin ≠ fromBin)
    (hto : toBin ∈ live) (hfrom : fromBin ∈ live) (hX : lay toBin = X)
    (hA : lay fromBin = A ++ B ++ C)
    (hPlaced : Placed (insertLoc toBin fromBin X.length A.length B.length ∘ loc) toBin 0 (X ++ B))
    (hcell : ∀ c ∈ cells, loc'' c = removeLoc fromBin A.length B.length
      (insertLoc toBin fromBin X.length A.length B.length (loc c)))
    {p : BinPtr} (hp : p ∈ live) :
    Placed loc'' p 0 (movedLay lay toBin fromBin X A B C p) := by
  have hsound := fun c => L.moved_sound hne (L.live_held _ hto) (L.live_held _ hfrom) hX hA
    (L.live_held p hp) (c := c)
  have hcongr : ∀ {n : ℕ} {cs : List κ}, (∀ c ∈ cs, c ∈ cells) →
      Placed (removeLoc fromBin A.length B.length ∘
        (insertLoc toBin fromBin X.length A.length B.length ∘ loc)) p n cs → Placed loc'' p n cs :=
    fun hcs h i c hc => by
      rw [hcell c (hcs c (List.mem_of_getElem? hc))]
      exact h i c hc
  refine hcongr hsound ?_
  by_cases hpt : p = toBin
  · rw [hpt, movedLay_to hne]
    exact hPlaced.remove_other hne
  · by_cases hpf : p = fromBin
    · have hP := L.placed fromBin hfrom
      rw [hA] at hP
      obtain ⟨hAB, hCp⟩ := placed_append.mp hP
      rw [Nat.zero_add, List.length_append] at hCp
      rw [hpf, movedLay_from]
      exact Placed.remove ((placed_append.mp hAB).1.insert_src hne (.inl (by omega)))
        (hCp.insert_src hne (.inr (by omega)))
    · rw [movedLay_other hpt hpf]
      exact ((L.placed p hp).insert_other hpf hpt).remove_other hpf

variable (all loc' loc'') in
/-- **A range of a bin is moved into another.** -/
theorem move (L : Linked S nm cells files held live heap lay loc) (ls : ListSort)
    (iterated : Bool) (hnd : all.Nodup) (hall : ∀ p ∈ all, p ∈ held) (hto : toBin ∉ all)
    (hfrom : fromBin ∈ all) (htolive : toBin ∈ live) (hfromlive : fromBin ∈ live)
    (htofiles : toBin ∉ files) (hX : lay toBin = X) (hA : lay fromBin = A ++ B ++ C)
    (hout : ∀ p ∈ held, p ≠ toBin → p ∉ all → ∀ c ∈ lay p, S.adjusted c ≠ [] →
      insertLoc toBin fromBin X.length A.length B.length (loc (S.target c)) = loc (S.target c))
    (hloc : loc' = insertLoc toBin fromBin X.length A.length B.length ∘ loc)
    (lay'' : BinPtr → List κ)
    (hlay : lay'' = Function.update (Function.update lay toBin (X ++ B)) fromBin (A ++ C))
    (hcell : ∀ c ∈ cells, loc'' c = removeLoc fromBin A.length B.length (loc' c))
    (hin'' : ∀ p ∈ all, ∀ c ∈ lay'' p, S.adjusted c ≠ [] → S.target c ∉ cells →
      loc'' (S.target c) = removeLoc fromBin A.length B.length (loc' (S.target c)))
    (hout'' : ∀ p ∈ held, p ∉ all → ∀ c ∈ lay'' p, S.adjusted c ≠ [] →
      loc'' (S.target c) = loc' (S.target c))
    (hlow : ∀ p ∈ all, p ≠ fromBin → ∀ c ∈ lay p, S.adjusted c ≠ [] →
      (loc' (S.target c)).1 ≠ fromBin)
    (hC : ∀ c ∈ C, S.adjusted c ≠ [] → (loc' (S.target c)).1 = fromBin)
    (haway : ∀ c ∈ cells, S.adjusted c ≠ [] → S.target c ∉ cells →
      (loc'' (S.target c)).1 ∈ files ∧ (loc'' (S.target c)).2 < 0x10000 ∧
        (lay'' (loc'' (S.target c)).1).length ≤ (loc'' (S.target c)).2) :
    ∃ heap', binMove ls iterated all toBin fromBin X.length A.length B.length heap = .ok heap' ∧
      Linked S nm cells files held live heap' lay'' loc'' ∧
      (∀ p, (heap' p).tables .section = (heap p).tables .section) ∧
      (∀ p, p ≠ toBin → p ≠ fromBin →
        ((heap' p).tables .output).Perm ((heap p).tables .output)) ∧
      (heap' toBin).tables .output = insertEntries true iterated (A ++ B ++ C).length X.length
        A.length B.length ((heap toBin).tables .output) (ls.up ((heap fromBin).tables .output)) ∧
      ∃ l, l.Perm ((heap fromBin).tables .output) ∧
        (heap' fromBin).tables .output = binInfoRemove ls false A.length B.length l := by
  have hne : toBin ≠ fromBin := fun h => hto (h ▸ hfrom)
  obtain ⟨heap₁, hok₁, hold₁, hPlaced, hsec₁, houtp₁, houtTo₁, hother₁⟩ :=
    L.binInsert ls iterated hnd hall hto hfrom htolive hfromlive (X := X) (Y := [])
      (by rw [hX, List.append_nil]) hA hout hloc
  rw [List.append_nil] at hold₁ hPlaced
  obtain rfl : lay'' = movedLay lay toBin fromBin X A B C := hlay
  subst hloc
  have htoheld := L.live_held _ htolive
  have hfromheld := L.live_held _ hfromlive
  have htarget := fun c => L.inserted_target hne htolive hfromlive htofiles hX hA hPlaced (c := c)
  obtain ⟨heap₂, hok₂, hold₂, hsec₂, houtp₂, houtFrom₂, hother₂⟩ :=
    binRemove_ok loc'' ls hnd hfrom (fun p hp => hold₁ p (hall p hp))
      (by rw [Function.update_of_ne hne.symm, hA])
      (fun p hp c hc hadj => by
        have hcc := L.moved_sound hne htoheld hfromheld hX hA (hall p hp) hc
        refine ⟨?_, (htarget c hcc hadj).2, L.tells _ (htarget c hcc hadj).1 _ (hall _ hfrom)⟩
        by_cases ht : S.target c ∈ cells
        · exact hcell _ ht
        · exact hin'' p hp c hc hadj ht)
      (fun p hp hpf i c hc hadj hl => by
        have hpt : p ≠ toBin := fun h => hto (h ▸ hp)
        rw [Function.update_of_ne hpt] at hc
        exact absurd hl (hlow p hp hpf c (List.mem_of_getElem? hc) hadj))
      hC
  refine ⟨heap₂, ?_, ⟨fun p hp => ?_, L.live_held, L.files_held, L.tells, L.size_lt,
    fun p hp c hc => L.moved_sound hne htoheld hfromheld hX hA hp hc,
    fun p hp => L.moved_placed hne htolive hfromlive hX hA hPlaced hcell hp,
    fun c hc => L.moved_covers hne htolive hfromlive hX hA hc, haway⟩,
    fun p => (hsec₂ p).trans (hsec₁ p), fun p hpt hpf => ?_, ?_,
    (heap₁ fromBin).tables .output, houtp₁ fromBin hne.symm, houtFrom₂⟩
  · rw [binMove, hok₁]
    exact hok₂
  · by_cases hpa : p ∈ all
    · exact hold₂ p hpa
    · rw [hother₂ p hpa]
      have hpf : p ≠ fromBin := fun h => hpa (h ▸ hfrom)
      obtain ⟨hn, hH⟩ := hold₁ p hp
      rw [show Function.update lay toBin (X ++ B) p = movedLay lay toBin fromBin X A B C p by
        rw [movedLay, Function.update_of_ne hpf]] at hH
      exact ⟨hn, hH.congr (hout'' p hp hpa)⟩
  · rw [houtp₂ p hpf]
    exact houtp₁ p hpt
  · rw [houtp₂ toBin hne, houtTo₁]

end Linked

end DcpuToolchain
