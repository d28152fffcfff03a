import DcpuToolchain.Ld.Relocate

/-!
# Moving cells between the bins in memory

`DcpuToolchain.binInsert` and `DcpuToolchain.binRemove` walk over every bin of the global
list. When all these bins hold cells and everything an adjusted cell refers to goes where
the move takes it, the operation succeeds and all the bins hold cells again
(`DcpuToolchain.binInsert_ok`, `DcpuToolchain.binRemove_ok`). Neither touches a section
table, and of the output tables only that of the bin that gains or loses words.
-/

namespace DcpuToolchain

open Marks Moves

/-- One walk over bins that all allow it. -/
theorem adjustBins_ok {f : LdBin → Except LdError LdBin} {Q : BinPtr → LdBin → Prop}
    {ps : List BinPtr} {h : Heap} (hnd : ps.Nodup)
    (hf : ∀ p ∈ ps, ∃ b', f (h p) = .ok b' ∧ Q p b') :
    ∃ h', adjustBins f ps h = .ok h' ∧ (∀ p ∈ ps, Q p (h' p)) ∧ ∀ p, p ∉ ps → h' p = h p := by
  induction ps generalizing h with
  | nil => exact ⟨h, rfl, by simp, fun _ _ => rfl⟩
  | cons p ps ih =>
    rw [List.nodup_cons] at hnd
    rw [List.forall_mem_cons] at hf
    obtain ⟨⟨b', hb', hQ⟩, hf⟩ := hf
    obtain ⟨h', hok, hQ', hother⟩ := ih (h := Function.update h p b') hnd.2 fun q hq => by
      rw [Function.update_of_ne (ne_of_mem_of_not_mem hq hnd.1)]
      exact hf q hq
    refine ⟨h', ?_, ?_, fun q hq => ?_⟩
    · rw [adjustBins, hb']
      exact hok
    · rw [List.forall_mem_cons]
      refine ⟨?_, hQ'⟩
      rwa [hother p hnd.1, Function.update_self]
    · rw [List.mem_cons, not_or] at hq
      rw [hother q hq.2, Function.update_of_ne hq.1]

section

variable {κ : Type} {S : Source κ} {nm : BinPtr → Bstring} {loc loc' : κ → BinPtr × ℕ}
  {h : Heap} {all : List BinPtr} {lay : BinPtr → List κ} {A B C X Y : List κ}

/-- Bins with their names and the cells they hold. -/
def BinsHold (S : Source κ) (nm : BinPtr → Bstring) (loc : κ → BinPtr × ℕ) (h : Heap)
    (ps : List BinPtr) (lay : BinPtr → List κ) : Prop :=
  ∀ p ∈ ps, (h p).name = nm p ∧ Holds S nm loc (h p) (lay p)

variable (loc') in
/-- **An insertion between bins that hold cells.** -/
theorem binInsert_ok (ls : ListSort) (iterated : Bool) {toBin fromBin : BinPtr}
    (hnd : all.Nodup) (hto : toBin ∉ all) (hfrom : fromBin ∈ all)
    (hold : BinsHold S nm loc h (toBin :: all) lay) (hX : lay toBin = X ++ Y)
    (hA : lay fromBin = A ++ B ++ C) (hb : (X ++ B ++ Y).length ≤ 0x10000)
    (hf : ∀ p ∈ toBin :: all, ∀ c ∈ Function.update lay toBin (X ++ B ++ Y) p,
      FollowsInsert S nm loc loc' toBin fromBin X.length A.length B.length c) :
    ∃ h', binInsert ls iterated all toBin fromBin X.length A.length B.length h = .ok h' ∧
      BinsHold S nm loc' h' (toBin :: all) (Function.update lay toBin (X ++ B ++ Y)) ∧
      (∀ p, (h' p).tables .section = (h p).tables .section) ∧
      (∀ p, p ≠ toBin → ((h' p).tables .output).Perm ((h p).tables .output)) ∧
      (h' toBin).tables .output = insertEntries true iterated (A ++ B ++ C).length X.length
        A.length B.length ((h toBin).tables .output) (ls.up ((h fromBin).tables .output)) ∧
      ∀ p, p ∉ toBin :: all → h' p = h p := by
  have hne : fromBin ≠ toBin := ne_of_mem_of_not_mem hfrom hto
  obtain ⟨hnTo, hTo⟩ := hold toBin List.mem_cons_self
  obtain ⟨hnFrom, hFrom⟩ := hold fromBin (List.mem_cons_of_mem _ hfrom)
  rw [hX] at hTo
  rw [hA] at hFrom
  set h1 := Function.update h fromBin ((h fromBin).sortTables ls) with hh1
  set b2 := (h toBin).insert iterated ((h fromBin).sortTables ls) X.length A.length B.length
    with hb2
  set h2 := Function.update h1 toBin b2 with hh2
  have hTo' : Holds S nm loc b2 (X ++ B ++ Y) := hTo.insert (hFrom.sortTables ls) hb
  -- before the walk every bin holds its cells by the old map
  have hold2 : ∀ p ∈ all ++ [toBin], (h2 p).name = nm p ∧
      Holds S nm loc (h2 p) (Function.update lay toBin (X ++ B ++ Y) p) := fun p hp => by
    by_cases hpt : p = toBin
    · subst hpt
      rw [hh2, Function.update_self, Function.update_self]
      exact ⟨hnTo, hTo'⟩
    · have hpa : p ∈ all := by simpa [hpt] using hp
      rw [hh2, Function.update_of_ne hpt, Function.update_of_ne hpt]
      by_cases hpf : p = fromBin
      · subst hpf
        rw [hh1, Function.update_self, hA]
        exact ⟨hnFrom, hFrom.sortTables ls⟩
      · rw [hh1, Function.update_of_ne hpf]
        exact hold p (List.mem_cons_of_mem _ hpa)
  obtain ⟨h', hok, hQ, hother⟩ := adjustBins_ok (h := h2)
    (f := LdBin.adjust id (repointInserted (nm toBin) (nm fromBin) X.length A.length B.length)
      .assertion)
    (Q := fun p b' => Holds S nm loc' b' (Function.update lay toBin (X ++ B ++ Y) p) ∧
      b'.name = (h2 p).name ∧ ∀ t, t ≠ .adjustment → b'.tables t = (h2 p).tables t)
    (List.nodup_append.mpr
      ⟨hnd, List.nodup_singleton _, by simpa using fun a ha => ne_of_mem_of_not_mem ha hto⟩)
    fun p hp => (hold2 p hp).2.walkInserted fun c hc => hf p (by simpa [or_comm] using hp) c hc
  have hmem : ∀ p, p ∈ all ++ [toBin] ↔ p ∈ toBin :: all := fun p => by simp [or_comm]
  -- the tables other than the adjustments are those from before the walk
  have htab : ∀ p t, t ≠ .adjustment → (h' p).tables t = (h2 p).tables t := fun p t ht => by
    by_cases hp : p ∈ all ++ [toBin]
    · exact (hQ p hp).2.2 t ht
    · rw [hother p hp]
  refine ⟨h', ?_, fun p hp => ?_, fun p => ?_, fun p hp => ?_, ?_, fun p hp => ?_⟩
  · have hfilter : all.filter (fun p => decide (p ≠ toBin)) = all :=
      List.filter_eq_self.mpr fun p hp => by simpa using ne_of_mem_of_not_mem hp hto
    rw [binInsert, if_neg, ← hok, hfilter]
    · simp only [Function.update_self, Function.update_of_ne hne.symm]
      rw [← hh1, ← hb2, ← hh2, show b2.name = nm toBin from hnTo,
        (hold2 fromBin (List.mem_append_left _ hfrom)).1]
    · rw [hTo.length_words, hFrom.length_words]
      simp only [List.length_append]
      omega
  · have hp' := (hmem p).mpr hp
    exact ⟨(hQ p hp').2.1.trans (hold2 p hp').1, (hQ p hp').1⟩
  · rw [htab p _ (by simp), hh2]
    by_cases hpt : p = toBin
    · subst hpt
      rw [Function.update_self]
      rfl
    · rw [Function.update_of_ne hpt, hh1]
      by_cases hpf : p = fromBin
      · subst hpf
        rw [Function.update_self]
        rfl
      · rw [Function.update_of_ne hpf]
  · rw [htab p _ (by simp), hh2, Function.update_of_ne hp, hh1]
    by_cases hpf : p = fromBin
    · subst hpf
      rw [Function.update_self]
      exact ls.up_perm _
    · rw [Function.update_of_ne hpf]
  · rw [htab toBin _ (by simp), hh2, Function.update_self, ← hFrom.length_words]
    cases iterated <;> rfl
  · rw [List.mem_cons, not_or] at hp
    have hpf : p ≠ fromBin := fun h => hp.2 (h ▸ hfrom)
    rw [hother p fun hm => (List.mem_append.mp hm).elim hp.2 (by simpa using hp.1), hh2,
      Function.update_of_ne hp.1, hh1, Function.update_of_ne hpf]

variable (loc') in
/-- **A removal from one of the bins that hold cells.** -/
theorem binRemove_ok (ls : ListSort) {bin : BinPtr} (hnd : all.Nodup) (hbin : bin ∈ all)
    (hold : BinsHold S nm loc h all lay) (hA : lay bin = A ++ B ++ C)
    (hf : ∀ p ∈ all, ∀ c ∈ Function.update lay bin (A ++ C) p,
      FollowsRemove S nm loc loc' bin A.length B.length c)
    (hlow : ∀ p ∈ all, p ≠ bin → ∀ i c, (lay p)[i]? = some c → S.adjusted c ≠ [] →
      (loc (S.target c)).1 = bin → i < A.length + B.length)
    (hC : ∀ c ∈ C, S.adjusted c ≠ [] → (loc (S.target c)).1 = bin) :
    ∃ h', binRemove ls all bin A.length B.length h = .ok h' ∧
      BinsHold S nm loc' h' all (Function.update lay bin (A ++ C)) ∧
      (∀ p, (h' p).tables .section = (h p).tables .section) ∧
      (∀ p, p ≠ bin → (h' p).tables .output = (h p).tables .output) ∧
      (h' bin).tables .output =
        binInfoRemove ls false A.length B.length ((h bin).tables .output) ∧
      ∀ p, p ∉ all → h' p = h p := by
  obtain ⟨hnBin, hBin⟩ := hold bin hbin
  rw [hA] at hBin
  set h1 := Function.update h bin ((h bin).remove ls A.length B.length) with hh1
  obtain ⟨h', hok, hQ, hother⟩ := adjustBins_ok (h := h1)
    (f := LdBin.adjust (lowerRemoved (nm bin) A.length B.length)
      (repointRemoved (nm bin) A.length B.length) .bug191Workaround)
    (Q := fun p b' => Holds S nm loc' b' (Function.update lay bin (A ++ C) p) ∧
      b'.name = nm p ∧ ∀ t, t ≠ .adjustment → b'.tables t = (h1 p).tables t)
    hnd fun p hp => by
      have hfp := hf p hp
      by_cases hpb : p = bin
      · subst hpb
        rw [Function.update_self] at hfp ⊢
        obtain ⟨b', hb', hH, hn, ht⟩ := hBin.remove ls .bug191Workaround hfp hC
        exact ⟨b', by rw [hh1, Function.update_self, hb'], hH, hn.trans hnBin,
          fun t h' => by rw [ht t h', hh1, Function.update_self]⟩
      · rw [Function.update_of_ne hpb] at hfp ⊢
        obtain ⟨b', hb', hH, hn, ht⟩ := (hold p hp).2.walkRemoved .bug191Workaround
          hfp (hlow p hp hpb)
        exact ⟨b', by rw [hh1, Function.update_of_ne hpb, hb'], hH, hn.trans (hold p hp).1,
          fun t h' => by rw [ht t h', hh1, Function.update_of_ne hpb]⟩
  have htab : ∀ p t, t ≠ .adjustment → (h' p).tables t = (h1 p).tables t := fun p t ht => by
    by_cases hp : p ∈ all
    · exact (hQ p hp).2.2 t ht
    · rw [hother p hp]
  refine ⟨h', ?_, fun p hp => ⟨(hQ p hp).2.1, (hQ p hp).1⟩, fun p => ?_, fun p hp => ?_, ?_,
    fun p hp => ?_⟩
  · rw [binRemove, if_neg, ← hok]
    · simp only [Function.update_self]
      rw [← hh1, show ((h bin).remove ls A.length B.length).name = nm bin from hnBin]
    · rw [hBin.length_words]
      simp only [List.length_append]
      omega
  · rw [htab p _ (by simp), hh1]
    by_cases hpb : p = bin
    · subst hpb
      rw [Function.update_self]
      rfl
    · rw [Function.update_of_ne hpb]
  · rw [htab p _ (by simp), hh1, Function.update_of_ne hp]
  · rw [htab bin _ (by simp), hh1, Function.update_self]
    rfl
  · rw [hother p hp, hh1, Function.update_of_ne (ne_of_mem_of_not_mem hbin hp).symm]

end

end DcpuToolchain
