import Mathlib.Data.List.Nodup

/-!
# Moving ranges of cells between sequences

Cells lie in sequences, and a location is a sequence and a position in it. Copying a
range of one sequence into another moves the copied cells and those behind the insertion
point (`Moves.insertLoc`); removing a range moves those behind it (`Moves.removeLoc`).
`Moves.Placed` says that a stretch of a sequence is where a map of locations says, and is
followed through the two operations.
-/

namespace Moves

variable {P κ : Type*} [DecidableEq P]

/-- Where a location goes when the range of `count` cells from `offset` on in `src` is put
into `dst` at `pos`. -/
def insertLoc (dst src : P) (pos offset count : ℕ) (l : P × ℕ) : P × ℕ :=
  if l.1 = src ∧ offset ≤ l.2 ∧ l.2 < offset + count then (dst, l.2 - offset + pos)
  else if l.1 = dst ∧ pos ≤ l.2 then (dst, l.2 + count)
  else l

/-- Where a location goes when the range of `count` cells from `offset` on in `src` is
deleted. -/
def removeLoc (src : P) (offset count : ℕ) (l : P × ℕ) : P × ℕ :=
  if l.1 = src ∧ offset + count ≤ l.2 then (src, l.2 - count) else l

variable {dst src p : P} {pos offset count : ℕ} {l : P × ℕ}

theorem insertLoc_of_ne (hs : l.1 ≠ src) (hd : l.1 ≠ dst) :
    insertLoc dst src pos offset count l = l := by
  rw [insertLoc, if_neg fun h => hs h.1, if_neg fun h => hd h.1]

/-- A location either stays in its sequence or goes into the target. -/
theorem insertLoc_fst (dst src : P) (pos offset count : ℕ) (l : P × ℕ) :
    (insertLoc dst src pos offset count l).1 = l.1 ∨
      (insertLoc dst src pos offset count l).1 = dst := by
  rw [insertLoc]
  split
  · exact .inr rfl
  · split
    · exact .inr rfl
    · exact .inl rfl

theorem removeLoc_of_ne (h : l.1 ≠ src) : removeLoc src offset count l = l := by
  rw [removeLoc, if_neg fun h' => h h'.1]

theorem removeLoc_of_lt (h : l.2 < offset + count) : removeLoc src offset count l = l := by
  rw [removeLoc, if_neg fun h' => absurd h'.2 (by omega)]

theorem removeLoc_fst (src : P) (offset count : ℕ) (l : P × ℕ) :
    (removeLoc src offset count l).1 = l.1 := by
  rw [removeLoc]
  split
  · rename_i h
    exact h.1.symm
  · rfl

/-- A stretch of cells lies in a sequence from a position on. -/
def Placed (loc : κ → P × ℕ) (p : P) (n : ℕ) (cs : List κ) : Prop :=
  ∀ i c, cs[i]? = some c → loc c = (p, n + i)

variable {loc : κ → P × ℕ} {n : ℕ} {A B C X Y cs : List κ}

omit [DecidableEq P] in
theorem placed_nil : Placed loc p n [] := fun i c h => by simp at h

omit [DecidableEq P] in
theorem placed_append :
    Placed loc p n (A ++ B) ↔ Placed loc p n A ∧ Placed loc p (n + A.length) B := by
  constructor
  · refine fun h => ⟨fun i c hc => h i c ?_, fun i c hc => ?_⟩
    · rwa [List.getElem?_append_left (List.getElem?_eq_some_iff.mp hc).1]
    · rw [h (A.length + i) c (by rw [List.getElem?_append_right (by omega)]; simpa using hc),
        Nat.add_assoc]
  · rintro ⟨hA, hB⟩ i c hc
    by_cases hi : i < A.length
    · exact hA i c (by rwa [List.getElem?_append_left hi] at hc)
    · rw [List.getElem?_append_right (by omega)] at hc
      rw [hB _ c hc, show n + A.length + (i - A.length) = n + i by omega]

omit [DecidableEq P] in
/-- Cells that are placed are different. -/
theorem Placed.nodup (h : Placed loc p n cs) : cs.Nodup := by
  rw [List.nodup_iff_getElem?_ne_getElem?]
  intro i j hij hj heq
  have hc := List.getElem?_eq_getElem hj
  have hi := h i _ (heq.trans hc)
  have hj := h j _ hc
  rw [hi, Prod.mk.injEq] at hj
  omega

/-- What lies elsewhere is not moved by an insertion. -/
theorem Placed.insert_other (h : Placed loc p n cs) (hs : p ≠ src) (hd : p ≠ dst) :
    Placed (insertLoc dst src pos offset count ∘ loc) p n cs := fun i c hc => by
  rw [Function.comp_apply, h i c hc, insertLoc_of_ne hs hd]

/-- **An insertion puts the range between the two parts of the target.** -/
theorem Placed.insert (hne : dst ≠ src) (hto : Placed loc dst 0 (X ++ Y))
    (hfrom : Placed loc src 0 (A ++ B ++ C)) :
    Placed (insertLoc dst src X.length A.length B.length ∘ loc) dst 0 (X ++ B ++ Y) := by
  obtain ⟨hX, hY⟩ := placed_append.mp hto
  obtain ⟨⟨-, hB⟩, -⟩ := (placed_append.mp hfrom).imp_left placed_append.mp
  refine placed_append.mpr ⟨placed_append.mpr ⟨fun i c hc => ?_, fun i c hc => ?_⟩,
    fun i c hc => ?_⟩
  · have hi := (List.getElem?_eq_some_iff.mp hc).1
    rw [Function.comp_apply, hX i c hc, insertLoc, if_neg fun h => hne h.1,
      if_neg fun h => absurd h.2 (by omega)]
  · have hi := (List.getElem?_eq_some_iff.mp hc).1
    rw [Function.comp_apply, hB i c hc, insertLoc, if_pos ⟨rfl, by omega, by omega⟩]
    exact Prod.ext rfl (by dsimp only; omega)
  · rw [Function.comp_apply, hY i c hc, insertLoc, if_neg fun h => hne h.1,
      if_pos ⟨rfl, by omega⟩]
    exact Prod.ext rfl (by simp only [List.length_append]; omega)

/-- What stays in the source of an insertion is not moved. -/
theorem Placed.insert_src (hne : dst ≠ src) (h : Placed loc src n cs)
    (hout : n + cs.length ≤ offset ∨ offset + count ≤ n) :
    Placed (insertLoc dst src pos offset count ∘ loc) src n cs := fun i c hc => by
  have hi := (List.getElem?_eq_some_iff.mp hc).1
  rw [Function.comp_apply, h i c hc, insertLoc, if_neg fun h' => absurd h'.2 (by omega),
    if_neg fun h' => hne h'.1.symm]

/-- What lies elsewhere is not moved by a removal. -/
theorem Placed.remove_other (h : Placed loc p n cs) (hs : p ≠ src) :
    Placed (removeLoc src offset count ∘ loc) p n cs := fun i c hc => by
  rw [Function.comp_apply, h i c hc, removeLoc_of_ne hs]

/-- **A removal closes the gap.** -/
theorem Placed.remove (hA : Placed loc src 0 A) (hC : Placed loc src (A.length + count) C) :
    Placed (removeLoc src A.length count ∘ loc) src 0 (A ++ C) := by
  refine placed_append.mpr ⟨fun i c hc => ?_, fun i c hc => ?_⟩
  · have hi := (List.getElem?_eq_some_iff.mp hc).1
    rw [Function.comp_apply, hA i c hc, removeLoc_of_lt (by dsimp only; omega)]
  · rw [Function.comp_apply, hC i c hc, removeLoc, if_pos ⟨rfl, by omega⟩]
    exact Prod.ext rfl (by dsimp only; omega)

end Moves
