import Mathlib.Data.List.Sort
import Mathlib.Data.List.Flatten

/-!
# Addressed records and the marks of a sequence of cells

A tool that moves code about keeps tables beside it: records that carry the address of
the cell they mark. The records themselves are of any type with an address that can be
read and replaced (`Marks.Addressed`); which records mark a cell is a function of the
cell, and `Marks.place` lists the marks of a sequence of cells laid out from an address.

What is proved is how `Marks.place` takes part in the operations on such tables:
concatenation, selection by an address range, a map that re-addresses.
-/

namespace Marks

/-- Records with an address that can be read and replaced. -/
class Addressed (E : Type*) where
  /-- The address of a record. -/
  address : E → ℕ
  /-- The record at another address. -/
  withAddress : E → ℕ → E
  address_withAddress : ∀ e a, address (withAddress e a) = a
  withAddress_withAddress : ∀ e a b, withAddress (withAddress e a) b = withAddress e b
  withAddress_address : ∀ e, withAddress e (address e) = e

export Addressed (address withAddress)

attribute [simp] Addressed.address_withAddress Addressed.withAddress_withAddress
  Addressed.withAddress_address

/-! ### Sorting -/

/-- A sorting procedure: it returns a permutation of the list in which the keys do not
decrease. Records with one key may come out in any order. -/
structure ListSort where
  sort : {E : Type} → (E → ℤ) → List E → List E
  perm : ∀ {E : Type} (key : E → ℤ) (l : List E), (sort key l).Perm l
  sorted : ∀ {E : Type} (key : E → ℤ) (l : List E), (sort key l).Pairwise (key · ≤ key ·)

namespace ListSort

variable {E : Type} [Addressed E] (ls : ListSort)

/-- Sort by ascending address. -/
def up (l : List E) : List E := ls.sort (fun e => (address e : ℤ)) l

/-- Sort by descending address. -/
def down (l : List E) : List E := ls.sort (fun e => -(address e : ℤ)) l

theorem up_perm (l : List E) : (ls.up l).Perm l := ls.perm _ l

theorem down_perm (l : List E) : (ls.down l).Perm l := ls.perm _ l

theorem up_sorted (l : List E) : (ls.up l).Pairwise (address · ≤ address ·) :=
  (ls.sorted _ l).imp fun h => by simpa using h

theorem down_sorted (l : List E) : (ls.down l).Pairwise (address · ≥ address ·) :=
  (ls.sorted _ l).imp fun h => by simpa using h

/-- Insertion sort is a sorting procedure. -/
def insertion : ListSort where
  sort key l := l.insertionSort (key · ≤ key ·)
  perm _ l := List.perm_insertionSort _ l
  sorted key l :=
    have : Std.Total fun a b => key a ≤ key b := ⟨fun a b => le_total (key a) (key b)⟩
    have : IsTrans _ fun a b => key a ≤ key b := ⟨fun _ _ _ => le_trans⟩
    List.pairwise_insertionSort _ l

end ListSort

/-! ### The marks of a sequence of cells -/

section Place

variable {E κ : Type*} [Addressed E]

/-- The marks of cells laid out from an address on, in order. -/
def place (m : κ → List E) : ℕ → List κ → List E
  | _, [] => []
  | n, c :: cs => (m c).map (withAddress · n) ++ place m (n + 1) cs

variable {m m' : κ → List E} {n : ℕ} {cs : List κ} {e : E}

@[simp] theorem place_nil : place m n [] = [] := rfl

theorem place_append (m : κ → List E) (n : ℕ) (as bs : List κ) :
    place m n (as ++ bs) = place m n as ++ place m (n + as.length) bs := by
  induction as generalizing n with
  | nil => simp
  | cons a as ih =>
    simp only [List.cons_append, place, ih, List.append_assoc, List.length_cons]
    rw [show n + 1 + as.length = n + (as.length + 1) by omega]

/-- A mark lies at the address of the cell it marks. -/
theorem mem_place : e ∈ place m n cs ↔
    ∃ i c, cs[i]? = some c ∧ ∃ e₀ ∈ m c, e = withAddress e₀ (n + i) := by
  induction cs generalizing n with
  | nil => simp
  | cons c cs ih =>
    rw [place, List.mem_append, ih, List.mem_map]
    constructor
    · rintro (⟨e₀, he₀, rfl⟩ | ⟨i, c', hc', e₀, he₀, rfl⟩)
      · exact ⟨0, c, rfl, e₀, he₀, rfl⟩
      · exact ⟨i + 1, c', hc', e₀, he₀, by rw [show n + 1 + i = n + (i + 1) by omega]⟩
    · rintro ⟨i, c', hc', e₀, he₀, rfl⟩
      cases i with
      | zero =>
        cases hc'
        exact .inl ⟨e₀, he₀, rfl⟩
      | succ i =>
        exact .inr ⟨i, c', hc', e₀, he₀, by rw [show n + (i + 1) = n + 1 + i by omega]⟩

theorem address_of_mem_place (h : e ∈ place m n cs) :
    n ≤ address e ∧ address e < n + cs.length := by
  obtain ⟨i, c, hc, e₀, -, rfl⟩ := mem_place.mp h
  have hi := (List.getElem?_eq_some_iff.mp hc).1
  rw [Addressed.address_withAddress]
  omega

/-- Selecting the marks whose addresses satisfy a predicate that holds throughout. -/
theorem filter_place_of_forall {p : ℕ → Bool} (h : ∀ i, n ≤ i → i < n + cs.length → p i = true) :
    (place m n cs).filter (fun e => p (address e)) = place m n cs :=
  List.filter_eq_self.mpr fun _ he =>
    h _ (address_of_mem_place he).1 (address_of_mem_place he).2

/-- Selecting the marks whose addresses satisfy a predicate that fails throughout. -/
theorem filter_place_of_forall_not {p : ℕ → Bool}
    (h : ∀ i, n ≤ i → i < n + cs.length → p i = false) :
    (place m n cs).filter (fun e => p (address e)) = [] :=
  List.filter_eq_nil_iff.mpr fun _ he => by
    simp [h _ (address_of_mem_place he).1 (address_of_mem_place he).2]

/-- A map that takes the marks of each cell to the marks it has after a move takes the
marks of the sequence to its marks after the move. -/
theorem map_place {g : E → E} {n' : ℕ}
    (h : ∀ i c, cs[i]? = some c →
      ((m c).map (withAddress · (n + i))).map g = (m' c).map (withAddress · (n' + i))) :
    (place m n cs).map g = place m' n' cs := by
  induction cs generalizing n n' with
  | nil => rfl
  | cons c cs ih =>
    have h0 := h 0 c rfl
    rw [Nat.add_zero, Nat.add_zero] at h0
    rw [place, place, List.map_append, h0, ih]
    · intro i c' hc'
      rw [show n + 1 + i = n + (i + 1) by omega, show n' + 1 + i = n' + (i + 1) by omega]
      exact h (i + 1) c' hc'

theorem place_map {ι : Type*} (g : ι → κ) (is : List ι) :
    place m n (is.map g) = place (m ∘ g) n is := by
  induction is generalizing n with
  | nil => rfl
  | cons i is ih => rw [List.map_cons, place, place, ih, Function.comp_apply]

/-- A table whose addresses tell the cells apart, cell by cell. -/
theorem place_filter_perm (l : List E) (n : ℕ) :
    (place (fun i => l.filter (address · = i)) 0 (List.range n)).Perm
      (l.filter (address · < n)) := by
  induction n with
  | zero => simp
  | succ n ih =>
    rw [List.range_succ, place_append, List.length_range, Nat.zero_add]
    have hlast : place (fun i => l.filter (address · = i)) n [n] = l.filter (address · = n) := by
      rw [place, place_nil, List.append_nil]
      refine (List.map_congr_left fun e he => ?_).trans (List.map_id _)
      rw [id, ← decide_eq_true_iff.mp (List.mem_filter.mp he).2, Addressed.withAddress_address]
    rw [hlast]
    refine (ih.append_right _).trans ?_
    have hsplit := List.filter_append_perm (address · < n) (l.filter (address · < n + 1))
    rw [List.filter_filter, List.filter_filter] at hsplit
    refine List.Perm.trans (List.Perm.of_eq ?_) hsplit
    congr 1
    · refine List.filter_congr fun e _ => ?_
      rw [Bool.eq_iff_iff]
      simp
      omega
    · refine List.filter_congr fun e _ => ?_
      rw [Bool.eq_iff_iff]
      simp
      omega

/-- Where no cell has more than one mark the marks lie at different addresses. -/
theorem nodup_address_place (h : ∀ c ∈ cs, (m c).length ≤ 1) :
    ((place m n cs).map address).Nodup := by
  induction cs generalizing n with
  | nil => simp
  | cons c cs ih =>
    rw [List.forall_mem_cons] at h
    rw [place, List.map_append, List.nodup_append]
    refine ⟨?_, ih h.2, ?_⟩
    · match hc : m c with
      | [] => simp
      | [e] => simp
      | e :: e' :: es => simp [hc] at h
    · rintro a ha b hb rfl
      simp only [List.map_map, List.mem_map, Function.comp_apply,
        Addressed.address_withAddress] at ha hb
      obtain ⟨-, -, rfl⟩ := ha
      obtain ⟨e, he, hn⟩ := hb
      have := (address_of_mem_place he).1
      omega

end Place

end Marks
