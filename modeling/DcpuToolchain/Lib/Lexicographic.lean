import Mathlib.Data.List.Basic
import Mathlib.Order.Lattice

/-!
# Lists in lexicographic order

Two lists agree up to the first place where one of them ends or they differ
(`Lexicographic.common`). What is there decides the lexicographic order
(`Lexicographic.map_lt_map_iff`), also of the first so many values
(`Lexicographic.map_take_lt_iff`).
-/

namespace Lexicographic

variable {α β : Type*} [DecidableEq α] {s t : List α}

/-- How long two lists agree. -/
def common : List α → List α → ℕ
  | a :: s, b :: t => if a = b then common s t + 1 else 0
  | _, _ => 0

@[simp] theorem common_nil_left (t : List α) : common [] t = 0 := by
  cases t <;> rfl

@[simp] theorem common_nil_right (s : List α) : common s [] = 0 := by
  cases s <;> rfl

theorem common_cons_self (a : α) (s t : List α) : common (a :: s) (a :: t) = common s t + 1 :=
  if_pos rfl

theorem common_cons_of_ne {a b : α} (h : a ≠ b) (s t : List α) : common (a :: s) (b :: t) = 0 :=
  if_neg h

theorem common_comm (s t : List α) : common s t = common t s := by
  induction s generalizing t with
  | nil => rw [common_nil_left, common_nil_right]
  | cons a s ih =>
    cases t with
    | nil => rfl
    | cons b t =>
      by_cases hab : a = b
      · rw [hab, common_cons_self, common_cons_self, ih]
      · rw [common_cons_of_ne hab, common_cons_of_ne (Ne.symm hab)]

theorem common_le_length (s t : List α) : common s t ≤ s.length := by
  induction s generalizing t with
  | nil => exact common_nil_left t ▸ Nat.zero_le _
  | cons a s ih =>
    cases t with
    | nil => exact Nat.zero_le _
    | cons b t =>
      by_cases hab : a = b
      · rw [hab, common_cons_self]
        exact Nat.succ_le_succ (ih t)
      · rw [common_cons_of_ne hab]
        exact Nat.zero_le _

@[simp] theorem common_self (s : List α) : common s s = s.length := by
  induction s with
  | nil => rfl
  | cons a s ih => rw [common_cons_self, ih, List.length_cons]

/-- Before, the lists agree. -/
theorem getElem?_of_lt_common {i : ℕ} (h : i < common s t) : s[i]? = t[i]? := by
  induction s generalizing t i with
  | nil =>
    rw [common_nil_left] at h
    exact absurd h (Nat.not_lt_zero _)
  | cons a s ih =>
    cases t with
    | nil => exact absurd h (Nat.not_lt_zero _)
    | cons b t =>
      by_cases hab : a = b
      · subst hab
        rw [common_cons_self] at h
        cases i with
        | zero => rfl
        | succ i => exact ih (Nat.lt_of_succ_lt_succ h)
      · rw [common_cons_of_ne hab] at h
        exact absurd h (Nat.not_lt_zero _)

/-- There, the lists differ unless they are the same. -/
theorem getElem?_common_eq_iff : s[common s t]? = t[common s t]? ↔ s = t := by
  constructor
  · intro h
    induction s generalizing t with
    | nil =>
      cases t with
      | nil => rfl
      | cons b t => cases h
    | cons a s ih =>
      cases t with
      | nil => cases h
      | cons b t =>
        by_cases hab : a = b
        · subst hab
          rw [common_cons_self] at h
          rw [ih h]
        · rw [common_cons_of_ne hab] at h
          exact absurd (Option.some.inj h) hab
  · rintro rfl
    rfl

theorem common_take (n : ℕ) (s t : List α) :
    common (s.take n) (t.take n) = min (common s t) n := by
  induction n generalizing s t with
  | zero => rw [List.take_zero, common_nil_left, Nat.min_zero]
  | succ n ih =>
    cases s with
    | nil => rw [List.take_nil, common_nil_left, common_nil_left, Nat.zero_min]
    | cons a s =>
      cases t with
      | nil => rw [List.take_nil, common_nil_right, common_nil_right, Nat.zero_min]
      | cons b t =>
        rw [List.take_succ_cons, List.take_succ_cons]
        by_cases hab : a = b
        · rw [hab, common_cons_self, common_cons_self, ih, Nat.add_min_add_right]
        · rw [common_cons_of_ne hab, common_cons_of_ne hab, Nat.zero_min]

/-- Up to the place the beginnings are the same. -/
theorem take_eq_iff {n : ℕ} : s.take n = t.take n ↔ s = t ∨ n ≤ common s t := by
  constructor
  · intro h
    by_contra hnot
    obtain ⟨hne, hlt⟩ := not_or.mp hnot
    have hcommon : (s.take n)[common s t]? = (t.take n)[common s t]? := by rw [h]
    rw [List.getElem?_take_of_lt (by omega), List.getElem?_take_of_lt (by omega),
      getElem?_common_eq_iff] at hcommon
    exact hne hcommon
  · rintro (rfl | hle)
    · rfl
    · refine List.ext_getElem? fun i => ?_
      rw [List.getElem?_take, List.getElem?_take]
      split
      · exact getElem?_of_lt_common (by omega)
      · rfl

section Order

variable [LinearOrder β] {f : α → β}

/-- **What is at the place** where the lists part decides: the list that goes on there, or goes on
with more, is the greater. -/
theorem map_lt_map_iff (hf : f.Injective) :
    s.map f < t.map f ↔
      ∃ b, t[common s t]? = some b ∧ ∀ a, s[common s t]? = some a → f a < f b := by
  induction s generalizing t with
  | nil =>
    cases t with
    | nil => exact iff_of_false (List.not_lt_nil _) fun ⟨_, h, _⟩ => by cases h
    | cons b t => exact iff_of_true (List.nil_lt_cons _ _) ⟨b, rfl, nofun⟩
  | cons a s ih =>
    cases t with
    | nil => exact iff_of_false (List.not_lt_nil _) fun ⟨_, h, _⟩ => by cases h
    | cons b t =>
      rw [List.map_cons, List.map_cons, List.cons_lt_cons_iff]
      by_cases hab : a = b
      · subst hab
        rw [common_cons_self, List.getElem?_cons_succ, List.getElem?_cons_succ, ← ih]
        exact ⟨fun h => h.elim (fun hlt => absurd hlt (lt_irrefl _)) And.right,
          fun h => .inr ⟨rfl, h⟩⟩
      · rw [common_cons_of_ne hab]
        constructor
        · rintro (hlt | ⟨heq, -⟩)
          · exact ⟨b, rfl, by rintro _ ⟨⟩; exact hlt⟩
          · exact absurd (hf heq) hab
        · rintro ⟨_, ⟨⟩, hlt⟩
          exact .inl (hlt a rfl)

/-- The first so many values, if the place is among them. -/
theorem map_take_lt_iff (hf : f.Injective) {n : ℕ} (hn : common s t < n) :
    (s.take n).map f < (t.take n).map f ↔
      ∃ b, t[common s t]? = some b ∧ ∀ a, s[common s t]? = some a → f a < f b := by
  rw [map_lt_map_iff hf, common_take, Nat.min_eq_left (Nat.le_of_lt hn),
    List.getElem?_take_of_lt hn, List.getElem?_take_of_lt hn]

end Order

end Lexicographic
