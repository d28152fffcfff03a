import Mathlib.Data.Nat.Digits.Lemmas
import Mathlib.Tactic.LinearCombination

/-!
# Sums and differences, digit by digit

Two numbers in base `B` are added or subtracted from the lowest digits on: each column takes
its two digits and what is carried into it, and leaves a digit and what is carried out of it.
The carry is an integer, so that a borrow is a carry of `-1`, and `δ` says whether the second
digit is added (`1`) or subtracted (`-1`). The digits that are left are the sum or difference
modulo a power of the base, and what is carried out at the end is the quotient by it
(`Carry.Columns.ofDigits_eq`, `Carry.Columns.carry_eq`).
-/

namespace Carry

/-- One column: the digits `x` and `y` and the carry `c` become the digit `z` and the
carry `c'`. -/
structure Column (B : ℕ) (δ : ℤ) (c : ℤ) (x y z : ℕ) (c' : ℤ) : Prop where
  lt : z < B
  sum : (z : ℤ) + B * c' = x + δ * y + c

/-- A chain of columns, each taking the carry that the one before it leaves. -/
inductive Columns (B : ℕ) (δ : ℤ) : ℤ → List ℕ → List ℕ → List ℕ → ℤ → Prop
  | nil {c : ℤ} : Columns B δ c [] [] [] c
  | cons {c c' c'' : ℤ} {x y z : ℕ} {xs ys zs : List ℕ} (head : Column B δ c x y z c')
      (tail : Columns B δ c' xs ys zs c'') :
      Columns B δ c (x :: xs) (y :: ys) (z :: zs) c''

variable {B : ℕ} {δ c c' : ℤ} {xs ys zs : List ℕ}

namespace Columns

theorem length_eq (h : Columns B δ c xs ys zs c') : zs.length = xs.length := by
  induction h with
  | nil => rfl
  | cons _ _ ih => simp only [List.length_cons, ih]

theorem lt_base (h : Columns B δ c xs ys zs c') : ∀ z ∈ zs, z < B := by
  induction h with
  | nil => simp
  | cons head _ ih => exact List.forall_mem_cons.mpr ⟨head.lt, ih⟩

/-- **Nothing is lost in a chain**: the digits it leaves and the carry out of it make up
the sum or difference. -/
theorem total (h : Columns B δ c xs ys zs c') :
    ((Nat.ofDigits B zs : ℕ) : ℤ) + (B : ℤ) ^ xs.length * c' =
      ((Nat.ofDigits B xs : ℕ) : ℤ) + δ * ((Nat.ofDigits B ys : ℕ) : ℤ) + c := by
  induction h with
  | nil => simp
  | cons head tail ih =>
    have hsum := head.sum
    simp only [Nat.ofDigits_cons, List.length_cons, pow_succ, Nat.cast_add,
      Nat.cast_mul]
    linear_combination hsum + (B : ℤ) * ih

/-- What a chain leaves is below the next power of the base. -/
theorem ofDigits_lt (h : Columns B δ c xs ys zs c') (hB : 1 < B) :
    ((Nat.ofDigits B zs : ℕ) : ℤ) < (B : ℤ) ^ xs.length := by
  have hlt := Nat.ofDigits_lt_base_pow_length hB h.lt_base
  rw [h.length_eq] at hlt
  exact_mod_cast hlt

/-- **The digits a chain leaves** are the sum or difference modulo a power of the base. -/
theorem ofDigits_eq (h : Columns B δ c xs ys zs c') (hB : 1 < B) :
    ((Nat.ofDigits B zs : ℕ) : ℤ) =
      (((Nat.ofDigits B xs : ℕ) : ℤ) + δ * ((Nat.ofDigits B ys : ℕ) : ℤ) + c) %
        (B : ℤ) ^ xs.length := by
  rw [← h.total, Int.add_mul_emod_self_left]
  exact (Int.emod_eq_of_lt (Int.natCast_nonneg _) (h.ofDigits_lt hB)).symm

/-- **The carry out of a chain** is the quotient by that power. -/
theorem carry_eq (h : Columns B δ c xs ys zs c') (hB : 1 < B) :
    c' = (((Nat.ofDigits B xs : ℕ) : ℤ) + δ * ((Nat.ofDigits B ys : ℕ) : ℤ) + c) /
      (B : ℤ) ^ xs.length := by
  have hlt := h.ofDigits_lt hB
  have hpos : (B : ℤ) ^ xs.length ≠ 0 := (lt_of_le_of_lt (Int.natCast_nonneg _) hlt).ne'
  rw [← h.total, Int.add_mul_ediv_left _ _ hpos,
    Int.ediv_eq_zero_of_lt (Int.natCast_nonneg _) hlt, zero_add]

end Columns

end Carry
