import Mathlib.Data.Fintype.EquivFin
import Mathlib.Logic.Function.Iterate

/-!
# Walks on a finite type

Following a function from a point either reaches a given set early or never: the
points before the first hit are pairwise different, so there are fewer of them than
the type has elements. A loop that follows such a walk needs no more fuel than that.
-/

namespace FiniteWalk

variable {α : Type*} {f : α → α} {p : α → Prop} {x : α}

/-- A walk that repeats itself has been everywhere it will be: a point two steps of
which coincide is followed by what was there before. -/
theorem iterate_shift {i j k : ℕ} (hij : i ≤ j) (hjk : j ≤ k) (h : f^[i] x = f^[j] x) :
    f^[k - (j - i)] x = f^[k] x := by
  have hk : k - (j - i) = (k - j) + i := by omega
  have hk' : k = (k - j) + j := by omega
  rw [hk, Function.iterate_add_apply, h, ← Function.iterate_add_apply, ← hk']

/-- Before the first hit no point comes twice. -/
theorem injOn_before_hit {n : ℕ} (hn : p (f^[n] x)) (hmin : ∀ m < n, ¬p (f^[m] x)) :
    Function.Injective fun i : Fin (n + 1) => f^[i] x := by
  have key : ∀ i j : ℕ, i < j → j ≤ n → f^[i] x ≠ f^[j] x := by
    intro i j hij hj h
    refine hmin (n - (j - i)) (by omega) ?_
    rw [iterate_shift hij.le hj h]
    exact hn
  intro i j hij
  rcases lt_trichotomy i j with hlt | heq | hlt
  · exact absurd hij (key i j hlt (by omega))
  · exact heq
  · exact absurd hij.symm (key j i hlt (by omega))

/-- **A walk that hits at all hits within the size of the type.** -/
theorem exists_hit_lt_card [Fintype α] (f : α → α) (p : α → Prop) (x : α)
    (h : ∃ n, p (f^[n] x)) : ∃ n < Fintype.card α, p (f^[n] x) ∧ ∀ m < n, ¬p (f^[m] x) := by
  classical
  refine ⟨Nat.find h, ?_, Nat.find_spec h, fun m hm => Nat.find_min h hm⟩
  have hinj := injOn_before_hit (Nat.find_spec h) fun m hm => Nat.find_min h hm
  have hcard := Fintype.card_le_of_injective _ hinj
  rw [Fintype.card_fin] at hcard
  omega

end FiniteWalk
