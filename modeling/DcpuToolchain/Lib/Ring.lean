import Mathlib.Data.List.Basic
import Mathlib.Logic.Function.Basic

/-!
# Ring buffers

A queue in an array of `n` elements: a reading index, a writing index, and what is in the array
from the one to the other, around its end (`Ring.contents`). One element is always free, so
that equal indices mean that there is nothing. Reading takes the oldest element
(`Ring.contents_pop`), writing adds one (`Ring.contents_push`), and writing over the last free
element gives up the oldest (`Ring.contents_push_full`).
-/

namespace Ring

variable {α : Type*} {n : ℕ}

/-- How many elements there are from one index to another. -/
def held (n r w : ℕ) : ℕ := if r ≤ w then w - r else n + w - r

/-- What is in the array from one index to another, oldest first. -/
def contents (n : ℕ) (f : ℕ → α) (r w : ℕ) : List α :=
  (List.range (held n r w)).map fun i => f ((r + i) % n)

theorem length_contents (f : ℕ → α) (r w : ℕ) : (contents n f r w).length = held n r w := by
  rw [contents, List.length_map, List.length_range]

theorem contents_self (f : ℕ → α) (r : ℕ) : contents n f r r = [] := by
  rw [contents, held, if_pos (Nat.le_refl r), Nat.sub_self]
  rfl

theorem held_lt {r w : ℕ} (hr : r < n) (hw : w < n) : held n r w < n := by
  unfold held
  split <;> omega

theorem succ_mod {i : ℕ} (h : i < n) : (i + 1) % n = if i + 1 = n then 0 else i + 1 := by
  split
  · rename_i heq
    rw [heq, Nat.mod_self]
  · exact Nat.mod_eq_of_lt (by omega)

theorem held_pop {r w : ℕ} (hr : r < n) (hw : w < n) (h : r ≠ w) :
    held n r w = held n ((r + 1) % n) w + 1 := by
  rw [succ_mod hr]
  unfold held
  split_ifs <;> omega

theorem held_push {r w : ℕ} (hr : r < n) (hw : w < n) (h : (w + 1) % n ≠ r) :
    held n r ((w + 1) % n) = held n r w + 1 := by
  rw [succ_mod hw] at h ⊢
  unfold held
  split_ifs at h ⊢ <;> omega

/-- Where the writing index would meet the reading index, only one element is free. -/
theorem held_full {r w : ℕ} (hr : r < n) (hw : w < n) : (w + 1) % n = r ↔ held n r w + 1 = n := by
  rw [succ_mod hw]
  unfold held
  split_ifs <;> omega

/-- The place behind the contents is that of the writing index. -/
theorem add_held {r w : ℕ} (hr : r < n) (hw : w < n) : (r + held n r w) % n = w := by
  unfold held
  split
  · rw [show r + (w - r) = w by omega, Nat.mod_eq_of_lt hw]
  · rw [show r + (n + w - r) = n + w by omega, Nat.add_mod_left, Nat.mod_eq_of_lt hw]

/-- **Reading takes the oldest element**. -/
theorem contents_pop (f : ℕ → α) {r w : ℕ} (hr : r < n) (hw : w < n) (h : r ≠ w) :
    contents n f r w = f r :: contents n f ((r + 1) % n) w := by
  have hshift : ∀ i, (r + (i + 1)) % n = ((r + 1) % n + i) % n := by
    intro i
    rw [Nat.mod_add_mod, Nat.add_right_comm, Nat.add_assoc]
  rw [contents, held_pop hr hw h, List.range_succ_eq_map, List.map_cons, Nat.add_zero,
    Nat.mod_eq_of_lt hr, List.map_map, contents]
  exact congrArg (f r :: ·) (List.map_congr_left fun i _ => congrArg f (hshift i))

/-- What is in front of the writing index is not written over. -/
theorem contents_update (f : ℕ → α) (x : α) {r w : ℕ} (hr : r < n) (hw : w < n) :
    contents n (Function.update f w x) r w = contents n f r w := by
  refine List.map_congr_left fun i hi => Function.update_of_ne ?_ x f
  rw [List.mem_range] at hi
  intro heq
  have hlt := held_lt hr hw
  unfold held at hi hlt
  rcases Nat.lt_or_ge (r + i) n with hlow | hhigh
  · rw [Nat.mod_eq_of_lt hlow] at heq
    split at hi <;> omega
  · rw [Nat.mod_eq_sub_mod hhigh, Nat.mod_eq_of_lt (by split at hi <;> omega)] at heq
    split at hi <;> omega

/-- **Writing adds an element**, where there is room. -/
theorem contents_push (f : ℕ → α) (x : α) {r w : ℕ} (hr : r < n) (hw : w < n)
    (h : (w + 1) % n ≠ r) :
    contents n (Function.update f w x) r ((w + 1) % n) = contents n f r w ++ [x] := by
  rw [contents, held_push hr hw h, List.range_succ, List.map_append, List.map_singleton,
    add_held hr hw, Function.update_self]
  exact congrArg (· ++ [x]) (contents_update f x hr hw)

/-- **Writing gives up the oldest element**, where there is no room. -/
theorem contents_push_full (f : ℕ → α) (x : α) {r w : ℕ} (hn : 1 < n) (hw : w < n)
    (h : (w + 1) % n = r) :
    contents n (Function.update f w x) ((r + 1) % n) ((w + 1) % n) =
      (contents n f r w).tail ++ [x] := by
  have hr : r < n := h ▸ Nat.mod_lt _ (by omega)
  have hne : r ≠ w := by
    rw [← h, succ_mod hw]
    split <;> omega
  have hroom : (w + 1) % n ≠ (r + 1) % n := by
    rw [h, succ_mod hr]
    split <;> omega
  rw [contents_push f x (Nat.mod_lt _ (by omega)) hw hroom, contents_pop f hr hw hne,
    List.tail_cons]

end Ring
