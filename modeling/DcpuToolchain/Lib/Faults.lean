import Mathlib.Data.Option.Basic

/-!
# Computations that may go wrong

A computation that stops without a value has found out that there is none, or is itself at fault.
What it is for is a partial function: it is right (`Faults.Right`) if it gives the value, or stops
where there is none, and never by its own fault.

Under which condition it is right is settled part by part (`Faults.Settled`): a sequence is at fault
if its first part is, or if the second one is on what the first should give
(`Faults.Settled.bind`).
-/

namespace Faults

variable {ε α β : Type} {isFault : ε → Bool}

/-- A computation gives the value, or stops, and not by its own fault, if there is none. -/
def Right (isFault : ε → Bool) : Except ε α → Option α → Prop
  | .ok a, y => y = some a
  | .error e, y => isFault e = false ∧ y = none

/-- A computation stops by its own fault. -/
def Fails (isFault : ε → Bool) (x : Except ε α) : Prop := ∃ e, x = .error e ∧ isFault e = true

theorem Fails.not_right {x : Except ε α} {y : Option α} (h : Fails isFault x) :
    ¬ Right isFault x y := by
  obtain ⟨e, rfl, he⟩ := h
  rintro ⟨hright, -⟩
  rw [he] at hright
  cases hright

/-- **A computation is right under a condition**, and at fault without it. -/
structure Settled (isFault : ε → Bool) (C : Prop) (x : Except ε α) (y : Option α) : Prop where
  right : C → Right isFault x y
  fails : ¬ C → Fails isFault x

namespace Settled

variable {C D : Prop} {x : Except ε α} {y : Option α}

theorem right_iff (h : Settled isFault C x y) : Right isFault x y ↔ C :=
  ⟨fun hright => by_contra fun hC => (h.fails hC).not_right hright, h.right⟩

theorem congr (h : Settled isFault C x y) (hC : C ↔ D) : Settled isFault D x y :=
  ⟨fun hD => h.right (hC.mpr hD), fun hD => h.fails (hC.not.mpr hD)⟩

theorem ok (a : α) : Settled isFault True (.ok a) (some a) :=
  ⟨fun _ => rfl, fun h => absurd trivial h⟩

theorem stops {e : ε} (he : isFault e = false) :
    Settled isFault True (.error e : Except ε α) none :=
  ⟨fun _ => ⟨he, rfl⟩, fun h => absurd trivial h⟩

theorem fault {e : ε} (he : isFault e = true) : Settled isFault False (.error e) y :=
  ⟨False.elim, fun _ => ⟨e, rfl, he⟩⟩

/-- **What comes second** is settled for what comes first. -/
theorem bind {P : α → Prop} {f : α → Except ε β} {g : α → Option β}
    (h : Settled isFault C x y) (hf : ∀ a, y = some a → Settled isFault (P a) (f a) (g a)) :
    Settled isFault (C ∧ ∀ a, y = some a → P a) (x >>= f) (y.bind g) := by
  constructor
  · rintro ⟨hC, hP⟩
    have hright := h.right hC
    rcases x with e | a
    · obtain ⟨he, rfl⟩ := hright
      exact ⟨he, rfl⟩
    · obtain rfl : y = some a := hright
      exact (hf a rfl).right (hP a rfl)
  · intro hnot
    by_cases hC : C
    · obtain ⟨a, ha, hP⟩ : ∃ a, y = some a ∧ ¬ P a := by
        by_contra hall
        exact hnot ⟨hC, fun a ha => by_contra fun hP => hall ⟨a, ha, hP⟩⟩
      have hright := h.right hC
      rcases x with e | a'
      · rw [ha] at hright
        cases hright.2
      · obtain rfl : a = a' := Option.some.inj (ha.symm.trans hright)
        exact (hf a ha).fails hP
    · obtain ⟨e, rfl, he⟩ := h.fails hC
      exact ⟨e, rfl, he⟩

/-- A value is put in another form. -/
theorem map (h : Settled isFault C x y) (f : α → β) :
    Settled isFault C (x >>= fun a => pure (f a)) (y.map f) := by
  have hmap := h.bind (g := fun a => some (f a)) fun a _ => ok (f a)
  rw [Option.map_eq_bind]
  exact hmap.congr (and_iff_left fun _ _ => trivial)

end Settled

end Faults
