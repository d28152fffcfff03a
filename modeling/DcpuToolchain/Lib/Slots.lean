import Mathlib.Data.List.Nodup

/-!
# Tables of slots

A table has a fixed number of slots, each free or in use. Whoever wants a slot is given the first
one that is free (`Slots.firstFree`), and gives it back by its number.

Who holds which slot is not in the table. It is right about its holders (`Slots.Holds`) if they have
different slots, with what they put there. Taking the first free slot keeps the table right
(`Slots.Holds.take`), and giving a slot back does exactly if it is nobody else's
(`Slots.Holds.release_iff`).
-/

namespace Slots

variable {κ σ : Type*}

/-- The first slot that is free, or the number of slots. -/
def firstFree (free : σ → Bool) (slots : List σ) : ℕ := slots.findIdx free

/-- Who holds a slot, and what was put there. -/
structure Holder (κ σ : Type*) where
  who : κ
  slot : ℕ
  value : σ
  deriving DecidableEq, Repr

/-- **A table is right about its holders**: they have different slots, in which there is what they
put there. -/
structure Holds (free : σ → Bool) (slots : List σ) (holders : List (Holder κ σ)) : Prop where
  nodup : (holders.map Holder.slot).Nodup
  values : ∀ h ∈ holders, slots[h.slot]? = some h.value
  used : ∀ h ∈ holders, free h.value = false

variable {free : σ → Bool} {slots : List σ} {holders : List (Holder κ σ)}

theorem firstFree_le (free : σ → Bool) (slots : List σ) : firstFree free slots ≤ slots.length :=
  List.findIdx_le_length

theorem firstFree_eq_length : firstFree free slots = slots.length ↔ ∀ x ∈ slots, free x = false :=
  List.findIdx_eq_length

/-- The slot that is found is free. -/
theorem free_firstFree {x : σ} (h : slots[firstFree free slots]? = some x) : free x = true :=
  List.findIdx_of_getElem?_eq_some h

/-- A table without holders is right. -/
theorem holds_nil (free : σ → Bool) (slots : List σ) : Holds free slots ([] : List (Holder κ σ)) :=
  ⟨List.nodup_nil, fun _ h => absurd h List.not_mem_nil, fun _ h => absurd h List.not_mem_nil⟩

namespace Holds

/-- A holder's slot is in the table. -/
theorem slot_lt (h : Holds free slots holders) {t : Holder κ σ} (ht : t ∈ holders) :
    t.slot < slots.length := by
  by_contra hle
  have hvalue := h.values t ht
  rw [List.getElem?_eq_none (Nat.le_of_not_lt hle)] at hvalue
  cases hvalue

/-- The first free slot is nobody's. -/
theorem slot_ne_firstFree (h : Holds free slots holders) {t : Holder κ σ} (ht : t ∈ holders) :
    t.slot ≠ firstFree free slots := by
  intro heq
  have hvalue := h.values t ht
  rw [heq] at hvalue
  have hused := h.used t ht
  rw [free_firstFree hvalue] at hused
  cases hused

/-- Holders with the same slot are the same. -/
theorem eq_of_slot_eq (h : Holds free slots holders) {t u : Holder κ σ} (ht : t ∈ holders)
    (hu : u ∈ holders) (heq : t.slot = u.slot) : t = u :=
  List.inj_on_of_nodup_map h.nodup ht hu heq

/-- **Taking the first free slot** leaves everyone's slot alone. -/
theorem take (h : Holds free slots holders) (hroom : firstFree free slots < slots.length) {x : σ}
    (hx : free x = false) (k : κ) :
    Holds free (slots.set (firstFree free slots) x)
      (holders ++ [⟨k, firstFree free slots, x⟩]) := by
  refine ⟨?_, ?_, ?_⟩
  · rw [List.map_append, List.map_singleton, List.nodup_append]
    refine ⟨h.nodup, List.nodup_singleton _, ?_⟩
    rintro i hi j hj
    obtain ⟨t, ht, rfl⟩ := List.mem_map.mp hi
    rw [List.mem_singleton.mp hj]
    exact h.slot_ne_firstFree ht
  · rw [List.forall_mem_append]
    refine ⟨fun t ht => ?_, fun t ht => ?_⟩
    · rw [List.getElem?_set_ne (h.slot_ne_firstFree ht).symm]
      exact h.values t ht
    · rw [List.mem_singleton.mp ht]
      exact List.getElem?_set_self hroom
  · rw [List.forall_mem_append]
    refine ⟨h.used, fun t ht => ?_⟩
    rw [List.mem_singleton.mp ht]
    exact hx

variable [DecidableEq κ]

/-- **Giving a slot back** keeps the table right exactly if no one else holds the slot. -/
theorem release_iff (h : Holds free slots holders) {e : σ} (he : free e = true) (i : ℕ) (k : κ) :
    Holds free (slots.set i e) (holders.filter (·.who ≠ k)) ↔
      ∀ t ∈ holders, t.slot = i → t.who = k := by
  constructor
  · rintro h' t ht rfl
    by_contra hne
    have hstays : t ∈ holders.filter (·.who ≠ k) := List.mem_filter.mpr ⟨ht, decide_eq_true hne⟩
    have hvalue := h'.values t hstays
    rw [List.getElem?_set_self (h.slot_lt ht)] at hvalue
    have hused := h.used t ht
    rw [← Option.some.inj hvalue, he] at hused
    cases hused
  · intro hmine
    refine ⟨h.nodup.sublist (List.filter_sublist.map _), fun t ht => ?_, fun t ht => ?_⟩
    · obtain ⟨ht, hne⟩ := List.mem_filter.mp ht
      rw [List.getElem?_set_ne fun heq => of_decide_eq_true hne (hmine t ht heq.symm)]
      exact h.values t ht
    · exact h.used t (List.mem_filter.mp ht).1

end Holds

end Slots
