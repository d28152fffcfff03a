import Mathlib.Algebra.Group.Nat.Defs
import Mathlib.Data.List.Basic
import Mathlib.Logic.Function.Basic

/-!
# Cells and pointers

A memory is a function from addresses, which are words of some width, to what is in the cells.
Pointers wrap around: the address so many cells on is `Cells.ahead`.

`Cells.Filled` is about what is found from a pointer on, and `Cells.Written` about what has been
written there, with everything else as it was. What is written piece by piece is written as a whole
(`Cells.Written.append`), also if a piece begins where the one before has left a mark for its end
(`Cells.Written.overwrite`). A text that is terminated by a zero is a structure of its own
(`Cells.Text`).
-/

namespace Cells

variable {w : ℕ} {β : Type*}

/-! ### Pointers -/

/-- The address so many cells on. -/
def ahead (p : BitVec w) (i : ℕ) : BitVec w := p + BitVec.ofNat w i

@[simp] theorem ahead_zero (p : BitVec w) : ahead p 0 = p := BitVec.add_zero p

theorem ahead_ahead (p : BitVec w) (i j : ℕ) : ahead (ahead p i) j = ahead p (i + j) := by
  rw [ahead, ahead, ahead, BitVec.add_assoc, BitVec.ofNat_add]

theorem add_one_eq (p : BitVec w) : p + 1 = ahead p 1 := rfl

theorem ahead_add_one (p : BitVec w) (i : ℕ) : ahead p i + 1 = ahead p (i + 1) := by
  rw [add_one_eq, ahead_ahead]

theorem ahead_succ_sub_one (p : BitVec w) (i : ℕ) : ahead p (i + 1) - 1 = ahead p i := by
  rw [← ahead_add_one, BitVec.add_sub_cancel]

theorem ahead_sub_one_succ (p : BitVec w) (i : ℕ) : ahead (p - 1) (i + 1) = ahead p i := by
  rw [Nat.add_comm, ← ahead_ahead, ← add_one_eq, BitVec.sub_add_cancel]

theorem ahead_eq_iff {p : BitVec w} {i j : ℕ} : ahead p i = ahead p j ↔ i % 2 ^ w = j % 2 ^ w := by
  rw [ahead, ahead, BitVec.add_right_inj, ← BitVec.toNat_inj, BitVec.toNat_ofNat,
    BitVec.toNat_ofNat]

theorem ahead_inj {p : BitVec w} {i j : ℕ} (hi : i < 2 ^ w) (hj : j < 2 ^ w) :
    ahead p i = ahead p j ↔ i = j := by
  rw [ahead_eq_iff, Nat.mod_eq_of_lt hi, Nat.mod_eq_of_lt hj]

theorem ahead_eq_self_iff {p : BitVec w} {i : ℕ} : ahead p i = p ↔ i % 2 ^ w = 0 := by
  conv_lhs => rhs; rw [← ahead_zero p]
  rw [ahead_eq_iff, Nat.zero_mod]

/-- Every address is so many cells ahead. -/
theorem exists_ahead (p a : BitVec w) : ∃ i < 2 ^ w, a = ahead p i := by
  refine ⟨(a - p).toNat, (a - p).isLt, ?_⟩
  rw [ahead, BitVec.ofNat_toNat, BitVec.setWidth_eq, BitVec.add_comm, BitVec.sub_add_cancel]

/-! ### What is found -/

/-- The values are in the cells from a pointer on. -/
def Filled (m : BitVec w → β) (p : BitVec w) (l : List β) : Prop :=
  ∀ i c, l[i]? = some c → m (ahead p i) = c

variable {m m' m'' : BitVec w → β} {p : BitVec w} {l l' : List β} {c c' : β}

theorem filled_nil : Filled m p [] := nofun

theorem filled_append :
    Filled m p (l ++ l') ↔ Filled m p l ∧ Filled m (ahead p l.length) l' := by
  constructor
  · intro h
    refine ⟨fun i c hc => h i c ?_, fun i c hc => ?_⟩
    · rw [List.getElem?_append_left (List.getElem?_eq_some_iff.mp hc).1]
      exact hc
    · rw [ahead_ahead]
      refine h _ c ?_
      rw [List.getElem?_append_right (Nat.le_add_right _ _), Nat.add_sub_cancel_left]
      exact hc
  · rintro ⟨h, h'⟩ i c hc
    rcases Nat.lt_or_ge i l.length with hi | hi
    · rw [List.getElem?_append_left hi] at hc
      exact h i c hc
    · rw [List.getElem?_append_right hi] at hc
      have hcell := h' _ c hc
      rwa [ahead_ahead, Nat.add_sub_cancel' hi] at hcell

theorem filled_singleton : Filled m p [c] ↔ m p = c := by
  constructor
  · intro h
    have hcell := h 0 c rfl
    rwa [ahead_zero] at hcell
  · rintro hcell i c' hc
    cases i with
    | zero => rw [ahead_zero, hcell, ← Option.some.inj hc]
    | succ i => cases hc

theorem filled_cons : Filled m p (c :: l) ↔ m p = c ∧ Filled m (p + 1) l := by
  rw [← List.singleton_append, filled_append, filled_singleton]
  rfl

/-- Only the cells themselves matter. -/
theorem Filled.congr (h : Filled m p l) (hcells : ∀ i < l.length, m' (ahead p i) = m (ahead p i)) :
    Filled m' p l := fun i c hc =>
  (hcells i (List.getElem?_eq_some_iff.mp hc).1).trans (h i c hc)

/-! ### What is written -/

/-- The values have been written from a pointer on, and nothing else. -/
structure Written (m m' : BitVec w → β) (p : BitVec w) (l : List β) : Prop where
  filled : Filled m' p l
  others : ∀ a, (∀ i < l.length, a ≠ ahead p i) → m' a = m a

namespace Written

theorem nil (m : BitVec w → β) (p : BitVec w) : Written m m p [] := ⟨filled_nil, fun _ _ => rfl⟩

theorem update [DecidableEq (BitVec w)] (m : BitVec w → β) (p : BitVec w) (c : β) :
    Written m (Function.update m p c) p [c] := by
  refine ⟨filled_singleton.mpr (Function.update_self p c m), fun a ha => ?_⟩
  have hne := ha 0 Nat.zero_lt_one
  rw [ahead_zero] at hne
  exact Function.update_of_ne hne c m

/-- **What is written in two pieces**, the second where the first has ended. -/
theorem append (h : Written m m' p l) (h' : Written m' m'' (ahead p l.length) l')
    (hroom : l.length + l'.length ≤ 2 ^ w) : Written m m'' p (l ++ l') := by
  refine ⟨filled_append.mpr ⟨h.filled.congr fun i hi => h'.others _ fun j hj => ?_, h'.filled⟩,
    fun a ha => ?_⟩
  · rw [ahead_ahead, Ne, ahead_inj (by omega) (by omega)]
    omega
  · rw [List.length_append] at ha
    rw [h'.others a fun j hj => ?_, h.others a fun i hi => ha i (by omega)]
    rw [ahead_ahead]
    exact ha _ (by omega)

/-- The second of two pieces may also be written first. -/
theorem precede (h : Written m m' (ahead p l.length) l') (h' : Written m' m'' p l)
    (hroom : l.length + l'.length ≤ 2 ^ w) : Written m m'' p (l ++ l') := by
  refine ⟨filled_append.mpr ⟨h'.filled, h.filled.congr fun j hj => h'.others _ fun i hi => ?_⟩,
    fun a ha => ?_⟩
  · rw [ahead_ahead, Ne, ahead_inj (by omega) (by omega)]
    omega
  · rw [List.length_append] at ha
    rw [h'.others a fun i hi => ha i (by omega), h.others a fun j hj => ?_]
    rw [ahead_ahead]
    exact ha _ (by omega)

/-- The cell behind what is written is as it was. -/
theorem extend (h : Written m m' p l) (hroom : l.length < 2 ^ w) :
    Written m m' p (l ++ [m (ahead p l.length)]) := by
  refine ⟨filled_append.mpr ⟨h.filled, filled_singleton.mpr (h.others _ fun i hi => ?_)⟩,
    fun a ha => h.others a fun i hi => ha i ?_⟩
  · rw [Ne, ahead_inj hroom (by omega)]
    omega
  · rw [List.length_append]
    omega

/-- **What is written over the mark** that the piece before has left behind its end. -/
theorem overwrite (h : Written m m' p (l ++ [c])) (h' : Written m' m'' (ahead p l.length) l')
    (hne : l' ≠ []) (hroom : l.length + l'.length ≤ 2 ^ w) : Written m m'' p (l ++ l') := by
  have hpos := List.length_pos_iff.mpr hne
  obtain ⟨hfilled, -⟩ := filled_append.mp h.filled
  refine ⟨filled_append.mpr ⟨hfilled.congr fun i hi => h'.others _ fun j hj => ?_, h'.filled⟩,
    fun a ha => ?_⟩
  · rw [ahead_ahead, Ne, ahead_inj (by omega) (by omega)]
    omega
  · rw [List.length_append] at ha
    rw [h'.others a fun j hj => ?_, h.others a fun i hi => ha i ?_]
    · rw [List.length_append, List.length_singleton] at hi
      omega
    · rw [ahead_ahead]
      exact ha _ (by omega)

end Written

/-! ### Texts -/

/-- A text in memory: what is in the cells from a pointer on, up to the first zero. -/
structure Text [Zero β] (m : BitVec w → β) (p : BitVec w) where
  chars : List β
  length_lt : chars.length < 2 ^ w
  filled : Filled m p (chars ++ [0])
  nonzero : 0 ∉ chars

namespace Text

variable [Zero β] (s : Text m p)

theorem char {i : ℕ} (hi : i < s.chars.length) : m (ahead p i) = s.chars[i] :=
  (filled_append.mp s.filled).1 i _ (List.getElem?_eq_getElem hi)

theorem char_ne_zero {i : ℕ} (hi : i < s.chars.length) : m (ahead p i) ≠ 0 := by
  rw [s.char hi]
  exact fun hzero => s.nonzero (hzero ▸ List.getElem_mem hi)

theorem terminator : m (ahead p s.chars.length) = 0 :=
  filled_singleton.mp (filled_append.mp s.filled).2

theorem eq_nil_iff : s.chars = [] ↔ m p = 0 := by
  constructor
  · intro h
    have hend := s.terminator
    rwa [h, List.length_nil, ahead_zero] at hend
  · intro h
    by_contra hne
    refine s.char_ne_zero (List.length_pos_iff.mpr hne) ?_
    rwa [ahead_zero]

/-- The cells of a text, with the zero. -/
theorem getD {i : ℕ} (hi : i ≤ s.chars.length) : m (ahead p i) = s.chars.getD i 0 := by
  rcases Nat.lt_or_eq_of_le hi with hlt | rfl
  · rw [s.char hlt, List.getD_eq_getElem?_getD, List.getElem?_eq_getElem hlt, Option.getD_some]
  · rw [s.terminator, List.getD_eq_getElem?_getD, List.getElem?_eq_none (Nat.le_refl _),
      Option.getD_none]

end Text

end Cells
