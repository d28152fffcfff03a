import Mathlib.Data.Finset.Lattice.Fold
import Mathlib.Data.Set.Finite.Basic
import Mathlib.Order.Interval.Set.Basic
import Mathlib.Order.Preorder.Finite

/-!
# Nested calls

A machine has some amount of work left. In some of its states it makes a call, which puts
more work in front of a part of what is left; the call is open for as long as nothing of
that part is taken up (`Nesting.Open`).

If the machine gets somewhere between any two calls (`Nesting.Progress`), it halts exactly
if its calls are nested to a bounded depth (`Nesting.halts_iff`): of a run for ever, any
state in which as little is left as ever will be is followed by a call that stays open.
-/

namespace Nesting

variable {σ β : Type*} (step : σ → Option σ) (left : σ → ℕ) (call : σ → Option ℕ) (s : σ)

/-- The state after a number of steps. -/
def stateAt : ℕ → Option σ
  | 0 => some s
  | n + 1 => (stateAt n).bind step

/-- The call that is made at time `k` is open at time `n`: since then, at least what was
behind the call is left. -/
def Open (n k : ℕ) : Prop :=
  ∃ t behind, stateAt step s k = some t ∧ call t = some behind ∧
    ∀ m, k < m → m ≤ n → ∀ u, stateAt step s m = some u → behind ≤ left u

open Classical in
/-- How many calls are open. -/
noncomputable def depth (n : ℕ) : ℕ :=
  ((Finset.range n).filter (Open step left call s n)).card

/-- Without a call nothing is put in front and a measure decreases, and a call does not put
behind it more than is left. -/
structure Progress [Preorder β] (measure : σ → β) : Prop where
  left_le : ∀ {s t}, call s = none → step s = some t → left t ≤ left s
  measure_lt : ∀ {s t}, call s = none → step s = some t → measure t < measure s
  behind_le : ∀ {s behind}, call s = some behind → behind ≤ left s

variable {step left call s}

theorem stateAt_none {n m : ℕ} (hn : stateAt step s n = none) (hm : n ≤ m) :
    stateAt step s m = none := by
  induction m, hm using Nat.le_induction with
  | base => exact hn
  | succ m _ ih => rw [stateAt, ih, Option.bind_none]

/-- A machine that has halted has made no more calls than steps. -/
theorem depth_le_of_halts {n : ℕ} (hn : stateAt step s n = none) (m : ℕ) :
    depth step left call s m ≤ n := by
  classical
  have hsub : (Finset.range m).filter (Open step left call s m) ⊆ Finset.range n := by
    intro k hk
    obtain ⟨t, _, ht, -⟩ := (Finset.mem_filter.mp hk).2
    rw [Finset.mem_range]
    by_contra hle
    rw [stateAt_none hn (not_lt.mp hle)] at ht
    cases ht
  calc depth step left call s m ≤ (Finset.range n).card := Finset.card_le_card hsub
    _ = n := Finset.card_range n

section Forever

variable [Preorder β] [WellFoundedLT β] {measure : σ → β} {state : ℕ → σ}

/-- Sooner or later there is a call, and up to it nothing is put in front. -/
theorem Progress.exists_call (h : Progress step left call measure)
    (hstep : ∀ n, step (state n) = some (state (n + 1))) (i : ℕ) :
    ∃ k ≥ i, (∃ behind, call (state k) = some behind) ∧ left (state k) ≤ left (state i) := by
  induction hb : measure (state i) using WellFoundedLT.induction generalizing i with
  | ind b ih =>
    rcases hcall : call (state i) with - | behind
    · obtain ⟨k, hk, hcallK, hleft⟩ := ih _ (hb ▸ h.measure_lt hcall (hstep i)) (i + 1) rfl
      exact ⟨k, by omega, hcallK, hleft.trans (h.left_le hcall (hstep i))⟩
    · exact ⟨i, le_rfl, ⟨behind, hcall⟩, le_rfl⟩

/-- **A run for ever makes, again and again, a call that stays open.** -/
theorem Progress.exists_open (h : Progress step left call measure)
    (hstep : ∀ n, step (state n) = some (state (n + 1))) (n : ℕ) :
    ∃ k ≥ n, ∃ behind, call (state k) = some behind ∧ ∀ m > k, behind ≤ left (state m) := by
  -- from a state on in which as little is left as ever will be
  obtain ⟨j, hj, hmin⟩ : ∃ j ≥ n, ∀ i ≥ n, left (state j) ≤ left (state i) := by
    obtain ⟨j, hj, hmin⟩ := WellFounded.has_min
      (InvImage.wf (fun i => left (state i)) wellFounded_lt) (Set.Ici n) Set.nonempty_Ici
    exact ⟨j, hj, fun i hi => not_lt.mp (hmin i hi)⟩
  obtain ⟨k, hk, ⟨behind, hcall⟩, hleft⟩ := h.exists_call hstep j
  refine ⟨k, hj.trans hk, behind, hcall, fun m hm => ?_⟩
  calc behind ≤ left (state k) := h.behind_le hcall
    _ ≤ left (state j) := hleft
    _ ≤ left (state m) := hmin m (by omega)

/-- **A machine that makes progress halts exactly if its calls are nested to a bounded
depth.** -/
theorem Progress.halts_iff (h : Progress step left call measure) (s : σ) :
    (∃ n, stateAt step s n = none) ↔ ∃ bound, ∀ n, depth step left call s n ≤ bound := by
  classical
  constructor
  · rintro ⟨n, hn⟩
    exact ⟨n, depth_le_of_halts hn⟩
  · rintro ⟨bound, hbound⟩
    by_contra hrun
    have hsome : ∀ n, ∃ t, stateAt step s n = some t := fun n =>
      Option.ne_none_iff_exists'.mp fun hn => hrun ⟨n, hn⟩
    choose state hstate using hsome
    have hstep : ∀ n, step (state n) = some (state (n + 1)) := by
      intro n
      rw [← hstate (n + 1), stateAt, hstate n, Option.bind_some]
    have hinfinite : {k | ∃ behind, call (state k) = some behind ∧
        ∀ m > k, behind ≤ left (state m)}.Infinite := by
      refine Set.infinite_of_forall_exists_gt fun n => ?_
      obtain ⟨k, hk, hopen⟩ := h.exists_open hstep (n + 1)
      exact ⟨k, hopen, hk⟩
    obtain ⟨opened, hopened, hcard⟩ := hinfinite.exists_subset_card_eq (bound + 1)
    have hsub : opened ⊆ (Finset.range (opened.sup id + 1)).filter
        (Open step left call s (opened.sup id + 1)) := by
      intro k hk
      obtain ⟨behind, hcall, hleft⟩ := hopened hk
      have hle : k ≤ opened.sup id := Finset.le_sup (f := id) hk
      refine Finset.mem_filter.mpr ⟨Finset.mem_range.mpr (by omega), state k, behind, hstate k,
        hcall, fun m hm _ u hu => ?_⟩
      rw [hstate m] at hu
      cases hu
      exact hleft m hm
    have hdepth := (Finset.card_le_card hsub).trans (hbound _)
    omega

end Forever

end Nesting
