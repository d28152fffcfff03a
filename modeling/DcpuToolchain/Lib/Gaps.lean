import Mathlib.Data.List.Range
import Mathlib.Data.List.Nodup
import Mathlib.Data.List.Perm.Subperm
import Mathlib.Tactic.Common

/-!
# Closing gaps

Some positions of a sequence are removed and what is behind them closes up. Where a position is
then is the position less the number of removed ones below it (`Gaps.closed`); it is this for
every position, removed or not, and also behind the end.

One more removal closes one more gap (`Gaps.closed_cons`). The positions that stay keep their
order, and are exactly those of the sequence that is left (`Gaps.getElem?_stays`).
-/

namespace Gaps

/-- Where a position is when the positions of a list are removed. -/
def closed (R : List ℕ) (p : ℕ) : ℕ := p - R.countP (· < p)

/-- The positions of a sequence that are not removed, in order. -/
def stays (R : List ℕ) (n : ℕ) : List ℕ := (List.range n).filter (· ∉ R)

variable {R : List ℕ} {n p q : ℕ}

@[simp] theorem closed_nil : closed [] p = p := by simp [closed]

theorem mem_stays : p ∈ stays R n ↔ p < n ∧ p ∉ R := by
  simp [stays]

theorem nodup_stays : (stays R n).Nodup := List.nodup_range.filter _

theorem closed_le : closed R p ≤ p := Nat.sub_le ..

/-- The removed positions below a position are among those below. -/
theorem countP_le (hR : R.Nodup) (p : ℕ) : R.countP (· < p) ≤ p := by
  have hsub : R.filter (· < p) ⊆ List.range p := fun r hr => by
    simpa using (List.mem_filter.mp hr).2
  rw [List.countP_eq_length_filter]
  exact (List.Nodup.subperm (hR.filter _) hsub).length_le.trans List.length_range.le

/-- Between two positions as many close up as were removed there. -/
theorem countP_lt_add (hR : R.Nodup) (hpq : p ≤ q) :
    R.countP (· < q) ≤ R.countP (· < p) + (q - p) := by
  have hsplit : R.countP (· < q) = R.countP (· < p) + R.countP fun r => p ≤ r ∧ r < q := by
    rw [List.countP_eq_countP_filter_add R (fun r => decide (r < q)) fun r => decide (r < p),
      List.countP_filter, List.countP_filter]
    refine congrArg₂ (· + ·) (List.countP_congr fun r _ => ?_) (List.countP_congr fun r _ => ?_)
    · simp
      omega
    · simp
      omega
  have hsub : R.filter (fun r => p ≤ r ∧ r < q) ⊆ List.range' p (q - p) := fun r hr => by
    have := (List.mem_filter.mp hr).2
    simp only [decide_eq_true_eq] at this
    rw [List.mem_range'_1]
    omega
  have hle := (List.Nodup.subperm (hR.filter _) hsub).length_le
  rw [List.length_range', ← List.countP_eq_length_filter] at hle
  omega

theorem closed_mono (hR : R.Nodup) (hpq : p ≤ q) : closed R p ≤ closed R q := by
  have h1 := countP_lt_add hR hpq
  have h2 := countP_le hR p
  unfold closed
  omega

/-- Where a position is depends on what was removed below it. -/
theorem closed_congr {R' : List ℕ} (hR : R.Nodup) (hR' : R'.Nodup)
    (h : ∀ r < p, r ∈ R ↔ r ∈ R') : closed R p = closed R' p := by
  have hperm : (R.filter (· < p)).Perm (R'.filter (· < p)) := by
    rw [List.perm_ext_iff_of_nodup (hR.filter _) (hR'.filter _)]
    intro r
    rw [List.mem_filter, List.mem_filter, decide_eq_true_eq]
    exact and_congr_left fun hlt => h r hlt
  rw [closed, closed, List.countP_eq_length_filter, List.countP_eq_length_filter, hperm.length_eq]

/-- A position that stays is before all that are behind it. -/
theorem closed_lt (hR : R.Nodup) (hp : p ∉ R) (hpq : p < q) : closed R p < closed R q := by
  have hstep : R.countP (· < p + 1) = R.countP (· < p) := by
    refine List.countP_congr fun r hr => ?_
    have : r ≠ p := ne_of_mem_of_not_mem hr hp
    simp
    omega
  have h1 := closed_mono hR (Nat.succ_le_of_lt hpq)
  have h2 := countP_le hR p
  unfold closed at h1 ⊢
  rw [Nat.succ_eq_add_one, hstep] at h1
  omega

theorem closed_inj (hR : R.Nodup) (hp : p ∉ R) (hq : q ∉ R) (h : closed R p = closed R q) :
    p = q := by
  rcases Nat.lt_trichotomy p q with hlt | rfl | hlt
  · exact absurd h (Nat.ne_of_lt (closed_lt hR hp hlt))
  · rfl
  · exact absurd h.symm (Nat.ne_of_lt (closed_lt hR hq hlt))

/-- Behind all that is removed the distance is the number of the removed. -/
theorem closed_of_lt (h : ∀ r ∈ R, r < p) : closed R p = p - R.length := by
  rw [closed, List.countP_eq_length.mpr fun r hr => by simpa using h r hr]

/-- Before all that is removed positions stay. -/
theorem closed_of_le (h : ∀ r ∈ R, p ≤ r) : closed R p = p := by
  rw [closed, List.countP_eq_zero.mpr fun r hr => by simpa using h r hr, Nat.sub_zero]

/-- Behind something that is removed they do not. -/
theorem closed_lt_self (hq : q ∈ R) (hqp : q < p) : closed R p < p := by
  have hpos : 0 < R.countP (· < p) := List.countP_pos_iff.mpr ⟨q, hq, by simpa using hqp⟩
  rw [closed]
  omega

/-- **One more gap**: the others are closed first. -/
theorem closed_cons (hR : R.Nodup) (hq : q ∉ R) :
    closed (q :: R) p = if closed R q + 1 ≤ closed R p then closed R p - 1 else closed R p := by
  rw [closed, List.countP_cons]
  by_cases hqp : q < p
  · rw [if_pos (by simpa using hqp), if_pos (Nat.succ_le_of_lt (closed_lt hR hq hqp)), closed]
    omega
  · rw [if_neg (by simpa using hqp), if_neg, closed, Nat.add_zero]
    have := closed_mono hR (Nat.not_lt.mp hqp)
    omega

theorem closed_singleton : closed [q] p = if q + 1 ≤ p then p - 1 else p := by
  rw [closed_cons List.nodup_nil List.not_mem_nil, closed_nil, closed_nil]

/-- Behind all that is removed the distances stay. -/
theorem closed_add (hR : R.Nodup) (hlt : ∀ r ∈ R, r < p) (n : ℕ) :
    closed R (p + n) = closed R p + n := by
  have hle := countP_le hR p
  rw [List.countP_eq_length.mpr fun r hr => by simpa using hlt r hr] at hle
  rw [closed_of_lt hlt, closed_of_lt fun r hr => (hlt r hr).trans_le (Nat.le_add_right p n)]
  omega

/-- One more gap right behind a position that all others are before. -/
theorem closed_succ_cons_add (hR : R.Nodup) (hlt : ∀ r ∈ R, r < p) {n : ℕ} (hn : 2 ≤ n) :
    closed ((p + 1) :: R) (p + n) = closed R p + (n - 1) := by
  have hqR : p + 1 ∉ R := fun hmem => absurd (hlt _ hmem) (by omega)
  rw [closed_cons hR hqR, closed_add hR hlt, closed_add hR hlt, if_pos (by omega)]
  omega

/-- The length of what is left. -/
theorem length_stays (hR : R.Nodup) : (stays R n).length = closed R n := by
  have hsplit := List.length_eq_length_filter_add (l := List.range n) (· ∈ R)
  have hin : ((List.range n).filter (· ∈ R)).length = R.countP (· < n) := by
    rw [List.countP_eq_length_filter]
    refine List.Perm.length_eq ((List.perm_ext_iff_of_nodup (List.nodup_range.filter _)
      (hR.filter _)).mpr fun r => ?_)
    simp [and_comm]
  have hout : (stays R n).length = ((List.range n).filter fun r => !decide (r ∈ R)).length := by
    rw [stays]
    exact congrArg List.length (List.filter_congr fun r _ => by simp)
  rw [List.length_range, hin] at hsplit
  rw [hout, closed]
  omega

theorem closed_succ (hR : R.Nodup) :
    closed R (p + 1) = closed R p + if p ∈ R then 0 else 1 := by
  rw [← length_stays hR, stays, List.range_succ, List.filter_append, List.length_append, ← stays,
    length_stays hR]
  by_cases h : p ∈ R
  · simp [h]
  · simp [h]

/-- The sequence that is left has, where a position is, what was there. -/
theorem getElem?_stays (hR : R.Nodup) (hp : p < n) (hpR : p ∉ R) :
    (stays R n)[closed R p]? = some p := by
  have hlow : (stays R p).length = closed R p := length_stays hR
  obtain ⟨k, rfl⟩ : ∃ k, n = p + (k + 1) := ⟨n - p - 1, by omega⟩
  rw [stays, List.range_add, List.filter_append, ← stays, List.getElem?_append_right (by omega),
    hlow, Nat.sub_self, List.range_succ_eq_map, List.map_cons, Nat.add_zero,
    List.filter_cons_of_pos (by simpa using hpR), List.getElem?_cons_zero]

/-- A sequence is what is left of another if it is that wherever a position that stays is. -/
theorem eq_map_stays {α : Type*} (hR : R.Nodup) {l : List α} {f : ℕ → α}
    (hlength : l.length = closed R n)
    (h : ∀ p < n, p ∉ R → l[closed R p]? = some (f p)) : l = (stays R n).map f := by
  refine List.ext_getElem? fun k => ?_
  by_cases hk : k < (stays R n).length
  · obtain ⟨hlt, hnot⟩ := mem_stays.mp (List.getElem_mem hk)
    set p := (stays R n)[k] with hp
    have hget : (stays R n)[k]? = some p := List.getElem?_eq_getElem hk
    have hk' : k = closed R p :=
      (List.getElem?_inj hk nodup_stays).mp (hget.trans (getElem?_stays hR hlt hnot).symm)
    rw [List.getElem?_map, hget, Option.map_some, hk', h p hlt hnot]
  · rw [length_stays hR, ← hlength] at hk
    rw [List.getElem?_eq_none (Nat.not_lt.mp hk), List.getElem?_eq_none]
    rw [List.length_map, length_stays hR, ← hlength]
    exact Nat.not_lt.mp hk

end Gaps
