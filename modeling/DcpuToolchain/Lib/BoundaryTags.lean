import Mathlib.Data.List.Basic
import Mathlib.Logic.Function.Iterate

/-!
# Blocks with boundary tags

A part of a memory that is divided into blocks without gaps. A block at an address has a word
that tells whether it is free, a word with its size, as many words, and a word with its own
address by which it is found from behind. The last block lacks that word, and ends where the
area ends.

* `BoundaryTags.Chain`: a list of blocks lies in a memory from an address on, up to the end of an
  area. Blocks are set, merged and cut off by `Chain.set`, `Chain.merge` and `Chain.cut`, and what
  is written into a live block leaves the chain as it is (`Chain.write`).
* `BoundaryTags.liveOf`: where the live blocks are. They are disjoint
  (`BoundaryTags.pairwise_liveOf`) and inside the area (`BoundaryTags.mem_liveOf`).
* `BoundaryTags.FirstFree`: the free block that a walk over the blocks comes to.
-/

namespace BoundaryTags

/-- A block: the size in its word, and how much of it is in use if it is live. -/
structure Block where
  size : ℕ
  live : Option ℕ
  deriving DecidableEq, Repr

variable {free : ℕ} {m m' : ℕ → ℕ} {start mid stop : ℕ} {b c : Block} {pre bs : List Block}

/-- The first two words of a block. -/
structure Header (free : ℕ) (m : ℕ → ℕ) (start : ℕ) (b : Block) : Prop where
  tag : m start = free ↔ b.live = none
  size : m (start + 1) = b.size
  fits : ∀ n, b.live = some n → n ≤ b.size

/-- Blocks that lie in a memory from an address on, up to another one. -/
def Segment (free : ℕ) (m : ℕ → ℕ) : ℕ → List Block → ℕ → Prop
  | start, [], mid => start = mid
  | start, b :: bs, mid => Header free m start b ∧ m (start + 2 + b.size) = start ∧
      Segment free m (start + 3 + b.size) bs mid

/-- Blocks that lie in a memory from an address on, up to the end of the area. -/
def Chain (free : ℕ) (m : ℕ → ℕ) (stop : ℕ) : ℕ → List Block → Prop
  | _, [] => False
  | start, [b] => Header free m start b ∧ start + 1 + b.size = stop ∧ 1 ≤ b.size
  | start, b :: c :: bs => Header free m start b ∧ m (start + 2 + b.size) = start ∧
      Chain free m stop (start + 3 + b.size) (c :: bs)

/-- Where the live blocks are that lie from an address on. -/
def liveOf : ℕ → List Block → List (ℕ × ℕ)
  | _, [] => []
  | start, b :: bs => (b.live.toList.map fun n => (start + 2, n)) ++ liveOf (start + 3 + b.size) bs

/-- The address behind a block. -/
def next (m : ℕ → ℕ) (start : ℕ) : ℕ := start + 3 + m (start + 1)

/-- The free block that a walk over the blocks comes to first. -/
def FirstFree (free : ℕ) (m : ℕ → ℕ) (start found : ℕ) : Prop :=
  ∃ k, (next m)^[k] start = found ∧ m found = free ∧ ∀ j < k, m ((next m)^[j] start) ≠ free

/-! ### Chains -/

/-- The blocks of a chain up to one of them, and from there. -/
theorem chain_append :
    Chain free m stop start (pre ++ b :: bs) ↔
      ∃ mid, Segment free m start pre mid ∧ Chain free m stop mid (b :: bs) := by
  induction pre generalizing start with
  | nil =>
    constructor
    · exact fun h => ⟨start, rfl, h⟩
    · rintro ⟨mid, rfl, h⟩
      exact h
  | cons c pre ih =>
    have hcons : Chain free m stop start (c :: pre ++ b :: bs) ↔
        Header free m start c ∧ m (start + 2 + c.size) = start ∧
          Chain free m stop (start + 3 + c.size) (pre ++ b :: bs) := by
      cases pre <;> exact Iff.rfl
    rw [hcons, ih]
    constructor
    · rintro ⟨hheader, hfooter, mid, hpre, hrest⟩
      exact ⟨mid, ⟨hheader, hfooter, hpre⟩, hrest⟩
    · rintro ⟨mid, ⟨hheader, hfooter, hpre⟩, hrest⟩
      exact ⟨hheader, hfooter, mid, hpre, hrest⟩

/-- The last block of a segment is found from behind. -/
theorem segment_concat :
    Segment free m start (pre ++ [b]) mid ↔
      ∃ last, Segment free m start pre last ∧ Header free m last b ∧ m (last + 2 + b.size) = last ∧
        last + 3 + b.size = mid := by
  induction pre generalizing start with
  | nil =>
    constructor
    · exact fun h => ⟨start, rfl, h⟩
    · rintro ⟨last, rfl, h⟩
      exact h
  | cons c pre ih =>
    rw [List.cons_append, Segment, ih]
    constructor
    · rintro ⟨hheader, hfooter, last, hpre, hrest⟩
      exact ⟨last, ⟨hheader, hfooter, hpre⟩, hrest⟩
    · rintro ⟨last, ⟨hheader, hfooter, hpre⟩, hrest⟩
      exact ⟨hheader, hfooter, last, hpre, hrest⟩

theorem Chain.header (h : Chain free m stop start (b :: bs)) : Header free m start b := by
  cases bs <;> exact h.1

theorem Segment.le (h : Segment free m start pre mid) : start ≤ mid := by
  induction pre generalizing start with
  | nil => exact Nat.le_of_eq h
  | cons b pre ih =>
    have hle := ih h.2.2
    omega

theorem Chain.end_le (h : Chain free m stop start (b :: bs)) : start + 1 + b.size ≤ stop := by
  induction bs generalizing start b with
  | nil => exact Nat.le_of_eq h.2.1
  | cons c bs ih =>
    have hle := ih h.2.2
    omega

theorem Chain.add_two_le (h : Chain free m stop start bs) : start + 2 ≤ stop := by
  induction bs generalizing start with
  | nil => exact h.elim
  | cons b bs ih =>
    cases bs with
    | nil =>
      have hsize := h.2
      omega
    | cons c bs =>
      have hle := ih h.2.2
      omega

theorem Header.congr (h : Header free m start b) (h₀ : m' start = m start)
    (h₁ : m' (start + 1) = m (start + 1)) : Header free m' start b :=
  ⟨by rw [h₀]; exact h.tag, by rw [h₁]; exact h.size, h.fits⟩

/-- What lies below an address depends on the memory below it. -/
theorem Segment.congr (h : Segment free m start pre mid)
    (hm : ∀ a, start ≤ a → a < mid → m' a = m a) : Segment free m' start pre mid := by
  induction pre generalizing start with
  | nil => exact h
  | cons b pre ih =>
    obtain ⟨hheader, hfooter, hpre⟩ := h
    have hle := hpre.le
    refine ⟨hheader.congr (hm _ (Nat.le_refl _) (by omega)) (hm _ (by omega) (by omega)), ?_, ?_⟩
    · rw [hm _ (by omega) (by omega)]
      exact hfooter
    · exact ih hpre fun a ha hlt => hm a (by omega) hlt

theorem Chain.congr (h : Chain free m stop start bs)
    (hm : ∀ a, start ≤ a → a < stop → m' a = m a) : Chain free m' stop start bs := by
  induction bs generalizing start with
  | nil => exact h
  | cons b bs ih =>
    have hle := h.add_two_le
    have hheader :=
      h.header.congr (hm start (Nat.le_refl _) (by omega)) (hm (start + 1) (by omega) (by omega))
    cases bs with
    | nil => exact ⟨hheader, h.2⟩
    | cons c bs =>
      have hrest := h.2.2.add_two_le
      refine ⟨hheader, ?_, ih h.2.2 fun a ha hlt => hm a (by omega) hlt⟩
      rw [hm _ (by omega) (by omega)]
      exact h.2.1

/-! ### Live blocks -/

theorem le_of_mem_liveOf {p : ℕ × ℕ} (h : p ∈ liveOf start bs) : start + 2 ≤ p.1 := by
  induction bs generalizing start with
  | nil => cases h
  | cons b bs ih =>
    rw [liveOf, List.mem_append] at h
    rcases h with h | h
    · obtain ⟨n, -, rfl⟩ := List.mem_map.mp h
      exact Nat.le_refl _
    · have hle := ih h
      omega

/-- The live blocks are inside the area. -/
theorem mem_liveOf (h : Chain free m stop start bs) {p : ℕ × ℕ} (hp : p ∈ liveOf start bs) :
    start + 2 ≤ p.1 ∧ p.1 + p.2 ≤ stop + 1 := by
  refine ⟨le_of_mem_liveOf hp, ?_⟩
  induction bs generalizing start with
  | nil => exact h.elim
  | cons b bs ih =>
    rw [liveOf, List.mem_append] at hp
    rcases hp with hp | hp
    · obtain ⟨n, hn, rfl⟩ := List.mem_map.mp hp
      have hfits := h.header.fits n (Option.mem_toList.mp hn)
      have hend := h.end_le
      dsimp only
      omega
    · cases bs with
      | nil => cases hp
      | cons c bs => exact ih h.2.2 hp

/-- The live blocks are disjoint. -/
theorem pairwise_liveOf (h : Chain free m stop start bs) :
    (liveOf start bs).Pairwise fun p q => p.1 + p.2 ≤ q.1 := by
  induction bs generalizing start with
  | nil => exact List.Pairwise.nil
  | cons b bs ih =>
    rw [liveOf, List.pairwise_append]
    refine ⟨?_, ?_, ?_⟩
    · cases b.live with
      | none => exact List.Pairwise.nil
      | some n => exact List.pairwise_singleton _ _
    · cases bs with
      | nil => exact List.Pairwise.nil
      | cons c bs => exact ih h.2.2
    · intro p hp q hq
      obtain ⟨n, hn, rfl⟩ := List.mem_map.mp hp
      have hfits := h.header.fits n (Option.mem_toList.mp hn)
      have hle := le_of_mem_liveOf hq
      dsimp only
      omega

theorem liveOf_append (h : Segment free m start pre mid) :
    liveOf start (pre ++ bs) = liveOf start pre ++ liveOf mid bs := by
  induction pre generalizing start with
  | nil =>
    obtain rfl : start = mid := h
    rfl
  | cons b pre ih => rw [List.cons_append, liveOf, ih h.2.2, liveOf, List.append_assoc]

/-- A live block is one of the chain. -/
theorem exists_of_mem_liveOf (h : Chain free m stop start bs) {p : ℕ × ℕ}
    (hp : p ∈ liveOf start bs) :
    ∃ pre b post mid, bs = pre ++ b :: post ∧ Segment free m start pre mid ∧
      Chain free m stop mid (b :: post) ∧ b.live = some p.2 ∧ p.1 = mid + 2 := by
  induction bs generalizing start with
  | nil => cases hp
  | cons b bs ih =>
    rw [liveOf, List.mem_append] at hp
    rcases hp with hp | hp
    · obtain ⟨n, hn, rfl⟩ := List.mem_map.mp hp
      exact ⟨[], b, bs, start, rfl, rfl, h, Option.mem_toList.mp hn, rfl⟩
    · cases bs with
      | nil => cases hp
      | cons c bs =>
        obtain ⟨pre, d, post, mid, heq, hpre, hrest, hlive, hpointer⟩ := ih h.2.2 hp
        exact ⟨b :: pre, d, post, mid, by rw [heq]; rfl, ⟨h.1, h.2.1, hpre⟩, hrest, hlive, hpointer⟩

/-! ### Operations -/

/-- A block is allocated as it is, or freed. -/
theorem Chain.set (h : Chain free m stop start (b :: bs)) {live : Option ℕ}
    (htag : m' start = free ↔ live = none) (hfits : ∀ n, live = some n → n ≤ b.size)
    (hm : ∀ a, a ≠ start → m' a = m a) :
    Chain free m' stop start ({ b with live := live } :: bs) := by
  have hheader : Header free m' start { b with live := live } :=
    ⟨htag, by rw [hm _ (by omega)]; exact h.header.size, hfits⟩
  cases bs with
  | nil => exact ⟨hheader, h.2⟩
  | cons c bs =>
    refine ⟨hheader, ?_, h.2.2.congr fun a ha _ => hm a (by omega)⟩
    rw [hm _ (by omega)]
    exact h.2.1

/-- A block is merged with the one behind it. -/
theorem Chain.merge (h : Chain free m stop start (b :: c :: bs)) (htag : m' start = free)
    (hsize : m' (start + 1) = b.size + c.size + 3)
    (hfooter : bs ≠ [] → m' (start + 5 + b.size + c.size) = start)
    (hm : ∀ a, start + 6 + b.size + c.size ≤ a → m' a = m a) :
    Chain free m' stop start (⟨b.size + c.size + 3, none⟩ :: bs) := by
  have hheader : Header free m' start ⟨b.size + c.size + 3, none⟩ :=
    ⟨iff_of_true htag rfl, hsize, fun n hn => by cases hn⟩
  cases bs with
  | nil =>
    obtain ⟨-, hend, hpos⟩ := h.2.2
    refine ⟨hheader, ?_, ?_⟩
    · dsimp only
      omega
    · dsimp only
      omega
  | cons d bs =>
    obtain ⟨-, -, hrest⟩ := h.2.2
    have hle := hrest.add_two_le
    have hnext : start + 3 + b.size + 3 + c.size = start + 3 + (b.size + c.size + 3) := by omega
    rw [hnext] at hrest
    refine ⟨hheader, ?_, hrest.congr fun a ha _ => hm a (by omega)⟩
    have hfoot := hfooter (List.cons_ne_nil d bs)
    have haddress : start + 2 + (b.size + c.size + 3) = start + 5 + b.size + c.size := by omega
    dsimp only
    rw [haddress]
    exact hfoot

/-- All that lies behind an address becomes a live block and a free one. -/
theorem Chain.cut (h : Segment free m start pre mid) {n : ℕ} (hroom : mid + n + 5 ≤ stop)
    (htag : m' mid ≠ free) (hsize : m' (mid + 1) = n) (hfooter : m' (mid + 2 + n) = mid)
    (htag' : m' (mid + 3 + n) = free) (hsize' : m' (mid + 4 + n) = stop - (mid + 4 + n))
    (hm : ∀ a, a < mid → m' a = m a) :
    Chain free m' stop start (pre ++ [⟨n, some n⟩, ⟨stop - (mid + 4 + n), none⟩]) := by
  refine chain_append.mpr
    ⟨mid, h.congr fun a _ hlt => hm a hlt, ⟨?_, hsize, ?_⟩, hfooter, ?_, ?_, ?_⟩
  · exact iff_of_false htag (Option.some_ne_none n)
  · rintro _ ⟨⟩
    exact Nat.le_refl n
  · refine ⟨iff_of_true htag' rfl, ?_, fun n hn => by cases hn⟩
    have haddress : mid + 3 + n + 1 = mid + 4 + n := by omega
    dsimp only
    rw [haddress]
    exact hsize'
  · dsimp only
    omega
  · dsimp only
    omega

/-- What is written into a live block does not change the chain. -/
theorem Chain.write (h : Chain free m stop start bs) {p : ℕ × ℕ} (hp : p ∈ liveOf start bs) {a : ℕ}
    (ha : p.1 ≤ a) (ha' : a < p.1 + p.2) (hm : ∀ x, x ≠ a → m' x = m x) :
    Chain free m' stop start bs := by
  induction bs generalizing start with
  | nil => exact h
  | cons b bs ih =>
    have hle := le_of_mem_liveOf hp
    have hheader : Header free m' start b :=
      h.header.congr (hm _ (by omega)) (hm _ (by omega))
    rw [liveOf, List.mem_append] at hp
    cases bs with
    | nil => exact ⟨hheader, h.2⟩
    | cons c bs =>
      have hrest := h.2.2.add_two_le
      rcases hp with hp | hp
      · obtain ⟨n, hn, rfl⟩ := List.mem_map.mp hp
        have hfits := h.header.fits n (Option.mem_toList.mp hn)
        dsimp only at ha ha'
        refine ⟨hheader, ?_, h.2.2.congr fun x hx _ => hm x (by omega)⟩
        rw [hm _ (by omega)]
        exact h.2.1
      · have hle' := le_of_mem_liveOf hp
        refine ⟨hheader, ?_, ih h.2.2 hp⟩
        rw [hm _ (by omega)]
        exact h.2.1

/-! ### The first free block -/

theorem le_iterate_next (m : ℕ → ℕ) (start k : ℕ) : start + 3 * k ≤ (next m)^[k] start := by
  induction k with
  | zero => exact Nat.le_refl _
  | succ k ih =>
    rw [Function.iterate_succ_apply', next]
    omega

/-- The first free block is one of the chain, and those before it are live. -/
theorem FirstFree.exists_eq_append (h : Chain free m stop start bs) {found : ℕ}
    (hfound : FirstFree free m start found) (hlt : found < stop) :
    ∃ pre b post, bs = pre ++ b :: post ∧ Segment free m start pre found ∧
      Chain free m stop found (b :: post) ∧ b.live = none ∧ ∀ c ∈ pre, c.live ≠ none := by
  obtain ⟨k, hk, hfree, hbefore⟩ := hfound
  induction k generalizing start bs with
  | zero =>
    obtain rfl : start = found := hk
    cases bs with
    | nil => exact h.elim
    | cons b bs =>
      exact ⟨[], b, bs, rfl, rfl, h, h.header.tag.mp hfree, fun c hc => absurd hc List.not_mem_nil⟩
  | succ k ih =>
    cases bs with
    | nil => exact h.elim
    | cons b bs =>
      have hlive : b.live ≠ none := fun hnone => hbefore 0 (Nat.succ_pos k) (h.header.tag.mpr hnone)
      have hnext : next m start = start + 3 + b.size := by rw [next, h.header.size]
      cases bs with
      | nil =>
        -- Behind the last block the walk has left the area.
        have hle := le_iterate_next m (next m start) k
        rw [Function.iterate_succ_apply] at hk
        have hend := h.2.1
        omega
      | cons c bs =>
        rw [Function.iterate_succ_apply, hnext] at hk
        obtain ⟨pre, d, post, heq, hpre, hrest, hnone, hall⟩ := ih h.2.2 hk fun j hj => by
          have hj' := hbefore (j + 1) (Nat.succ_lt_succ hj)
          rwa [Function.iterate_succ_apply, hnext] at hj'
        refine ⟨b :: pre, d, post, by rw [heq]; rfl, ⟨h.1, h.2.1, hpre⟩, hrest, hnone, ?_⟩
        rintro c' hc'
        rcases List.mem_cons.mp hc' with rfl | hc'
        · exact hlive
        · exact hall c' hc'

/-- Where nothing is live, the first block is free. -/
theorem firstFree_of_liveOf_eq_nil (h : Chain free m stop start bs) (hlive : liveOf start bs = []) :
    FirstFree free m start start := by
  cases bs with
  | nil => exact h.elim
  | cons b bs =>
    refine ⟨0, rfl, h.header.tag.mpr ?_, fun j hj => absurd hj (Nat.not_lt_zero j)⟩
    rw [liveOf, List.append_eq_nil_iff, List.map_eq_nil_iff, Option.toList_eq_nil_iff] at hlive
    exact hlive.1

end BoundaryTags
