import Mathlib.Data.List.Basic
import Mathlib.Logic.Function.Basic

/-!
# Weaving blocks into a list

Putting one block into a list moves the elements behind it (`Weave.getElem?_insert`).
`Weave.weave` puts a block before every element of a list and one after the last. Putting
the blocks in one after the other, the last position first, needs no bookkeeping: an
insertion at a position before which nothing was inserted yet falls where the position
of the original list says (`Weave.insert_weave`). In any other order the position has moved
with the elements (`Weave.insert_weave_position`): an insertion directly before an element
falls behind the block that is there.
-/

namespace Weave

variable {α : Type*}

/-! ### One block -/

section Insert

variable {cs block : List α} {a n i : ℕ}

/-- Where an element is when a block was put in. -/
theorem getElem?_insert (block : List α) (ha : a ≤ cs.length) (i : ℕ) :
    (cs.take a ++ block ++ cs.drop a)[if a ≤ i then i + block.length else i]? = cs[i]? := by
  have hlength : (cs.take a ++ block).length = a + block.length := by
    rw [List.length_append, List.length_take, Nat.min_eq_left ha]
  split
  · rw [List.getElem?_append_right (by omega), hlength, List.getElem?_drop]
    exact congrArg (cs[·]?) (by omega)
  · rw [List.getElem?_append_left (by omega), List.getElem?_append_left
      (by rw [List.length_take]; omega), List.getElem?_take_of_lt (by omega)]

/-- Where the block is. -/
theorem getElem?_insert_block (ha : a ≤ cs.length) (hi : i < block.length) :
    (cs.take a ++ block ++ cs.drop a)[a + i]? = block[i]? := by
  have htake : (cs.take a).length = a := by rw [List.length_take, Nat.min_eq_left ha]
  rw [List.append_assoc, List.getElem?_append_right (by omega), htake, Nat.add_sub_cancel_left,
    List.getElem?_append_left hi]

/-- Where an element is when others were taken out. -/
theorem getElem?_remove (hn : a + n ≤ cs.length) (hi : ¬ (a ≤ i ∧ i < a + n)) :
    (cs.take a ++ cs.drop (a + n))[if a + n ≤ i then i - n else i]? = cs[i]? := by
  have htake : (cs.take a).length = a := by
    rw [List.length_take]
    omega
  split
  · rw [List.getElem?_append_right (by omega), htake, List.getElem?_drop]
    exact congrArg (cs[·]?) (by omega)
  · rw [List.getElem?_append_left (by omega), List.getElem?_take_of_lt (by omega)]

end Insert

/-! ### A block before every element -/

/-- The list `cs`, whose first element has position `n`, with the block `blocks i` before
the element of position `i`, and a block at the end. -/
def weave (blocks : ℕ → List α) : ℕ → List α → List α
  | n, [] => blocks n
  | n, c :: cs => blocks n ++ c :: weave blocks (n + 1) cs

variable {blocks blocks' : ℕ → List α} {n : ℕ} {cs : List α}

theorem weave_congr (h : ∀ i, n ≤ i → i ≤ n + cs.length → blocks i = blocks' i) :
    weave blocks n cs = weave blocks' n cs := by
  induction cs generalizing n with
  | nil => exact h n (Nat.le_refl _) (Nat.le_add_right _ _)
  | cons c cs ih =>
    rw [weave, weave, h n (Nat.le_refl _) (by omega), ih fun i h1 h2 => h i (by omega) ?_]
    rw [List.length_cons]
    omega

/-- Weaving in no blocks. -/
theorem weave_nil (h : ∀ i, n ≤ i → i ≤ n + cs.length → blocks i = []) :
    weave blocks n cs = cs := by
  induction cs generalizing n with
  | nil => exact h n (Nat.le_refl _) (Nat.le_add_right _ _)
  | cons c cs ih =>
    rw [weave, h n (Nat.le_refl _) (by omega), ih fun i h1 h2 => h i (by omega) ?_, List.nil_append]
    rw [List.length_cons]
    omega

/-- **Inserting in front of everything that was inserted before.** -/
theorem insert_weave (B : List α) {a : ℕ} (ha : a ≤ cs.length)
    (h : ∀ i, n ≤ i → i < n + a → blocks i = []) :
    (weave blocks n cs).take a ++ B ++ (weave blocks n cs).drop a =
      weave (Function.update blocks (n + a) (B ++ blocks (n + a))) n cs := by
  induction a generalizing n cs with
  | zero =>
    have hrest : ∀ m cs', n < m → weave (Function.update blocks n (B ++ blocks n)) m cs' =
        weave blocks m cs' := fun m cs' hm =>
      weave_congr fun i h1 _ => Function.update_of_ne (by omega) _ _
    cases cs with
    | nil => simp [weave]
    | cons c cs =>
      rw [List.take_zero, List.drop_zero, Nat.add_zero, weave, weave,
        hrest _ _ (Nat.lt_succ_self n), Function.update_self, List.nil_append, List.append_assoc]
  | succ a ih =>
    cases cs with
    | nil => simp at ha
    | cons c cs =>
      have hn : blocks n = [] := h n (Nat.le_refl _) (by omega)
      rw [List.length_cons] at ha
      rw [weave, weave, hn, Function.update_of_ne (by omega), hn, List.nil_append, List.nil_append,
        List.take_succ_cons, List.drop_succ_cons, List.cons_append, List.cons_append,
        ih (by omega) fun i h1 h2 => h i (by omega) (by omega),
        show n + 1 + a = n + (a + 1) by omega]

theorem length_le_weave : cs.length ≤ (weave blocks n cs).length := by
  induction cs generalizing n with
  | nil => exact Nat.zero_le _
  | cons c cs ih =>
    have := ih (n := n + 1)
    rw [weave, List.length_append, List.length_cons, List.length_cons]
    omega

/-! ### Positions -/

/-- Where the element of position `n + a` is, once the blocks are woven in. -/
def position (blocks : ℕ → List α) : (n a : ℕ) → ℕ
  | n, 0 => (blocks n).length
  | n, a + 1 => (blocks n).length + (1 + position blocks (n + 1) a)

/-- **The elements are at their positions.** -/
theorem getElem?_weave {a : ℕ} (ha : a < cs.length) :
    (weave blocks n cs)[position blocks n a]? = cs[a]? := by
  induction a generalizing n cs with
  | zero =>
    cases cs with
    | nil => simp at ha
    | cons c cs =>
      rw [weave, position, List.getElem?_append_right (Nat.le_refl _), Nat.sub_self,
        List.getElem?_cons_zero, List.getElem?_cons_zero]
  | succ a ih =>
    cases cs with
    | nil => simp at ha
    | cons c cs =>
      rw [List.length_cons] at ha
      rw [weave, position, List.getElem?_append_right (Nat.le_add_right _ _),
        Nat.add_sub_cancel_left, Nat.add_comm 1, List.getElem?_cons_succ, List.getElem?_cons_succ,
        ih (by omega)]

/-- The end of the list is behind all blocks. -/
theorem length_weave : (weave blocks n cs).length = position blocks n cs.length := by
  induction cs generalizing n with
  | nil => rfl
  | cons c cs ih =>
    rw [weave, List.length_append, List.length_cons, List.length_cons, position, ih,
      Nat.add_comm 1]

theorem position_lt {a b : ℕ} (h : a < b) : position blocks n a < position blocks n b := by
  induction b generalizing n a with
  | zero => exact absurd h (Nat.not_lt_zero a)
  | succ b ih =>
    cases a with
    | zero =>
      rw [position, position]
      omega
    | succ a =>
      have := ih (n := n + 1) (Nat.lt_of_succ_lt_succ h)
      rw [position, position]
      omega

theorem position_le_iff {a b : ℕ} : position blocks n a ≤ position blocks n b ↔ a ≤ b := by
  refine ⟨fun h => Nat.le_of_not_lt fun hlt => ?_, fun h => ?_⟩
  · have : position blocks n b < position blocks n a := position_lt hlt
    omega
  · rcases Nat.lt_or_eq_of_le h with h | rfl
    · exact Nat.le_of_lt (position_lt h)
    · exact Nat.le_refl _

/-- What is not an element is in a block, and does not depend on the elements. -/
theorem position_or_block {i : ℕ} (hi : i < (weave blocks n cs).length) :
    (∃ a < cs.length, i = position blocks n a) ∨
      ∀ cs' : List α, cs'.length = cs.length →
        (weave blocks n cs')[i]? = (weave blocks n cs)[i]? := by
  induction cs generalizing n i with
  | nil => exact .inr fun cs' h => by rw [List.eq_nil_of_length_eq_zero h]
  | cons c cs ih =>
    rcases Nat.lt_or_ge i (blocks n).length with hlt | hge
    · refine .inr fun cs' h => ?_
      obtain ⟨c', cs', rfl⟩ := List.exists_cons_of_length_eq_add_one h
      rw [weave, weave, List.getElem?_append_left hlt, List.getElem?_append_left hlt]
    · obtain ⟨d, rfl⟩ := Nat.exists_eq_add_of_le hge
      cases d with
      | zero => exact .inl ⟨0, Nat.zero_lt_succ _, rfl⟩
      | succ d =>
        rw [weave, List.length_append, List.length_cons] at hi
        rcases ih (n := n + 1) (i := d) (by omega) with ⟨a, ha, rfl⟩ | hblock
        · refine .inl ⟨a + 1, Nat.succ_lt_succ ha, ?_⟩
          rw [position, Nat.add_comm 1]
        · refine .inr fun cs' h => ?_
          obtain ⟨c', cs', rfl⟩ := List.exists_cons_of_length_eq_add_one h
          rw [weave, weave, List.getElem?_append_right hge, List.getElem?_append_right hge,
            Nat.add_sub_cancel_left, List.getElem?_cons_succ, List.getElem?_cons_succ,
            hblock cs' (Nat.succ.inj h)]

/-- Nothing is before an element if there are no blocks. -/
theorem position_nil (h : ∀ i, blocks i = []) (a : ℕ) : position blocks n a = a := by
  induction a generalizing n with
  | zero => rw [position, h, List.length_nil]
  | succ a ih => rw [position, h, ih, List.length_nil, Nat.zero_add, Nat.add_comm]

theorem position_congr {a : ℕ} (h : ∀ i, n ≤ i → blocks i = blocks' i) :
    position blocks n a = position blocks' n a := by
  induction a generalizing n with
  | zero => rw [position, position, h n (Nat.le_refl _)]
  | succ a ih => rw [position, position, h n (Nat.le_refl _), ih fun i hi => h i (by omega)]

/-- A longer block moves what is behind it. -/
theorem position_update (B : List α) (a x : ℕ) :
    position (Function.update blocks (n + a) (blocks (n + a) ++ B)) n x =
      position blocks n x + if a ≤ x then B.length else 0 := by
  induction x generalizing n a with
  | zero =>
    rw [position, position]
    cases a with
    | zero =>
      rw [Nat.add_zero, Function.update_self, if_pos (Nat.le_refl 0), List.length_append]
    | succ a => rw [Function.update_of_ne (by omega), if_neg (by omega), Nat.add_zero]
  | succ x ih =>
    rw [position, position]
    cases a with
    | zero =>
      have hrest : position (Function.update blocks n (blocks n ++ B)) (n + 1) x =
          position blocks (n + 1) x :=
        position_congr fun i hi => Function.update_of_ne (Nat.ne_of_gt hi) _ _
      rw [Nat.add_zero, Function.update_self, List.length_append, if_pos (Nat.zero_le _),
        hrest]
      omega
    | succ a =>
      have := ih (n := n + 1) a
      rw [show n + 1 + a = n + (a + 1) by omega] at this
      rw [this, Function.update_of_ne (by omega)]
      split <;> split <;> omega

/-- **Inserting directly before an element.** -/
theorem insert_weave_position (B : List α) {a : ℕ} (ha : a ≤ cs.length) :
    (weave blocks n cs).take (position blocks n a) ++ B ++
        (weave blocks n cs).drop (position blocks n a) =
      weave (Function.update blocks (n + a) (blocks (n + a) ++ B)) n cs := by
  induction a generalizing n cs with
  | zero =>
    have hrest : ∀ m cs', n < m → weave (Function.update blocks n (blocks n ++ B)) m cs' =
        weave blocks m cs' := fun m cs' hm =>
      weave_congr fun i h1 _ => Function.update_of_ne (by omega) _ _
    cases cs with
    | nil => simp [weave, position]
    | cons c cs =>
      rw [Nat.add_zero, weave, position, List.take_left, List.drop_left, weave,
        Function.update_self, hrest _ _ (Nat.lt_succ_self n)]
  | succ a ih =>
    cases cs with
    | nil => simp at ha
    | cons c cs =>
      rw [List.length_cons] at ha
      have := ih (n := n + 1) (show a ≤ cs.length by omega)
      rw [show n + 1 + a = n + (a + 1) by omega] at this
      rw [weave, weave, position, Function.update_of_ne (by omega), ← this,
        List.take_length_add_append, List.drop_length_add_append, Nat.add_comm 1,
        List.take_succ_cons, List.drop_succ_cons, List.append_assoc, List.append_assoc,
        List.cons_append, List.append_assoc]

end Weave
