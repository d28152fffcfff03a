import DcpuToolchain.Hw.Devices
import DcpuToolchain.Lib.Ring

/-!
# What is read from the keyboard

The buffer of the keyboard is a queue in a ring (`Keyboard.waiting`): characters are appended,
and each `STORE` takes the oldest. `CLEAR` sets the elements of the array to zero but leaves the
indices, so that what was in the queue is still there, as zeros.

Guests read what they should (`Typed`) as long as no such zero comes before a character
(`DcpuToolchain.answers_eq_iff`).
-/

namespace DcpuToolchain

/-! ### The operations -/

/-- What happens to the keyboard: a character is appended, or the guest requests something. -/
inductive KeyboardOp
  | append (index : ℤ)
  | request (r : Registers)

/-- `vm_hw_keyboard_append_to_buffer`, with its check. -/
def Keyboard.append (hw : Keyboard) (index : ℤ) : Keyboard :=
  if 0 ≤ index then (hw.appendToBuffer index.toNat).1 else hw

/-- The answer to a `STORE`; other requests have none here. -/
def Keyboard.answer (hw : Keyboard) (r : Registers) : List Word :=
  if r 0 = 1 then [(hw.interrupt r).2.1 2] else []

/-- The answers to the `STORE` requests. -/
def Keyboard.answers : Keyboard → List KeyboardOp → List Word
  | _, [] => []
  | hw, .append index :: ops => (hw.append index).answers ops
  | hw, .request r :: ops => hw.answer r ++ (hw.interrupt r).1.answers ops

/-! ### What should be read -/

/-- The characters that were appended since the last `CLEAR`, and how many of them have been
read or given up. -/
structure Typed where
  appended : List Word := []
  read : ℕ := 0

namespace Typed

/-- The oldest character that can be read: it has not been, and is among the last 99. -/
def next (t : Typed) : ℕ := max t.read (t.appended.length - 99)

/-- The characters that can be read. -/
def waiting (t : Typed) : List Word := t.appended.drop t.next

/-- A character is appended. -/
def append (t : Typed) (index : ℤ) : Typed :=
  if 0 ≤ index then { t with appended := t.appended ++ [BitVec.ofNat 16 index.toNat] } else t

/-- What a request does. -/
def interrupt (t : Typed) (r : Registers) : Typed :=
  if r 0 = 0 then {}
  else if r 0 = 1 ∧ t.next < t.appended.length then { t with read := t.next + 1 }
  else t

/-- The answer to a `STORE`: the oldest character that can be read, or zero. -/
def answer (t : Typed) (r : Registers) : List Word :=
  if r 0 = 1 then [t.appended.getD t.next 0] else []

/-- The answers to the `STORE` requests. -/
def answers : Typed → List KeyboardOp → List Word
  | _, [] => []
  | t, .append index :: ops => (t.append index).answers ops
  | t, .request r :: ops => t.answer r ++ (t.interrupt r).answers ops

end Typed

/-- **No `STORE` meets a place that `CLEAR` has left, before a character other than zero**; there
are `stale` such places. They are given up like characters where there is no room. -/
def NoStale : (stale : ℕ) → Typed → List KeyboardOp → Prop
  | _, _, [] => True
  | stale, t, .append index :: ops =>
    NoStale (if 0 ≤ index ∧ stale + t.waiting.length = 99 then stale - 1 else stale)
      (t.append index) ops
  | stale, t, .request r :: ops =>
    if r 0 = 0 then NoStale (stale + t.waiting.length) {} ops
    else if r 0 = 1 then
      match t.waiting with
      | [] => NoStale (stale - 1) t ops
      | c :: _ => (stale = 0 ∨ c = 0) ∧ NoStale stale (t.interrupt r) ops
    else NoStale stale t ops

/-! ### The queue -/

/-- The characters in the buffer, oldest first. -/
def Keyboard.waiting (hw : Keyboard) : List Word :=
  Ring.contents kbBufferCount hw.buffer hw.bufferIdxR hw.bufferIdxW

/-- The indices of the buffer. -/
structure Keyboard.Indexed (hw : Keyboard) : Prop where
  read : hw.bufferIdxR < kbBufferCount
  written : hw.bufferIdxW < kbBufferCount

theorem Keyboard.nextIdx_eq {i : ℕ} (h : i < kbBufferCount) :
    nextIdx i = (i + 1) % kbBufferCount := by
  rw [nextIdx, Ring.succ_mod h]
  split_ifs <;> omega

theorem Keyboard.Indexed.waiting_length {hw : Keyboard} (h : hw.Indexed) :
    hw.waiting.length ≤ 99 := by
  have hlt := Ring.held_lt h.read h.written
  rw [waiting, Ring.length_contents]
  exact Nat.le_of_lt_succ hlt

/-- **What appending does to the queue**. -/
theorem Keyboard.Indexed.appendToBuffer {hw : Keyboard} (h : hw.Indexed) (index : ℕ) :
    (hw.appendToBuffer index).1.Indexed ∧
      (hw.appendToBuffer index).1.waiting =
        (if hw.waiting.length = 99 then hw.waiting.tail else hw.waiting) ++
          [BitVec.ofNat 16 index] := by
  have hpos : 0 < kbBufferCount := by decide
  have hfull := Ring.held_full h.read h.written
  have hlength : hw.waiting.length = Ring.held kbBufferCount hw.bufferIdxR hw.bufferIdxW :=
    Ring.length_contents _ _ _
  have hcount : kbBufferCount = 100 := rfl
  unfold Keyboard.appendToBuffer
  dsimp only
  rw [nextIdx_eq h.written]
  by_cases hmeets : hw.bufferIdxR = (hw.bufferIdxW + 1) % kbBufferCount
  · rw [if_pos hmeets, if_pos (by have := hfull.mp hmeets.symm; omega), nextIdx_eq h.read]
    exact ⟨⟨Nat.mod_lt _ hpos, Nat.mod_lt _ hpos⟩,
      Ring.contents_push_full hw.buffer _ (by decide) h.written hmeets.symm⟩
  · rw [if_neg hmeets, if_neg fun heq => hmeets (hfull.mpr (by omega)).symm]
    exact ⟨⟨h.read, Nat.mod_lt _ hpos⟩,
      Ring.contents_push hw.buffer _ h.read h.written (Ne.symm hmeets)⟩

/-- **What requests do to the queue**: `CLEAR` makes everything zero, `STORE` takes the oldest
character. -/
theorem Keyboard.Indexed.interrupt {hw : Keyboard} (h : hw.Indexed) (r : Registers) :
    (hw.interrupt r).1.Indexed ∧
      (hw.interrupt r).1.waiting =
        (if r 0 = 0 then List.replicate hw.waiting.length 0
        else if r 0 = 1 then hw.waiting.tail else hw.waiting) := by
  unfold Keyboard.interrupt
  split
  · refine ⟨⟨h.read, h.written⟩, ?_⟩
    rw [List.eq_replicate_iff]
    refine ⟨(Ring.length_contents _ _ _).trans (Ring.length_contents _ _ _).symm, fun c hc => ?_⟩
    obtain ⟨i, -, rfl⟩ := List.mem_map.mp hc
    exact if_pos (Nat.mod_lt _ (by decide))
  · split
    · split
      · rename_i hsame
        have hempty : hw.waiting = [] := by
          rw [waiting, hsame, Ring.contents_self]
        exact ⟨h, by rw [hempty]; rfl⟩
      · rename_i hne
        rw [nextIdx_eq h.read]
        refine ⟨⟨Nat.mod_lt _ (by decide), h.written⟩, ?_⟩
        rw [waiting, waiting, Ring.contents_pop hw.buffer h.read h.written hne, List.tail_cons]
    · split
      · split <;> exact ⟨h, rfl⟩
      · split <;> exact ⟨⟨h.read, h.written⟩, rfl⟩

theorem Keyboard.Indexed.answer {hw : Keyboard} (h : hw.Indexed) (r : Registers) :
    hw.answer r = if r 0 = 1 then [hw.waiting.headD 0] else [] := by
  unfold Keyboard.answer
  split
  · rename_i hstore
    have hclear : r 0 ≠ 0 := by
      rw [hstore]
      decide
    rw [Keyboard.interrupt, if_neg hclear, if_pos hstore]
    split
    · rename_i hsame
      rw [waiting, hsame, Ring.contents_self]
      simp
    · rename_i hne
      rw [waiting, Ring.contents_pop hw.buffer h.read h.written hne]
      simp
  · rfl

/-! ### The characters that can be read -/

namespace Typed

variable {t : Typed}

/-- What has been read has been appended. -/
def Sound (t : Typed) : Prop := t.read ≤ t.appended.length

theorem Sound.next_le (h : t.Sound) : t.next ≤ t.appended.length :=
  max_le h (Nat.sub_le _ _)

theorem length_waiting : t.waiting.length = t.appended.length - t.next := List.length_drop

theorem length_waiting_le : t.waiting.length ≤ 99 := by
  have hmax : t.appended.length - 99 ≤ t.next := le_max_right _ _
  rw [length_waiting]
  omega

theorem Sound.append (h : t.Sound) (index : ℤ) : (t.append index).Sound := by
  unfold Typed.append
  split
  · exact h.trans (by simp)
  · exact h

/-- Where there is no room, the oldest character is given up. -/
theorem Sound.waiting_append (h : t.Sound) {index : ℤ} (hindex : 0 ≤ index) :
    (t.append index).waiting =
      (if t.waiting.length = 99 then t.waiting.tail else t.waiting) ++
        [BitVec.ofNat 16 index.toNat] := by
  have hle := h.next_le
  have hlength := t.length_waiting
  have hnext : (t.append index).next = max t.read (t.appended.length + 1 - 99) := by
    rw [Typed.append, if_pos hindex, Typed.next, List.length_append, List.length_singleton]
  have happended : (t.append index).appended = t.appended ++ [BitVec.ofNat 16 index.toNat] := by
    rw [Typed.append, if_pos hindex]
  have hread : t.read ≤ t.next := le_max_left _ _
  have hcases : t.next = max t.read (t.appended.length - 99) := rfl
  rw [waiting, happended, hnext]
  split
  · rename_i hfull
    have hsucc : max t.read (t.appended.length + 1 - 99) = t.next + 1 := by omega
    rw [hsucc, List.drop_append_of_le_length (by omega), waiting, List.tail_drop]
  · rename_i hroom
    have hsame : max t.read (t.appended.length + 1 - 99) = t.next := by
      have := t.length_waiting_le
      omega
    rw [hsame, List.drop_append_of_le_length hle, waiting]

theorem Sound.interrupt (h : t.Sound) (r : Registers) : (t.interrupt r).Sound := by
  unfold Typed.interrupt
  split
  · exact Nat.le_refl 0
  · split
    · rename_i hstore
      exact hstore.2
    · exact h

/-- `STORE` takes the oldest character. -/
theorem waiting_store {r : Registers} (hr : r 0 = 1) :
    (t.interrupt r).waiting = t.waiting.tail := by
  have hclear : r 0 ≠ 0 := by
    rw [hr]
    decide
  rw [Typed.interrupt, if_neg hclear]
  split
  · rename_i hstore
    have hnext : (⟨t.appended, t.next + 1⟩ : Typed).next = t.next + 1 := by
      have hmax : t.appended.length - 99 ≤ t.next := le_max_right _ _
      change max (t.next + 1) (t.appended.length - 99) = t.next + 1
      omega
    rw [waiting, hnext, waiting, List.tail_drop]
  · rename_i hstore
    have hempty : t.waiting = [] := List.drop_eq_nil_of_le (not_lt.mp fun hlt => hstore ⟨hr, hlt⟩)
    rw [hempty, List.tail_nil]

theorem answer_eq (r : Registers) :
    t.answer r = if r 0 = 1 then [t.waiting.headD 0] else [] := by
  rw [answer, waiting, List.getD_eq_getElem?_getD, List.headD_eq_head?_getD, List.head?_drop]

end Typed

/-! ### Reading what should be read -/

/-- The queue of the keyboard: places that `CLEAR` has left, and the characters that can be
read. -/
structure Keyboard.Holds (hw : Keyboard) (stale : ℕ) (t : Typed) : Prop where
  indexed : hw.Indexed
  sound : t.Sound
  waiting : hw.waiting = List.replicate stale 0 ++ t.waiting

variable {hw : Keyboard} {stale : ℕ} {t : Typed}

/-- **Appending**: what is given up where there is no room is a place that `CLEAR` has left, if
there is one. -/
theorem Keyboard.Holds.append (h : hw.Holds stale t) (index : ℤ) :
    (hw.append index).Holds
      (if 0 ≤ index ∧ stale + t.waiting.length = 99 then stale - 1 else stale)
      (t.append index) := by
  by_cases hindex : 0 ≤ index
  · obtain ⟨hindexed, hwaiting⟩ := h.indexed.appendToBuffer index.toNat
    have hlength : hw.waiting.length = stale + t.waiting.length := by
      rw [h.waiting, List.length_append, List.length_replicate]
    have hle := h.indexed.waiting_length
    rw [Keyboard.append, if_pos hindex]
    refine ⟨hindexed, h.sound.append index, ?_⟩
    rw [hwaiting, h.sound.waiting_append hindex, hlength, h.waiting]
    by_cases hfull : stale + t.waiting.length = 99
    · rw [if_pos hfull, if_pos ⟨hindex, hfull⟩]
      cases stale with
      | zero =>
        rw [Nat.zero_add] at hfull
        rw [if_pos hfull]
        rfl
      | succ stale =>
        rw [if_neg (by omega), List.replicate_succ, List.cons_append, List.tail_cons,
          Nat.add_sub_cancel, List.append_assoc]
    · rw [if_neg hfull, if_neg fun hand => hfull hand.2, if_neg (by omega), List.append_assoc]
  · rw [Keyboard.append, if_neg hindex, if_neg fun hand => hindex hand.1, Typed.append,
      if_neg hindex]
    exact h

theorem Keyboard.Holds.clear (h : hw.Holds stale t) {r : Registers} (hr : r 0 = 0) :
    (hw.interrupt r).1.Holds (stale + t.waiting.length) {} := by
  obtain ⟨hindexed, hwaiting⟩ := h.indexed.interrupt r
  refine ⟨hindexed, Nat.le_refl 0, ?_⟩
  rw [hwaiting, if_pos hr, h.waiting, List.length_append, List.length_replicate]
  exact (List.append_nil _).symm

/-- **Which sequences are answered right**: in any sequence of appended characters and requests,
every `STORE` returns the oldest character that can be read or zero exactly if none meets a
place that `CLEAR` has left before a character other than zero. -/
theorem Keyboard.Holds.answers_iff (h : hw.Holds stale t) (ops : List KeyboardOp) :
    hw.answers ops = t.answers ops ↔ NoStale stale t ops := by
  induction ops generalizing hw stale t with
  | nil => exact iff_of_true rfl trivial
  | cons op ops ih =>
    cases op with
    | append index => exact ih (h.append index)
    | request r =>
      obtain ⟨hindexed, hwaiting⟩ := h.indexed.interrupt r
      rw [Keyboard.answers, Typed.answers, h.indexed.answer, t.answer_eq, NoStale]
      by_cases hclear : r 0 = 0
      · have hstore : r 0 ≠ 1 := by
          rw [hclear]
          decide
        rw [if_pos hclear, if_neg hstore, if_neg hstore, Typed.interrupt, if_pos hclear]
        exact ih (h.clear hclear)
      · rw [if_neg hclear]
        by_cases hstore : r 0 = 1
        · rw [if_pos hstore, if_pos hstore, if_pos hstore]
          rw [if_neg hclear, if_pos hstore, h.waiting] at hwaiting
          have htyped := t.waiting_store hstore
          have hsound := h.sound.interrupt r
          rw [h.waiting]
          cases hchars : t.waiting with
          | nil =>
            -- nothing can be read: what `CLEAR` has left is read as zero
            have hsame : t.interrupt r = t := by
              have hlength := t.length_waiting
              rw [hchars, List.length_nil] at hlength
              rw [Typed.interrupt, if_neg hclear, if_neg fun hand => by omega]
            rw [hchars, List.append_nil] at hwaiting
            rw [List.append_nil, hsame]
            have hhead : (List.replicate stale (0 : Word)).headD 0 = 0 := by
              cases stale <;> rfl
            have hholds : (hw.interrupt r).1.Holds (stale - 1) t := by
              refine ⟨hindexed, h.sound, ?_⟩
              rw [hwaiting, hchars, List.append_nil, List.tail_replicate]
            rw [hhead]
            exact (List.cons_inj_right _).trans (ih hholds)
          | cons c chars =>
            rw [hchars] at hwaiting htyped
            rw [List.tail_cons] at htyped
            cases stale with
            | zero =>
              have hholds : (hw.interrupt r).1.Holds 0 (t.interrupt r) :=
                ⟨hindexed, hsound, by rw [hwaiting, htyped]; rfl⟩
              exact (List.cons_inj_right _).trans
                ((ih hholds).trans (and_iff_right (.inl rfl)).symm)
            | succ stale =>
              rw [List.replicate_succ, List.cons_append, List.tail_cons] at hwaiting
              by_cases hzero : c = 0
              · -- a zero takes the place of the one that was left
                have hholds : (hw.interrupt r).1.Holds (stale + 1) (t.interrupt r) := by
                  refine ⟨hindexed, hsound, ?_⟩
                  rw [hwaiting, htyped, hzero, List.replicate_succ', List.append_assoc]
                  rfl
                rw [List.headD_cons, hzero]
                exact (List.cons_inj_right _).trans
                  ((ih hholds).trans (and_iff_right (.inr rfl)).symm)
              · refine iff_of_false (fun heq => hzero ?_) fun hand => ?_
                · exact (List.cons.inj heq).1.symm
                · exact hand.1.elim (Nat.succ_ne_zero stale) hzero
        · rw [if_neg hstore, if_neg hstore, if_neg hstore, Typed.interrupt, if_neg hclear,
            if_neg fun hand => hstore hand.1]
          rw [if_neg hclear, if_neg hstore] at hwaiting
          exact ih ⟨hindexed, h.sound, hwaiting.trans h.waiting⟩

/-- **From the keyboard as it is initialized**, whatever is in its buffer. -/
theorem answers_eq_iff (buffer : ℕ → Word) (ops : List KeyboardOp) :
    ({ buffer := buffer } : Keyboard).answers ops = ({} : Typed).answers ops ↔
      NoStale 0 {} ops := by
  have hpos : 0 < kbBufferCount := by decide
  have hsound : ({} : Typed).Sound := Nat.le_refl 0
  exact Keyboard.Holds.answers_iff ⟨⟨hpos, hpos⟩, hsound, rfl⟩ ops

/-- After `CLEAR`, a character that was waiting is read as zero before the next one. -/
theorem not_forall_answers :
    ¬ ∀ (buffer : ℕ → Word) (ops : List KeyboardOp),
      ({ buffer := buffer } : Keyboard).answers ops = ({} : Typed).answers ops := by
  intro h
  have hops := h (fun _ => 0) [.append 97, .request fun _ => 0, .append 98,
    .request (Function.update (fun _ => 0) 0 1)]
  revert hops
  decide +kernel

end DcpuToolchain
