import DcpuToolchain.Isa
import DcpuToolchain.Lib.Cells

/-!
# Copying strings

`strlen`, `strcpy`, `strncpy`, `strcat` and `strncat` of the C library (`stdlib-c/src/string.c`), on
a memory of words. The buffers may overlap, and the loops may go on for ever: then there is no
result.

All four return a pointer behind what they have written, and but for `strncpy` none writes the zero
that ends the string. For which strings that makes no difference, says
`DcpuToolchain.Libc.copies_iff`.
-/

namespace DcpuToolchain.Libc

open Cells

/-! ### The functions -/

/-- `while (str[i++] != 0) ;` and what is returned: the index has moved on when the zero is
found. -/
def strlenLoop (m : Word → Word) (str : Word) : (fuel : ℕ) → (i : Word) → Option Word
  | 0, _ => none
  | fuel + 1, i => if m (str + i) ≠ 0 then strlenLoop m str fuel (i + 1) else some (i + 1 - 1)

/-- `strlen`. There are no more characters than words. -/
def strlen (m : Word → Word) (str : Word) : Option Word := strlenLoop m str (2 ^ 16) 0

/-- `while (*source != 0) *(destination++) = *(source++);`, with the memory and `destination` after
it. -/
def copyLoop : (fuel : ℕ) → (m : Word → Word) → (destination source : Word) →
    Option ((Word → Word) × Word)
  | 0, _, _, _ => none
  | fuel + 1, m, destination, source =>
    if m source ≠ 0 then
      copyLoop fuel (Function.update m destination (m source)) (destination + 1) (source + 1)
    else some (m, destination)

/-- `strcpy`. -/
def strcpy (m : Word → Word) (destination source : Word) (fuel : ℕ) :
    Option ((Word → Word) × Word) := copyLoop fuel m destination source

/-- The loop of `strncpy`. -/
def strncpyLoop (num : Word) : (fuel : ℕ) → (m : Word → Word) → (destination source i : Word) →
    Option ((Word → Word) × Word)
  | 0, _, _, _, _ => none
  | fuel + 1, m, destination, source, i =>
    if i < num then
      if m source = 0 then
        strncpyLoop num fuel (Function.update m destination 0) (destination + 1) source (i + 1)
      else
        strncpyLoop num fuel (Function.update m destination (m source)) (destination + 1)
          (source + 1) (i + 1)
    else some (m, destination)

/-- `strncpy`. -/
def strncpy (m : Word → Word) (destination source num : Word) (fuel : ℕ) :
    Option ((Word → Word) × Word) := strncpyLoop num fuel m destination source 0

/-- `strcat`. -/
def strcat (m : Word → Word) (destination source : Word) (fuel : ℕ) :
    Option ((Word → Word) × Word) := do
  let len ← strlen m destination
  copyLoop fuel m (destination + len) source

/-- `while (*source != 0 && i++ < num) *(destination++) = *(source++);`. -/
def strncatLoop (num : Word) : (fuel : ℕ) → (m : Word → Word) → (destination source i : Word) →
    Option ((Word → Word) × Word)
  | 0, _, _, _, _ => none
  | fuel + 1, m, destination, source, i =>
    if m source ≠ 0 ∧ i < num then
      strncatLoop num fuel (Function.update m destination (m source)) (destination + 1) (source + 1)
        (i + 1)
    else some (m, destination)

/-- `strncat`. -/
def strncat (m : Word → Word) (destination source num : Word) (fuel : ℕ) :
    Option ((Word → Word) × Word) := do
  let len ← strlen m destination
  strncatLoop num fuel m (destination + len) source 0

/-! ### What is to hold -/

/-- **A call is right**: it comes to an end, returns the pointer, and has written the words from
another one on and nothing else. -/
def Leaves (call : ℕ → Option ((Word → Word) × Word)) (m : Word → Word) (returned at' : Word)
    (words : List Word) : Prop :=
  ∃ fuel m', call fuel = some (m', returned) ∧ Written m m' at' words

/-! ### Lengths -/

section Copies

variable {m m' : Word → Word} {destination source r : Word} {num i : Word} {fuel n : ℕ}

theorem strlenLoop_eq (s : Text m source) {j : ℕ} (hj : j + n = s.chars.length) (hfuel : n < fuel) :
    strlenLoop m source fuel (BitVec.ofNat 16 j) = some (BitVec.ofNat 16 s.chars.length) := by
  obtain ⟨fuel, rfl⟩ := Nat.exists_eq_succ_of_ne_zero (Nat.ne_zero_of_lt hfuel)
  induction n generalizing j fuel with
  | zero =>
    obtain rfl : j = s.chars.length := hj
    have hend : ¬ m (source + BitVec.ofNat 16 s.chars.length) ≠ 0 := not_not.mpr s.terminator
    rw [strlenLoop, if_neg hend, BitVec.add_sub_cancel]
  | succ n ih =>
    obtain ⟨fuel, rfl⟩ := Nat.exists_eq_succ_of_ne_zero (show fuel ≠ 0 by omega)
    have hchar : m (source + BitVec.ofNat 16 j) ≠ 0 := s.char_ne_zero (by omega)
    have hrest := ih (j := j + 1) (by omega) fuel (by omega)
    rw [BitVec.ofNat_add] at hrest
    rw [strlenLoop, if_pos hchar]
    exact hrest

/-- **`strlen` counts the characters**. -/
theorem strlen_eq (s : Text m source) : strlen m source = some (BitVec.ofNat 16 s.chars.length) :=
  strlenLoop_eq s (Nat.zero_add _) s.length_lt

/-! ### Copies -/

/-- What a loop has done that has copied so many characters, none of them a zero. -/
structure Copied (m m' : Word → Word) (destination r : Word) (n : ℕ) : Prop where
  returned : r = ahead destination n
  same : n = 0 → m' = m
  nonzero : ∀ a, m a ≠ 0 → m' a ≠ 0
  copied : ∀ i < n, m' (ahead destination i) ≠ 0

theorem copied_zero (m : Word → Word) (destination : Word) :
    Copied m m destination destination 0 :=
  ⟨(ahead_zero _).symm, fun _ => rfl, fun _ h => h, fun _ h => absurd h (Nat.not_lt_zero _)⟩

/-- One character more. -/
theorem Copied.succ {c : Word} (hc : c ≠ 0)
    (h : Copied (Function.update m destination c) m' (destination + 1) r n) :
    Copied m m' destination r (n + 1) := by
  have hnonzero (a : Word) (ha : m a ≠ 0) : Function.update m destination c a ≠ 0 := by
    by_cases heq : a = destination
    · rw [heq, Function.update_self]
      exact hc
    · rw [Function.update_of_ne heq]
      exact ha
  refine ⟨?_, nofun, fun a ha => h.nonzero a (hnonzero a ha), fun i hi => ?_⟩
  · rw [h.returned, add_one_eq, ahead_ahead, Nat.add_comm]
  · cases i with
    | zero =>
      rw [ahead_zero]
      refine h.nonzero _ ?_
      rw [Function.update_self]
      exact hc
    | succ i =>
      have hcell := h.copied i (by omega)
      rwa [add_one_eq, ahead_ahead, Nat.add_comm] at hcell

/-- **After what has been copied there is no zero**, if with what is before it it fills the
memory. -/
theorem Copied.lt {p : Word} {k : ℕ} (h : Copied m m' (ahead p k) r n)
    (hbefore : ∀ i < k, m (ahead p i) ≠ 0) {a : Word} (ha : m' a = 0) : k + n < 2 ^ 16 := by
  by_contra hfull
  obtain ⟨i, hi, rfl⟩ := exists_ahead p a
  rcases Nat.lt_or_ge i k with hlt | hge
  · exact h.nonzero _ (hbefore i hlt) ha
  · refine h.copied (i - k) (by omega) ?_
    rwa [ahead_ahead, Nat.add_sub_cancel' hge]

/-- So the pointer comes back only if nothing has been copied, and nothing was there before. -/
theorem Copied.eq_zero {p : Word} {k : ℕ} (h : Copied m m' (ahead p k) p n)
    (hbefore : ∀ i < k, m (ahead p i) ≠ 0) {a : Word} (ha : m' a = 0) : k = 0 ∧ n = 0 := by
  have hlt := h.lt hbefore ha
  have hreturned := h.returned.symm
  rw [ahead_ahead, ahead_eq_self_iff, Nat.mod_eq_of_lt hlt] at hreturned
  omega

theorem exists_copied_of_copyLoop (h : copyLoop fuel m destination source = some (m', r)) :
    ∃ n, Copied m m' destination r n ∧ (n = 0 ↔ m source = 0) ∧ m' (ahead source n) = 0 := by
  induction fuel generalizing m destination source with
  | zero => cases h
  | succ fuel ih =>
    rw [copyLoop] at h
    split at h
    · rename_i hc
      obtain ⟨n, hcopied, -, hend⟩ := ih h
      refine ⟨n + 1, hcopied.succ hc, iff_of_false (Nat.succ_ne_zero n) hc, ?_⟩
      rwa [add_one_eq, ahead_ahead, Nat.add_comm] at hend
    · rename_i hc
      cases h
      rw [not_not] at hc
      exact ⟨0, copied_zero _ _, iff_of_true rfl hc, by rwa [ahead_zero]⟩

theorem exists_copied_of_strncatLoop
    (h : strncatLoop num fuel m destination source i = some (m', r)) :
    ∃ n, Copied m m' destination r n ∧ (n = 0 ↔ m source = 0 ∨ num ≤ i) := by
  induction fuel generalizing m destination source i with
  | zero => cases h
  | succ fuel ih =>
    rw [strncatLoop] at h
    split at h
    · rename_i hc
      obtain ⟨n, hcopied, -⟩ := ih h
      refine ⟨n + 1, hcopied.succ hc.1, iff_of_false (Nat.succ_ne_zero n) ?_⟩
      exact not_or.mpr ⟨hc.1, BitVec.not_le.mpr hc.2⟩
    · rename_i hc
      cases h
      rw [not_and_or, not_not, BitVec.not_lt] at hc
      exact ⟨0, copied_zero _ _, iff_of_true rfl hc⟩

theorem returned_of_strncpyLoop (hi : i ≤ num)
    (h : strncpyLoop num fuel m destination source i = some (m', r)) :
    r = ahead destination (num.toNat - i.toNat) := by
  induction fuel generalizing m destination source i with
  | zero => cases h
  | succ fuel ih =>
    have hnext (hlt : i < num) (destination : Word) :
        i + 1 ≤ num ∧ ahead (destination + 1) (num.toNat - (i + 1).toNat) =
          ahead destination (num.toNat - i.toNat) := by
      have hlt' := BitVec.lt_def.mp hlt
      have hsucc : (i + 1).toNat = i.toNat + 1 := by
        rw [BitVec.toNat_add]
        exact Nat.mod_eq_of_lt (show i.toNat + 1 < 2 ^ 16 by omega)
      rw [BitVec.le_def, hsucc, add_one_eq, ahead_ahead]
      exact ⟨hlt', congrArg _ (by omega)⟩
    rw [strncpyLoop] at h
    split at h
    · rename_i hlt
      obtain ⟨hle, hahead⟩ := hnext hlt destination
      rw [← hahead]
      split at h
      · exact ih hle h
      · exact ih hle h
    · rename_i hge
      cases h
      rw [BitVec.not_lt, BitVec.le_def] at hge
      rw [Nat.sub_eq_zero_of_le hge, ahead_zero]

/-- **The characters are copied** from a string that is apart from the destination, and nothing else
is written. -/
theorem exists_copyLoop_written {l : List Word} (hl : 0 ∉ l) (hlength : l.length < 2 ^ 16)
    (hsource : Filled m source (l ++ [0]))
    (hapart : ∀ i < l.length, ∀ j ≤ l.length, ahead source j ≠ ahead destination i)
    (hfuel : l.length < fuel) :
    ∃ m', copyLoop fuel m destination source = some (m', ahead destination l.length) ∧
      Written m m' destination l := by
  obtain ⟨fuel, rfl⟩ := Nat.exists_eq_succ_of_ne_zero (Nat.ne_zero_of_lt hfuel)
  induction l generalizing m destination source fuel with
  | nil =>
    refine ⟨m, ?_, Written.nil m destination⟩
    rw [copyLoop, if_neg (not_not.mpr (filled_singleton.mp hsource)), List.length_nil, ahead_zero]
  | cons c l ih =>
    rw [List.length_cons] at hlength hapart hfuel
    obtain ⟨fuel, rfl⟩ := Nat.exists_eq_succ_of_ne_zero (show fuel ≠ 0 by omega)
    obtain ⟨hc, hl⟩ := not_or.mp (List.mem_cons.not.mp hl)
    rw [List.cons_append] at hsource
    obtain ⟨hchar, hrest⟩ := filled_cons.mp hsource
    have hupdated : Filled (Function.update m destination c) (source + 1) (l ++ [0]) := by
      refine hrest.congr fun j hj => ?_
      rw [List.length_append, List.length_singleton] at hj
      have hne := hapart 0 (Nat.succ_pos _) (1 + j) (by omega)
      rw [ahead_zero, ← ahead_ahead] at hne
      exact Function.update_of_ne hne c m
    have hapart' : ∀ i < l.length, ∀ j ≤ l.length,
        ahead (source + 1) j ≠ ahead (destination + 1) i := by
      intro i hi j hj
      rw [add_one_eq, add_one_eq, ahead_ahead, ahead_ahead]
      exact hapart (1 + i) (by omega) (1 + j) (by omega)
    obtain ⟨m', hloop, hwritten⟩ := ih hl (by omega) hupdated hapart' fuel (by omega)
    refine ⟨m', ?_, ?_⟩
    · rw [copyLoop, hchar, if_pos (Ne.symm hc), hloop, add_one_eq, ahead_ahead, List.length_cons,
        Nat.add_comm]
    · exact (Written.update m destination c).append hwritten (by
        rw [List.length_singleton]
        omega)

end Copies

/-! ### When the functions are right -/

section Right

variable {m : Word → Word} {destination source : Word} (d : Text m destination)
  (s : Text m source)

/-- **`strcpy` leaves a copy** only of the empty string, and only where one is already. -/
theorem strcpy_iff :
    Leaves (strcpy m destination source) m destination destination (s.chars ++ [0]) ↔
      s.chars = [] ∧ m destination = 0 := by
  constructor
  · rintro ⟨fuel, m', h, hwritten⟩
    obtain ⟨n, hcopied, hsource, hend⟩ := exists_copied_of_copyLoop h
    have hcopied' : Copied m m' (ahead destination 0) destination n := by rwa [ahead_zero]
    obtain ⟨-, hn⟩ := hcopied'.eq_zero (fun i hi => absurd hi (Nat.not_lt_zero i)) hend
    have hs := s.eq_nil_iff.mpr (hsource.mp hn)
    refine ⟨hs, ?_⟩
    rw [hs, hcopied.same hn] at hwritten
    exact filled_singleton.mp hwritten.filled
  · rintro ⟨hs, hd⟩
    refine ⟨1, m, if_neg (not_not.mpr (s.eq_nil_iff.mp hs)), ?_⟩
    rw [hs]
    exact ⟨filled_singleton.mpr hd, fun _ _ => rfl⟩

/-- **What `strcpy` does** to a destination apart from the string: the characters are there, and the
pointer is behind them, but a zero is not. -/
theorem exists_strcpy_written
    (hapart : ∀ i < s.chars.length, ∀ j ≤ s.chars.length, ahead source j ≠ ahead destination i) :
    ∃ fuel m', strcpy m destination source fuel =
        some (m', ahead destination s.chars.length) ∧ Written m m' destination s.chars :=
  ⟨2 ^ 16, exists_copyLoop_written s.nonzero s.length_lt s.filled hapart s.length_lt⟩

/-- **`strncpy` returns the pointer** only if it writes nothing. -/
theorem strncpy_iff (num : Word) :
    Leaves (strncpy m destination source num) m destination destination
        ((s.chars ++ List.replicate num.toNat 0).take num.toNat) ↔ num = 0 := by
  constructor
  · rintro ⟨fuel, m', h, -⟩
    have hle : (0 : Word) ≤ num := BitVec.le_def.mpr (Nat.zero_le num.toNat)
    have hreturned := (returned_of_strncpyLoop hle h).symm
    rw [ahead_eq_self_iff] at hreturned
    exact BitVec.eq_of_toNat_eq ((Nat.mod_eq_of_lt num.isLt).symm.trans hreturned)
  · rintro rfl
    refine ⟨1, m, ?_, Written.nil m destination⟩
    rw [strncpy, strncpyLoop, if_neg (by decide)]

/-- What `strcat` and `strncat` write is apart from the text before it. -/
theorem strcat_eq (fuel : ℕ) :
    strcat m destination source fuel =
      copyLoop fuel m (ahead destination d.chars.length) source := by
  rw [strcat, strlen_eq d]
  rfl

theorem strncat_eq (num : Word) (fuel : ℕ) :
    strncat m destination source num fuel =
      strncatLoop num fuel m (ahead destination d.chars.length) source 0 := by
  rw [strncat, strlen_eq d]
  rfl

/-- **`strcat` leaves a concatenation** only of empty strings. -/
theorem strcat_iff :
    Leaves (strcat m destination source) m destination (ahead destination d.chars.length)
        (s.chars ++ [0]) ↔ d.chars = [] ∧ s.chars = [] := by
  constructor
  · rintro ⟨fuel, m', h, -⟩
    rw [strcat_eq d] at h
    obtain ⟨n, hcopied, hsource, hend⟩ := exists_copied_of_copyLoop h
    obtain ⟨hlength, hn⟩ := hcopied.eq_zero (fun i hi => d.char_ne_zero hi) hend
    exact ⟨List.eq_nil_of_length_eq_zero hlength, s.eq_nil_iff.mpr (hsource.mp hn)⟩
  · rintro ⟨hd, hs⟩
    refine ⟨1, m, ?_, ?_⟩
    · rw [strcat_eq d, hd, List.length_nil, ahead_zero]
      exact if_neg (not_not.mpr (s.eq_nil_iff.mp hs))
    · rw [hd, hs, List.length_nil, ahead_zero]
      exact ⟨filled_singleton.mpr (d.eq_nil_iff.mp hd), fun _ _ => rfl⟩

/-- **`strncat` leaves a concatenation** only if both strings, or the first and what is to be
appended, are empty. -/
theorem strncat_iff (num : Word) :
    Leaves (strncat m destination source num) m destination (ahead destination d.chars.length)
        (s.chars.take num.toNat ++ [0]) ↔ d.chars = [] ∧ (s.chars = [] ∨ num = 0) := by
  have hnone : s.chars = [] ∨ num = 0 ↔ m source = 0 ∨ num ≤ 0 := by
    have hzero : num = 0 ↔ num ≤ 0 := by
      rw [BitVec.le_def, ← BitVec.toNat_inj]
      exact Nat.le_zero.symm
    rw [s.eq_nil_iff, hzero]
  constructor
  · rintro ⟨fuel, m', h, hwritten⟩
    rw [strncat_eq d] at h
    obtain ⟨n, hcopied, hsource⟩ := exists_copied_of_strncatLoop h
    have hend := filled_singleton.mp (filled_append.mp hwritten.filled).2
    obtain ⟨hlength, hn⟩ := hcopied.eq_zero (fun i hi => d.char_ne_zero hi) hend
    exact ⟨List.eq_nil_of_length_eq_zero hlength, hnone.mpr (hsource.mp hn)⟩
  · rintro ⟨hd, hs⟩
    refine ⟨1, m, ?_, ?_⟩
    · rw [strncat_eq d, hd, List.length_nil, ahead_zero]
      refine if_neg fun hmore => ?_
      exact (hnone.mp hs).elim hmore.1 fun hle => BitVec.not_le.mpr hmore.2 hle
    · have hempty : s.chars.take num.toNat = [] := by
        rcases hs with hs | rfl
        · rw [hs, List.take_nil]
        · exact List.take_zero
      rw [hempty, hd, List.length_nil, ahead_zero]
      exact ⟨filled_singleton.mpr (d.eq_nil_iff.mp hd), fun _ _ => rfl⟩

/-- **When strings are copied rightly**, for each of the functions. -/
theorem copies_iff (num : Word) :
    (Leaves (strcpy m destination source) m destination destination (s.chars ++ [0]) ↔
      s.chars = [] ∧ m destination = 0) ∧
    (Leaves (strncpy m destination source num) m destination destination
        ((s.chars ++ List.replicate num.toNat 0).take num.toNat) ↔ num = 0) ∧
    (Leaves (strcat m destination source) m destination (ahead destination d.chars.length)
        (s.chars ++ [0]) ↔ d.chars = [] ∧ s.chars = []) ∧
    (Leaves (strncat m destination source num) m destination (ahead destination d.chars.length)
        (s.chars.take num.toNat ++ [0]) ↔ d.chars = [] ∧ (s.chars = [] ∨ num = 0)) :=
  ⟨strcpy_iff s, strncpy_iff s num, strcat_iff d s, strncat_iff d s num⟩

end Right

/-- A string of one character, and a buffer in which there was something else before. -/
def staleMemory (a : Word) : Word :=
  if a = 0 then 120 else if a = 1 then 0 else if a = 9 then 0 else 121

def textSource : Text staleMemory 0 where
  chars := [120]
  length_lt := by decide
  filled := filled_cons.mpr ⟨rfl, filled_singleton.mpr rfl⟩
  nonzero := by decide

def textBuffer : Text staleMemory 8 where
  chars := [121]
  length_lt := by decide
  filled := filled_cons.mpr ⟨rfl, filled_singleton.mpr rfl⟩
  nonzero := by decide

/-- The pointer that is returned for a string of one character is not that of the buffer. -/
theorem not_forall_copies :
    ¬ ∀ (m : Word → Word) (destination source : Word) (d : Text m destination)
      (s : Text m source) (num : Word),
      Leaves (strcpy m destination source) m destination destination (s.chars ++ [0]) ∧
      Leaves (strncpy m destination source num) m destination destination
        ((s.chars ++ List.replicate num.toNat 0).take num.toNat) ∧
      Leaves (strcat m destination source) m destination (ahead destination d.chars.length)
        (s.chars ++ [0]) ∧
      Leaves (strncat m destination source num) m destination (ahead destination d.chars.length)
        (s.chars.take num.toNat ++ [0]) := by
  intro h
  obtain ⟨hempty, -⟩ :=
    (strcpy_iff textSource).mp (h staleMemory 8 0 textBuffer textSource 0).1
  cases hempty

end DcpuToolchain.Libc
