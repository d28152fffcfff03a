import DcpuToolchain.Isa
import DcpuToolchain.Lib.Cells
import DcpuToolchain.Lib.Lexicographic
import Mathlib.Data.List.Lex

/-!
# Comparing strings

`strcmp` and `strncmp` of the C library (`stdlib-c/src/string.c`). A `char` is a word, and so is a
pointer. Whether a `char` is signed is left to the compiler.

`strcmp` begins with an index that it never initialises, and takes the end of either string for the
end of both. `strncmp` steps on before it compares, so that it leaves out the first characters and
compares one too many. `DcpuToolchain.Libc.comparisons_iff` says when they are right all the same.
-/

namespace DcpuToolchain.Libc

open Cells Lexicographic

/-! ### The functions -/

/-- A `char` as an `int`. -/
def charValue (signed : Bool) (c : Word) : ℤ := if signed then c.toInt else c.toNat

theorem charValue_injective (signed : Bool) : (charValue signed).Injective := by
  intro c d h
  cases signed with
  | false => exact BitVec.toNat_inj.mp (Int.ofNat.inj h)
  | true => exact BitVec.toInt_inj.mp h

/-- The branches of the loops that return. -/
def compareChars (signed : Bool) (c d : Word) : Option ℤ :=
  if charValue signed d < charValue signed c then some 1
  else if charValue signed c < charValue signed d then some (-1)
  else none

section Source

variable (signed : Bool) (m : Word → Word) (first second : Word)

/-- The loop of `strcmp`, with the indices at which it has read. -/
def strcmpLoop : (fuel : ℕ) → (i : Word) → (read : List Word) → Option (ℤ × List Word)
  | 0, _, _ => none
  | fuel + 1, i, read =>
    if m (first + i) ≠ 0 ∧ m (second + i) ≠ 0 then
      match compareChars signed (m (first + i)) (m (second + i)) with
      | some r => some (r, read ++ [i])
      | none => strcmpLoop fuel (i + 1) (read ++ [i])
    else some (0, read ++ [i])

/-- `strcmp`, where `i` is what happens to be in the variable. There are no more indices than
words. -/
def strcmp (i : Word) : Option (ℤ × List Word) := strcmpLoop signed m first second (2 ^ 16) i []

/-- The loop of `strncmp`: the condition `i++ < num` has moved the index when characters are
compared. -/
def strncmpLoop (num : Word) : (fuel : ℕ) → (i : Word) → (read : List Word) →
    Option (ℤ × List Word)
  | 0, _, _ => none
  | fuel + 1, i, read =>
    if m (first + i) ≠ 0 ∧ m (second + i) ≠ 0 then
      if i < num then
        match compareChars signed (m (first + (i + 1))) (m (second + (i + 1))) with
        | some r => some (r, read ++ [i, i + 1])
        | none => strncmpLoop num fuel (i + 1) (read ++ [i, i + 1])
      else some (0, read ++ [i])
    else some (0, read ++ [i])

/-- `strncmp`. -/
def strncmp (num : Word) : Option (ℤ × List Word) :=
  strncmpLoop signed m first second num (2 ^ 16) 0 []

end Source

/-! ### What is to hold -/

/-- The number says which list comes first in the order of dictionaries. -/
structure Compares (signed : Bool) (s t : List Word) (r : ℤ) : Prop where
  before : r < 0 ↔ s.map (charValue signed) < t.map (charValue signed)
  equal : r = 0 ↔ s = t
  after : 0 < r ↔ t.map (charValue signed) < s.map (charValue signed)

/-- **The strings are compared**, and nothing is read behind the first place at which they differ or
end. -/
def ComparesTexts (signed : Bool) (s t : List Word) (n : Option ℕ)
    (result : Option (ℤ × List Word)) : Prop :=
  ∃ r read, result = some (r, read) ∧
    Compares signed ((n.elim s s.take)) ((n.elim t t.take)) r ∧ ∀ i ∈ read, i.toNat ≤ common s t

/-- The end of the string that ends first counts less than the character of the other there. -/
structure EndsBelow (signed : Bool) (s t : List Word) : Prop where
  left : common s t = s.length → 0 < charValue signed (t.getD (common s t) 0)
  right : common s t = t.length → 0 < charValue signed (s.getD (common s t) 0)

/-! ### The place where strings part -/

section Place

variable {signed : Bool} {s t : List Word}

theorem charValue_zero (signed : Bool) : charValue signed 0 = 0 := by
  cases signed <;> rfl

variable (signed) in
/-- Characters that differ are told apart. -/
theorem compareChars_of_ne {c d : Word} (h : c ≠ d) :
    ∃ r, compareChars signed c d = some r ∧ r ≠ 0 ∧
      (r < 0 ↔ charValue signed c < charValue signed d) ∧
      (0 < r ↔ charValue signed d < charValue signed c) := by
  unfold compareChars
  rcases lt_trichotomy (charValue signed c) (charValue signed d) with hlt | heq | hlt
  · rw [if_neg hlt.asymm, if_pos hlt]
    exact ⟨-1, rfl, by decide, iff_of_true (by decide) hlt, iff_of_false (by decide) hlt.asymm⟩
  · exact absurd (charValue_injective signed heq) h
  · rw [if_pos hlt]
    exact ⟨1, rfl, by decide, iff_of_false (by decide) hlt.asymm, iff_of_true (by decide) hlt⟩

theorem compareChars_self (c : Word) : compareChars signed c c = none := by
  rw [compareChars, if_neg (lt_irrefl _), if_neg (lt_irrefl _)]

/-- A character of a string is not its end. -/
theorem getD_eq_zero_iff (hs : 0 ∉ s) {i : ℕ} : s.getD i 0 = 0 ↔ s.length ≤ i := by
  rw [List.getD_eq_getElem?_getD]
  rcases Nat.lt_or_ge i s.length with hlt | hge
  · rw [List.getElem?_eq_getElem hlt, Option.getD_some]
    refine iff_of_false (fun hzero => hs (hzero ▸ List.getElem_mem hlt)) ?_
    exact Nat.not_le_of_lt hlt
  · rw [List.getElem?_eq_none hge]
    exact iff_of_true rfl hge

/-- **Where strings part**, their characters, or ends, differ. -/
theorem getD_common_eq_iff (hs : 0 ∉ s) (ht : 0 ∉ t) :
    s.getD (common s t) 0 = t.getD (common s t) 0 ↔ s = t := by
  constructor
  · intro h
    rw [← getElem?_common_eq_iff]
    rcases Nat.lt_or_ge (common s t) s.length with hlt | hge
    · have hne : t.getD (common s t) 0 ≠ 0 := by
        rw [← h, Ne, getD_eq_zero_iff hs]
        exact Nat.not_le_of_lt hlt
      rw [Ne, getD_eq_zero_iff ht, Nat.not_le] at hne
      rw [List.getD_eq_getElem?_getD, List.getD_eq_getElem?_getD, List.getElem?_eq_getElem hlt,
        List.getElem?_eq_getElem hne] at h
      rw [List.getElem?_eq_getElem hlt, List.getElem?_eq_getElem hne]
      exact congrArg some h
    · have hzero := (getD_eq_zero_iff hs).mpr hge
      rw [h, getD_eq_zero_iff ht] at hzero
      rw [List.getElem?_eq_none hge, List.getElem?_eq_none hzero]
  · rintro rfl
    rfl

variable (signed) in
/-- Characters there are in the order of the strings. -/
theorem lt_iff_of_lt (hs : common s t < s.length) (ht : common s t < t.length) :
    s.map (charValue signed) < t.map (charValue signed) ↔
      charValue signed (s.getD (common s t) 0) < charValue signed (t.getD (common s t) 0) := by
  rw [map_lt_map_iff (charValue_injective signed), List.getD_eq_getElem?_getD,
    List.getD_eq_getElem?_getD, List.getElem?_eq_getElem hs, List.getElem?_eq_getElem ht]
  constructor
  · rintro ⟨_, ⟨⟩, hlt⟩
    exact hlt _ rfl
  · intro hlt
    exact ⟨_, rfl, by rintro _ ⟨⟩; exact hlt⟩

variable (signed) in
/-- A proper beginning comes first. -/
theorem lt_of_end (hs : common s t = s.length) (ht : common s t < t.length) :
    s.map (charValue signed) < t.map (charValue signed) := by
  rw [map_lt_map_iff (charValue_injective signed), List.getElem?_eq_getElem ht,
    List.getElem?_eq_none hs.ge]
  exact ⟨_, rfl, nofun⟩

variable (signed) in
/-- **The characters and ends where strings part** are in the order of the strings exactly if an end
counts less than what is in its place. -/
theorem ordered_iff (hs : 0 ∉ s) (ht : 0 ∉ t) (hne : s ≠ t) :
    ((s.map (charValue signed) < t.map (charValue signed) ↔
        charValue signed (s.getD (common s t) 0) < charValue signed (t.getD (common s t) 0)) ∧
      (t.map (charValue signed) < s.map (charValue signed) ↔
        charValue signed (t.getD (common s t) 0) < charValue signed (s.getD (common s t) 0))) ↔
      EndsBelow signed s t := by
  have hle := common_le_length s t
  have hle' := common_le_length t s
  rw [common_comm] at hle'
  have hplace := (getD_common_eq_iff hs ht).not.mpr hne
  rcases Nat.lt_or_eq_of_le hle with hlt | heq
  · rcases Nat.lt_or_eq_of_le hle' with hlt' | heq'
    · refine iff_of_true ⟨lt_iff_of_lt signed hlt hlt', ?_⟩
        ⟨fun h => absurd h hlt.ne, fun h => absurd h hlt'.ne⟩
      have hswap := lt_iff_of_lt signed (s := t) (t := s)
      rw [common_comm] at hswap
      exact hswap hlt' hlt
    · have hafter : t.map (charValue signed) < s.map (charValue signed) :=
        lt_of_end signed (by rw [common_comm, heq']) (by rw [common_comm]; exact hlt)
      have hend : t.getD (common s t) 0 = 0 := (getD_eq_zero_iff ht).mpr heq'.ge
      rw [hend, charValue_zero]
      constructor
      · rintro ⟨-, hright⟩
        exact ⟨fun h => absurd h hlt.ne, fun _ => hright.mp hafter⟩
      · rintro ⟨-, hright⟩
        exact ⟨iff_of_false hafter.asymm (hright heq').asymm, iff_of_true hafter (hright heq')⟩
  · have hlt' : common s t < t.length := by
      refine Nat.lt_of_le_of_ne hle' fun heq' => hplace ?_
      rw [(getD_eq_zero_iff hs).mpr heq.ge, (getD_eq_zero_iff ht).mpr heq'.ge]
    have hbefore := lt_of_end signed heq hlt'
    have hend : s.getD (common s t) 0 = 0 := (getD_eq_zero_iff hs).mpr heq.ge
    rw [hend, charValue_zero]
    constructor
    · rintro ⟨hleft, -⟩
      exact ⟨fun _ => hleft.mp hbefore, fun h => absurd h hlt'.ne⟩
    · rintro ⟨hleft, -⟩
      exact ⟨iff_of_true hbefore (hleft heq), iff_of_false hbefore.asymm (hleft heq).asymm⟩

variable (signed) in
/-- In the first so many characters strings part at the same place. -/
theorem map_take_lt_iff_map_lt {n : ℕ} (hn : common s t < n) :
    (s.take n).map (charValue signed) < (t.take n).map (charValue signed) ↔
      s.map (charValue signed) < t.map (charValue signed) := by
  rw [map_take_lt_iff (charValue_injective signed) hn, map_lt_map_iff (charValue_injective signed)]

/-- Equal strings compare as equal. -/
theorem compares_self (signed : Bool) (s : List Word) : Compares signed s s 0 :=
  ⟨iff_of_false (lt_irrefl _) (lt_irrefl _), iff_of_true rfl rfl,
    iff_of_false (lt_irrefl _) (lt_irrefl _)⟩

end Place

/-! ### The loops -/

section Loops

variable {signed : Bool} {m : Word → Word} {first second : Word} (s : Text m first)
  (t : Text m second)

/-- Up to the place the strings are read without end. -/
theorem agrees {i : ℕ} (hi : i < common s.chars t.chars) :
    m (ahead first i) ≠ 0 ∧ m (ahead second i) = m (ahead first i) := by
  have hs : i < s.chars.length := hi.trans_le (common_le_length _ _)
  have ht : i < t.chars.length := hi.trans_le (common_comm s.chars _ ▸ common_le_length _ _)
  refine ⟨s.char_ne_zero hs, ?_⟩
  have hsame := getElem?_of_lt_common hi
  rw [List.getElem?_eq_getElem hs, List.getElem?_eq_getElem ht] at hsame
  rw [s.char hs, t.char ht]
  exact (Option.some.inj hsame).symm

theorem common_lt : common s.chars t.chars < 2 ^ 16 :=
  (common_le_length _ _).trans_lt s.length_lt

/-- What is read at the place. -/
theorem reads_place :
    m (ahead first (common s.chars t.chars)) = s.chars.getD (common s.chars t.chars) 0 ∧
      m (ahead second (common s.chars t.chars)) = t.chars.getD (common s.chars t.chars) 0 :=
  ⟨s.getD (common_le_length _ _), t.getD (common_comm s.chars _ ▸ common_le_length _ _)⟩

/-- At the place the characters differ, unless the strings end there. -/
theorem place_eq_iff :
    m (ahead first (common s.chars t.chars)) = m (ahead second (common s.chars t.chars)) ↔
      s.chars = t.chars := by
  rw [(reads_place s t).1, (reads_place s t).2]
  exact getD_common_eq_iff s.nonzero t.nonzero

theorem place_of_eq (h : s.chars = t.chars) : m (ahead first (common s.chars t.chars)) = 0 := by
  rw [← h, common_self]
  exact s.terminator

/-- What is read at an index up to the place is recorded. -/
theorem mem_read_le (read : List Word) {j : ℕ} (hj : j ≤ common s.chars t.chars) :
    ∀ i ∈ read ++ [BitVec.ofNat 16 j], i ∈ read ∨ i.toNat ≤ common s.chars t.chars := by
  have hlt := common_lt s t
  rw [List.forall_mem_append]
  refine ⟨fun i hi => .inl hi, fun i hi => .inr ?_⟩
  rw [List.mem_singleton.mp hi, BitVec.toNat_ofNat, Nat.mod_eq_of_lt (by omega)]
  exact hj

variable (signed) in
/-- **The loop of `strcmp`** goes on to the place where the strings part. -/
theorem strcmpLoop_eq {n j fuel : ℕ} (hj : j + n = common s.chars t.chars) (hfuel : n < fuel)
    (read : List Word) :
    ∃ read', strcmpLoop signed m first second fuel (BitVec.ofNat 16 j) read =
        some (if m (ahead first (common s.chars t.chars)) ≠ 0 ∧
            m (ahead second (common s.chars t.chars)) ≠ 0 then
          (compareChars signed (m (ahead first (common s.chars t.chars)))
            (m (ahead second (common s.chars t.chars)))).getD 0 else 0, read') ∧
      ∀ i ∈ read', i ∈ read ∨ i.toNat ≤ common s.chars t.chars := by
  obtain ⟨fuel, rfl⟩ := Nat.exists_eq_succ_of_ne_zero (Nat.ne_zero_of_lt hfuel)
  induction n generalizing j fuel read with
  | zero =>
    obtain rfl : j = common s.chars t.chars := hj
    by_cases hboth : m (ahead first (common s.chars t.chars)) ≠ 0 ∧
        m (ahead second (common s.chars t.chars)) ≠ 0
    · have hne := (place_eq_iff s t).not.mpr fun h => hboth.1 (place_of_eq s t h)
      obtain ⟨r, hr, -⟩ := compareChars_of_ne signed hne
      refine ⟨_, ?_, mem_read_le s t _ le_rfl⟩
      rw [if_pos hboth, hr, strcmpLoop]
      change (if m (ahead first _) ≠ 0 ∧ m (ahead second _) ≠ 0 then
        (match compareChars signed (m (ahead first _)) (m (ahead second _)) with
          | some r => _
          | none => _) else _) = _
      rw [if_pos hboth, hr]
      rfl
    · rw [if_neg hboth]
      exact ⟨_, if_neg hboth, mem_read_le s t _ le_rfl⟩
  | succ n ih =>
    obtain ⟨hchar, hsame⟩ := agrees s t (show j < common s.chars t.chars by omega)
    obtain ⟨fuel, rfl⟩ := Nat.exists_eq_succ_of_ne_zero (show fuel ≠ 0 by omega)
    obtain ⟨read', hrest, hread⟩ := ih (j := j + 1) (by omega) (read ++ [BitVec.ofNat 16 j]) fuel
      (by omega)
    refine ⟨read', ?_, fun i hi => (hread i hi).elim (mem_read_le s t _ (by omega) i) .inr⟩
    rw [← hrest, strcmpLoop]
    change (if m (ahead first j) ≠ 0 ∧ m (ahead second j) ≠ 0 then
      (match compareChars signed (m (ahead first j)) (m (ahead second j)) with
        | some r => _
        | none => _) else _) = _
    rw [if_pos ⟨hchar, hsame ▸ hchar⟩, hsame, compareChars_self, BitVec.ofNat_add]
    rfl

/-- The loop of `strcmp` records the index that it begins with, and forgets none. -/
theorem mem_of_strcmpLoop {fuel : ℕ} {i : Word} {read read' : List Word} {r : ℤ}
    (h : strcmpLoop signed m first second fuel i read = some (r, read')) :
    i ∈ read' ∧ ∀ x ∈ read, x ∈ read' := by
  have hlast (i : Word) (read : List Word) :
      i ∈ read ++ [i] ∧ ∀ x ∈ read, x ∈ read ++ [i] :=
    ⟨List.mem_append_right _ List.mem_cons_self, fun x hx => List.mem_append_left _ hx⟩
  induction fuel generalizing i read with
  | zero => cases h
  | succ fuel ih =>
    rw [strcmpLoop] at h
    split at h
    · split at h
      · cases h
        exact hlast i read
      · obtain ⟨-, hread⟩ := ih h
        exact ⟨hread _ (hlast i read).1, fun x hx => hread x ((hlast i read).2 x hx)⟩
    · cases h
      exact hlast i read

/-- **When `strcmp` is right**: if it begins before the strings part, and neither goes on where the
other ends. -/
theorem strcmp_iff (i : Word) :
    ComparesTexts signed s.chars t.chars none (strcmp signed m first second i) ↔
      i.toNat ≤ common s.chars t.chars ∧
        (s.chars = t.chars ∨ common s.chars t.chars < s.chars.length ∧
          common s.chars t.chars < t.chars.length) := by
  have hlt := common_lt s t
  have hplace := reads_place s t
  have hresult (hi : i.toNat ≤ common s.chars t.chars) :=
    strcmpLoop_eq signed s t
      (show i.toNat + (common s.chars t.chars - i.toNat) = _ by omega)
      (show _ < 2 ^ 16 by omega) []
  rw [BitVec.ofNat_toNat, BitVec.setWidth_eq] at hresult
  have hs (h : m (ahead first (common s.chars t.chars)) ≠ 0) :
      common s.chars t.chars < s.chars.length := by
    rw [hplace.1, Ne, getD_eq_zero_iff s.nonzero] at h
    exact Nat.lt_of_not_le h
  have ht (h : m (ahead second (common s.chars t.chars)) ≠ 0) :
      common s.chars t.chars < t.chars.length := by
    rw [hplace.2, Ne, getD_eq_zero_iff t.nonzero] at h
    exact Nat.lt_of_not_le h
  constructor
  · rintro ⟨r, read, hr, hcompares, hread⟩
    have hi := hread i (mem_of_strcmpLoop hr).1
    obtain ⟨read', hloop, -⟩ := hresult hi
    refine ⟨hi, ?_⟩
    by_cases hboth : m (ahead first (common s.chars t.chars)) ≠ 0 ∧
        m (ahead second (common s.chars t.chars)) ≠ 0
    · exact .inr ⟨hs hboth.1, ht hboth.2⟩
    · rw [if_neg hboth] at hloop
      cases hr.symm.trans hloop
      exact .inl (hcompares.equal.mp rfl)
  · rintro ⟨hi, hstrings⟩
    obtain ⟨read', hloop, hread⟩ := hresult hi
    refine ⟨_, read', hloop, ?_, fun i hi => (hread i hi).resolve_left List.not_mem_nil⟩
    rcases hstrings with heq | ⟨hsl, htl⟩
    · rw [if_neg fun hboth => hboth.1 (place_of_eq s t heq), ← heq]
      exact compares_self signed s.chars
    · have hne : s.chars ≠ t.chars := by
        rintro heq
        rw [← heq, common_self] at hsl
        exact absurd hsl (lt_irrefl _)
      have hdiffer := (place_eq_iff s t).not.mpr hne
      have hboth : m (ahead first (common s.chars t.chars)) ≠ 0 ∧
          m (ahead second (common s.chars t.chars)) ≠ 0 := by
        rw [hplace.1, hplace.2, Ne, Ne, getD_eq_zero_iff s.nonzero, getD_eq_zero_iff t.nonzero]
        exact ⟨Nat.not_le_of_lt hsl, Nat.not_le_of_lt htl⟩
      obtain ⟨r, hr, hzero, hbefore, hafter⟩ := compareChars_of_ne signed hdiffer
      rw [if_pos hboth, hr]
      have hends : EndsBelow signed s.chars t.chars :=
        ⟨fun h => absurd h hsl.ne, fun h => absurd h htl.ne⟩
      obtain ⟨hlt, hgt⟩ := (ordered_iff signed s.nonzero t.nonzero hne).mpr hends
      rw [← hplace.1, ← hplace.2] at hlt hgt
      exact ⟨hbefore.trans hlt.symm, iff_of_false hzero hne, hafter.trans hgt.symm⟩

/-- One turn of `strncmp` before the strings part. -/
theorem strncmpLoop_succ {num : Word} {j fuel : ℕ} (hj : j < common s.chars t.chars)
    (read : List Word) :
    strncmpLoop signed m first second num (fuel + 1) (BitVec.ofNat 16 j) read =
      if j < num.toNat then
        match compareChars signed (m (ahead first (j + 1))) (m (ahead second (j + 1))) with
        | some r => some (r, read ++ [BitVec.ofNat 16 j, BitVec.ofNat 16 (j + 1)])
        | none => strncmpLoop signed m first second num fuel (BitVec.ofNat 16 (j + 1))
            (read ++ [BitVec.ofNat 16 j, BitVec.ofNat 16 (j + 1)])
      else some (0, read ++ [BitVec.ofNat 16 j]) := by
  have hlt := common_lt s t
  obtain ⟨hchar, hsame⟩ := agrees s t hj
  have hstep : BitVec.ofNat 16 j + 1 = BitVec.ofNat 16 (j + 1) := by
    rw [BitVec.ofNat_add]
    rfl
  have hbound : BitVec.ofNat 16 j < num ↔ j < num.toNat := by
    rw [BitVec.lt_def, BitVec.toNat_ofNat, Nat.mod_eq_of_lt (by omega)]
  have hboth : m (first + BitVec.ofNat 16 j) ≠ 0 ∧ m (second + BitVec.ofNat 16 j) ≠ 0 :=
    ⟨hchar, hsame ▸ hchar⟩
  rw [strncmpLoop, if_pos hboth, hstep]
  simp only [hbound]
  rfl

/-- What is read at two indices up to the place is recorded. -/
theorem mem_read_le_two (read : List Word) {j : ℕ} (hj : j < common s.chars t.chars) :
    ∀ i ∈ read ++ [BitVec.ofNat 16 j, BitVec.ofNat 16 (j + 1)],
      i ∈ read ∨ i.toNat ≤ common s.chars t.chars := by
  intro i hi
  have hi' : i ∈ (read ++ [BitVec.ofNat 16 j]) ++ [BitVec.ofNat 16 (j + 1)] := by
    rwa [List.append_assoc]
  exact (mem_read_le s t _ hj i hi').elim (mem_read_le s t _ hj.le i) .inr

variable (signed) in
/-- **The loop of `strncmp`** compares the characters at the place where the strings part,
unless the number of characters is less; but it does not compare the first ones. -/
theorem strncmpLoop_eq {num : Word} {n j fuel : ℕ} (hj : j + 1 + n = common s.chars t.chars)
    (hnum : j ≤ num.toNat) (hfuel : n + 1 < fuel) (read : List Word) :
    ∃ read', strncmpLoop signed m first second num fuel (BitVec.ofNat 16 j) read =
        some (if common s.chars t.chars ≤ num.toNat then
          (compareChars signed (m (ahead first (common s.chars t.chars)))
            (m (ahead second (common s.chars t.chars)))).getD 0 else 0, read') ∧
      ∀ i ∈ read', i ∈ read ∨ i.toNat ≤ common s.chars t.chars := by
  obtain ⟨fuel, rfl⟩ := Nat.exists_eq_succ_of_ne_zero (Nat.ne_zero_of_lt hfuel)
  induction n generalizing j fuel read with
  | zero =>
    have hplace : j + 1 = common s.chars t.chars := hj
    rw [strncmpLoop_succ s t (by omega), hplace]
    by_cases hlimit : j < num.toNat
    · rw [if_pos hlimit, if_pos (by omega)]
      have hread := mem_read_le_two s t read (show j < common s.chars t.chars by omega)
      rw [hplace] at hread
      by_cases heq : s.chars = t.chars
      · -- the strings end, which is seen in the next turn
        obtain ⟨fuel, rfl⟩ := Nat.exists_eq_succ_of_ne_zero (show fuel ≠ 0 by omega)
        have hzero : ¬ (m (first + BitVec.ofNat 16 (common s.chars t.chars)) ≠ 0 ∧
            m (second + BitVec.ofNat 16 (common s.chars t.chars)) ≠ 0) :=
          fun hboth => hboth.1 (place_of_eq s t heq)
        rw [← (place_eq_iff s t).mpr heq, compareChars_self]
        dsimp only
        rw [strncmpLoop, if_neg hzero]
        exact ⟨_, rfl, fun i hi => (mem_read_le s t _ le_rfl i hi).elim (hread i) .inr⟩
      · obtain ⟨r, hr, -⟩ :=
          compareChars_of_ne signed ((place_eq_iff s t).not.mpr heq)
        rw [hr]
        exact ⟨_, rfl, hread⟩
    · rw [if_neg hlimit, if_neg (by omega)]
      exact ⟨_, rfl, mem_read_le s t _ (by omega)⟩
  | succ n ih =>
    rw [strncmpLoop_succ s t (by omega)]
    by_cases hlimit : j < num.toNat
    · obtain ⟨fuel, rfl⟩ := Nat.exists_eq_succ_of_ne_zero (show fuel ≠ 0 by omega)
      obtain ⟨-, hsame⟩ := agrees s t (show j + 1 < common s.chars t.chars by omega)
      obtain ⟨read', hrest, hread⟩ := ih (j := j + 1) (by omega) hlimit
        (read ++ [BitVec.ofNat 16 j, BitVec.ofNat 16 (j + 1)]) fuel (by omega)
      rw [if_pos hlimit, hsame, compareChars_self]
      exact ⟨read', hrest, fun i hi => (hread i hi).elim (mem_read_le_two s t _ (by omega) i) .inr⟩
    · rw [if_neg hlimit, if_neg (by omega)]
      exact ⟨_, rfl, mem_read_le s t _ (by omega)⟩

/-- The loop of `strncmp` forgets no index. -/
theorem mem_of_strncmpLoop {num : Word} {fuel : ℕ} {i : Word} {read read' : List Word} {r : ℤ}
    (h : strncmpLoop signed m first second num fuel i read = some (r, read')) :
    ∀ x ∈ read, x ∈ read' := by
  induction fuel generalizing i read with
  | zero => cases h
  | succ fuel ih =>
    rw [strncmpLoop] at h
    split at h
    · split at h
      · split at h
        · cases h
          exact fun x hx => List.mem_append_left _ hx
        · exact fun x hx => ih h x (List.mem_append_left _ hx)
      · cases h
        exact fun x hx => List.mem_append_left _ hx
    · cases h
      exact fun x hx => List.mem_append_left _ hx

/-- The first turn of `strncmp`. -/
theorem strncmp_eq (num : Word) :
    strncmp signed m first second num =
      if m first ≠ 0 ∧ m second ≠ 0 then
        if num ≠ 0 then
          match compareChars signed (m (first + 1)) (m (second + 1)) with
          | some r => some (r, [0, 1])
          | none => strncmpLoop signed m first second num 65535 1 [0, 1]
        else some (0, [0])
      else some (0, [0]) := by
  have hadd (p : Word) : p + 0 = p := BitVec.add_zero p
  have hpos : 0 < num ↔ num ≠ 0 := by
    rw [BitVec.lt_def, Ne, ← BitVec.toNat_inj]
    exact Nat.pos_iff_ne_zero
  rw [strncmp, show 2 ^ 16 = 65535 + 1 from rfl, strncmpLoop]
  simp only [hadd, hpos]
  rfl

/-- If both strings have a character, `strncmp` reads the second ones. -/
theorem strncmp_reads_second {num : Word} (hnum : num ≠ 0) (hboth : m first ≠ 0 ∧ m second ≠ 0)
    {r : ℤ} {read : List Word} (h : strncmp signed m first second num = some (r, read)) :
    1 ∈ read := by
  rw [strncmp_eq, if_pos hboth, if_pos hnum] at h
  split at h
  · cases h
    exact List.mem_cons_of_mem _ List.mem_cons_self
  · exact mem_of_strncmpLoop h _ (List.mem_cons_of_mem _ List.mem_cons_self)

/-- `strncmp` on strings that part at once. -/
theorem strncmp_iff_of_common_eq_zero (num : Word) (hzero : common s.chars t.chars = 0) :
    ComparesTexts signed s.chars t.chars (some num.toNat) (strncmp signed m first second num) ↔
      num = 0 ∨ s.chars = t.chars := by
  have hnum : num = 0 ↔ num.toNat ≤ common s.chars t.chars := by
    rw [hzero, Nat.le_zero, ← BitVec.toNat_inj]
    rfl
  have htake : s.chars.take num.toNat = t.chars.take num.toNat ↔
      num = 0 ∨ s.chars = t.chars := by
    rw [take_eq_iff, hnum, or_comm]
  -- where nothing is compared, the result is 0
  have hresult (h : strncmp signed m first second num = some (0, [0])) :
      ComparesTexts signed s.chars t.chars (some num.toNat) (strncmp signed m first second num) ↔
        num = 0 ∨ s.chars = t.chars := by
    rw [← htake]
    constructor
    · rintro ⟨r, read, hr, hcompares, -⟩
      cases h.symm.trans hr
      exact hcompares.equal.mp rfl
    · intro heq
      refine ⟨0, [0], h, ?_, fun i hi => ?_⟩
      · change Compares signed (s.chars.take num.toNat) (t.chars.take num.toNat) 0
        rw [heq]
        exact compares_self signed _
      · rw [List.mem_singleton.mp hi]
        exact Nat.zero_le _
  by_cases hboth : m first ≠ 0 ∧ m second ≠ 0
  · by_cases hnone : num = 0
    · refine hresult ?_
      rw [strncmp_eq, if_pos hboth, if_neg (not_not.mpr hnone)]
    · have hdiffer : s.chars ≠ t.chars := by
        intro heq
        have hend := place_of_eq s t heq
        rw [hzero, ahead_zero] at hend
        exact hboth.1 hend
      refine iff_of_false ?_ (not_or.mpr ⟨hnone, hdiffer⟩)
      rintro ⟨r, read, hr, -, hread⟩
      have hone := hread 1 (strncmp_reads_second hnone hboth hr)
      rw [hzero] at hone
      exact absurd hone (by decide)
  · refine hresult ?_
    rw [strncmp_eq, if_neg hboth]

/-- **When `strncmp` is right**: if it compares nothing, or the strings are the same, or they part
behind the first character and not right behind the last one, and then so that an end counts
less. -/
theorem strncmp_iff (num : Word) :
    ComparesTexts signed s.chars t.chars (some num.toNat) (strncmp signed m first second num) ↔
      num = 0 ∨ s.chars = t.chars ∨ num.toNat < common s.chars t.chars ∨
        0 < common s.chars t.chars ∧ common s.chars t.chars < num.toNat ∧
          EndsBelow signed s.chars t.chars := by
  have hlt := common_lt s t
  rcases Nat.eq_zero_or_pos (common s.chars t.chars) with hzero | hpos
  · rw [strncmp_iff_of_common_eq_zero s t num hzero]
    refine or_congr_right (iff_self_or.mpr ?_)
    rintro (h | ⟨h, -⟩) <;> omega
  obtain ⟨read, hloop, hread⟩ := strncmpLoop_eq signed s t
    (show 0 + 1 + (common s.chars t.chars - 1) = _ by omega) (Nat.zero_le num.toNat)
    (show _ < 2 ^ 16 by omega) []
  have hright (r : ℤ) (hr : strncmp signed m first second num = some (r, read)) :
      ComparesTexts signed s.chars t.chars (some num.toNat) (strncmp signed m first second num) ↔
        Compares signed (s.chars.take num.toNat) (t.chars.take num.toNat) r := by
    constructor
    · rintro ⟨r', read', hr', hcompares, -⟩
      cases hr.symm.trans hr'
      exact hcompares
    · exact fun h => ⟨r, read, hr, h, fun i hi => (hread i hi).resolve_left List.not_mem_nil⟩
  rw [hright _ hloop]
  by_cases heq : s.chars = t.chars
  · refine iff_of_true ?_ (.inr (.inl heq))
    rw [← (place_eq_iff s t).mpr heq, compareChars_self, Option.getD_none, ite_self, heq]
    exact compares_self signed _
  rcases Nat.lt_or_ge num.toNat (common s.chars t.chars) with hless | hle
  · refine iff_of_true ?_ (.inr (.inr (.inl hless)))
    rw [if_neg (Nat.not_le_of_lt hless), take_eq_iff.mpr (.inr hless.le)]
    exact compares_self signed _
  have hdiffer := (place_eq_iff s t).not.mpr heq
  obtain ⟨r, hr, hzero, hbefore, hafter⟩ := compareChars_of_ne signed hdiffer
  rw [if_pos hle, hr, Option.getD_some]
  have hzero' : num ≠ 0 := by
    rintro rfl
    exact absurd hle (Nat.not_le_of_lt hpos)
  rcases Nat.lt_or_eq_of_le hle with hgreater | hsame
  · -- the place is among the characters that count
    have hother : s.chars.take num.toNat ≠ t.chars.take num.toNat :=
      take_eq_iff.not.mpr (not_or.mpr ⟨heq, Nat.not_le_of_lt hgreater⟩)
    have hordered := ordered_iff signed s.nonzero t.nonzero heq
    rw [← (reads_place s t).1, ← (reads_place s t).2] at hordered
    have hswap := map_take_lt_iff_map_lt signed (s := t.chars) (t := s.chars)
      (n := num.toNat) (by rw [common_comm]; exact hgreater)
    have hcompares : Compares signed (s.chars.take num.toNat) (t.chars.take num.toNat) r ↔
        EndsBelow signed s.chars t.chars := by
      rw [← hordered, ← map_take_lt_iff_map_lt signed hgreater, ← hswap]
      exact ⟨fun h => ⟨h.before.symm.trans hbefore, h.after.symm.trans hafter⟩,
        fun h => ⟨hbefore.trans h.1.symm, iff_of_false hzero hother, hafter.trans h.2.symm⟩⟩
    rw [hcompares]
    constructor
    · exact fun h => .inr (.inr (.inr ⟨hpos, hgreater, h⟩))
    · rintro (h | h | h | ⟨-, -, h⟩)
      · exact absurd h hzero'
      · exact absurd h heq
      · omega
      · exact h
  · -- all the characters that count are the same, but the next ones are compared
    refine iff_of_false (fun h => hzero (h.equal.mpr (take_eq_iff.mpr (.inr hsame.ge)))) ?_
    rintro (h | h | h | ⟨-, h, -⟩)
    · exact hzero' h
    · exact heq h
    · omega
    · omega

end Loops

/-- **When the strings are compared rightly**, with a number of characters and whatever index is in
the variable of `strcmp`. -/
theorem comparisons_iff (signed : Bool) {m : Word → Word} {first second : Word} (s : Text m first)
    (t : Text m second) (i num : Word) :
    ComparesTexts signed s.chars t.chars none (strcmp signed m first second i) ∧
        ComparesTexts signed s.chars t.chars (some num.toNat)
          (strncmp signed m first second num) ↔
      (i.toNat ≤ common s.chars t.chars ∧
        (s.chars = t.chars ∨ common s.chars t.chars < s.chars.length ∧
          common s.chars t.chars < t.chars.length)) ∧
      (num = 0 ∨ s.chars = t.chars ∨ num.toNat < common s.chars t.chars ∨
        0 < common s.chars t.chars ∧ common s.chars t.chars < num.toNat ∧
          EndsBelow signed s.chars t.chars) :=
  and_congr (strcmp_iff s t i) (strncmp_iff s t num)

/-- A memory with one character. -/
def oneLetter (a : Word) : Word := if a = 0 then 97 else 0

/-- The character and the end behind it. -/
def textLetter : Text oneLetter 0 where
  chars := [97]
  length_lt := by decide
  filled := filled_cons.mpr ⟨rfl, filled_singleton.mpr rfl⟩
  nonzero := by decide

/-- The end alone. -/
def textEmpty : Text oneLetter 1 where
  chars := []
  length_lt := by decide
  filled := filled_singleton.mpr rfl
  nonzero := List.not_mem_nil

/-- A string compares as equal to the empty one. -/
theorem not_forall_comparisons :
    ¬ ∀ (signed : Bool) (m : Word → Word) (first second : Word) (s : Text m first)
      (t : Text m second) (i num : Word),
      ComparesTexts signed s.chars t.chars none (strcmp signed m first second i) ∧
        ComparesTexts signed s.chars t.chars (some num.toNat)
          (strncmp signed m first second num) := by
  intro h
  obtain ⟨-, heq | ⟨-, hlt⟩⟩ :=
    (strcmp_iff textLetter textEmpty 0).mp (h true oneLetter 0 1 textLetter textEmpty 0 0).1
  · cases heq
  · exact absurd hlt (Nat.not_lt_zero _)

end DcpuToolchain.Libc
