import DcpuToolchain.Libc.Copy
import Mathlib.Data.Nat.Digits.Lemmas

/-!
# Formatted output

`sprintf` of the C library (`stdlib-c/src/stdio.c`), and the functions that write a number. They
write the digits from the last one to the first, and `sprintf` looks for their end afterwards.

`sprintf` has no `return`. What it leaves in the buffer is right unless the format ends inside a
directive (`DcpuToolchain.Libc.sprintf_iff`).
-/

namespace DcpuToolchain.Libc

open Cells

/-- A character constant. -/
def code (c : Char) : Word := BitVec.ofNat 16 c.toNat

/-! ### Numbers -/

/-- `while (tmp > 0) { length++; tmp /= base; }`. -/
def lengthLoop (base : Word) : (fuel : ℕ) → (tmp : Word) → (length : ℕ) → Option ℕ
  | 0, _, _ => none
  | fuel + 1, tmp, length =>
    if 0 < tmp then lengthLoop base fuel (tmp / base) (length + 1) else some length

/-- `while (value > 0) { *(str--) = value % base ..; value /= base; }`, with the memory and `str`
after it. -/
def digitLoop (base : Word) (digit : Word → Word) : (fuel : ℕ) → (m : Word → Word) →
    (value str : Word) → Option ((Word → Word) × Word)
  | 0, _, _, _ => none
  | fuel + 1, m, value, str =>
    if 0 < value then
      digitLoop base digit fuel (Function.update m str (digit (value % base))) (value / base)
        (str - 1)
    else some (m, str)

/-- What `uitodec`, `itooct` and `itohex` have in common. A word has no more than 16 digits. -/
def putNumber (base : Word) (digit : Word → Word) (value : Word) (m : Word → Word) (str : Word) :
    Option (Word → Word) :=
  if value = 0 then some (Function.update (Function.update m str (code '0')) (str + 1) 0)
  else do
    let length ← lengthLoop base 17 value 0
    let (m, str) ← digitLoop base digit 17 m value (str + BitVec.ofNat 16 (length - 1))
    some (Function.update m (str + BitVec.ofNat 16 (length + 1)) 0)

/-- `uitodec`. -/
def uitodec : (value : Word) → (Word → Word) → (str : Word) → Option (Word → Word) :=
  putNumber 10 fun digit => digit + code '0'

/-- `itodec`. The least `int` is its own negative. -/
def itodec (value : Word) (m : Word → Word) (str : Word) : Option (Word → Word) :=
  if value.toInt < 0 then uitodec (-value) (Function.update m str (code '-')) (str + 1)
  else uitodec value m str

/-- `itohex`. -/
def itohex (uppercase : Bool) : (value : Word) → (Word → Word) → (str : Word) →
    Option (Word → Word) :=
  putNumber 16 fun digit =>
    if 10 ≤ digit then
      if uppercase then digit - 10 + code 'A' else digit - 10 + code 'a'
    else digit + code '0'

/-- `itooct`. -/
def itooct : (value : Word) → (Word → Word) → (str : Word) → Option (Word → Word) :=
  putNumber 8 fun digit => digit + code '0'

/-! ### The scanner -/

/-- The memory and the variables of `sprintf`: `vl` counts the arguments that have been taken, and
`read` has the pointers at which the format has been read. -/
structure Sprintf where
  ram : Word → Word
  format : Word
  str : Word
  vl : ℕ
  read : List Word

namespace Sprintf

/-- What the variables are before the loop. -/
def start (m : Word → Word) (str format : Word) : Sprintf :=
  { ram := m, format := format, str := str, vl := 0, read := [] }

/-- `*format`, and that it has been read. -/
def look (s : Sprintf) : Sprintf := { s with read := s.format :: s.read }

/-- `format++`. -/
def next (s : Sprintf) : Sprintf := { s with format := s.format + 1 }

/-- `va_arg`, for an argument that is not used. -/
def skip (s : Sprintf) : Sprintf := { s with vl := s.vl + 1 }

/-- `*(str++) = c`. -/
def put (c : Word) (s : Sprintf) : Sprintf :=
  { s with ram := Function.update s.ram s.str c, str := s.str + 1 }

end Sprintf

/-- `while (*str != '\0') { str++; }`. -/
def seekEnd (m : Word → Word) : (fuel : ℕ) → (str : Word) → Option Word
  | 0, _ => none
  | fuel + 1, str => if m str ≠ 0 then seekEnd m fuel (str + 1) else some str

section Scanner

variable (args : ℕ → Word)

/-- A directive for a number: it is written, and its end is looked for. -/
def Sprintf.number (convert : Word → (Word → Word) → Word → Option (Word → Word)) (s : Sprintf) :
    Option Sprintf := do
  let ram ← convert (args s.vl) s.ram s.str
  let str ← seekEnd ram (2 ^ 16) s.str
  some { s with ram := ram, str := str, vl := s.vl + 1 }

/-- `%s`. The string is copied to its zero, and that is not copied. -/
def Sprintf.string (s : Sprintf) : Option Sprintf := do
  let (ram, str) ← copyLoop (2 ^ 16) s.ram s.str (args s.vl)
  some { s with ram := ram, str := str, vl := s.vl + 1 }

/-- `switch (*format)`. -/
def directive (s : Sprintf) : Option Sprintf :=
  let c := s.ram s.format
  if c = code 'd' ∨ c = code 'i' then s.number args itodec
  else if c = code 'u' then s.number args uitodec
  else if c = code 'o' then s.number args itooct
  else if c = code 'x' then s.number args (itohex false)
  else if c = code 'X' ∨ c = code 'p' then s.number args (itohex true)
  else if c ∈ ['f', 'F', 'e', 'E', 'g', 'G', 'a', 'A'].map code then some s.skip
  else if c = code 'c' then some (s.put (args s.vl)).skip
  else if c = code 's' then s.string args
  else if c = code 'n' then some s.skip
  else if c = code '%' then some (s.put (code '%'))
  else some s

/-- The body of the loop. -/
def Sprintf.turn (s : Sprintf) : Option Sprintf :=
  if s.ram s.format = code '%' then Sprintf.next <$> directive args s.look.next.look
  else some (s.look.put (s.ram s.format)).next

/-- `while (*format != '\0')`. -/
def sprintfLoop : (fuel : ℕ) → Sprintf → Option Sprintf
  | 0, _ => none
  | fuel + 1, s =>
    if s.ram s.format ≠ 0 then s.turn args >>= sprintfLoop fuel else some s.look

end Scanner

/-- What a call of `sprintf` leaves: the memory, the value that is returned, if there is one, and
the pointers at which the format has been read. -/
structure Printed where
  ram : Word → Word
  returned : Option Word
  read : List Word

/-- `sprintf`, with the arguments after the format. The function ends without a `return`. -/
def sprintf (args : ℕ → Word) (m : Word → Word) (str format : Word) (fuel : ℕ) :
    Option Printed := do
  let s ← sprintfLoop args fuel (Sprintf.start m str format)
  some { ram := Function.update s.ram s.str 0, returned := none, read := s.read }

/-! ### What is to be written -/

/-- The symbol of a digit. -/
def symbol (uppercase : Bool) (digit : ℕ) : Word :=
  code (if uppercase then (Nat.digitChar digit).toUpper else Nat.digitChar digit)

/-- A number to a base: `0`, or its digits from the first one that is not zero. -/
def numeral (base : ℕ) (uppercase : Bool) (n : ℕ) : List Word :=
  if n = 0 then [code '0'] else ((Nat.digits base n).map (symbol uppercase)).reverse

/-- The directives for numbers. -/
inductive Conversion | d | i | u | o | x | X | p
  deriving DecidableEq

namespace Conversion

/-- The letter of a directive. -/
def letter : Conversion → Char
  | d => 'd'
  | i => 'i'
  | u => 'u'
  | o => 'o'
  | x => 'x'
  | X => 'X'
  | p => 'p'

/-- What an argument looks like. -/
def text : Conversion → Word → List Word
  | d, v | i, v =>
    if v.toInt < 0 then code '-' :: numeral 10 false v.toInt.natAbs
    else numeral 10 false v.toInt.natAbs
  | u, v => numeral 10 false v.toNat
  | o, v => numeral 8 false v.toNat
  | x, v => numeral 16 false v.toNat
  | X, v | p, v => numeral 16 true v.toNat

end Conversion

/-- **What a format stands for**, with the arguments from so many on. The strings among them are
outside the buffer. Nothing is said to come from a format that ends inside a directive. -/
inductive Renders (args : ℕ → Word) (m : Word → Word) (buffer : Word → Prop) :
    (format : List Word) → (vl : ℕ) → (out : List Word) → Prop
  | nil {vl : ℕ} : Renders args m buffer [] vl []
  | inside {vl : ℕ} : Renders args m buffer [code '%'] vl []
  | literal {c : Word} {l : List Word} {vl : ℕ} {out : List Word} (hc : c ≠ code '%')
      (h : Renders args m buffer l vl out) : Renders args m buffer (c :: l) vl (c :: out)
  | percent {l : List Word} {vl : ℕ} {out : List Word} (h : Renders args m buffer l vl out) :
      Renders args m buffer (code '%' :: code '%' :: l) vl (code '%' :: out)
  | number (n : Conversion) {l : List Word} {vl : ℕ} {out : List Word}
      (h : Renders args m buffer l (vl + 1) out) :
      Renders args m buffer (code '%' :: code n.letter :: l) vl (n.text (args vl) ++ out)
  | char {l : List Word} {vl : ℕ} {out : List Word} (h : Renders args m buffer l (vl + 1) out) :
      Renders args m buffer (code '%' :: code 'c' :: l) vl (args vl :: out)
  | string {l : List Word} {vl : ℕ} {out : List Word} (t : Text m (args vl))
      (ht : ∀ i ≤ t.chars.length, ¬ buffer (ahead (args vl) i))
      (h : Renders args m buffer l (vl + 1) out) :
      Renders args m buffer (code '%' :: code 's' :: l) vl (t.chars ++ out)

/-- Whether a format ends behind the `%` of a directive. -/
def endsInside : List Word → Bool
  | [] => false
  | [c] => c = code '%'
  | c :: c' :: l => if c = code '%' then endsInside l else endsInside (c' :: l)

/-- The cells in which so many characters are written, and a zero. -/
def Buffer (str : Word) (n : ℕ) (a : Word) : Prop := ∃ i ≤ n, a = ahead str i

/-- **What is to be written has been written**, with a zero behind it, and the format has not been
read behind its own. -/
structure Printed.Right (r : Printed) (m : Word → Word) (str : Word) (out : List Word)
    (format : Word) (length : ℕ) : Prop where
  written : Written m r.ram str (out ++ [0])
  read : ∀ a ∈ r.read, ∃ i ≤ length, a = ahead format i

/-! ### Digits -/

section Digits

variable {base value p : Word} {digit : Word → Word} {uppercase : Bool} {m : Word → Word}
  {fuel k : ℕ}

theorem pos_iff_toNat : 0 < value ↔ 0 < value.toNat := BitVec.lt_def

/-- One digit less. -/
theorem toNat_div_lt (hvalue : value.toNat < base.toNat ^ (fuel + 1)) :
    (value / base).toNat < base.toNat ^ fuel := by
  rw [BitVec.toNat_udiv]
  refine Nat.div_lt_of_lt_mul ?_
  rwa [← Nat.pow_succ']

theorem digits_of_pos (hbase : 1 < base.toNat) (hpos : 0 < value) :
    Nat.digits base.toNat value.toNat =
      value.toNat % base.toNat :: Nat.digits base.toNat (value / base).toNat := by
  rw [BitVec.toNat_udiv]
  exact Nat.digits_def' hbase (pos_iff_toNat.mp hpos)

theorem digits_of_not_pos (hzero : ¬ 0 < value) : Nat.digits base.toNat value.toNat = [] := by
  rw [Nat.eq_zero_of_not_pos (pos_iff_toNat.not.mp hzero), Nat.digits_zero]

theorem lengthLoop_eq (hbase : 1 < base.toNat) (hvalue : value.toNat < base.toNat ^ fuel) :
    lengthLoop base (fuel + 1) value k =
      some (k + (Nat.digits base.toNat value.toNat).length) := by
  induction fuel generalizing value k with
  | zero =>
    have hzero : ¬ 0 < value := by
      rw [pos_iff_toNat]
      exact Nat.not_lt.mpr (Nat.le_of_lt_succ hvalue)
    rw [lengthLoop, if_neg hzero, digits_of_not_pos hzero, List.length_nil, Nat.add_zero]
  | succ fuel ih =>
    by_cases hpos : 0 < value
    · rw [lengthLoop, if_pos hpos, ih (toNat_div_lt hvalue), digits_of_pos hbase hpos,
        List.length_cons, Nat.add_right_comm, Nat.add_assoc]
    · rw [lengthLoop, if_neg hpos, digits_of_not_pos hpos, List.length_nil, Nat.add_zero]

/-- **The digits are written from the last one on**, and the pointer ends up before the first. -/
theorem exists_digitLoop_written (hbase : 1 < base.toNat)
    (hdigit : ∀ d < base.toNat, digit (BitVec.ofNat 16 d) = symbol uppercase d)
    (hvalue : value.toNat < base.toNat ^ fuel) (hfuel : fuel < 2 ^ 16) :
    ∃ m', digitLoop base digit (fuel + 1) m value
        (ahead p (Nat.digits base.toNat value.toNat).length - 1) = some (m', p - 1) ∧
      Written m m' p ((Nat.digits base.toNat value.toNat).map (symbol uppercase)).reverse := by
  induction fuel generalizing value m with
  | zero =>
    have hzero : ¬ 0 < value := by
      rw [pos_iff_toNat]
      exact Nat.not_lt.mpr (Nat.le_of_lt_succ hvalue)
    rw [digitLoop, if_neg hzero, digits_of_not_pos hzero, List.length_nil, ahead_zero]
    exact ⟨m, rfl, Written.nil m p⟩
  | succ fuel ih =>
    by_cases hpos : 0 < value
    · obtain ⟨m', hloop, hwritten⟩ := ih (toNat_div_lt hvalue) (by omega)
        (m := Function.update m (ahead p (Nat.digits base.toNat (value / base).toNat).length)
          (digit (value % base)))
      have hlast : digit (value % base) = symbol uppercase (value.toNat % base.toNat) := by
        rw [← hdigit _ (Nat.mod_lt _ (Nat.zero_lt_of_lt hbase)), ← BitVec.toNat_umod,
          BitVec.ofNat_toNat, BitVec.setWidth_eq]
      refine ⟨m', ?_, ?_⟩
      · rw [digitLoop, if_pos hpos, digits_of_pos hbase hpos, List.length_cons, ahead_succ_sub_one]
        exact hloop
      · rw [digits_of_pos hbase hpos, List.map_cons, List.reverse_cons, ← hlast]
        refine Written.precede ?_ hwritten ?_
        · rw [List.length_reverse, List.length_map]
          exact Written.update m _ _
        · rw [List.length_reverse, List.length_map, List.length_singleton]
          have hlength := (Nat.digits_length_le_iff hbase _).mpr (toNat_div_lt hvalue)
          omega
    · rw [digitLoop, if_neg hpos, digits_of_not_pos hpos, List.length_nil, ahead_zero]
      exact ⟨m, rfl, Written.nil m p⟩

/-- `str += length - 1`, then `str += length + 1` from before the first digit. -/
theorem putNumber_written (hbase : 1 < base.toNat)
    (hdigit : ∀ d < base.toNat, digit (BitVec.ofNat 16 d) = symbol uppercase d) (str : Word) :
    ∃ m', putNumber base digit value m str = some m' ∧
      Written m m' str (numeral base.toNat uppercase value.toNat ++ [0]) := by
  by_cases hzero : value = 0
  · refine ⟨_, if_pos hzero, ?_⟩
    rw [hzero]
    exact (Written.update m str (code '0')).append (Written.update _ _ 0) (by decide)
  · have hpos : value.toNat ≠ 0 := BitVec.toNat_ne.mp hzero
    have hvalue : value.toNat < base.toNat ^ 16 :=
      value.isLt.trans_le (Nat.pow_le_pow_left hbase 16)
    have hlength := (Nat.digits_length_le_iff hbase value.toNat).mpr hvalue
    obtain ⟨n, hn⟩ := Nat.exists_eq_succ_of_ne_zero (List.length_pos_iff.mpr
      (Nat.digits_ne_nil_iff_ne_zero.mpr hpos) : 0 < (Nat.digits base.toNat value.toNat).length).ne'
    obtain ⟨m', hloop, hwritten⟩ :=
      exists_digitLoop_written (m := m) (p := str) hbase hdigit hvalue (by decide)
    rw [hn, ahead_succ_sub_one] at hloop
    refine ⟨Function.update m' (ahead str (n + 1)) 0, ?_, ?_⟩
    · rw [putNumber, if_neg hzero, lengthLoop_eq hbase hvalue, Nat.zero_add, hn]
      change (digitLoop base digit 17 m value (ahead str n) >>= fun r =>
        some (Function.update r.1 (ahead r.2 (n + 1 + 1)) 0)) = _
      rw [hloop, ← ahead_sub_one_succ str (n + 1)]
      rfl
    · rw [numeral, if_neg hpos]
      refine hwritten.append ?_ ?_
      · rw [List.length_reverse, List.length_map, hn]
        exact Written.update m' _ 0
      · rw [List.length_reverse, List.length_map, List.length_singleton]
        omega

/-! ### The functions for numbers -/

theorem symbol_ne_zero {d : ℕ} (hd : d < 16) : symbol uppercase d ≠ 0 := by
  cases uppercase <;> decide +revert

theorem zero_not_mem_numeral (uppercase : Bool) {b : ℕ} (hlow : 1 < b) (hhigh : b ≤ 16) (n : ℕ) :
    0 ∉ numeral b uppercase n := by
  intro h
  rw [numeral] at h
  split at h
  · cases List.mem_singleton.mp h
  · obtain ⟨d, hd, heq⟩ := List.mem_map.mp (List.mem_reverse.mp h)
    exact symbol_ne_zero ((Nat.digits_lt_base hlow hd).trans_le hhigh) heq

theorem length_numeral_le (uppercase : Bool) {b n : ℕ} (hb : 1 < b) (hn : n < 2 ^ 16) :
    (numeral b uppercase n).length ≤ 16 := by
  rw [numeral]
  split
  · decide
  · rw [List.length_reverse, List.length_map, Nat.digits_length_le_iff hb]
    exact hn.trans_le (Nat.pow_le_pow_left hb 16)

/-- A function that writes a number and a zero. -/
def Puts (convert : Word → (Word → Word) → Word → Option (Word → Word)) (text : Word → List Word) :
    Prop :=
  ∀ value m str, ∃ m', convert value m str = some m' ∧ Written m m' str (text value ++ [0])

theorem puts_uitodec : Puts uitodec fun value => numeral 10 false value.toNat :=
  fun _ _ str => putNumber_written (by decide) (by decide) str

theorem puts_itooct : Puts itooct fun value => numeral 8 false value.toNat :=
  fun _ _ str => putNumber_written (by decide) (by decide) str

theorem puts_itohex : Puts (itohex uppercase) fun value => numeral 16 uppercase value.toNat := by
  intro _ _ str
  cases uppercase
  · exact putNumber_written (by decide) (by decide) str
  · exact putNumber_written (by decide) (by decide) str

/-- An `int` as a text. -/
theorem natAbs_toInt (value : Word) :
    value.toInt.natAbs = if value.toInt < 0 then (-value).toNat else value.toNat := by
  have hvalue := value.isLt
  rw [BitVec.toNat_neg, BitVec.toInt_eq_toNat_cond]
  split_ifs <;> omega

theorem puts_itodec : Puts itodec Conversion.d.text := by
  intro value m str
  by_cases hneg : value.toInt < 0
  · obtain ⟨m', hdigits, hwritten⟩ :=
      puts_uitodec (-value) (Function.update m str (code '-')) (str + 1)
    refine ⟨m', ?_, ?_⟩
    · rw [itodec, if_pos hneg, hdigits]
    · rw [Conversion.text, if_pos hneg, natAbs_toInt, if_pos hneg, ← List.singleton_append,
        List.append_assoc]
      refine (Written.update m str (code '-')).append hwritten ?_
      have hlength := length_numeral_le false (b := 10) (by decide) (-value).isLt
      rw [List.length_append, List.length_singleton, List.length_singleton]
      omega
  · obtain ⟨m', hdigits, hwritten⟩ := puts_uitodec value m str
    refine ⟨m', ?_, ?_⟩
    · rw [itodec, if_neg hneg, hdigits]
    · rwa [Conversion.text, if_neg hneg, natAbs_toInt, if_neg hneg]

end Digits

/-! ### One directive -/

/-- The end of a text is found. -/
theorem seekEnd_eq {m : Word → Word} {p : Word} {l : List Word} {fuel : ℕ}
    (hfilled : Filled m p (l ++ [0])) (hl : 0 ∉ l) (hfuel : l.length < fuel) :
    seekEnd m fuel p = some (ahead p l.length) := by
  obtain ⟨fuel, rfl⟩ := Nat.exists_eq_succ_of_ne_zero (Nat.ne_zero_of_lt hfuel)
  induction l generalizing p fuel with
  | nil =>
    rw [seekEnd, if_neg (not_not.mpr (filled_singleton.mp hfilled)), List.length_nil, ahead_zero]
  | cons c l ih =>
    rw [List.length_cons] at hfuel
    obtain ⟨fuel, rfl⟩ := Nat.exists_eq_succ_of_ne_zero (show fuel ≠ 0 by omega)
    obtain ⟨hc, hl⟩ := not_or.mp (List.mem_cons.not.mp hl)
    rw [List.cons_append] at hfilled
    obtain ⟨hchar, hrest⟩ := filled_cons.mp hfilled
    rw [seekEnd, hchar, if_pos (Ne.symm hc), ih hrest hl fuel (by omega), add_one_eq, ahead_ahead,
      List.length_cons, Nat.add_comm]

/-- **How far the output is**: the characters have been written, and perhaps one behind them that is
to be overwritten. -/
structure Stage (m m' : Word → Word) (p p' : Word) (l : List Word) : Prop where
  mark : ∃ c, Written m m' p (l ++ [c])
  pointer : p' = ahead p l.length

namespace Stage

variable {m m' m'' : Word → Word} {p p' p'' : Word} {l l' : List Word} {c : Word}

theorem of_written (h : Written m m' p l) (hroom : l.length < 2 ^ 16) :
    Stage m m' p (ahead p l.length) l := ⟨⟨_, h.extend hroom⟩, rfl⟩

theorem nil (m : Word → Word) (p : Word) : Stage m m p p [] :=
  ⟨⟨_, (Written.nil m p).extend (by decide)⟩, (ahead_zero p).symm⟩

/-- The next characters are written. -/
theorem trans (h : Stage m m' p p' l) (h' : Stage m' m'' p' p'' l')
    (hroom : l.length + l'.length < 2 ^ 16) : Stage m m'' p p'' (l ++ l') := by
  obtain ⟨⟨c, hwritten⟩, rfl⟩ := h
  obtain ⟨⟨c', hwritten'⟩, rfl⟩ := h'
  refine ⟨⟨c', ?_⟩, ?_⟩
  · rw [List.append_assoc]
    have hne : l' ++ [c'] ≠ [] := List.append_ne_nil_of_right_ne_nil _ (List.cons_ne_nil _ _)
    refine hwritten.overwrite hwritten' hne ?_
    rw [List.length_append, List.length_singleton]
    omega
  · rw [ahead_ahead, List.length_append]

/-- The zero that ends it. -/
theorem terminate (h : Stage m m' p p' l) (hroom : l.length < 2 ^ 16) :
    Written m (Function.update m' p' 0) p (l ++ [0]) := by
  obtain ⟨⟨c, hwritten⟩, rfl⟩ := h
  exact hwritten.overwrite (Written.update m' _ 0) (List.cons_ne_nil _ _) hroom

/-- Outside the buffer nothing is written. -/
theorem others (h : Stage m m' p p' l) {n : ℕ} (hn : l.length ≤ n) {a : Word}
    (ha : ¬ Buffer p n a) : m' a = m a := by
  obtain ⟨⟨c, hwritten⟩, -⟩ := h
  refine hwritten.others a fun i hi heq => ha ⟨i, ?_, heq⟩
  rw [List.length_append, List.length_singleton] at hi
  omega

end Stage

/-- **What a directive does** that writes a text: it is written, the argument is taken, and the
format is where it was. -/
structure Step (s s' : Sprintf) (l : List Word) (n : ℕ) : Prop where
  stage : Stage s.ram s'.ram s.str s'.str l
  format : s'.format = s.format
  vl : s'.vl = s.vl + n
  read : s'.read = s.read

theorem Step.skip {s s' : Sprintf} {l : List Word} {n : ℕ} (h : Step s s' l n) :
    Step s s'.skip l (n + 1) := ⟨h.stage, h.format, congrArg (· + 1) h.vl, h.read⟩

section Directives

variable {args : ℕ → Word} {s : Sprintf}

theorem put_step (c : Word) : Step s (s.put c) [c] 0 :=
  ⟨Stage.of_written (Written.update s.ram s.str c) (Nat.one_lt_two_pow (by decide)), rfl, rfl,
    rfl⟩

theorem exists_number_step {convert : Word → (Word → Word) → Word → Option (Word → Word)}
    {text : Word → List Word} (hputs : Puts convert text) (hzero : 0 ∉ text (args s.vl))
    (hlength : (text (args s.vl)).length < 2 ^ 16) :
    ∃ s', s.number args convert = some s' ∧ Step s s' (text (args s.vl)) 1 := by
  obtain ⟨ram, hconvert, hwritten⟩ := hputs (args s.vl) s.ram s.str
  let str := ahead s.str (text (args s.vl)).length
  refine ⟨{ s with ram := ram, str := str, vl := s.vl + 1 }, ?_, ?_, rfl, rfl, rfl⟩
  · rw [Sprintf.number, hconvert]
    change (seekEnd ram (2 ^ 16) s.str >>= _) = _
    rw [seekEnd_eq hwritten.filled hzero hlength]
    rfl
  · exact ⟨⟨0, hwritten⟩, rfl⟩

/-- A string that is apart from where it is written. -/
theorem exists_string_step {l : List Word} (hl : 0 ∉ l) (hlength : l.length < 2 ^ 16)
    (hfilled : Filled s.ram (args s.vl) (l ++ [0]))
    (hapart : ∀ i < l.length, ∀ j ≤ l.length, ahead (args s.vl) j ≠ ahead s.str i) :
    ∃ s', s.string args = some s' ∧ Step s s' l 1 := by
  obtain ⟨ram, hcopy, hwritten⟩ := exists_copyLoop_written hl hlength hfilled hapart hlength
  let str := ahead s.str l.length
  refine ⟨{ s with ram := ram, str := str, vl := s.vl + 1 }, ?_, ?_, rfl, rfl, rfl⟩
  · rw [Sprintf.string, hcopy]
    rfl
  · exact Stage.of_written hwritten hlength

/-- A conversion is right with what its case of the `switch` calls. -/
theorem directive_conversion (args : ℕ → Word) (n : Conversion)
    (hformat : s.ram s.format = code n.letter) :
    ∃ convert, directive args s = s.number args convert ∧ Puts convert n.text := by
  rw [directive, hformat]
  cases n with
  | d => exact ⟨itodec, rfl, puts_itodec⟩
  | i => exact ⟨itodec, rfl, puts_itodec⟩
  | u => exact ⟨uitodec, rfl, puts_uitodec⟩
  | o => exact ⟨itooct, rfl, puts_itooct⟩
  | x => exact ⟨itohex false, rfl, puts_itohex⟩
  | X => exact ⟨itohex true, rfl, puts_itohex⟩
  | p => exact ⟨itohex true, rfl, puts_itohex⟩

end Directives

/-! ### The loop -/

section Loop

variable {args : ℕ → Word} {s s' r : Sprintf} {fuel : ℕ}

theorem sprintfLoop_turn (hformat : s.ram s.format ≠ 0) (hturn : s.turn args = some s')
    (fuel : ℕ) : sprintfLoop args (fuel + 1) s = sprintfLoop args fuel s' := by
  rw [sprintfLoop, if_pos hformat, hturn]
  rfl

/-- With more fuel the loop does the same. -/
theorem sprintfLoop_add (h : sprintfLoop args fuel s = some r) (k : ℕ) :
    sprintfLoop args (fuel + k) s = some r := by
  induction fuel generalizing s with
  | zero => cases h
  | succ fuel ih =>
    rw [sprintfLoop] at h
    rw [Nat.add_right_comm, sprintfLoop]
    split at h
    · rename_i hformat
      obtain ⟨s', hturn, hloop⟩ := Option.bind_eq_some_iff.mp h
      rw [if_pos hformat, hturn]
      exact ih hloop
    · rename_i hformat
      rw [if_neg hformat]
      exact h

theorem read_of_number {convert} (h : s.number args convert = some s') : s'.read = s.read := by
  obtain ⟨ram, -, h⟩ := Option.bind_eq_some_iff.mp h
  obtain ⟨str, -, h⟩ := Option.bind_eq_some_iff.mp h
  cases h
  rfl

theorem read_of_string (h : s.string args = some s') : s'.read = s.read := by
  obtain ⟨⟨ram, str⟩, -, h⟩ := Option.bind_eq_some_iff.mp h
  cases h
  rfl

theorem read_of_ite {q : Prop} [Decidable q] {o o' : Option Sprintf}
    (ho : o = some s' → s'.read = s.read) (ho' : o' = some s' → s'.read = s.read) :
    (if q then o else o') = some s' → s'.read = s.read :=
  iteInduction (motive := fun o => o = some s' → s'.read = s.read) (fun _ => ho) fun _ => ho'

/-- A directive does not read the format. -/
theorem read_of_directive : directive args s = some s' → s'.read = s.read := by
  have hsame {t : Sprintf} (ht : t.read = s.read) : some t = some s' → s'.read = s.read := by
    rintro ⟨⟩
    exact ht
  refine read_of_ite read_of_number ?_
  refine read_of_ite read_of_number ?_
  refine read_of_ite read_of_number ?_
  refine read_of_ite read_of_number ?_
  refine read_of_ite read_of_number ?_
  refine read_of_ite (hsame rfl) ?_
  refine read_of_ite (hsame rfl) ?_
  refine read_of_ite read_of_string ?_
  refine read_of_ite (hsame rfl) ?_
  exact read_of_ite (hsame rfl) (hsame rfl)

/-- **What has been read stays**, and so does the pointer at which the loop goes on. -/
theorem mem_read_of_sprintfLoop (h : sprintfLoop args fuel s = some r) {a : Word}
    (ha : a ∈ s.format :: s.read) : a ∈ r.read := by
  induction fuel generalizing s with
  | zero => cases h
  | succ fuel ih =>
    rw [sprintfLoop] at h
    split at h
    · obtain ⟨s', hturn, hloop⟩ := Option.bind_eq_some_iff.mp h
      refine ih hloop (List.mem_cons_of_mem _ ?_)
      rw [Sprintf.turn] at hturn
      split at hturn
      · obtain ⟨s'', hdirective, rfl⟩ := Option.map_eq_some_iff.mp hturn
        change a ∈ s''.read
        rw [read_of_directive hdirective]
        exact List.mem_cons_of_mem _ ha
      · cases hturn
        exact ha
    · cases h
      exact ha

end Loop

/-! ### The position in a format -/

section Positions

variable {args : ℕ → Word} {m : Word → Word} {str format : Word} {f : Text m format} {n vl : ℕ}
  {rest l done out : List Word} {c : Word} {s s' : Sprintf}

/-- **The loop is somewhere in the format**: the rest of it is before the pointer, so many arguments
have been taken and these characters written. -/
structure At (f : Text m format) (str : Word) (rest : List Word) (vl : ℕ) (done : List Word)
    (s : Sprintf) : Prop where
  position : ∃ pre, f.chars = pre ++ rest ∧ s.format = ahead format pre.length
  vl : s.vl = vl
  stage : Stage m s.ram str s.str done
  read : ∀ a ∈ s.read, ∃ i ≤ f.chars.length, a = ahead format i

namespace At

theorem look (h : At f str rest vl done s) : At f str rest vl done s.look := by
  refine ⟨h.position, h.vl, h.stage, fun a ha => ?_⟩
  rcases List.mem_cons.mp ha with rfl | ha
  · obtain ⟨pre, hchars, heq⟩ := h.position
    refine ⟨pre.length, ?_, heq⟩
    rw [hchars, List.length_append]
    exact Nat.le_add_right _ _
  · exact h.read a ha

theorem next (h : At f str (c :: rest) vl done s) : At f str rest vl done s.next := by
  obtain ⟨pre, hchars, heq⟩ := h.position
  refine ⟨⟨pre ++ [c], ?_, ?_⟩, h.vl, h.stage, h.read⟩
  · rw [hchars, List.append_assoc, List.singleton_append]
  · rw [List.length_append, List.length_singleton, ← ahead_add_one, ← heq]
    rfl

theorem step (h : At f str rest vl done s) {k : ℕ} (hstep : Step s s' l k)
    (hroom : done.length + l.length < 2 ^ 16) : At f str rest (vl + k) (done ++ l) s' := by
  refine ⟨?_, ?_, h.stage.trans hstep.stage hroom, ?_⟩
  · rw [hstep.format]
    exact h.position
  · rw [hstep.vl, h.vl]
  · rw [hstep.read]
    exact h.read

/-- The format itself is not written to. -/
theorem filled (h : At f str rest vl done s) (hn : done.length ≤ n)
    (hapart : ∀ j ≤ f.chars.length, ¬ Buffer str n (ahead format j)) :
    Filled s.ram s.format (rest ++ [0]) := by
  obtain ⟨pre, hchars, heq⟩ := h.position
  have hfilled := f.filled
  rw [hchars, List.append_assoc] at hfilled
  rw [heq]
  refine (filled_append.mp hfilled).2.congr fun i hi => h.stage.others hn ?_
  rw [ahead_ahead]
  refine hapart _ ?_
  rw [List.length_append, List.length_singleton] at hi
  rw [hchars, List.length_append]
  omega

theorem char (h : At f str (c :: rest) vl done s) (hn : done.length ≤ n)
    (hapart : ∀ j ≤ f.chars.length, ¬ Buffer str n (ahead format j)) : s.ram s.format = c :=
  (filled_cons.mp (h.filled hn hapart)).1

theorem ne_zero (h : At f str (c :: rest) vl done s) (hn : done.length ≤ n)
    (hapart : ∀ j ≤ f.chars.length, ¬ Buffer str n (ahead format j)) : s.ram s.format ≠ 0 := by
  obtain ⟨pre, hchars, -⟩ := h.position
  rw [h.char hn hapart]
  rintro rfl
  refine f.nonzero ?_
  rw [hchars]
  exact List.mem_append_right _ List.mem_cons_self

/-- A string among the arguments that is apart from the buffer. -/
theorem exists_string_step (h : At f str rest vl done s) {p : Word} (t : Text m p)
    (hn : done.length + t.chars.length ≤ n)
    (ht : ∀ j ≤ t.chars.length, ¬ Buffer str n (ahead p j)) (hp : args s.vl = p) :
    ∃ s', s.string args = some s' ∧ Step s s' t.chars 1 := by
  subst hp
  have hfilled : Filled s.ram (args s.vl) (t.chars ++ [0]) := by
    refine t.filled.congr fun i hi => h.stage.others (n := n) (by omega) (ht i ?_)
    rw [List.length_append, List.length_singleton] at hi
    omega
  refine Libc.exists_string_step t.nonzero t.length_lt hfilled fun i hi j hj heq => ht j hj ?_
  rw [heq, h.stage.pointer, ahead_ahead]
  exact ⟨_, by omega, rfl⟩

end At

/-! ### The whole format -/

theorem lt_of_not_buffer {a : Word} (ha : ¬ Buffer str n a) : n + 1 < 2 ^ 16 := by
  obtain ⟨i, hi, rfl⟩ := exists_ahead str a
  by_contra hle
  exact ha ⟨i, by omega, rfl⟩

theorem endsInside_cons (hc : c ≠ code '%') (rest : List Word) :
    endsInside (c :: rest) = endsInside rest := by
  cases rest with
  | nil => exact decide_eq_false hc
  | cons c' rest => exact if_neg hc

theorem Conversion.zero_not_mem_text (k : Conversion) (v : Word) : 0 ∉ k.text v := by
  have hsigned : 0 ∉ Conversion.d.text v := by
    have hdigits := zero_not_mem_numeral false (b := 10) (by decide) (by decide)
      v.toInt.natAbs
    rw [Conversion.text]
    split
    · exact List.mem_cons.not.mpr (not_or.mpr ⟨by decide, hdigits⟩)
    · exact hdigits
  cases k with
  | d => exact hsigned
  | i => exact hsigned
  | u => exact zero_not_mem_numeral _ (by decide) (by decide) v.toNat
  | o => exact zero_not_mem_numeral _ (by decide) (by decide) v.toNat
  | x => exact zero_not_mem_numeral _ (by decide) (by decide) v.toNat
  | X => exact zero_not_mem_numeral _ (by decide) (by decide) v.toNat
  | p => exact zero_not_mem_numeral _ (by decide) (by decide) v.toNat

/-- From here the loop comes to the end of the format, or to the `%` it ends with, and has written
these characters then. -/
def Ends (args : ℕ → Word) (f : Text m format) (str : Word) (inside : Bool) (all : List Word)
    (s : Sprintf) : Prop :=
  ∃ k s' vl, (∀ fuel, sprintfLoop args (fuel + k) s = sprintfLoop args fuel s') ∧
    At f str (if inside then [code '%'] else []) vl all s'

theorem Ends.turn {inside : Bool} {all : List Word} (h : Ends args f str inside all s')
    (hformat : s.ram s.format ≠ 0) (hturn : s.turn args = some s') :
    Ends args f str inside all s := by
  obtain ⟨k, r, vl, hloop, hat⟩ := h
  refine ⟨k + 1, r, vl, fun fuel => ?_, hat⟩
  rw [← Nat.add_assoc, sprintfLoop_turn hformat hturn]
  exact hloop fuel

/-- **A character that stands for itself takes its turn**, and the rest of the format follows. -/
theorem Ends.of_literal {inside : Bool} {all : List Word} (hat : At f str (c :: rest) vl done s)
    (hc : c ≠ code '%') (hn : done.length + 1 ≤ n)
    (hapart : ∀ j ≤ f.chars.length, ¬ Buffer str n (ahead format j))
    (hrest : ∀ s', At f str rest vl (done ++ [c]) s' → Ends args f str inside all s') :
    Ends args f str inside all s := by
  have hroom := lt_of_not_buffer (hapart 0 (Nat.zero_le _))
  have hdone : done.length ≤ n := Nat.le_of_succ_le hn
  have hput := (hat.look.step (put_step c) (show done.length + 1 < 2 ^ 16 by omega)).next
  refine (hrest _ hput).turn (hat.ne_zero hdone hapart) ?_
  rw [Sprintf.turn, hat.char hdone hapart, if_neg hc]

/-- **A directive takes its turn**, and the rest of the format follows. -/
theorem Ends.of_directive {inside : Bool} {c' : Word}
    (hat : At f str (code '%' :: c' :: rest) vl done s) (l : List Word) (k : ℕ)
    (hn : done.length + l.length ≤ n)
    (hapart : ∀ j ≤ f.chars.length, ¬ Buffer str n (ahead format j))
    (hdirective : ∀ s, At f str (c' :: rest) vl done s → s.ram s.format = c' →
      ∃ s', directive args s = some s' ∧ Step s s' l k)
    (hrest : ∀ s', At f str rest (vl + k) (done ++ l) s' →
      (done ++ l).length = done.length + l.length →
        Ends args f str inside ((done ++ l) ++ out) s') :
    Ends args f str inside (done ++ (l ++ out)) s := by
  have hroom := lt_of_not_buffer (hapart 0 (Nat.zero_le _))
  have hdone : done.length ≤ n := by omega
  have hlook := hat.look.next.look
  obtain ⟨s', heq, hstep⟩ := hdirective _ hlook (hlook.char hdone hapart)
  have hends := hrest s'.next (hlook.step hstep (by omega)).next List.length_append
  rw [List.append_assoc] at hends
  refine hends.turn (hat.ne_zero hdone hapart) ?_
  rw [Sprintf.turn, if_pos (hat.char hdone hapart), heq]
  rfl

/-- **What a format stands for is written**, turn by turn. -/
theorem Renders.ends (h : Renders args m (Buffer str n) rest vl out)
    (hat : At f str rest vl done s) (hn : done.length + out.length = n)
    (hapart : ∀ j ≤ f.chars.length, ¬ Buffer str n (ahead format j)) :
    Ends args f str (endsInside rest) (done ++ out) s := by
  have hroom := lt_of_not_buffer (hapart 0 (Nat.zero_le _))
  induction h generalizing done s with
  | nil =>
    rw [List.append_nil]
    exact ⟨0, s, _, fun _ => rfl, hat⟩
  | inside =>
    rw [List.append_nil]
    exact ⟨0, s, _, fun _ => rfl, hat⟩
  | @literal c _ _ _ hc h ih =>
    rw [List.length_cons] at hn
    have hlength : (done ++ [c]).length = done.length + 1 := List.length_append
    rw [endsInside_cons hc, List.append_cons]
    exact Ends.of_literal hat hc (show done.length + 1 ≤ n by omega) hapart fun s' hat' =>
      ih hat' (by omega)
  | percent h ih =>
    rw [List.length_cons] at hn
    refine Ends.of_directive hat [code '%'] 0 (show done.length + 1 ≤ n by omega) hapart ?_ ?_
    · intro s _ hchar
      rw [directive, hchar]
      exact ⟨_, rfl, put_step _⟩
    · intro s' hat' hlength
      exact ih hat' (hlength ▸ show done.length + 1 + _ = n by omega)
  | @number k _ vl _ h ih =>
    rw [List.length_append] at hn
    refine Ends.of_directive hat (k.text (args vl)) 1 (by omega) hapart ?_ ?_
    · intro s hs hchar
      obtain ⟨convert, heq, hputs⟩ := directive_conversion args k hchar
      obtain rfl := hs.vl
      rw [heq]
      exact exists_number_step hputs (k.zero_not_mem_text _) (by omega)
    · intro s' hat' hlength
      exact ih hat' (by omega)
  | @char _ vl _ h ih =>
    rw [List.length_cons] at hn
    refine Ends.of_directive hat [args vl] 1 (show done.length + 1 ≤ n by omega) hapart ?_ ?_
    · intro s hs hchar
      obtain rfl := hs.vl
      rw [directive, hchar]
      exact ⟨_, rfl, (put_step _).skip⟩
    · intro s' hat' hlength
      exact ih hat' (hlength ▸ show done.length + 1 + _ = n by omega)
  | @string _ vl _ t ht h ih =>
    rw [List.length_append] at hn
    refine Ends.of_directive hat t.chars 1 (by omega) hapart ?_ ?_
    · intro s hs hchar
      rw [directive, hchar]
      exact hs.exists_string_step t (by omega) ht (congrArg args hs.vl)
    · intro s' hat' hlength
      exact ih hat' (by omega)

/-- A call that comes to the zero of the format. -/
theorem Ends.exists_right (h : Ends args f str false out (Sprintf.start m str format))
    (hn : out.length ≤ n) (hapart : ∀ j ≤ f.chars.length, ¬ Buffer str n (ahead format j)) :
    ∃ fuel r, sprintf args m str format fuel = some r ∧
      r.Right m str out format f.chars.length := by
  obtain ⟨k, s, vl, hloop, hat⟩ := h
  have hroom := lt_of_not_buffer (hapart 0 (Nat.zero_le _))
  have hzero : s.ram s.format = 0 := filled_singleton.mp (hat.filled hn hapart)
  have hend : sprintfLoop args (1 + k) (Sprintf.start m str format) = some s.look := by
    rw [hloop, sprintfLoop, if_neg (not_not.mpr hzero)]
  let r : Printed := ⟨Function.update s.ram s.str 0, none, s.look.read⟩
  refine ⟨1 + k, r, ?_, hat.stage.terminate (by omega), hat.look.read⟩
  rw [sprintf, hend]
  rfl

/-- A call that comes to a `%` at the end: the zero is passed over, and the loop goes on behind
it. -/
theorem Ends.mem_read (h : Ends args f str true out (Sprintf.start m str format))
    (hn : out.length ≤ n) (hapart : ∀ j ≤ f.chars.length, ¬ Buffer str n (ahead format j))
    {fuel : ℕ} {r : Printed} (hr : sprintf args m str format fuel = some r) :
    ahead format (f.chars.length + 1) ∈ r.read := by
  obtain ⟨k, s, vl, hloop, hat⟩ := h
  replace hat : At f str [code '%'] vl out s := hat
  obtain ⟨s', hs', hr⟩ := Option.bind_eq_some_iff.mp hr
  cases hr
  have hrun := sprintfLoop_add hs' k
  rw [hloop] at hrun
  cases fuel with
  | zero => cases hrun
  | succ fuel =>
    have hlook := hat.look.next.look
    obtain ⟨pre, hchars, hposition⟩ := hlook.position
    have hzero : s.look.next.look.ram s.look.next.look.format = 0 :=
      filled_singleton.mp (hlook.filled hn hapart)
    have hturn : s.turn args = some s.look.next.look.next := by
      rw [Sprintf.turn, if_pos (hat.char hn hapart), directive, hzero]
      rfl
    rw [sprintfLoop_turn (hat.ne_zero hn hapart) hturn] at hrun
    have hmem := mem_read_of_sprintfLoop hrun List.mem_cons_self
    have hpast : s.look.next.look.next.format = ahead format (f.chars.length + 1) := by
      rw [hchars, List.append_nil, ← ahead_add_one, ← hposition]
      rfl
    rwa [hpast] at hmem

end Positions

/-! ### When a format is printed rightly -/

theorem returned_of_sprintf {args : ℕ → Word} {m : Word → Word} {str format : Word} {fuel : ℕ}
    {r : Printed} (h : sprintf args m str format fuel = some r) : r.returned = none := by
  obtain ⟨s, -, hs⟩ := Option.bind_eq_some_iff.mp h
  cases hs
  rfl

/-- **When formatted output is right**: the length is never returned, and the rest is as it is to
be unless the format ends behind the `%` of a directive. -/
theorem sprintf_iff {args : ℕ → Word} {m : Word → Word} {str format : Word} (f : Text m format)
    {out : List Word} (hout : Renders args m (Buffer str out.length) f.chars 0 out)
    (hapart : ∀ j ≤ f.chars.length, ¬ Buffer str out.length (ahead format j)) :
    (¬ ∃ fuel r, sprintf args m str format fuel = some r ∧
      r.Right m str out format f.chars.length ∧
      r.returned = some (BitVec.ofNat 16 out.length)) ∧
    ((∃ fuel r, sprintf args m str format fuel = some r ∧
      r.Right m str out format f.chars.length) ↔ endsInside f.chars = false) := by
  have hstart : At f str f.chars 0 [] (Sprintf.start m str format) :=
    ⟨⟨[], rfl, (ahead_zero format).symm⟩, rfl, Stage.nil m str, nofun⟩
  have hends := hout.ends hstart (Nat.zero_add _) hapart
  refine ⟨?_, ?_, ?_⟩
  · rintro ⟨fuel, r, hr, -, hreturned⟩
    rw [returned_of_sprintf hr] at hreturned
    cases hreturned
  · rintro ⟨fuel, r, hr, hright⟩
    by_contra hinside
    rw [Bool.not_eq_false] at hinside
    rw [hinside] at hends
    obtain ⟨i, hi, heq⟩ := hright.read _ (hends.mem_read (Nat.le_refl _) hapart hr)
    have hlength : f.chars.length + 1 < 2 ^ 16 := by
      obtain ⟨j, hj, heq⟩ := exists_ahead format str
      by_contra hle
      exact hapart j (by omega) ⟨0, Nat.zero_le _, by rw [ahead_zero, heq]⟩
    rw [ahead_inj hlength (by omega)] at heq
    omega
  · intro hinside
    rw [hinside] at hends
    exact hends.exists_right (Nat.le_refl _) hapart

/-- The format `%u` at the address 0, and zeros. -/
def formatMemory (a : Word) : Word := if a = 0 then code '%' else if a = 1 then code 'u' else 0

def formatText : Text formatMemory 0 where
  chars := [code '%', code 'u']
  length_lt := by decide
  filled := filled_cons.mpr ⟨rfl, filled_cons.mpr ⟨rfl, filled_singleton.mpr rfl⟩⟩
  nonzero := by decide

theorem renders_formatText (buffer : Word → Prop) :
    Renders (fun _ => 42) formatMemory buffer formatText.chars 0 [code '4', code '2'] := by
  have htext : Conversion.u.text 42 ++ [] = [code '4', code '2'] := by decide
  rw [← htext]
  exact .number .u .nil

theorem formatText_apart : ∀ j ≤ 2, ¬ Buffer 100 2 (ahead 0 j) := by
  rintro j hj ⟨i, hi, heq⟩
  revert heq
  decide +revert

/-- `sprintf(str, "%u", 42)`. -/
theorem sprintf_unsigned :
    (¬ ∃ fuel r, sprintf (fun _ => 42) formatMemory 100 0 fuel = some r ∧
      r.Right formatMemory 100 [code '4', code '2'] 0 2 ∧ r.returned = some 2) ∧
    ((∃ fuel r, sprintf (fun _ => 42) formatMemory 100 0 fuel = some r ∧
      r.Right formatMemory 100 [code '4', code '2'] 0 2) ↔
        endsInside [code '%', code 'u'] = false) :=
  sprintf_iff formatText (renders_formatText _) formatText_apart

/-- The length of what has been written is not returned. -/
theorem not_forall_sprintf :
    ¬ ∀ (args : ℕ → Word) (m : Word → Word) (str format : Word) (f : Text m format)
      (out : List Word), Renders args m (Buffer str out.length) f.chars 0 out →
      (∀ j ≤ f.chars.length, ¬ Buffer str out.length (ahead format j)) →
      ∃ fuel r, sprintf args m str format fuel = some r ∧
        r.Right m str out format f.chars.length ∧
        r.returned = some (BitVec.ofNat 16 out.length) := by
  intro h
  obtain ⟨fuel, r, hr, -, hreturned⟩ :=
    h _ formatMemory 100 0 formatText _ (renders_formatText _) formatText_apart
  rw [returned_of_sprintf hr] at hreturned
  cases hreturned

end DcpuToolchain.Libc
