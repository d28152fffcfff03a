import DcpuToolchain.Lib.Codec

/-!
# Streams of the C library

An open file: its content, the position, and the end-of-file indicator. Reading takes what
there is, and sets the indicator where that is too little; once it is set, nothing is read
until the stream is positioned again. Writing over the end extends the file, with zeros where
there is a hole.
-/

namespace Stdio

/-- `FILE`. -/
@[ext] structure File where
  content : List UInt8
  pos : ℕ := 0
  eof : Bool := false
  deriving DecidableEq, Repr

/-- A byte is written at a position. -/
def putByte (content : List UInt8) (pos : ℕ) (b : UInt8) : List UInt8 :=
  if pos < content.length then content.set pos b
  else content ++ List.replicate (pos - content.length) 0 ++ [b]

theorem length_putByte (content : List UInt8) (pos : ℕ) (b : UInt8) :
    (putByte content pos b).length = max content.length (pos + 1) := by
  unfold putByte
  split
  · rw [List.length_set]
    omega
  · rw [List.length_append, List.length_append, List.length_replicate, List.length_singleton]
    omega

/-- What is in a file after a byte has been written. -/
theorem getD_putByte (content : List UInt8) (pos : ℕ) (b : UInt8) (i : ℕ) :
    (putByte content pos b).getD i 0 = if i = pos then b else content.getD i 0 := by
  unfold putByte
  simp only [List.getD_eq_getElem?_getD]
  split
  · rename_i hlt
    rw [List.getElem?_set]
    split
    · rename_i heq
      rw [if_pos heq.symm, Option.getD_some]
    · rename_i hne
      rw [if_neg (Ne.symm hne)]
  · rename_i hge
    rcases Nat.lt_or_ge i content.length with hin | hout
    · rw [if_neg (by omega), List.append_assoc, List.getElem?_append_left hin]
    · rw [List.append_assoc, List.getElem?_append_right hout,
        List.getElem?_eq_none (l := content) hout]
      rcases Nat.lt_or_ge i pos with hhole | hbehind
      · rw [if_neg (by omega), List.getElem?_append_left (by rw [List.length_replicate]; omega),
          List.getElem?_replicate_of_lt (by omega)]
        rfl
      · rw [List.getElem?_append_right (by rw [List.length_replicate]; omega),
          List.length_replicate]
        by_cases heq : i = pos
        · rw [if_pos heq, heq]
          simp
        · rw [if_neg heq, List.getElem?_eq_none (by rw [List.length_singleton]; omega)]

namespace File

/-- `fseek` to a position. -/
def fseek (f : File) (pos : ℕ) : File := { f with pos := pos, eof := false }

/-- `fseek` from the start, which fails before it. -/
def fseekSet (f : File) (offset : ℤ) : File × Bool :=
  if 0 ≤ offset then (f.fseek offset.toNat, true) else (f, false)

/-- `fgetc`. -/
def fgetc (f : File) : File × Option UInt8 :=
  if f.eof = true ∨ f.content.length ≤ f.pos then ({ f with eof := true }, none)
  else ({ f with pos := f.pos + 1 }, f.content[f.pos]?)

/-- `fputc`. -/
def fputc (f : File) (b : UInt8) : File :=
  { f with content := putByte f.content f.pos b, pos := f.pos + 1 }

/-- `fwrite` of bytes. -/
def fwrite (f : File) (bytes : List UInt8) : File := bytes.foldl fputc f

/-- The bytes of `fread`. -/
def fread (f : File) (n : ℕ) : File × List UInt8 :=
  if n = 0 then (f, [])
  else if f.eof = true then (f, [])
  else
    let got := (f.content.drop f.pos).take n
    ({ f with pos := f.pos + got.length, eof := got.length < n }, got)

variable {f : File}

theorem fgetc_of_lt (heof : f.eof = false) (h : f.pos < f.content.length) :
    f.fgetc = ({ f with pos := f.pos + 1 }, f.content[f.pos]?) := by
  rw [fgetc, if_neg]
  rintro (htrue | hge)
  · rw [heof] at htrue
    cases htrue
  · omega

theorem fgetc_of_ge (h : f.content.length ≤ f.pos) : f.fgetc = ({ f with eof := true }, none) := by
  rw [fgetc, if_pos (.inr h)]

theorem fwrite_pos (f : File) (bytes : List UInt8) :
    (f.fwrite bytes).pos = f.pos + bytes.length := by
  induction bytes generalizing f with
  | nil => rfl
  | cons b bytes ih =>
    rw [fwrite, List.foldl_cons]
    refine (ih (f.fputc b)).trans ?_
    rw [List.length_cons, fputc]
    exact Nat.add_right_comm _ _ _

theorem fwrite_append (f : File) (bytes bytes' : List UInt8) :
    f.fwrite (bytes ++ bytes') = (f.fwrite bytes).fwrite bytes' := List.foldl_append

/-- At the end of a file, bytes are put behind the others. -/
theorem content_fwrite_atEnd (h : f.pos = f.content.length) (bytes : List UInt8) :
    (f.fwrite bytes).content = f.content ++ bytes := by
  induction bytes generalizing f with
  | nil => exact (List.append_nil _).symm
  | cons b bytes ih =>
    have hput : (f.fputc b).content = f.content ++ [b] := by
      rw [fputc, putByte, if_neg (by omega), h, Nat.sub_self, List.replicate_zero,
        List.append_nil]
    have hpos : (f.fputc b).pos = (f.fputc b).content.length := by
      rw [hput, List.length_append, ← h]
      rfl
    rw [fwrite, List.foldl_cons]
    refine (ih hpos).trans ?_
    rw [hput, List.append_assoc, List.singleton_append]

/-- What is in a file after bytes have been written. -/
theorem getD_fwrite (f : File) (bytes : List UInt8) (i : ℕ) :
    (f.fwrite bytes).content.getD i 0 =
      if f.pos ≤ i ∧ i < f.pos + bytes.length then bytes.getD (i - f.pos) 0
      else f.content.getD i 0 := by
  induction bytes generalizing f with
  | nil =>
    rw [if_neg fun h => by
      rw [List.length_nil] at h
      omega]
    rfl
  | cons b bytes ih =>
    have hrest := ih (f.fputc b)
    have hput : (f.fputc b).content.getD i 0 = if i = f.pos then b else f.content.getD i 0 :=
      getD_putByte f.content f.pos b i
    have hpos : (f.fputc b).pos = f.pos + 1 := rfl
    rw [hput, hpos] at hrest
    refine hrest.trans ?_
    rw [List.length_cons]
    by_cases heq : i = f.pos
    · rw [if_neg (by omega), if_pos heq, if_pos (by omega), heq, Nat.sub_self, List.getD_cons_zero]
    · rw [if_neg heq]
      by_cases hin : f.pos + 1 ≤ i ∧ i < f.pos + 1 + bytes.length
      · rw [if_pos hin, if_pos (by omega), show i - f.pos = i - (f.pos + 1) + 1 by omega,
          List.getD_cons_succ]
      · rw [if_neg hin, if_neg (by omega)]

theorem length_fwrite (f : File) (bytes : List UInt8) :
    (f.fwrite bytes).content.length =
      if bytes = [] then f.content.length else max f.content.length (f.pos + bytes.length) := by
  induction bytes generalizing f with
  | nil => rfl
  | cons b bytes ih =>
    have hlength : (f.fputc b).content.length = max f.content.length (f.pos + 1) :=
      length_putByte f.content f.pos b
    have hpos : (f.fputc b).pos = f.pos + 1 := rfl
    refine (ih (f.fputc b)).trans ?_
    rw [hlength, hpos, if_neg (List.cons_ne_nil b bytes), List.length_cons]
    split
    · rename_i hnil
      rw [hnil, List.length_nil]
    · omega

theorem length_fwrite_le (f : File) (bytes : List UInt8) :
    (f.fwrite bytes).content.length ≤ max f.content.length (f.pos + bytes.length) := by
  rw [length_fwrite]
  split
  · exact le_max_left _ _
  · exact Nat.le_refl _

/-- Reading what there is. -/
theorem fread_of_le {n : ℕ} (heof : f.eof = false) (h : f.pos + n ≤ f.content.length) :
    f.fread n = ({ f with pos := f.pos + n }, (f.content.drop f.pos).take n) := by
  unfold fread
  split
  · rename_i hzero
    subst hzero
    rfl
  · have hlength : ((f.content.drop f.pos).take n).length = n := by
      rw [List.length_take, List.length_drop]
      omega
    rw [heof, if_neg Bool.false_ne_true]
    dsimp only
    rw [hlength, decide_eq_false (Nat.lt_irrefl n), ← heof]

theorem fseekSet_content (f : File) (offset : ℤ) : (f.fseekSet offset).1.content = f.content := by
  unfold fseekSet
  split <;> rfl

theorem fgetc_content (f : File) : f.fgetc.1.content = f.content := by
  unfold fgetc
  split <;> rfl

/-- The content is not changed by reading. -/
theorem fread_content (f : File) (n : ℕ) : (f.fread n).1.content = f.content := by
  unfold fread
  split
  · rfl
  · split <;> rfl

/-- What is read behind a `fseek`. -/
theorem fread_fseek (f : File) (pos n : ℕ) :
    (f.fseek pos).fread n =
      ({ f with
        pos := pos + ((f.content.drop pos).take n).length
        eof := ((f.content.drop pos).take n).length < n }, (f.content.drop pos).take n) := by
  unfold fread
  split
  · rename_i hzero
    subst hzero
    rfl
  · rfl

end File

/-! ### Plain streams of bytes -/

/-- Bytes and a position. -/
structure ByteStream where
  content : List UInt8
  pos : ℕ := 0

namespace ByteStream

/-- The next byte, if there is one. -/
def getc (s : ByteStream) : ByteStream × Option UInt8 :=
  if s.pos < s.content.length then ({ s with pos := s.pos + 1 }, s.content[s.pos]?) else (s, none)

/-- The bytes that there are, up to a number. -/
def read (s : ByteStream) (n : ℕ) : ByteStream × List UInt8 :=
  ({ s with pos := s.pos + ((s.content.drop s.pos).take n).length },
    (s.content.drop s.pos).take n)

/-- To a position, which is not before the start. -/
def seek (s : ByteStream) (offset : ℤ) : ByteStream × Bool :=
  if 0 ≤ offset then ({ s with pos := offset.toNat }, true) else (s, false)

/-- Whether nothing is left. -/
def atEnd (s : ByteStream) : Bool := s.content.length ≤ s.pos

variable {s : ByteStream}

/-- At the end there is nothing to read. -/
theorem read_atEnd (h : s.content.length ≤ s.pos) (n : ℕ) : s.read n = (s, []) := by
  have hnil : (s.content.drop s.pos).take n = [] := by
    rw [List.drop_eq_nil_of_le h, List.take_nil]
  rw [read, hnil]
  rfl

theorem read_zero (s : ByteStream) : s.read 0 = (s, []) := rfl

end ByteStream

end Stdio
