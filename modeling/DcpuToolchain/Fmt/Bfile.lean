import DcpuToolchain.Fmt.Iio

/-!
# Buffered files

`libdcpu/bfile.c`: files of which the next character is always known, so that the end is seen
before it is read. A handle has a position of its own, and the character ahead of it, beside the
position of the file.

The handle should be a plain stream of bytes (`Stdio.ByteStream`). Three things are in the way:
`bfseek` leaves the character ahead as it was, `bfread` and `bfiread` count the elements where
the position is in bytes, and `bfgetc` counts the end of the file as a character. The runs
without them (`MeetsAll`) are those of the stream (`DcpuToolchain.sameBytes_of_meetsAll`).
-/

namespace DcpuToolchain

open Stdio

/-- `BFILE`. The character ahead is `EOF` where there is none. -/
@[ext] structure BFile where
  file : File
  pos : ℤ
  readable : Bool
  wrapped : Bool
  last : Option UInt8
  eof : Bool

/-- `SEEK_SET` and `SEEK_CUR`. -/
inductive SeekOrigin
  | set
  | cur

/-- Whether a file that is opened in a mode can be read. -/
def modeReadable (mode : List Char) : Bool :=
  mode.head? == some 'r' || mode.getLast? == some '+'

namespace BFile

/-- `last = fgetc(file); eof = feof(file)`. -/
def lookAhead (b : BFile) : BFile :=
  { b with file := b.file.fgetc.1, last := b.file.fgetc.2, eof := b.file.fgetc.1.eof }

/-- `bfopen` of a file that `fopen` has opened. -/
def bfopen (file : File) (mode : List Char) : BFile :=
  let b : BFile := ⟨file, 0, modeReadable mode, false, none, false⟩
  if b.readable then b.lookAhead else b

/-- `bfwrap`, which leaves the position as it is in the memory that `malloc` gives. -/
def bfwrap (malloc : ℤ) (file : File) (mode : List Char) : BFile :=
  let b : BFile := ⟨file, malloc, modeReadable mode, true, none, false⟩
  if b.readable then b.lookAhead else b

/-- `bfgetc`. -/
def bfgetc (b : BFile) : BFile × Option UInt8 :=
  ({ b with pos := b.pos + 1 }.lookAhead, b.last)

/-- `bfputc`. -/
def bfputc (b : BFile) (chr : UInt8) : BFile := { b with file := b.file.fputc chr }

/-- `bftell`. -/
def bftell (b : BFile) : ℤ := b.pos

/-- `bfseek`. -/
def bfseek (b : BFile) (offset : ℤ) : SeekOrigin → BFile × Bool
  | .set => ({ b with pos := offset, file := (b.file.fseekSet offset).1 },
      (b.file.fseekSet offset).2)
  | .cur => ({ b with pos := b.pos + offset, file := (b.file.fseekSet (b.pos + offset)).1 },
      (b.file.fseekSet (b.pos + offset)).2)

/-- `bfeof`. -/
def bfeof (b : BFile) : Bool := b.eof

/-- `bfread`: the bytes, and how many elements they are. -/
def bfread (b : BFile) (elem count : ℕ) : BFile × List UInt8 × ℕ :=
  let got := (b.file.fseekSet b.pos).1.fread (elem * count)
  let result := got.2.length / elem
  ({ b with pos := b.pos + result, file := got.1 }.lookAhead, got.2, result)

/-- `bfiread`. -/
def bfiread (m : Imodes) (dest : Word) (b : BFile) : BFile × Word × ℕ :=
  let got := iread m dest (b.file.fseekSet b.pos).1
  ({ b with pos := b.pos + got.2.2, file := got.1 }.lookAhead, got.2)

/-- `bfiwrite`. -/
def bfiwrite (m : Imodes) (src : Word) (b : BFile) : BFile :=
  { b with file := iwrite m src b.file }

end BFile

/-! ### Runs -/

/-- What is called on a handle. -/
inductive BfOp
  | bfgetc
  | bfread (elem count : ℕ)
  | bfiread (dest : Word)
  | bfseek (offset : ℤ) (origin : SeekOrigin)
  | bfeof

/-- What a call returns. -/
inductive BfResult
  | char (c : Option UInt8)
  | data (bytes : List UInt8) (count : ℕ)
  | word (w : Word) (count : ℕ)
  | done (ok : Bool)
  | flag (eof : Bool)
  deriving DecidableEq

/-- A call on the handle. -/
def BFile.step (m : Imodes) (b : BFile) : BfOp → BFile × BfResult
  | .bfgetc => (b.bfgetc.1, .char b.bfgetc.2)
  | .bfread elem count =>
    ((b.bfread elem count).1, .data (b.bfread elem count).2.1 (b.bfread elem count).2.2)
  | .bfiread dest => ((b.bfiread m dest).1, .word (b.bfiread m dest).2.1 (b.bfiread m dest).2.2)
  | .bfseek offset origin => ((b.bfseek offset origin).1, .done (b.bfseek offset origin).2)
  | .bfeof => (b, .flag b.bfeof)

/-- Where a `bfseek` goes in a stream. -/
def SeekOrigin.target (pos : ℕ) (offset : ℤ) : SeekOrigin → ℤ
  | .set => offset
  | .cur => pos + offset

/-- The word of two bytes, if there are two: otherwise what was there is flipped. -/
def Imodes.wordOr (m : Imodes) (dest : Word) (bytes : List UInt8) : Word :=
  if bytes.length = 2 then m.word bytes else m.flip dest

/-- The same call on a plain stream. -/
def streamStep (m : Imodes) (s : ByteStream) : BfOp → ByteStream × BfResult
  | .bfgetc => (s.getc.1, .char s.getc.2)
  | .bfread elem count =>
    ((s.read (elem * count)).1,
      .data (s.read (elem * count)).2 ((s.read (elem * count)).2.length / elem))
  | .bfiread dest =>
    ((s.read 2).1, .word (m.wordOr dest (s.read 2).2) ((s.read 2).2.length / 2))
  | .bfseek offset origin =>
    ((s.seek (origin.target s.pos offset)).1, .done (s.seek (origin.target s.pos offset)).2)
  | .bfeof => (s, .flag s.atEnd)

/-- The calls return what they return on the stream, and `bftell` is its position at all times. -/
def SameBytes (m : Imodes) : BFile → ByteStream → List BfOp → Prop
  | b, s, [] => b.bftell = s.pos
  | b, s, op :: ops =>
    b.bftell = s.pos ∧ (b.step m op).2 = (streamStep m s op).2 ∧
      SameBytes m (b.step m op).1 (streamStep m s op).1 ops

/-- Whether the character ahead is out of date, behind a `bfseek`. -/
def BfOp.leavesStale (stale : Bool) : BfOp → Bool
  | .bfgetc => stale
  | .bfread _ _ => false
  | .bfiread _ => false
  | .bfseek _ _ => true
  | .bfeof => stale

/-- The calls that are as on the stream: no character and no end is asked for directly behind a
`bfseek`, no character at the end of the file, elements are bytes unless there are none, and
nothing is sought before the start. -/
def BfOp.Meets (s : ByteStream) (stale : Bool) : BfOp → Prop
  | .bfgetc => stale = false ∧ s.pos < s.content.length
  | .bfread elem count => elem = 1 ∨ elem * count = 0 ∨ s.content.length ≤ s.pos
  | .bfiread _ => s.content.length ≤ s.pos
  | .bfseek offset origin => 0 ≤ origin.target s.pos offset
  | .bfeof => stale = false

/-- Runs of such calls. -/
def MeetsAll (m : Imodes) : ByteStream → Bool → List BfOp → Prop
  | _, _, [] => True
  | s, stale, op :: ops =>
    op.Meets s stale ∧ MeetsAll m (streamStep m s op).1 (op.leavesStale stale) ops

/-! ### The handle and the stream -/

namespace BFile

/-- The handle is at the position of the stream. -/
structure Tracks (b : BFile) (s : ByteStream) : Prop where
  content_eq : b.file.content = s.content
  pos_eq : b.pos = s.pos

/-- The character ahead is the one at the position, and the file is behind it. -/
structure Ahead (b : BFile) (s : ByteStream) : Prop extends b.Tracks s where
  last_eq : b.last = s.content[s.pos]?
  eof_eq : b.eof = s.atEnd
  file_pos : s.pos < s.content.length → b.file.pos = s.pos + 1 ∧ b.file.eof = false

variable {m : Imodes} {b : BFile} {s : ByteStream}

/-- **What makes the character ahead right**: the file is at the position, and has not ended
before. -/
theorem Tracks.lookAhead (h : b.Tracks s) (hpos : b.file.pos = s.pos)
    (heof : b.file.eof = true → s.content.length ≤ s.pos) : b.lookAhead.Ahead s := by
  rcases Nat.lt_or_ge s.pos s.content.length with hin | hend
  · have hfalse : b.file.eof = false := Bool.eq_false_iff.mpr fun htrue =>
      absurd (heof htrue) (by omega)
    have hgetc := File.fgetc_of_lt hfalse (by rw [h.content_eq, hpos]; exact hin)
    rw [BFile.lookAhead, hgetc]
    refine ⟨⟨h.content_eq, h.pos_eq⟩, ?_, ?_, fun _ => ⟨congrArg (· + 1) hpos, hfalse⟩⟩
    · dsimp only
      rw [h.content_eq, hpos]
    · exact hfalse.trans (decide_eq_false (by omega)).symm
  · have hgetc := File.fgetc_of_ge (f := b.file) (by rw [h.content_eq, hpos]; exact hend)
    rw [BFile.lookAhead, hgetc]
    refine ⟨⟨h.content_eq, h.pos_eq⟩, ?_, ?_, fun hin => absurd hin (by omega)⟩
    · exact (List.getElem?_eq_none hend).symm
    · exact (decide_eq_true hend).symm

/-- The file is where the handle is. -/
theorem Tracks.fseekSet (h : b.Tracks s) :
    (b.file.fseekSet b.pos).1 = b.file.fseek s.pos := by
  rw [File.fseekSet, h.pos_eq, if_pos (Int.natCast_nonneg _), Int.toNat_natCast]

/-- A character that is there. -/
theorem Ahead.bfgetc (h : b.Ahead s) (hin : s.pos < s.content.length) :
    b.bfgetc.1.Ahead s.getc.1 ∧ b.bfgetc.2 = s.getc.2 := by
  obtain ⟨hpos, heof⟩ := h.file_pos hin
  rw [ByteStream.getc, if_pos hin]
  refine ⟨Tracks.lookAhead ⟨h.content_eq, ?_⟩ hpos fun htrue => ?_, h.last_eq⟩
  · dsimp only
    rw [h.pos_eq]
    exact (Nat.cast_succ s.pos).symm
  · exact absurd (heof.symm.trans htrue) Bool.false_ne_true

/-- Bytes. -/
theorem Tracks.bfread (h : b.Tracks s) (elem count : ℕ)
    (hmeets : elem = 1 ∨ elem * count = 0 ∨ s.content.length ≤ s.pos) :
    (b.bfread elem count).1.Ahead (s.read (elem * count)).1 ∧
      (b.bfread elem count).2 =
        ((s.read (elem * count)).2, (s.read (elem * count)).2.length / elem) := by
  have hgot := File.fread_fseek b.file s.pos (elem * count)
  rw [← h.fseekSet, h.content_eq] at hgot
  have hcount : (s.read (elem * count)).2.length / elem = (s.read (elem * count)).2.length := by
    rcases hmeets with rfl | hzero | hend
    · exact Nat.div_one _
    · rw [hzero, s.read_zero]
      exact Nat.zero_div _
    · rw [s.read_atEnd hend]
      exact Nat.zero_div _
  rw [BFile.bfread, hgot]
  refine ⟨Tracks.lookAhead ⟨rfl, ?_⟩ rfl fun heof => ?_, rfl⟩
  · dsimp only
    rw [h.pos_eq]
    exact_mod_cast congrArg (s.pos + ·) hcount
  · have hless := of_decide_eq_true heof
    rw [List.length_take, List.length_drop] at hless
    show s.content.length ≤ s.pos + ((s.content.drop s.pos).take (elem * count)).length
    rw [List.length_take, List.length_drop]
    omega

/-- No word at the end. -/
theorem Tracks.bfiread (h : b.Tracks s) (dest : Word) (hend : s.content.length ≤ s.pos) :
    (b.bfiread m dest).1.Ahead (s.read 2).1 ∧
      (b.bfiread m dest).2 = (m.wordOr dest (s.read 2).2, (s.read 2).2.length / 2) := by
  have hgot : iread m dest (b.file.fseekSet b.pos).1 =
      (⟨s.content, s.pos, true⟩, m.flip dest, 0) := by
    have hnil : (s.content.drop s.pos).take 2 = [] := by
      rw [List.drop_eq_nil_of_le hend, List.take_nil]
    rw [iread, h.fseekSet, File.fread_fseek, h.content_eq, hnil]
    exact congrArg (fun n => ((⟨s.content, s.pos, true⟩ : File), m.flip dest, n)) (Nat.zero_div 2)
  rw [BFile.bfiread, hgot, s.read_atEnd hend]
  refine ⟨Tracks.lookAhead ⟨rfl, ?_⟩ rfl fun _ => hend,
    congrArg (Prod.mk (m.flip dest)) (Nat.zero_div 2).symm⟩
  exact (add_zero b.pos).trans h.pos_eq

/-- A position in the file. -/
theorem Tracks.bfseek (h : b.Tracks s) (offset : ℤ) (origin : SeekOrigin)
    (htarget : 0 ≤ origin.target s.pos offset) :
    (b.bfseek offset origin).1.Tracks (s.seek (origin.target s.pos offset)).1 ∧
      (b.bfseek offset origin).2 = (s.seek (origin.target s.pos offset)).2 := by
  rw [ByteStream.seek, if_pos htarget]
  have hcast := (Int.toNat_of_nonneg htarget).symm
  cases origin with
  | set =>
    rw [SeekOrigin.target] at htarget hcast
    rw [BFile.bfseek, File.fseekSet, if_pos htarget]
    exact ⟨⟨h.content_eq, hcast⟩, rfl⟩
  | cur =>
    rw [SeekOrigin.target] at htarget hcast
    rw [BFile.bfseek, File.fseekSet, h.pos_eq, if_pos htarget]
    exact ⟨⟨h.content_eq, hcast⟩, rfl⟩

/-- What is known of the handle: the character ahead is right unless it is out of date. -/
def Follows (b : BFile) (s : ByteStream) (stale : Bool) : Prop :=
  b.Tracks s ∧ (stale = false → b.Ahead s)

/-- **A call that meets the condition** returns what it returns on the stream. -/
theorem Follows.step {stale : Bool} (h : b.Follows s stale) {op : BfOp}
    (hop : op.Meets s stale) :
    (b.step m op).2 = (streamStep m s op).2 ∧
      (b.step m op).1.Follows (streamStep m s op).1 (op.leavesStale stale) := by
  obtain ⟨htracks, hahead⟩ := h
  cases op with
  | bfgetc =>
    obtain ⟨hfresh, hin⟩ := hop
    obtain ⟨hnext, hresult⟩ := (hahead hfresh).bfgetc hin
    exact ⟨congrArg BfResult.char hresult, hnext.toTracks, fun _ => hnext⟩
  | bfread elem count =>
    obtain ⟨hnext, hresult⟩ := htracks.bfread elem count hop
    refine ⟨?_, hnext.toTracks, fun _ => hnext⟩
    rw [BFile.step, hresult]
    rfl
  | bfiread dest =>
    obtain ⟨hnext, hresult⟩ := htracks.bfiread (m := m) dest hop
    refine ⟨?_, hnext.toTracks, fun _ => hnext⟩
    rw [BFile.step, hresult]
    rfl
  | bfseek offset origin =>
    obtain ⟨hnext, hresult⟩ := htracks.bfseek offset origin hop
    exact ⟨congrArg BfResult.done hresult, hnext, nofun⟩
  | bfeof => exact ⟨congrArg BfResult.flag (hahead hop).eof_eq, htracks, hahead⟩

/-- **Runs of such calls** are those of the stream. -/
theorem Follows.run {stale : Bool} (h : b.Follows s stale) {ops : List BfOp}
    (hops : MeetsAll m s stale ops) : SameBytes m b s ops := by
  induction ops generalizing b s stale with
  | nil => exact h.1.pos_eq
  | cons op ops ih =>
    obtain ⟨hop, hops⟩ := hops
    obtain ⟨hresult, hnext⟩ := h.step (m := m) hop
    exact ⟨h.1.pos_eq, hresult, ih hnext hops⟩

/-- The handle of a file that is opened for reading. -/
theorem bfopen_ahead (content : List UInt8) {mode : List Char} (hmode : modeReadable mode) :
    (bfopen ⟨content, 0, false⟩ mode).Ahead ⟨content, 0⟩ := by
  rw [bfopen, if_pos hmode]
  exact Tracks.lookAhead ⟨rfl, rfl⟩ rfl nofun

theorem bfwrap_ahead (content : List UInt8) {mode : List Char} (hmode : modeReadable mode) :
    (bfwrap 0 ⟨content, 0, false⟩ mode).Ahead ⟨content, 0⟩ := by
  rw [bfwrap, if_pos hmode]
  exact Tracks.lookAhead ⟨rfl, rfl⟩ rfl nofun

end BFile

/-- **Which runs are those of a plain stream**, over every file: those that meet the condition,
on a handle of `bfopen`, or of `bfwrap` if the memory for it was zero. -/
theorem sameBytes_of_meetsAll (m : Imodes) (content : List UInt8) (mode : List Char)
    (hmode : modeReadable mode) (ops : List BfOp) (hops : MeetsAll m ⟨content, 0⟩ false ops) :
    SameBytes m (BFile.bfopen ⟨content, 0, false⟩ mode) ⟨content, 0⟩ ops ∧
      ∀ malloc : ℤ, malloc = 0 →
        SameBytes m (BFile.bfwrap malloc ⟨content, 0, false⟩ mode) ⟨content, 0⟩ ops := by
  have hopen := BFile.bfopen_ahead content hmode
  refine ⟨BFile.Follows.run ⟨hopen.toTracks, fun _ => hopen⟩ hops, ?_⟩
  rintro malloc rfl
  have hwrap := BFile.bfwrap_ahead content hmode
  exact BFile.Follows.run ⟨hwrap.toTracks, fun _ => hwrap⟩ hops

/-- A byte, the end, a position and two bytes from there. -/
theorem sameBytes_of_meetsAll_three :
    let m : Imodes := ⟨.little, .big⟩
    let ops : List BfOp := [.bfgetc, .bfeof, .bfseek 1 .set, .bfread 1 2, .bfeof]
    SameBytes m (BFile.bfopen ⟨[1, 2, 3], 0, false⟩ ['r', 'b']) ⟨[1, 2, 3], 0⟩ ops ∧
      ∀ malloc : ℤ, malloc = 0 →
        SameBytes m (BFile.bfwrap malloc ⟨[1, 2, 3], 0, false⟩ ['r', 'b']) ⟨[1, 2, 3], 0⟩ ops :=
  sameBytes_of_meetsAll ⟨.little, .big⟩ [1, 2, 3] ['r', 'b'] rfl _
    ⟨⟨rfl, Nat.succ_pos 2⟩, rfl, Int.one_nonneg, .inl rfl, rfl, trivial⟩

/-- Behind a `bfseek` the character is still the one that was ahead before. -/
theorem not_forall_sameBytes :
    ¬ ∀ (m : Imodes) (content : List UInt8) (mode : List Char), modeReadable mode →
      ∀ ops : List BfOp, SameBytes m (BFile.bfopen ⟨content, 0, false⟩ mode) ⟨content, 0⟩ ops := by
  intro h
  have hresult := (h ⟨.little, .big⟩ [1, 2, 3] ['r', 'b'] rfl [.bfseek 2 .set, .bfgetc]).2.2.2.1
  exact absurd hresult (by decide)

end DcpuToolchain
