import DcpuToolchain.Fmt.Bfile

/-!
# The images of the disk imager

`dtimg` writes a kernel, a table of the files, and the files (`dtimg/micro.c`). It asks
`bftell` where it is in the image, which counts what has been read and not what has been written:
the answer is always the start of the image. So the table is put over the kernel, each file but
the first over the table, and the addresses in the table are zero.

Nothing but the image of no kernel and no files is as it should be
(`DcpuToolchain.dtimg_eq_microImage_iff`).
-/

namespace DcpuToolchain

open Stdio

/-! ### The writer -/

/-- What is left of a file: nothing, or the character ahead and those behind the position. -/
def BFile.left (b : BFile) : ℕ :=
  if b.eof = true then 0 else 1 + (b.file.content.length - b.file.pos)

theorem BFile.left_bfgetc {b : BFile} (h : b.bfeof = false) : b.bfgetc.1.left < b.left := by
  have hleft : b.left = 1 + (b.file.content.length - b.file.pos) := by
    rw [BFile.left, show b.eof = false from h, if_neg Bool.false_ne_true]
  rw [hleft, BFile.left, BFile.bfgetc, BFile.lookAhead, File.fgetc]
  dsimp only
  split
  · rw [if_pos rfl]
    omega
  · rename_i hin
    push Not at hin
    rw [if_neg hin.1]
    dsimp only
    omega

/-- `while (!bfeof(in)) { bfputc(bfgetc(in), out); written++; }`. -/
def copy (input out : BFile) (written : ℕ) : BFile × ℕ :=
  if h : input.bfeof = true then (out, written)
  else copy input.bfgetc.1 (out.bfputc (input.bfgetc.2.getD 0xFF)) (written + 1)
termination_by input.left
decreasing_by exact BFile.left_bfgetc (Bool.eq_false_iff.mpr h)

/-- `micro_table_addr` and `micro_table_count`. -/
structure MicroTable where
  addr : ℤ
  count : ℕ

/-- `micro_write_kernel`. What `store` is before it is read is not determined. -/
def microWriteKernel (m : Imodes) (store : Word) (out input : BFile) : BFile × MicroTable :=
  let copied := copy input out 0
  let out := copied.1
  let pos := out.bftell
  let out := (out.bfseek 4 .set).1
  let found := out.bfiread m store
  let out := (found.1.bfseek 4 .set).1
  let out :=
    if found.2.1 = 0xDEDE then out.bfiwrite m (BitVec.ofNat 16 (copied.2 / 2)) else out
  let out := (out.bfseek pos .set).1
  -- the entries of the table, an address and a size each
  ((List.replicate 20 (0 : Word)).foldl (fun out store => out.bfiwrite m store) out, ⟨pos, 0⟩)

/-- `micro_write_file`, which exits if the table is full. -/
def microWriteFile (m : Imodes) (written : BFile × MicroTable) (input : BFile) :
    Option (BFile × MicroTable) :=
  let out := written.1
  let table := written.2
  if 10 ≤ table.count then none
  else
    let store := BitVec.ofInt 16 (out.bftell.tdiv 2)
    let copied := copy input out 0
    let out := copied.1
    let pos := out.bftell
    let out := (out.bfseek (table.addr + table.count * 2) .set).1
    let out := out.bfiwrite m store
    let out := out.bfiwrite m (BitVec.ofNat 16 (copied.2 / 2))
    some ((out.bfseek pos .set).1, { table with count := table.count + 1 })

/-- `bfopen(path, "rb")` of a file. -/
def openInput (content : List UInt8) : BFile := .bfopen ⟨content, 0, false⟩ ['r', 'b']

/-- What `main` writes for a kernel and files. -/
def dtimg (m : Imodes) (store : Word) (kernel : List UInt8) (files : List (List UInt8)) :
    Option (List UInt8) := do
  let out := BFile.bfopen ⟨[], 0, false⟩ ['w', 'b', '+']
  let written ← files.foldlM (fun written file => microWriteFile m written (openInput file))
    (microWriteKernel m store out (openInput kernel))
  pure written.1.file.content

/-! ### The image as it should be -/

/-- The entries of the files from an address on: where each is, and its size, in words. -/
def microEntries (address : ℕ) : List (List UInt8) → List Word
  | [] => []
  | file :: files =>
    BitVec.ofNat 16 address :: BitVec.ofNat 16 (file.length / 2) ::
      microEntries (address + file.length / 2) files

/-- A kernel with its size in the word for it, if it asks for it. -/
def microKernel (m : Imodes) (kernel : List UInt8) : List UInt8 :=
  if 6 ≤ kernel.length ∧ m.word ((kernel.drop 4).take 2) = 0xDEDE then
    kernel.take 4 ++ m.bytes (BitVec.ofNat 16 (kernel.length / 2)) ++ kernel.drop 6
  else kernel

/-- The kernel, the table, and the files. -/
def microImage (m : Imodes) (kernel : List UInt8) (files : List (List UInt8)) : List UInt8 :=
  microKernel m kernel ++
    (microEntries (kernel.length / 2 + 20) files ++
      List.replicate (20 - 2 * files.length) 0).flatMap m.bytes ++
    files.flatten

theorem length_microEntries (address : ℕ) (files : List (List UInt8)) :
    (microEntries address files).length = 2 * files.length := by
  induction files generalizing address with
  | nil => rfl
  | cons file files ih =>
    rw [microEntries, List.length_cons, List.length_cons, ih, List.length_cons]
    omega

theorem length_microKernel (m : Imodes) (kernel : List UInt8) :
    (microKernel m kernel).length = kernel.length := by
  unfold microKernel
  split
  · rename_i h
    rw [List.length_append, List.length_append, m.bytes_length, List.length_take,
      List.length_drop]
    omega
  · rfl

/-- **The parts do not overlap**: the image is as long as they are together. -/
theorem length_microImage (m : Imodes) (kernel : List UInt8) {files : List (List UInt8)}
    (hfiles : files.length ≤ 10) :
    (microImage m kernel files).length = kernel.length + 40 + files.flatten.length := by
  rw [microImage, List.length_append, List.length_append, length_microKernel,
    Imodes.length_flatMap_bytes, List.length_append, length_microEntries, List.length_replicate]
  omega

/-! ### What is written -/

namespace BFile

variable {m : Imodes}

/-- Copying what is left of a file. -/
theorem copy_of_ahead {input : BFile} {s : ByteStream} (h : input.Ahead s)
    (hs : s.pos ≤ s.content.length) (out : BFile) (written : ℕ) :
    copy input out written =
      ({ out with file := out.file.fwrite (s.content.drop s.pos) },
        written + (s.content.length - s.pos)) := by
  induction hn : s.content.length - s.pos generalizing input s out written with
  | zero =>
    have hend : s.content.length ≤ s.pos := by omega
    have heof : input.bfeof = true := h.eof_eq.trans (decide_eq_true hend)
    rw [copy, dif_pos heof, List.drop_eq_nil_of_le hend]
    rfl
  | succ n ih =>
    have hin : s.pos < s.content.length := by omega
    have hnot : input.bfeof ≠ true := by
      rw [BFile.bfeof, h.eof_eq, ByteStream.atEnd, decide_eq_false (by omega)]
      exact Bool.false_ne_true
    obtain ⟨hnext, hchar⟩ := h.bfgetc hin
    rw [ByteStream.getc, if_pos hin] at hnext hchar
    have hrest := ih hnext (by dsimp only; omega) (out.bfputc s.content[s.pos]) (written + 1)
      (by dsimp only; omega)
    rw [copy, dif_neg hnot, hchar, List.getElem?_eq_getElem hin, Option.getD_some, hrest,
      List.drop_eq_getElem_cons hin]
    exact Prod.ext rfl (by dsimp only; omega)

/-- Copying a whole file. -/
theorem copy_openInput (content : List UInt8) (out : BFile) :
    copy (openInput content) out 0 =
      ({ out with file := out.file.fwrite content }, content.length) := by
  have hopen : (openInput content).Ahead ⟨content, 0⟩ := bfopen_ahead content rfl
  rw [copy_of_ahead hopen (Nat.zero_le _), List.drop_zero, Nat.zero_add, Nat.sub_zero]

/-- Words that are written one after the other. -/
theorem foldl_bfiwrite (m : Imodes) (words : List Word) (out : BFile) :
    words.foldl (fun out store => out.bfiwrite m store) out =
      { out with file := out.file.fwrite (words.flatMap m.bytes) } := by
  induction words generalizing out with
  | nil => rfl
  | cons w words ih =>
    rw [List.foldl_cons, ih, List.flatMap_cons, File.fwrite_append]
    rfl

/-- To a position from the start. -/
theorem bfseek_set (b : BFile) (pos : ℕ) :
    (b.bfseek pos .set).1 = { b with pos := pos, file := b.file.fseek pos } := by
  rw [BFile.bfseek, File.fseekSet, if_pos (Int.natCast_nonneg pos), Int.toNat_natCast]

theorem bfseek_content (b : BFile) (offset : ℤ) (origin : SeekOrigin) :
    (b.bfseek offset origin).1.file.content = b.file.content := by
  cases origin <;> exact File.fseekSet_content _ _

/-- Reading leaves what is in a file. -/
theorem bfiread_content (b : BFile) (dest : Word) :
    (b.bfiread m dest).1.file.content = b.file.content := by
  rw [BFile.bfiread, BFile.lookAhead, iread]
  dsimp only
  rw [File.fgetc_content, File.fread_content, File.fseekSet_content]

end BFile

theorem bytes_zero (m : Imodes) : m.bytes 0 = [0, 0] := by
  obtain ⟨icpumode, iwritemode⟩ := m
  cases icpumode <;> cases iwritemode <;> decide

/-- Words that are zero. -/
theorem flatMap_zeros (m : Imodes) (n : ℕ) :
    (List.replicate n (0 : Word)).flatMap m.bytes = List.replicate (2 * n) 0 := by
  induction n with
  | zero => rfl
  | succ n ih =>
    rw [List.replicate_succ, List.flatMap_cons, ih, bytes_zero, Nat.mul_succ,
      List.replicate_succ, List.replicate_succ]
    rfl

/-- Two bytes that are written in a file. -/
theorem length_iwrite (m : Imodes) (w : Word) (f : File) :
    (iwrite m w f).content.length = max f.content.length (f.pos + 2) := by
  have hne : m.bytes w ≠ [] := List.ne_nil_of_length_eq_add_one (m.bytes_length w)
  rw [iwrite, File.length_fwrite, if_neg hne, m.bytes_length]

/-- **The table is put over the kernel.** -/
theorem microWriteKernel_spec (m : Imodes) (store : Word) (kernel : List UInt8) :
    let written := microWriteKernel m store (.bfopen ⟨[], 0, false⟩ ['w', 'b', '+'])
      (openInput kernel)
    written.1.pos = 0 ∧ written.2 = ⟨0, 0⟩ ∧ written.1.file.pos = 40 ∧
      written.1.file.content.length = max kernel.length 40 ∧
      ∀ i < 40, written.1.file.content.getD i 0 = 0 := by
  intro written
  -- the kernel is written, and looked at
  let opened := BFile.bfopen ⟨[], 0, false⟩ ['w', 'b', '+']
  let copied : BFile := { opened with file := opened.file.fwrite kernel }
  have hcopied : copied.file.content.length = kernel.length := by
    show (opened.file.fwrite kernel).content.length = _
    rw [File.length_fwrite]
    split
    · rename_i hnil
      rw [hnil]
      rfl
    · exact (Nat.zero_max _).trans (Nat.zero_add _)
  let found := (copied.bfseek 4 .set).1.bfiread m store
  let sought := (found.1.bfseek 4 .set).1
  have hsought : sought.file.content.length = kernel.length ∧ sought.file.pos = 4 := by
    refine ⟨?_, congrArg (fun b => b.file.pos) (found.1.bfseek_set 4)⟩
    show (found.1.bfseek 4 .set).1.file.content.length = _
    rw [BFile.bfseek_content, BFile.bfiread_content, BFile.bfseek_content, hcopied]
  -- its size is put in, or not
  let patched := if found.2.1 = 0xDEDE then
    sought.bfiwrite m (BitVec.ofNat 16 (kernel.length / 2)) else sought
  have hpatched : kernel.length ≤ patched.file.content.length ∧
      patched.file.content.length ≤ max kernel.length 6 := by
    show _ ≤ (ite _ _ _ : BFile).file.content.length ∧ (ite _ _ _ : BFile).file.content.length ≤ _
    split
    · rw [BFile.bfiwrite, length_iwrite, hsought.1, hsought.2]
      omega
    · rw [hsought.1]
      omega
  -- the table
  let start := (patched.bfseek 0 .set).1
  have hstart : start = { patched with pos := 0, file := patched.file.fseek 0 } :=
    patched.bfseek_set 0
  have hwritten : written = ({ start with file := start.file.fwrite (List.replicate 40 0) },
      ⟨0, 0⟩) := by
    show microWriteKernel _ _ _ _ = _
    rw [microWriteKernel, BFile.copy_openInput, BFile.foldl_bfiwrite, flatMap_zeros]
    rfl
  have hcontent : start.file.content = patched.file.content := by
    rw [hstart]
    rfl
  have hpos : start.file.pos = 0 := by
    rw [hstart]
    rfl
  rw [hwritten]
  refine ⟨?_, rfl, ?_, ?_, fun i hi => ?_⟩
  · dsimp only
    rw [hstart]
  · dsimp only
    rw [File.fwrite_pos, hpos, List.length_replicate]
  · dsimp only
    have hne : List.replicate 40 (0 : UInt8) ≠ [] := List.cons_ne_nil _ _
    rw [File.length_fwrite, if_neg hne, hcontent, hpos, List.length_replicate]
    omega
  · dsimp only
    rw [File.getD_fwrite, hpos, List.length_replicate, if_pos (by omega),
      List.getD_eq_getElem?_getD, List.getElem?_replicate_of_lt (by omega)]
    rfl

/-- **A file**, its entry, and back to the start of the image. -/
theorem microWriteFile_spec (m : Imodes) {out : BFile} {table : MicroTable} (file : List UInt8)
    (hout : out.pos = 0) (haddr : table.addr = 0) (hcount : table.count < 10) :
    ∃ out', microWriteFile m (out, table) (openInput file) =
        some (out', { table with count := table.count + 1 }) ∧
      out'.pos = 0 ∧ out'.file.pos = 0 ∧
      out'.file.content = ((((out.file.fwrite file).fseek (table.count * 2)).fwrite
        (m.bytes 0)).fwrite (m.bytes (BitVec.ofNat 16 (file.length / 2)))).content := by
  have htarget : table.addr + table.count * 2 = ((table.count * 2 : ℕ) : ℤ) := by
    rw [haddr]
    push_cast
    omega
  let copied : BFile := { out with file := out.file.fwrite file }
  let sought := (copied.bfseek (table.addr + table.count * 2) .set).1
  let entered := (sought.bfiwrite m 0).bfiwrite m (BitVec.ofNat 16 (file.length / 2))
  have hwritten : microWriteFile m (out, table) (openInput file) =
      some ((entered.bfseek 0 .set).1, { table with count := table.count + 1 }) := by
    have hstore : BitVec.ofInt 16 (out.bftell.tdiv 2) = 0 := by
      rw [BFile.bftell, hout]
      rfl
    have hback : ({ out with file := out.file.fwrite file } : BFile).bftell = 0 := hout
    unfold microWriteFile
    rw [if_neg (Nat.not_le.mpr hcount), hstore, BFile.copy_openInput]
    dsimp only
    rw [hback]
  refine ⟨_, hwritten, ?_, ?_, ?_⟩
  · exact congrArg BFile.pos (entered.bfseek_set 0)
  · exact congrArg (fun b => b.file.pos) (entered.bfseek_set 0)
  · rw [BFile.bfseek_content]
    show ((sought.file.fwrite (m.bytes 0)).fwrite _).content = _
    have hfile : sought.file = (out.file.fwrite file).fseek (table.count * 2) := by
      show (copied.bfseek _ .set).1.file = _
      rw [htarget, BFile.bfseek_set]
    rw [hfile]

/-- What is in the image after a file, and how long it is. -/
theorem microWriteFile_content (m : Imodes) {out : BFile} {table : MicroTable}
    (file : List UInt8) (hout : out.pos = 0) (haddr : table.addr = 0) (hcount : table.count < 10) :
    ∃ out', microWriteFile m (out, table) (openInput file) =
        some (out', { table with count := table.count + 1 }) ∧
      out'.pos = 0 ∧ out'.file.pos = 0 ∧
      out'.file.content.length ≤
        max (max out.file.content.length (out.file.pos + file.length)) 24 ∧
      ∀ i < 2, out'.file.content.getD i 0 =
        if table.count = 0 then 0 else (out.file.fwrite file).content.getD i 0 := by
  obtain ⟨out', hwritten, hpos, hfile, hcontent⟩ := microWriteFile_spec m file hout haddr hcount
  refine ⟨out', hwritten, hpos, hfile, ?_, fun i hi => ?_⟩
  · have hput := File.length_fwrite_le out.file file
    have hentry := File.length_fwrite_le ((out.file.fwrite file).fseek (table.count * 2))
      (m.bytes 0)
    have hsize := File.length_fwrite_le (((out.file.fwrite file).fseek (table.count * 2)).fwrite
      (m.bytes 0)) (m.bytes (BitVec.ofNat 16 (file.length / 2)))
    rw [hcontent]
    rw [m.bytes_length] at hentry hsize
    rw [File.fwrite_pos, m.bytes_length] at hsize
    have hstart : ((out.file.fwrite file).fseek (table.count * 2)).pos = table.count * 2 := rfl
    have hsame : ((out.file.fwrite file).fseek (table.count * 2)).content =
      (out.file.fwrite file).content := rfl
    rw [hstart] at hentry hsize
    rw [hsame] at hentry
    omega
  · have hstart : ((out.file.fwrite file).fseek (table.count * 2)).pos = table.count * 2 := rfl
    rw [hcontent, File.getD_fwrite, File.fwrite_pos, m.bytes_length, hstart,
      if_neg (by omega), File.getD_fwrite, m.bytes_length, hstart, bytes_zero]
    by_cases hfirst : table.count = 0
    · rw [if_pos (by omega), if_pos hfirst, hfirst]
      interval_cases i <;> rfl
    · rw [if_neg (by omega), if_neg hfirst]
      rfl

/-- **Files behind the first**: they are written from the start of the image. -/
theorem microWriteFiles_content (m : Imodes) (files : List (List UInt8)) {out : BFile}
    {table : MicroTable} (hout : out.pos = 0) (haddr : table.addr = 0)
    (hcount : 1 ≤ table.count) (hroom : table.count + files.length ≤ 10)
    (hstart : out.file.pos = 0) :
    ∃ written, files.foldlM (fun written file => microWriteFile m written (openInput file))
        (out, table) = some written ∧
      written.1.file.content.length ≤
        max (max out.file.content.length files.flatten.length) 24 ∧
      (files.flatten = [] → ∀ i < 2,
        written.1.file.content.getD i 0 = out.file.content.getD i 0) := by
  induction files generalizing out table with
  | nil => exact ⟨_, rfl, by dsimp only; omega, fun _ _ _ => rfl⟩
  | cons file files ih =>
    rw [List.length_cons] at hroom
    obtain ⟨out₁, hone, hout₁, hstart₁, hlength₁, hbytes₁⟩ :=
      microWriteFile_content m file hout haddr (by omega)
    let next : MicroTable := { table with count := table.count + 1 }
    have haddr₁ : next.addr = 0 := haddr
    have hroom₁ : next.count + files.length ≤ 10 := by
      show table.count + 1 + files.length ≤ 10
      omega
    obtain ⟨written, hrest, hlength, hbytes⟩ :=
      ih hout₁ haddr₁ (Nat.le_add_left 1 table.count) hroom₁ hstart₁
    refine ⟨written, ?_, ?_, fun hnil i hi => ?_⟩
    · rw [List.foldlM_cons, hone]
      exact hrest
    · rw [List.flatten_cons, List.length_append]
      omega
    · rw [List.flatten_cons, List.append_eq_nil_iff] at hnil
      rw [hbytes hnil.2 i hi, hbytes₁ i hi, if_neg (by omega), hnil.1]
      rfl

/-- The image of nothing is the table. -/
theorem dtimg_nil (m : Imodes) (store : Word) :
    dtimg m store [] [] = some (microImage m [] []) := by
  obtain ⟨-, -, -, hlength, hzero⟩ := microWriteKernel_spec m store []
  have himage : microImage m [] [] = List.replicate 40 0 := by
    show [] ++ (List.replicate 20 (0 : Word)).flatMap m.bytes ++ [] = _
    rw [flatMap_zeros, List.nil_append, List.append_nil]
  rw [himage]
  refine congrArg some (List.ext_getElem? fun i => ?_)
  rcases Nat.lt_or_ge i 40 with hin | hout
  · rw [List.getElem?_replicate_of_lt hin]
    have hbyte := hzero i hin
    rw [List.getD_eq_getElem?_getD] at hbyte
    rw [List.getElem?_eq_getElem (by omega), Option.getD_some] at hbyte
    rw [List.getElem?_eq_getElem (by omega), hbyte]
  · rw [List.getElem?_eq_none (by rw [hlength]; exact hout),
      List.getElem?_eq_none (by rw [List.length_replicate]; exact hout)]

/-- The first word of an image without a kernel is the address of its first file. -/
theorem microImage_cons (m : Imodes) (file : List UInt8) (files : List (List UInt8)) :
    ∃ rest, microImage m [] (file :: files) = m.bytes 20 ++ rest := by
  have hkernel : microKernel m [] = [] := if_neg fun h => absurd h.1 (by decide)
  rw [microImage, hkernel, List.nil_append, microEntries, List.cons_append, List.flatMap_cons,
    List.append_assoc, List.length_nil, Nat.zero_div]
  exact ⟨_, rfl⟩

theorem bytes_twenty_ne (m : Imodes) : m.bytes 20 ≠ [0, 0] := by
  obtain ⟨icpumode, iwritemode⟩ := m
  cases icpumode <;> cases iwritemode <;> decide

/-- Nothing else is written as it should be. -/
theorem dtimg_ne (m : Imodes) (store : Word) {kernel : List UInt8} {files : List (List UInt8)}
    (hten : files.length ≤ 10) (hsome : ¬ (kernel = [] ∧ files = [])) :
    dtimg m store kernel files ≠ some (microImage m kernel files) := by
  intro heq
  obtain ⟨hpos, htable, hfile, hlength, -⟩ := microWriteKernel_spec m store kernel
  have himage := length_microImage m kernel hten
  cases files with
  | nil =>
    -- the table is over the kernel, not behind it
    have hkernel : kernel.length ≠ 0 := fun hzero =>
      hsome ⟨List.length_eq_zero_iff.mp hzero, rfl⟩
    have hlong := congrArg List.length (Option.some.inj heq)
    rw [himage, List.flatten_nil, List.length_nil] at hlong
    have hcode := hlength.symm.trans hlong
    omega
  | cons file files =>
    have hroom : files.length + 1 ≤ 10 := hten
    obtain ⟨out₁, hone, hout₁, hstart₁, hlength₁, hbytes₁⟩ :=
      microWriteFile_content m file hpos (congrArg MicroTable.addr htable)
        (by rw [htable]; exact Nat.succ_pos 9)
    have hnext := hone.trans (congrArg (fun table : MicroTable =>
      some (out₁, { table with count := table.count + 1 })) htable)
    have htable₁ : (⟨0, 1⟩ : MicroTable).count + files.length ≤ 10 := by
      dsimp only
      omega
    obtain ⟨written, hrest, hlong, hbytes⟩ :=
      microWriteFiles_content m files hout₁ rfl (Nat.le_refl 1) htable₁ hstart₁
    have hwritten : dtimg m store kernel (file :: files) = some written.1.file.content := by
      have hall : (file :: files).foldlM
          (fun written file => microWriteFile m written (openInput file))
          (microWriteKernel m store (.bfopen ⟨[], 0, false⟩ ['w', 'b', '+']) (openInput kernel)) =
          some written := by
        rw [List.foldlM_cons, ← hrest]
        exact congrArg (Option.bind · _) hnext
      exact congrArg (Option.bind · fun written => some written.1.file.content) hall
    have hcontent := Option.some.inj (hwritten.symm.trans heq)
    -- only without a kernel and with nothing behind the first file is the length right
    have hsize := congrArg List.length hcontent
    rw [himage, List.flatten_cons, List.length_append] at hsize
    rw [hlength, hfile] at hlength₁
    have hnone : kernel.length = 0 ∧ files.flatten.length = 0 := by omega
    obtain rfl := List.length_eq_zero_iff.mp hnone.1
    -- and then the address of that file is not
    obtain ⟨rest, hfirst⟩ := microImage_cons m file files
    have hzero : ∀ i < 2, (m.bytes 20 ++ rest).getD i 0 = 0 := by
      intro i hi
      rw [← hfirst, ← hcontent, hbytes (List.length_eq_zero_iff.mp hnone.2) i hi,
        hbytes₁ i hi, htable]
      rfl
    refine bytes_twenty_ne m (List.ext_getElem (m.bytes_length 20) fun i hi _ => ?_)
    have hin : i < 2 := by
      rwa [m.bytes_length] at hi
    have hbyte := hzero i hin
    rw [List.getD_eq_getElem?_getD, List.getElem?_append_left hi, List.getElem?_eq_getElem hi,
      Option.getD_some] at hbyte
    rw [hbyte]
    interval_cases i <;> rfl

/-- **Which images are written as they should be**: that of no kernel and no files. -/
theorem dtimg_eq_microImage_iff (m : Imodes) (store : Word) (kernel : List UInt8)
    (files : List (List UInt8)) (hten : files.length ≤ 10) :
    dtimg m store kernel files = some (microImage m kernel files) ↔
      kernel = [] ∧ files = [] := by
  refine ⟨fun heq => not_not.mp fun hsome => dtimg_ne m store hten hsome heq, ?_⟩
  rintro ⟨rfl, rfl⟩
  exact dtimg_nil m store

/-- Two empty files. -/
theorem dtimg_eq_microImage_iff_two :
    dtimg ⟨.little, .big⟩ 0 [] [[], []] = some (microImage ⟨.little, .big⟩ [] [[], []]) ↔
      ([] : List UInt8) = [] ∧ [([] : List UInt8), []] = [] :=
  dtimg_eq_microImage_iff ⟨.little, .big⟩ 0 [] [[], []] (by decide)

/-- The table is put over a kernel of one word. -/
theorem not_forall_dtimg_eq_microImage :
    ¬ ∀ (m : Imodes) (store : Word) (kernel : List UInt8) (files : List (List UInt8)),
      kernel.length % 2 = 0 → (∀ file ∈ files, file.length % 2 = 0) → files.length ≤ 10 →
        dtimg m store kernel files = some (microImage m kernel files) := by
  intro h
  have hne : dtimg ⟨.little, .big⟩ 0 [0x7C, 0x01] [] ≠
      some (microImage ⟨.little, .big⟩ [0x7C, 0x01] []) :=
    dtimg_ne _ _ (Nat.zero_le 10) fun hnone => List.cons_ne_nil _ _ hnone.1
  exact hne (h ⟨.little, .big⟩ 0 [0x7C, 0x01] [] rfl nofun (Nat.zero_le 10))

end DcpuToolchain
