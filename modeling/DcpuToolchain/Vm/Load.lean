import Mathlib.Data.List.GetD
import DcpuToolchain.Asm.Headers
import DcpuToolchain.Dbg.Breakpoints

/-!
# Loading programs

Three programs read a file of words into the memory, with the same loop: the emulator, the
development environment and the debugger. The loop goes on until the end of the file has been
seen, which is one turn after the last word: there is no word for it, but what was in its place
is flipped (`DcpuToolchain.readFlash_eq`).

That does not show where the memory was zero, so that the development environment starts what
the emulator does (`DcpuToolchain.startEmulation_eq_iff`). The debugger does not clear its array,
in which the rest of a program that was loaded before a shorter one is still there, with its
first word flipped (`DcpuToolchain.ddbgLoads_eq_fileMemory_iff`).
-/

namespace DcpuToolchain

open Codec Stdio

/-- The loop that the programs share: what is read, and how many turns there were. The place of
the next word is `i`, and the first argument is how many there are. -/
def readFlash (m : Imodes) : ℕ → (Word → Word) → ℕ → File → (Word → Word) × ℕ
  | 0, flash, i, _ => (flash, i)
  | n + 1, flash, i, load =>
    if load.eof = true then (flash, i)
    else
      let (load, w, _) := iread m (flash (BitVec.ofNat 16 i)) load
      readFlash m n (Function.update flash (BitVec.ofNat 16 i) w) (i + 1) load

/-- The bytes at the beginning of a file, for which `fgetc` may give `EOF`. -/
def leading : ℕ → File → List UInt8
  | 0, _ => []
  | n + 1, load => (load.fgetc.2.getD 0xFF) :: leading n load.fgetc.1

/-- The options of the emulator that change the machine. -/
structure DtemuOptions where
  radiation : Option ℤ := none
  catchFire : Bool := false

/-- `main` of the emulator, up to the hardware: the machine it starts, unless the file is
intermediate code. -/
def dtemuStart (m : Imodes) (options : DtemuOptions) (content : List UInt8) : Option Vm :=
  let load : File := ⟨content, 0, false⟩
  let (flash, _) := readFlash m 0x10000 (fun _ => 0) 0 load
  if leading ldataObjfmt.dropLast.length load = ldataObjfmt.dropLast then none
  else
    let vm := vmFlash {} flash
    some { vm with
      radiationFactor := options.radiation.getD vm.radiationFactor
      canFire := options.catchFire }

/-- `start_emulation` of the development environment, up to the hardware. It clears the bytes
that are compared, and does not read them. -/
def startEmulation (m : Imodes) (content : List UInt8) : Option Vm :=
  let (flash, _) := readFlash m 0x10000 (fun _ => 0) 0 ⟨content, 0, false⟩
  if List.replicate ldataObjfmt.dropLast.length 0 = ldataObjfmt.dropLast then none
  else some (vmFlash {} flash)

/-- `ddbg_load`: the memory to be flashed, and `flash_size`. -/
def ddbgLoad (m : Imodes) (flash : Word → Word) (content : List UInt8) : (Word → Word) × Word :=
  let r := readFlash m 0x10000 flash 0 ⟨content, 0, false⟩
  (r.1, BitVec.ofNat 16 r.2)

/-- The array after some files have been loaded. Nothing else writes to it. -/
def ddbgLoads (m : Imodes) (contents : List (List UInt8)) : Word → Word :=
  contents.foldl (fun flash content => (ddbgLoad m flash content).1) fun _ => 0

/-! ### The loop -/

/-- A word of a file. -/
def fileWord (m : Imodes) (content : List UInt8) (i : ℕ) : Word :=
  m.word [content.getD (2 * i) 0, content.getD (2 * i + 1) 0]

/-- What the loop leaves in place of a word. -/
def afterFile (m : Imodes) (content : List UInt8) (i : ℕ) (old : Word) : Word :=
  if 2 * i + 1 < content.length then fileWord m content i
  else if i = content.length / 2 then m.flip old
  else old

section Loop

variable {m : Imodes} {content : List UInt8}

/-- Two bytes from a place on. -/
theorem take_two_drop {i : ℕ} (h : i + 1 < content.length) :
    (content.drop i).take 2 = [content.getD i 0, content.getD (i + 1) 0] := by
  have hi : i < content.length := Nat.lt_of_succ_lt h
  rw [List.getD_eq_getElem?_getD, List.getD_eq_getElem?_getD, List.getElem?_eq_getElem hi,
    List.getElem?_eq_getElem h, List.drop_eq_getElem_cons hi, List.drop_eq_getElem_cons h]
  rfl

/-- The turn after the last word. -/
theorem iread_of_gt {file : File} (heof : file.eof = false)
    (h : file.content.length < file.pos + 2) (dest : Word) :
    (iread m dest file).1.eof = true ∧ (iread m dest file).2.1 = m.flip dest := by
  have hlength : ((file.content.drop file.pos).take 2).length < 2 := by
    rw [List.length_take, List.length_drop]
    omega
  have hread : file.fread 2 = ({ file with
      pos := file.pos + ((file.content.drop file.pos).take 2).length
      eof := decide (((file.content.drop file.pos).take 2).length < 2) },
        (file.content.drop file.pos).take 2) := by
    rw [File.fread, if_neg (by decide), heof, if_neg Bool.false_ne_true]
  rw [iread, hread]
  exact ⟨decide_eq_true hlength, if_neg hlength.ne⟩

/-- Once the end has been seen, the loop is over. -/
theorem readFlash_eof {n : ℕ} (flash : Word → Word) (i : ℕ) {load : File} (h : load.eof = true) :
    readFlash m n flash i load = (flash, i) := by
  cases n with
  | zero => rfl
  | succ n => rw [readFlash, if_pos h]

/-- A turn with a word. -/
theorem readFlash_word {n i : ℕ} (h : 2 * i + 1 < content.length) (flash : Word → Word) :
    readFlash m (n + 1) flash i ⟨content, 2 * i, false⟩ =
      readFlash m n (Function.update flash (BitVec.ofNat 16 i) (fileWord m content i)) (i + 1)
        ⟨content, 2 * (i + 1), false⟩ := by
  have hread := @iread_of_le m ⟨content, 2 * i, false⟩ rfl
    (show 2 * i + 2 ≤ content.length by omega) (flash (BitVec.ofNat 16 i))
  rw [readFlash, if_neg Bool.false_ne_true, hread, take_two_drop h]
  rfl

/-- The last turn. -/
theorem readFlash_last {n i : ℕ} (h : content.length ≤ 2 * i + 1) (flash : Word → Word) :
    readFlash m (n + 1) flash i ⟨content, 2 * i, false⟩ =
      (Function.update flash (BitVec.ofNat 16 i) (m.flip (flash (BitVec.ofNat 16 i))), i + 1) := by
  obtain ⟨heof, hflip⟩ := @iread_of_gt m ⟨content, 2 * i, false⟩ rfl
    (show content.length < 2 * i + 2 by omega) (flash (BitVec.ofNat 16 i))
  rw [readFlash, if_neg Bool.false_ne_true]
  dsimp only
  rw [readFlash_eof _ _ heof, hflip]

/-- **The loop**, from a place on. -/
theorem readFlash_from {n i : ℕ} (hi : n + i = 0x10000) (hin : 2 * i ≤ content.length)
    (flash : Word → Word) (a : Word) :
    (readFlash m n flash i ⟨content, 2 * i, false⟩).1 a =
      if a.toNat < i then flash a else afterFile m content a.toNat (flash a) := by
  induction n generalizing i flash with
  | zero => rw [readFlash, if_pos (by omega)]
  | succ n ih =>
    have hat : BitVec.ofNat 16 i = a ↔ i = a.toNat := by
      constructor
      · rintro rfl
        rw [BitVec.toNat_ofNat, Nat.mod_eq_of_lt (by omega)]
      · rintro rfl
        exact BitVec.ofNat_toNat 16 a
    rcases Nat.lt_or_ge (2 * i + 1) content.length with hword | hend
    · -- there is a word for this place
      rw [readFlash_word hword, ih (by omega) (by omega)]
      by_cases heq : i = a.toNat
      · rw [hat.mpr heq, Function.update_self, if_pos (by omega), if_neg (by omega), afterFile,
          ← heq, if_pos hword]
      · rw [Function.update_of_ne fun h => heq (hat.mp h.symm)]
        by_cases hlt : a.toNat < i
        · rw [if_pos (by omega), if_pos hlt]
        · rw [if_neg (by omega), if_neg hlt]
    · -- the last turn
      rw [readFlash_last hend]
      dsimp only
      by_cases heq : i = a.toNat
      · rw [hat.mpr heq, Function.update_self, if_neg (by omega), afterFile, if_neg (by omega),
          if_pos (by omega)]
      · rw [Function.update_of_ne fun h => heq (hat.mp h.symm)]
        split
        · rfl
        · rw [afterFile, if_neg (by omega), if_neg (by omega)]

/-- How many turns there are, from a place on. -/
theorem readFlash_turns {n i : ℕ} (hi : n + i = 0x10000) (hin : 2 * i ≤ content.length)
    (flash : Word → Word) :
    (readFlash m n flash i ⟨content, 2 * i, false⟩).2 = min 0x10000 (content.length / 2 + 1) := by
  induction n generalizing i flash with
  | zero =>
    rw [readFlash, min_eq_left (by omega)]
    omega
  | succ n ih =>
    rcases Nat.lt_or_ge (2 * i + 1) content.length with hword | hend
    · rw [readFlash_word hword, ih (by omega) (by omega)]
    · rw [readFlash_last hend, min_eq_right (by omega)]
      dsimp only
      omega

/-- **What the loop reads.** -/
theorem readFlash_eq (m : Imodes) (content : List UInt8) (flash : Word → Word) (a : Word) :
    (readFlash m 0x10000 flash 0 ⟨content, 0, false⟩).1 a =
      afterFile m content a.toNat (flash a) := by
  have hfrom := @readFlash_from m content 0x10000 0 rfl (Nat.zero_le _) flash a
  rwa [if_neg (Nat.not_lt_zero _)] at hfrom

theorem flip_zero (m : Imodes) : m.flip 0 = 0 := by
  unfold Imodes.flip
  split <;> rfl

theorem flip_eq_zero_iff (m : Imodes) {w : Word} : m.flip w = 0 ↔ w = 0 := by
  constructor
  · intro h
    rw [← m.flip_flip w, h, flip_zero]
  · rintro rfl
    exact flip_zero m

/-- Nothing shows of the flip where the memory was zero. -/
theorem afterFile_zero (m : Imodes) (content : List UInt8) (i : ℕ) :
    afterFile m content i 0 = if 2 * i + 1 < content.length then fileWord m content i else 0 := by
  rw [afterFile, flip_zero, ite_self]

/-- The words of a file of words. -/
theorem fileWord_flatMap (m : Imodes) (words : List Word) {i : ℕ} (hi : i < words.length) :
    fileWord m (words.flatMap m.bytes) i = words[i] := word_getD_flatMap m words hi

/-- What the loop leaves of a word by a file of words. -/
theorem afterFile_flatMap (m : Imodes) (words : List Word) (i : ℕ) (old : Word) :
    afterFile m (words.flatMap m.bytes) i old =
      words.getD i (if i = words.length then m.flip old else old) := by
  rw [afterFile, m.length_flatMap_bytes, Nat.mul_div_cancel_left _ Nat.two_pos]
  rcases Nat.lt_or_ge i words.length with hlt | hge
  · rw [if_pos (by omega), fileWord_flatMap m words hlt, List.getD_eq_getElem _ _ hlt]
  · rw [if_neg (by omega), List.getD_eq_default _ _ hge]

/-- Behind the file it shows where the memory was not zero. -/
theorem afterFile_eq_zero_iff {words : List Word} {i : ℕ} {old : Word} :
    afterFile m (words.flatMap m.bytes) i old = 0 ↔ words.getD i old = 0 := by
  rw [afterFile_flatMap]
  rcases Nat.lt_or_ge i words.length with hlt | hge
  · rw [List.getD_eq_getElem _ _ hlt, List.getD_eq_getElem _ _ hlt]
  · rw [List.getD_eq_default _ _ hge, List.getD_eq_default _ _ hge]
    split
    · exact flip_eq_zero_iff m
    · exact Iff.rfl

end Loop

/-! ### The emulator and the development environment -/

section Start

variable {m : Imodes} {content : List UInt8}

/-- The bytes at the beginning of a file are what they are compared with, if the file begins
with that. -/
theorem leading_eq_iff {bytes : List UInt8} (hbytes : 0xFF ∉ bytes) (pos : ℕ) (eof : Bool)
    (heof : eof = true → content.length ≤ pos) :
    leading bytes.length ⟨content, pos, eof⟩ = bytes ↔ bytes <+: content.drop pos := by
  induction bytes generalizing pos eof with
  | nil => exact iff_of_true rfl List.nil_prefix
  | cons b bytes ih =>
    rw [List.mem_cons, not_or] at hbytes
    rcases Nat.lt_or_ge pos content.length with hlt | hge
    · have hfalse : eof = false := by
        cases eof with
        | false => rfl
        | true => exact absurd (heof rfl) (by omega)
      subst hfalse
      rw [List.length_cons, leading, File.fgetc_of_lt rfl hlt, List.drop_eq_getElem_cons hlt,
        List.cons_prefix_cons, List.cons.injEq, ih hbytes.2 (pos + 1) false (fun h => by cases h)]
      dsimp only
      rw [List.getElem?_eq_getElem hlt, Option.getD_some, eq_comm (a := content[pos])]
    · rw [List.length_cons, leading, File.fgetc_of_ge hge, List.drop_of_length_le hge]
      refine iff_of_false (fun h => hbytes.1 ?_) fun h => ?_
      · exact (List.cons.inj h).1
      · exact List.cons_ne_nil _ _ (List.prefix_nil.mp h)

/-- The beginning of intermediate code. -/
def Intermediate (content : List UInt8) : Prop := ldataObjfmt.dropLast <+: content

instance decidableIntermediate (content : List UInt8) : Decidable (Intermediate content) :=
  inferInstanceAs (Decidable (_ <+: _))

theorem leading_iff (content : List UInt8) :
    leading ldataObjfmt.dropLast.length ⟨content, 0, false⟩ = ldataObjfmt.dropLast ↔
      Intermediate content := by
  have hbytes : 0xFF ∉ ldataObjfmt.dropLast := by decide +kernel
  exact leading_eq_iff hbytes 0 false fun h => by cases h

/-- The memory that a file is loaded into. -/
def fileMemory (m : Imodes) (content : List UInt8) (a : Word) : Word :=
  if 2 * a.toNat + 1 < content.length then fileWord m content a.toNat else 0

/-- The memory that the words of a file are loaded into. -/
theorem fileMemory_flatMap (m : Imodes) (words : List Word) :
    fileMemory m (words.flatMap m.bytes) = fun a => words.getD a.toNat 0 := by
  funext a
  rw [fileMemory, m.length_flatMap_bytes]
  rcases Nat.lt_or_ge a.toNat words.length with hlt | hge
  · rw [if_pos (by omega), fileWord_flatMap m words hlt, List.getD_eq_getElem _ _ hlt]
  · rw [if_neg (by omega), List.getD_eq_default _ _ hge]

theorem readFlash_zero (m : Imodes) (content : List UInt8) :
    (readFlash m 0x10000 (fun _ => 0) 0 ⟨content, 0, false⟩).1 = fileMemory m content := by
  funext a
  rw [readFlash_eq, afterFile_zero, fileMemory]

/-- **What the emulator starts.** -/
theorem dtemuStart_eq (m : Imodes) (options : DtemuOptions) (content : List UInt8)
    (h : ¬ Intermediate content) :
    dtemuStart m options content = some { vmFlash {} (fileMemory m content) with
      radiationFactor := options.radiation.getD 1
      canFire := options.catchFire } := by
  unfold dtemuStart
  dsimp only
  rw [readFlash_zero, if_neg fun hleading => h ((leading_iff content).mp hleading)]
  rfl

/-- The emulator refuses intermediate code. -/
theorem dtemuStart_intermediate (m : Imodes) (options : DtemuOptions)
    (h : Intermediate content) : dtemuStart m options content = none := by
  unfold dtemuStart
  dsimp only
  rw [if_pos ((leading_iff content).mpr h)]

/-- **What the development environment starts**, whatever the file is. -/
theorem startEmulation_eq (m : Imodes) (content : List UInt8) :
    startEmulation m content = some (vmFlash {} (fileMemory m content)) := by
  have hcleared : List.replicate ldataObjfmt.dropLast.length 0 ≠ ldataObjfmt.dropLast := by
    decide +kernel
  unfold startEmulation
  dsimp only
  rw [readFlash_zero, if_neg hcleared]

/-- **It starts what the emulator does without options**, unless the file is intermediate code,
which only the emulator refuses. -/
theorem startEmulation_eq_iff (m : Imodes) (content : List UInt8) :
    startEmulation m content = dtemuStart m {} content ↔ ¬Intermediate content := by
  rw [startEmulation_eq]
  constructor
  · intro h hint
    rw [dtemuStart_intermediate m {} hint] at h
    cases h
  · intro h
    rw [dtemuStart_eq m {} content h]
    rfl

end Start

/-! ### The debugger -/

section Debugger

variable {m : Imodes} {files : List (List Word)} {words : List Word}

theorem ddbgLoad_eq (m : Imodes) (flash : Word → Word) (content : List UInt8) (a : Word) :
    (ddbgLoad m flash content).1 a = afterFile m content a.toNat (flash a) :=
  readFlash_eq m content flash a

/-- **`flash_size` counts the last turn as a word**, and is 0 for a file that fills the
memory. -/
theorem ddbgLoad_flashSize (m : Imodes) (flash : Word → Word) (content : List UInt8) :
    (ddbgLoad m flash content).2.toNat =
      if content.length / 2 + 1 < 0x10000 then content.length / 2 + 1 else 0 := by
  have hturns : (readFlash m 0x10000 flash 0 ⟨content, 0, false⟩).2 =
      min 0x10000 (content.length / 2 + 1) := readFlash_turns rfl (Nat.zero_le _) flash
  rw [ddbgLoad, hturns, BitVec.toNat_ofNat]
  split <;> omega

theorem ddbgLoads_concat (m : Imodes) (contents : List (List UInt8)) (content : List UInt8) :
    ddbgLoads m (contents ++ [content]) = (ddbgLoad m (ddbgLoads m contents) content).1 := by
  rw [ddbgLoads, List.foldl_append]
  rfl

/-- Some files of words. -/
def wordFiles (m : Imodes) (files : List (List Word)) : List (List UInt8) :=
  files.map fun words => words.flatMap m.bytes

/-- The word of the last file that has one for an address. -/
def lastWord (files : List (List Word)) (a : Word) : Word :=
  files.foldl (fun w words => words.getD a.toNat w) 0

theorem lastWord_concat (files : List (List Word)) (words : List Word) (a : Word) :
    lastWord (files ++ [words]) a = words.getD a.toNat (lastWord files a) := by
  rw [lastWord, List.foldl_append]
  rfl

/-- Files leave nothing behind a file that is as long as they are. -/
theorem lastWord_eq_zero {a : Word} (h : ∀ words ∈ files, words.length ≤ a.toNat) :
    lastWord files a = 0 := by
  induction files using List.reverseRecOn with
  | nil => rfl
  | append_singleton files words ih =>
    have hwords : words.length ≤ a.toNat := h words (List.mem_append_right _ (.head _))
    rw [lastWord_concat, List.getD_eq_default _ _ hwords]
    exact ih fun words hmem => h words (List.mem_append_left _ hmem)

theorem ddbgLoads_wordFiles_concat (m : Imodes) (files : List (List Word)) (words : List Word)
    (a : Word) :
    ddbgLoads m (wordFiles m (files ++ [words])) a =
      afterFile m (words.flatMap m.bytes) a.toNat (ddbgLoads m (wordFiles m files) a) := by
  rw [wordFiles, List.map_append, List.map_singleton, ddbgLoads_concat, ddbgLoad_eq]
  rfl

/-- Where the array is zero. -/
theorem ddbgLoads_eq_zero_iff {a : Word} :
    ddbgLoads m (wordFiles m files) a = 0 ↔ lastWord files a = 0 := by
  induction files using List.reverseRecOn with
  | nil => exact Iff.rfl
  | append_singleton files words ih =>
    rw [ddbgLoads_wordFiles_concat, afterFile_eq_zero_iff, lastWord_concat]
    rcases Nat.lt_or_ge a.toNat words.length with hlt | hge
    · rw [List.getD_eq_getElem _ _ hlt, List.getD_eq_getElem _ _ hlt]
    · rw [List.getD_eq_default _ _ hge, List.getD_eq_default _ _ hge]
      exact ih

/-- What the debugger flashes at an address, and what the emulator does. -/
theorem ddbgLoads_apply_eq_iff {a : Word} :
    ddbgLoads m (wordFiles m (files ++ [words])) a = fileMemory m (words.flatMap m.bytes) a ↔
      (words.length ≤ a.toNat → lastWord files a = 0) := by
  rw [fileMemory_flatMap]
  dsimp only
  rcases Nat.lt_or_ge a.toNat words.length with hlt | hge
  · refine iff_of_true ?_ fun hbehind => absurd hlt (Nat.not_lt.mpr hbehind)
    rw [ddbgLoads_wordFiles_concat, afterFile_flatMap, List.getD_eq_getElem _ _ hlt,
      List.getD_eq_getElem _ _ hlt]
  · -- the word behind the file is flipped, but that does not make it zero
    rw [List.getD_eq_default _ _ hge, ddbgLoads_wordFiles_concat, afterFile_eq_zero_iff,
      List.getD_eq_default _ _ hge, ddbgLoads_eq_zero_iff]
    exact ⟨fun h _ => h, fun h => h hge⟩

/-- **The debugger flashes what the emulator does** exactly if the files before left nothing
behind the last one. -/
theorem ddbgLoads_eq_fileMemory_iff :
    ddbgLoads m (wordFiles m (files ++ [words])) = fileMemory m (words.flatMap m.bytes) ↔
      ∀ a : Word, words.length ≤ a.toNat → lastWord files a = 0 := by
  rw [funext_iff]
  exact forall_congr' fun a => ddbgLoads_apply_eq_iff

end Debugger

end DcpuToolchain
