import DcpuToolchain.Isa
import DcpuToolchain.Lib.Stdio

/-!
# Words in files

`libdcpu/iio.c`: words are written and read in the byte order that has been chosen, whatever
the byte order of the machine.
-/

namespace DcpuToolchain

open Codec Stdio

/-- `icpumode`, as it is detected, and `iwritemode`. -/
structure Imodes where
  icpumode : Endian
  iwritemode : Endian

/-- `iflip`. -/
def iflip (s : Word) : Word := BitVec.ofNat 16 (s.toNat % 256 * 256 + s.toNat / 256 % 256)

theorem iflip_iflip (s : Word) : iflip (iflip s) = s := by
  have hlt := s.isLt
  have hflip : (iflip s).toNat = s.toNat % 256 * 256 + s.toNat / 256 % 256 := by
    rw [iflip, BitVec.toNat_ofNat, Nat.mod_eq_of_lt (by omega)]
  have hhigh : s.toNat / 256 % 256 = s.toNat / 256 := Nat.mod_eq_of_lt (by omega)
  have hmod : (iflip s).toNat % 256 = s.toNat / 256 := by omega
  have hdiv : (iflip s).toNat / 256 % 256 = s.toNat % 256 := by omega
  refine BitVec.eq_of_toNat_eq ?_
  rw [iflip, BitVec.toNat_ofNat, hmod, hdiv]
  omega

namespace Imodes

/-- What is written for a word, and what is read as one: flipped, if the orders differ. -/
def flip (m : Imodes) (w : Word) : Word := if m.icpumode ≠ m.iwritemode then iflip w else w

theorem flip_flip (m : Imodes) (w : Word) : m.flip (m.flip w) = w := by
  unfold flip
  split
  · exact iflip_iflip w
  · rfl

/-- The bytes of a word in a file. -/
def bytes (m : Imodes) (w : Word) : List UInt8 := put m.icpumode 2 (m.flip w).toNat

@[simp] theorem bytes_length (m : Imodes) (w : Word) : (m.bytes w).length = 2 := put_length _ _ _

theorem length_flatMap_bytes (m : Imodes) (words : List Word) :
    (words.flatMap m.bytes).length = 2 * words.length := by
  induction words with
  | nil => rfl
  | cons w words ih =>
    rw [List.flatMap_cons, List.length_append, ih, m.bytes_length, List.length_cons]
    omega

/-- The word that bytes of a file are. -/
def word (m : Imodes) (bytes : List UInt8) : Word :=
  m.flip (BitVec.ofNat 16 (ofBytes (m.icpumode.arrange bytes)))

theorem word_bytes (m : Imodes) (w : Word) : m.word (m.bytes w) = w := by
  rw [word, bytes, put, Endian.arrange_arrange, ofBytes_bytes (m.flip w).isLt,
    BitVec.ofNat_toNat, BitVec.setWidth_eq, flip_flip]

end Imodes

/-- `iwrite`. -/
def iwrite (m : Imodes) (src : Word) (out : File) : File := out.fwrite (m.bytes src)

/-- `iread`: what is read, and how many words. Where there is none, what was in the destination
is flipped all the same. -/
def iread (m : Imodes) (dest : Word) (file : File) : File × Word × ℕ :=
  ((file.fread 2).1,
    if (file.fread 2).2.length = 2 then m.word (file.fread 2).2 else m.flip dest,
    (file.fread 2).2.length / 2)

/-- A word that is in a file is read. -/
theorem iread_of_le {m : Imodes} {file : File} (heof : file.eof = false)
    (h : file.pos + 2 ≤ file.content.length) (dest : Word) :
    iread m dest file =
      ({ file with pos := file.pos + 2 }, m.word ((file.content.drop file.pos).take 2), 1) := by
  have hlength : ((file.content.drop file.pos).take 2).length = 2 := by
    rw [List.length_take, List.length_drop]
    omega
  rw [iread, File.fread_of_le heof h, hlength]
  rfl

end DcpuToolchain
