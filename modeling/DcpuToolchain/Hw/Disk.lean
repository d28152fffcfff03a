import DcpuToolchain.Fmt.Iio
import DcpuToolchain.Hw.Drive

/-!
# What is on the disk

The transfers of the disk drive: 512 words between the memory and a sector of the image file,
at the tick after a request. Addresses are not reduced to 16 bits, so that a transfer near the
top of the memory runs out of it; and the check of the sector lets the one behind the last
pass.

Where both do not matter, what a `WRITE` puts in a sector is what a later `READ` gets from it,
and nothing else changes on the disk (`DcpuToolchain.transfersRight_of_addressable`).
-/

namespace DcpuToolchain

open Codec Stdio

/-! ### Transfers -/

/-- The drive with the content of the image file. -/
structure Floppy where
  hw : M35fd
  disk : List UInt8

/-- What happens: a request, or a tick, with what is in the memory by then. Behind the memory
there are other things. -/
inductive DiskEvent
  | request (r : Registers)
  | tick (ram : ℕ → Word)

/-- The event for the drive alone. -/
def DiskEvent.drive : DiskEvent → DriveEvent
  | request r => .request r
  | tick _ => .tick

namespace M35fd

/-- The image file at the sector. -/
def seek (hw : M35fd) (disk : List UInt8) : File :=
  (⟨disk, 0, false⟩ : File).fseek (hw.sector.toNat * 1024)

/-- The transfer to the memory: the file, the word read last, and the memory. -/
def readSector (m : Imodes) (hw : M35fd) (disk : List UInt8) (ram : ℕ → Word) : ℕ → Word :=
  ((List.range 512).foldl (fun (s : File × Word × (ℕ → Word)) i =>
    ((iread m s.2.1 s.1).1, (iread m s.2.1 s.1).2.1,
      Function.update s.2.2 (hw.position.toNat + i) (iread m s.2.1 s.1).2.1))
    (hw.seek disk, 0, ram)).2.2

/-- The transfer to the disk. -/
def writeSector (m : Imodes) (hw : M35fd) (disk : List UInt8) (ram : ℕ → Word) : List UInt8 :=
  ((List.range 512).foldl (fun file i => iwrite m (ram (hw.position.toNat + i)) file)
    (hw.seek disk)).content

end M35fd

namespace Floppy

/-- `vm_hw_m35fd_cycle`, with the memory behind it. The interrupts that it raises are left out, and
with them what their delivery pushes onto the stack of the guest. -/
def cycle (m : Imodes) (d : Floppy) (ram : ℕ → Word) : Floppy × (ℕ → Word) :=
  if d.hw.state = M35fd.noMedia ∧ (d.hw.reading = true ∨ d.hw.writing = true) then
    (⟨M35fd.resetState { d.hw with lastError := 2 }, d.disk⟩, ram)
  else
    let hw := d.hw.checked
    let r := if hw.reading then (hw.resetState, hw.readSector m d.disk ram) else (hw, ram)
    if r.1.writing then (⟨r.1.resetState, r.1.writeSector m d.disk r.2⟩, r.2)
    else (⟨r.1, d.disk⟩, r.2)

/-- What happens to the drive and the image. -/
def step (m : Imodes) (d : Floppy) : DiskEvent → Floppy
  | .request r => { d with hw := (d.hw.interrupt r).1 }
  | .tick ram => (d.cycle m ram).1

/-- The drive and the image after some events. -/
def run (m : Imodes) (d : Floppy) (events : List DiskEvent) : Floppy := events.foldl (step m) d

/-- The drive as it is initialized with an image. -/
def init (disk : List UInt8) : Floppy := ⟨M35fd.init true, disk⟩

/-- The transfers do not change what the drive does. -/
theorem hw_step (m : Imodes) (d : Floppy) (e : DiskEvent) :
    (d.step m e).hw = d.hw.step e.drive := by
  cases e with
  | request r => rfl
  | tick ram =>
    rw [step, cycle, DiskEvent.drive, M35fd.step, M35fd.cycle]
    split
    · rfl
    · dsimp only
      cases hreading : d.hw.checked.reading
      · cases hwriting : d.hw.checked.writing <;> simp [hwriting]
      · simp [M35fd.resetState]

theorem hw_run (m : Imodes) (d : Floppy) (events : List DiskEvent) :
    (d.run m events).hw = d.hw.run (events.map DiskEvent.drive) := by
  induction events generalizing d with
  | nil => rfl
  | cons e events ih =>
    refine (ih (d.step m e)).trans ?_
    rw [hw_step]
    rfl

theorem disk_requests (m : Imodes) (d : Floppy) (rs : List Registers) :
    (d.run m (rs.map .request)).disk = d.disk := by
  induction rs generalizing d with
  | nil => rfl
  | cons r rs ih => exact ih _

end Floppy

/-! ### Sectors -/

/-- The word at a position of the image; there are zeros behind the end. -/
def wordAt (m : Imodes) (disk : List UInt8) (pos : ℕ) : Word :=
  m.word [disk.getD pos 0, disk.getD (pos + 1) 0]

/-- A word of a sector. -/
def sectorWord (m : Imodes) (disk : List UInt8) (sector i : ℕ) : Word :=
  wordAt m disk (sector * 1024 + 2 * i)

/-- The words that are written one after the other. -/
theorem foldl_iwrite (m : Imodes) (words : List Word) (file : File) :
    words.foldl (fun file w => iwrite m w file) file = file.fwrite (words.flatMap m.bytes) := by
  induction words generalizing file with
  | nil => rfl
  | cons w words ih =>
    rw [List.foldl_cons, ih, List.flatMap_cons, File.fwrite_append]
    rfl

/-- The bytes of a word among those of others. -/
theorem drop_flatMap_bytes (m : Imodes) (words : List Word) {i : ℕ} (h : i < words.length) :
    ((words.flatMap m.bytes).drop (2 * i)).take 2 = m.bytes words[i] := by
  induction words generalizing i with
  | nil => cases h
  | cons w words ih =>
    have hlength : (m.bytes w).length = 2 := m.bytes_length w
    rw [List.flatMap_cons]
    cases i with
    | zero =>
      rw [Nat.mul_zero, List.drop_zero, List.getElem_cons_zero, ← hlength]
      exact List.take_left
    | succ i =>
      rw [show 2 * (i + 1) = (m.bytes w).length + 2 * i by omega, ← List.drop_drop, List.drop_left,
        List.getElem_cons_succ]
      exact ih (Nat.lt_of_succ_lt_succ h)

theorem getD_pair (l : List UInt8) (pos : ℕ) {a b : UInt8} (h : (l.drop pos).take 2 = [a, b]) :
    l.getD pos 0 = a ∧ l.getD (pos + 1) 0 = b := by
  have hget : ∀ i, i < 2 → l[pos + i]? = [a, b][i]? := by
    intro i hi
    rw [← h, List.getElem?_take_of_lt hi, List.getElem?_drop]
  have hzero := hget 0 (by decide)
  have hone := hget 1 (by decide)
  rw [List.getD_eq_getElem?_getD, List.getD_eq_getElem?_getD]
  rw [Nat.add_zero] at hzero
  rw [hzero, hone]
  exact ⟨rfl, rfl⟩

theorem bytes_eq_pair (m : Imodes) (w : Word) : ∃ a b, m.bytes w = [a, b] := by
  obtain ⟨a, b, hbytes⟩ := List.length_eq_two.mp (m.bytes_length w)
  exact ⟨a, b, hbytes⟩

/-- What has been written is where it was written. -/
theorem wordAt_fwrite (m : Imodes) (file : File) (words : List Word) {i : ℕ}
    (h : i < words.length) :
    wordAt m (file.fwrite (words.flatMap m.bytes)).content (file.pos + 2 * i) = words[i] := by
  have hlength := Imodes.length_flatMap_bytes m words
  obtain ⟨a, b, hbytes⟩ := bytes_eq_pair m words[i]
  have hpair := drop_flatMap_bytes m words h
  rw [hbytes] at hpair
  obtain ⟨ha, hb⟩ := getD_pair _ _ hpair
  rw [wordAt, File.getD_fwrite, File.getD_fwrite, if_pos (by omega), if_pos (by omega),
    Nat.add_sub_cancel_left, show file.pos + 2 * i + 1 - file.pos = 2 * i + 1 by omega, ha, hb,
    ← hbytes, m.word_bytes]

/-- Nothing else changes. -/
theorem wordAt_fwrite_of_outside (m : Imodes) (file : File) (words : List Word) {pos : ℕ}
    (h : pos + 1 < file.pos ∨ file.pos + 2 * words.length ≤ pos) :
    wordAt m (file.fwrite (words.flatMap m.bytes)).content pos = wordAt m file.content pos := by
  have hlength := Imodes.length_flatMap_bytes m words
  rw [wordAt, File.getD_fwrite, File.getD_fwrite, if_neg (by omega), if_neg (by omega), wordAt]

namespace M35fd

variable {m : Imodes} {hw : M35fd} {disk : List UInt8} {ram : ℕ → Word}

theorem writeSector_eq (m : Imodes) (hw : M35fd) (disk : List UInt8) (ram : ℕ → Word) :
    hw.writeSector m disk ram =
      ((hw.seek disk).fwrite
        (((List.range 512).map fun i => ram (hw.position.toNat + i)).flatMap m.bytes)).content := by
  rw [writeSector, ← foldl_iwrite, List.foldl_map]

/-- **What a transfer to the disk puts there**: the words in the memory, and nothing else. -/
theorem sectorWord_writeSector (m : Imodes) (hw : M35fd) (disk : List UInt8) (ram : ℕ → Word)
    (sector : ℕ) {i : ℕ} (hi : i < 512) :
    sectorWord m (hw.writeSector m disk ram) sector i =
      if hw.sector.toNat = sector then ram (hw.position.toNat + i)
      else sectorWord m disk sector i := by
  have hpos : (hw.seek disk).pos = hw.sector.toNat * 1024 := rfl
  rw [writeSector_eq, sectorWord]
  split
  · rename_i heq
    rw [← heq, ← hpos, wordAt_fwrite m _ _ (by simpa using hi), List.getElem_map,
      List.getElem_range]
  · rename_i hne
    refine wordAt_fwrite_of_outside m _ _ ?_
    rw [hpos, List.length_map, List.length_range]
    omega

theorem length_writeSector (m : Imodes) (hw : M35fd) (disk : List UInt8) (ram : ℕ → Word) :
    (hw.writeSector m disk ram).length = max disk.length ((hw.sector.toNat + 1) * 1024) := by
  have hlength := Imodes.length_flatMap_bytes m
    ((List.range 512).map fun i => ram (hw.position.toNat + i))
  rw [List.length_map, List.length_range] at hlength
  have hnil :
      (((List.range 512).map fun i => ram (hw.position.toNat + i)).flatMap m.bytes) ≠ [] := by
    intro hnil
    rw [hnil, List.length_nil] at hlength
    omega
  rw [writeSector_eq, File.length_fwrite, if_neg hnil, hlength]
  show max disk.length (hw.sector.toNat * 1024 + 2 * 512) = _
  omega

/-- The words that have been read so far. -/
theorem readSector_loop (m : Imodes) (ram : ℕ → Word)
    (h : (hw.sector.toNat + 1) * 1024 ≤ disk.length) {n : ℕ} (hn : n ≤ 512) :
    ∃ word, (List.range n).foldl (fun (s : File × Word × (ℕ → Word)) i =>
        ((iread m s.2.1 s.1).1, (iread m s.2.1 s.1).2.1,
          Function.update s.2.2 (hw.position.toNat + i) (iread m s.2.1 s.1).2.1))
        (hw.seek disk, 0, ram) =
      (⟨disk, hw.sector.toNat * 1024 + 2 * n, false⟩, word, fun a =>
        if hw.position.toNat ≤ a ∧ a < hw.position.toNat + n then
          sectorWord m disk hw.sector.toNat (a - hw.position.toNat)
        else ram a) := by
  induction n with
  | zero =>
    have hfile : (⟨disk, hw.sector.toNat * 1024 + 2 * 0, false⟩ : File) = hw.seek disk := by
      rw [Nat.mul_zero, Nat.add_zero]
      rfl
    refine ⟨0, ?_⟩
    rw [hfile, List.range_zero, List.foldl_nil]
    refine congrArg (fun ram => (hw.seek disk, (0 : Word), ram)) ?_
    funext a
    rw [if_neg (by omega)]
  | succ n ih =>
    obtain ⟨word, hloop⟩ := ih (Nat.le_of_succ_le hn)
    have hfits : (⟨disk, hw.sector.toNat * 1024 + 2 * n, false⟩ : File).pos + 2 ≤ disk.length := by
      change hw.sector.toNat * 1024 + 2 * n + 2 ≤ disk.length
      omega
    have hread : iread m word ⟨disk, hw.sector.toNat * 1024 + 2 * n, false⟩ = _ :=
      iread_of_le rfl hfits word
    have hlength : ((disk.drop (hw.sector.toNat * 1024 + 2 * n)).take 2).length = 2 := by
      rw [List.length_take, List.length_drop]
      change hw.sector.toNat * 1024 + 2 * n + 2 ≤ disk.length at hfits
      omega
    obtain ⟨a, b, hpair⟩ := List.length_eq_two.mp hlength
    have hword : m.word ((disk.drop (hw.sector.toNat * 1024 + 2 * n)).take 2) =
        sectorWord m disk hw.sector.toNat n := by
      obtain ⟨ha, hb⟩ := getD_pair _ _ hpair
      rw [sectorWord, wordAt, ha, hb, hpair]
    have hnext : hw.sector.toNat * 1024 + 2 * (n + 1) = hw.sector.toNat * 1024 + 2 * n + 2 := by
      omega
    rw [List.range_succ, List.foldl_append, hloop, List.foldl_cons, List.foldl_nil, hread, hnext,
      hword]
    refine ⟨sectorWord m disk hw.sector.toNat n, ?_⟩
    refine congrArg (fun ram => ((⟨disk, hw.sector.toNat * 1024 + 2 * n + 2, false⟩ : File),
      sectorWord m disk hw.sector.toNat n, ram)) ?_
    funext a
    rw [Function.update_apply]
    by_cases heq : a = hw.position.toNat + n
    · rw [if_pos heq, if_pos (by omega), heq, Nat.add_sub_cancel_left]
    · rw [if_neg heq]
      dsimp only
      by_cases hin : hw.position.toNat ≤ a ∧ a < hw.position.toNat + n
      · rw [if_pos hin, if_pos (by omega)]
      · rw [if_neg hin, if_neg (by omega)]

/-- **What a transfer to the memory puts there**: the words of the sector, if the image reaches
to its end. -/
theorem readSector_eq (h : (hw.sector.toNat + 1) * 1024 ≤ disk.length) :
    hw.readSector m disk ram = fun a =>
      if hw.position.toNat ≤ a ∧ a < hw.position.toNat + 512 then
        sectorWord m disk hw.sector.toNat (a - hw.position.toNat)
      else ram a := by
  obtain ⟨word, hloop⟩ := readSector_loop m ram h (Nat.le_refl 512)
  rw [readSector, hloop]

end M35fd

/-! ### What a tick transfers -/

namespace Floppy

variable {m : Imodes} {d : Floppy} {ram : ℕ → Word}

/-- What waits is the transfer of a sector that the check lets pass. -/
structure Transfers (d : Floppy) : Prop where
  consistent : d.hw.Consistent
  busy : d.hw.state = M35fd.busy
  sector : d.hw.sector.toNat ≤ 1440

theorem Transfers.checked (h : d.Transfers) : d.hw.checked = d.hw := by
  have hsector : ¬ 1440 < d.hw.sector := by
    have hle := h.sector
    rw [BitVec.lt_def]
    exact Nat.not_lt_of_le hle
  rw [h.consistent.checked_eq, if_neg hsector]

theorem Transfers.cycle_writing (m : Imodes) (ram : ℕ → Word) (h : d.Transfers)
    (hwriting : d.hw.writing = true) :
    d.cycle m ram = (⟨d.hw.resetState, d.hw.writeSector m d.disk ram⟩, ram) := by
  have hreading : d.hw.reading = false := Bool.not_eq_true _ ▸ fun hr =>
    h.consistent.one ⟨hr, hwriting⟩
  rw [cycle, if_neg h.consistent.not_requested, h.checked]
  simp [hreading, hwriting]

theorem Transfers.cycle_reading (h : d.Transfers) (hreading : d.hw.reading = true) :
    d.cycle m ram = (⟨d.hw.resetState, d.disk⟩, d.hw.readSector m d.disk ram) := by
  rw [cycle, if_neg h.consistent.not_requested, h.checked]
  simp [hreading, M35fd.resetState]

/-- Without a request, and for a sector behind those that the check lets pass, nothing is
transferred. -/
theorem cycle_nothing (m : Imodes) (ram : ℕ → Word) (h : d.hw.Consistent)
    (hnothing : d.hw.state = M35fd.busy → 1440 < d.hw.sector.toNat) :
    (d.cycle m ram).1.disk = d.disk ∧ (d.cycle m ram).2 = ram := by
  have hidle : d.hw.checked.reading = false ∧ d.hw.checked.writing = false := by
    rw [h.checked_eq]
    split
    · exact ⟨rfl, rfl⟩
    · rename_i hsector
      rw [BitVec.lt_def] at hsector
      exact h.of_not_busy fun hbusy => hsector (hnothing hbusy)
  rw [cycle, if_neg h.not_requested]
  simp [hidle.1, hidle.2]

/-- **A tick changes no sector but the one that is written**, and makes the image no shorter. -/
theorem sectorWord_cycle (m : Imodes) (ram : ℕ → Word) (h : d.hw.Consistent) {sector : ℕ}
    (hother : d.hw.writing = true → d.hw.sector.toNat ≠ sector) {i : ℕ} (hi : i < 512) :
    sectorWord m (d.cycle m ram).1.disk sector i = sectorWord m d.disk sector i ∧
      d.disk.length ≤ (d.cycle m ram).1.disk.length := by
  by_cases htransfers : d.hw.state = M35fd.busy ∧ d.hw.sector.toNat ≤ 1440
  · have hall : d.Transfers := ⟨h, htransfers.1, htransfers.2⟩
    cases hwriting : d.hw.writing
    · have hreading : d.hw.reading = true := by
        have hne := h.busy_iff.mp htransfers.1
        rw [hwriting] at hne
        exact Bool.eq_true_of_not_eq_false hne
      rw [hall.cycle_reading hreading]
      exact ⟨rfl, Nat.le_refl _⟩
    · rw [hall.cycle_writing m ram hwriting]
      refine ⟨?_, ?_⟩
      · rw [M35fd.sectorWord_writeSector m _ _ _ _ hi, if_neg (hother hwriting)]
      · rw [M35fd.length_writeSector]
        exact le_max_left _ _
  · obtain ⟨hdisk, -⟩ := cycle_nothing m ram h fun hbusy =>
      Nat.lt_of_not_le fun hle => htransfers ⟨hbusy, hle⟩
    rw [hdisk]
    exact ⟨rfl, Nat.le_refl _⟩

/-! ### Runs -/

theorem run_consistent (m : Imodes) (h : d.hw.Consistent) (events : List DiskEvent) :
    (d.run m events).hw.Consistent := by
  rw [hw_run]
  exact h.run _

/-- **What waits after a request that is accepted**, whatever is requested behind it. -/
theorem accepted (m : Imodes) (h : d.hw.Consistent) {r : Registers} (hr : d.hw.Accepts r)
    (rs : List Registers) :
    let d' := d.run m (.request r :: rs.map .request)
    d'.hw.Consistent ∧ d'.hw.state = M35fd.busy ∧ d'.hw.reading = decide (r 0 = 2) ∧
      d'.hw.writing = decide (r 0 = 3) ∧ d'.hw.sector = r 3 ∧ d'.hw.position = r 4 ∧
      d'.disk = d.disk := by
  intro d'
  rcases d.hw.interrupt_cases r with ⟨-, -, -, -, heq⟩ | ⟨hrefused, -⟩
  · have hbusy : (d.hw.interrupt r).1.state = M35fd.busy := by rw [heq]
    obtain ⟨error, msg, hwaits⟩ := (h.interrupt r).busy_requests hbusy rs
    have hmap : (rs.map DiskEvent.request).map DiskEvent.drive = rs.map DriveEvent.request :=
      List.map_map
    have hhw : d'.hw = (d.hw.interrupt r).1.run (rs.map DriveEvent.request) := by
      rw [← hmap]
      exact hw_run m _ (rs.map DiskEvent.request)
    have hdisk : d'.disk = d.disk := disk_requests m _ rs
    refine ⟨run_consistent m h _, ?_⟩
    rw [hhw, hwaits, heq]
    exact ⟨rfl, rfl, rfl, rfl, rfl, hdisk⟩
  · exact absurd hr hrefused

/-- No `WRITE` to a sector is accepted. -/
def NotWritten (m : Imodes) (sector : Word) : Floppy → List DiskEvent → Prop
  | _, [] => True
  | d, e :: events =>
    (∀ r, e = .request r → d.hw.Accepts r → r 0 = 3 → r 3 ≠ sector) ∧
      NotWritten m sector (d.step m e) events

/-- The sector that is written, if there is one, is not the one. -/
def Leaves (d : Floppy) (sector : Word) : Prop := d.hw.writing = true → d.hw.sector ≠ sector

theorem Leaves.step (h : d.hw.Consistent) {sector : Word} (hleaves : d.Leaves sector)
    {e : DiskEvent} (he : ∀ r, e = .request r → d.hw.Accepts r → r 0 = 3 → r 3 ≠ sector) :
    (d.step m e).Leaves sector := by
  unfold Leaves
  rw [hw_step]
  cases e with
  | request r =>
    rcases d.hw.interrupt_cases r with ⟨haccepts, -, -, -, heq⟩ | ⟨-, error, msg, heq⟩
    · rw [DiskEvent.drive, M35fd.step, heq]
      intro hwriting
      exact he r rfl haccepts (of_decide_eq_true hwriting)
    · rw [DiskEvent.drive, M35fd.step, heq]
      exact hleaves
  | tick ram =>
    rw [DiskEvent.drive, M35fd.step]
    by_cases hbusy : d.hw.state = M35fd.busy
    · rw [h.cycle_busy hbusy]
      intro hwriting
      cases hwriting
    · rw [h.cycle_idle hbusy]
      exact hleaves

/-- **A sector stays as it is** while nothing is written to it. -/
theorem sectorWord_run (h : d.hw.Consistent) {sector : Word} (hleaves : d.Leaves sector)
    {events : List DiskEvent} (hevents : d.NotWritten m sector events) {i : ℕ} (hi : i < 512) :
    sectorWord m (d.run m events).disk sector.toNat i = sectorWord m d.disk sector.toNat i ∧
      d.disk.length ≤ (d.run m events).disk.length := by
  induction events generalizing d with
  | nil => exact ⟨rfl, Nat.le_refl _⟩
  | cons e events ih =>
    obtain ⟨he, hevents⟩ := hevents
    have hnext : (d.step m e).hw.Consistent := by
      rw [hw_step]
      exact h.step _
    obtain ⟨hword, hlength⟩ := ih hnext (hleaves.step h he) hevents
    have hstep : sectorWord m (d.step m e).disk sector.toNat i =
          sectorWord m d.disk sector.toNat i ∧
        d.disk.length ≤ (d.step m e).disk.length := by
      cases e with
      | request r => exact ⟨rfl, Nat.le_refl _⟩
      | tick ram =>
        exact sectorWord_cycle m ram h
          (fun hwriting heq => hleaves hwriting (BitVec.eq_of_toNat_eq heq)) hi
    exact ⟨hword.trans hstep.1, hstep.2.trans hlength⟩

end Floppy

/-- A request for a transfer that is in the memory, to or from a sector other than the one behind
the last. -/
structure Addressable (r : Registers) : Prop where
  sector : r 3 ≠ 1440
  position : (r 4).toNat + 512 ≤ 0x10000

/-- What a `WRITE` takes from the memory at its tick, a later `READ` of the sector puts in the
memory at its own, whatever comes in between but another `WRITE` to the sector; no other sector
changes; and for a sector that does not exist nothing is transferred. This is for the requests
that are `allowed`, after any events. -/
def TransfersRight (allowed : Registers → Prop) (m : Imodes) (disk : List UInt8)
    (before : List DiskEvent) : Prop :=
  let d := (Floppy.init disk).run m before
  (∀ w : Registers, d.hw.Accepts w → w 0 = 3 → (w 3).toNat < 1440 → allowed w →
    ∀ (waits : List Registers) (ram : ℕ → Word),
    let d₁ := d.run m (.request w :: waits.map .request)
    ∀ between : List DiskEvent, (d₁.cycle m ram).1.NotWritten m (w 3) between →
    let d₂ := (d₁.cycle m ram).1.run m between
    ∀ r : Registers, d₂.hw.Accepts r → r 0 = 2 → r 3 = w 3 → allowed r →
    ∀ (waits' : List Registers) (ram' : ℕ → Word),
    let d₃ := d₂.run m (.request r :: waits'.map .request)
    ∀ i < 512, (d₃.cycle m ram').2 (((r 4).toNat + i) % 0x10000) =
      ram (((w 4).toNat + i) % 0x10000)) ∧
  (∀ r : Registers, d.hw.Accepts r → allowed r →
    ∀ (waits : List Registers) (ram : ℕ → Word),
    let d₁ := d.run m (.request r :: waits.map .request)
    (∀ sector < 1440, (r 0 = 3 → (r 3).toNat ≠ sector) → ∀ i < 512,
      sectorWord m (d₁.cycle m ram).1.disk sector i = sectorWord m d.disk sector i) ∧
    (1440 ≤ (r 3).toNat →
      (d₁.cycle m ram).1.disk = d.disk ∧ (d₁.cycle m ram).2 = ram))

/-- **Requests that are addressable are carried out right**, in every run. -/
theorem transfersRight_of_addressable (m : Imodes) (disk : List UInt8)
    (before : List DiskEvent) : TransfersRight Addressable m disk before := by
  unfold TransfersRight
  intro d
  have hd : d.hw.Consistent :=
    Floppy.run_consistent m (M35fd.init_consistent true) before
  refine ⟨?_, ?_⟩
  · intro w hw hwrite hsector haddressable waits ram d₁ between hbetween d₂ r hr hread hsame
      haddressable' waits' ram' d₃ i hi
    obtain ⟨hd₁, hbusy, -, hwriting, hsector₁, hposition, -⟩ := Floppy.accepted m hd hw waits
    have hwriting : d₁.hw.writing = true := by
      rw [hwriting, decide_eq_true hwrite]
    have htransfers : d₁.Transfers := ⟨hd₁, hbusy, by rw [hsector₁]; exact hsector.le⟩
    -- the words are on the disk, which reaches to the end of the sector
    have hwritten := htransfers.cycle_writing m ram hwriting
    have hword : sectorWord m (d₁.cycle m ram).1.disk (w 3).toNat i = ram ((w 4).toNat + i) := by
      rw [hwritten]
      dsimp only
      rw [M35fd.sectorWord_writeSector m _ _ _ _ hi, hsector₁, if_pos rfl, hposition]
    have hlength : ((w 3).toNat + 1) * 1024 ≤ (d₁.cycle m ram).1.disk.length := by
      rw [hwritten]
      dsimp only
      rw [M35fd.length_writeSector, hsector₁]
      exact le_max_right _ _
    have hafter : (d₁.cycle m ram).1.hw.Consistent := by
      have hstep := hd₁.step .tick
      rwa [← DiskEvent.drive, ← Floppy.hw_step m d₁ (.tick ram)] at hstep
    have hleaves : (d₁.cycle m ram).1.Leaves (w 3) := by
      rw [hwritten]
      exact nofun
    obtain ⟨hkeeps, hgrows⟩ := Floppy.sectorWord_run hafter hleaves hbetween hi
    -- they are read
    have hd₂ : d₂.hw.Consistent := Floppy.run_consistent m hafter between
    obtain ⟨hd₃, hbusy₃, hreading, -, hsector₃, hposition₃, hdisk₃⟩ :=
      Floppy.accepted m hd₂ hr waits'
    have hreading : d₃.hw.reading = true := by
      rw [hreading, decide_eq_true hread]
    have htransfers₃ : d₃.Transfers := ⟨hd₃, hbusy₃, by rw [hsector₃, hsame]; exact hsector.le⟩
    have hreaches : (d₃.hw.sector.toNat + 1) * 1024 ≤ d₃.disk.length := by
      rw [hsector₃, hsame, hdisk₃]
      exact hlength.trans hgrows
    have hposition := haddressable.position
    have hposition' := haddressable'.position
    rw [htransfers₃.cycle_reading hreading, Nat.mod_eq_of_lt (by omega),
      Nat.mod_eq_of_lt (by omega)]
    dsimp only
    rw [M35fd.readSector_eq hreaches, hsector₃, hposition₃]
    dsimp only
    rw [if_pos (by omega), hsame, hdisk₃, Nat.add_sub_cancel_left, hkeeps, hword]
  · intro r hr haddressable waits ram d₁
    obtain ⟨hd₁, -, -, hwriting, hsector, -, hdisk⟩ := Floppy.accepted m hd hr waits
    refine ⟨fun sector _ hother i hi => ?_, fun houtside => ?_⟩
    · have hkeeps := Floppy.sectorWord_cycle m ram hd₁ (d := d₁)
        (fun hw => by
          rw [hsector]
          rw [hwriting] at hw
          exact hother (of_decide_eq_true hw)) hi
      rw [hkeeps.1, hdisk]
    · have hne : (r 3).toNat ≠ 1440 := fun heq =>
        haddressable.sector (BitVec.eq_of_toNat_eq heq)
      have hnothing := Floppy.cycle_nothing m ram hd₁ fun _ => by
        rw [hsector]
        omega
      rw [← hdisk]
      exact hnothing

/-- A `WRITE` to sector 1440 extends the image. -/
theorem not_forall_transfersRight :
    ¬ ∀ (m : Imodes) (disk : List UInt8) (before : List DiskEvent),
      TransfersRight (fun _ => True) m disk before := by
  intro h
  let m : Imodes := ⟨.little, .big⟩
  let w : Registers := ![3, 0, 0, 1440, 0, 0, 0, 0]
  have hinit : (Floppy.init []).hw.Consistent := M35fd.init_consistent true
  have haccepts : (Floppy.init []).hw.Accepts w := ⟨.inr rfl, by decide⟩
  obtain ⟨hd, hbusy, -, hwriting, hsector, -⟩ := Floppy.accepted m hinit haccepts []
  rw [List.map_nil] at hd hbusy hwriting hsector
  have htransfers : ((Floppy.init []).run m [.request w]).Transfers :=
    ⟨hd, hbusy, (congrArg BitVec.toNat hsector).le⟩
  have hdisk : (((Floppy.init []).run m [.request w]).cycle m fun _ => 0).1.disk = [] :=
    (((h m [] []).2 w haccepts trivial [] fun _ => 0).2 (Nat.le_refl 1440)).1
  have hlength := congrArg List.length hdisk
  rw [htransfers.cycle_writing _ _ hwriting] at hlength
  dsimp only at hlength
  rw [M35fd.length_writeSector, hsector] at hlength
  rw [List.length_nil] at hlength
  have hpos : 0 < ((w 3).toNat + 1) * 1024 := Nat.mul_pos (Nat.succ_pos _) (by decide)
  omega

end DcpuToolchain
