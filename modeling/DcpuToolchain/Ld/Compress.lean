import DcpuToolchain.Ld.Bins
import DcpuToolchain.Ld.Frame

/-!
# Short literals

`bins_compress` walks over the words of every bin, takes each word it comes to for an
instruction, and where the `a` operand of that instruction is a next word with the value of a
short literal it writes the short form and removes the next word. How far it steps it computes
itself (`DcpuToolchain.compressSize`), with three of the operand codes that take a word.

What the loop does at one position is `DcpuToolchain.compressAt`; an invariant of the loop is
proved by `DcpuToolchain.compressLoop_run` from what the two kinds of steps keep.
-/

namespace DcpuToolchain

open Marks

/-! ### The code -/

/-- The operand codes for which `bins_compress` counts a word: `NXT_LIT`, `NXT` and `PICK`. -/
def countsWord (code : ℕ) : Bool := code = 0x1F || code = 0x1E || code = 0x1A

/-- The size `bins_compress` takes an instruction to have. -/
def compressSize (inst : Word) : ℕ :=
  1 + (countsWord (instructionGetA inst)).toNat + (countsWord (instructionGetB inst)).toNat

theorem compressSize_pos (inst : Word) : 0 < compressSize inst := by
  rw [compressSize]
  omega

/-- The code of the short literal of a value. -/
def shortLiteral (value : Word) : Option ℕ :=
  if value = 0xFFFF then some 0x20
  else if value.toNat ≤ 0x1E then some (value.toNat + 0x21)
  else none

/-- Whether the word at an address is required, optional or adjusted. -/
def LdBin.fixedAt (b : LdBin) (address : ℕ) : Bool :=
  [Table.required, .optional, .adjustment].any fun t => (b.tables t).any (·.address = address)

/-- A bin with another word at an address. -/
def LdBin.setWord (b : LdBin) (address : ℕ) (word : Word) : LdBin where
  name := b.name
  words := b.words.set address word
  tables := b.tables
  symbols := b.symbols

/-- The new instruction, if the next word of the one at a position is to go. The test that there
is a next word looks at the position of the instruction itself. -/
def compressAt (b : LdBin) (i : ℕ) (inst : Word) : Except LdError (Option Word) :=
  if instructionGetA inst = 0x1F then
    match b.words[i + 1]? with
    | none => .error .nullPointer
    | some value =>
      if b.fixedAt (i + 1) then .ok none
      else .ok ((shortLiteral value).map
        (instructionCreate (instructionGetOp inst) (instructionGetB inst)))
  else .ok none

/-- The inner loop of `bins_compress`, from a position with the number of words saved. -/
def compressLoop (ls : ListSort) (all : List BinPtr) (bin : BinPtr) :
    (fuel i saved : ℕ) → Heap → Except LdError (Heap × ℕ)
  | 0, _, saved, heap => .ok (heap, saved)
  | fuel + 1, i, saved, heap =>
    match (heap bin).words[i]? with
    | none => .ok (heap, saved)
    | some inst => do
      match ← compressAt (heap bin) i inst with
      | none => compressLoop ls all bin fuel (i + compressSize inst) saved heap
      | some short => do
        let heap := Function.update heap bin ((heap bin).setWord i short)
        let heap ← binRemove ls all bin (i + 1) 1 heap
        compressLoop ls all bin fuel (i + (compressSize inst - 1)) (u16 (saved + 1)) heap

/-- The outer loop of `bins_compress`. -/
def compressBins (ls : ListSort) (all : List BinPtr) :
    List BinPtr → (saved : ℕ) → Heap → Except LdError (Heap × ℕ)
  | [], saved, heap => .ok (heap, saved)
  | bin :: rest, saved, heap => do
    let (heap, saved) ← compressLoop ls all bin (heap bin).words.length 0 saved heap
    compressBins ls all rest saved heap

/-- `bins_compress`; it returns the number of words saved. -/
def binsCompress (ls : ListSort) (s : LdBins) : Except LdError (LdBins × ℕ) := do
  let (heap, saved) ← compressBins ls s.bins s.bins 0 s.heap
  .ok (⟨heap, s.bins, s.next⟩, saved)

/-! ### Invariants of the loop -/

section Loop

variable {ls : ListSort} {all : List BinPtr} {bin : BinPtr} {heap : Heap} {fuel i saved : ℕ}
  {r : Heap × ℕ}

/-- The loop is over at the end of the bin. -/
theorem compressLoop_end (h : (heap bin).words.length ≤ i) :
    compressLoop ls all bin fuel i saved heap = .ok (heap, saved) := by
  cases fuel with
  | zero => rfl
  | succ fuel => rw [compressLoop, List.getElem?_eq_none h]

/-- **An invariant of the loop**: what the steps over an instruction and the removals of next
words keep holds at the end. -/
theorem compressLoop_run {P : ℕ → Heap → Prop}
    (pass : ∀ i heap inst, P i heap → (heap bin).words[i]? = some inst →
      compressAt (heap bin) i inst = .ok none → P (i + compressSize inst) heap)
    (shorten : ∀ i heap inst short heap', P i heap → (heap bin).words[i]? = some inst →
      compressAt (heap bin) i inst = .ok (some short) →
      binRemove ls all bin (i + 1) 1 (Function.update heap bin ((heap bin).setWord i short)) =
        .ok heap' → P (i + (compressSize inst - 1)) heap')
    (h : compressLoop ls all bin fuel i saved heap = .ok r) (hP : P i heap) : ∃ j, P j r.1 := by
  induction fuel generalizing i saved heap with
  | zero =>
    cases h
    exact ⟨i, hP⟩
  | succ fuel ih =>
    rw [compressLoop] at h
    split at h
    · cases h
      exact ⟨i, hP⟩
    · rename_i inst hinst
      obtain ⟨_ | short, hat, h⟩ := exists_of_bind_eq_ok h
      · exact ih h (pass i heap inst hP hinst hat)
      · obtain ⟨heap', hremove, h⟩ := exists_of_bind_eq_ok h
        exact ih h (shorten i heap inst short heap' hP hinst hat hremove)

end Loop

/-- Of one bin there is one loop. -/
theorem binsCompress_single {ls : ListSort} {s s' : LdBins} {bin : BinPtr} {saved : ℕ}
    (hbins : s.bins = [bin]) : binsCompress ls s = .ok (s', saved) ↔
      ∃ heap, compressLoop ls [bin] bin s.flat.words.length 0 0 s.heap = .ok (heap, saved) ∧
        s' = ⟨heap, [bin], s.next⟩ := by
  rw [binsCompress, hbins, compressBins, ← LdBins.flat_eq hbins]
  rcases compressLoop ls [bin] bin s.flat.words.length 0 0 s.heap with error | ⟨heap, saved'⟩
  · exact iff_of_false (fun h => by cases h) fun ⟨_, h, _⟩ => by cases h
  · constructor
    · intro h
      cases h
      exact ⟨heap, rfl, rfl⟩
    · rintro ⟨_, h, rfl⟩
      cases h
      rfl

end DcpuToolchain
