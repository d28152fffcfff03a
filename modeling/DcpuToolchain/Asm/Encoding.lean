import DcpuToolchain.Asm.Source
import DcpuToolchain.Vm.Listing

/-!
# From a line to the disassembler

An instruction line that the assembler accepts should come back from the disassembler: the name
of the opcode, the operands, the values of their expressions, and as many words as have been
emitted. It does exactly if the line does not give an instruction that takes one operand a second
one with a word of its own (`DcpuToolchain.showsLine_iff`): that word is emitted too, in front of
the word of the first.

Other lines with a number of operands that the opcode does not take are accepted as well, and
come back as what they were taken for: with the register `A` for an operand that is missing, and
without those that are too many.
-/

namespace DcpuToolchain

/-- The words of an instruction line, with values for its expressions. -/
def lineWords (value : Expr → Word) (i : Instr Expr) (parameters : List AstNodeParameter) :
    List Word := i.word :: (emittedNexts parameters).map value

/-- The disassembler shows an instruction with a name and a number of words. -/
structure ShowsLine (instruction : String) (i : Instr Word) (count : ℕ) (d : DisInst) : Prop where
  mnemonic : d.prettyOp = some instruction
  shown : d.shown = some i
  size : d.size.toNat = count

section Encoding

variable {instruction : String} {parameters : List AstNodeParameter} {i : Instr Expr}

/-- A written instruction has the opcode of its name. -/
theorem opNamed_of_writtenInstr (h : writtenInstr instruction parameters = some i) :
    opNamed instruction = some i.op := by
  unfold writtenInstr at h
  split at h <;> cases h <;> assumption

/-- **The words behind an instruction word are those of the instruction**, but for a surplus. -/
theorem length_emittedNexts (h : writtenInstr instruction parameters = some i) :
    (¬ HasSurplus instruction parameters ∧ emittedNexts parameters = i.nexts) ∨
      (HasSurplus instruction parameters ∧ i.nexts.length < (emittedNexts parameters).length) := by
  unfold writtenInstr at h
  split at h
  · rename_i op b a hop hb ha
    cases h
    refine .inl ⟨?_, by rw [emittedNexts, hb, ha]; rfl⟩
    rintro ⟨op', -, -, hop', -⟩
    rw [hop] at hop'
    cases hop'
  · rename_i op a b hop ha hb
    cases h
    cases hnext : b.next with
    | none =>
      refine .inl ⟨?_, ?_⟩
      · rintro ⟨op', b', w, -, hb', hw⟩
        rw [hb] at hb'
        cases hb'
        rw [hnext] at hw
        cases hw
      · rw [emittedNexts, ha, hb, Option.bind_some, hnext]
        rfl
    | some w =>
      refine .inr ⟨⟨op, b, w, hop, hb, hnext⟩, ?_⟩
      rw [emittedNexts, ha, hb, Option.bind_some, hnext, List.length_append]
      exact Nat.lt_add_of_pos_left Nat.one_pos
  · cases h

/-- **A line comes back from the disassembler** as the instruction that it writes, exactly if it
has no surplus. -/
theorem showsLine_iff {relativePcIsError : Bool} {entries : List AoutByte}
    (haccepted : processInstruction relativePcIsError instruction parameters = .ok entries) :
    ∃ i, writtenInstr instruction parameters = some i ∧
      entries = i.entry :: (emittedNexts parameters).map aoutCreateExpr ∧
      ∀ (value : Expr → Word) (vm : Vm) (pos : Word),
        CodeAt vm.ram pos (lineWords value i parameters) →
        pos.toNat + entries.length ≤ 0x10000 →
          (ShowsLine instruction (i.map value) entries.length (vmDisassemble vm pos).1 ↔
            ¬ HasSurplus instruction parameters) := by
  have hprocessed := processInstruction_eq relativePcIsError instruction parameters
  cases hwritten : writtenInstr instruction parameters with
  | none =>
    rw [hwritten] at hprocessed
    obtain ⟨err, herr⟩ := hprocessed
    rw [haccepted] at herr
    cases herr
  | some i =>
    rw [hwritten] at hprocessed
    dsimp only at hprocessed
    rw [haccepted] at hprocessed
    split at hprocessed
    · cases hprocessed
    cases hprocessed
    refine ⟨i, rfl, rfl, fun value vm pos hcode hfits => ?_⟩
    have hcount : (i.entry :: (emittedNexts parameters).map aoutCreateExpr).length =
        1 + (emittedNexts parameters).length := by
      rw [List.length_cons, List.length_map, Nat.add_comm]
    rw [hcount] at hfits ⊢
    rcases length_emittedNexts hwritten with ⟨hno, hnexts⟩ | ⟨hsurplus, hlength⟩
    · have hlies : (i.map value).LiesAt vm.ram pos := by
        rw [lineWords, hnexts] at hcode
        rw [hnexts] at hfits
        refine ⟨?_, by rw [Instr.size_map, Instr.size]; exact hfits⟩
        rw [Instr.encode, Instr.word_map, Instr.nexts_map]
        exact hcode
      obtain ⟨hshown, hsize⟩ := vmDisassemble_shown hlies
      refine ⟨fun _ => hno, fun _ => ⟨?_, hshown, ?_⟩⟩
      · refine vmDisassemble_prettyOp hlies ?_
        rw [Instr.op_map]
        exact opNamed_of_writtenInstr hwritten
      · rw [hsize, Instr.size_map, Instr.size, hnexts]
    · refine ⟨fun hshows => ?_, fun hno => absurd hsurplus hno⟩
      -- the size is that of the instruction word alone
      have hsize := hshows.size
      have hword : i.word = (i.map value).word := (Instr.word_map value i).symm
      rw [vmDisassemble_size, hcode.head, hword, resolvedWords_word, Instr.nexts_map,
        List.length_map] at hsize
      omega

/-- `SET [0x10+A], x1`, where all values are 7. -/
theorem showsLine_iff_set :
    ShowsLine "SET" (.basic .set (.nxtVal 0 7) (.nxtLit 7)) 3
      (vmDisassemble { ram := fun a => [instructionCreate 0x01 0x10 0x1F, 7, 7].getD a.toNat 0 }
        0).1 := by
  have hwritten : writtenInstr "SET"
      [.address (.number 0x10) true (some "A"), .address (.label "x1") false none] =
        some (.basic .set (.nxtVal 0 (.number 0x10)) (.nxtLit (.label "x1"))) := by
    decide +kernel
  have haccepted := processInstruction_eq false "SET"
    [.address (.number 0x10) true (some "A"), .address (.label "x1") false none]
  rw [hwritten] at haccepted
  obtain ⟨i, hi, hentries, hshows⟩ := showsLine_iff haccepted
  rw [hwritten] at hi
  cases hi
  have hnexts : emittedNexts
      [.address (.number 0x10) true (some "A"), .address (.label "x1") false none] =
        [.label "x1", .number 0x10] := by
    decide +kernel
  rw [hnexts] at hshows
  refine (hshows (fun _ => 7) _ 0 ?_ (by decide)).mpr ?_
  · rw [lineWords, hnexts]
    exact codeAt_getD (by decide)
  · rintro ⟨op, a, w, hop, -, -⟩
    rw [opNamed_of_writtenInstr hwritten] at hop
    cases hop

end Encoding

end DcpuToolchain
