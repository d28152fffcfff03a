import DcpuToolchain.Asm.Assem

/-!
# What a line of assembly says

The front end puts what an instruction line says in numbers, labels and expressions, which it
sorts into an entry for the instruction word and entries for the words behind it. Here a line is
read as the instruction that it writes (`DcpuToolchain.writtenInstr`), by what the forms of
its operands stand for, and the two are compared.

The front end does not count operands. Where there are too few, the others are the register
`A`, and those that are too many are left out; but the second operand of an instruction that
takes one still gets its word, in front of that of the first. So the words of a line are those of
its instruction exactly if it does not have such a second operand
(`DcpuToolchain.processInstruction_eq`).
-/

namespace DcpuToolchain

/-! ### Operands -/

/-- What a parameter says. -/
def AstNodeParameter.arg : AstNodeParameter → Option (Arg Expr)
  | .address value true (some addcmpt) =>
    if addcmpt.toLower ∈ registerNames then offsetArg addcmpt.toLower value
    else some (.nxtLit (.expr (.label addcmpt) .add value))
  | .address value true none => some (.nxt value)
  | .address value false _ => some (.nxtLit value)
  | .registr value true =>
    if value.toLower ∈ registerNames then bracketedArg value.toLower else some (.nxt (.label value))
  | .registr value false =>
    if value.toLower ∈ registerNames then plainArg value.toLower else some (.nxtLit (.label value))
  | .raw _ => none

/-- The result for a parameter is that for an operand. -/
structure ProcessParameterResults.Shows (r : ProcessParameterResults) (a : Arg Expr) : Prop where
  forced : r.forced = BitVec.ofNat 16 a.code
  emitted : r.emitted = (a.next.map aoutCreateExpr).toList

/-- A result is that for what a parameter says, or there is an error and it says nothing. -/
def Says (arg : Option (Arg Expr)) (result : Except AssemError ProcessParameterResults) : Prop :=
  match arg with
  | some a => ∃ r, result = .ok r ∧ r.Shows a
  | none => ∃ err, result = .error err

section Operand

variable {name : String} {value : Expr}

/-- Numbers of operands have five bits. -/
theorem ofNat_code_ne (a : Arg Expr) {w : Word} (h : 0x20 ≤ w.toNat) :
    BitVec.ofNat 16 a.code ≠ w := by
  rintro rfl
  have hlt := a.code_lt
  rw [BitVec.toNat_ofNat, Nat.mod_eq_of_lt (by omega)] at h
  omega

theorem next_plainArg {a : Arg Expr} (h : plainArg name = some a) : a.next = none := by
  unfold plainArg at h
  split at h
  · cases h
    rfl
  · split at h <;> cases h <;> rfl

theorem next_bracketedArg {a : Arg Expr} (h : bracketedArg name = some a) : a.next = none := by
  unfold bracketedArg at h
  split at h
  · cases h
    rfl
  · split at h
    · cases h
      rfl
    · cases h

theorem next_offsetArg {a : Arg Expr} (h : offsetArg name value = some a) :
    a.next = some value := by
  unfold offsetArg at h
  split at h
  · cases h
    rfl
  · split at h
    · cases h
      rfl
    · cases h

/-- Every name of a register stands for something. -/
theorem exists_plainArg (h : name ∈ registerNames) : ∃ a : Arg Expr, plainArg name = some a := by
  have hall : ∀ name ∈ registerNames, (plainArg name : Option (Arg Expr)).isSome = true := by
    decide
  exact Option.isSome_iff_exists.mp (hall name h)

/-- A register without a next word. -/
theorem shows_register {a : Arg Expr} {v : Word} (hv : v = BitVec.ofNat 16 a.code)
    (hnext : a.next = none) : ProcessParameterResults.Shows { v := v } a := by
  refine ⟨?_, ?_⟩
  · exact hv
  · rw [hnext]
    rfl

/-- A value that takes the next word. -/
theorem shows_extra {a : Arg Expr} {v : Word} (hv : v = BitVec.ofNat 16 a.code)
    (hnext : a.next = some value) :
    ProcessParameterResults.Shows { v := v, vExtra := some value } a := by
  refine ⟨?_, ?_⟩
  · exact hv
  · rw [hnext]
    rfl

theorem processAddress_arg (bracketed : Bool) (addcmpt : Option String) :
    Says (AstNodeParameter.address value bracketed addcmpt).arg
      (processAddress value bracketed addcmpt) := by
  cases bracketed with
  | false => exact ⟨_, rfl, shows_extra rfl rfl⟩
  | true =>
    cases addcmpt with
    | none => exact ⟨_, rfl, shows_extra rfl rfl⟩
    | some addcmpt =>
      rw [AstNodeParameter.arg, processAddress]
      by_cases h : addcmpt.toLower ∈ registerNames
      -- the name is that of a register, which can have an offset or cannot
      · rw [if_pos h]
        have hfound := getRegisterByNameNext_value h value
        obtain ⟨registr, hregistr, hvalue⟩ := Option.map_eq_some_iff.mp hfound
        rw [hregistr]
        dsimp only
        cases harg : offsetArg addcmpt.toLower value with
        | none =>
          rw [harg] at hvalue
          exact ⟨_, if_pos hvalue⟩
        | some a =>
          rw [harg] at hvalue
          rw [hvalue]
          exact ⟨_, if_neg (ofNat_code_ne a (by decide)), shows_extra rfl (next_offsetArg harg)⟩
      -- the name is taken for a label, which is added
      · rw [if_neg h, getRegisterByNameNext_of_not h]
        exact ⟨_, rfl, shows_extra rfl rfl⟩

theorem processRegister_arg (bracketed : Bool) :
    Says (AstNodeParameter.registr name bracketed).arg (processRegister name bracketed) := by
  unfold processRegister
  by_cases h : name.toLower ∈ registerNames
  · cases bracketed with
    | false =>
      obtain ⟨a, ha⟩ := exists_plainArg h
      have hfound := getRegisterByName_false (α := Expr) h
      rw [ha] at hfound
      obtain ⟨registr, hregistr, hvalue⟩ := Option.map_eq_some_iff.mp hfound
      rw [AstNodeParameter.arg, if_pos h, ha, hregistr]
      dsimp only
      rw [hvalue]
      exact ⟨_, if_neg (ofNat_code_ne a (by decide)), shows_register rfl (next_plainArg ha)⟩
    | true =>
      have hfound := getRegisterByName_true (α := Expr) h
      obtain ⟨registr, hregistr, hvalue⟩ := Option.map_eq_some_iff.mp hfound
      rw [AstNodeParameter.arg, if_pos h, hregistr]
      dsimp only
      cases harg : (bracketedArg name.toLower : Option (Arg Expr)) with
      | none =>
        rw [harg] at hvalue
        exact ⟨_, if_pos hvalue⟩
      | some a =>
        rw [harg] at hvalue
        rw [hvalue]
        exact ⟨_, if_neg (ofNat_code_ne a (by decide)), shows_register rfl (next_bracketedArg harg)⟩
  · rw [getRegisterByName_of_not h]
    cases bracketed with
    | false =>
      rw [AstNodeParameter.arg, if_neg h]
      exact ⟨_, rfl, rfl, rfl⟩
    | true =>
      rw [AstNodeParameter.arg, if_neg h]
      exact ⟨_, rfl, rfl, rfl⟩

/-- **An operand is processed as it says.** -/
theorem processOperand_arg (param : AstNodeParameter) : Says param.arg (processOperand param) := by
  have hplain : ∀ {result}, Says param.arg result → processParameter param = result →
      (∀ r, result = .ok r → r.vRaw = none) → Says param.arg (processOperand param) := by
    intro result hsays hresult hraw
    unfold processOperand
    rw [hresult]
    cases result with
    | error err => exact hsays
    | ok r =>
      dsimp only
      rw [hraw r rfl]
      exact hsays
  cases param with
  | address value bracketed addcmpt =>
    refine hplain (processAddress_arg bracketed addcmpt) rfl fun r hr => ?_
    unfold processAddress at hr
    split at hr
    · split at hr
      · cases hr
        rfl
      · split at hr <;> cases hr
        rfl
    all_goals
      cases hr
      rfl
  | registr value bracketed =>
    refine hplain (processRegister_arg bracketed) rfl fun r hr => ?_
    unfold processRegister at hr
    split at hr
    · cases hr
      rfl
    · split at hr <;> cases hr
      rfl
  | raw data => exact ⟨_, rfl⟩

end Operand

/-! ### Instructions -/

/-- The operand that is written in a place, or the register `A` if there is none. -/
def argAt (parameters : List AstNodeParameter) (place : ℕ) : Option (Arg Expr) :=
  match parameters[place]? with
  | none => some (.reg 0)
  | some param => param.arg

/-- The instruction that a line writes. -/
def writtenInstr (instruction : String) (parameters : List AstNodeParameter) :
    Option (Instr Expr) :=
  match opNamed instruction, argAt parameters 0, argAt parameters 1 with
  | some (.inl op), some b, some a => some (.basic op b a)
  | some (.inr op), some a, some _ => some (.nonbasic op a)
  | _, _, _ => none

/-- The words behind the instruction word, as they are emitted. -/
def emittedNexts (parameters : List AstNodeParameter) : List Expr :=
  ((argAt parameters 1).bind Arg.next).toList ++ ((argAt parameters 0).bind Arg.next).toList

/-- A second operand, of an instruction that takes one, has a word of its own. -/
def HasSurplus (instruction : String) (parameters : List AstNodeParameter) : Prop :=
  ∃ op a w, opNamed instruction = some (.inr op) ∧ argAt parameters 1 = some a ∧ a.next = some w

namespace Instr

/-- The entry for the instruction word. -/
def entry : Instr Expr → AoutByte
  | two op b a =>
    { opcode := BitVec.ofNat 16 op.code, a := BitVec.ofNat 16 b.code, b := BitVec.ofNat 16 a.code }
  | one op a => { a := BitVec.ofNat 16 op.code, b := BitVec.ofNat 16 a.code }

/-- The entries of an instruction. -/
def entries (i : Instr Expr) : List AoutByte := i.entry :: i.nexts.map aoutCreateExpr

/-- `ADD`, `SUB`, `MUL` and `DIV` to `PC`. -/
def relativePc : Instr Expr → Bool
  | two op b _ => (op = .add || op = .sub || op = .mul || op = .div) && b = .pc
  | one _ _ => false

end Instr

section Instruction

variable {instruction : String} {parameters : List AstNodeParameter} {i : Instr Expr}

/-- What is processed where there is no parameter. -/
theorem shows_missing : ProcessParameterResults.Shows {} (.reg 0) := ⟨rfl, rfl⟩

/-- **Parameters are processed as they say**: the first two, if both say something. -/
theorem processParameters_arg (parameters : List AstNodeParameter) :
    match argAt parameters 0, argAt parameters 1 with
    | some b, some a => ∃ r, processParameters parameters = .ok r ∧ r.1.Shows b ∧ r.2.Shows a
    | _, _ => ∃ err, processParameters parameters = .error err := by
  match parameters with
  | [] => exact ⟨_, rfl, shows_missing, shows_missing⟩
  | [p] =>
    have hp := processOperand_arg p
    rw [show argAt [p] 0 = p.arg from rfl, show argAt [p] 1 = some (.reg 0) from rfl,
      processParameters]
    cases harg : p.arg with
    | none =>
      rw [harg] at hp
      obtain ⟨err, herr⟩ := hp
      exact ⟨err, by rw [herr]; rfl⟩
    | some b =>
      rw [harg] at hp
      obtain ⟨r, hr, hshows⟩ := hp
      exact ⟨(r, {}), by rw [hr]; rfl, hshows, shows_missing⟩
  | p :: q :: rest =>
    have hp := processOperand_arg p
    have hq := processOperand_arg q
    rw [show argAt (p :: q :: rest) 0 = p.arg from rfl,
      show argAt (p :: q :: rest) 1 = q.arg from rfl, processParameters]
    cases hb : p.arg with
    | none =>
      rw [hb] at hp
      obtain ⟨err, herr⟩ := hp
      exact ⟨err, by rw [herr]⟩
    | some b =>
      rw [hb] at hp
      obtain ⟨r, hr, hshows⟩ := hp
      rw [hr]
      cases ha : q.arg with
      | none =>
        rw [ha] at hq
        obtain ⟨err, herr⟩ := hq
        exact ⟨err, by rw [herr]; rfl⟩
      | some a =>
        rw [ha] at hq
        obtain ⟨t, ht, hshows'⟩ := hq
        exact ⟨(r, t), by rw [ht]; rfl, hshows, hshows'⟩

/-- No opcode is output as null. -/
theorem aoutCreateOpcode_basic (op : BasicOp) (a b : Word) :
    aoutCreateOpcode (BitVec.ofNat 16 op.code) a b =
      .ok { opcode := BitVec.ofNat 16 op.code, a := a, b := b } :=
  if_neg fun h => ofNat_basicOp_code_ne op h.1

theorem aoutCreateOpcode_nonbasic (op : NonbasicOp) (b : Word) :
    aoutCreateOpcode 0 (BitVec.ofNat 16 op.code) b =
      .ok { a := BitVec.ofNat 16 op.code, b := b } :=
  if_neg fun h => ofNat_nonbasicOp_code_ne op h.2

/-- Only `PC` has the number of `PC`. -/
theorem ofNat_code_eq_pc (a : Arg Expr) : BitVec.ofNat 16 a.code = 0x1C ↔ a = .pc := by
  constructor
  · intro h
    have hcode : a.code = 0x1C := by
      have hlt := a.code_lt
      have := congrArg BitVec.toNat h
      rwa [BitVec.toNat_ofNat, Nat.mod_eq_of_lt (by omega)] at this
    cases a <;> simp only [Arg.code] at hcode <;> first | rfl | omega
  · rintro rfl
    rfl

theorem relativePc_basic (op : BasicOp) (b a : Arg Expr) :
    relativePc (BitVec.ofNat 16 op.code) (BitVec.ofNat 16 b.code) =
      (Instr.basic op b a).relativePc := by
  unfold relativePc Instr.relativePc
  rw [decide_eq_decide.mpr (ofNat_code_eq_pc b)]
  cases op <;> rfl

theorem relativePc_zero (w : Word) : relativePc 0 w = false := rfl

/-- **What is emitted for an instruction line**, or that nothing is. -/
theorem processInstruction_eq (relativePcIsError : Bool) (instruction : String)
    (parameters : List AstNodeParameter) :
    match writtenInstr instruction parameters with
    | none => ∃ err, processInstruction relativePcIsError instruction parameters = .error err
    | some i =>
      processInstruction relativePcIsError instruction parameters =
        if i.relativePc ∧ relativePcIsError = true then .error .relativePcAddressing
        else .ok (i.entry :: (emittedNexts parameters).map aoutCreateExpr) := by
  have hparameters := processParameters_arg parameters
  have hmap : ∀ w : Option Expr, (w.map aoutCreateExpr).toList = w.toList.map aoutCreateExpr :=
    fun w => by cases w <;> rfl
  unfold processInstruction writtenInstr emittedNexts
  rcases opNamed_cases instruction with ⟨hfound, hop⟩ | ⟨op, hfound, hop⟩ | ⟨op, hfound, hop⟩ <;>
    rw [hfound, hop]
  · exact ⟨_, rfl⟩
  · cases hb : argAt parameters 0 with
    | none =>
      rw [hb] at hparameters
      obtain ⟨err, herr⟩ := hparameters
      exact ⟨err, by rw [herr]⟩
    | some b =>
      cases ha : argAt parameters 1 with
      | none =>
        rw [hb, ha] at hparameters
        obtain ⟨err, herr⟩ := hparameters
        exact ⟨err, by rw [herr]⟩
      | some a =>
        rw [hb, ha] at hparameters
        obtain ⟨⟨r, t⟩, hok, hr, ht⟩ := hparameters
        rw [hok]
        dsimp only [opcodeMapping] at hr ht ⊢
        rw [hr.forced, ht.forced, hr.emitted, ht.emitted, relativePc_basic op b a,
          if_pos (ofNat_basicOp_code_ne op), aoutCreateOpcode_basic, hmap, hmap]
        split
        · rfl
        · rw [Option.bind_some, Option.bind_some, List.map_append]
          rfl
  · cases ha : argAt parameters 0 with
    | none =>
      rw [ha] at hparameters
      obtain ⟨err, herr⟩ := hparameters
      exact ⟨err, by rw [herr]⟩
    | some a =>
      cases hb : argAt parameters 1 with
      | none =>
        rw [ha, hb] at hparameters
        obtain ⟨err, herr⟩ := hparameters
        exact ⟨err, by rw [herr]⟩
      | some b =>
        rw [ha, hb] at hparameters
        obtain ⟨⟨r, t⟩, hok, hr, ht⟩ := hparameters
        rw [hok]
        dsimp only [nbopcodeMapping] at hr ht ⊢
        rw [hr.forced, hr.emitted, ht.emitted, relativePc_zero,
          aoutCreateOpcode_nonbasic, hmap, hmap]
        simp only [Instr.relativePc, Bool.false_eq_true, false_and, if_false, ne_eq,
          not_true_eq_false]
        rw [Option.bind_some, Option.bind_some, List.map_append]
        rfl

end Instruction

end DcpuToolchain
