import DcpuToolchain.Vm.Chain

/-!
# What the arithmetic opcodes compute

The shifts, products and quotients of `dcpuops.c` work on words, but C computes them in `int`,
`uint32_t` or `uint64_t`, and the language gives some of these computations no meaning: a shift
by a count outside `0, …, 31`, a shift of a negative `int`, and a result that does not fit. Here
is what an opcode leaves (`DcpuToolchain.Computes`), and what it computes on the way.

The shifts are right just where `DcpuToolchain.shifts_right_iff` says. Products, quotients and
remainders are right except for the product of two large unsigned words, which overflows an
`int`, and for the excess of a signed quotient, whose operands are converted to `uint64_t`
(`DcpuToolchain.arithmetic_right_iff`).
-/

namespace DcpuToolchain

/-! ### What an opcode leaves -/

/-- Wherever its operands yield `valB` and `valA`, and `b` is a word, the opcode returns and leaves
`word` there and `ex` in `EX`, or `EX` as it was. -/
def Computes (op : Host → Vm → Operand → Operand → Option Vm) (valB valA word : Word)
    (ex : Option Word) : Prop :=
  ∀ (host : Host) (vm : Vm) (b a : Operand), QuietWrites host → vm.skip = false →
    (opStoreB vm b a).isWord → vm.load (opStoreB vm b a) = valB → opValA vm a = valA →
    ∃ vm', op host vm b a = some vm' ∧ vm'.load (opStoreB vm b a) = word ∧
      vm'.ex = ex.getD vm.ex

theorem computes_of_alu {alu : Alu} {valB valA word : Word} {ex : Option Word}
    (h : ∀ host e, alu host valB valA e = (word, ex)) (cycles : Word) :
    Computes (storeOp cycles alu) valB valA word ex := by
  intro host vm b a hquiet hskip hb hvalB hvalA
  obtain ⟨vm', hop, hwrites⟩ := storeOp_writesWord hquiet hskip hb
    ((congrArg₂ (fun x y => alu host x y vm.ex) hvalB hvalA).trans (h host vm.ex)) cycles
  exact ⟨vm', hop, hwrites.word, hwrites.ex⟩

/-- A machine whose registers `A` and `B` hold two words. -/
def inRegisters (valB valA : Word) : Vm where
  registers := fun r => if r = 0 then valB else valA

/-- What the arithmetic of an opcode must be, if it computes something. -/
theorem Computes.alu_eq {alu : Alu} {cycles valB valA word : Word} {ex : Word}
    (h : Computes (storeOp cycles alu) valB valA word (some ex)) {z e : Word}
    (halu : alu {} valB valA 0 = (z, some e)) : z = word ∧ e = ex := by
  have hquiet : QuietWrites {} := fun pos vm => ⟨vm, rfl, rfl, rfl, rfl, rfl⟩
  obtain ⟨vm', hop, hword, hex⟩ :=
    h {} (inRegisters valB valA) (.reg 0) (.reg 1) hquiet rfl rfl rfl rfl
  obtain ⟨vm'', hop', hwrites⟩ :=
    @storeOp_writesWord {} hquiet (inRegisters valB valA) rfl (.reg 0) (.reg 1) rfl alu z (some e)
      halu cycles
  obtain rfl : vm' = vm'' := Option.some.inj (hop.symm.trans hop')
  exact ⟨hwrites.word.symm.trans hword, hwrites.ex.symm.trans hex⟩

/-! ### Words of larger numbers -/

/-- The low word. -/
theorem setWidth_eq_ofInt {w : ℕ} (hw : 16 ≤ w) (x : BitVec w) :
    x.setWidth 16 = BitVec.ofInt 16 x.toInt := by
  refine BitVec.eq_of_toInt_eq ?_
  rw [BitVec.toInt_setWidth, BitVec.toInt_ofInt, BitVec.toInt_eq_toNat_bmod,
    Int.bmod_bmod_of_dvd (Nat.pow_dvd_pow 2 hw)]

/-- A number that a shift leaves in an `int`. -/
theorem toInt_shiftLeft_of_fits {x : BitVec 32} {n : ℕ} (hx : 0 ≤ x.toInt)
    (h : x.toInt * 2 ^ n < 2 ^ 31) : (x <<< n).toInt = x.toInt * 2 ^ n := by
  have hlow : 0 ≤ x.toInt * 2 ^ n := Int.mul_nonneg hx (by positivity)
  have hnat : x.toInt = x.toNat := by
    rw [BitVec.toInt_eq_toNat_cond] at hx ⊢
    split at hx <;> omega
  rw [BitVec.toInt_shiftLeft, Nat.shiftLeft_eq, Nat.cast_mul, ← hnat, Nat.cast_pow, Nat.cast_ofNat]
  exact Int.bmod_eq_of_le (by omega) (by omega)

theorem shiftLeftInt_of_lt (host : Host) (x : BitVec 32) {n : ℕ} (hn : n < 32) :
    shiftLeftInt host x n = x <<< n := by
  rw [shiftLeftInt, if_pos (by omega), Int.toNat_natCast]

theorem toInt_shiftRightInt (host : Host) (x : BitVec 32) {n : ℕ} (hn : n < 32) :
    (shiftRightInt host x n).toInt = x.toInt / 2 ^ n := by
  rw [shiftRightInt, if_pos (by omega), Int.toNat_natCast, BitVec.toInt_sshiftRight,
    Int.shiftRight_eq_div_pow]
  push_cast
  rfl

/-! ### Shifts -/

/-- A shift of an `int`. -/
structure CShift where
  left : Bool
  value : BitVec 32
  amount : ℤ

/-- What the shift gives. -/
def CShift.run (host : Host) (s : CShift) : BitVec 32 :=
  if s.left then shiftLeftInt host s.value s.amount else shiftRightInt host s.value s.amount

/-- A shift by an amount that C knows, of an `int` that is not negative and that does not
overflow. -/
def CShift.Defined (s : CShift) : Prop :=
  0 ≤ s.amount ∧ s.amount < 32 ∧ 0 ≤ s.value.toInt ∧
    (s.left = true → s.value.toInt * 2 ^ s.amount.toNat < 2 ^ 31)

/-- What `vm_op_shr` and `vm_op_asr` shift, which differ in how they convert the operands: the
word, the word into the upper half, and that by the amount. -/
def shiftsRight (host : Host) (value : BitVec 32) (amount : ℤ) : List CShift :=
  [⟨false, value, amount⟩, ⟨true, value, 16⟩,
    ⟨false, CShift.run host ⟨true, value, 16⟩, amount⟩]

/-- The shifts of `vm_op_shr`. -/
def shiftsShr (host : Host) (b a : Word) : List CShift :=
  shiftsRight host (b.setWidth 32) a.toNat

/-- The shifts of `vm_op_asr`. -/
def shiftsAsr (host : Host) (b a : Word) : List CShift :=
  shiftsRight host (b.signExtend 32) a.toInt

/-- The shifts of `vm_op_shl`. -/
def shiftsShl (host : Host) (b a : Word) : List CShift :=
  [⟨true, b.setWidth 32, a.toNat⟩, ⟨true, b.setWidth 32, a.toNat⟩,
    ⟨false, CShift.run host ⟨true, b.setWidth 32, a.toNat⟩, 16⟩]

/-- The words that the first and the last shift to the right give. -/
def resultsRight (host : Host) (value : BitVec 32) (amount : ℤ) : Word × Option Word :=
  ((CShift.run host ⟨false, value, amount⟩).setWidth 16,
    some ((CShift.run host ⟨false, CShift.run host ⟨true, value, 16⟩, amount⟩).setWidth 16))

theorem aluShr_eq (host : Host) (b a ex : Word) :
    aluShr host b a ex = resultsRight host (b.setWidth 32) a.toNat := by
  simp [aluShr, resultsRight, CShift.run, shiftLeftInt]

theorem aluAsr_eq (host : Host) (b a ex : Word) :
    aluAsr host b a ex = resultsRight host (b.signExtend 32) a.toInt := by
  simp [aluAsr, resultsRight, CShift.run, shiftLeftInt]

theorem CShift.run_intoUpper (host : Host) (value : BitVec 32) :
    CShift.run host ⟨true, value, 16⟩ = value <<< 16 := by
  have hrun : CShift.run host ⟨true, value, 16⟩ = shiftLeftInt host value 16 := if_pos rfl
  have hshift := shiftLeftInt_of_lt host value (by decide : 16 < 32)
  rw [Nat.cast_ofNat] at hshift
  rw [hrun, hshift]

/-- When all shifts of a shift to the right are defined. -/
theorem shiftsRight_defined_iff (host : Host) (value : BitVec 32) (amount : ℤ) :
    (∀ s ∈ shiftsRight host value amount, s.Defined) ↔
      (0 ≤ amount ∧ amount < 32) ∧ 0 ≤ value.toInt ∧ value.toInt < 2 ^ 15 := by
  constructor
  · intro h
    obtain ⟨hlow, hhigh, hvalue, -⟩ := h _ List.mem_cons_self
    obtain ⟨-, -, -, hfits⟩ := h _ (List.mem_cons_of_mem _ List.mem_cons_self)
    have hfits : value.toInt * 2 ^ 16 < 2 ^ 31 := hfits rfl
    exact ⟨⟨hlow, hhigh⟩, hvalue, by omega⟩
  · rintro ⟨⟨hlow, hhigh⟩, hvalue, hfits⟩
    have hfits : value.toInt * 2 ^ 16 < 2 ^ 31 := by omega
    have hexcess := toInt_shiftLeft_of_fits hvalue hfits
    rw [shiftsRight, CShift.run_intoUpper]
    intro s hs
    simp only [List.mem_cons, List.not_mem_nil, or_false] at hs
    rcases hs with rfl | rfl | rfl
    · exact ⟨hlow, hhigh, hvalue, nofun⟩
    · exact ⟨Int.natCast_nonneg 16, Int.ofNat_lt.mpr (by decide : 16 < 32), hvalue, fun _ => hfits⟩
    · exact ⟨hlow, hhigh, by rw [hexcess]; omega, nofun⟩

/-- A shift to the right whose shifts are all defined divides. -/
theorem resultsRight_of_fits (host : Host) {value : BitVec 32} {n : ℕ} (hn : n < 32)
    (hvalue : 0 ≤ value.toInt) (hfits : value.toInt < 2 ^ 15) :
    resultsRight host value n = (BitVec.ofInt 16 (value.toInt / 2 ^ n),
      some (BitVec.ofInt 16 (value.toInt * 2 ^ 16 / 2 ^ n))) := by
  have hright : ∀ x : BitVec 32, (CShift.run host ⟨false, x, n⟩).toInt = x.toInt / 2 ^ n :=
    fun x => toInt_shiftRightInt host x hn
  rw [resultsRight, CShift.run_intoUpper, setWidth_eq_ofInt (by decide),
    setWidth_eq_ofInt (by decide), hright, hright, toInt_shiftLeft_of_fits hvalue (by omega)]

/-- What an opcode leaves is right, and all its shifts are defined. -/
def ShiftsRight (op : Host → Vm → Operand → Operand → Option Vm)
    (shifts : Host → Word → Word → List CShift) (b a word ex : Word) : Prop :=
  Computes op b a word (some ex) ∧ ∀ host, ∀ s ∈ shifts host b a, s.Defined

/-- `SHR` divides the unsigned word. -/
def ShrRight (b a : Word) : Prop :=
  ShiftsRight vmOpShr shiftsShr b a (BitVec.ofNat 16 (b.toNat / 2 ^ a.toNat))
    (BitVec.ofNat 16 (b.toNat * 2 ^ 16 / 2 ^ a.toNat))

/-- `ASR` divides the signed word, rounding down. -/
def AsrRight (b a : Word) : Prop :=
  ShiftsRight vmOpAsr shiftsAsr b a (BitVec.ofInt 16 (b.toInt / 2 ^ a.toNat))
    (BitVec.ofInt 16 (b.toInt * 2 ^ 16 / 2 ^ a.toNat))

/-- `SHL` multiplies, and what leaves the word is in `EX`. -/
def ShlRight (b a : Word) : Prop :=
  ShiftsRight vmOpShl shiftsShl b a (BitVec.ofNat 16 (b.toNat * 2 ^ a.toNat))
    (BitVec.ofNat 16 (b.toNat * 2 ^ a.toNat / 2 ^ 16))

theorem shrRight_iff (b a : Word) : ShrRight b a ↔ a.toNat < 32 ∧ b.toNat < 0x8000 := by
  have hvalue : (b.setWidth 32).toInt = b.toNat := by
    rw [BitVec.toInt_setWidth]
    exact Int.bmod_eq_of_le (by omega) (by have := b.isLt; omega)
  have hdefined : ∀ host,
      (∀ s ∈ shiftsShr host b a, s.Defined) ↔ a.toNat < 32 ∧ b.toNat < 0x8000 := by
    intro host
    rw [shiftsShr, shiftsRight_defined_iff, hvalue]
    omega
  refine ⟨fun h => (hdefined {}).mp (h.2 {}), fun h => ⟨?_, fun host => (hdefined host).mpr h⟩⟩
  refine computes_of_alu (fun host e => ?_) 1
  have hquotient : (b.toNat : ℤ) / 2 ^ a.toNat = ((b.toNat / 2 ^ a.toNat : ℕ) : ℤ) := by
    push_cast
    rfl
  have hexcess : (b.toNat : ℤ) * 2 ^ 16 / 2 ^ a.toNat =
      ((b.toNat * 2 ^ 16 / 2 ^ a.toNat : ℕ) : ℤ) := by
    push_cast
    rfl
  rw [aluShr_eq, resultsRight_of_fits host h.1 (by omega) (by omega), hvalue, hquotient, hexcess,
    BitVec.ofInt_natCast, BitVec.ofInt_natCast]

theorem asrRight_iff (b a : Word) : AsrRight b a ↔ a.toNat < 32 ∧ b.toNat < 0x8000 := by
  have hvalue : (b.signExtend 32).toInt = b.toInt := BitVec.toInt_signExtend_of_le (by decide)
  have hb : 0 ≤ b.toInt ↔ b.toNat < 0x8000 := by
    rw [BitVec.toInt_eq_toNat_cond]
    split <;> omega
  have hlt : b.toInt < 2 ^ 15 := BitVec.toInt_lt
  have ha : (0 ≤ a.toInt ∧ a.toInt < 32) ↔ a.toNat < 32 := by
    rw [BitVec.toInt_eq_toNat_cond]
    split <;> omega
  have hdefined : ∀ host,
      (∀ s ∈ shiftsAsr host b a, s.Defined) ↔ a.toNat < 32 ∧ b.toNat < 0x8000 := by
    intro host
    rw [shiftsAsr, shiftsRight_defined_iff, hvalue, ha, hb, and_iff_left hlt]
  refine ⟨fun h => (hdefined {}).mp (h.2 {}), fun h => ⟨?_, fun host => (hdefined host).mpr h⟩⟩
  refine computes_of_alu (fun host e => ?_) 1
  have hamount : a.toInt = a.toNat := BitVec.toInt_eq_toNat_of_lt (by omega)
  rw [aluAsr_eq, hamount, resultsRight_of_fits host h.1 (by omega) (by omega), hvalue]

theorem shlRight_iff (b a : Word) :
    ShlRight b a ↔ a.toNat < 32 ∧ b.toNat * 2 ^ a.toNat < 2 ^ 31 := by
  have hvalue : (b.setWidth 32).toInt = b.toNat := by
    rw [BitVec.toInt_setWidth]
    exact Int.bmod_eq_of_le (by omega) (by have := b.isLt; omega)
  have hfits : (b.setWidth 32).toInt * 2 ^ a.toNat < 2 ^ 31 ↔ b.toNat * 2 ^ a.toNat < 2 ^ 31 := by
    rw [hvalue]
    norm_cast
  constructor
  · rintro ⟨-, hdefined⟩
    obtain ⟨-, hamount, -, hshift⟩ := hdefined {} _ List.mem_cons_self
    exact ⟨Int.ofNat_lt.mp hamount, hfits.mp (hshift rfl)⟩
  · rintro ⟨hamount, hshift⟩
    have hrun : ∀ host,
        CShift.run host ⟨true, b.setWidth 32, a.toNat⟩ = b.setWidth 32 <<< a.toNat :=
      fun host => shiftLeftInt_of_lt host _ hamount
    have hresult := toInt_shiftLeft_of_fits (by rw [hvalue]; omega) (hfits.mpr hshift)
    have hnat : (b.setWidth 32 <<< a.toNat).toNat = b.toNat * 2 ^ a.toNat := by
      rw [BitVec.toNat_shiftLeft, Nat.shiftLeft_eq, BitVec.toNat_setWidth_of_le (by decide),
        Nat.mod_eq_of_lt (by omega)]
    refine ⟨computes_of_alu (fun host e => ?_) 1, fun host s hs => ?_⟩
    · rw [aluShl, shiftLeftInt_of_lt host _ hamount]
      refine Prod.ext ?_ (congrArg some ?_) <;> apply BitVec.eq_of_toNat_eq
      · rw [BitVec.toNat_setWidth, hnat, BitVec.toNat_ofNat]
      · rw [BitVec.extractLsb'_toNat, hnat, BitVec.toNat_ofNat, Nat.shiftRight_eq_div_pow]
    · rw [shiftsShl, hrun] at hs
      simp only [List.mem_cons, List.not_mem_nil, or_false, or_self_left] at hs
      rcases hs with rfl | rfl
      · exact ⟨Int.natCast_nonneg _, Int.ofNat_lt.mpr hamount, by rw [hvalue]; omega,
          fun _ => hfits.mpr hshift⟩
      · refine ⟨Int.natCast_nonneg 16, Int.ofNat_lt.mpr (by decide : 16 < 32), ?_, nofun⟩
        rw [hresult, hvalue]
        positivity

/-- **When the shifts are right**: the amount is below 32, and the word, for `SHL` the shifted
word, is not negative as an `int` at any point. -/
theorem shifts_right_iff (b a : Word) :
    (ShrRight b a ↔ a.toNat < 32 ∧ b.toNat < 0x8000) ∧
      (AsrRight b a ↔ a.toNat < 32 ∧ b.toNat < 0x8000) ∧
      (ShlRight b a ↔ a.toNat < 32 ∧ b.toNat * 2 ^ a.toNat < 2 ^ 31) :=
  ⟨shrRight_iff b a, asrRight_iff b a, shlRight_iff b a⟩

/-- `0x8000` shifted to the right by 20 leaves an `EX` of `0xF800`. -/
theorem not_forall_shifts_right : ¬ ∀ b a, ShrRight b a ∧ AsrRight b a ∧ ShlRight b a := by
  intro h
  have hright := (Computes.alu_eq (h 0x8000 20).1.1 rfl).2
  revert hright
  decide

/-! ### Products, quotients and remainders -/

/-- The number fits an `int`. -/
def IntFits (r : ℤ) : Prop := -2 ^ 31 ≤ r ∧ r < 2 ^ 31

/-- The products that `vm_op_mul` computes in `int`: `uint16_t` operands are promoted. -/
def intsMul (b a : Word) : List ℤ := [b.toNat * a.toNat, b.toNat * a.toNat]

/-- The products of `vm_op_mli`. -/
def intsMli (b a : Word) : List ℤ := [b.toInt * a.toInt, b.toInt * a.toInt]

/-- The quotient of `vm_op_div`; the excess is computed in `uint32_t`. -/
def intsDiv (b a : Word) : List ℤ := if a = 0 then [] else [b.toNat / a.toNat]

/-- The quotient of `vm_op_dvi`; the excess is computed in `uint64_t`. -/
def intsDvi (b a : Word) : List ℤ := if a = 0 then [] else [b.toInt.tdiv a.toInt]

/-- The remainder of `vm_op_mdi`, and the sum where that is negative. -/
def intsMdi (b a : Word) : List ℤ :=
  if a = 0 then []
  else if b.toInt.tmod a.toNat < 0 then
    [b.toInt.tmod a.toNat, b.toInt.tmod a.toNat + a.toNat]
  else [b.toInt.tmod a.toNat]

/-- The remainder of `vm_op_mod`. -/
def intsMod (b a : Word) : List ℤ := if a = 0 then [] else [b.toNat % a.toNat]

/-- What an opcode leaves is right, and no `int` overflows on the way. -/
def IntsRight (op : Host → Vm → Operand → Operand → Option Vm) (ints : Word → Word → List ℤ)
    (b a word : Word) (ex : Option Word) : Prop :=
  Computes op b a word ex ∧ ∀ r ∈ ints b a, IntFits r

/-- `MUL`: the unsigned product. -/
def MulRight (b a : Word) : Prop :=
  IntsRight vmOpMul intsMul b a (BitVec.ofNat 16 (b.toNat * a.toNat))
    (some (BitVec.ofNat 16 (b.toNat * a.toNat / 2 ^ 16)))

/-- `MLI`: the signed product. -/
def MliRight (b a : Word) : Prop :=
  IntsRight vmOpMli intsMli b a (BitVec.ofInt 16 (b.toInt * a.toInt))
    (some (BitVec.ofInt 16 (b.toInt * a.toInt / 2 ^ 16)))

/-- `DIV`: the unsigned quotient. -/
def DivRight (b a : Word) : Prop :=
  IntsRight vmOpDiv intsDiv b a (if a = 0 then 0 else BitVec.ofNat 16 (b.toNat / a.toNat))
    (some (if a = 0 then 0 else BitVec.ofNat 16 (b.toNat * 2 ^ 16 / a.toNat)))

/-- `DVI`: the signed quotient, towards zero. -/
def DviRight (b a : Word) : Prop :=
  IntsRight vmOpDvi intsDvi b a (if a = 0 then 0 else BitVec.ofInt 16 (b.toInt.tdiv a.toInt))
    (some (if a = 0 then 0 else BitVec.ofInt 16 ((b.toInt * 2 ^ 16).tdiv a.toInt)))

/-- `MOD`: the unsigned remainder. -/
def ModRight (b a : Word) : Prop :=
  IntsRight vmOpMod intsMod b a (if a = 0 then 0 else BitVec.ofNat 16 (b.toNat % a.toNat)) none

/-- `MDI`: the remainder, not negative, of the signed word by the unsigned one. -/
def MdiRight (b a : Word) : Prop :=
  IntsRight vmOpMdi intsMdi b a (if a = 0 then 0 else BitVec.ofInt 16 (b.toInt % a.toNat)) none

theorem mulRight_iff (b a : Word) : MulRight b a ↔ b.toNat * a.toNat < 2 ^ 31 := by
  have hprod : ((b.setWidth 32 * a.setWidth 32).toNat) = b.toNat * a.toNat := by
    have hlt : b.toNat * a.toNat < 2 ^ 16 * 2 ^ 16 := Nat.mul_lt_mul'' b.isLt a.isLt
    rw [BitVec.toNat_mul, BitVec.toNat_setWidth_of_le (by decide),
      BitVec.toNat_setWidth_of_le (by decide)]
    exact Nat.mod_eq_of_lt hlt
  constructor
  · rintro ⟨-, hints⟩
    have hfits := (hints _ List.mem_cons_self).2
    exact_mod_cast hfits
  · intro hlt
    -- the word and the excess are right in any case; only the `int` may overflow
    refine ⟨computes_of_alu (fun host e => Prod.ext ?_ (congrArg some ?_)) 2, fun r hr => ?_⟩
    · rw [BitVec.ofNat_mul, BitVec.ofNat_toNat, BitVec.ofNat_toNat, BitVec.setWidth_eq,
        BitVec.setWidth_eq]
      rfl
    · refine BitVec.eq_of_toNat_eq ?_
      rw [BitVec.extractLsb'_toNat, hprod, BitVec.toNat_ofNat, Nat.shiftRight_eq_div_pow]
    · simp only [intsMul, List.mem_cons, List.not_mem_nil, or_false, or_self] at hr
      have hnonneg : (0 : ℤ) ≤ b.toNat * a.toNat := by positivity
      rw [hr]
      exact ⟨by omega, by exact_mod_cast hlt⟩

/-- Bits 16 to 31 of a number that fits an `int`. -/
theorem extractLsb'_eq_ofInt (x : BitVec 32) :
    x.extractLsb' 16 16 = BitVec.ofInt 16 (x.toInt / 2 ^ 16) := by
  refine BitVec.eq_of_toNat_eq ?_
  rw [BitVec.extractLsb'_toNat, BitVec.toNat_ofInt, BitVec.toInt_eq_toNat_cond,
    Nat.shiftRight_eq_div_pow]
  have hx := x.isLt
  split <;> omega

theorem intFits_natCast {n : ℕ} (h : n < 2 ^ 16) : IntFits n :=
  ⟨by omega, by omega⟩

/-- The product of two signed words fits an `int`. -/
theorem toInt_mul_fits (b a : Word) : IntFits (b.toInt * a.toInt) := by
  have hword : ∀ x : Word, x.toInt.natAbs ≤ 2 ^ 15 := by
    intro x
    have hlow := BitVec.le_toInt x
    have hhigh := @BitVec.toInt_lt 16 x
    omega
  have hprod : (b.toInt * a.toInt).natAbs ≤ 2 ^ 15 * 2 ^ 15 := by
    rw [Int.natAbs_mul]
    exact Nat.mul_le_mul (hword b) (hword a)
  unfold IntFits
  omega

theorem mliRight (b a : Word) : MliRight b a := by
  have hfits := toInt_mul_fits b a
  have hprod : (b.signExtend 32 * a.signExtend 32).toInt = b.toInt * a.toInt := by
    rw [BitVec.toInt_mul, BitVec.toInt_signExtend_of_le (by decide),
      BitVec.toInt_signExtend_of_le (by decide)]
    unfold IntFits at hfits
    exact Int.bmod_eq_of_le (by omega) (by omega)
  refine ⟨computes_of_alu (fun host e => Prod.ext ?_ (congrArg some ?_)) 2, fun r hr => ?_⟩
  · rw [BitVec.ofInt_mul, BitVec.ofInt_toInt, BitVec.ofInt_toInt]
    rfl
  · rw [extractLsb'_eq_ofInt, hprod]
  · simp only [intsMli, List.mem_cons, List.not_mem_nil, or_false, or_self] at hr
    rw [hr]
    exact hfits

theorem divRight (b a : Word) : DivRight b a := by
  have hb := b.isLt
  constructor
  · refine computes_of_alu (fun host e => ?_) 3
    rw [aluDiv]
    split_ifs with ha
    · rfl
    · refine Prod.ext (BitVec.eq_of_toNat_eq ?_) (congrArg some (BitVec.eq_of_toNat_eq ?_))
      · rw [BitVec.toNat_udiv, BitVec.toNat_ofNat]
        exact (Nat.mod_eq_of_lt (lt_of_le_of_lt (Nat.div_le_self _ _) b.isLt)).symm
      · rw [BitVec.toNat_setWidth, BitVec.toNat_udiv, BitVec.toNat_shiftLeft, Nat.shiftLeft_eq,
          BitVec.toNat_setWidth_of_le (by decide), BitVec.toNat_setWidth_of_le (by decide),
          BitVec.toNat_ofNat, Nat.mod_eq_of_lt (by omega : b.toNat * 2 ^ 16 < 2 ^ 32)]
  · intro r hr
    rw [intsDiv] at hr
    split_ifs at hr with ha
    · exact absurd hr List.not_mem_nil
    · have hle := Nat.div_le_self b.toNat a.toNat
      rw [List.mem_singleton.mp hr, ← Int.natCast_div]
      exact intFits_natCast (lt_of_le_of_lt hle hb)

theorem modRight (b a : Word) : ModRight b a := by
  have hb := b.isLt
  have hle := Nat.mod_le b.toNat a.toNat
  constructor
  · refine computes_of_alu (fun host e => ?_) 3
    rw [aluMod]
    split_ifs with ha
    · rfl
    · refine Prod.ext (BitVec.eq_of_toNat_eq ?_) rfl
      rw [BitVec.toNat_umod, BitVec.toNat_ofNat]
      exact (Nat.mod_eq_of_lt (lt_of_le_of_lt hle hb)).symm
  · intro r hr
    rw [intsMod] at hr
    split_ifs at hr with ha
    · exact absurd hr List.not_mem_nil
    · rw [List.mem_singleton.mp hr, ← Int.natCast_mod]
      exact intFits_natCast (lt_of_le_of_lt hle hb)

/-- A remainder that is moved up where it is negative. -/
theorem emod_eq_tmod_add (x : ℤ) {n : ℤ} (hn : 0 < n) :
    x % n = if x.tmod n < 0 then x.tmod n + n else x.tmod n := by
  have hlow := Int.lt_tmod_of_pos x hn
  have hhigh := Int.tmod_lt_of_pos x hn
  rw [← Int.mul_tdiv_add_tmod x n, Int.mul_add_emod_self_left, Int.mul_tdiv_add_tmod]
  split_ifs with hneg
  · rw [← Int.add_emod_right, Int.emod_eq_of_lt (by omega) (by omega)]
  · exact Int.emod_eq_of_lt (by omega) hhigh

/-- The remainder of a signed word is one. -/
theorem tmod_word (b : Word) (n : ℕ) : -2 ^ 15 ≤ b.toInt.tmod n ∧ b.toInt.tmod n < 2 ^ 15 := by
  have hlow := BitVec.le_toInt b
  have hhigh := @BitVec.toInt_lt 16 b
  have habs : (b.toInt.tmod n).natAbs ≤ b.toInt.natAbs := by
    rw [Int.natAbs_tmod]
    exact Nat.mod_le _ _
  -- the remainder has the sign of the dividend
  rcases Int.le_total 0 b.toInt with hnonneg | hneg
  · have hsign := Int.tmod_nonneg (n : ℤ) hnonneg
    omega
  · have hsign := Int.tmod_nonneg (n : ℤ) (Int.neg_nonneg_of_nonpos hneg)
    rw [Int.neg_tmod] at hsign
    omega

theorem mdiRight (b a : Word) : MdiRight b a := by
  have hword := tmod_word b a.toNat
  have ha := a.isLt
  constructor
  · refine computes_of_alu (fun host e => Prod.ext ?_ rfl) 3
    simp only [aluMdi]
    split_ifs with hzero hneg hneg
    · exact absurd hneg (by decide)
    · rfl
    all_goals
      have hpos : (0 : ℤ) < a.toNat :=
        Int.natCast_pos.mpr (Nat.pos_of_ne_zero fun h => hzero (BitVec.eq_of_toNat_eq h))
      rw [BitVec.toInt_ofInt_eq_self (by decide) (by omega) (by omega)] at hneg
      rw [emod_eq_tmod_add _ hpos]
    · rw [if_pos hneg, BitVec.ofInt_add, BitVec.ofInt_natCast, BitVec.ofNat_toNat,
        BitVec.setWidth_eq]
    · rw [if_neg hneg]
  · intro r hr
    rw [intsMdi] at hr
    unfold IntFits
    split_ifs at hr with hzero hneg
    · exact absurd hr List.not_mem_nil
    · simp only [List.mem_cons, List.not_mem_nil, or_false] at hr
      rcases hr with rfl | rfl <;> omega
    · rw [List.mem_singleton.mp hr]
      omega

/-! ### The excess of a signed quotient -/

/-- When the excess of `DVI` is right. Where `a` is negative, the converted `a` is larger than
any dividend and the excess is `0`. Where only `b` is, the dividend is short of `2 ^ 64` by what
it should be. -/
def ExcessFits (b a : Word) : Prop :=
  a = 0 ∨ (0 ≤ b.toInt ∧ 0 < a.toInt) ∨
    (a.toInt < 0 ∧ 2 ^ 16 ∣ b.toInt.natAbs * 2 ^ 16 / a.toInt.natAbs) ∨
    (b.toInt < 0 ∧ 0 < a.toInt ∧ 2 ^ 64 / a.toInt.natAbs % 2 ^ 16 =
      if 2 ^ 64 % a.toInt.natAbs < b.toInt.natAbs * 2 ^ 16 % a.toInt.natAbs then 1 else 0)

/-- The excess that `vm_op_dvi` computes, in numbers. -/
def excessDvi (b a : Word) : ℕ :=
  (if 0 ≤ b.toInt then b.toInt.natAbs * 2 ^ 16 else 2 ^ 64 - b.toInt.natAbs * 2 ^ 16) /
    if 0 ≤ a.toInt then a.toInt.natAbs else 2 ^ 64 - a.toInt.natAbs

/-- A word converted to `uint64_t`. -/
theorem toNat_signExtend (x : Word) :
    (x.signExtend 64).toNat = if 0 ≤ x.toInt then x.toInt.natAbs else 2 ^ 64 - x.toInt.natAbs := by
  have hext : (x.signExtend 64).toInt = x.toInt := BitVec.toInt_signExtend_of_le (by decide)
  have hlow := BitVec.le_toInt x
  have hhigh := @BitVec.toInt_lt 16 x
  have hlt := (x.signExtend 64).isLt
  rw [BitVec.toInt_eq_toNat_cond] at hext
  split at hext <;> split <;> omega

theorem aluDvi_excess (b a : Word) :
    ((b.signExtend 64 <<< 16) / a.signExtend 64).setWidth 16 = BitVec.ofNat 16 (excessDvi b a) := by
  have hlow := BitVec.le_toInt b
  have hhigh := @BitVec.toInt_lt 16 b
  have hdividend : (b.signExtend 64 <<< 16).toNat =
      if 0 ≤ b.toInt then b.toInt.natAbs * 2 ^ 16 else 2 ^ 64 - b.toInt.natAbs * 2 ^ 16 := by
    rw [BitVec.toNat_shiftLeft, Nat.shiftLeft_eq, toNat_signExtend]
    split <;> omega
  refine BitVec.eq_of_toNat_eq ?_
  rw [BitVec.toNat_setWidth, BitVec.toNat_udiv, hdividend, toNat_signExtend, BitVec.toNat_ofNat,
    excessDvi]

/-- A word that is the negative of a number. -/
theorem ofNat_eq_ofInt_neg_iff (m n : ℕ) :
    BitVec.ofNat 16 m = BitVec.ofInt 16 (-(n : ℤ)) ↔ 2 ^ 16 ∣ m + n := by
  rw [← BitVec.toNat_inj, BitVec.toNat_ofNat, BitVec.toNat_ofInt]
  omega

/-- The quotients of a number and of what is left of another without it. -/
theorem sub_div_add_div {n b d : ℕ} (hd : 0 < d) (h : b ≤ n) :
    (n - b) / d + b / d + (if n % d < b % d then 1 else 0) = n / d := by
  have hn := Nat.div_add_mod n d
  have hb := Nat.div_add_mod b d
  have hr := Nat.mod_lt n hd
  have hs := Nat.mod_lt b hd
  have hle := Nat.div_le_div_right (c := d) h
  -- where the remainder of what is taken away is larger, a divisor is borrowed
  split_ifs with hlt
  · have hne : b / d ≠ n / d := fun heq => by
      rw [heq] at hb
      omega
    obtain ⟨k, hk⟩ : ∃ k, n / d = b / d + k + 1 := ⟨n / d - b / d - 1, by omega⟩
    have hsub : n - b = d * k + (d + n % d - b % d) := by
      rw [hk, Nat.mul_add, Nat.mul_add, Nat.mul_one] at hn
      omega
    rw [hsub, Nat.mul_add_div hd, Nat.div_eq_of_lt (by omega : d + n % d - b % d < d)]
    omega
  · obtain ⟨k, hk⟩ : ∃ k, n / d = b / d + k := ⟨n / d - b / d, by omega⟩
    have hsub : n - b = d * k + (n % d - b % d) := by
      rw [hk, Nat.mul_add] at hn
      omega
    rw [hsub, Nat.mul_add_div hd, Nat.div_eq_of_lt (by omega : n % d - b % d < d)]
    omega

theorem excessDvi_iff {b a : Word} (ha : a ≠ 0) :
    BitVec.ofNat 16 (excessDvi b a) = BitVec.ofInt 16 ((b.toInt * 2 ^ 16).tdiv a.toInt) ↔
      ExcessFits b a := by
  have hblow := BitVec.le_toInt b
  have hbhigh := @BitVec.toInt_lt 16 b
  have halow := BitVec.le_toInt a
  have hne : a.toInt ≠ 0 := fun h => ha (BitVec.eq_of_toInt_eq h)
  obtain ⟨β, hβ⟩ : ∃ β, b.toInt.natAbs = β := ⟨_, rfl⟩
  obtain ⟨α, hα⟩ : ∃ α, a.toInt.natAbs = α := ⟨_, rfl⟩
  have hq : ((β : ℤ) * 2 ^ 16).tdiv α = ((β * 2 ^ 16 / α : ℕ) : ℤ) := by
    rw [Int.natCast_div, ← Int.natCast_tdiv_eq_ediv]
    push_cast
    rfl
  unfold excessDvi ExcessFits
  rw [hβ, hα]
  rcases Int.lt_or_gt_of_ne hne with haneg | hapos
  · -- The converted `a` is larger than the dividend.
    have hatoInt : a.toInt = -(α : ℤ) := by omega
    have hzero : (if 0 ≤ b.toInt then β * 2 ^ 16 else 2 ^ 64 - β * 2 ^ 16) /
        (if 0 ≤ a.toInt then α else 2 ^ 64 - α) = 0 := by
      rw [if_neg (by omega : ¬ 0 ≤ a.toInt)]
      refine Nat.div_eq_of_lt ?_
      split <;> omega
    rw [hzero, or_iff_right ha, or_iff_right (by omega), or_iff_left (by omega),
      and_iff_right haneg, hatoInt, Int.tdiv_neg]
    rcases Int.lt_or_le b.toInt 0 with hbneg | hbpos
    · have hbtoInt : b.toInt = -(β : ℤ) := by omega
      rw [hbtoInt, Int.neg_mul, Int.neg_tdiv, Int.neg_neg, hq, BitVec.ofInt_natCast,
        ← BitVec.toNat_inj, BitVec.toNat_ofNat, BitVec.toNat_ofNat]
      omega
    · have hbtoInt : b.toInt = (β : ℤ) := by omega
      rw [hbtoInt, hq, ofNat_eq_ofInt_neg_iff, Nat.zero_add]
  · have hatoInt : a.toInt = (α : ℤ) := by omega
    rw [if_pos (by omega : 0 ≤ a.toInt)]
    rcases Int.lt_or_le b.toInt 0 with hbneg | hbpos
    · -- the dividend is what is left of `2 ^ 64`
      have hbtoInt : b.toInt = -(β : ℤ) := by omega
      have hquotient := sub_div_add_div (by omega : 0 < α) (by omega : β * 2 ^ 16 ≤ 2 ^ 64)
      rw [if_neg (by omega), or_iff_right ha, or_iff_right (by omega), or_iff_right (by omega),
        and_iff_right hbneg, and_iff_right hapos, hbtoInt, hatoInt, Int.neg_mul, Int.neg_tdiv, hq,
        ofNat_eq_ofInt_neg_iff]
      split_ifs at hquotient ⊢ <;> omega
    · have hbtoInt : b.toInt = (β : ℤ) := by omega
      rw [if_pos hbpos, hbtoInt, hatoInt, hq, BitVec.ofInt_natCast]
      exact iff_of_true rfl (.inr (.inl ⟨by omega, by omega⟩))

theorem dviRight_iff (b a : Word) : DviRight b a ↔ ExcessFits b a := by
  by_cases ha : a = 0
  · refine iff_of_true ⟨computes_of_alu (fun host e => ?_) 3, ?_⟩ (.inl ha)
    · rw [aluDvi, if_pos ha, if_pos ha, if_pos ha]
    · rw [intsDvi, if_pos ha]
      exact fun r hr => absurd hr List.not_mem_nil
  · have halu : ∀ host e, aluDvi host b a e =
        (BitVec.ofInt 16 (b.toInt.tdiv a.toInt), some (BitVec.ofNat 16 (excessDvi b a))) := by
      intro host e
      rw [aluDvi, if_neg ha, aluDvi_excess]
      refine congrArg (·, _) (BitVec.eq_of_toInt_eq ?_)
      rw [BitVec.toInt_sdiv, BitVec.toInt_ofInt]
    rw [← excessDvi_iff ha]
    constructor
    · rintro ⟨hcomputes, -⟩
      rw [if_neg ha, if_neg ha] at hcomputes
      exact (hcomputes.alu_eq (halu {} 0)).2
    · intro hexcess
      refine ⟨computes_of_alu (fun host e => ?_) 3, fun r hr => ?_⟩
      · rw [halu, if_neg ha, if_neg ha, hexcess]
      · rw [intsDvi, if_neg ha] at hr
        have hle := Int.natAbs_tdiv_le_natAbs b.toInt a.toInt
        have hlow := BitVec.le_toInt b
        have hhigh := @BitVec.toInt_lt 16 b
        rw [List.mem_singleton.mp hr]
        exact ⟨by omega, by omega⟩

/-- **When products, quotients and remainders are right.** -/
theorem arithmetic_right_iff (b a : Word) :
    (MulRight b a ↔ b.toNat * a.toNat < 2 ^ 31) ∧ MliRight b a ∧ DivRight b a ∧
      (DviRight b a ↔ ExcessFits b a) ∧ ModRight b a ∧ MdiRight b a :=
  ⟨mulRight_iff b a, mliRight b a, divRight b a, dviRight_iff b a, modRight b a, mdiRight b a⟩

/-- `1` by `-2` leaves no excess. -/
theorem not_forall_arithmetic_right :
    ¬ ∀ b a, MulRight b a ∧ MliRight b a ∧ DivRight b a ∧ DviRight b a ∧ ModRight b a ∧
      MdiRight b a := by
  intro h
  have hright := (Computes.alu_eq (h 1 (-2)).2.2.2.1.1 rfl).2
  revert hright
  decide

end DcpuToolchain
