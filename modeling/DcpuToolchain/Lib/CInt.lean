import Mathlib.Data.Int.Bitwise

/-!
# Arithmetic in C

The type `int` with `w` bits. A result that it cannot represent, a division by zero, and a shift by
a negative number of bits, or by as many as the type has, are undefined.

Operands of an unsigned type with fewer bits are promoted: they are numbers of the type `int`, and
so are sums, differences and products. A result that is stored is narrowed again. For these,
addition and subtraction are always defined (`CInt.add_promote`, `CInt.sub_promote`), but
multiplication and shifts are only if the product of the numbers is small enough
(`CInt.mul_promote`, `CInt.shl_promote`).
-/

namespace CInt

/-- Why a result is undefined. -/
inductive Undefined
  | overflow
  | division
  | shift
  deriving DecidableEq, Repr

/-- The numbers of the type. -/
def Fits (w : ℕ) (z : ℤ) : Prop := -2 ^ (w - 1) ≤ z ∧ z < 2 ^ (w - 1)

instance (w : ℕ) (z : ℤ) : Decidable (Fits w z) := inferInstanceAs (Decidable (_ ∧ _))

/-- A result, if the type has it. -/
def checked (w : ℕ) (z : ℤ) : Except Undefined ℤ := if Fits w z then .ok z else .error .overflow

def add (w : ℕ) (x y : ℤ) : Except Undefined ℤ := checked w (x + y)

def sub (w : ℕ) (x y : ℤ) : Except Undefined ℤ := checked w (x - y)

def mul (w : ℕ) (x y : ℤ) : Except Undefined ℤ := checked w (x * y)

def div (w : ℕ) (x y : ℤ) : Except Undefined ℤ :=
  if y = 0 then .error .division else checked w (x.tdiv y)

def mod (w : ℕ) (x y : ℤ) : Except Undefined ℤ :=
  if y = 0 then .error .division else checked w (x.tmod y)

/-- `x << y`: a number that is not negative is multiplied. -/
def shl (w : ℕ) (x y : ℤ) : Except Undefined ℤ :=
  if 0 ≤ y ∧ y < w then
    if 0 ≤ x then checked w (x * 2 ^ y.toNat) else .error .overflow
  else .error .shift

/-- `x >> y`. -/
def shr (w : ℕ) (x y : ℤ) : Except Undefined ℤ :=
  if 0 ≤ y ∧ y < w then .ok (x / 2 ^ y.toNat) else .error .shift

/-- The truth value that a comparison gives. -/
def flag (b : Bool) : ℤ := if b then 1 else 0

/-- A number of an unsigned type as an `int`. -/
def promote {n : ℕ} (x : BitVec n) : ℤ := x.toNat

/-- The conversion to an unsigned type. -/
def narrow (n : ℕ) (z : ℤ) : BitVec n := BitVec.ofInt n z

variable {w n : ℕ} {x y : BitVec n}

theorem promote_nonneg (x : BitVec n) : 0 ≤ promote x := Int.natCast_nonneg _

theorem promote_inj : promote x = promote y ↔ x = y := by
  rw [promote, promote, Int.ofNat_inj, BitVec.toNat_inj]

@[simp] theorem narrow_promote (x : BitVec n) : narrow n (promote x) = x := by
  rw [narrow, promote, BitVec.ofInt_natCast, BitVec.ofNat_toNat, BitVec.setWidth_eq]

theorem promote_lt : promote x < promote y ↔ x < y := by
  rw [promote, promote, Int.ofNat_lt, BitVec.lt_def]

theorem promote_le : promote x ≤ promote y ↔ x ≤ y := by
  rw [promote, promote, Int.ofNat_le, BitVec.le_def]

theorem promote_eq_zero : promote x = 0 ↔ x = 0 := by
  rw [promote, Int.natCast_eq_zero, ← BitVec.toNat_inj]
  rfl

theorem two_pow_eq (k : ℕ) : (2 : ℤ) ^ k = ((2 ^ k : ℕ) : ℤ) := by
  rw [Nat.cast_pow, Nat.cast_ofNat]

/-- A number that is not negative fits if it is small enough. -/
theorem fits_natCast (m : ℕ) : Fits w m ↔ m < 2 ^ (w - 1) := by
  rw [Fits, two_pow_eq]
  omega

theorem checked_natCast (m : ℕ) (h : m < 2 ^ (w - 1)) : checked w m = .ok (m : ℤ) :=
  if_pos ((fits_natCast m).mpr h)

/-- Half the numbers of a type with more bits are enough. -/
theorem lt_half (h : n + 1 < w) (x : BitVec n) : 2 * x.toNat < 2 ^ (w - 1) := by
  have hpow : 2 ^ (n + 1) ≤ 2 ^ (w - 1) := Nat.pow_le_pow_right (by omega) (by omega)
  have hlt := x.isLt
  rw [Nat.pow_succ] at hpow
  omega

theorem add_promote (h : n + 1 < w) (x y : BitVec n) :
    (add w (promote x) (promote y)).map (narrow n) = .ok (x + y) := by
  have hx := lt_half h x
  have hy := lt_half h y
  have hsum : promote x + promote y = ((x.toNat + y.toNat : ℕ) : ℤ) := (Nat.cast_add _ _).symm
  rw [add, hsum, checked_natCast _ (by omega), ← hsum]
  exact congrArg Except.ok (by rw [narrow, BitVec.ofInt_add, ← narrow, ← narrow, narrow_promote,
    narrow_promote])

theorem sub_promote (h : n + 1 < w) (x y : BitVec n) :
    (sub w (promote x) (promote y)).map (narrow n) = .ok (x - y) := by
  have hx := lt_half h x
  have hy := lt_half h y
  have hfits : Fits w (promote x - promote y) := by
    rw [Fits, two_pow_eq, promote, promote]
    omega
  rw [sub, checked, if_pos hfits]
  exact congrArg Except.ok (by rw [narrow, Int.sub_eq_add_neg, BitVec.ofInt_add, BitVec.ofInt_neg,
    ← narrow, ← narrow, narrow_promote, narrow_promote, BitVec.sub_eq_add_neg])

theorem mul_promote (w : ℕ) (x y : BitVec n) :
    (mul w (promote x) (promote y)).map (narrow n) =
      if x.toNat * y.toNat < 2 ^ (w - 1) then .ok (x * y) else .error .overflow := by
  have hproduct : promote x * promote y = ((x.toNat * y.toNat : ℕ) : ℤ) := (Nat.cast_mul _ _).symm
  rw [mul, hproduct, checked]
  simp only [fits_natCast]
  split
  · rw [← hproduct]
    exact congrArg Except.ok (by rw [narrow, BitVec.ofInt_mul, ← narrow, ← narrow, narrow_promote,
      narrow_promote])
  · rfl

theorem div_promote (h : n < w) (x : BitVec n) {y : BitVec n} (hy : y ≠ 0) :
    (div w (promote x) (promote y)).map (narrow n) = .ok (x / y) := by
  have hy' : promote y ≠ 0 := promote_eq_zero.not.mpr hy
  have hquotient : (promote x).tdiv (promote y) = promote (x / y) := by
    rw [promote, promote, promote, BitVec.toNat_udiv]
    rfl
  have hlt : (x / y).toNat < 2 ^ (w - 1) :=
    (x / y).isLt.trans_le (Nat.pow_le_pow_right (by omega) (by omega))
  rw [div, if_neg hy', hquotient, promote, checked_natCast _ hlt]
  exact congrArg Except.ok (narrow_promote _)

theorem mod_promote (h : n < w) (x : BitVec n) {y : BitVec n} (hy : y ≠ 0) :
    (mod w (promote x) (promote y)).map (narrow n) = .ok (x % y) := by
  have hy' : promote y ≠ 0 := promote_eq_zero.not.mpr hy
  have hrest : (promote x).tmod (promote y) = promote (x % y) := by
    rw [promote, promote, promote, BitVec.toNat_umod]
    rfl
  have hlt : (x % y).toNat < 2 ^ (w - 1) :=
    (x % y).isLt.trans_le (Nat.pow_le_pow_right (by omega) (by omega))
  rw [mod, if_neg hy', hrest, promote, checked_natCast _ hlt]
  exact congrArg Except.ok (narrow_promote _)

theorem shl_promote (w : ℕ) (x y : BitVec n) :
    (shl w (promote x) (promote y)).map (narrow n) =
      if y.toNat < w then
        if x.toNat * 2 ^ y.toNat < 2 ^ (w - 1) then .ok (x <<< y) else .error .overflow
      else .error .shift := by
  have hproduct : promote x * 2 ^ (promote y).toNat = ((x.toNat * 2 ^ y.toNat : ℕ) : ℤ) := by
    rw [promote, promote, Int.toNat_natCast, two_pow_eq, Nat.cast_mul]
  have hbits : (0 ≤ promote y ∧ promote y < w) ↔ y.toNat < w := by
    rw [promote]
    omega
  rw [shl, hproduct, checked]
  simp only [hbits, if_pos (promote_nonneg x), fits_natCast]
  split
  · split
    · refine congrArg Except.ok (BitVec.eq_of_toNat_eq ?_)
      rw [narrow, BitVec.ofInt_natCast, BitVec.toNat_ofNat, BitVec.shiftLeft_eq',
        BitVec.toNat_shiftLeft, Nat.shiftLeft_eq]
    · rfl
  · rfl

theorem shr_promote (w : ℕ) (x y : BitVec n) :
    (shr w (promote x) (promote y)).map (narrow n) =
      if y.toNat < w then .ok (x >>> y) else .error .shift := by
  have hquotient : promote x / 2 ^ (promote y).toNat = promote (x >>> y) := by
    rw [promote, promote, promote, Int.toNat_natCast, BitVec.ushiftRight_eq',
      BitVec.toNat_ushiftRight, Nat.shiftRight_eq_div_pow, two_pow_eq, Int.natCast_ediv]
  have hbits : (0 ≤ promote y ∧ promote y < w) ↔ y.toNat < w := by
    rw [promote]
    omega
  rw [shr, hquotient]
  simp only [hbits]
  split
  · exact congrArg Except.ok (narrow_promote _)
  · rfl

theorem land_promote (x y : BitVec n) : (promote x).land (promote y) = promote (x &&& y) := by
  rw [promote, promote, promote, BitVec.toNat_and]
  rfl

theorem lor_promote (x y : BitVec n) : (promote x).lor (promote y) = promote (x ||| y) := by
  rw [promote, promote, promote, BitVec.toNat_or]
  rfl

theorem xor_promote (x y : BitVec n) : (promote x).xor (promote y) = promote (x ^^^ y) := by
  rw [promote, promote, promote, BitVec.toNat_xor]
  rfl

end CInt
