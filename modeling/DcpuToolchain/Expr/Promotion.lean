import DcpuToolchain.Expr.Representation
import DcpuToolchain.Lib.CInt
import DcpuToolchain.Lib.Faults

/-!
# Expressions in C

`expr_evaluate` (`libdcpu-pp-expr/ppexpr.c`) as C evaluates it: operands of the type `uint16_t` are
promoted to `int`, whose operations may be undefined, and results are narrowed again. The order in
which C evaluates the operands of most operations is unspecified.

Beside it stands what the value should be: arithmetic with words of 16 bits, in which shifts by
16 or more give 0, and none where a divisor is 0 or a label is unknown.
`DcpuToolchain.exprEvaluate_right_iff` says when the code gives it.
-/

namespace DcpuToolchain

open CInt Faults

/-! ### The code -/

/-- Why an evaluation does not return. -/
inductive EvaluateStop
  /-- `errexit` with `EXPR_EXIT_LABEL_NOT_FOUND`. -/
  | labelNotFound (label : String)
  /-- `errexit` with `EXPR_EXIT_DIVIDE_BY_ZERO`. -/
  | divideByZero (divisor : List Char)
  /-- `labelreplace` does not return, as it does not know the label. -/
  | labelreplace (label : String)
  | nullPointer
  | undefined (why : CInt.Undefined)
  deriving DecidableEq, Repr

/-- Nothing is said about what happens then. -/
def EvaluateStop.isFault : EvaluateStop → Bool
  | nullPointer | undefined _ => true
  | _ => false

/-- An operation, with its operands promoted. -/
def ExprOp.compute (x y : ℤ) : ExprOp → Except CInt.Undefined ℤ
  | invalid => .ok 0
  | add => CInt.add 32 x y
  | subtract => CInt.sub 32 x y
  | multiply => CInt.mul 32 x y
  | divide => CInt.div 32 x y
  | modulus => CInt.mod 32 x y
  | equals => .ok (flag (x = y))
  | notEquals => .ok (flag (x ≠ y))
  | lessThan => .ok (flag (x < y))
  | lessEquals => .ok (flag (x ≤ y))
  | greaterThan => .ok (flag (y < x))
  | greaterEquals => .ok (flag (y ≤ x))
  | and => .ok (x.land y)
  | bor => .ok (x.lor y)
  | xor => .ok (x.xor y)
  | booleanAnd => .ok (flag (x ≠ 0 ∧ y ≠ 0))
  | booleanOr => .ok (flag (x ≠ 0 ∨ y ≠ 0))
  | booleanXor => .ok (flag ((x ≠ 0 ∨ y ≠ 0) ∧ ¬ (x ≠ 0 ∧ y ≠ 0)))
  | leftShift => CInt.shl 32 x y
  | rightShift => CInt.shr 32 x y

/-- An operation on words. -/
def ExprOp.evaluate (op : ExprOp) (x y : BitVec 16) : Except EvaluateStop (BitVec 16) :=
  ((op.compute (promote x) (promote y)).map (narrow 16)).mapError .undefined

/-- Two operands, in one order or the other. -/
def inOrder {ε α : Type} (leftFirst : Bool) (x y : Except ε α) : Except ε (α × α) :=
  if leftFirst then do
    let a ← x
    let b ← y
    return (a, b)
  else do
    let b ← y
    let a ← x
    return (a, b)

/-- `expr_evaluate`. The function `labelreplace` may be `NULL`, or not return; which operand of an
operation is evaluated first is `leftFirst` of it. -/
def exprEvaluate (labelreplace : Option (String → Option (BitVec 16))) (leftFirst : Expr → Bool) :
    Expr → Except EvaluateStop (BitVec 16)
  | .number val => .ok val
  | .label name =>
    match labelreplace with
    | none => .error (.labelNotFound name)
    | some replace =>
      match replace name with
      | none => .error (.labelreplace name)
      | some val => .ok val
  | .booleanNot b => do
    let y ← exprEvaluate labelreplace leftFirst b
    return narrow 16 (flag (promote y = 0))
  | .expr a op b =>
    match op with
    | .divide | .modulus => do
      let t ← exprEvaluate labelreplace leftFirst b
      if t = 0 then
        match exprRepresentation b with
        | none => throw .nullPointer
        | some text => throw (.divideByZero text)
      else do
        let x ← exprEvaluate labelreplace leftFirst a
        op.evaluate x t
    | .booleanAnd => do
      let x ← exprEvaluate labelreplace leftFirst a
      if x = 0 then return 0
      else do
        let y ← exprEvaluate labelreplace leftFirst b
        op.evaluate x y
    | .booleanOr => do
      let x ← exprEvaluate labelreplace leftFirst a
      if x ≠ 0 then return 1
      else do
        let y ← exprEvaluate labelreplace leftFirst b
        op.evaluate x y
    | .booleanXor => do
      let t ← exprEvaluate labelreplace leftFirst a
      let t2 ← exprEvaluate labelreplace leftFirst b
      op.evaluate t t2
    | .invalid => return 0
    | op => do
      let (x, y) ← inOrder (leftFirst (.expr a op b)) (exprEvaluate labelreplace leftFirst a)
        (exprEvaluate labelreplace leftFirst b)
      op.evaluate x y

/-- What an operation needs to be defined, but for divisors. -/
def ExprOp.Fits (x y : BitVec 16) : ExprOp → Prop
  | multiply => x.toNat * y.toNat < 2 ^ 31
  | leftShift => y.toNat < 32 ∧ x.toNat * 2 ^ y.toNat < 2 ^ 31
  | rightShift => y.toNat < 32
  | _ => True

/-! ### The value -/

namespace Expr

/-- **The documented value** of an expression: there is none if a divisor that is evaluated is 0, or
a label is unknown. The operations on words are modulo `2 ^ 16`, and shifts by 16 or more give 0. -/
def documented (labels : String → Option (BitVec 16)) : Expr → Option (BitVec 16)
  | number val => some val
  | label name => labels name
  | booleanNot b => (b.documented labels).bind fun y => some (truth (y = 0))
  | expr a op b =>
    match op with
    | .divide | .modulus =>
      (b.documented labels).bind fun y =>
        if y = 0 then none else (a.documented labels).bind fun x => some (op.apply x y)
    | .booleanAnd =>
      (a.documented labels).bind fun x =>
        if x = 0 then some 0 else (b.documented labels).bind fun y => some (op.apply x y)
    | .booleanOr =>
      (a.documented labels).bind fun x =>
        if x ≠ 0 then some 1 else (b.documented labels).bind fun y => some (op.apply x y)
    | .invalid => some 0
    | op =>
      (a.documented labels).bind fun x =>
        (b.documented labels).bind fun y => some (op.apply x y)

/-- **Where the evaluation of words gives a value**, it is the documented one. -/
theorem documented_of_evaluate {labels : String → Option (BitVec 16)} {e : Expr} {val : BitVec 16}
    (h : e.evaluate labels = .ok val) : e.documented labels = some val := by
  have hbind {x : Except ExprExit (BitVec 16)} {k : BitVec 16 → Except ExprExit (BitVec 16)}
      {val : BitVec 16} (h : x >>= k = .ok val) : ∃ a, x = .ok a ∧ k a = .ok val := by
    cases x with
    | error => cases h
    | ok a => exact ⟨a, rfl, h⟩
  induction e generalizing val with
  | number => exact congrArg some (Except.ok.inj h)
  | label name =>
    rw [evaluate] at h
    split at h
    · rename_i hname
      exact hname.trans (congrArg some (Except.ok.inj h))
    · cases h
  | booleanNot b ih =>
    obtain ⟨y, hy, h⟩ := hbind h
    rw [documented, ih hy]
    exact congrArg some (Except.ok.inj h)
  | expr a op b iha ihb =>
    have hstrict {op : ExprOp} {x y : BitVec 16} (hx : a.evaluate labels = .ok x)
        (hy : b.evaluate labels = .ok y)
        (hvalue : (expr a op b).documented labels = (a.documented labels).bind fun x =>
          (b.documented labels).bind fun y => some (op.apply x y))
        (h : Except.ok (op.apply x y) = (.ok val : Except ExprExit (BitVec 16))) :
        (expr a op b).documented labels = some val := by
      rw [hvalue, iha hx, ihb hy]
      exact congrArg some (Except.ok.inj h)
    cases op
    case invalid => exact congrArg some (Except.ok.inj h)
    case divide | modulus =>
      obtain ⟨y, hy, h⟩ := hbind h
      rw [documented, ihb hy, Option.bind_some]
      split at h
      · cases h
      · rename_i hne
        obtain ⟨x, hx, h⟩ := hbind h
        rw [if_neg hne, iha hx]
        exact congrArg some (Except.ok.inj h)
    case booleanAnd | booleanOr =>
      obtain ⟨x, hx, h⟩ := hbind h
      rw [documented, iha hx, Option.bind_some]
      split at h
      · rename_i hdecided
        rw [if_pos hdecided]
        exact congrArg some (Except.ok.inj h)
      · rename_i hopen
        obtain ⟨y, hy, h⟩ := hbind h
        rw [if_neg hopen, ihb hy]
        exact congrArg some (Except.ok.inj h)
    case leftShift | rightShift =>
      obtain ⟨x, hx, h⟩ := hbind h
      obtain ⟨y, hy, h⟩ := hbind h
      split at h
      · cases h
      · exact hstrict hx hy rfl h
    all_goals
      obtain ⟨x, hx, h⟩ := hbind h
      obtain ⟨y, hy, h⟩ := hbind h
      exact hstrict hx hy rfl h

/-- No divisor that is 0 contains a `!`, no product of operands is `2 ^ 31` or more, and nothing is
shifted by 32 or more, or to the left so far that the number is `2 ^ 31` or more. Of an operand that
is not evaluated nothing is asked. -/
def Defined (labels : String → Option (BitVec 16)) (leftFirst : Expr → Bool) : Expr → Prop
  | number _ | label _ => True
  | booleanNot b => b.Defined labels leftFirst
  | expr a op b =>
    match op with
    | .divide | .modulus =>
      b.Defined labels leftFirst ∧ ∀ y, b.documented labels = some y →
        if y = 0 then (exprRepresentation b).isSome = true else a.Defined labels leftFirst
    | .booleanAnd =>
      a.Defined labels leftFirst ∧ ∀ x, a.documented labels = some x →
        x ≠ 0 → b.Defined labels leftFirst
    | .booleanOr =>
      a.Defined labels leftFirst ∧ ∀ x, a.documented labels = some x →
        x = 0 → b.Defined labels leftFirst
    | .booleanXor =>
      a.Defined labels leftFirst ∧ ∀ x, a.documented labels = some x → b.Defined labels leftFirst
    | .invalid => True
    | op =>
      (if leftFirst (.expr a op b) then
        a.Defined labels leftFirst ∧ ∀ x, a.documented labels = some x → b.Defined labels leftFirst
      else
        b.Defined labels leftFirst ∧ ∀ y, b.documented labels = some y →
          a.Defined labels leftFirst) ∧
      ∀ x, a.documented labels = some x → ∀ y, b.documented labels = some y → op.Fits x y

end Expr

/-! ### One operation -/

section Operation

variable {op : ExprOp} {x y : BitVec 16}

theorem narrow_flag (b : Bool) : narrow 16 (flag b) = truth b := by
  cases b <;> rfl

/-- **An operation gives its value** where it is defined. -/
theorem settled_operation (hdivisor : op = .divide ∨ op = .modulus → y ≠ 0) :
    Settled EvaluateStop.isFault (op.Fits x y) (op.evaluate x y) (some (op.apply x y)) := by
  have hok {z : ℤ} (h : op.compute (promote x) (promote y) = .ok z)
      (hz : narrow 16 z = op.apply x y) (hfits : op.Fits x y) :
      Settled EvaluateStop.isFault (op.Fits x y) (op.evaluate x y) (some (op.apply x y)) := by
    rw [ExprOp.evaluate, h, ← hz]
    exact (Settled.ok _).congr (iff_of_true trivial hfits)
  have hmap {r : Except CInt.Undefined (BitVec 16)}
      (h : (op.compute (promote x) (promote y)).map (narrow 16) = r)
      (hr : Settled EvaluateStop.isFault (op.Fits x y) (r.mapError .undefined)
        (some (op.apply x y))) :
      Settled EvaluateStop.isFault (op.Fits x y) (op.evaluate x y) (some (op.apply x y)) := by
    rw [ExprOp.evaluate, h]
    exact hr
  cases op with
  | invalid => exact hok rfl rfl trivial
  | add => exact hmap (add_promote (by decide) x y) (Settled.ok _)
  | subtract => exact hmap (sub_promote (by decide) x y) (Settled.ok _)
  | multiply =>
    refine hmap (mul_promote 32 x y) ?_
    by_cases hfits : x.toNat * y.toNat < 2 ^ 31
    · rw [if_pos hfits]
      exact (Settled.ok _).congr (iff_of_true trivial hfits)
    · rw [if_neg hfits]
      exact (Settled.fault rfl).congr (iff_of_false id hfits)
  | divide => exact hmap (div_promote (by decide) x (hdivisor (.inl rfl))) (Settled.ok _)
  | modulus => exact hmap (mod_promote (by decide) x (hdivisor (.inr rfl))) (Settled.ok _)
  | leftShift =>
    refine hmap (shl_promote 32 x y) ?_
    by_cases hbits : y.toNat < 32
    · rw [if_pos hbits]
      by_cases hfits : x.toNat * 2 ^ y.toNat < 2 ^ 31
      · rw [if_pos hfits]
        exact (Settled.ok _).congr (iff_of_true trivial ⟨hbits, hfits⟩)
      · rw [if_neg hfits]
        exact (Settled.fault rfl).congr (iff_of_false id fun h => hfits h.2)
    · rw [if_neg hbits]
      exact (Settled.fault rfl).congr (iff_of_false id fun h => hbits h.1)
  | rightShift =>
    refine hmap (shr_promote 32 x y) ?_
    by_cases hbits : y.toNat < 32
    · rw [if_pos hbits]
      exact (Settled.ok _).congr (iff_of_true trivial hbits)
    · rw [if_neg hbits]
      exact (Settled.fault rfl).congr (iff_of_false id hbits)
  | and => exact hok rfl (by rw [land_promote, narrow_promote]; rfl) trivial
  | bor => exact hok rfl (by rw [lor_promote, narrow_promote]; rfl) trivial
  | xor => exact hok rfl (by rw [xor_promote, narrow_promote]; rfl) trivial
  | _ =>
    refine hok rfl ?_ trivial
    simp only [narrow_flag, promote_inj, promote_lt, promote_le, promote_eq_zero, ne_eq]
    rfl

end Operation

/-! ### Expressions -/

section Evaluation

variable {labelreplace : Option (String → Option (BitVec 16))} {leftFirst : Expr → Bool}

/-- Two operands, the first of which decides whether the other is evaluated. -/
theorem settled_inOrder {ε α : Type} {isFault : ε → Bool} {C D : Prop} {x y : Except ε α}
    {x' y' : Option α} (first : Bool) (hx : Settled isFault C x x')
    (hy : Settled isFault D y y') :
    Settled isFault (if first then C ∧ ∀ a, x' = some a → D else D ∧ ∀ b, y' = some b → C)
      (inOrder first x y) (x'.bind fun a => y'.map (a, ·)) := by
  cases first with
  | true => exact hx.bind fun a _ => hy.map (a, ·)
  | false =>
    have hswap : (x'.bind fun a => y'.map (a, ·)) = y'.bind fun b => x'.map (·, b) := by
      cases x' <;> cases y' <;> rfl
    rw [hswap]
    exact hy.bind fun b _ => hx.map (·, b)

/-- An operation of which both operands are evaluated. -/
theorem settled_strict {op : ExprOp} {C D : Prop} {x y : Except EvaluateStop (BitVec 16)}
    {x' y' : Option (BitVec 16)} (first : Bool) (hop : op ≠ .divide ∧ op ≠ .modulus)
    (hx : Settled EvaluateStop.isFault C x x') (hy : Settled EvaluateStop.isFault D y y') :
    Settled EvaluateStop.isFault
      ((if first then C ∧ ∀ a, x' = some a → D else D ∧ ∀ b, y' = some b → C) ∧
        ∀ a, x' = some a → ∀ b, y' = some b → op.Fits a b)
      (inOrder first x y >>= fun p => op.evaluate p.1 p.2)
      (x'.bind fun a => y'.bind fun b => some (op.apply a b)) := by
  have hone (a b : BitVec 16) : Settled EvaluateStop.isFault (op.Fits a b) (op.evaluate a b)
      (some (op.apply a b)) := settled_operation fun h => absurd h (not_or.mpr hop)
  have hboth := (settled_inOrder first hx hy).bind (P := fun p => op.Fits p.1 p.2)
    (f := fun p => op.evaluate p.1 p.2) (g := fun p => some (op.apply p.1 p.2))
    fun p _ => hone p.1 p.2
  have hvalue : (x'.bind fun a => y'.bind fun b => some (op.apply a b)) =
      (x'.bind fun a => y'.map (a, ·)).bind fun p => some (op.apply p.1 p.2) := by
    cases x' <;> cases y' <;> rfl
  rw [hvalue]
  refine hboth.congr (and_congr_right fun _ => ⟨?_, ?_⟩)
  · rintro h a rfl b rfl
    exact h (a, b) rfl
  · rintro h ⟨a, b⟩ hp
    obtain ⟨a', ha, hb⟩ := Option.bind_eq_some_iff.mp hp
    obtain ⟨b', hb, heq⟩ := Option.map_eq_some_iff.mp hb
    cases heq
    exact h a ha b hb

/-- A division, whose divisor is evaluated first. -/
theorem settled_division {op : ExprOp} {C D : Prop} {x y : Except EvaluateStop (BitVec 16)}
    {x' y' : Option (BitVec 16)} (text : Option (List Char)) (hfits : ∀ x y, op.Fits x y)
    (hx : Settled EvaluateStop.isFault C x x') (hy : Settled EvaluateStop.isFault D y y') :
    Settled EvaluateStop.isFault
      (D ∧ ∀ b, y' = some b → if b = 0 then text.isSome = true else C)
      (y >>= fun t => if t = 0 then
        (match text with
          | none => throw .nullPointer
          | some text => throw (.divideByZero text))
        else x >>= fun x => op.evaluate x t)
      (y'.bind fun b => if b = 0 then none else x'.bind fun a => some (op.apply a b)) := by
  refine hy.bind fun b _ => ?_
  by_cases hb : b = 0
  · simp only [if_pos hb]
    cases text with
    | none => exact (Settled.fault rfl).congr (iff_of_false id nofun)
    | some text => exact (Settled.stops rfl).congr (iff_of_true trivial rfl)
  · simp only [if_neg hb]
    refine (hx.bind fun a _ => settled_operation fun _ => hb).congr ?_
    exact and_iff_left fun a _ => hfits a b

/-- **The code against the documentation**: it gives the documented value, or reports that there is
none, exactly if every operation that it comes to is defined. -/
theorem settled_exprEvaluate (e : Expr) :
    Settled EvaluateStop.isFault
      (e.Defined (fun name => labelreplace.bind (· name)) leftFirst)
      (exprEvaluate labelreplace leftFirst e)
      (e.documented fun name => labelreplace.bind (· name)) := by
  induction e with
  | number val => exact Settled.ok val
  | label name =>
    cases labelreplace with
    | none => exact Settled.stops rfl
    | some replace =>
      change Settled _ True
        (match replace name with
          | none => .error (EvaluateStop.labelreplace name)
          | some val => .ok val)
        (replace name)
      cases replace name with
      | none => exact Settled.stops rfl
      | some val => exact Settled.ok val
  | booleanNot b ih =>
    refine (ih.bind fun y _ => ?_).congr (and_iff_left fun _ _ => trivial)
    rw [narrow_flag]
    simp only [promote_eq_zero]
    exact Settled.ok _
  | expr a op b iha ihb =>
    cases op
    case invalid => exact Settled.ok 0
    case divide | modulus =>
      exact settled_division (exprRepresentation b) (fun _ _ => trivial) iha ihb
    case booleanAnd =>
      refine iha.bind fun x _ => ?_
      by_cases hx : x = 0
      · simp only [if_pos hx]
        exact (Settled.ok 0).congr (iff_of_true trivial fun hne => absurd hx hne)
      · simp only [if_neg hx]
        refine (ihb.bind fun y _ => settled_operation (by rintro (h | h) <;> cases h)).congr ?_
        exact ⟨fun h _ => h.1, fun h => ⟨h hx, fun _ _ => trivial⟩⟩
    case booleanOr =>
      refine iha.bind fun x _ => ?_
      by_cases hx : x = 0
      · simp only [if_neg (not_not.mpr hx)]
        refine (ihb.bind fun y _ => settled_operation (by rintro (h | h) <;> cases h)).congr ?_
        exact ⟨fun h _ => h.1, fun h => ⟨h hx, fun _ _ => trivial⟩⟩
      · simp only [if_pos hx]
        exact (Settled.ok 1).congr (iff_of_true trivial fun heq => absurd heq hx)
    case booleanXor =>
      refine iha.bind fun x _ => ?_
      refine (ihb.bind fun y _ => settled_operation (by rintro (h | h) <;> cases h)).congr ?_
      exact and_iff_left fun _ _ => trivial
    all_goals exact settled_strict _ ⟨nofun, nofun⟩ iha ihb

end Evaluation

/-- **When `expr_evaluate` computes the documented value**, for every order of evaluation. -/
theorem exprEvaluate_right_iff (labelreplace : Option (String → Option (BitVec 16)))
    (leftFirst : Expr → Bool) (e : Expr) :
    Right EvaluateStop.isFault (exprEvaluate labelreplace leftFirst e)
        (e.documented fun name => labelreplace.bind (· name)) ↔
      e.Defined (fun name => labelreplace.bind (· name)) leftFirst :=
  (settled_exprEvaluate e).right_iff

/-- The square of the greatest word overflows an `int`. -/
theorem not_forall_exprEvaluate_right :
    ¬ ∀ (labelreplace : Option (String → Option (BitVec 16))) (leftFirst : Expr → Bool) (e : Expr),
      Right EvaluateStop.isFault (exprEvaluate labelreplace leftFirst e)
        (e.documented fun name => labelreplace.bind (· name)) := by
  intro h
  have hoverflow : exprEvaluate none (fun _ => true)
      (.expr (.number 65535) .multiply (.number 65535)) = .error (.undefined .overflow) := by decide
  have hright := h none (fun _ => true) (.expr (.number 65535) .multiply (.number 65535))
  rw [hoverflow] at hright
  cases hright.1

end DcpuToolchain
