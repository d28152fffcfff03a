import DcpuToolchain.Expr.Parameters
import DcpuToolchain.Pp.Directives
import Mathlib.Tactic.IntervalCases

/-!
# Names in conditions

`if_handle` evaluates an expression with `if_define_replace` for its names. That looks for a
handler of the name and has its user data parsed as an expression: not the text that replaces
the name but the record that points to it. What `expr_parse` takes for the characters is the
first field of the string in memory, its capacity, and no capacity is an expression
(`DcpuToolchain.exprParse_scannedText`).

So a condition has a value only where it has no names. What it should have is the value of the
text in which each name is replaced by its replacement in parentheses
(`DcpuToolchain.replaceNames`), and `DcpuToolchain.ifCondition_iff` says where it has it.
-/

namespace DcpuToolchain

open Precedence Scanner

/-! ### The names of a condition -/

/-- How the evaluation of a condition stops short of a value. -/
inductive IfStop
  | dhalt (error : PpError)
  /-- The user data of a directive, which is `NULL`, is dereferenced. -/
  | nullPointer
  /-- A shift by more than the bits of an `int`. -/
  | undefinedShift
  /-- Names are looked up deeper than was allowed for. -/
  | tooDeep
  deriving DecidableEq, Repr

/-- Whether the user data is a `struct replace_info`. -/
def Handler.hasInfo : Handler → Bool
  | .replaceHandle _ | .macroHandle _ _ => true
  | _ => false

/-- The bytes of an `int`, the lowest first. -/
def intBytes (n : ℕ) : List ℕ := [n % 256, n / 2 ^ 8 % 256, n / 2 ^ 16 % 256, n / 2 ^ 24 % 256]

/-- The text that `expr_parse` scans when it is given a `struct replace_info` for a string. Where
it looks for the characters is the replacement, a `struct tagbstring`, which begins with
the number of bytes that were allocated. -/
def scannedText (mlen : ℕ) : List Char := ((intBytes mlen).takeWhile (· ≠ 0)).map Char.ofNat

/-- `expr_evaluate`, with what replaces the labels and how that stops. -/
def evaluateWith (replace : String → Except IfStop Word) (e : Expr) : Except IfStop Word :=
  match e.evaluate fun name => (replace name).toOption with
  | .ok value => .ok value
  | .error (.labelNotFound name) => replace name
  | .error (.divideByZero _) => .error (.dhalt .expressionError)
  | .error .undefinedShift => .error .undefinedShift

section Names

variable (mlen : Match → ℕ) (handlers : List Match)

/-- `if_define_replace`, which is the same for the assembler and for C: so many names deep. -/
def ifDefineReplace : (depth : ℕ) → String → Except IfStop Word
  | 0, _ => .error .tooDeep
  | depth + 1, define =>
    match handlers.find? (·.text = define.toList) with
    | none => .error (.dhalt .defineNotFound)
    | some m =>
      if m.handler.hasInfo = false then .error .nullPointer
      else
        match exprParse (scannedText (mlen m)) with
        | none => .error (.dhalt .defineNotExpression)
        | some tree => evaluateWith (ifDefineReplace depth) tree

/-- The condition of `if_handle`, on the rest of the input. -/
def ifCondition (l : Language) (depth : ℕ) (text : List Char) : Except IfStop Word :=
  match ppparamGet text with
  | [.expression e] => evaluateWith (ifDefineReplace mlen handlers depth) e
  | _ =>
    .error (.dhalt
      (match l with | .asm => .asmIfParametersIncorrect | .c => .cIfParametersIncorrect))

/-! ### Textual replacement -/

/-- The text that replaces a name. -/
def replacementOf (name : String) : Option Bstring :=
  match handlers.find? (·.text = name.toList) with
  | some ⟨_, .replaceHandle replacement, _, _, _⟩ => some replacement
  | _ => none

/-- The tokens of a line, with each name that has a replacement replaced by that in
parentheses. -/
def replaceTokens (expand : Bstring → List Char) : List (Token Unit Char) → List Char
  | [] => []
  | t :: ts =>
    match ppparamLexer.act t with
    | some .terminate => (t :: ts).flatMap (·.text)
    | some (.returns (.expr (.word name))) =>
      match replacementOf handlers name with
      | some replacement => '(' :: expand replacement ++ ')' :: replaceTokens expand ts
      | none => t.text ++ replaceTokens expand ts
    | _ => t.text ++ replaceTokens expand ts

/-- The text with its names replaced, and the names in their replacements, so many deep. -/
def replaceNames : (depth : ℕ) → List Char → List Char
  | 0, text => text
  | depth + 1, text =>
    replaceTokens handlers (replaceNames depth)
      (tokens ppparamLexer.toRules text.length () text)

/-- **The value that a condition should have**: that of the expression with its names replaced.
Without cycles, no name is deeper than there are handlers. -/
def replacedValue (text : List Char) : Option Word :=
  match Parameters.expression (ppparamRead (replaceNames handlers handlers.length text)) with
  | some (e, []) => (e.evaluate fun _ => none).toOption
  | _ => none

end Names

/-! ### No name has a value -/

/-- **What is scanned is no expression**, whatever the capacity of the string: it is a single
character that begins no token, or there is none. -/
theorem exprParse_scannedText {mlen k : ℕ} (hk : 3 ≤ k) (hmlen : mlen = 2 ^ k) :
    exprParse (scannedText mlen) = none := by
  subst hmlen
  rcases Nat.lt_or_ge k 8 with hlt | hge
  · interval_cases k <;> decide +kernel
  · -- the lowest byte is zero
    have hbyte : 2 ^ k % 256 = 0 :=
      Nat.mod_eq_zero_of_dvd (pow_dvd_pow 2 hge)
    have hnil : scannedText (2 ^ k) = [] := by
      rw [scannedText, intBytes, hbyte]
      rfl
    rw [hnil]
    decide +kernel

/-- The capacity of a string is a power of two, at least eight. -/
def Snapped (mlen : Match → ℕ) : Prop := ∀ m, ∃ k, 3 ≤ k ∧ mlen m = 2 ^ k

theorem ifDefineReplace_toOption {mlen : Match → ℕ} (hmlen : Snapped mlen) (handlers : List Match)
    (depth : ℕ) (name : String) : (ifDefineReplace mlen handlers depth name).toOption = none := by
  cases depth with
  | zero => rfl
  | succ depth =>
    rw [ifDefineReplace]
    split
    · rfl
    · rename_i m _
      obtain ⟨k, hk, hm⟩ := hmlen m
      split
      · rfl
      · rw [exprParse_scannedText hk hm]
        rfl

/-! ### The labels of a condition -/

/-- What the rules of the grammar of parameters allow in an expression. -/
def Parameters.Allows : Precedence.Item ExprAtom Terminal → Prop
  | .atom (.address _) | .atom (.word _) | .opening | .closing => True
  | .atom _ => False
  | .unary p => p ∈ Parameters.unaries
  | .binary p => p ∈ Parameters.binaries

/-- **The parts of an expression are the tokens** up to where it ends. -/
theorem Parameters.scanExpr_sound {n : ℕ} {b : Bool} {ts rest : List LexToken}
    {items : List (Precedence.Item ExprAtom Terminal)} (h : scanExpr n b ts = some (items, rest)) :
    ts = (items.flatMap itemTokens).map .expr ++ rest ∧ ∀ i ∈ items, Allows i := by
  have hcons : ∀ (i : Precedence.Item ExprAtom Terminal) {n : ℕ} {b : Bool} {ts : List LexToken}
      {t : ExprToken} {items : List (Precedence.Item ExprAtom Terminal)},
      (∀ {items}, scanExpr n b ts = some (items, rest) →
        ts = (items.flatMap itemTokens).map .expr ++ rest ∧ ∀ i ∈ items, Allows i) →
      itemTokens i = [t] → Allows i →
      (scanExpr n b ts).map (Prod.map (i :: ·) id) = some (items, rest) →
      .expr t :: ts = (items.flatMap itemTokens).map .expr ++ rest ∧ ∀ i ∈ items, Allows i := by
    intro i n b ts t items ih hi hallows h
    obtain ⟨⟨items', rest'⟩, hscan, heq⟩ := Option.map_eq_some_iff.mp h
    obtain ⟨rfl, rfl⟩ := Prod.mk.inj heq
    obtain ⟨htext, hall⟩ := ih hscan
    refine ⟨?_, List.forall_mem_cons.mpr ⟨hallows, hall⟩⟩
    rw [List.flatMap_cons, hi]
    exact congrArg (LexToken.expr t :: ·) htext
  fun_induction scanExpr n b ts generalizing items with
  | case1 n k ts ih => exact hcons (.atom (.address k)) ih rfl trivial h
  | case2 n w ts ih => exact hcons (.atom (.word w)) ih rfl trivial h
  | case3 n ts ih => exact hcons .opening ih rfl trivial h
  | case4 n p ts _ hp ih => exact hcons (.unary p) ih rfl hp h
  | case5 | case6 => cases h
  | case7 p ts hp ih => exact hcons (.binary p) ih rfl hp h
  | case8 | case9 =>
    cases h
    exact ⟨rfl, fun i hi => absurd hi List.not_mem_nil⟩
  | case10 n ts ih => exact hcons .closing ih rfl trivial h
  | case11 n p ts _ hp ih => exact hcons (.binary p) ih rfl hp h
  | case12 | case13 => cases h

/-- An expression whose parts all have a value where it has one. -/
def Expr.Strict : Expr → Prop
  | number _ | label _ => True
  | booleanNot b => b.Strict
  | expr a op b => op ∉ [ExprOp.invalid, .booleanAnd, .booleanOr] ∧ a.Strict ∧ b.Strict

/-- An expression with a label that is not replaced has no value. -/
theorem Expr.Strict.evaluate_error {e : Expr} (he : e.Strict)
    {labelreplace : String → Option (BitVec 16)} {name : String} (hname : name ∈ e.labels)
    (hnone : labelreplace name = none) : ∃ err, e.evaluate labelreplace = .error err := by
  induction e with
  | number val => cases hname
  | label name' =>
    obtain rfl := List.mem_singleton.mp hname
    exact ⟨.labelNotFound name, by rw [Expr.evaluate, hnone]⟩
  | booleanNot b ih =>
    obtain ⟨err, herr⟩ := ih he hname
    exact ⟨err, by rw [Expr.evaluate, herr]; rfl⟩
  | expr a op b iha ihb =>
    obtain ⟨hop, ha, hb⟩ := he
    -- one operand has no value, and whether the other has one does not matter
    have hoperand : (∃ err, a.evaluate labelreplace = .error err) ∨
        ∃ err, b.evaluate labelreplace = .error err :=
      (List.mem_append.mp hname).imp (iha ha) (ihb hb)
    rcases hoperand with ⟨err, herr⟩ | ⟨err, herr⟩
    · cases op
      case invalid | booleanAnd | booleanOr => exact absurd hop (by decide)
      case divide | modulus =>
        simp only [Expr.evaluate, herr]
        rcases b.evaluate labelreplace with err' | y
        · exact ⟨err', rfl⟩
        · by_cases hy : y = 0
          · exact ⟨.divideByZero b, if_pos hy⟩
          · exact ⟨err, if_neg hy⟩
      all_goals
        simp only [Expr.evaluate, herr]
        exact ⟨err, rfl⟩
    · cases op
      case invalid | booleanAnd | booleanOr => exact absurd hop (by decide)
      case divide | modulus =>
        simp only [Expr.evaluate, herr]
        exact ⟨err, rfl⟩
      all_goals
        simp only [Expr.evaluate, herr]
        rcases a.evaluate labelreplace with err' | x
        · exact ⟨err', rfl⟩
        · exact ⟨err, rfl⟩

/-- An expression of the grammar of parameters: what its labels are, and that it has no value if
one of them has none. -/
theorem labels_expr {t : ExprTree} (h : ∀ i ∈ t.flatten, Parameters.Allows i) :
    (ExprTree.expr "" t).Strict ∧
      ∀ name, name ∈ (ExprTree.expr "" t).labels ↔ .atom (.word name) ∈ t.flatten := by
  induction t with
  | atom a =>
    have ha : Parameters.Allows (.atom a) := h _ (List.mem_singleton_self _)
    cases a with
    | address n => exact ⟨trivial, fun name => by simp [ExprTree.expr, ExprAtom.expr, Expr.labels,
        Tree.flatten]⟩
    | word w => exact ⟨trivial, fun name => by simp [ExprTree.expr, ExprAtom.expr, Expr.labels,
        Tree.flatten]⟩
    | character | localLabel | xorWord => exact ha.elim
  | group t ih =>
    obtain ⟨hstrict, hlabels⟩ := ih fun i hi => h i (by simp [Tree.flatten, hi])
    exact ⟨hstrict, fun name => by simp [ExprTree.expr, Tree.flatten, hlabels]⟩
  | unary p t ih =>
    obtain ⟨hstrict, hlabels⟩ := ih fun i hi => h i (List.mem_cons_of_mem _ hi)
    have hp : p ∈ Parameters.unaries := h _ List.mem_cons_self
    simp only [Parameters.unaries, List.mem_cons, List.not_mem_nil, or_false] at hp
    rcases hp with rfl | rfl
    · exact ⟨⟨by decide, trivial, hstrict⟩, fun name => by
        simp [ExprTree.expr, Expr.labels, Tree.flatten, hlabels]⟩
    · exact ⟨⟨by decide, trivial, hstrict⟩, fun name => by
        simp [ExprTree.expr, Expr.labels, Tree.flatten, hlabels]⟩
  | binary l p r ihl ihr =>
    obtain ⟨hl, hllabels⟩ := ihl fun i hi => h i (by simp [Tree.flatten, hi])
    obtain ⟨hr, hrlabels⟩ := ihr fun i hi => h i (by simp [Tree.flatten, hi])
    have hp : p ∈ Parameters.binaries := h (.binary p) (by simp [Tree.flatten])
    refine ⟨⟨?_, hl, hr⟩, fun name => by
      simp [ExprTree.expr, Expr.labels, Tree.flatten, hllabels, hrlabels]⟩
    revert hp
    cases p <;> decide

/-- **An expression is made of the tokens** that it takes up, and its labels are the names among
them. -/
theorem Parameters.expression_sound {ts rest : List LexToken} {e : Expr}
    (h : expression ts = some (e, rest)) :
    ∃ toks : List ExprToken, ts = toks.map .expr ++ rest ∧ e.Strict ∧
      ∀ name, name ∈ e.labels ↔ .word name ∈ toks := by
  obtain ⟨⟨items, rest'⟩, hscan, htree⟩ := Option.bind_eq_some_iff.mp h
  obtain ⟨t, hparse, heq⟩ := Option.map_eq_some_iff.mp htree
  obtain ⟨rfl, rfl⟩ := Prod.mk.inj heq
  obtain ⟨rfl, -⟩ := parse_eq_some_iff.mp hparse
  obtain ⟨htext, hallows⟩ := scanExpr_sound hscan
  obtain ⟨hstrict, hlabels⟩ := labels_expr hallows
  refine ⟨_, htext, hstrict, fun name => (hlabels name).trans ?_⟩
  rw [List.mem_flatMap]
  constructor
  · intro hmem
    exact ⟨_, hmem, List.mem_singleton_self _⟩
  · rintro ⟨i, hi, hname⟩
    have hi' := hallows i hi
    -- only the part that is a name has a name for a token
    rcases i with (n | w | s | s | w) | p | p | - | - <;> simp [itemTokens] at hname
    · exact hname ▸ hi
    · exact hi'.elim

/-! ### Conditions without names -/

/-- The first operand of an expression is read as a parameter by itself. -/
def Splits : List LexToken → Bool
  | .expr (.address _) :: ts | .expr (.word _) :: ts => Parameters.mayFollow ts
  | _ => false

section Tokens

variable {handlers : List Match} {expand : Bstring → List Char}

/-- Without names there is nothing to replace. -/
theorem replaceTokens_of_no_words {ts : List (Token Unit Char)}
    (h : ∀ name, .expr (.word name) ∉ returned (ts.map ppparamLexer.act)) :
    replaceTokens handlers expand ts = ts.flatMap (·.text) := by
  induction ts with
  | nil => rfl
  | cons t ts ih =>
    rw [replaceTokens]
    rw [List.map_cons] at h
    split
    · rfl
    · rename_i name hact
      rw [hact] at h
      exact absurd List.mem_cons_self (h name)
    · rename_i hterminate hword
      rw [List.flatMap_cons, ih fun name hmem => h name ?_]
      rcases hact : ppparamLexer.act t with - | (- | token | -)
      · exact hmem
      · exact hmem
      · exact List.mem_cons_of_mem _ hmem
      · exact absurd hact hterminate

theorem replaceNames_of_no_words {text : List Char}
    (h : ∀ name, .expr (.word name) ∉ ppparamRead text) (depth : ℕ) :
    replaceNames handlers depth text = text := by
  cases depth with
  | zero => rfl
  | succ depth =>
    rw [replaceNames, replaceTokens_of_no_words h]
    exact flatMap_text_tokens _ _ _ le_rfl

end Tokens

/-- **What the parameters are where all of them is an expression**: the expression, unless its
first operand is read as a parameter by itself. -/
theorem ppparamGet_of_expression {text : List Char} {e : Expr}
    (he : Parameters.expression (ppparamRead text) = some (e, [])) :
    ppparamGet text = [.expression e] ∧ Splits (ppparamRead text) = false ∨
      (∀ e', ppparamGet text ≠ [.expression e']) ∧ Splits (ppparamRead text) = true := by
  rw [ppparamGet]
  generalize ppparamRead text = ts at he
  cases ts with
  | nil => cases he
  | cons t ts =>
    have hend : ∀ fuel, Parameters.parameters fuel [] = [] := fun fuel => by cases fuel <;> rfl
    -- whatever is no operand by itself is the beginning of the expression
    have hrest : Parameters.parameter (t :: ts) = some (.expression e, []) →
        Parameters.parameters (t :: ts).length (t :: ts) = [.expression e] := by
      intro h
      rw [List.length_cons, Parameters.parameters, h]
      exact congrArg (PpParameter.expression e :: ·) (hend _)
    cases t with
    | string | other => cases he
    | expr token =>
      cases token with
      | address n =>
        rcases hfollow : Parameters.mayFollow ts with - | -
        · refine .inl ⟨hrest ?_, hfollow⟩
          rw [Parameters.parameter, hfollow, he]
          rfl
        · refine .inr ⟨fun e' => ?_, hfollow⟩
          rw [List.length_cons, Parameters.parameters, Parameters.parameter, hfollow]
          exact nofun
      | word w =>
        rcases hfollow : Parameters.mayFollow ts with - | -
        · refine .inl ⟨hrest ?_, hfollow⟩
          rw [Parameters.parameter, hfollow, he]
          rfl
        · refine .inr ⟨fun e' => ?_, hfollow⟩
          rw [List.length_cons, Parameters.parameters, Parameters.parameter, hfollow]
          exact nofun
      | character | localLabel => cases he
      | op p =>
        refine .inl ⟨hrest ?_, rfl⟩
        rw [Parameters.parameter, he]
        · rfl
        · exact nofun
        · exact nofun
        · exact nofun

/-! ### The value of a condition -/

/-- **A condition has the value of its text with the names replaced** exactly if it has no names
and its first operand is not read as a parameter by itself, or there is no such value. -/
theorem ifCondition_iff {mlen : Match → ℕ} (hmlen : Snapped mlen) (handlers : List Match)
    (l : Language) (depth : ℕ) {text : List Char} {e : Expr}
    (he : Parameters.expression (ppparamRead text) = some (e, [])) :
    (ifCondition mlen handlers l depth text).toOption = replacedValue handlers text ↔
      (e.labels = [] ∧ Splits (ppparamRead text) = false) ∨ replacedValue handlers text = none := by
  obtain ⟨toks, htext, hstrict, hlabels⟩ := Parameters.expression_sound he
  rw [List.append_nil] at htext
  have hreplace : (fun name => (ifDefineReplace mlen handlers depth name).toOption) =
      fun _ => none :=
    funext fun name => ifDefineReplace_toOption hmlen handlers depth name
  rcases ppparamGet_of_expression he with ⟨hget, hsplits⟩ | ⟨hget, hsplits⟩
  · unfold ifCondition
    rw [hget]
    dsimp only
    rcases List.eq_nil_or_concat e.labels with hnil | ⟨init, name, hconcat⟩
    · -- without names there is nothing to replace and nothing to look up
      refine iff_of_true ?_ (.inl ⟨hnil, hsplits⟩)
      have hwords : ∀ name, .expr (.word name) ∉ ppparamRead text := by
        intro name hmem
        rw [htext, List.mem_map] at hmem
        obtain ⟨tok, htok, heq⟩ := hmem
        obtain rfl := LexToken.expr.inj heq
        have hlabel := (hlabels name).mpr htok
        rw [hnil] at hlabel
        cases hlabel
      rw [replacedValue, replaceNames_of_no_words hwords, he, evaluateWith, hreplace]
      dsimp only
      rcases hvalue : e.evaluate fun _ => none with (name | divisor | -) | value
      · have hlabel := Expr.mem_labels_of_evaluate hvalue
        rw [hnil] at hlabel
        cases hlabel
      · rfl
      · rfl
      · rfl
    · -- every name is refused, and the evaluation is strict in its operands
      have hname : name ∈ e.labels := by rw [hconcat]; simp
      have hnone : (evaluateWith (ifDefineReplace mlen handlers depth) e).toOption = none := by
        obtain ⟨err, herr⟩ : ∃ err, e.evaluate (fun _ => none) = .error err :=
          hstrict.evaluate_error hname rfl
        rw [evaluateWith, hreplace, herr]
        cases err with
        | labelNotFound name' => exact ifDefineReplace_toOption hmlen handlers depth name'
        | divideByZero | undefinedShift => rfl
      have hne : e.labels ≠ [] := List.ne_nil_of_mem hname
      rw [hnone]
      exact ⟨fun h => .inr h.symm, fun h => (h.resolve_left fun h => hne h.1).symm⟩
  · -- the parameters are not one expression
    have hnone : (ifCondition mlen handlers l depth text).toOption = none := by
      unfold ifCondition
      split
      · rename_i e' he'
        exact absurd he' (hget e')
      · rfl
    rw [hnone, hsplits]
    exact ⟨fun h => .inr h.symm, fun h => (h.resolve_left fun h => by cases h.2).symm⟩

/-- A definition of `A`. -/
def handlerOfA : Match := ⟨['A'], .replaceHandle ['5'], false, true, false⟩

/-- A condition without names, where a name is defined. -/
theorem ifCondition_sum :
    (ifCondition (fun _ => 8) [handlerOfA] .asm 2 "2 + 3\n".toList).toOption =
        replacedValue [handlerOfA] "2 + 3\n".toList ↔
      ((Expr.expr (.number 2) .add (.number 3)).labels = [] ∧
          Splits (ppparamRead "2 + 3\n".toList) = false) ∨
        replacedValue [handlerOfA] "2 + 3\n".toList = none :=
  ifCondition_iff (fun _ => ⟨3, le_rfl, rfl⟩) [handlerOfA] .asm 2 (by decide +kernel)

/-- A name that is defined has no value in a condition. -/
theorem not_forall_ifCondition :
    ¬ ∀ (mlen : Match → ℕ) (handlers : List Match) (l : Language) (depth : ℕ) (text : List Char)
      (e : Expr), Snapped mlen → handlers.length < depth →
        Parameters.expression (ppparamRead text) = some (e, []) →
          (ifCondition mlen handlers l depth text).toOption = replacedValue handlers text := by
  intro h
  have hvalue := h (fun _ => 8) [handlerOfA] .asm 2
    "A + 1\n".toList (.expr (.label "A") .add (.number 1)) (fun _ => ⟨3, le_rfl, rfl⟩)
    (by decide) (by decide +kernel)
  revert hvalue
  decide +kernel

end DcpuToolchain
