import DcpuToolchain.Expr.Evaluate
import Mathlib.Data.List.Range

/-!
# Expressions printed and read again

`expr_representation` and `expr_delete` (`libdcpu-pp-expr/ppexpr.c`), and `expr_parse` on what is
printed.

Everything but numbers and labels is printed in parentheses, so that precedences do not matter. But
the shifts and the boolean operations have no text of their own, and the operation with one operand
has no first one to print or delete: `DcpuToolchain.exprRepresentation_iff` says that the
expressions without these, and no others, are read again as they were.
-/

namespace DcpuToolchain

open Precedence Scanner

/-- The operation in the text of an expression. -/
def ExprOp.representation : ExprOp → String
  | add => "+"
  | subtract => "-"
  | multiply => "*"
  | divide => "/"
  | modulus => "%"
  | equals => "=="
  | notEquals => "!="
  | lessThan => "<"
  | lessEquals => "<="
  | greaterThan => ">"
  | greaterEquals => ">="
  | and => "&"
  | bor => "|"
  | xor => "^"
  | _ => "???"

/-- `expr_representation`. There is none where the operand that an operation does not have is
dereferenced. -/
def exprRepresentation : Expr → Option (List Char)
  | .number val => some (Nat.toDigits 10 val.toNat)
  | .label name => some name.toList
  | .booleanNot _ => none
  | .expr a op b => do
    let a ← exprRepresentation a
    let b ← exprRepresentation b
    return '(' :: a ++ ' ' :: op.representation.toList ++ ' ' :: b ++ [')']

/-- `expr_delete`. -/
def exprDelete : Expr → Option Unit
  | .number _ | .label _ => some ()
  | .booleanNot _ => none
  | .expr a _ b => do
    exprDelete a
    exprDelete b

/-- The operations that have no text of their own. -/
def unnamedOps : List ExprOp :=
  [.invalid, .booleanAnd, .booleanOr, .booleanXor, .leftShift, .rightShift]

namespace Expr

/-- There is no operation in an expression that has no text of its own, or no first operand. -/
def Printable : Expr → Prop
  | number _ | label _ => True
  | booleanNot _ => False
  | expr a op b => a.Printable ∧ op ∉ unnamedOps ∧ b.Printable

/-- **What is to hold of an expression**: it has a text, and can be deleted, and the text is read as
an expression with the same values. -/
structure RoundTrips (e : Expr) : Prop where
  delete : exprDelete e = some ()
  parse : ∃ text, exprRepresentation e = some text ∧ ∃ e', exprParse text = some e' ∧
    ∀ labelreplace, e'.evaluate labelreplace = e.evaluate labelreplace

end Expr

/-! ### Characters -/

/-- The characters between two, one by one. -/
def between (lo hi : Char) : List Char :=
  (List.range' lo.toNat (hi.toNat + 1 - lo.toNat)).map Char.ofNat

theorem mem_between {lo hi c : Char} (h : range lo hi c = true) : c ∈ between lo hi := by
  obtain ⟨hlo, hhi⟩ := of_decide_eq_true h
  rw [Char.le_def, UInt32.le_iff_toNat_le] at hlo hhi
  refine List.mem_map.mpr ⟨c.toNat, ?_, Char.ofNat_toNat c⟩
  rw [List.mem_range'_1]
  change lo.toNat ≤ c.toNat at hlo
  change c.toNat ≤ hi.toNat at hhi
  omega

/-- A digit as `Nat.toDigits` gives it. -/
theorem range_of_isDigit {c : Char} (h : c.isDigit = true) : range '0' '9' c = true := by
  obtain ⟨hlo, hhi⟩ := Bool.and_eq_true_iff.mp h
  exact decide_eq_true ⟨of_decide_eq_true hlo, of_decide_eq_true hhi⟩

/-- `[A-Za-z_]+[A-Za-z0-9_-]*`. -/
def labelRegex : Regex Char := .seq letter.plus (.star (.alt wordChar (.sym '-')))

/-- What a label begins with. -/
def labelFirsts : List Char := between 'A' 'Z' ++ between 'a' 'z' ++ ['_']

/-- What the text of an expression begins with. -/
def exprFirsts : List Char := '(' :: between '0' '9' ++ labelFirsts

/-- What follows the text of an expression in a longer one. -/
def exprFollows : List Char := [' ', ')']

theorem label_ne_nil {w : List Char} (h : labelRegex.Matches w) : w ≠ [] := by
  rintro rfl
  exact absurd (Regex.nullable_of_matches h) (by decide)

/-- A label begins with a letter. -/
theorem mem_labelFirsts {c : Char} {u : List Char} (h : labelRegex.Matches (c :: u)) :
    c ∈ labelFirsts := by
  by_cases hletter : (range 'A' 'Z' c || range 'a' 'z' c || c = '_') = true
  · rw [Bool.or_eq_true, Bool.or_eq_true] at hletter
    rcases hletter with (hupper | hlower) | hunderscore
    · exact List.mem_append_left _ (List.mem_append_left _ (mem_between hupper))
    · exact List.mem_append_left _ (List.mem_append_right _ (mem_between hlower))
    · rw [of_decide_eq_true hunderscore]
      exact List.mem_append_right _ List.mem_cons_self
  · have hvoid : (labelRegex.deriv c).void = true := by
      simp only [labelRegex, Regex.plus, letter, Regex.deriv, if_neg hletter, Regex.nullable,
        Bool.false_and, Bool.false_eq_true, if_false, Regex.void, Bool.true_or]
    exact absurd (Regex.deriv_matches h) (Regex.not_matches_of_void hvoid)

/-! ### Tokens -/

/-- No token that begins with the first character reaches the second one. -/
def Parts (c d : Char) : Prop :=
  ∀ rule ∈ ppexprLexer.toRules, ((rule.regex.deriv c).void || (rule.regex.deriv c).avoids d) = true

instance (c d : Char) : Decidable (Parts c d) :=
  inferInstanceAs (Decidable (∀ rule ∈ ppexprLexer.toRules, _))

/-- No token that begins with one of these characters reaches one of those. -/
def PartsAll (l l' : List Char) : Prop := ∀ c ∈ l, ∀ d ∈ l', Parts c d

/-- Only the characters of the lists are looked at. -/
instance (l l' : List Char) : Decidable (PartsAll l l') :=
  @List.decidableBAll _ _ (fun c => List.decidableBAll (Parts c) l') l

section Tokens

variable {c : Char} {u v : List Char} {t : LexToken}

/-- A token is read before what it does not reach. -/
theorem ppexprLexer_read (hmatch : ∃ rule ∈ ppexprLexer.toRules, rule.regex.Matches (c :: u))
    (hparts : ∀ d ∈ v.head?, Parts c d) :
    ppexprLexer.read () (c :: u ++ v) =
      ppexprLexer.act ⟨(), c :: u, ()⟩ :: ppexprLexer.read () v := by
  have halways : ∀ rule ∈ ppexprLexer.toRules, () ∈ rule.conditions ∧ rule.begins = none := by
    decide
  obtain ⟨rule, hmem, hword⟩ := hmatch
  refine Lexer.read_append ⟨rule, hmem, (halways rule hmem).1, hword⟩ ?_
    fun rule hmem _ _ => (halways rule hmem).2
  intro rule hmem _
  cases v with
  | nil => exact Regex.stops_nil _ _
  | cons d v => exact Regex.stops_of_avoids _ _ (hparts d rfl rule hmem)

/-- A token that is returned. -/
theorem ppexprRead_cons (hmatch : ∃ rule ∈ ppexprLexer.toRules, rule.regex.Matches (c :: u))
    (hparts : ∀ d ∈ v.head?, Parts c d)
    (hact : ppexprLexer.act ⟨(), c :: u, ()⟩ = some (.returns t)) :
    ppexprRead (c :: u ++ v) = t :: ppexprRead v := by
  rw [ppexprRead, ppexprLexer_read hmatch hparts, hact]
  rfl

/-- What a token may begin with after a blank: an operand, an operation, or the text of one that
has none. -/
def blankFollows : List Char := exprFirsts ++ "+-*/%=!<>&|^?".toList

/-- A blank is passed by. -/
theorem ppexprRead_blank (h : ∀ d ∈ v.head?, d ∈ blankFollows) :
    ppexprRead (' ' :: v) = ppexprRead v := by
  have hparts : PartsAll [' '] blankFollows := by decide +kernel
  have hmatch : ∃ rule ∈ ppexprLexer.toRules, rule.regex.Matches [' '] := by
    refine ⟨_, List.mem_of_getElem? (i := 27) rfl, ?_⟩
    exact Regex.matches_plus_cls (List.cons_ne_nil _ _) (List.forall_mem_singleton.mpr (by decide))
  have hact : ppexprLexer.act ⟨(), [' '], ()⟩ = some .skip := by decide +kernel
  have hread := ppexprLexer_read (u := []) hmatch fun d hd =>
    hparts ' ' List.mem_cons_self d (h d hd)
  rw [List.singleton_append, hact] at hread
  rw [ppexprRead, hread]
  rfl

/-- A question mark is passed by. -/
theorem ppexprRead_question : ppexprRead ('?' :: v) = ppexprRead v := by
  have hvoid : ∀ rule ∈ ppexprLexer.toRules, (rule.regex.deriv '?').void = true := by decide
  rw [ppexprRead, Lexer.read_cons_of_void hvoid]
  rfl

theorem ppexprRead_opening {d : Char} (h : d ∈ exprFirsts) :
    ppexprRead ('(' :: d :: v) = .expr (.op .parenOpen) :: ppexprRead (d :: v) := by
  have hparts : PartsAll ['('] exprFirsts := by decide +kernel
  have hmatch : ∃ rule ∈ ppexprLexer.toRules, rule.regex.Matches ['('] :=
    ⟨_, List.mem_cons_self, Regex.matches_of_longest (w := ['(']) (n := 1) (by decide)⟩
  refine ppexprRead_cons (u := []) hmatch ?_ (by decide +kernel)
  rintro _ ⟨⟩
  exact hparts '(' List.mem_cons_self d h

theorem ppexprRead_closing (hv : ∀ d ∈ v.head?, d ∈ exprFollows) :
    ppexprRead (')' :: v) = .expr (.op .parenClose) :: ppexprRead v := by
  have hparts : PartsAll [')'] exprFollows := by decide +kernel
  have hmatch : ∃ rule ∈ ppexprLexer.toRules, rule.regex.Matches [')'] :=
    ⟨_, List.mem_cons_of_mem _ List.mem_cons_self,
      Regex.matches_of_longest (w := [')']) (n := 1) (by decide)⟩
  exact ppexprRead_cons (u := []) hmatch (fun d hd => hparts ')' List.mem_cons_self d (hv d hd))
    (by decide +kernel)

/-- A number is read as it was printed. -/
theorem ppexprRead_number {n : ℕ} (hn : n < 2 ^ 64) (hv : ∀ d ∈ v.head?, d ∈ exprFollows) :
    ppexprRead (Nat.toDigits 10 n ++ v) = .expr (.address n) :: ppexprRead v := by
  have hdigits : ∀ c ∈ Nat.toDigits 10 n, range '0' '9' c = true := fun c hc =>
    range_of_isDigit (Nat.isDigit_of_mem_toDigits (by decide) le_rfl hc)
  have hvalue : numeralValue 10 (Nat.toDigits 10 n) = n := by
    have hfold := Nat.ofDigitChars_ten_toDigits (n := n)
    rw [Nat.ofDigitChars_eq_foldl] at hfold
    rw [numeralValue]
    conv_rhs => rw [← hfold]
    refine List.foldl_ext _ _ _ fun a c hc => ?_
    rw [numeralDigit, if_pos (hdigits c hc)]
  obtain ⟨c, u, htext⟩ := List.exists_cons_of_ne_nil (Nat.toDigits_ne_nil (b := 10) (n := n))
  have hrule : digit.plus.Matches (c :: u) := by
    rw [← htext]
    exact Regex.matches_plus_cls (htext ▸ List.cons_ne_nil _ _) hdigits
  rw [htext] at hdigits hvalue ⊢
  have hc := mem_between (hdigits c List.mem_cons_self)
  have hbefore : ∀ r ∈ ppexprLexer.take 26, ¬ r.1.regex.Matches (c :: u) := by
    have hvoid : ∀ r ∈ ppexprLexer.take 24,
        ((between '0' '9').all fun c => (r.1.regex.deriv c).void) = true := by decide +kernel
    have hletter : ∀ r ∈ (ppexprLexer.take 26).drop 24,
        (r.1.regex.requires 'b' || r.1.regex.requires 'x') = true := by decide
    intro r hr hword
    rw [← List.take_append_drop 24 (ppexprLexer.take 26), List.take_take, List.mem_append] at hr
    rcases hr with hr | hr
    · exact Regex.not_matches_of_void (List.all_eq_true.mp (hvoid r hr) c hc)
        (Regex.deriv_matches hword)
    · rcases Bool.or_eq_true_iff.mp (hletter r hr) with hb | hx
      · exact absurd (hdigits 'b' (hword.mem hb)) (by decide)
      · exact absurd (hdigits 'x' (hword.mem hx)) (by decide)
  have hact : ppexprLexer.act ⟨(), c :: u, ()⟩ = some (.returns (.expr (.address n))) := by
    have hsplit : ppexprLexer = ppexprLexer.take 26 ++
        (⟨[()], digit.plus, none⟩, returnNumber 0 10) :: ppexprLexer.drop 27 := rfl
    rw [hsplit, Lexer.act_eq (List.cons_ne_nil _ _) ⟨List.mem_cons_self, hrule⟩ hbefore,
      returnNumber, List.drop_zero, strtoulDigits, hvalue, Nat.min_eq_left (by omega)]
  have hparts : PartsAll (between '0' '9') exprFollows := by decide +kernel
  exact ppexprRead_cons ⟨_, List.mem_of_getElem? (i := 26) rfl, hrule⟩
    (fun d hd => hparts c hc d (hv d hd)) hact

/-- A label is read as it was printed. -/
theorem ppexprRead_label {name : String} (hname : labelRegex.Matches name.toList)
    (hv : ∀ d ∈ v.head?, d ∈ exprFollows) :
    ppexprRead (name.toList ++ v) = .expr (.word name) :: ppexprRead v := by
  have hne := label_ne_nil hname
  obtain ⟨c, u, htext⟩ := List.exists_cons_of_ne_nil hne
  have hword : String.ofList (c :: u) = name := by rw [← htext, String.ofList_toList]
  rw [htext] at hname ⊢
  have hc := mem_labelFirsts hname
  have hbefore : ∀ r ∈ ppexprLexer.take 23, ¬ r.1.regex.Matches (c :: u) := by
    have hvoid : ∀ r ∈ ppexprLexer.take 23,
        (labelFirsts.all fun c => (r.1.regex.deriv c).void) = true := by decide +kernel
    exact fun r hr hword => Regex.not_matches_of_void (List.all_eq_true.mp (hvoid r hr) c hc)
      (Regex.deriv_matches hword)
  have hact : ppexprLexer.act ⟨(), c :: u, ()⟩ = some (.returns (.expr (.word name))) := by
    have hsplit : ppexprLexer = ppexprLexer.take 23 ++
        (⟨[()], labelRegex, none⟩, returnWord) :: ppexprLexer.drop 24 := rfl
    rw [hsplit, Lexer.act_eq (List.cons_ne_nil _ _) ⟨List.mem_cons_self, hname⟩ hbefore,
      returnWord, hword]
  have hparts : PartsAll labelFirsts exprFollows := by decide +kernel
  exact ppexprRead_cons ⟨_, List.mem_of_getElem? (i := 23) rfl, hname⟩
    (fun d hd => hparts c hc d (hv d hd)) hact

end Tokens

/-! ### Operations -/

/-- The token of the text of an operation, if it has one of its own. -/
def ExprOp.terminal : ExprOp → Option Terminal
  | add => some .add
  | subtract => some .subtract
  | multiply => some .multiply
  | divide => some .divide
  | modulus => some .modulus
  | equals => some .equals
  | notEquals => some .notEquals
  | lessThan => some .lessThan
  | lessEquals => some .lessEquals
  | greaterThan => some .greaterThan
  | greaterEquals => some .greaterEquals
  | and => some .bitwiseAnd
  | bor => some .bitwiseBor
  | xor => some .bitwiseXor
  | _ => none

namespace ExprOp

theorem terminal_eq_none_iff (op : ExprOp) : op.terminal = none ↔ op ∈ unnamedOps := by
  cases op <;> decide

theorem terminal_binary {op : ExprOp} {t : Terminal} (h : op.terminal = some t) :
    t ∈ Grammar.ppExpr.binaries ∧ t.exprOp = op := by
  cases op <;> cases h <;> exact ⟨by decide, rfl⟩

/-- The text of an operation without a token. -/
theorem representation_of_terminal {op : ExprOp} (h : op.terminal = none) :
    op.representation = "???" := by
  cases op <;> first | rfl | cases h

/-- An operation is read as it was printed; if it has no text of its own, nothing is read. -/
theorem ppexprRead_representation (op : ExprOp) {d : Char} (hd : d ∈ exprFirsts) (v : List Char) :
    ppexprRead (' ' :: (op.representation.toList ++ ' ' :: d :: v)) =
      op.terminal.toList.map (.expr <| .op ·) ++ ppexprRead (d :: v) := by
  have hblank : ppexprRead (' ' :: d :: v) = ppexprRead (d :: v) := by
    refine ppexprRead_blank ?_
    rintro _ ⟨⟩
    exact List.mem_append_left _ hd
  rcases hterminal : op.terminal with - | t
  · rw [representation_of_terminal hterminal]
    have hfirst : ppexprRead (' ' :: ("???".toList ++ ' ' :: d :: v)) =
        ppexprRead ("???".toList ++ ' ' :: d :: v) := ppexprRead_blank (by rintro _ ⟨⟩; decide)
    rw [hfirst]
    change ppexprRead ('?' :: '?' :: '?' :: ' ' :: d :: v) = _
    rw [ppexprRead_question, ppexprRead_question, ppexprRead_question, hblank]
    rfl
  · obtain ⟨c, u, htext, hc, hword, hparts, hact⟩ : ∃ c u, op.representation.toList = c :: u ∧
        c ∈ blankFollows ∧
        (∃ rule ∈ ppexprLexer.toRules, rule.regex.longest (c :: u) = some (c :: u).length) ∧
        Parts c ' ' ∧ ppexprLexer.act ⟨(), c :: u, ()⟩ = some (.returns (.expr (.op t))) := by
      cases op <;> cases hterminal <;>
        exact ⟨_, _, rfl, by decide +kernel, by decide +kernel, by decide +kernel,
          by decide +kernel⟩
    obtain ⟨rule, hmem, hlongest⟩ := hword
    have hmatch := Regex.matches_of_longest hlongest
    rw [List.take_length] at hmatch
    rw [htext, ppexprRead_blank (by rintro _ ⟨⟩; exact hc),
      ppexprRead_cons ⟨rule, hmem, hmatch⟩ (by rintro _ ⟨⟩; exact hparts) hact, hblank]
    rfl

end ExprOp

/-! ### Expressions -/

namespace Expr

/-- The labels of an expression are labels to the lexer. -/
def Labelled (e : Expr) : Prop := ∀ name ∈ e.labels, labelRegex.Matches name.toList

theorem labelled_expr {a b : Expr} {op : ExprOp} :
    (expr a op b).Labelled ↔ a.Labelled ∧ b.Labelled := List.forall_mem_append

/-- The tokens of what is printed. -/
def printedTokens : Expr → List ExprToken
  | number val => [.address val.toNat]
  | label name => [.word name]
  | booleanNot _ => []
  | expr a op b =>
    .op .parenOpen :: (a.printedTokens ++ (op.terminal.toList.map .op ++
      (b.printedTokens ++ [.op .parenClose])))

/-- The text of an operation is that of its operands. -/
theorem representation_expr {a b : Expr} {op : ExprOp} {text : List Char}
    (h : exprRepresentation (expr a op b) = some text) :
    ∃ ta tb, exprRepresentation a = some ta ∧ exprRepresentation b = some tb ∧
      text = '(' :: (ta ++ ' ' :: (op.representation.toList ++ ' ' :: (tb ++ [')']))) := by
  obtain ⟨ta, ha, h⟩ := Option.bind_eq_some_iff.mp h
  obtain ⟨tb, hb, h⟩ := Option.bind_eq_some_iff.mp h
  refine ⟨ta, tb, ha, hb, ?_⟩
  rw [← Option.some.inj h]
  simp

theorem representation_first {e : Expr} (he : e.Labelled) {text : List Char}
    (h : exprRepresentation e = some text) : ∃ d u, text = d :: u ∧ d ∈ exprFirsts := by
  cases e with
  | number val =>
    cases h
    obtain ⟨d, u, htext⟩ :=
      List.exists_cons_of_ne_nil (Nat.toDigits_ne_nil (b := 10) (n := val.toNat))
    have hd : d.isDigit = true :=
      Nat.isDigit_of_mem_toDigits (by decide) le_rfl (htext ▸ List.mem_cons_self)
    exact ⟨d, u, htext, List.mem_append_left _
      (List.mem_cons_of_mem _ (mem_between (range_of_isDigit hd)))⟩
  | label name =>
    cases h
    have hname := he name List.mem_cons_self
    obtain ⟨d, u, htext⟩ := List.exists_cons_of_ne_nil (label_ne_nil hname)
    rw [htext] at hname
    exact ⟨d, u, htext, List.mem_append_right _ (mem_labelFirsts hname)⟩
  | booleanNot b => cases h
  | expr a op b =>
    obtain ⟨ta, tb, -, -, rfl⟩ := representation_expr h
    exact ⟨'(', _, rfl, List.mem_cons_self⟩

/-- **What is printed is read** as the tokens of its parts. -/
theorem ppexprRead_representation {e : Expr} (he : e.Labelled) {text v : List Char}
    (h : exprRepresentation e = some text) (hv : ∀ d ∈ v.head?, d ∈ exprFollows) :
    ppexprRead (text ++ v) = e.printedTokens.map .expr ++ ppexprRead v := by
  induction e generalizing text v with
  | number val =>
    cases h
    exact ppexprRead_number (val.isLt.trans (by decide)) hv
  | label name =>
    cases h
    exact ppexprRead_label (he name List.mem_cons_self) hv
  | booleanNot b => cases h
  | expr a op b iha ihb =>
    obtain ⟨hla, hlb⟩ := labelled_expr.mp he
    obtain ⟨ta, tb, ha, hb, rfl⟩ := representation_expr h
    obtain ⟨da, ua, rfl, hda⟩ := representation_first hla ha
    obtain ⟨db, ub, rfl, hdb⟩ := representation_first hlb hb
    have hreada := iha hla (v := ' ' :: (op.representation.toList ++ ' ' :: db :: (ub ++ ')' :: v)))
      ha (by rintro _ ⟨⟩; decide)
    have hreadb := ihb hlb (v := ')' :: v) hb (by rintro _ ⟨⟩; decide)
    rw [List.cons_append] at hreada hreadb
    simp only [List.cons_append, List.append_assoc, List.nil_append]
    rw [ppexprRead_opening hda, hreada, op.ppexprRead_representation hdb, hreadb,
      ppexprRead_closing hv]
    simp [printedTokens]

/-! ### Trees -/

/-- A tree of the grammar for what is printed. -/
structure ReadAs (e : Expr) (t : ExprTree) : Prop where
  tokens : t.tokens = e.printedTokens
  derives : Grammar.ppExpr.Derives t
  closed : Closed t
  grouped : t.Grouped Grammar.ppExpr.yaccReduces
  expr : ExprTree.expr "" t = e

theorem readAs_number (val : BitVec 16) : ReadAs (.number val) (.atom (.address val.toNat)) where
  tokens := rfl
  derives := by
    rintro i hi
    rw [List.mem_singleton.mp hi]
    trivial
  closed := trivial
  grouped := Tree.grouped_atom _
  expr := by rw [ExprTree.expr, ExprAtom.expr, BitVec.ofNat_toNat, BitVec.setWidth_eq]

theorem readAs_label (name : String) : ReadAs (.label name) (.atom (.word name)) where
  tokens := rfl
  derives := by
    rintro i hi
    rw [List.mem_singleton.mp hi]
    trivial
  closed := trivial
  grouped := Tree.grouped_atom _
  expr := rfl

theorem ReadAs.expr_of_terminal {a b : Expr} {op : ExprOp} {p : Terminal} {l r : ExprTree}
    (ha : a.ReadAs l) (hop : op.terminal = some p) (hb : b.ReadAs r) :
    ReadAs (.expr a op b) (.group (.binary l p r)) where
  tokens := by
    have hl := ha.tokens
    have hr := hb.tokens
    unfold ExprTree.tokens at hl hr ⊢
    rw [printedTokens, ← hl, ← hr, hop]
    simp [Tree.flatten, itemTokens]
  derives := by
    intro i hi
    simp only [Tree.flatten, List.cons_append, List.mem_cons, List.mem_append, List.not_mem_nil,
      or_false] at hi
    rcases hi with rfl | (hi | rfl | hi) | rfl
    · trivial
    · exact ha.derives i hi
    · exact (ExprOp.terminal_binary hop).1
    · exact hb.derives i hi
    · trivial
  closed := trivial
  grouped := by
    refine Tree.grouped_group.mpr (Tree.grouped_binary.mpr ⟨ha.grouped, hb.grouped, ?_, ?_⟩)
    · rw [ha.closed.spines.1]
      exact fun _ h => absurd h List.not_mem_nil
    · rw [hb.closed.spines.2]
      exact fun _ h => absurd h List.not_mem_nil
  expr := by
    rw [ExprTree.expr, ExprTree.expr, ha.expr, hb.expr, (ExprOp.terminal_binary hop).2]

theorem Printable.exists_readAs {e : Expr} (h : e.Printable) : ∃ t, e.ReadAs t := by
  induction e with
  | number val => exact ⟨_, readAs_number val⟩
  | label name => exact ⟨_, readAs_label name⟩
  | booleanNot b => exact h.elim
  | expr a op b iha ihb =>
    obtain ⟨ha, hop, hb⟩ := h
    obtain ⟨l, hl⟩ := iha ha
    obtain ⟨r, hr⟩ := ihb hb
    obtain ⟨p, hp⟩ := Option.ne_none_iff_exists'.mp (op.terminal_eq_none_iff.not.mpr hop)
    exact ⟨_, hl.expr_of_terminal hp hr⟩

/-- Behind an operand there is no other. -/
theorem items_operand {e : Expr} {text : List Char} (h : exprRepresentation e = some text)
    (ts : List ExprToken) : Grammar.ppExpr.items true (e.printedTokens ++ ts) = none := by
  cases e with
  | number | label => rfl
  | booleanNot b => cases h
  | expr a op b =>
    rw [printedTokens, List.cons_append, Grammar.items, if_neg (by decide), if_neg (by decide)]

/-- **What is not printable is not read**: an operation is missing between two operands. -/
theorem items_of_not_printable {e : Expr} (he : ¬ e.Printable) {text : List Char}
    (h : exprRepresentation e = some text) (ts : List ExprToken) :
    Grammar.ppExpr.items false (e.printedTokens ++ ts) = none := by
  induction e generalizing text ts with
  | number | label => exact absurd trivial he
  | booleanNot b => cases h
  | expr a op b iha ihb =>
    obtain ⟨ta, tb, ha, hb, -⟩ := representation_expr h
    simp only [printedTokens, List.cons_append, List.append_assoc]
    rw [Grammar.items.eq_def]
    dsimp only
    rw [if_pos rfl, Option.map_eq_none_iff]
    by_cases hpa : a.Printable
    · obtain ⟨l, hl⟩ := hpa.exists_readAs
      rw [← hl.tokens, Grammar.items_append hl.derives, Option.map_eq_none_iff]
      rcases hop : op.terminal with - | p
      · exact items_operand hb _
      · have hnamed : op ∉ unnamedOps := op.terminal_eq_none_iff.not.mp
          (hop ▸ Option.some_ne_none p)
        have hpb : ¬ b.Printable := fun hpb => he ⟨hpa, hnamed, hpb⟩
        have hother : p ≠ .parenClose := by
          rintro rfl
          exact absurd (ExprOp.terminal_binary hop).1 (by decide)
        change Grammar.ppExpr.items true (.op p :: _) = none
        rw [Grammar.items, if_neg hother, if_pos (ExprOp.terminal_binary hop).1,
          Option.map_eq_none_iff]
        exact ihb hpb hb _
    · exact iha hpa ha _

end Expr

/-! ### What the parser makes -/

theorem exprTokens_map (ts : List ExprToken) : exprTokens (ts.map .expr) = some ts := by
  induction ts with
  | nil => rfl
  | cons t ts ih => rw [List.map_cons, exprTokens, ih, Option.map_some]

/-- All the tokens of an expression are tokens of the lexer. -/
theorem expr_mem_of_exprTokens {read : List LexToken} {ts : List ExprToken}
    (h : exprTokens read = some ts) : ∀ t ∈ ts, .expr t ∈ read := by
  induction read generalizing ts with
  | nil =>
    cases h
    exact fun _ ht => absurd ht List.not_mem_nil
  | cons first read ih =>
    cases first with
    | string | other => cases h
    | expr t =>
      obtain ⟨ts', hts', rfl⟩ := Option.map_eq_some_iff.mp h
      rw [List.forall_mem_cons]
      exact ⟨List.mem_cons_self, fun t ht => List.mem_cons_of_mem _ (ih hts' t ht)⟩

theorem mem_of_mem_returned {t : LexToken} {acts : List (Option Action)} (h : t ∈ returned acts) :
    some (.returns t) ∈ acts := by
  fun_induction returned acts with
  | case1 | case2 => exact absurd h List.not_mem_nil
  | case3 t' acts ih =>
    rcases List.mem_cons.mp h with rfl | h
    · exact List.mem_cons_self
    · exact List.mem_cons_of_mem _ (ih h)
  | case4 acts ih | case5 acts ih => exact List.mem_cons_of_mem _ (ih h)

/-- Every word that the lexer returns is a label. -/
theorem labelRegex_of_mem_read {name : String} {input : List Char}
    (h : .expr (.word name) ∈ ppexprRead input) : labelRegex.Matches name.toList := by
  obtain ⟨r, hr, text, -, hmatches, hact⟩ := Lexer.exists_of_mem_read (mem_of_mem_returned h)
  have hrules : ∀ r ∈ ppexprLexer, r.1.regex = labelRegex ∧ r.2 = returnWord ∨
      ∀ text name, r.2 text ≠ .returns (.expr (.word name)) := by
    intro r hr
    rw [ppexprLexer, List.mem_append, List.mem_map] at hr
    rcases hr with ⟨operator, -, rfl⟩ | hr
    · exact .inr fun _ _ => by simp [always, returnOp]
    · simp only [List.mem_cons, List.not_mem_nil, or_false] at hr
      rcases hr with rfl | rfl | rfl | rfl | rfl
      · exact .inl ⟨rfl, rfl⟩
      all_goals exact .inr fun _ _ => by simp [always, returnNumber]
  rcases hrules r hr with ⟨hregex, hreturn⟩ | hother
  · rw [hreturn, returnWord] at hact
    cases hact
    rw [String.toList_ofList, ← hregex]
    exact hmatches
  · exact absurd hact.symm (hother text name)

/-- Every label of the expression is a word of the tree. -/
theorem word_mem_of_mem_labels {t : ExprTree} (h : Grammar.ppExpr.Derives t) {name : String}
    (hname : name ∈ (ExprTree.expr "" t).labels) : .word name ∈ t.tokens := by
  unfold ExprTree.tokens
  induction t with
  | atom a =>
    have ha : Grammar.ppExpr.Allows (.atom a) := h _ (List.mem_singleton_self _)
    cases a with
    | address n => cases hname
    | word w =>
      rw [List.mem_singleton.mp hname]
      exact List.mem_singleton_self _
    | character | localLabel | xorWord => cases ha
  | group t ih =>
    have hmem := ih (fun i hi => h i (by simp [Tree.flatten, hi])) hname
    simp only [Tree.flatten, List.cons_append, List.flatMap_cons, List.flatMap_append]
    exact List.mem_append_right _ (List.mem_append_left _ hmem)
  | unary p t ih =>
    have hlabels : name ∈ (ExprTree.expr "" t).labels := by
      cases p <;> exact hname
    rw [Tree.flatten, List.flatMap_cons]
    exact List.mem_append_right _ (ih (fun i hi => h i (List.mem_cons_of_mem _ hi)) hlabels)
  | binary l p r ihl ihr =>
    rw [Tree.flatten, List.flatMap_append, List.flatMap_cons]
    rcases List.mem_append.mp hname with hl | hr
    · exact List.mem_append_left _ (ihl (fun i hi => h i (by simp [Tree.flatten, hi])) hl)
    · exact List.mem_append_right _ (List.mem_append_right _
        (ihr (fun i hi => h i (by simp [Tree.flatten, hi])) hr))

/-- The labels that the parser makes are labels to the lexer. -/
theorem labelled_of_exprParse {input : List Char} {e : Expr} (h : exprParse input = some e) :
    e.Labelled := by
  obtain ⟨t, ht, rfl⟩ := Option.map_eq_some_iff.mp h
  obtain ⟨ts, hts, hparse⟩ := Option.bind_eq_some_iff.mp ht
  obtain ⟨rfl, hderives⟩ := Grammar.parse_sound hparse
  exact fun name hname => labelRegex_of_mem_read
    (expr_mem_of_exprTokens hts _ (word_mem_of_mem_labels hderives hname))

/-- The parser on what is printed. -/
theorem exprParse_representation {e : Expr} (he : e.Labelled) {text : List Char}
    (h : exprRepresentation e = some text) :
    exprParse text = (Grammar.ppExpr.parse e.printedTokens).map (ExprTree.expr "") := by
  have hread := Expr.ppexprRead_representation he h (v := []) (fun _ hd => by cases hd)
  have hnil : ppexprRead [] = [] := rfl
  rw [List.append_nil, hnil, List.append_nil] at hread
  rw [exprParse, hread, exprTokens_map, Option.bind_some]

theorem Expr.ReadAs.parse {e : Expr} {t : ExprTree} (h : e.ReadAs t) :
    Grammar.ppExpr.parse e.printedTokens = some t := by
  have hitems := Grammar.items_append h.derives []
  rw [List.append_nil, Grammar.items, Option.map_some, List.append_nil, h.tokens] at hitems
  rw [Grammar.parse, hitems, Option.bind_some]
  exact parse_eq_some_iff.mpr ⟨rfl, h.grouped⟩

/-- What is printable is printed and deleted. -/
theorem Expr.Printable.exists_representation {e : Expr} (h : e.Printable) :
    exprDelete e = some () ∧ ∃ text, exprRepresentation e = some text := by
  induction e with
  | number | label => exact ⟨rfl, _, rfl⟩
  | booleanNot b => exact h.elim
  | expr a op b iha ihb =>
    obtain ⟨hda, ta, ha⟩ := iha h.1
    obtain ⟨hdb, tb, hb⟩ := ihb h.2.2
    refine ⟨?_, ?_⟩
    · rw [exprDelete, hda]
      exact hdb
    · rw [exprRepresentation, ha, hb]
      exact ⟨_, rfl⟩

/-- **The expressions that are read again** as they were printed: those in which every operation has
a text, and two operands. -/
theorem exprRepresentation_iff {input : List Char} {e : Expr} (h : exprParse input = some e) :
    e.RoundTrips ↔ e.Printable := by
  have hlabels := labelled_of_exprParse h
  constructor
  · rintro ⟨-, text, htext, e', hparse, -⟩
    by_contra hnot
    have hitems := Expr.items_of_not_printable hnot htext []
    rw [List.append_nil] at hitems
    rw [exprParse_representation hlabels htext, Grammar.parse, hitems] at hparse
    cases hparse
  · intro hprintable
    obtain ⟨hdelete, text, htext⟩ := hprintable.exists_representation
    obtain ⟨t, ht⟩ := hprintable.exists_readAs
    refine ⟨hdelete, text, htext, e, ?_, fun _ => rfl⟩
    rw [exprParse_representation hlabels htext, ht.parse, Option.map_some, ht.expr]

theorem exprRepresentation_sum :
    (Expr.expr (.label "a") .add (.number 1)).RoundTrips ↔
      (Expr.expr (.label "a") .add (.number 1)).Printable :=
  exprRepresentation_iff (show exprParse "a + 1".toList = _ by decide +kernel)

/-- A shift is printed without its operation, and the negation of a number is not printed at
all. -/
theorem not_forall_roundTrips :
    ¬ ∀ (input : List Char) (e : Expr), exprParse input = some e → e.RoundTrips := by
  intro h
  have hparse : exprParse "1 << 2".toList = some (.expr (.number 1) .leftShift (.number 2)) := by
    decide +kernel
  obtain ⟨-, text, htext, e', hread, -⟩ := h _ _ hparse
  cases htext
  have hnone : exprParse "(1 ??? 2)".toList = none := by decide +kernel
  cases hnone.symm.trans hread

end DcpuToolchain
