import DcpuToolchain.Lib.Precedence

/-!
# Expressions in the two grammars

The rules for `expr` and the precedence declarations in `libdcpu-ci-asm/parser.y` and
`libdcpu-pp-expr/parser.y`, and how the parser that yacc makes of them groups operators. The
values that the actions compute follow the tree of the rules and are left out.

Yacc decides by the precedence of two names: that of the last token of a rule and that of the
token that follows. Most of the operators in the rules go by other names than in the
declarations, and where a name has no precedence, yacc shifts.
`DcpuToolchain.follows_iff` says which expressions are grouped as declared all the same.
-/

namespace DcpuToolchain

open Precedence

/-! ### The grammars -/

/-- The names of tokens that the rules for expressions and the precedence declarations mention,
less those that have a value. -/
inductive Terminal
  | add | subtract | multiply | divide | modulus
  | equals | notEquals | lessThan | lessEquals | greaterThan | greaterEquals
  | parenOpen | parenClose
  | bitwiseAnd | bitwiseBor | bitwiseXor | bitwiseNot
  | booleanOr | booleanAnd | booleanXor | booleanNot
  | leftShift | rightShift | binaryLeftShift | binaryRightShift
  -- these are only declared
  | binaryOr | binaryXor | binaryAnd | compareEqual | compareNotEqual
  | compareLessThan | compareLessThanEqual | compareGreaterThan | compareGreaterThanEqual
  deriving DecidableEq, Repr

/-- The tokens of expressions. -/
inductive ExprToken
  | op (t : Terminal)
  | address (n : ℕ)
  | word (w : String)
  | character (s : String)
  | localLabel (s : String)
  deriving DecidableEq, Repr

/-- The expressions without operators. -/
inductive ExprAtom
  | address (n : ℕ)
  | word (w : String)
  | character (s : String)
  | localLabel (s : String)
  /-- `BITWISE_XOR WORD`, a local label. -/
  | xorWord (w : String)
  deriving DecidableEq, Repr

/-- The trees of the rules. -/
abbrev ExprTree := Tree ExprAtom Terminal

/-- The assembler's grammar, and the preprocessor's for expressions. -/
inductive Grammar
  | asm | ppExpr
  deriving DecidableEq, Repr

namespace Grammar

/-- The tokens of the rules `expr: expr OP expr`. -/
def binaries (g : Grammar) : List Terminal :=
  [.divide, .multiply, .subtract, .add, .modulus, .bitwiseAnd, .bitwiseXor, .bitwiseBor,
    .equals, .notEquals, .lessThan, .lessEquals, .greaterThan, .greaterEquals] ++
  match g with
  | asm => []
  | ppExpr => [.booleanAnd, .booleanOr, .booleanXor, .leftShift, .rightShift]

/-- The tokens of the rules `expr: OP expr`. -/
def unaries : Grammar → List Terminal
  | asm => [.subtract, .bitwiseNot]
  | ppExpr => [.subtract, .booleanNot, .bitwiseNot]

/-- The `%left` declarations, lowest to highest. -/
def precedence (g : Grammar) : List (List Terminal) :=
  [[.booleanOr], [.booleanAnd], [.binaryOr], [.binaryXor], [.binaryAnd],
    [.compareEqual, .compareNotEqual],
    [.compareLessThan, .compareLessThanEqual, .compareGreaterThan, .compareGreaterThanEqual],
    match g with
    | asm => [.binaryLeftShift, .binaryRightShift]
    | ppExpr => [.leftShift, .rightShift],
    [.add, .subtract], [.multiply, .divide, .modulus]]

/-- The precedence of a token, if it has one. -/
def level (g : Grammar) (t : Terminal) : Option ℕ := g.precedence.findIdx? (t ∈ ·)

end Grammar

/-- The higher precedence wins, and equal precedences are for operators that associate to the
left. -/
def reducesAt : (rule token : Option ℕ) → Option Bool
  | some a, some b => some (b ≤ a)
  | _, _ => none

theorem reducesAt_eq_some {rule token : Option ℕ} {b : Bool} (h : reducesAt rule token = some b) :
    ∃ m n, rule = some m ∧ token = some n ∧ b = decide (n ≤ m) := by
  unfold reducesAt at h
  split at h
  · exact ⟨_, _, rfl, rfl, (Option.some.inj h).symm⟩
  · cases h

namespace Grammar

/-- How yacc resolves the conflict of a rule, whose precedence is that of its last token, and the
token that follows: without precedences, the token is shifted. -/
def yaccReduces (g : Grammar) (o : Handle Terminal) (q : Terminal) : Bool :=
  (reducesAt (g.level o.op) (g.level q)).getD false

/-- Tokens as parts of an expression, after an operand or not. -/
def items (g : Grammar) : Bool → List ExprToken → Option (List (Item ExprAtom Terminal))
  | _, [] => some []
  | false, .address n :: ts => (g.items true ts).map (.atom (.address n) :: ·)
  | false, .word w :: ts => (g.items true ts).map (.atom (.word w) :: ·)
  | false, .character s :: ts =>
    if g = asm then (g.items true ts).map (.atom (.character s) :: ·) else none
  | false, .localLabel s :: ts =>
    if g = asm then (g.items true ts).map (.atom (.localLabel s) :: ·) else none
  | false, .op .bitwiseXor :: .word w :: ts =>
    if g = asm then (g.items true ts).map (.atom (.xorWord w) :: ·) else none
  | false, .op t :: ts =>
    if t = .parenOpen then (g.items false ts).map (.opening :: ·)
    else if t ∈ g.unaries then (g.items false ts).map (.unary t :: ·)
    else none
  | true, .op t :: ts =>
    if t = .parenClose then (g.items true ts).map (.closing :: ·)
    else if t ∈ g.binaries then (g.items false ts).map (.binary t :: ·)
    else none
  | true, _ :: _ => none

/-- **The parser of a grammar**: the tree of the rules that it applies. -/
def parse (g : Grammar) (ts : List ExprToken) : Option ExprTree :=
  (g.items false ts).bind (Precedence.parse g.yaccReduces)

end Grammar

/-! ### The language of a grammar -/

/-- The tokens of a part of an expression. -/
def itemTokens : Item ExprAtom Terminal → List ExprToken
  | .atom (.address n) => [.address n]
  | .atom (.word w) => [.word w]
  | .atom (.character s) => [.character s]
  | .atom (.localLabel s) => [.localLabel s]
  | .atom (.xorWord w) => [.op .bitwiseXor, .word w]
  | .unary p => [.op p]
  | .binary p => [.op p]
  | .opening => [.op .parenOpen]
  | .closing => [.op .parenClose]

/-- The tokens of an expression. -/
def ExprTree.tokens (t : ExprTree) : List ExprToken := t.flatten.flatMap itemTokens

namespace Grammar

/-- The part of an expression is from a rule of the grammar. -/
def Allows (g : Grammar) : Item ExprAtom Terminal → Prop
  | .atom (.address _) | .atom (.word _) | .opening | .closing => True
  | .atom _ => g = asm
  | .unary p => p ∈ g.unaries
  | .binary p => p ∈ g.binaries

/-- All rules of a tree are in the grammar. -/
def Derives (g : Grammar) (t : ExprTree) : Prop := ∀ i ∈ t.flatten, g.Allows i

theorem items_append {g : Grammar} {t : ExprTree} (h : g.Derives t) (ts : List ExprToken) :
    g.items false (t.tokens ++ ts) = (g.items true ts).map (t.flatten ++ ·) := by
  unfold ExprTree.tokens
  induction t generalizing ts with
  | atom a =>
    have ha : g.Allows (.atom a) := h _ (List.mem_singleton_self _)
    cases a with
    | address | word => rfl
    | character | localLabel | xorWord => exact if_pos ha
  | group t ih =>
    have hrest := ih (fun i hi => h i (by simp [Tree.flatten, hi])) (.op .parenClose :: ts)
    simp only [Tree.flatten, List.cons_append, List.flatMap_cons, List.flatMap_append, itemTokens,
      List.flatMap_nil, List.nil_append, List.append_assoc, items, if_true] at hrest ⊢
    rw [hrest]
    cases g.items true ts with
    | none => rfl
    | some is => simp
  | unary p t ih =>
    have hrest := ih (fun i hi => h i (List.mem_cons_of_mem _ hi)) ts
    have hp : p ∈ g.unaries := h _ List.mem_cons_self
    have hfirst : ∀ ts, g.items false (.op p :: ts) = (g.items false ts).map (.unary p :: ·) := by
      intro ts
      cases g with
      | asm =>
        rcases List.mem_cons.mp hp with rfl | hp
        · rfl
        · cases List.mem_singleton.mp hp
          rfl
      | ppExpr =>
        rcases List.mem_cons.mp hp with rfl | hp
        · rfl
        · rcases List.mem_cons.mp hp with rfl | hp
          · rfl
          · cases List.mem_singleton.mp hp
            rfl
    simp only [Tree.flatten, List.flatMap_cons, itemTokens, List.cons_append, List.nil_append]
    rw [hfirst, hrest, Option.map_map]
    rfl
  | binary l p r ihl ihr =>
    have hl := ihl (fun i hi => h i (by simp [Tree.flatten, hi]))
      (.op p :: (r.flatten.flatMap itemTokens ++ ts))
    have hr := ihr (fun i hi => h i (by simp [Tree.flatten, hi])) ts
    have hp : p ∈ g.binaries := h (.binary p) (by simp [Tree.flatten])
    have hother : p ≠ .parenClose := by
      rintro rfl
      revert hp
      cases g <;> decide
    simp only [Tree.flatten, List.flatMap_append, List.flatMap_cons, itemTokens, List.append_assoc,
      List.cons_append, List.nil_append]
    rw [hl, items, if_neg hother, if_pos hp, hr]
    cases g.items true ts with
    | none => rfl
    | some is => simp

theorem items_sound {g : Grammar} (b : Bool) (ts : List ExprToken) :
    ∀ is ∈ g.items b ts, is.flatMap itemTokens = ts ∧ ∀ i ∈ is, g.Allows i := by
  have hcons : ∀ (i : Item ExprAtom Terminal) (b : Bool) (ts : List ExprToken),
      (∀ is ∈ g.items b ts, is.flatMap itemTokens = ts ∧ ∀ i ∈ is, g.Allows i) → g.Allows i →
      ∀ is ∈ (g.items b ts).map (i :: ·),
        is.flatMap itemTokens = itemTokens i ++ ts ∧ ∀ i ∈ is, g.Allows i := by
    intro i b ts hrest hi is his
    obtain ⟨is', his', rfl⟩ := Option.map_eq_some_iff.mp his
    obtain ⟨htokens, hall⟩ := hrest is' his'
    exact ⟨by rw [List.flatMap_cons, htokens], List.forall_mem_cons.mpr ⟨hi, hall⟩⟩
  fun_induction items g b ts with
  | case1 b => rintro _ ⟨⟩; exact ⟨rfl, nofun⟩
  | case2 n ts ih => exact hcons (.atom (.address n)) _ _ ih trivial
  | case3 w ts ih => exact hcons (.atom (.word w)) _ _ ih trivial
  | case4 s ts hg ih => exact hcons (.atom (.character s)) _ _ ih hg
  | case5 s ts hg => exact nofun
  | case6 s ts hg ih => exact hcons (.atom (.localLabel s)) _ _ ih hg
  | case7 s ts hg => exact nofun
  | case8 w ts hg ih => exact hcons (.atom (.xorWord w)) _ _ ih hg
  | case9 w ts hg => exact nofun
  | case10 ts hother ih => exact hcons .opening _ _ ih trivial
  | case11 t ts hother ht hp ih => exact hcons (.unary t) _ _ ih hp
  | case12 t ts hother ht hp => exact nofun
  | case13 ts ih => exact hcons .closing _ _ ih trivial
  | case14 t ts ht hp ih => exact hcons (.binary t) _ _ ih hp
  | case15 t ts ht hp => exact nofun
  | case16 t ts hother => exact nofun

/-- **A tree that the parser makes is of the grammar and of the tokens**. -/
theorem parse_sound {g : Grammar} {ts : List ExprToken} {t : ExprTree} (h : g.parse ts = some t) :
    t.tokens = ts ∧ g.Derives t := by
  obtain ⟨is, his, hparse⟩ := Option.bind_eq_some_iff.mp h
  obtain ⟨rfl, -⟩ := parse_eq_some_iff.mp hparse
  exact items_sound false ts _ his

/-- **The parser accepts what the grammar derives**. -/
theorem exists_parse_tokens {g : Grammar} {t : ExprTree} (h : g.Derives t) :
    ∃ t', g.parse t.tokens = some t' := by
  have his := items_append h []
  rw [List.append_nil, items, Option.map_some, List.append_nil] at his
  rw [parse, his]
  exact exists_parse g.yaccReduces t

end Grammar

/-! ### What the declarations mean -/

/-- The place of an operator in the declared order: boolean or, boolean and, bitwise or, xor,
and, equality, relational, shifts, additive, multiplicative. `BOOLEAN_XOR` has none. -/
def rank : Terminal → Option ℕ
  | .booleanOr => some 0
  | .booleanAnd => some 1
  | .bitwiseBor => some 2
  | .bitwiseXor => some 3
  | .bitwiseAnd => some 4
  | .equals | .notEquals => some 5
  | .lessThan | .lessEquals | .greaterThan | .greaterEquals => some 6
  | .leftShift | .rightShift => some 7
  | .add | .subtract => some 8
  | .multiply | .divide | .modulus => some 9
  | _ => none

/-- Whether an operator takes its operand before the operator that follows, as far as the
declared order says: unary operators do, and binary ones unless the other is of a higher place. -/
def declaredReduces : Handle Terminal → Terminal → Option Bool
  | .unary _, _ => some true
  | .binary p, q => reducesAt (rank p) (rank q)

/-- A tree follows the declared order. -/
structure Follows (t : ExprTree) : Prop where
  left : ∀ x ∈ t.leftPairs, declaredReduces x.1 x.2 ≠ some false
  right : ∀ x ∈ t.rightPairs, declaredReduces x.1 x.2 ≠ some true

namespace Grammar

/-- The declared order, and where it says nothing, what yacc does. -/
def intendedReduces (g : Grammar) (o : Handle Terminal) (q : Terminal) : Bool :=
  (declaredReduces o q).getD (g.yaccReduces o q)

/-- The tree that follows the declared order. -/
def intendedParse (g : Grammar) (ts : List ExprToken) : Option ExprTree :=
  (g.items false ts).bind (Precedence.parse g.intendedReduces)

/-- Where both say something, the grammars and the declared order agree. -/
theorem level_eq_rank {g : Grammar} {t : Terminal} {m n : ℕ} (hlevel : g.level t = some m)
    (hrank : rank t = some n) : m = n := by
  have hall : ∀ g : Grammar, ∀ t, g.level t = rank t ∨ g.level t = none ∨ rank t = none := by
    intro g t
    cases g <;> cases t <;> decide
  rcases hall g t with h | h | h
  · rw [hlevel, hrank] at h
    exact Option.some.inj h
  · rw [hlevel] at h
    cases h
  · rw [hrank] at h
    cases h

/-- Yacc does not reduce where the declared order says to shift. -/
theorem intendedReduces_of_yaccReduces {g : Grammar} {o : Handle Terminal} {q : Terminal}
    (h : g.yaccReduces o q = true) : g.intendedReduces o q = true := by
  unfold intendedReduces
  cases o with
  | unary p => rfl
  | binary p =>
    cases hranks : reducesAt (rank p) (rank q) with
    | none =>
      rw [declaredReduces, hranks]
      exact h
    | some b =>
      have hlevels : (reducesAt (g.level p) (g.level q)).getD false = true := h
      rw [declaredReduces, hranks]
      obtain ⟨m, n, hp, hq, rfl⟩ := reducesAt_eq_some hranks
      cases hlevel : reducesAt (g.level p) (g.level q) with
      | none =>
        rw [hlevel] at hlevels
        cases hlevels
      | some b =>
        obtain ⟨m', n', hp', hq', rfl⟩ := reducesAt_eq_some hlevel
        rw [hlevel, level_eq_rank hp' hp, level_eq_rank hq' hq] at hlevels
        exact hlevels

/-- Among the trees that yacc makes, those that group as intended follow the declared order. -/
theorem follows_iff_grouped {g : Grammar} {t : ExprTree} (h : t.Grouped g.yaccReduces) :
    Follows t ↔ t.Grouped g.intendedReduces := by
  have hreduces : ∀ o q, g.yaccReduces o q = true →
      (declaredReduces o q ≠ some false ↔ g.intendedReduces o q = true) := by
    intro o q hyacc
    have hintended := intendedReduces_of_yaccReduces hyacc
    refine iff_of_true (fun hfalse => ?_) hintended
    rw [intendedReduces, hfalse] at hintended
    cases hintended
  have hshifts : ∀ o q, g.yaccReduces o q = false →
      (declaredReduces o q ≠ some true ↔ g.intendedReduces o q = false) := by
    intro o q hyacc
    unfold intendedReduces
    cases hdeclared : declaredReduces o q with
    | none => exact iff_of_true nofun hyacc
    | some b => cases b <;> simp
  constructor
  · rintro ⟨hleft, hright⟩
    exact ⟨fun x hx => (hreduces x.1 x.2 (h.left x hx)).mp (hleft x hx),
      fun x hx => (hshifts x.1 x.2 (h.right x hx)).mp (hright x hx)⟩
  · rintro ⟨hleft, hright⟩
    exact ⟨fun x hx => (hreduces x.1 x.2 (h.left x hx)).mpr (hleft x hx),
      fun x hx => (hshifts x.1 x.2 (h.right x hx)).mpr (hright x hx)⟩

/-- **Which expressions are grouped as declared**: the tree that yacc makes of an expression
follows the declared order exactly if in the grouping that this order gives, an operator is
never shifted after one that ends its left operand. It is shifted if one of the two has no
precedence under its own name, and after a unary minus if it is multiplicative. -/
theorem follows_iff (g : Grammar) (ts : List ExprToken) :
    (∀ t ∈ g.parse ts, Follows t) ↔
      ∀ t ∈ g.intendedParse ts, ∀ x ∈ t.leftPairs, g.yaccReduces x.1 x.2 = true := by
  unfold parse intendedParse
  cases g.items false ts with
  | none => exact iff_of_true nofun nofun
  | some items =>
    rw [Option.bind_some, Option.bind_some,
      ← parse_eq_iff (fun _ _ => intendedReduces_of_yaccReduces) items]
    constructor
    · intro h
      cases hparse : Precedence.parse g.yaccReduces items with
      | none =>
        cases hintended : Precedence.parse g.intendedReduces items with
        | none => rfl
        | some t =>
          obtain ⟨rfl, -⟩ := parse_eq_some_iff.mp hintended
          obtain ⟨t', ht'⟩ := exists_parse g.yaccReduces t
          rw [hparse] at ht'
          cases ht'
      | some t =>
        obtain ⟨htext, hgrouped⟩ := parse_eq_some_iff.mp hparse
        have hfollows := (follows_iff_grouped hgrouped).mp (h t hparse)
        exact (parse_eq_some_iff.mpr ⟨htext, hfollows⟩).symm
    · intro h t ht
      have hgrouped := (parse_eq_some_iff.mp ht).2
      rw [h] at ht
      exact (follows_iff_grouped hgrouped).mpr (parse_eq_some_iff.mp ht).2

/-- `4 + 2 & 3` is grouped as `4 + (2 & 3)`. -/
theorem not_forall_follows :
    ¬ ∀ (g : Grammar) (ts : List ExprToken), ∀ t ∈ g.parse ts, Follows t := by
  intro h
  have hfollows := h .asm
    [.address 4, .op .add, .address 2, .op .bitwiseAnd, .address 3]
    (.binary (.atom (.address 4)) .add
      (.binary (.atom (.address 2)) .bitwiseAnd (.atom (.address 3)))) (by decide)
  exact hfollows.right (.binary .add, .bitwiseAnd) (by decide) (by decide)

end Grammar

end DcpuToolchain
