import Mathlib.Data.List.Basic

/-!
# Operator precedence

A shift-reduce parser for expressions with unary and binary operators. Where an operand is
complete and a binary operator follows, it asks whether to reduce: that is all that precedence
and associativity decide (`Precedence.parse`).

The parser finds the one tree with the given items in which every operator groups as the
decisions say (`Precedence.parse_eq_some_iff`). Which items are an expression does not depend
on the decisions (`Precedence.exists_parse`), so trees for two decision functions can be
compared: they are the same unless they differ about an operator and one that ends its left
operand (`Precedence.parse_eq_iff`).
-/

namespace Precedence

variable {α β : Type*}

/-- A part of the text of an expression. -/
inductive Item (α β : Type*)
  | atom (a : α)
  | unary (p : β)
  | binary (p : β)
  | opening
  | closing
  deriving DecidableEq, Repr

/-- An expression, with its parentheses. -/
inductive Tree (α β : Type*)
  | atom (a : α)
  | group (t : Tree α β)
  | unary (p : β) (t : Tree α β)
  | binary (l : Tree α β) (p : β) (r : Tree α β)
  deriving DecidableEq, Repr

/-- An operator to the left of its last operand. -/
inductive Handle (β : Type*)
  | unary (p : β)
  | binary (p : β)
  deriving DecidableEq, Repr

/-- The operator itself. -/
def Handle.op : Handle β → β
  | unary p => p
  | binary p => p

/-! ### Trees -/

namespace Tree

/-- The text of an expression. -/
def flatten : Tree α β → List (Item α β)
  | atom a => [.atom a]
  | group t => .opening :: t.flatten ++ [.closing]
  | unary p t => .unary p :: t.flatten
  | binary l p r => l.flatten ++ .binary p :: r.flatten

/-- The operators that an expression ends with, outermost first. -/
def rightSpine : Tree α β → List (Handle β)
  | unary p t => .unary p :: t.rightSpine
  | binary _ p r => .binary p :: r.rightSpine
  | _ => []

/-- The binary operators that an expression begins with. -/
def leftSpine : Tree α β → List β
  | binary l p _ => p :: l.leftSpine
  | _ => []

/-- The binary operators, each with the operators that its left operand ends with. -/
def leftPairs : Tree α β → List (Handle β × β)
  | atom _ => []
  | group t => t.leftPairs
  | unary _ t => t.leftPairs
  | binary l p r => l.rightSpine.map (·, p) ++ l.leftPairs ++ r.leftPairs

/-- The operators, each with the binary operators that its right operand begins with. -/
def rightPairs : Tree α β → List (Handle β × β)
  | atom _ => []
  | group t => t.rightPairs
  | unary p t => t.leftSpine.map (.unary p, ·) ++ t.rightPairs
  | binary l p r => r.leftSpine.map (.binary p, ·) ++ l.rightPairs ++ r.rightPairs

/-- All operators group as the decisions say: an operand that ends with an operator has been
reduced, and one that begins with an operator has not. -/
structure Grouped (reduces : Handle β → β → Bool) (t : Tree α β) : Prop where
  left : ∀ x ∈ t.leftPairs, reduces x.1 x.2 = true
  right : ∀ x ∈ t.rightPairs, reduces x.1 x.2 = false

variable {reduces : Handle β → β → Bool} {t l r : Tree α β} {p : β}

theorem grouped_atom (a : α) : (atom a : Tree α β).Grouped reduces :=
  ⟨fun _ h => absurd h List.not_mem_nil, fun _ h => absurd h List.not_mem_nil⟩

theorem grouped_group : (group t).Grouped reduces ↔ t.Grouped reduces :=
  ⟨fun h => ⟨h.left, h.right⟩, fun h => ⟨h.left, h.right⟩⟩

theorem grouped_unary :
    (unary p t).Grouped reduces ↔
      t.Grouped reduces ∧ ∀ q ∈ t.leftSpine, reduces (.unary p) q = false := by
  constructor
  · rintro ⟨hleft, hright⟩
    rw [rightPairs, List.forall_mem_append, List.forall_mem_map] at hright
    exact ⟨⟨hleft, hright.2⟩, hright.1⟩
  · rintro ⟨⟨hleft, hright⟩, hspine⟩
    refine ⟨hleft, ?_⟩
    rw [rightPairs, List.forall_mem_append, List.forall_mem_map]
    exact ⟨hspine, hright⟩

theorem grouped_binary :
    (binary l p r).Grouped reduces ↔
      l.Grouped reduces ∧ r.Grouped reduces ∧ (∀ o ∈ l.rightSpine, reduces o p = true) ∧
        ∀ q ∈ r.leftSpine, reduces (.binary p) q = false := by
  constructor
  · rintro ⟨hleft, hright⟩
    simp only [leftPairs, rightPairs, List.forall_mem_append, List.forall_mem_map] at hleft hright
    exact ⟨⟨hleft.1.2, hright.1.2⟩, ⟨hleft.2, hright.2⟩, hleft.1.1, hright.1.1⟩
  · rintro ⟨hl, hr, hends, hbegins⟩
    constructor
    · simp only [leftPairs, List.forall_mem_append, List.forall_mem_map]
      exact ⟨⟨hends, hl.left⟩, hr.left⟩
    · simp only [rightPairs, List.forall_mem_append, List.forall_mem_map]
      exact ⟨⟨hbegins, hl.right⟩, hr.right⟩

end Tree

/-! ### The parser -/

/-- What waits for an operand. -/
inductive Frame (α β : Type*)
  | group
  | unary (p : β)
  | binary (l : Tree α β) (p : β)

/-- The operator of a frame. -/
def Frame.handle : Frame α β → Option (Handle β)
  | group => none
  | unary p => some (.unary p)
  | binary _ p => some (.binary p)

/-- Reduce as long as the decisions say so, at most up to a parenthesis. -/
def reduceWhile (reduces : Handle β → Bool) :
    List (Frame α β) → Tree α β → List (Frame α β) × Tree α β
  | .unary p :: s, t =>
    if reduces (.unary p) then reduceWhile reduces s (.unary p t) else (.unary p :: s, t)
  | .binary l p :: s, t =>
    if reduces (.binary p) then reduceWhile reduces s (.binary l p t) else (.binary l p :: s, t)
  | s, t => (s, t)

/-- The parser, with the frames that are open and the operand that is complete, if there is
one. A parenthesis and the end of the text reduce everything. -/
def parseFrom (reduces : Handle β → β → Bool) :
    Option (Tree α β) → List (Frame α β) → List (Item α β) → Option (Tree α β)
  | none, s, .atom a :: items => parseFrom reduces (some (.atom a)) s items
  | none, s, .unary p :: items => parseFrom reduces none (.unary p :: s) items
  | none, s, .opening :: items => parseFrom reduces none (.group :: s) items
  | some t, s, .binary p :: items =>
    let r := reduceWhile (reduces · p) s t
    parseFrom reduces none (.binary r.2 p :: r.1) items
  | some t, s, .closing :: items =>
    match reduceWhile (fun _ => true) s t with
    | (.group :: s, t) => parseFrom reduces (some (.group t)) s items
    | _ => none
  | some t, s, [] =>
    match reduceWhile (fun _ => true) s t with
    | ([], t) => some t
    | _ => none
  | _, _, _ => none

/-- **The parser**. -/
def parse (reduces : Handle β → β → Bool) (items : List (Item α β)) : Option (Tree α β) :=
  parseFrom reduces none [] items

/-! ### What the parser finds -/

variable {reduces : Handle β → β → Bool}

/-- The innermost frame does not reduce before an operator. -/
def Waits (reduces : Handle β → β → Bool) (s : List (Frame α β)) (q : β) : Prop :=
  ∀ o ∈ s.head?.bind Frame.handle, reduces o q = false

/-- The frames are those of operators that group as the decisions say. -/
def Sound (reduces : Handle β → β → Bool) : List (Frame α β) → Prop
  | [] => True
  | .binary l p :: s => Sound reduces s ∧ l.Grouped reduces ∧
      (∀ o ∈ l.rightSpine, reduces o p = true) ∧ ∀ q ∈ p :: l.leftSpine, Waits reduces s q
  | _ :: s => Sound reduces s

/-- An operand groups as the decisions say, also with the frames. -/
structure Fits (reduces : Handle β → β → Bool) (s : List (Frame α β)) (t : Tree α β) : Prop where
  frames : Sound reduces s
  grouped : t.Grouped reduces
  waits : ∀ q ∈ t.leftSpine, Waits reduces s q

/-- The text that the frames stand for. -/
def framesText : List (Frame α β) → List (Item α β)
  | [] => []
  | .group :: s => framesText s ++ [.opening]
  | .unary p :: s => framesText s ++ [.unary p]
  | .binary l p :: s => framesText s ++ l.flatten ++ [.binary p]

/-- **What reducing does**: the text stays, everything groups as before, and what is left to
reduce does not. -/
theorem reduceWhile_spec (now : Handle β → Bool) (s : List (Frame α β)) (t : Tree α β)
    (h : Fits reduces s t) (hnow : ∀ o ∈ t.rightSpine, now o = true) :
    framesText (reduceWhile now s t).1 ++ (reduceWhile now s t).2.flatten =
        framesText s ++ t.flatten ∧
      Fits reduces (reduceWhile now s t).1 (reduceWhile now s t).2 ∧
      (∀ o ∈ (reduceWhile now s t).2.rightSpine, now o = true) ∧
      ∀ o ∈ (reduceWhile now s t).1.head?.bind Frame.handle, now o = false := by
  induction s generalizing t with
  | nil => exact ⟨rfl, h, hnow, fun o ho => by cases ho⟩
  | cons frame s ih =>
    cases frame with
    | group => exact ⟨rfl, h, hnow, fun o ho => by cases ho⟩
    | unary p =>
      rw [reduceWhile]
      split
      · rename_i hp
        have hfits : Fits reduces s (.unary p t) := by
          refine ⟨h.frames, Tree.grouped_unary.mpr ⟨h.grouped, fun q hq => ?_⟩,
            fun q hq => absurd hq List.not_mem_nil⟩
          exact h.waits q hq _ rfl
        have hends : ∀ o ∈ (Tree.unary p t).rightSpine, now o = true := by
          rw [Tree.rightSpine, List.forall_mem_cons]
          exact ⟨hp, hnow⟩
        obtain ⟨htext, hrest⟩ := ih _ hfits hends
        refine ⟨htext.trans ?_, hrest⟩
        simp [framesText, Tree.flatten]
      · rename_i hp
        refine ⟨rfl, h, hnow, fun o ho => ?_⟩
        cases ho
        exact Bool.not_eq_true _ ▸ hp
    | binary l p =>
      rw [reduceWhile]
      obtain ⟨hs, hl, hlends, hlwaits⟩ := h.frames
      split
      · rename_i hp
        have hfits : Fits reduces s (.binary l p t) := by
          refine ⟨hs, Tree.grouped_binary.mpr ⟨hl, h.grouped, hlends, fun q hq => ?_⟩, hlwaits⟩
          exact h.waits q hq _ rfl
        have hends : ∀ o ∈ (Tree.binary l p t).rightSpine, now o = true := by
          rw [Tree.rightSpine, List.forall_mem_cons]
          exact ⟨hp, hnow⟩
        obtain ⟨htext, hrest⟩ := ih _ hfits hends
        refine ⟨htext.trans ?_, hrest⟩
        simp [framesText, Tree.flatten]
      · rename_i hp
        refine ⟨rfl, h, hnow, fun o ho => ?_⟩
        cases ho
        exact Bool.not_eq_true _ ▸ hp

/-- Where everything is reduced, no operator is left before a parenthesis. -/
theorem reduceWhile_true (s : List (Frame α β)) (t : Tree α β) :
    (reduceWhile (fun _ => true) s t).1 = [] ∨
      ∃ s', (reduceWhile (fun _ => true) s t).1 = .group :: s' := by
  induction s generalizing t with
  | nil => exact .inl rfl
  | cons frame s ih =>
    cases frame with
    | group => exact .inr ⟨s, rfl⟩
    | unary p => exact ih _
    | binary l p => exact ih _

/-- An operand that is complete is an atom or a group where the next item is read. -/
def Closed : Tree α β → Prop
  | .atom _ | .group _ => True
  | _ => False

theorem Closed.spines {t : Tree α β} (h : Closed t) : t.rightSpine = [] ∧ t.leftSpine = [] := by
  cases t with
  | atom | group => exact ⟨rfl, rfl⟩
  | unary | binary => cases h

theorem Closed.fits {s : List (Frame α β)} {t : Tree α β} (h : Closed t) (hs : Sound reduces s)
    (ht : t.Grouped reduces) : Fits reduces s t :=
  ⟨hs, ht, fun q hq => by rw [h.spines.2] at hq; cases hq⟩

/-- **The tree has the text that was read, and groups as the decisions say**. -/
theorem parseFrom_sound (items : List (Item α β)) :
    ∀ (cur : Option (Tree α β)) (s : List (Frame α β)) (r : Tree α β), Sound reduces s →
      (∀ t ∈ cur, Closed t ∧ t.Grouped reduces) → parseFrom reduces cur s items = some r →
      r.flatten = framesText s ++ (cur.elim [] Tree.flatten ++ items) ∧ r.Grouped reduces := by
  induction items with
  | nil =>
    intro cur s r hs hcur h
    cases cur with
    | none => cases h
    | some t =>
      obtain ⟨hclosed, hgrouped⟩ := hcur t rfl
      obtain ⟨htext, hfits, -⟩ := reduceWhile_spec (fun _ => true) s t
        (hclosed.fits hs hgrouped) fun _ _ => rfl
      rw [parseFrom] at h
      rcases hr : reduceWhile (fun _ => true) s t with ⟨_ | ⟨frame, s'⟩, t'⟩
      · rw [hr] at h htext hfits
        cases h
        exact ⟨by simpa [framesText] using htext, hfits.grouped⟩
      · rw [hr] at h
        cases h
  | cons item items ih =>
    intro cur s r hs hcur h
    cases cur with
    | none =>
      cases item with
      | atom a =>
        refine ih (some (.atom a)) s r hs ?_ h
        rintro t ⟨⟩
        exact ⟨trivial, Tree.grouped_atom a⟩
      | unary p =>
        obtain ⟨htext, hgrouped⟩ := ih none (.unary p :: s) r hs (fun _ ht => by cases ht) h
        exact ⟨by simpa [framesText] using htext, hgrouped⟩
      | opening =>
        obtain ⟨htext, hgrouped⟩ := ih none (.group :: s) r hs (fun _ ht => by cases ht) h
        exact ⟨by simpa [framesText] using htext, hgrouped⟩
      | binary p => cases h
      | closing => cases h
    | some t =>
      obtain ⟨hclosed, hgrouped⟩ := hcur t rfl
      have hfits := hclosed.fits hs hgrouped
      cases item with
      | binary p =>
        obtain ⟨htext, hfits', hends, hwaits⟩ := reduceWhile_spec (reduces · p) s t hfits
          fun o ho => by rw [hclosed.spines.1] at ho; cases ho
        have hframes : Sound reduces (.binary (reduceWhile (reduces · p) s t).2 p ::
            (reduceWhile (reduces · p) s t).1) :=
          ⟨hfits'.frames, hfits'.grouped, hends, List.forall_mem_cons.mpr ⟨hwaits, hfits'.waits⟩⟩
        obtain ⟨htext', hgrouped'⟩ := ih none _ r hframes (fun _ ht => by cases ht) h
        refine ⟨htext'.trans ?_, hgrouped'⟩
        rw [framesText, htext]
        simp
      | closing =>
        obtain ⟨htext, hfits', -⟩ := reduceWhile_spec (fun _ => true) s t hfits fun _ _ => rfl
        rw [parseFrom] at h
        rcases hr : reduceWhile (fun _ => true) s t with ⟨_ | ⟨frame, s'⟩, t'⟩
        · rw [hr] at h
          cases h
        · rw [hr] at h htext hfits'
          cases frame with
          | group =>
            obtain ⟨htext', hgrouped'⟩ := ih (some (.group t')) s' r hfits'.frames
              (by rintro _ ⟨⟩; exact ⟨trivial, Tree.grouped_group.mpr hfits'.grouped⟩) h
            refine ⟨htext'.trans ?_, hgrouped'⟩
            calc framesText s' ++ (Tree.flatten (.group t') ++ items)
                = framesText (.group :: s') ++ t'.flatten ++ .closing :: items := by
                  simp [framesText, Tree.flatten]
              _ = framesText s ++ (t.flatten ++ .closing :: items) := by
                  rw [htext, List.append_assoc]
          | unary | binary => cases h
      | atom | unary | opening => cases h

/-! ### What is an expression -/

/-- How many parentheses are open. -/
def depth (s : List (Frame α β)) : ℕ := s.countP fun frame => frame.handle.isNone

theorem depth_group (s : List (Frame α β)) : depth (.group :: s) = depth s + 1 := by
  rw [depth, List.countP_cons]
  rfl

/-- Whether the rest of a text completes an expression, after an operand or not, in a number of
parentheses. -/
def completes : Bool → ℕ → List (Item α β) → Bool
  | false, n, .atom _ :: items => completes true n items
  | false, n, .unary _ :: items => completes false n items
  | false, n, .opening :: items => completes false (n + 1) items
  | true, n, .binary _ :: items => completes false n items
  | true, n + 1, .closing :: items => completes true n items
  | true, 0, [] => true
  | _, _, _ => false

theorem depth_reduceWhile (now : Handle β → Bool) (s : List (Frame α β)) (t : Tree α β) :
    depth (reduceWhile now s t).1 = depth s := by
  induction s generalizing t with
  | nil => rfl
  | cons frame s ih =>
    cases frame with
    | group => rfl
    | unary p =>
      rw [reduceWhile]
      split
      · exact ih _
      · rfl
    | binary l p =>
      rw [reduceWhile]
      split
      · exact ih _
      · rfl

/-- The decisions do not matter for whether a text is an expression. -/
theorem parseFrom_isSome (items : List (Item α β)) :
    ∀ (cur : Option (Tree α β)) (s : List (Frame α β)),
      (parseFrom reduces cur s items).isSome = completes cur.isSome (depth s) items := by
  induction items with
  | nil =>
    intro cur s
    cases cur with
    | none => simp [parseFrom, completes]
    | some t =>
      have hdepth := depth_reduceWhile (fun _ => true) s t
      rw [parseFrom]
      rcases hr : reduceWhile (fun _ => true) s t with ⟨s', t'⟩
      rw [hr] at hdepth
      rcases reduceWhile_true s t with hnil | ⟨s'', hgroup⟩
      · rw [hr] at hnil
        subst hnil
        rw [← hdepth]
        rfl
      · rw [hr] at hgroup
        subst hgroup
        rw [← hdepth, depth_group]
        rfl
  | cons item items ih =>
    intro cur s
    cases cur with
    | none =>
      cases item with
      | atom a => exact ih (some (.atom a)) s
      | unary p => exact ih none (.unary p :: s)
      | opening =>
        rw [parseFrom, ih, depth_group]
        rfl
      | binary | closing => rfl
    | some t =>
      cases item with
      | binary p =>
        have hrest := ih none (.binary (reduceWhile (reduces · p) s t).2 p ::
          (reduceWhile (reduces · p) s t).1)
        rw [parseFrom, hrest]
        exact congrArg (completes false · items) (depth_reduceWhile _ s t)
      | closing =>
        have hdepth := depth_reduceWhile (fun _ => true) s t
        rw [parseFrom]
        rcases hr : reduceWhile (fun _ => true) s t with ⟨s', t'⟩
        rw [hr] at hdepth
        rcases reduceWhile_true s t with hnil | ⟨s'', hgroup⟩
        · rw [hr] at hnil
          subst hnil
          rw [← hdepth]
          rfl
        · rw [hr] at hgroup
          subst hgroup
          rw [← hdepth, depth_group]
          exact ih (some (.group t')) s''
      | atom | unary | opening =>
        cases depth s <;> rfl

theorem completes_flatten (t : Tree α β) :
    ∀ (n : ℕ) (items : List (Item α β)),
      completes false n (t.flatten ++ items) = completes true n items := by
  induction t with
  | atom a =>
    intro n items
    rfl
  | group t ih =>
    intro n items
    have htext : (Tree.group t).flatten ++ items =
        .opening :: (t.flatten ++ .closing :: items) := by
      simp [Tree.flatten]
    rw [htext, completes, ih, completes]
  | unary p t ih =>
    intro n items
    exact ih n items
  | binary l p r ihl ihr =>
    intro n items
    have htext : (Tree.binary l p r).flatten ++ items =
        l.flatten ++ .binary p :: (r.flatten ++ items) := by
      simp [Tree.flatten]
    rw [htext, ihl, completes, ihr]

/-- **The parser accepts the text of every expression**. -/
theorem exists_parse (reduces : Handle β → β → Bool) (t : Tree α β) :
    ∃ t', parse reduces t.flatten = some t' := by
  refine Option.isSome_iff_exists.mp ?_
  have htext := completes_flatten t 0 []
  rw [List.append_nil] at htext
  rw [parse, parseFrom_isSome]
  exact htext

/-! ### Every tree is found -/

/-- The frames that are open at the end of an expression, and its last operand. -/
def openAt : Tree α β → List (Frame α β) × Tree α β
  | .unary p t => ((openAt t).1 ++ [.unary p], (openAt t).2)
  | .binary l p r => ((openAt r).1 ++ [.binary l p], (openAt r).2)
  | t => ([], t)

/-- The frames that are open at the end of an expression are reduced if all the operators that it
ends with are. -/
theorem reduceWhile_openAt (now : Handle β → Bool) (t : Tree α β) :
    ∀ s, (∀ o ∈ t.rightSpine, now o = true) →
      reduceWhile now ((openAt t).1 ++ s) (openAt t).2 = reduceWhile now s t := by
  induction t with
  | atom a => exact fun _ _ => rfl
  | group t _ => exact fun _ _ => rfl
  | unary p t ih =>
    intro s hnow
    rw [Tree.rightSpine, List.forall_mem_cons] at hnow
    rw [openAt, List.append_assoc, ih _ hnow.2, List.singleton_append, reduceWhile, if_pos hnow.1]
  | binary l p r _ ih =>
    intro s hnow
    rw [Tree.rightSpine, List.forall_mem_cons] at hnow
    rw [openAt, List.append_assoc, ih _ hnow.2, List.singleton_append, reduceWhile, if_pos hnow.1]

theorem reduceWhile_waits {s : List (Frame α β)} {q : β} (h : Waits reduces s q) (t : Tree α β) :
    reduceWhile (reduces · q) s t = (s, t) := by
  cases s with
  | nil => rfl
  | cons frame s =>
    cases frame with
    | group => rfl
    | unary p =>
      have hp : reduces (.unary p) q = false := h _ rfl
      rw [reduceWhile, hp]
      rfl
    | binary l p =>
      have hp : reduces (.binary p) q = false := h _ rfl
      rw [reduceWhile, hp]
      rfl

/-- **An expression is read as it groups**. -/
theorem parseFrom_flatten (t : Tree α β) :
    ∀ (s : List (Frame α β)) (items : List (Item α β)), t.Grouped reduces →
      (∀ q ∈ t.leftSpine, Waits reduces s q) →
      parseFrom reduces none s (t.flatten ++ items) =
        parseFrom reduces (some (openAt t).2) ((openAt t).1 ++ s) items := by
  induction t with
  | atom a => exact fun _ _ _ _ => rfl
  | group t ih =>
    intro s items hgrouped _
    have htext : (Tree.group t).flatten ++ items =
        .opening :: (t.flatten ++ .closing :: items) := by
      simp [Tree.flatten]
    have hopen : ∀ q ∈ t.leftSpine, Waits reduces (.group :: s) q := fun _ _ _ ho => by cases ho
    rw [htext, parseFrom, ih _ _ (Tree.grouped_group.mp hgrouped) hopen, parseFrom,
      reduceWhile_openAt _ _ _ fun _ _ => rfl]
    rfl
  | unary p t ih =>
    intro s items hgrouped _
    obtain ⟨hgrouped, hspine⟩ := Tree.grouped_unary.mp hgrouped
    have hopen : ∀ q ∈ t.leftSpine, Waits reduces (.unary p :: s) q := by
      rintro q hq _ ⟨⟩
      exact hspine q hq
    rw [Tree.flatten, List.cons_append, parseFrom, ih _ _ hgrouped hopen, openAt,
      List.append_assoc]
    rfl
  | binary l p r ihl ihr =>
    intro s items hgrouped hwaits
    obtain ⟨hl, hr, hends, hbegins⟩ := Tree.grouped_binary.mp hgrouped
    rw [Tree.leftSpine, List.forall_mem_cons] at hwaits
    have htext : (Tree.binary l p r).flatten ++ items =
        l.flatten ++ .binary p :: (r.flatten ++ items) := by
      simp [Tree.flatten]
    rw [htext, ihl _ _ hl hwaits.2, parseFrom, reduceWhile_openAt _ _ _ hends,
      reduceWhile_waits hwaits.1]
    have hopen : ∀ q ∈ r.leftSpine, Waits reduces (.binary l p :: s) q := by
      rintro q hq _ ⟨⟩
      exact hbegins q hq
    rw [ihr _ _ hr hopen, openAt, List.append_assoc]
    rfl

/-- **The trees that the parser finds**: those with the text that group as the decisions say. -/
theorem parse_eq_some_iff {items : List (Item α β)} {t : Tree α β} :
    parse reduces items = some t ↔ t.flatten = items ∧ t.Grouped reduces := by
  constructor
  · intro h
    obtain ⟨htext, hgrouped⟩ := parseFrom_sound items none [] t trivial (fun _ ht => by cases ht) h
    exact ⟨by simpa [framesText] using htext, hgrouped⟩
  · rintro ⟨rfl, hgrouped⟩
    have hread := parseFrom_flatten t [] [] hgrouped fun q _ o ho => by cases ho
    rw [List.append_nil] at hread
    rw [parse, hread, parseFrom, reduceWhile_openAt _ _ _ fun _ _ => rfl]
    rfl

/-! ### Two decision functions -/

/-- **When two decision functions find the same tree**: if one reduces only where the other does,
the trees are the same unless in the other tree an operator has at the end of its left operand
one that the first does not reduce. -/
theorem parse_eq_iff {reduces' : Handle β → β → Bool}
    (hle : ∀ o q, reduces o q = true → reduces' o q = true) (items : List (Item α β)) :
    parse reduces items = parse reduces' items ↔
      ∀ t ∈ parse reduces' items, ∀ x ∈ t.leftPairs, reduces x.1 x.2 = true := by
  constructor
  · intro h t ht
    rw [← h] at ht
    exact (parse_eq_some_iff.mp ht).2.left
  · intro h
    have hsome : (parse reduces items).isSome = (parse reduces' items).isSome := by
      rw [parse, parse, parseFrom_isSome, parseFrom_isSome]
    cases hparse : parse reduces' items with
    | none =>
      rw [hparse] at hsome
      exact Option.isNone_iff_eq_none.mp (by simpa using hsome)
    | some t =>
      obtain ⟨htext, hgrouped⟩ := parse_eq_some_iff.mp hparse
      refine parse_eq_some_iff.mpr ⟨htext, h t hparse, fun x hx => ?_⟩
      by_contra hreduces
      have := hle _ _ (Bool.not_eq_false _ ▸ hreduces)
      rw [hgrouped.right x hx] at this
      cases this

end Precedence
