import Mathlib.Data.List.Basic

/-!
# Scanners

A scanner cuts a text into tokens by rules, in the manner of `lex`. A rule is a regular
expression and the start conditions under which it is looked at. The rule that matches the
most of the text is taken, the first of them if there are several; where none matches, one
symbol is passed by. A rule may change the start condition.

Matching is by derivatives, so that scanners run. What a rule has matched is a word of its
expression (`Scanner.Regex.matches_of_longest`). A text that is a word of a rule, and of no rule
the beginning of a longer one, is a token (`Scanner.nextToken_eq`): so a lexer, whose rules each
do something with their text, reads it before the rest (`Scanner.Lexer.read_append`).
-/

namespace Scanner

/-! ### Regular expressions -/

/-- Regular expressions. -/
inductive Regex (σ : Type)
  | empty
  | eps
  | sym (a : σ)
  | cls (p : σ → Bool)
  | seq (r s : Regex σ)
  | alt (r s : Regex σ)
  | star (r : Regex σ)

namespace Regex

variable {σ : Type}

/-- One or more. -/
def plus (r : Regex σ) : Regex σ := .seq r (.star r)

/-- None or one. -/
def opt (r : Regex σ) : Regex σ := .alt .eps r

/-- The words of an expression. -/
inductive Matches : Regex σ → List σ → Prop
  | eps : Matches .eps []
  | sym (a : σ) : Matches (.sym a) [a]
  | cls {p : σ → Bool} {a : σ} (h : p a = true) : Matches (.cls p) [a]
  | seq {r s : Regex σ} {u v : List σ} (hr : Matches r u) (hs : Matches s v) :
      Matches (.seq r s) (u ++ v)
  | left {r s : Regex σ} {u : List σ} (hr : Matches r u) : Matches (.alt r s) u
  | right {r s : Regex σ} {u : List σ} (hs : Matches s u) : Matches (.alt r s) u
  | nil {r : Regex σ} : Matches (.star r) []
  | star {r : Regex σ} {u v : List σ} (hr : Matches r u) (hs : Matches (.star r) v) :
      Matches (.star r) (u ++ v)

/-- Whether the empty word matches. -/
def nullable : Regex σ → Bool
  | empty | sym _ | cls _ => false
  | eps | star _ => true
  | seq r s => r.nullable && s.nullable
  | alt r s => r.nullable || s.nullable

theorem matches_nil {r : Regex σ} (h : r.nullable = true) : r.Matches [] := by
  induction r with
  | empty | sym | cls => cases h
  | eps => exact .eps
  | star => exact .nil
  | seq r s ihr ihs =>
    obtain ⟨hr, hs⟩ := Bool.and_eq_true_iff.mp h
    exact .seq (ihr hr) (ihs hs)
  | alt r s ihr ihs =>
    rcases Bool.or_eq_true_iff.mp h with hr | hs
    · exact .left (ihr hr)
    · exact .right (ihs hs)

variable [DecidableEq σ]

/-- What is left to match after a symbol. -/
def deriv (c : σ) : Regex σ → Regex σ
  | empty | eps => empty
  | sym a => if a = c then eps else empty
  | cls p => if p c then eps else empty
  | seq r s => if r.nullable then .alt (.seq (r.deriv c) s) (s.deriv c) else .seq (r.deriv c) s
  | alt r s => .alt (r.deriv c) (s.deriv c)
  | star r => .seq (r.deriv c) (.star r)

theorem matches_cons {c : σ} {r : Regex σ} {w : List σ} (h : (r.deriv c).Matches w) :
    r.Matches (c :: w) := by
  induction r generalizing w with
  | empty | eps => cases h
  | sym a =>
    rw [deriv] at h
    split at h
    · rename_i hc
      cases h
      exact hc ▸ .sym a
    · cases h
  | cls p =>
    rw [deriv] at h
    split at h
    · rename_i hc
      cases h
      exact .cls hc
    · cases h
  | seq r s ihr ihs =>
    rw [deriv] at h
    split at h
    · rename_i hr
      cases h with
      | left h =>
        cases h with
        | seq hr hs => exact .seq (ihr hr) hs
      | right h => exact .seq (matches_nil hr) (ihs h)
    · cases h with
      | seq hr hs => exact .seq (ihr hr) hs
  | alt r s ihr ihs =>
    cases h with
    | left h => exact .left (ihr h)
    | right h => exact .right (ihs h)
  | star r ih =>
    cases h with
    | seq hr hs => exact .star (ih hr) hs

/-- The length of the longest word at the beginning of a text. -/
def longest (r : Regex σ) : List σ → Option ℕ
  | [] => if r.nullable then some 0 else none
  | c :: w =>
    match (r.deriv c).longest w with
    | some n => some (n + 1)
    | none => if r.nullable then some 0 else none

/-- **What is found is a word.** -/
theorem matches_of_longest {r : Regex σ} {w : List σ} {n : ℕ} (h : r.longest w = some n) :
    r.Matches (w.take n) := by
  induction w generalizing r n with
  | nil =>
    rw [List.take_nil]
    rw [longest] at h
    split at h
    · exact matches_nil ‹_›
    · cases h
  | cons c w ih =>
    rw [longest] at h
    split at h
    · rename_i m hm
      obtain rfl := Option.some.inj h
      exact matches_cons (ih hm)
    · split at h
      · obtain rfl := Option.some.inj h
        exact matches_nil ‹_›
      · cases h

theorem longest_empty (w : List σ) : (empty : Regex σ).longest w = none := by
  induction w with
  | nil => rfl
  | cons c w ih =>
    rw [longest, deriv, ih]
    rfl

/-- A symbol is found where it is. -/
theorem longest_sym (a : σ) (w : List σ) : (sym a).longest (a :: w) = some 1 := by
  have heps : (eps : Regex σ).longest w = some 0 := by
    cases w with
    | nil => rfl
    | cons c w =>
      rw [longest, deriv, longest_empty]
      rfl
  rw [longest, deriv, if_pos rfl, heps]

omit [DecidableEq σ] in
theorem nullable_of_matches {r : Regex σ} (h : r.Matches []) : r.nullable = true := by
  have hall : ∀ w, r.Matches w → w = [] → r.nullable = true := by
    clear h
    intro w hw
    induction hw with
    | eps | nil | star => exact fun _ => rfl
    | sym | cls => exact nofun
    | seq _ _ ihr ihs =>
      intro heq
      obtain ⟨hu, hv⟩ := List.append_eq_nil_iff.mp heq
      exact Bool.and_eq_true_iff.mpr ⟨ihr hu, ihs hv⟩
    | left _ ih => exact fun heq => Bool.or_eq_true_iff.mpr (.inl (ih heq))
    | right _ ih => exact fun heq => Bool.or_eq_true_iff.mpr (.inr (ih heq))
  exact hall [] h rfl

/-- The derivative has all the words that are left. -/
theorem deriv_matches {c : σ} {r : Regex σ} {w : List σ} (h : r.Matches (c :: w)) :
    (r.deriv c).Matches w := by
  have hall : ∀ v, r.Matches v → ∀ w, v = c :: w → (r.deriv c).Matches w := by
    clear h
    intro v hv
    induction hv with
    | eps | nil => exact nofun
    | sym a =>
      rintro w ⟨⟩
      rw [deriv, if_pos rfl]
      exact .eps
    | cls hp =>
      rintro w ⟨⟩
      rw [deriv, if_pos hp]
      exact .eps
    | @seq r s u v hr hs ihr ihs =>
      intro w heq
      rw [deriv]
      cases u with
      | nil =>
        rw [if_pos (nullable_of_matches hr)]
        exact .right (ihs w heq)
      | cons a u =>
        obtain ⟨rfl, rfl⟩ := List.cons.inj heq
        split
        · exact .left (.seq (ihr u rfl) hs)
        · exact .seq (ihr u rfl) hs
    | left _ ih => exact fun w heq => .left (ih w heq)
    | right _ ih => exact fun w heq => .right (ih w heq)
    | @star r u v hr hs ihr ihs =>
      intro w heq
      cases u with
      | nil => exact ihs w heq
      | cons a u =>
        obtain ⟨rfl, rfl⟩ := List.cons.inj heq
        exact .seq (ihr u rfl) hs
  exact hall _ h w rfl

/-- A word at the beginning of a text is found, or a longer one. -/
theorem exists_longest {r : Regex σ} {u : List σ} (h : r.Matches u) (v : List σ) :
    ∃ n, r.longest (u ++ v) = some n ∧ u.length ≤ n := by
  induction u generalizing r with
  | nil =>
    have hnull := nullable_of_matches h
    cases v with
    | nil => exact ⟨0, if_pos hnull, Nat.le_refl 0⟩
    | cons c v =>
      rw [List.nil_append, longest]
      split
      · exact ⟨_, rfl, Nat.zero_le _⟩
      · exact ⟨0, if_pos hnull, Nat.le_refl 0⟩
  | cons c u ih =>
    obtain ⟨n, hn, hle⟩ := ih (deriv_matches h)
    rw [List.cons_append, longest, hn]
    exact ⟨n + 1, rfl, Nat.succ_le_succ hle⟩

/-- There is no word at all, as far as can be seen. -/
def void : Regex σ → Bool
  | empty => true
  | eps | sym _ | cls _ | star _ => false
  | seq r s => r.void || s.void
  | alt r s => r.void && s.void

omit [DecidableEq σ] in
theorem not_matches_of_void {r : Regex σ} {w : List σ} (hr : r.void = true) : ¬ r.Matches w := by
  intro h
  induction h with
  | eps | sym | cls | nil | star => cases hr
  | seq _ _ ihr ihs => exact (Bool.or_eq_true_iff.mp hr).elim ihr ihs
  | left _ ih => exact ih (Bool.and_eq_true_iff.mp hr).1
  | right _ ih => exact ih (Bool.and_eq_true_iff.mp hr).2

/-- No word contains the symbol. -/
def avoids (q : σ) : Regex σ → Bool
  | empty | eps => true
  | sym a => a ≠ q
  | cls p => !p q
  | seq r s | alt r s => r.avoids q && s.avoids q
  | star r => r.avoids q

theorem Matches.notMem {q : σ} {r : Regex σ} {w : List σ} (h : r.Matches w)
    (hr : r.avoids q = true) : q ∉ w := by
  induction h with
  | eps | nil => exact List.not_mem_nil
  | sym a =>
    rw [List.mem_singleton]
    rintro rfl
    simp [avoids] at hr
  | @cls p a h =>
    rw [List.mem_singleton]
    rintro rfl
    simp [avoids, h] at hr
  | seq _ _ ihr ihs =>
    rw [avoids, Bool.and_eq_true] at hr
    rw [List.mem_append, not_or]
    exact ⟨ihr hr.1, ihs hr.2⟩
  | left _ ih =>
    rw [avoids, Bool.and_eq_true] at hr
    exact ih hr.1
  | right _ ih =>
    rw [avoids, Bool.and_eq_true] at hr
    exact ih hr.2
  | star _ _ ihr ihs =>
    rw [List.mem_append, not_or]
    exact ⟨ihr hr, ihs hr⟩

/-- All words contain the symbol, as far as can be seen. -/
def requires (q : σ) : Regex σ → Bool
  | empty => true
  | eps | cls _ | star _ => false
  | sym a => a = q
  | seq r s => r.requires q || s.requires q
  | alt r s => r.requires q && s.requires q

theorem Matches.mem {q : σ} {r : Regex σ} {w : List σ} (h : r.Matches w)
    (hr : r.requires q = true) : q ∈ w := by
  induction h with
  | eps | cls | nil | star => cases hr
  | sym a => exact List.mem_singleton.mpr (of_decide_eq_true hr).symm
  | seq _ _ ihr ihs =>
    rcases Bool.or_eq_true_iff.mp hr with hr | hs
    · exact List.mem_append_left _ (ihr hr)
    · exact List.mem_append_right _ (ihs hs)
  | left _ ih => exact ih (Bool.and_eq_true_iff.mp hr).1
  | right _ ih => exact ih (Bool.and_eq_true_iff.mp hr).2

omit [DecidableEq σ] in
/-- Symbols of a class, one at least. -/
theorem matches_plus_cls {p : σ → Bool} {w : List σ} (hne : w ≠ []) (hw : ∀ c ∈ w, p c = true) :
    (Regex.plus (.cls p)).Matches w := by
  have hstar {w : List σ} (hw : ∀ c ∈ w, p c = true) : (Regex.star (.cls p)).Matches w := by
    induction w with
    | nil => exact .nil
    | cons c w ih =>
      rw [List.forall_mem_cons] at hw
      exact .star (u := [c]) (.cls hw.1) (ih hw.2)
  obtain ⟨c, w, rfl⟩ := List.exists_cons_of_ne_nil hne
  rw [List.forall_mem_cons] at hw
  exact .seq (u := [c]) (.cls hw.1) (hstar hw.2)

/-- A text is not the beginning of a longer word in it. -/
def Stops (r : Regex σ) (u v : List σ) : Prop := ∀ x y, v = x ++ y → x ≠ [] → ¬ r.Matches (u ++ x)

/-- A text stops at a symbol that no word contains behind the first one. -/
theorem stops_of_avoids {c d : σ} {r : Regex σ} (u v : List σ)
    (h : ((r.deriv c).void || (r.deriv c).avoids d) = true) : r.Stops (c :: u) (d :: v) := by
  rintro (_ | ⟨a, x⟩) y heq hx hmatch
  · exact hx rfl
  · obtain ⟨rfl, -⟩ := List.cons.inj heq
    have hderiv : (r.deriv c).Matches (u ++ d :: x) := deriv_matches hmatch
    rcases Bool.or_eq_true_iff.mp h with hvoid | havoids
    · exact not_matches_of_void hvoid hderiv
    · exact hderiv.notMem havoids (List.mem_append_right _ List.mem_cons_self)

omit [DecidableEq σ] in
theorem stops_nil (r : Regex σ) (u : List σ) : r.Stops u [] :=
  fun _ _ heq hx _ => hx (List.append_eq_nil_iff.mp heq.symm).1

/-- Where a text stops, nothing longer is found. -/
theorem Stops.longest_le {r : Regex σ} {u v : List σ} (h : r.Stops u v) {n : ℕ}
    (hn : r.longest (u ++ v) = some n) (hlen : n ≤ (u ++ v).length) : n ≤ u.length := by
  by_contra hlt
  have hmatch := matches_of_longest hn
  rw [List.take_append, List.take_of_length_le (by omega)] at hmatch
  refine h (v.take (n - u.length)) (v.drop (n - u.length))
    (List.take_append_drop _ v).symm ?_ hmatch
  intro hnil
  rw [List.length_append] at hlen
  have hzero := congrArg List.length hnil
  rw [List.length_take, List.length_nil] at hzero
  omega

theorem longest_le_length {r : Regex σ} {w : List σ} {n : ℕ} (h : r.longest w = some n) :
    n ≤ w.length := by
  induction w generalizing r n with
  | nil =>
    rw [longest] at h
    split at h
    · exact Option.some.inj h ▸ Nat.le_refl _
    · cases h
  | cons c w ih =>
    rw [longest] at h
    split at h
    · rename_i m hm
      exact Option.some.inj h ▸ Nat.succ_le_succ (ih hm)
    · split at h
      · exact Option.some.inj h ▸ Nat.zero_le _
      · cases h

end Regex

/-! ### Rules and tokens -/

/-- A rule: the start conditions it is for, its expression, and the start condition it begins. -/
structure Rule (κ σ : Type) where
  conditions : List κ
  regex : Regex σ
  begins : Option κ := none

/-- A token: the start condition it is read in, its text, and the start condition after it. -/
structure Token (κ σ : Type) where
  condition : κ
  text : List σ
  next : κ

variable {κ σ : Type} [DecidableEq κ] [DecidableEq σ]

/-- How much of a text a rule matches under a start condition. -/
def Rule.reach (rule : Rule κ σ) (k : κ) (w : List σ) : ℕ :=
  if k ∈ rule.conditions then (rule.regex.longest w).getD 0 else 0

/-- The rule that matches the most, with the length of what it matches; the first, if there
are several. -/
def choose : List (Rule κ σ) → κ → List σ → Option (ℕ × Rule κ σ)
  | [], _, _ => none
  | rule :: rules, k, w =>
    if rule.reach k w = 0 then choose rules k w
    else
      match choose rules k w with
      | none => some (rule.reach k w, rule)
      | some (n, best) => if rule.reach k w < n then some (n, best) else some (rule.reach k w, rule)

/-- The next token of a text that is not empty. -/
def nextToken (rules : List (Rule κ σ)) (k : κ) (c : σ) (w : List σ) : Token κ σ :=
  match choose rules k (c :: w) with
  | some (n, rule) => ⟨k, (c :: w).take n, rule.begins.getD k⟩
  | none => ⟨k, [c], k⟩

/-- The tokens of a text. Each takes up a symbol at least, so that its length is fuel enough. -/
def tokens (rules : List (Rule κ σ)) : (fuel : ℕ) → κ → List σ → List (Token κ σ)
  | 0, _, _ => []
  | _ + 1, _, [] => []
  | fuel + 1, k, c :: w =>
    let token := nextToken rules k c w
    token :: tokens rules fuel token.next ((c :: w).drop token.text.length)

variable {rules : List (Rule κ σ)} {k : κ} {w : List σ}

/-- What a rule reaches is a word of its expression. -/
theorem Rule.matches_reach {rule : Rule κ σ} (h : rule.reach k w ≠ 0) :
    k ∈ rule.conditions ∧ rule.regex.Matches (w.take (rule.reach k w)) := by
  unfold reach at h ⊢
  split at h
  · rename_i hk
    rw [if_pos hk]
    cases hlongest : rule.regex.longest w with
    | none =>
      rw [hlongest] at h
      exact absurd rfl h
    | some n => exact ⟨hk, Regex.matches_of_longest hlongest⟩
  · exact absurd rfl h

/-- A rule reaches the end of a text that is a word of its expression. -/
theorem Rule.reach_eq_length_iff {rule : Rule κ σ} (hw : w ≠ []) :
    rule.reach k w = w.length ↔ k ∈ rule.conditions ∧ rule.regex.Matches w := by
  constructor
  · intro h
    have hne : rule.reach k w ≠ 0 :=
      fun hzero => hw (List.eq_nil_of_length_eq_zero (h.symm.trans hzero))
    have hreach := Rule.matches_reach hne
    rw [h, List.take_length] at hreach
    exact hreach
  · rintro ⟨hk, hmatches⟩
    obtain ⟨n, hn, hle⟩ := Regex.exists_longest hmatches []
    rw [List.append_nil] at hn
    rw [Rule.reach, if_pos hk, hn, Option.getD_some]
    exact Nat.le_antisymm (Regex.longest_le_length hn) hle

/-- A rule of which no word begins with the symbol reaches nothing. -/
theorem Rule.reach_eq_zero {rule : Rule κ σ} {c : σ} (h : (rule.regex.deriv c).void = true)
    (w : List σ) : rule.reach k (c :: w) = 0 := by
  by_contra hne
  have hmatches := (Rule.matches_reach hne).2
  obtain ⟨n, hn⟩ := Nat.exists_eq_succ_of_ne_zero hne
  rw [hn, List.take_succ_cons] at hmatches
  exact Regex.not_matches_of_void h (Regex.deriv_matches hmatches)

/-- **What is chosen**: a rule that reaches somewhere, or there is none. -/
theorem choose_cases (rules : List (Rule κ σ)) (k : κ) (w : List σ) :
    (∃ rule ∈ rules, choose rules k w = some (rule.reach k w, rule) ∧ rule.reach k w ≠ 0) ∨
    choose rules k w = none ∧ ∀ rule ∈ rules, rule.reach k w = 0 := by
  induction rules with
  | nil => exact .inr ⟨rfl, fun _ h => absurd h List.not_mem_nil⟩
  | cons rule rules ih =>
    rw [choose]
    by_cases hreach : rule.reach k w = 0
    · rw [if_pos hreach]
      rcases ih with ⟨best, hmem, hbest⟩ | ⟨hnone, hrules⟩
      · exact .inl ⟨best, List.mem_cons_of_mem _ hmem, hbest⟩
      · exact .inr ⟨hnone, List.forall_mem_cons.mpr ⟨hreach, hrules⟩⟩
    · rw [if_neg hreach]
      rcases ih with ⟨best, hmem, hchoose, hbest⟩ | ⟨hnone, -⟩
      · rw [hchoose]
        dsimp only
        split
        · exact .inl ⟨best, List.mem_cons_of_mem _ hmem, rfl, hbest⟩
        · exact .inl ⟨rule, List.mem_cons_self, rfl, hreach⟩
      · rw [hnone]
        exact .inl ⟨rule, List.mem_cons_self, rfl, hreach⟩

/-- **What a token is**: a word of a rule, or a symbol that no rule matches. -/
theorem nextToken_cases (rules : List (Rule κ σ)) (k : κ) (c : σ) (w : List σ) :
    (∃ rule ∈ rules, k ∈ rule.conditions ∧ rule.regex.Matches (nextToken rules k c w).text ∧
      (nextToken rules k c w).next = rule.begins.getD k) ∨
    (nextToken rules k c w).text = [c] ∧ (nextToken rules k c w).next = k ∧
      ∀ rule ∈ rules, rule.reach k (c :: w) = 0 := by
  rcases choose_cases rules k (c :: w) with ⟨rule, hmem, hchoose, hreach⟩ | ⟨hnone, hrules⟩
  · obtain ⟨hk, hmatches⟩ := Rule.matches_reach hreach
    rw [nextToken, hchoose]
    exact .inl ⟨rule, hmem, hk, hmatches, rfl⟩
  · rw [nextToken, hnone]
    exact .inr ⟨rfl, rfl, hrules⟩

/-- A token is what is at the beginning of the text. -/
theorem nextToken_text (rules : List (Rule κ σ)) (k : κ) (c : σ) (w : List σ) :
    (nextToken rules k c w).text ≠ [] ∧
      (nextToken rules k c w).text ++
        (c :: w).drop (nextToken rules k c w).text.length = c :: w := by
  rcases choose_cases rules k (c :: w) with ⟨rule, -, hchoose, hreach⟩ | ⟨hnone, -⟩
  · rw [nextToken, hchoose]
    obtain ⟨n, hn⟩ := Nat.exists_eq_succ_of_ne_zero hreach
    refine ⟨?_, ?_⟩
    · rw [hn]
      exact List.cons_ne_nil _ _
    · dsimp only
      rw [List.length_take]
      rcases Nat.le_total (rule.reach k (c :: w)) (c :: w).length with hle | hle
      · rw [Nat.min_eq_left hle, List.take_append_drop]
      · rw [Nat.min_eq_right hle, List.drop_length, List.append_nil, List.take_of_length_le hle]
  · rw [nextToken, hnone]
    exact ⟨List.cons_ne_nil _ _, rfl⟩

/-- Nothing reaches farther than what is chosen. -/
theorem reach_le_of_choose {n : ℕ} {best : Rule κ σ} (h : choose rules k w = some (n, best)) :
    ∀ rule ∈ rules, rule.reach k w ≤ n := by
  induction rules generalizing n best with
  | nil => exact fun _ h => absurd h List.not_mem_nil
  | cons rule rules ih =>
    rw [choose] at h
    rw [List.forall_mem_cons]
    split at h
    · rename_i hreach
      exact ⟨hreach ▸ Nat.zero_le n, ih h⟩
    · split at h
      · rename_i hnone
        obtain ⟨rfl, -⟩ := Prod.mk.inj (Option.some.inj h)
        refine ⟨Nat.le_refl _, fun other hmem => ?_⟩
        rcases choose_cases rules k w with ⟨_, -, hsome, -⟩ | ⟨-, hzero⟩
        · rw [hnone] at hsome
          cases hsome
        · exact hzero other hmem ▸ Nat.zero_le _
      · rename_i hsome
        have hrest := ih hsome
        split at h
        · rename_i hlt
          obtain ⟨rfl, -⟩ := Prod.mk.inj (Option.some.inj h)
          exact ⟨Nat.le_of_lt hlt, hrest⟩
        · rename_i hge
          obtain ⟨rfl, -⟩ := Prod.mk.inj (Option.some.inj h)
          exact ⟨Nat.le_refl _, fun other hmem =>
            Nat.le_trans (hrest other hmem) (Nat.le_of_not_lt hge)⟩

/-- **Where a token ends**: at a text that is a word of a rule, and of no rule the beginning of
a longer one. -/
theorem nextToken_eq {c : σ} {u v : List σ}
    (hmatch : ∃ rule ∈ rules, k ∈ rule.conditions ∧ rule.regex.Matches (c :: u))
    (hstops : ∀ rule ∈ rules, k ∈ rule.conditions → rule.regex.Stops (c :: u) v)
    (hbegins : ∀ rule ∈ rules, k ∈ rule.conditions → rule.regex.Matches (c :: u) →
      rule.begins = none) :
    nextToken rules k c (u ++ v) = ⟨k, c :: u, k⟩ := by
  obtain ⟨rule, hmem, hk, hword⟩ := hmatch
  obtain ⟨n, hn, hle⟩ := Regex.exists_longest hword v
  have hreach : rule.reach k (c :: (u ++ v)) = n := by
    rw [Rule.reach, if_pos hk, ← List.cons_append, hn, Option.getD_some]
  have hpos : 0 < (c :: u).length := Nat.succ_pos _
  rcases choose_cases rules k (c :: (u ++ v)) with ⟨best, hbest, hchoose, hne⟩ | ⟨-, hzero⟩
  · obtain ⟨hkbest, hbestWord⟩ := Rule.matches_reach hne
    have hlength : best.reach k (c :: (u ++ v)) = (c :: u).length := by
      refine Nat.le_antisymm ?_ ?_
      · cases hlongest : best.regex.longest (c :: u ++ v) with
        | none =>
          rw [Rule.reach, if_pos hkbest, ← List.cons_append, hlongest]
          exact Nat.zero_le _
        | some m =>
          rw [Rule.reach, if_pos hkbest, ← List.cons_append, hlongest]
          exact (hstops best hbest hkbest).longest_le hlongest
            (Regex.longest_le_length hlongest)
      · have hmax := reach_le_of_choose hchoose rule hmem
        omega
    rw [hlength, ← List.cons_append, List.take_left] at hbestWord
    rw [nextToken, hchoose, hlength, ← List.cons_append]
    dsimp only
    rw [List.take_left, hbegins best hbest hkbest hbestWord]
    rfl
  · have hzero' := hzero rule hmem
    omega

/-- More fuel than symbols makes no difference. -/
theorem tokens_fuel (rules : List (Rule κ σ)) {fuel : ℕ} (k : κ) (w : List σ)
    (h : w.length ≤ fuel) : tokens rules fuel k w = tokens rules w.length k w := by
  induction fuel using Nat.strongRecOn generalizing k w with
  | ind fuel ih =>
    cases w with
    | nil => cases fuel <;> rfl
    | cons c w =>
      obtain ⟨fuel, rfl⟩ := Nat.exists_eq_succ_of_ne_zero (by
        rw [List.length_cons] at h
        omega : fuel ≠ 0)
      have hpos : (nextToken rules k c w).text.length ≠ 0 :=
        fun hzero => (nextToken_text rules k c w).1 (List.eq_nil_of_length_eq_zero hzero)
      have hrest : ((c :: w).drop (nextToken rules k c w).text.length).length ≤ w.length := by
        rw [List.length_drop, List.length_cons]
        omega
      rw [List.length_cons] at h
      rw [List.length_cons, tokens, tokens]
      rw [ih fuel (Nat.lt_succ_self fuel) _ _ (by omega)]
      by_cases hfuel : w.length = fuel
      · rw [hfuel, ih fuel (Nat.lt_succ_self fuel) _ _ (by omega)]
      · rw [ih w.length (by omega) _ _ hrest]

/-- **The tokens make up the text**. -/
theorem flatMap_text_tokens (rules : List (Rule κ σ)) {fuel : ℕ} (k : κ) (w : List σ)
    (h : w.length ≤ fuel) : (tokens rules fuel k w).flatMap (·.text) = w := by
  induction fuel generalizing k w with
  | zero =>
    rw [List.eq_nil_of_length_eq_zero (Nat.le_zero.mp h)]
    rfl
  | succ fuel ih =>
    cases w with
    | nil => rfl
    | cons c w =>
      obtain ⟨hne, htext⟩ := nextToken_text rules k c w
      have hpos : 0 < (nextToken rules k c w).text.length := List.length_pos_iff.mpr hne
      have hrest : ((c :: w).drop (nextToken rules k c w).text.length).length ≤ fuel := by
        rw [List.length_drop]
        omega
      rw [tokens, List.flatMap_cons, ih _ _ hrest]
      exact htext

theorem text_ne_nil_of_mem_tokens {rules : List (Rule κ σ)} {fuel : ℕ} {k : κ} {w : List σ}
    {t : Token κ σ} (h : t ∈ tokens rules fuel k w) : t.text ≠ [] := by
  induction fuel generalizing k w with
  | zero => exact absurd h List.not_mem_nil
  | succ fuel ih =>
    cases w with
    | nil => exact absurd h List.not_mem_nil
    | cons c w =>
      rcases List.mem_cons.mp h with rfl | h
      · exact (nextToken_text rules k c w).1
      · exact ih h

/-! ### Lexers -/

/-- Rules, each with what it does with its text. -/
abbrev Lexer (κ σ τ : Type) := List (Rule κ σ × (List σ → τ))

namespace Lexer

variable {τ : Type}

/-- The rules. -/
def toRules (l : Lexer κ σ τ) : List (Rule κ σ) := l.map Prod.fst

/-- What is done with a token: the first rule of which it is a word says so. -/
def act (l : Lexer κ σ τ) (t : Token κ σ) : Option τ :=
  (l.find? fun r => r.1.reach t.condition t.text = t.text.length).map (·.2 t.text)

/-- What is done with the tokens of a text. -/
def read (l : Lexer κ σ τ) (k : κ) (w : List σ) : List (Option τ) :=
  (tokens l.toRules w.length k w).map l.act

/-- **A text is read token by token**. -/
theorem read_append {l : Lexer κ σ τ} {c : σ} {u v : List σ}
    (hmatch : ∃ rule ∈ l.toRules, k ∈ rule.conditions ∧ rule.regex.Matches (c :: u))
    (hstops : ∀ rule ∈ l.toRules, k ∈ rule.conditions → rule.regex.Stops (c :: u) v)
    (hbegins : ∀ rule ∈ l.toRules, k ∈ rule.conditions → rule.regex.Matches (c :: u) →
      rule.begins = none) :
    l.read k (c :: u ++ v) = l.act ⟨k, c :: u, k⟩ :: l.read k v := by
  have hdrop : (c :: (u ++ v)).drop (c :: u).length = v := List.drop_left
  rw [read, List.cons_append, List.length_cons, tokens, nextToken_eq hmatch hstops hbegins]
  dsimp only
  rw [hdrop, tokens_fuel l.toRules k v (by simp), List.map_cons]
  rfl

/-- **A symbol that no word begins with** is passed by. -/
theorem read_cons_of_void {l : Lexer κ σ τ} {c : σ}
    (h : ∀ rule ∈ l.toRules, (rule.regex.deriv c).void = true) (v : List σ) :
    l.read k (c :: v) = none :: l.read k v := by
  have hreach (w : List σ) : ∀ rule ∈ l.toRules, rule.reach k (c :: w) = 0 :=
    fun rule hrule => Rule.reach_eq_zero (h rule hrule) w
  have hnext : nextToken l.toRules k c v = ⟨k, [c], k⟩ := by
    rw [nextToken]
    rcases choose_cases l.toRules k (c :: v) with ⟨rule, hrule, -, hne⟩ | ⟨hnone, -⟩
    · exact absurd (hreach v rule hrule) hne
    · rw [hnone]
  have hact : l.act ⟨k, [c], k⟩ = none := by
    rw [act, Option.map_eq_none_iff, List.find?_eq_none]
    intro r hr heq
    rw [decide_eq_true_iff, hreach [] r.1 (List.mem_map_of_mem hr)] at heq
    exact absurd heq Nat.zero_ne_one
  rw [read, List.length_cons, tokens, hnext, List.map_cons, hact]
  rfl

/-- **The first rule of which a text is a word** says what is done with it. -/
theorem act_eq {before after : Lexer κ σ τ} {rule : Rule κ σ} {action : List σ → τ} {w : List σ}
    {next : κ} (hw : w ≠ []) (hrule : k ∈ rule.conditions ∧ rule.regex.Matches w)
    (hbefore : ∀ r ∈ before, ¬ r.1.regex.Matches w) :
    act (before ++ (rule, action) :: after) ⟨k, w, next⟩ = some (action w) := by
  have hfirst : before.find? (fun r => r.1.reach k w = w.length) = none := by
    rw [List.find?_eq_none]
    intro r hr heq
    exact hbefore r hr ((Rule.reach_eq_length_iff hw).mp (of_decide_eq_true heq)).2
  have hfound : ((rule, action) :: after).find? (fun r => r.1.reach k w = w.length) =
      some (rule, action) :=
    List.find?_cons_of_pos (decide_eq_true ((Rule.reach_eq_length_iff hw).mpr hrule))
  rw [act, List.find?_append, hfirst, Option.none_or, hfound]
  rfl

/-- What is done is done by a rule with a word of it. -/
theorem exists_of_mem_read {l : Lexer κ σ τ} {a : τ} (h : some a ∈ l.read k w) :
    ∃ r ∈ l, ∃ text, text ≠ [] ∧ r.1.regex.Matches text ∧ a = r.2 text := by
  obtain ⟨t, ht, hact⟩ := List.mem_map.mp h
  obtain ⟨r, hfind, rfl⟩ := Option.map_eq_some_iff.mp hact
  have hreach := List.find?_some hfind
  have hne := text_ne_nil_of_mem_tokens ht
  exact ⟨r, List.mem_of_find?_eq_some hfind, t.text, hne,
    ((Rule.reach_eq_length_iff hne).mp (of_decide_eq_true hreach)).2, rfl⟩

end Lexer

end Scanner
