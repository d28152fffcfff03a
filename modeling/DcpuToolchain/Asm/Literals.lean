import DcpuToolchain.Asm.Lexer
import DcpuToolchain.Pp.Expansion

/-!
# Strings in the preprocessor and in the assembler

The preprocessor keeps track of strings (`ppimpl_track_strings`) so as to replace nothing in
them; the assembler's lexer reads them by start conditions. The two should agree at every
character of a text.

The preprocessor knows neither comments nor escaped backslashes, and ends every string with the
line. So they agree exactly on the texts whose literals are closed
(`DcpuToolchain.stringStates_iff`): no quotes but those of literals, no newlines in literals,
and no backslash directly before the quote that ends one.
-/

namespace DcpuToolchain

open Scanner

/-- Where a character stands as to strings. -/
inductive StringState
  | outside | single | double
  deriving DecidableEq, Repr

/-! ### The two readers -/

def Quotes.state : Quotes → StringState
  | .outside => .outside
  | .single _ => .single
  | .double _ => .double

/-- The states after each character of a text. -/
def Quotes.states : Quotes → List Char → List Quotes
  | _, [] => []
  | q, c :: text => q.next c :: (q.next c).states text

/-- The flags of the preprocessor. -/
def Frame.stringState (f : Frame) : StringState :=
  if f.inSingleString then .single else if f.inDoubleString then .double else .outside

/-- The flags after each of the next characters, as long as no handler comes between. -/
def Frame.stringStates : ℕ → Frame → List StringState
  | 0, _ => []
  | n + 1, f => f.fetch.stringState :: stringStates n f.fetch

def StartCondition.stringState : StartCondition → StringState
  | .inChar => .single
  | .inString => .double
  | _ => .outside

/-- The states after each character of a token: the start condition changes with the last. -/
def tokenStates (t : Token StartCondition Char) : List StringState :=
  List.replicate (t.text.length - 1) t.condition.stringState ++ [t.next.stringState]

/-- What a token with closed literals is; `previous` is the character before it. Outside
literals it contains no quotes; in a literal it contains no newline, and does not end the
literal directly behind a backslash. -/
structure ClosedToken (previous : Option Char) (t : Token StartCondition Char) : Prop where
  quotes : t.condition.stringState = .outside → t.next.stringState = .outside →
    '\'' ∉ t.text ∧ '"' ∉ t.text
  lines : t.condition.stringState ≠ .outside → '\n' ∉ t.text
  ends : t.condition.stringState ≠ .outside → t.next.stringState = .outside →
    previous ≠ some '\\'

/-- **A text whose literals are closed**: there are no quotes but those at the ends of
literals, no newlines in literals, and no backslash directly before the quote that ends one. -/
def ClosedLiterals : (previous : Option Char) → List (Token StartCondition Char) → Prop
  | _, [] => True
  | previous, t :: ts => ClosedToken previous t ∧ ClosedLiterals t.text.getLast? ts

/-! ### The preprocessor -/

theorem Quotes.states_append (q : Quotes) (text text' : List Char) :
    q.states (text ++ text') = q.states text ++ (q.after text).states text' := by
  induction text generalizing q with
  | nil => rfl
  | cons c text ih =>
    rw [List.cons_append, states, states, ih, List.cons_append, after_cons]

@[simp] theorem Quotes.states_length (q : Quotes) (text : List Char) :
    (q.states text).length = text.length := by
  induction text generalizing q with
  | nil => rfl
  | cons c text ih => rw [states, List.length_cons, ih, List.length_cons]

theorem Quotes.Stands.state_eq {q : Quotes} {f : Frame} (h : q.Stands f) :
    f.stringState = q.state := by
  cases q with
  | outside => rw [Frame.stringState, h.1, h.2]; rfl
  | single => rw [Frame.stringState, h.1]; rfl
  | double => rw [Frame.stringState, h.1, h.2.1]; rfl

/-- The flags follow the quotes of the text. -/
theorem Frame.stringStates_eq {q : Quotes} {f : Frame} {text : List Char} (h : q.Stands f)
    (hpending : f.pending = text) :
    f.stringStates text.length = (q.states text).map Quotes.state := by
  induction text generalizing q f with
  | nil => rfl
  | cons c text ih =>
    obtain ⟨g, mark, hfetch, houtput, hmark, -, hsingle, hdouble⟩ := f.fetch_cons hpending
    have hstands : (q.next c).Stands f.fetch := by
      rw [hfetch]
      refine Quotes.Stands.congr (h.next houtput ?_ hsingle hdouble) rfl rfl rfl
      exact hmark.imp_right And.left
    have hpending' : f.fetch.pending = text := by
      rw [f.fetch_pending, hpending]
      rfl
    rw [List.length_cons, stringStates, ih hstands hpending', hstands.state_eq]
    rfl

/-! ### The rules -/

/-- The quote of a kind of literal; there is none outside. -/
def StringState.quote : StringState → Option Char
  | .outside => none
  | .single => some '\''
  | .double => some '"'

/-- The quotes of a state. -/
def Quotes.of : StringState → Bool → Quotes
  | .outside, _ => .outside
  | .single, escaped => .single escaped
  | .double, escaped => .double escaped

@[simp] theorem Quotes.of_state (s : StringState) (escaped : Bool) :
    (of s escaped).state = s := by
  cases s <;> rfl

@[simp] theorem Quotes.of_outside (escaped : Bool) : of .outside escaped = outside := rfl

/-- The only word is the symbol. -/
def onlySym (d : Char) : Regex Char → Bool
  | .sym a => a = d
  | _ => false

/-- All words begin with a backslash and a character, and do not contain the quote behind
these. -/
def guarded (d : Char) : Regex Char → Bool
  | .seq (.sym a) (.seq (.sym _) r) => a = '\\' && r.avoids d
  | .seq (.sym a) (.seq (.cls _) r) => a = '\\' && r.avoids d
  | _ => false

theorem eq_of_onlySym {d : Char} {r : Regex Char} {w : List Char} (hr : onlySym d r = true)
    (h : r.Matches w) : w = [d] := by
  cases r with
  | sym a =>
    cases h
    rw [of_decide_eq_true hr]
  | empty | eps | cls | seq | alt | star => cases hr

theorem cons_of_guarded {d : Char} {r : Regex Char} {w : List Char} (hr : guarded d r = true)
    (h : r.Matches w) : ∃ c u, w = '\\' :: c :: u ∧ d ∉ u := by
  unfold guarded at hr
  split at hr
  · rw [Bool.and_eq_true] at hr
    cases h with
    | seq ha h =>
      cases ha
      cases h with
      | seq hc hu =>
        cases hc
        exact ⟨_, _, by rw [of_decide_eq_true hr.1]; rfl, hu.notMem hr.2⟩
  · rw [Bool.and_eq_true] at hr
    cases h with
    | seq ha h =>
      cases ha
      cases h with
      | seq hc hu =>
        cases hc
        exact ⟨_, _, by rw [of_decide_eq_true hr.1]; rfl, hu.notMem hr.2⟩
  · cases hr

/-- How the rule for a start condition treats quotes: literals are begun and ended by their
quote alone, and contain it only behind a backslash. -/
def StartCondition.minds (k : StartCondition) (rule : Rule StartCondition Char) : Bool :=
  match k.stringState.quote, (rule.begins.getD k).stringState.quote with
  | none, none => true
  | none, some d => onlySym d rule.regex
  | some d, none => onlySym d rule.regex
  | some d, some d' => d = d' && (rule.regex.avoids d || guarded d rule.regex)

theorem asmRules_minds :
    asmRules.all (fun rule => rule.conditions.all fun k => k.minds rule) = true := by
  decide +kernel

/-- There is a rule for the quote that ends a literal. -/
theorem asmRules_quote : ([.inChar, .inString] : List StartCondition).all (fun k =>
    asmRules.any fun rule => k.stringState.quote.any fun d =>
      decide (k ∈ rule.conditions) && onlySym d rule.regex) = true := by
  decide +kernel

/-! ### Tokens -/

/-- **What a token of the assembler is.** Outside literals it is a quote that begins one, or
begins none; in a literal it is the quote that ends it, or its quote is behind a backslash at
the beginning if it is there at all. -/
theorem nextToken_minds (k : StartCondition) (c : Char) (text : List Char) {t : Token _ _}
    (ht : nextToken asmRules k c text = t) :
    match k.stringState.quote, t.next.stringState.quote with
    | none, none => True
    | none, some d => t.text = [d]
    | some d, none => t.text = [d]
    | some d, some d' => d = d' ∧ (d ∉ t.text ∨ ∃ c u, t.text = '\\' :: c :: u ∧ d ∉ u) := by
  rcases nextToken_cases asmRules k c text with
    ⟨rule, hmem, hk, hmatches, hnext⟩ | ⟨htext, hnext, hrules⟩
  · rw [ht] at hmatches hnext
    have hminds : k.minds rule = true :=
      List.all_eq_true.mp (List.all_eq_true.mp asmRules_minds rule hmem) k hk
    rw [hnext]
    unfold StartCondition.minds at hminds
    split at hminds
    · trivial
    · exact eq_of_onlySym hminds hmatches
    · exact eq_of_onlySym hminds hmatches
    · rw [Bool.and_eq_true, Bool.or_eq_true] at hminds
      refine ⟨of_decide_eq_true hminds.1, ?_⟩
      exact hminds.2.imp hmatches.notMem fun hguarded => cons_of_guarded hguarded hmatches
  · rw [ht] at htext hnext
    rw [hnext, htext]
    cases hquote : k.stringState.quote with
    | none => trivial
    | some d =>
      refine ⟨rfl, .inl ?_⟩
      rw [List.mem_singleton]
      rintro rfl
      -- a rule for the quote reaches it
      have hliteral : k ∈ [StartCondition.inChar, .inString] := by
        cases k <;> first | decide | cases hquote
      obtain ⟨rule, hmem, hrule⟩ :=
        List.any_eq_true.mp (List.all_eq_true.mp asmRules_quote k hliteral)
      rw [hquote, Option.any_some, Bool.and_eq_true] at hrule
      have hreach : rule.reach k (d :: text) = 1 := by
        rw [Rule.reach, if_pos (of_decide_eq_true hrule.1)]
        obtain ⟨conditions, regex, begins⟩ := rule
        cases regex with
        | sym a =>
          rw [of_decide_eq_true hrule.2, Regex.longest_sym]
          rfl
        | empty | eps | cls | seq | alt | star => cases hrule.2
      rw [hrules rule hmem] at hreach
      cases hreach

/-- What one character does to the quotes. -/
theorem Quotes.of_next {s : StringState} {d : Char} (hd : s.quote = some d) (escaped : Bool)
    (c : Char) : (of s escaped).next c =
      if (c = d ∧ escaped = false) ∨ c = '\n' then .outside else of s (c = '\\') := by
  cases s with
  | outside => cases hd
  | single => cases hd; rfl
  | double => cases hd; rfl

/-- Outside strings all is outside as long as there is no quote. -/
theorem Quotes.outside_states (text : List Char) :
    (outside.states text).map state = List.replicate text.length .outside ↔
      '\'' ∉ text ∧ '"' ∉ text := by
  induction text with
  | nil => simp [states]
  | cons c text ih =>
    rw [states, List.map_cons, List.length_cons, List.replicate_succ, List.cons.injEq, next]
    by_cases hsingle : c = '\''
    · subst hsingle
      simp [state]
    · by_cases hdouble : c = '"'
      · subst hdouble
        simp [state]
      · rw [if_neg hsingle, if_neg hdouble, ih]
        simp [state, Ne.symm hsingle, Ne.symm hdouble]

theorem Quotes.outside_after {text : List Char} (h : '\'' ∉ text ∧ '"' ∉ text) :
    outside.after text = outside := by
  induction text with
  | nil => rfl
  | cons c text ih =>
    simp only [List.mem_cons, not_or] at h
    rw [after_cons, next, if_neg (Ne.symm h.1.1), if_neg (Ne.symm h.2.1)]
    exact ih ⟨h.1.2, h.2.2⟩

/-- In a literal all is in the literal as long as there is neither its quote nor a newline. -/
theorem Quotes.of_states {s : StringState} {d : Char} (hd : s.quote = some d) (escaped : Bool)
    {text : List Char} (htext : d ∉ text) :
    ((of s escaped).states text).map state = List.replicate text.length s ↔ '\n' ∉ text := by
  induction text generalizing escaped with
  | nil => simp [states]
  | cons c text ih =>
    simp only [List.mem_cons, not_or] at htext
    rw [states, List.map_cons, List.length_cons, List.replicate_succ, List.cons.injEq,
      of_next hd]
    by_cases hc : c = '\n'
    · subst hc
      rw [if_pos (.inr rfl)]
      refine iff_of_false ?_ (by simp)
      rintro ⟨hs, -⟩
      rw [← hs] at hd
      cases hd
    · rw [if_neg fun h => h.elim (fun h => htext.1 h.1.symm) hc, of_state, ih _ htext.2]
      simp [Ne.symm hc]

theorem Quotes.of_after {s : StringState} {d : Char} (hd : s.quote = some d) (escaped : Bool)
    {text : List Char} (htext : d ∉ text) (hlines : '\n' ∉ text) (hne : text ≠ []) :
    (of s escaped).after text = of s (text.getLast? = some '\\') := by
  induction text generalizing escaped with
  | nil => exact absurd rfl hne
  | cons c text ih =>
    simp only [List.mem_cons, not_or] at htext hlines
    rw [after_cons, of_next hd,
      if_neg fun h => h.elim (fun h => htext.1 h.1.symm) (Ne.symm hlines.1)]
    cases text with
    | nil =>
      rw [after_nil, List.getLast?_singleton]
      simp
    | cons c' u => rw [ih _ htext.2 hlines.2 (List.cons_ne_nil _ _), List.getLast?_cons_cons]

/-- The quotes before a token, where the readers agree. -/
def quotesBefore (k : StartCondition) (previous : Option Char) : Quotes :=
  .of k.stringState (previous = some '\\')

theorem StringState.eq_outside {s : StringState} (h : s.quote = none) : s = .outside := by
  cases s with
  | outside => rfl
  | single | double => cases h

theorem StringState.ne_outside {s : StringState} {d : Char} (h : s.quote = some d) :
    s ≠ .outside := by
  rintro rfl
  cases h

theorem StringState.quote_inj {s s' : StringState} {d : Char} (h : s.quote = some d)
    (h' : s'.quote = some d) : s = s' := by
  cases s <;> cases s' <;> cases h <;> first | rfl | cases h'

/-- A quote is neither a backslash nor a newline, and begins its kind of literal. -/
theorem StringState.quote_spec {s : StringState} {d : Char} (h : s.quote = some d) :
    d ≠ '\\' ∧ d ≠ '\n' ∧ Quotes.outside.next d = .of s false := by
  cases s <;> cases h <;> decide

/-- Behind a backslash the quote does not end the literal. -/
theorem Quotes.of_guarded {s : StringState} {d : Char} (hd : s.quote = some d) (escaped : Bool)
    (c : Char) {u : List Char} (hu : d ∉ u) :
    (((of s escaped).states ('\\' :: c :: u)).map state = List.replicate (u.length + 2) s ↔
      '\n' ∉ '\\' :: c :: u) ∧
    ('\n' ∉ '\\' :: c :: u → (of s escaped).after ('\\' :: c :: u) =
      of s (('\\' :: c :: u).getLast? = some '\\')) := by
  obtain ⟨hbackslash, -, -⟩ := StringState.quote_spec hd
  have hnext : (of s escaped).next '\\' = of s true := by
    rw [of_next hd, if_neg]
    · rfl
    · rintro (⟨h, -⟩ | h)
      · exact hbackslash h.symm
      · exact absurd h (by decide)
  have hmem : '\n' ∉ '\\' :: c :: u ↔ c ≠ '\n' ∧ '\n' ∉ u := by
    simp only [List.mem_cons, not_or]
    exact ⟨fun h => ⟨Ne.symm h.2.1, h.2.2⟩, fun h => ⟨by decide, Ne.symm h.1, h.2⟩⟩
  rw [hmem, states, states, hnext, after_cons, after_cons, hnext, of_next hd]
  by_cases hc : c = '\n'
  · refine ⟨iff_of_false ?_ fun h => h.1 hc, fun h => absurd hc h.1⟩
    rw [if_pos (.inr hc), List.replicate_succ, List.replicate_succ]
    rintro h
    have hs : StringState.outside = s := (List.cons.inj (List.cons.inj h).2).1
    exact StringState.ne_outside hd hs.symm
  · have hstay : ¬ ((c = d ∧ true = false) ∨ c = '\n') := fun h => h.elim (fun h => by cases h.2) hc
    rw [if_neg hstay, List.map_cons, List.map_cons, of_state, of_state, List.replicate_succ,
      List.replicate_succ, List.cons.injEq, List.cons.injEq, of_states hd _ hu,
      List.getLast?_cons_cons]
    refine ⟨⟨fun h => ⟨hc, h.2.2⟩, fun h => ⟨rfl, rfl, h.2⟩⟩, fun h => ?_⟩
    cases u with
    | nil =>
      rw [after_nil, List.getLast?_singleton]
      simp
    | cons c' u => rw [of_after hd _ hu h.2 (List.cons_ne_nil _ _), List.getLast?_cons_cons]

theorem tokenStates_eq {t : Token StartCondition Char} (hne : t.text ≠ [])
    (h : t.next.stringState = t.condition.stringState) :
    tokenStates t = List.replicate t.text.length t.condition.stringState := by
  rw [tokenStates, h, ← List.replicate_one, List.replicate_append_replicate,
    Nat.sub_add_cancel (List.length_pos_of_ne_nil hne)]

/-- **The readers agree on a token** exactly if it is closed, and then they agree where it
ends. -/
theorem closedToken_iff (k : StartCondition) (previous : Option Char) (c : Char)
    (text : List Char) {t : Token _ _} (ht : nextToken asmRules k c text = t) :
    (((quotesBefore k previous).states t.text).map Quotes.state = tokenStates t ↔
      ClosedToken previous t) ∧
    (ClosedToken previous t →
      (quotesBefore k previous).after t.text = quotesBefore t.next t.text.getLast?) := by
  obtain rfl : t.condition = k := by
    rw [← ht, nextToken]
    split <;> rfl
  have hne : t.text ≠ [] := ht ▸ (nextToken_text asmRules _ c text).1
  have hminds := nextToken_minds t.condition c text ht
  rw [quotesBefore, quotesBefore]
  split at hminds
  · -- outside
    rename_i hk hnext
    have hk := StringState.eq_outside hk
    have hnext := StringState.eq_outside hnext
    have hiff : ('\'' ∉ t.text ∧ '"' ∉ t.text) ↔ ClosedToken previous t :=
      ⟨fun h => ⟨fun _ _ => h, fun h => absurd hk h, fun h => absurd hk h⟩,
        fun h => h.quotes hk hnext⟩
    rw [tokenStates_eq hne (hnext.trans hk.symm), hk, hnext]
    exact ⟨(Quotes.outside_states _).trans hiff, fun h => Quotes.outside_after (hiff.mpr h)⟩
  · -- the quote that begins a literal
    rename_i d hk hnext
    have hk := StringState.eq_outside hk
    obtain ⟨hbackslash, -, hquote⟩ := StringState.quote_spec hnext
    rw [tokenStates, hminds, hk]
    simp only [Quotes.of_outside, Quotes.states, hquote, Quotes.after_cons, Quotes.after_nil]
    refine ⟨iff_of_true ?_ ?_, fun _ => ?_⟩
    · simp
    · exact ⟨fun _ h => absurd h (StringState.ne_outside hnext), fun h => absurd hk h,
        fun h => absurd hk h⟩
    · simp [hbackslash]
  · -- the quote that ends one
    rename_i d hk hnext
    obtain ⟨-, hnewline, -⟩ := StringState.quote_spec hk
    have hnext := StringState.eq_outside hnext
    have hiff : previous ≠ some '\\' ↔ ClosedToken previous t := by
      refine ⟨fun h => ⟨fun h => absurd h (StringState.ne_outside hk), fun _ => ?_,
        fun _ _ => h⟩, fun h => h.ends (StringState.ne_outside hk) hnext⟩
      rw [hminds, List.mem_singleton]
      exact hnewline.symm
    rw [tokenStates, hminds, hnext, ← hiff]
    simp only [Quotes.states, Quotes.after_cons, Quotes.after_nil, Quotes.of_next hk, hnewline]
    by_cases hprevious : previous = some '\\'
    · simp [hprevious, StringState.ne_outside hk]
    · simp [hprevious, Quotes.state]
  · -- in a literal
    rename_i d d' hk hnext
    obtain ⟨rfl, htext⟩ := hminds
    have hsame := StringState.quote_inj hnext hk
    have hiff : '\n' ∉ t.text ↔ ClosedToken previous t :=
      ⟨fun h => ⟨fun h => absurd h (StringState.ne_outside hk), fun _ => h,
        fun _ h => absurd h (StringState.ne_outside hnext)⟩,
        fun h => h.lines (StringState.ne_outside hk)⟩
    rw [tokenStates_eq hne hsame, ← hiff, hsame]
    rcases htext with htext | ⟨c, u, htext, hu⟩
    · exact ⟨Quotes.of_states hk _ htext, fun h => Quotes.of_after hk _ htext h hne⟩
    · rw [htext]
      exact Quotes.of_guarded hk _ c hu

/-! ### Texts -/

theorem states_iff_closedLiterals {n : ℕ} {k : StartCondition} {previous : Option Char}
    {text : List Char} (hn : text.length ≤ n) :
    ((quotesBefore k previous).states text).map Quotes.state =
        (tokens asmRules n k text).flatMap tokenStates ↔
      ClosedLiterals previous (tokens asmRules n k text) := by
  induction n generalizing k previous text with
  | zero =>
    obtain rfl := List.eq_nil_of_length_eq_zero (Nat.le_zero.mp hn)
    exact iff_of_true rfl trivial
  | succ n ih =>
    cases text with
    | nil => exact iff_of_true rfl trivial
    | cons c text =>
      obtain ⟨hne, hsplit⟩ := nextToken_text asmRules k c text
      obtain ⟨hiff, hafter⟩ := closedToken_iff k previous c text rfl
      rw [tokens]
      generalize hrest : (c :: text).drop (nextToken asmRules k c text).text.length = rest at hsplit
      have hlength : rest.length ≤ n := by
        have hpos := List.length_pos_of_ne_nil hne
        rw [← hrest, List.length_drop]
        rw [List.length_cons] at hn ⊢
        omega
      have hstates : (tokenStates (nextToken asmRules k c text)).length =
          (nextToken asmRules k c text).text.length := by
        have hpos := List.length_pos_of_ne_nil hne
        rw [tokenStates, List.length_append, List.length_replicate, List.length_singleton]
        omega
      rw [← hsplit, Quotes.states_append, List.map_append, List.flatMap_cons, ClosedLiterals,
        ← hiff]
      constructor
      · intro h
        obtain ⟨htoken, htokens⟩ := List.append_inj h (by simp [hstates])
        rw [hafter (hiff.mp htoken)] at htokens
        exact ⟨htoken, (ih hlength).mp htokens⟩
      · rintro ⟨htoken, htokens⟩
        rw [htoken, hafter (hiff.mp htoken), (ih hlength).mpr htokens]

/-- **The readers agree on a text** exactly if its literals are closed. The preprocessor fetches
the characters of a text one by one as long as no directive or definition comes between. -/
theorem stringStates_iff {f : Frame} {text : List Char} (hpending : f.pending = text)
    (hsingle : f.inSingleString = false) (hdouble : f.inDoubleString = false) :
    f.stringStates text.length = (asmTokens .initial text).flatMap tokenStates ↔
      ClosedLiterals none (asmTokens .initial text) := by
  have hstands : Quotes.outside.Stands f := ⟨hsingle, hdouble⟩
  rw [Frame.stringStates_eq hstands hpending]
  exact states_iff_closedLiterals (k := .initial) le_rfl

/-- A frame at the beginning of a text. -/
def Frame.ofText (text : List Char) : Frame :=
  ⟨[], text, [], 1, 1, "a".toList, false, false, 0, none⟩

theorem stringStates_iff_ofText :
    (Frame.ofText "DAT \"a'b\", 'c' ; d".toList).stringStates
        "DAT \"a'b\", 'c' ; d".toList.length =
      (asmTokens .initial "DAT \"a'b\", 'c' ; d".toList).flatMap tokenStates ↔
    ClosedLiterals none (asmTokens .initial "DAT \"a'b\", 'c' ; d".toList) :=
  stringStates_iff rfl rfl rfl

/-- **An escaped backslash at the end of a string** keeps the preprocessor in it. -/
theorem not_forall_stringStates : ¬∀ text : List Char,
    (Frame.ofText text).stringStates text.length =
      (asmTokens .initial text).flatMap tokenStates := by
  intro h
  exact absurd (h "DAT \"a\\\\\", b".toList) (by decide +kernel)

end DcpuToolchain
