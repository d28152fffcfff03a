import DcpuToolchain.Pp.Rest
import Mathlib.Data.List.TakeWhile

/-!
# Reading past the end of the input

`ppimpl_get_input` asserts that there is input. Most loops that read test for that first.
Five do not: those of `define_handle`, in either language, that of `macro_def_handle` that
reads the name, and the one in which `macro_handle` looks for the open bracket. They read up
to a character that need not be there.

For each of these handlers `DcpuToolchain.Handler.ReadsEnough` says what its loops must find
in the input that is left. A run of the preprocessor never reads past the end of its input
exactly where every handler that is entered finds that
(`DcpuToolchain.run_readsEnough_iff`).
-/

namespace DcpuToolchain

/-! ### What the loops look for -/

/-- What the loops that read a word skip before it. -/
def isGap (c : Char) : Bool := isSpace c && c != '\n'

/-- The input from the first character on that ends the word at its beginning. -/
def fromWordEnd (ends : Char → Bool) (text : List Char) : List Char :=
  (text.dropWhile isGap).dropWhile (!ends ·)

/-- What ends the word in `define_handle` of the assembler. -/
def endsWord (c : Char) : Bool := isBlank c || c = '(' || c = '\n'

/-- What ends the name in `macro_def_handle`, and in `define_handle` of C, where a newline
does so too. -/
def endsName (endsAtNewline : Bool) (c : Char) : Bool :=
  isBlank c || c = '(' || (endsAtNewline && c = '\n')

/-- What ends the parameters. -/
def endsParameters (endsAtNewline : Bool) (c : Char) : Bool :=
  c = '(' || c = ')' || (endsAtNewline && c = '\n')

/-- Whether there is a newline that does not follow a backslash. -/
def endsLine : (prev : Option Char) → List Char → Bool
  | _, [] => false
  | prev, c :: text => (c = '\n' && prev != some '\\') || endsLine (some c) text

/-- Whether there is such a newline, or the beginning of a comment. -/
def endsDefinition : (prev : Option Char) → List Char → Bool
  | _, [] => false
  | prev, c :: text =>
    (c = '\n' && prev != some '\\') || ((c = '/' || c = '*') && prev == some '/') ||
      endsDefinition (some c) text

/-- A `.DEFINE` is complete: its word ends, and so does its line if a blank ended the
word. -/
def DefineComplete (text : List Char) : Prop :=
  match fromWordEnd endsWord text with
  | [] => False
  | c :: text => isBlank c = true → endsLine none text = true

/-- A name with its parameters is complete, and so is what follows it. -/
def NameComplete (endsAtNewline : Bool) (followed : List Char → Prop) (text : List Char) : Prop :=
  (text.dropWhile isGap).head? = some '\n' ∨
    match fromWordEnd (endsName endsAtNewline) text with
    | [] => False
    | c :: text =>
      (isBlank c = true → followed text) ∧
        (c = '(' →
          match text.dropWhile (!endsParameters endsAtNewline ·) with
          | [] => False
          | c :: text => c = ')' → followed text)

/-- Whatever follows a name, a macro is called with brackets: there is more input than
terminators. -/
def CallComplete (text : List Char) : Prop :=
  ∀ k, ¬ text <+: (List.replicate k macroTerminate).flatten

/-- What a handler must find in the input that is left. -/
def Handler.ReadsEnough (text : List Char) : Handler → Prop
  | .defineHandle .asm => DefineComplete text
  | .defineHandle .c => NameComplete true (endsDefinition none · = true) text
  | .macroDefHandle => NameComplete false (fun _ => True) text
  | .macroHandle _ _ => CallComplete text
  | _ => True

/-! ### Words -/

theorem isSpace_of_isBlank {c : Char} (h : isBlank c = true) : isSpace c = true := by
  have hc : c = ' ' ∨ c = '\t' := by simpa [isBlank] using h
  rcases hc with rfl | rfl <;> rfl

theorem bltrimws_space {c : Char} (h : isSpace c = true) : bltrimws [c] = [] := by
  rw [bltrimws, List.dropWhile_cons_of_pos h, List.dropWhile_nil]

theorem bltrimws_char {c : Char} (h : isSpace c = false) : bltrimws [c] = [c] := by
  rw [bltrimws, List.dropWhile_cons_of_neg (by simp [h])]

/-- A character behind a word that is trimmed on the left. -/
theorem bltrimws_snoc {word : Bstring} (hword : bltrimws word = word) (hne : word ≠ []) (c : Char) :
    bltrimws (word ++ [c]) = word ++ [c] := by
  obtain ⟨d, rest, rfl⟩ := List.exists_cons_of_ne_nil hne
  have hd : isSpace d = false := by
    rcases hsp : isSpace d with - | -
    · rfl
    · rw [bltrimws, List.dropWhile_cons_of_pos hsp] at hword
      have hlen := (List.dropWhile_suffix isSpace (l := rest)).length_le
      rw [hword, List.length_cons] at hlen
      omega
  rw [bltrimws, List.cons_append, List.dropWhile_cons_of_neg (by simp [hd])]

theorem isBlank_of_not_isSpace {c : Char} (h : isSpace c = false) : isBlank c = false := by
  rcases hb : isBlank c with - | -
  · rfl
  · exact absurd (isSpace_of_isBlank hb) (by simp [h])

/-- What a loop that reads ends with, if it ends. -/
def Scan.Ends {α : Type} (p : α → List Char → Prop) : Scan α → Prop
  | .done a rest => p a rest
  | .halt _ _ => True
  | .dry => False

/-- Within the word the loop of `define_handle` (asm) looks for its end. -/
theorem defineWord_ends_of_ne {word : Bstring} (hword : bltrimws word = word) (hne : word ≠ [])
    (text : List Char) :
    (defineWord word text).Ends (fun r rest => r.2 = true → endsLine none rest = true) ↔
      match text.dropWhile (!endsWord ·) with
      | [] => False
      | c :: text => isBlank c = true → endsLine none text = true := by
  induction text generalizing word with
  | nil => rfl
  | cons c text ih =>
    rw [defineWord, bltrimws_snoc hword hne c]
    have hne' : word ++ [c] ≠ [] := by simp
    rw [List.dropWhile_cons]
    rcases hb : isBlank c with - | -
    · rcases eq_or_ne c '(' with rfl | hp
      · simp [hb, endsWord, Scan.Ends]
      · rcases eq_or_ne c '\n' with rfl | hn
        · simp [hb, endsWord, Scan.Ends]
        · simp only [hb, hp, hn, hne', endsWord, Bool.false_eq_true, and_false, if_false,
            decide_false, Bool.or_self, Bool.not_false, if_true]
          exact ih (by rw [bltrimws_snoc hword hne c]) hne'
    · simp [hb, endsWord, Scan.Ends]

/-- **The first loop of `define_handle` (asm)** does not read past the end exactly if the
definition is complete. -/
theorem defineWord_ends_iff (text : List Char) :
    (defineWord [] text).Ends (fun r rest => r.2 = true → endsLine none rest = true) ↔
      DefineComplete text := by
  induction text with
  | nil => rfl
  | cons c text ih =>
    rw [defineWord, List.nil_append, DefineComplete, fromWordEnd]
    rcases hs : isSpace c with - | -
    · -- the word begins here
      have hb : isBlank c = false := isBlank_of_not_isSpace hs
      have hn : c ≠ '\n' := by
        rintro rfl
        exact absurd hs (by decide)
      have hgap : isGap c = false := by simp [isGap, hs]
      rw [bltrimws_char hs, List.dropWhile_cons_of_neg (by simp [hgap]), List.dropWhile_cons]
      rcases eq_or_ne c '(' with rfl | hp
      · simp [hb, endsWord, Scan.Ends]
      · simp only [hb, hp, hn, endsWord, Bool.false_eq_true, and_false, if_false,
          decide_false, Bool.or_self, Bool.not_false, if_true]
        exact defineWord_ends_of_ne (bltrimws_char hs) (by simp) text
    · rw [bltrimws_space hs]
      rcases eq_or_ne c '\n' with rfl | hn
      · simp [Scan.Ends, isGap, endsWord, isBlank]
      · have hgap : isGap c = true := by simp [isGap, hs, hn]
        rw [List.dropWhile_cons_of_pos hgap]
        simp only [hn, ne_eq, not_true_eq_false, false_and, and_false, if_false]
        exact ih

/-! ### Definitions -/

/-- What comes before a character, when both are trimmed on the left. -/
theorem dropLast_bltrimws_snoc (text : Bstring) (c : Char) :
    (bltrimws (text ++ [c])).dropLast = bltrimws text := by
  rw [bltrimws, bltrimws, List.dropWhile_append]
  split
  · rename_i h
    rw [List.isEmpty_iff.mp h]
    rcases hs : isSpace c with - | -
    · rw [List.dropWhile_cons_of_neg (by simp [hs]), List.dropLast_singleton]
    · rw [List.dropWhile_cons_of_pos hs, List.dropWhile_nil, List.dropLast_nil]
  · rw [List.dropLast_concat]

/-- The last character of a text, if it is not white space, is there when it is trimmed. -/
theorem getLast?_bltrimws_iff (text : Bstring) {d : Char} (hd : isSpace d = false) :
    (bltrimws text).getLast? = some d ↔ text.getLast? = some d := by
  obtain ⟨spaces, hsp⟩ := List.dropWhile_suffix isSpace (l := text)
  rcases eq_or_ne (bltrimws text) [] with hnil | hne
  · rw [hnil]
    simp only [List.getLast?_nil, reduceCtorEq, false_iff]
    intro h
    have hspace := List.dropWhile_eq_nil_iff.mp hnil d (List.mem_of_getLast? h)
    exact absurd hspace (by simp [hd])
  · have hlast : text.getLast? = (bltrimws text).getLast? := by
      conv_lhs => rw [← hsp]
      rw [List.getLast?_append, ← bltrimws, List.getLast?_eq_some_getLast hne, Option.some_or]
    rw [hlast]

/-- The character before one that has been read, if it is not white space. -/
theorem previous_iff (definition : Bstring) (c : Char) {d : Char} (hd : isSpace d = false) :
    (1 < (bltrimws (definition ++ [c])).length ∧
      (bltrimws (definition ++ [c])).dropLast.getLast? = some d) ↔
        definition.getLast? = some d := by
  rw [← getLast?_bltrimws_iff definition hd, ← dropLast_bltrimws_snoc definition c]
  refine ⟨And.right, fun h => ⟨?_, h⟩⟩
  have hlen := List.length_pos_of_mem (List.mem_of_getLast? h)
  rw [List.length_dropLast] at hlen
  omega

/-- **The second loop of `define_handle` (asm)** does not read past the end exactly if the
line ends. -/
theorem defineDefinition_ne_dry_iff {definition : Bstring} {prev : Option Char}
    (hprev : definition.getLast? = some '\\' ↔ prev = some '\\') (text : List Char) :
    defineDefinition definition text ≠ .dry ↔ endsLine prev text = true := by
  have hslash : isSpace '\\' = false := by decide
  induction text generalizing definition prev with
  | nil => simp [defineDefinition, endsLine]
  | cons c text ih =>
    have hlast : (bltrimws (definition ++ [c])).dropLast.getLast? = some '\\' ↔
        prev = some '\\' := by
      rw [dropLast_bltrimws_snoc, getLast?_bltrimws_iff _ hslash, hprev]
    have ih := @ih (bltrimws (definition ++ [c])) (some c) (by
      rw [getLast?_bltrimws_iff _ hslash, List.getLast?_concat])
    rw [defineDefinition, endsLine]
    rcases eq_or_ne c '\n' with rfl | hn
    · by_cases hp : prev = some '\\'
      · have hne : bltrimws (definition ++ ['\n']) ≠ [] := by
          intro hnil
          have hl := hlast.mpr hp
          rw [hnil] at hl
          exact absurd hl (by simp)
        simpa [hne, hlast.mpr hp, hp] using ih
      · have hl := mt hlast.mp hp
        by_cases hne : bltrimws (definition ++ ['\n']) = []
        · simp [hne, hp]
        · simp [hne, hl, hp]
    · simpa [hn] using ih

/-- **The second loop of `define_handle` (C)** does not read past the end exactly if the
definition ends. -/
theorem cDefineDefinition_ne_dry_iff {definition : Bstring} {prev : Option Char} (continued : ℕ)
    (hslash : definition.getLast? = some '\\' ↔ prev = some '\\')
    (hcomment : definition.getLast? = some '/' ↔ prev = some '/') (text : List Char) :
    cDefineDefinition definition continued text ≠ .dry ↔ endsDefinition prev text = true := by
  have hsp : ∀ d, d = '\\' ∨ d = '/' → isSpace d = false := by
    rintro d (rfl | rfl) <;> decide
  induction text generalizing definition prev continued with
  | nil => simp [cDefineDefinition, endsDefinition]
  | cons c text ih =>
    have hlastSlash := (previous_iff definition c (hsp '\\' (.inl rfl))).trans hslash
    have hlastComment := (previous_iff definition c (hsp '/' (.inr rfl))).trans hcomment
    have hnext : ∀ d, d = '\\' ∨ d = '/' →
        ((bltrimws (definition ++ [c])).getLast? = some d ↔ some c = some d) := by
      intro d hd
      rw [getLast?_bltrimws_iff _ (hsp d hd), List.getLast?_concat]
    rw [cDefineDefinition, endsDefinition]
    rcases eq_or_ne c '\n' with rfl | hn
    · by_cases hp : prev = some '\\'
      · have hcont :=
          @ih ((bltrimws (definition ++ ['\n'])).dropLast.dropLast ++ ['\n']) (some '\n')
          (continued + 1) (by simp) (by simp)
        simpa [hlastSlash, hp] using hcont
      · simp [hlastSlash, hp]
    · have hstep := ih continued (hnext '\\' (.inl rfl)) (hnext '/' (.inr rfl))
      by_cases hc : c = '/' ∨ c = '*'
      · by_cases hp : prev = some '/'
        · simp [hn, hc, hlastComment, hp]
        · simpa [hn, hc, hlastComment, hp] using hstep
      · simpa [hn, hc] using hstep

/-! ### Names -/

/-- Within the parameters the loops look for their end. -/
theorem macroWord_ends_of_isMacro {incorrect : PpError} {endsAtNewline : Bool}
    {followed : List Char → Prop} (name : Bstring) {word : Bstring}
    (hword : bltrimws word = word) (hne : word ≠ []) (text : List Char) :
    (macroWord incorrect endsAtNewline name word true text).Ends
        (fun n rest => n.gettingDefinition = true → followed rest) ↔
      match text.dropWhile (!endsParameters endsAtNewline ·) with
      | [] => False
      | c :: text => c = ')' → followed text := by
  induction text generalizing word with
  | nil => rfl
  | cons c text ih =>
    rw [macroWord, bltrimws_snoc hword hne c, List.dropWhile_cons]
    have hne' : word ++ [c] ≠ [] := by simp
    rcases eq_or_ne c '(' with rfl | ho
    · simp [endsParameters, Scan.Ends]
    · rcases eq_or_ne c ')' with rfl | hc
      · simp [endsParameters, Scan.Ends]
      · by_cases hn : endsAtNewline = true ∧ c = '\n'
        · obtain ⟨rfl, rfl⟩ := hn
          simp [endsParameters, Scan.Ends]
        · have hends : endsParameters endsAtNewline c = false := by
            simpa [endsParameters, ho, hc] using hn
          have hn' : ¬ (endsAtNewline = true ∧ word ++ [c] ≠ [] ∧ c = '\n') := fun h =>
            hn ⟨h.1, h.2.2⟩
          simp only [hends, ho, hc, hne', hn', Bool.true_eq_false, and_false, false_and, if_false,
            Bool.not_false, if_true]
          exact ih (by rw [bltrimws_snoc hword hne c]) hne'

/-- Within the name the loops look for its end, and behind a bracket for that of the
parameters. -/
theorem macroWord_ends_of_ne {incorrect : PpError} {endsAtNewline : Bool}
    {followed : List Char → Prop} (name : Bstring) {word : Bstring}
    (hword : bltrimws word = word) (hne : word ≠ []) (text : List Char) :
    (macroWord incorrect endsAtNewline name word false text).Ends
        (fun n rest => n.gettingDefinition = true → followed rest) ↔
      match text.dropWhile (!endsName endsAtNewline ·) with
      | [] => False
      | c :: text =>
        (isBlank c = true → followed text) ∧
          (c = '(' →
            match text.dropWhile (!endsParameters endsAtNewline ·) with
            | [] => False
            | c :: text => c = ')' → followed text) := by
  induction text generalizing name word with
  | nil => rfl
  | cons c text ih =>
    rw [macroWord, bltrimws_snoc hword hne c, List.dropWhile_cons]
    have hne' : word ++ [c] ≠ [] := by simp
    have htrim : bltrimws (word ++ [c]) = word ++ [c] := bltrimws_snoc hword hne c
    rcases hb : isBlank c with - | -
    · rcases eq_or_ne c '(' with rfl | ho
      · simp only [hb, endsName, hne', Bool.false_eq_true, and_false, if_false, if_true,
          decide_true, Bool.or_true, Bool.true_or, Bool.not_true, ne_eq, not_false_eq_true,
          and_self, false_implies, true_implies, true_and, false_and]
        exact macroWord_ends_of_isMacro _ htrim hne' text
      · by_cases hn : endsAtNewline = true ∧ c = '\n'
        · obtain ⟨rfl, rfl⟩ := hn
          simp [hb, endsName, Scan.Ends]
        · have hends : endsName endsAtNewline c = false := by
            simpa [endsName, hb, ho] using hn
          have hn' : ¬ (endsAtNewline = true ∧ word ++ [c] ≠ [] ∧ c = '\n') := fun h =>
            hn ⟨h.1, h.2.2⟩
          simp only [hends, ho, hne', hn', Bool.false_eq_true, and_false, false_and, if_false,
            Bool.not_false, if_true]
          exact ih _ htrim hne'
    · have ho : c ≠ '(' := by
        rintro rfl
        exact absurd hb (by decide)
      simp [hb, ho, endsName, Scan.Ends]

/-- **The first loop of `define_handle` (C) and that of `macro_def_handle`** do not read past
the end exactly if the name is complete. -/
theorem macroWord_ends_iff {incorrect : PpError} {endsAtNewline : Bool}
    {followed : List Char → Prop} (name : Bstring) (text : List Char) :
    (macroWord incorrect endsAtNewline name [] false text).Ends
        (fun n rest => n.gettingDefinition = true → followed rest) ↔
      NameComplete endsAtNewline followed text := by
  induction text generalizing name with
  | nil => simp [macroWord, Scan.Ends, NameComplete, fromWordEnd]
  | cons c text ih =>
    rw [macroWord, List.nil_append, NameComplete, fromWordEnd]
    rcases hs : isSpace c with - | -
    · -- the name begins here
      have hb : isBlank c = false := isBlank_of_not_isSpace hs
      have hn : c ≠ '\n' := by
        rintro rfl
        exact absurd hs (by decide)
      have hgap : isGap c = false := by simp [isGap, hs]
      rw [bltrimws_char hs, List.dropWhile_cons_of_neg (by simp [hgap]), List.head?_cons,
        List.dropWhile_cons]
      rcases eq_or_ne c '(' with rfl | ho
      · simp only [hb, endsName, Bool.false_eq_true, and_false, if_false, if_true, decide_true,
          Bool.or_true, Bool.true_or, Bool.not_true, ne_eq, not_false_eq_true, and_self,
          false_implies, true_implies, true_and, false_and, List.cons_ne_self, Option.some.injEq,
          hn, false_or]
        exact macroWord_ends_of_isMacro _ (bltrimws_char hs) (by simp) text
      · have hends : endsName endsAtNewline c = false := by simp [endsName, hb, ho, hn]
        simp only [hb, hends, ho, hn, Bool.false_eq_true, and_false, false_and, if_false,
          Bool.not_false, if_true, Option.some.injEq, false_or]
        exact macroWord_ends_of_ne _ (bltrimws_char hs) (by simp) text
    · rw [bltrimws_space hs]
      rcases eq_or_ne c '\n' with rfl | hn
      · simp [Scan.Ends, isGap]
      · have hgap : isGap c = true := by simp [isGap, hs, hn]
        rw [List.dropWhile_cons_of_pos hgap]
        simp only [hn, ne_eq, not_true_eq_false, false_and, and_false, if_false]
        exact ih _

/-! ### Calls -/

/-- **The loop of `macro_handle` that looks for the open bracket** reads past the end exactly
if there is nothing left but terminators. -/
theorem openBracket_eq_dry_iff (expected : List Char) (pops : ℕ) (text : List Char) :
    openBracket expected pops text = .dry ↔
      ∃ k, text <+: expected ++ (List.replicate k macroTerminate).flatten := by
  have hcons : macroTerminate = '\x01' :: macroTerminate.tail := rfl
  induction text generalizing expected pops with
  | nil => simp [openBracket]
  | cons c text ih =>
    cases expected with
    | nil =>
      -- a terminator begins here, if anything does
      have hbegin : (∃ k, c :: text <+: [] ++ (List.replicate k macroTerminate).flatten) ↔
          c = '\x01' ∧
            ∃ k, text <+: macroTerminate.tail ++ (List.replicate k macroTerminate).flatten := by
        constructor
        · rintro ⟨k, hk⟩
          cases k with
          | zero => simp at hk
          | succ k =>
            rw [List.nil_append, List.replicate_succ, List.flatten_cons, hcons, List.cons_append,
              List.cons_prefix_cons] at hk
            exact ⟨hk.1, k, hk.2⟩
        · rintro ⟨rfl, k, hk⟩
          refine ⟨k + 1, ?_⟩
          rw [List.nil_append, List.replicate_succ, List.flatten_cons, hcons, List.cons_append,
            List.cons_prefix_cons]
          exact ⟨rfl, hk⟩
      rw [hbegin, openBracket]
      rcases eq_or_ne c '\x01' with rfl | hc
      · simpa using ih macroTerminate.tail pops
      · rcases eq_or_ne c '(' with rfl | ho
        · simp
        · simp [hc, ho]
    | cons e expected =>
      rw [openBracket]
      simp only [List.cons_append, List.cons_prefix_cons]
      rcases eq_or_ne c e with rfl | hc
      · simpa using ih expected _
      · simp [hc]

/-! ### Conditionals -/

theorem skipToEndif_ne_dry (l : Language) (stopAtElse : Bool) (text : List Char) :
    skipToEndif l stopAtElse text ≠ .dry := by
  rw [skipToEndif]
  generalize text.length + 1 = fuel
  generalize true = freshLine
  generalize 1 = ifOpen
  generalize ([] : Bstring) = output
  fun_induction skipLoop l stopAtElse fuel freshLine ifOpen output text with
  | case3 | case6 | case7 | case8 | case9 => assumption
  | _ =>
    intro h
    cases h

/-! ### Handlers -/

variable {Λ : Type}

/-- The value of the condition of a conditional that is entered. -/
def PpState.condition (env : PpEnv Λ) (s : PpState Λ) : Handler → Option Bool
  | .ifHandle _ =>
    match s.paramGet env with
    | ([.expression evaluate], s) =>
      match evaluate s.handlers with
      | .error _ => none
      | .ok value => some (value ≠ 0)
    | _ => none
  | .ifdefGeneralHandle exist =>
    match s.paramGet env with
    | ([.word word], s) => some (if s.handlers.head?.any (·.text = word) then exist else !exist)
    | _ => none
  | _ => none

theorem PpState.scan_ne_noInput_iff {α β : Type} {s : PpState Λ} {r : Scan α}
    {k : α → PpState Λ → Except PpStop β} :
    s.scan r k ≠ .error .noInput ↔ r.Ends fun a rest => k a (s.readTo rest) ≠ .error .noInput := by
  cases r with
  | done a rest => rfl
  | halt error rest => simp [PpState.scan, PpState.dhalt, Scan.Ends]
  | dry => simp [PpState.scan, Scan.Ends]

/-- A loop that always ends with what a handler goes on with. -/
theorem Scan.ends_iff_ne_dry {α : Type} {r : Scan α} {p : α → List Char → Prop}
    (hp : ∀ a rest, p a rest) : r.Ends p ↔ r ≠ .dry := by
  cases r with
  | done a rest => simp [Scan.Ends, hp]
  | halt error rest => simp [Scan.Ends]
  | dry => simp [Scan.Ends]

theorem Scan.Ends.congr {α : Type} {r : Scan α} {text : List Char} {p q : α → List Char → Prop}
    (hr : r.Leaves text) (h : ∀ a rest, rest <:+ text → (p a rest ↔ q a rest)) :
    r.Ends p ↔ r.Ends q := by
  cases r with
  | done a rest => exact h a rest hr
  | halt error rest => rfl
  | dry => rfl

theorem registerDefinition_ne_error (s : PpState Λ) (name full replacement : Bstring)
    (handler : Handler) (why : PpStop) :
    s.registerDefinition name full replacement handler ≠ .error why := by
  rw [PpState.registerDefinition]
  split <;> exact nofun

theorem defineHandle_ne_noInput_iff (s : PpState Λ) :
    s.defineHandle ≠ .error .noInput ↔ DefineComplete s.frame.pending := by
  rw [PpState.defineHandle, PpState.scan_ne_noInput_iff, ← defineWord_ends_iff]
  refine Scan.Ends.congr (defineWord_leaves [] s.frame.pending) ?_
  rintro ⟨word, gettingDefinition⟩ rest hrest
  rcases gettingDefinition with - | -
  · simp [registerDefinition_ne_error]
  · simp only [if_true, true_implies]
    rw [PpState.scan_ne_noInput_iff, s.readTo_pending hrest, Scan.ends_iff_ne_dry,
      @defineDefinition_ne_dry_iff _ none (by simp)]
    intro definition rest
    exact registerDefinition_ne_error _ _ _ _ _ _

theorem cDefineHandle_ne_noInput_iff (s : PpState Λ) :
    s.cDefineHandle ≠ .error .noInput ↔
      NameComplete true (endsDefinition none · = true) s.frame.pending := by
  rw [PpState.cDefineHandle, PpState.scan_ne_noInput_iff,
    ← @macroWord_ends_iff .cDefineParametersIncorrect _ _ []]
  refine Scan.Ends.congr (macroWord_leaves _ _ _ _ _ _) ?_
  intro n rest hrest
  rcases hn : n.gettingDefinition with - | -
  · simp [registerDefinition_ne_error]
  · simp only [if_true, true_implies]
    rw [PpState.scan_ne_noInput_iff, s.readTo_pending hrest, Scan.ends_iff_ne_dry,
      @cDefineDefinition_ne_dry_iff _ none 0 (by simp) (by simp)]
    rintro ⟨definition, ended, continued⟩ rest
    cases ended <;> exact registerDefinition_ne_error _ _ _ _ _ _

theorem macroDefinition_ne_dry (definition : Bstring) (count : ℕ) (text : List Char) :
    macroDefinition definition count text ≠ .dry := by
  fun_induction macroDefinition definition count text with
  | case2 | case4 | case5 => assumption
  | _ =>
    intro h
    cases h

theorem macroDefHandle_ne_noInput_iff (s : PpState Λ) :
    s.macroDefHandle ≠ .error .noInput ↔ NameComplete false (fun _ => True) s.frame.pending := by
  rw [PpState.macroDefHandle, PpState.scan_ne_noInput_iff,
    ← @macroWord_ends_iff .asmMacroParametersIncorrect _ _ []]
  refine Scan.Ends.congr (macroWord_leaves _ _ _ _ _ _) ?_
  intro n rest _
  rcases hn : n.isMacro with - | -
  · simp [PpState.dhalt]
  · simp only [Bool.true_eq_false, if_false, implies_true, iff_true]
    rw [PpState.scan_ne_noInput_iff, Scan.ends_iff_ne_dry]
    · exact macroDefinition_ne_dry _ _ _
    · intro definition rest
      exact registerDefinition_ne_error _ _ _ _ _ _

theorem macroHandle_ne_noInput_iff (s : PpState Λ) (full replacement : Bstring) :
    s.macroHandle full replacement ≠ .error .noInput ↔ CallComplete s.frame.pending := by
  have hdry := openBracket_eq_dry_iff [] 0 s.frame.pending
  simp only [List.nil_append] at hdry
  rw [PpState.macroHandle, PpState.scan_ne_noInput_iff, Scan.ends_iff_ne_dry, Ne, hdry, not_exists]
  · rfl
  · intro pops rest
    dsimp only
    split
    · exact nofun
    · split
      · exact nofun
      · split <;> exact nofun

theorem Scan.done_ne_dry {α : Type} {a : α} {rest : List Char} : Scan.done a rest ≠ .dry := by
  intro h
  cases h

theorem Scan.halt_ne_dry {α : Type} {error : PpError} {rest : List Char} :
    (Scan.halt error rest : Scan α) ≠ .dry := by
  intro h
  cases h

theorem selectBranch_true (l : Language) (text : List Char) :
    ∃ r, selectBranch l true text = .ok r ∧ r ≠ .dry := by
  rw [selectBranch, if_pos rfl]
  have h₁ := skipToEndif_ne_dry l true text
  split
  · rename_i rest _
    have h₂ := skipToEndif_ne_dry l false rest
    split
    · exact ⟨_, rfl, Scan.done_ne_dry⟩
    · exact ⟨_, rfl, Scan.halt_ne_dry⟩
    · contradiction
  · exact ⟨_, rfl, Scan.done_ne_dry⟩
  · exact ⟨_, rfl, Scan.halt_ne_dry⟩
  · contradiction

/-- A conditional that is entered reads an uninitialised variable exactly if its condition is
false, and never reads past the end of the input. -/
theorem printBranch_error_iff (s : PpState Λ) (l : Language) (value : Bool) {why : PpStop}
    (hwhy : ∀ error location, why ≠ .dhalt error location) :
    s.printBranch l value = .error why ↔ why = .uninitialised ∧ value = false := by
  rw [PpState.printBranch]
  cases value with
  | false => simp [selectBranch, eq_comm]
  | true =>
    obtain ⟨r, hr, hdry⟩ := selectBranch_true l s.frame.pending
    rw [hr]
    cases r with
    | done output rest => simp [PpState.scan]
    | halt error rest =>
      simp only [PpState.scan, PpState.dhalt, Except.error.injEq, Bool.true_eq_false, and_false,
        iff_false]
      exact fun h => hwhy _ _ h.symm
    | dry => exact absurd rfl hdry

theorem scan_ne_uninitialised {α β : Type} (s : PpState Λ) (r : Scan α)
    {k : α → PpState Λ → Except PpStop β} (hk : ∀ a s, k a s ≠ .error .uninitialised) :
    s.scan r k ≠ .error .uninitialised := by
  cases r with
  | done a rest => exact hk a _
  | halt _ _ | dry => exact nofun

theorem defineHandle_ne_uninitialised (s : PpState Λ) :
    s.defineHandle ≠ .error .uninitialised := by
  rw [PpState.defineHandle]
  refine scan_ne_uninitialised s _ ?_
  rintro ⟨word, gettingDefinition⟩ s
  cases gettingDefinition with
  | false => exact registerDefinition_ne_error _ _ _ _ _ _
  | true =>
    dsimp only
    rw [if_pos rfl]
    exact scan_ne_uninitialised _ _ fun _ s => registerDefinition_ne_error _ _ _ _ _ _

theorem cDefineHandle_ne_uninitialised (s : PpState Λ) :
    s.cDefineHandle ≠ .error .uninitialised := by
  rw [PpState.cDefineHandle]
  refine scan_ne_uninitialised s _ fun n s => ?_
  split
  · refine scan_ne_uninitialised _ _ ?_
    rintro ⟨definition, ended, continued⟩ s
    cases ended <;> exact registerDefinition_ne_error _ _ _ _ _ _
  · exact registerDefinition_ne_error _ _ _ _ _ _

theorem macroDefHandle_ne_uninitialised (s : PpState Λ) :
    s.macroDefHandle ≠ .error .uninitialised := by
  rw [PpState.macroDefHandle]
  refine scan_ne_uninitialised s _ fun n s => ?_
  split
  · exact nofun
  · exact scan_ne_uninitialised _ _ fun _ s => registerDefinition_ne_error _ _ _ _ _ _

theorem macroHandle_ne_uninitialised (s : PpState Λ) (full replacement : Bstring) :
    s.macroHandle full replacement ≠ .error .uninitialised := by
  rw [PpState.macroHandle]
  refine scan_ne_uninitialised s _ fun pops s => ?_
  dsimp only
  split
  · exact nofun
  · split
    · exact nofun
    · split <;> exact nofun

theorem ifHandle_error_iff (env : PpEnv Λ) (s : PpState Λ) (l : Language) {why : PpStop}
    (hwhy : ∀ error location, why ≠ .dhalt error location) :
    s.ifHandle env l = .error why ↔
      why = .uninitialised ∧ s.condition env (.ifHandle l) = some false := by
  have hhalt : ∀ (s : PpState Λ) (error : PpError),
      (s.dhalt error : PpState.Handled Λ) = .error why ↔ False := by
    intro s error
    exact iff_of_false (fun h => hwhy _ _ (Except.error.inj h).symm) id
  simp only [PpState.ifHandle.eq_def, PpState.condition]
  obtain ⟨parameters, s'⟩ := s.paramGet env
  rcases parameters with - | ⟨parameter, - | ⟨_, _⟩⟩
  · simp [hhalt]
  · cases parameter with
    | expression evaluate =>
      cases hv : evaluate s'.handlers with
      | error error => simp [hv, hhalt]
      | ok value => simp [hv, printBranch_error_iff _ _ _ hwhy]
    | _ => simp [hhalt]
  · simp [hhalt]

theorem ifdefGeneralHandle_error_iff (env : PpEnv Λ) (s : PpState Λ) (exist : Bool) {why : PpStop}
    (hwhy : ∀ error location, why ≠ .dhalt error location) :
    s.ifdefGeneralHandle env exist = .error why ↔
      why = .uninitialised ∧ s.condition env (.ifdefGeneralHandle exist) = some false := by
  have hhalt : ∀ (s : PpState Λ) (error : PpError),
      (s.dhalt error : PpState.Handled Λ) = .error why ↔ False := by
    intro s error
    exact iff_of_false (fun h => hwhy _ _ (Except.error.inj h).symm) id
  simp only [PpState.ifdefGeneralHandle.eq_def, PpState.condition]
  obtain ⟨parameters, s'⟩ := s.paramGet env
  rcases parameters with - | ⟨parameter, - | ⟨_, _⟩⟩
  · simp [hhalt]
  · cases parameter with
    | word word => simp [printBranch_error_iff _ _ _ hwhy]
    | _ => simp [hhalt]
  · simp [hhalt]

/-! The handlers of the other directives only stop by `dhalt`. -/

theorem lineHandle_error {env : PpEnv Λ} {s : PpState Λ} {l : Language} {why : PpStop}
    (h : s.lineHandle env l = .error why) : ∃ error location, why = .dhalt error location := by
  rw [PpState.lineHandle.eq_def] at h
  generalize s.paramGet env = r at h
  dsimp only at h
  split at h
  · cases h
  · cases h
  · cases h
    exact ⟨_, _, rfl⟩

theorem ulineHandle_error {env : PpEnv Λ} {s : PpState Λ} {why : PpStop}
    (h : s.ulineHandle env = .error why) : ∃ error location, why = .dhalt error location := by
  rw [PpState.ulineHandle] at h
  split at h <;> cases h
  exact ⟨_, _, rfl⟩

theorem includeHandle_error {env : PpEnv Λ} {s : PpState Λ} {l : Language} {why : PpStop}
    (h : s.includeHandle env l = .error why) : ∃ error location, why = .dhalt error location := by
  rw [PpState.includeHandle.eq_def] at h
  generalize s.paramGet env = r at h
  obtain ⟨parameters, s'⟩ := r
  rcases parameters with - | ⟨parameter, - | ⟨_, _⟩⟩
  · cases h
    exact ⟨_, _, rfl⟩
  · cases parameter with
    | string path | angledString path =>
      dsimp only at h
      cases hl : env.locate path with
      | none =>
        rw [hl] at h
        cases h
        exact ⟨_, _, rfl⟩
      | some file =>
        rw [hl] at h
        cases h
    | _ =>
      cases h
      exact ⟨_, _, rfl⟩
  · cases parameter <;> cases h <;> exact ⟨_, _, rfl⟩

/-- **Only the five loops read past the end of the input.** -/
theorem handle_ne_noInput_iff (env : PpEnv Λ) (s : PpState Λ) (h : Handler) :
    s.handle env h ≠ .error .noInput ↔ h.ReadsEnough s.frame.pending := by
  have hne : ∀ error location, PpStop.noInput ≠ .dhalt error location := fun _ _ => nofun
  have hother : ¬ ∃ error location, PpStop.noInput = .dhalt error location := fun ⟨_, _, h⟩ =>
    hne _ _ h
  cases h with
  | macroHandle full replacement => exact macroHandle_ne_noInput_iff s full replacement
  | defineHandle l =>
    cases l with
    | asm => exact defineHandle_ne_noInput_iff s
    | c => exact cDefineHandle_ne_noInput_iff s
  | macroDefHandle => exact macroDefHandle_ne_noInput_iff s
  | ifHandle l =>
    refine iff_of_true (fun h => ?_) trivial
    exact absurd ((ifHandle_error_iff env s l hne).mp h).1 nofun
  | ifdefGeneralHandle exist =>
    refine iff_of_true (fun h => ?_) trivial
    exact absurd ((ifdefGeneralHandle_error_iff env s exist hne).mp h).1 nofun
  | includeHandle l => exact iff_of_true (fun h => hother (includeHandle_error h)) trivial
  | lineHandle l => exact iff_of_true (fun h => hother (lineHandle_error h)) trivial
  | ulineHandle => exact iff_of_true (fun h => hother (ulineHandle_error h)) trivial
  | elseHandle l => cases l <;> exact iff_of_true nofun trivial
  | endifHandle l => cases l <;> exact iff_of_true nofun trivial
  | replaceHandle replacement => exact iff_of_true nofun trivial
  | macroTermHandle => exact iff_of_true nofun trivial

/-- **Only a conditional reads an uninitialised variable**, and only if its condition is
false. -/
theorem handle_eq_uninitialised_iff (env : PpEnv Λ) (s : PpState Λ) (h : Handler) :
    s.handle env h = .error .uninitialised ↔ s.condition env h = some false := by
  have hne : ∀ error location, PpStop.uninitialised ≠ .dhalt error location := fun _ _ => nofun
  have hother : ¬ ∃ error location, PpStop.uninitialised = .dhalt error location :=
    fun ⟨_, _, h⟩ => hne _ _ h
  cases h with
  | macroHandle full replacement =>
    exact iff_of_false (macroHandle_ne_uninitialised s full replacement) nofun
  | defineHandle l =>
    cases l with
    | asm => exact iff_of_false (defineHandle_ne_uninitialised s) nofun
    | c => exact iff_of_false (cDefineHandle_ne_uninitialised s) nofun
  | macroDefHandle => exact iff_of_false (macroDefHandle_ne_uninitialised s) nofun
  | ifHandle l =>
    exact (ifHandle_error_iff env s l hne).trans (and_iff_right rfl)
  | ifdefGeneralHandle exist =>
    exact (ifdefGeneralHandle_error_iff env s exist hne).trans (and_iff_right rfl)
  | includeHandle l => exact iff_of_false (fun h => hother (includeHandle_error h)) nofun
  | lineHandle l => exact iff_of_false (fun h => hother (lineHandle_error h)) nofun
  | ulineHandle => exact iff_of_false (fun h => hother (ulineHandle_error h)) nofun
  | elseHandle l => cases l <;> exact iff_of_false nofun nofun
  | endifHandle l => cases l <;> exact iff_of_false nofun nofun
  | replaceHandle replacement => exact iff_of_false nofun nofun
  | macroTermHandle => exact iff_of_false nofun nofun

/-! ### Turns and runs -/

/-- The handler that the next turn enters, if it enters one, and the state it does so in. -/
def PpState.entered (s : PpState Λ) : Option (Handler × PpState Λ) :=
  match s.frame.next with
  | none => none
  | some i =>
    match s.handlers[i]? with
    | none => none
    | some m =>
      let (found, f) := s.frame.matchTest m
      if found then
        some (m.handler, { s with frame := { f.removeMatch m with next := some (i + 1) } })
      else none

theorem PpState.entered_match {s t : PpState Λ} {h : Handler} (hs : s.entered = some (h, t)) :
    ∃ i m, s.frame.next = some i ∧ s.handlers[i]? = some m ∧ (s.frame.matchTest m).1 = true ∧
      h = m.handler ∧
      t = { s with frame :=
        { (s.frame.matchTest m).2.removeMatch m with next := some (i + 1) } } := by
  rw [entered] at hs
  split at hs
  · cases hs
  · rename_i i hnext
    split at hs
    · cases hs
    · rename_i m hm
      dsimp only at hs
      split at hs
      · rename_i hfound
        obtain ⟨rfl, rfl⟩ := Prod.mk.inj (Option.some.inj hs)
        exact ⟨i, m, hnext, hm, hfound, rfl, rfl⟩
      · cases hs

theorem PpState.entered_of_found {s : PpState Λ} {i : ℕ} {m : Match} (hnext : s.frame.next = some i)
    (hm : s.handlers[i]? = some m) (hfound : (s.frame.matchTest m).1 = true) :
    s.entered = some (m.handler,
      { s with frame := { (s.frame.matchTest m).2.removeMatch m with next := some (i + 1) } }) := by
  simp only [entered, hnext, hm, hfound, if_true]

theorem PpState.entered_pending {s t : PpState Λ} {h : Handler} (hs : s.entered = some (h, t)) :
    t.frame.pending = s.frame.pending := by
  obtain ⟨i, m, -, -, -, -, rfl⟩ := entered_match hs
  exact s.frame.matchTest_pending m

/-- A turn that enters a handler. -/
theorem step_of_entered (env : PpEnv Λ) {s t : PpState Λ} {h : Handler}
    (hs : s.entered = some (h, t)) :
    step env s =
      match t.handle env h with
      | .error why => .stopped why
      | .ok (s, reprocess) =>
        .running
          (if reprocess then { s with frame := { s.frame with next := some 0 } } else s) := by
  rw [PpState.entered] at hs
  rw [step]
  split at hs
  · cases hs
  · rename_i i hnext
    rw [hnext]
    dsimp only
    split at hs
    · cases hs
    · rename_i m hm
      rw [hm]
      dsimp only at hs ⊢
      rw [tryHandler]
      dsimp only
      split at hs
      · rename_i hfound
        obtain ⟨rfl, rfl⟩ := Prod.mk.inj (Option.some.inj hs)
        exact (if_pos hfound).trans rfl
      · cases hs

/-- **A turn that does not enter a handler**: it tries one in vain, or there is none left to
try, or it goes back to the including file, or it fetches a character. -/
theorem step_of_not_entered {env : PpEnv Λ} {s t : PpState Λ} (hs : s.entered = none)
    (ht : step env s = .running t) :
    (∃ i m, s.frame.next = some i ∧ s.handlers[i]? = some m ∧
        ¬ (s.frame.matchTest m).1 = true ∧
        t = { s with frame := { (s.frame.matchTest m).2 with next := some (i + 1) } }) ∨
      (∃ i, s.frame.next = some i ∧ s.handlers[i]? = none ∧
        t = { s with frame := { s.frame with next := none } }) ∨
      (s.frame.next = none ∧ s.frame.pending = [] ∧ ∃ parent parents,
        s.parents = parent :: parents ∧
        t = { s with
          frame := PpState.includeDone parent s.frame.cachedOutput
          parents := parents }) ∨
      s.frame.next = none ∧ s.frame.pending ≠ [] ∧ t = { s with frame := s.frame.fetch } := by
  rw [PpState.entered] at hs
  rw [step] at ht
  split at ht
  · rename_i i hnext
    rw [hnext] at hs
    dsimp only at hs
    split at ht
    · rename_i m hm
      rw [hm] at hs
      dsimp only at hs
      rw [tryHandler] at ht
      dsimp only at ht
      split at hs
      · cases hs
      · rename_i hfound
        rw [if_neg hfound] at ht
        exact .inl ⟨i, m, hnext, hm, hfound, (Outcome.running.inj ht).symm⟩
    · rename_i hm
      exact .inr (.inl ⟨i, hnext, hm, (Outcome.running.inj ht).symm⟩)
  · rename_i hnext
    split at ht
    · rename_i hempty
      split at ht
      · cases ht
      · rename_i parent parents hparents
        exact .inr (.inr (.inl ⟨hnext, hempty, parent, parents, hparents,
          (Outcome.running.inj ht).symm⟩))
    · rename_i hne
      exact .inr (.inr (.inr ⟨hnext, hne, (Outcome.running.inj ht).symm⟩))

theorem step_ne_stopped (env : PpEnv Λ) {s : PpState Λ} (hs : s.entered = none) (why : PpStop) :
    step env s ≠ .stopped why := by
  rw [PpState.entered] at hs
  rw [step]
  split
  · rename_i i hnext
    rw [hnext] at hs
    dsimp only at hs
    split
    · rename_i m hm
      rw [hm] at hs
      dsimp only at hs
      rw [tryHandler]
      dsimp only
      split at hs
      · cases hs
      · rename_i hfound
        rw [if_neg hfound]
        exact nofun
    · exact nofun
  · split
    · split <;> exact nofun
    · exact nofun

/-- The preprocessor finishes where there is no input and no including file. -/
theorem step_finished {env : PpEnv Λ} {s : PpState Λ} {output : List Char}
    (h : step env s = .finished output) :
    s.frame.next = none ∧ s.frame.pending = [] ∧ s.parents = [] ∧
      s.frame.cachedOutput = output := by
  rw [step] at h
  split at h
  · split at h
    · rw [tryHandler] at h
      dsimp only at h
      split at h
      · split at h <;> cases h
      · cases h
    · cases h
  · rename_i hnext
    split at h
    · rename_i hempty
      split at h
      · rename_i hparents
        exact ⟨hnext, hempty, hparents, Outcome.finished.inj h⟩
      · cases h
    · cases h

/-- Only a handler that is entered stops the preprocessor. -/
theorem step_eq_stopped_iff (env : PpEnv Λ) (s : PpState Λ) (why : PpStop) :
    step env s = .stopped why ↔ ∃ h t, s.entered = some (h, t) ∧ t.handle env h = .error why := by
  rcases hs : s.entered with - | ⟨h, t⟩
  · simp [step_ne_stopped env hs]
  · rw [step_of_entered env hs]
    cases ht : t.handle env h with
    | error why' => simp [ht]
    | ok r => simp [ht]

/-- The next turn enters no handler that reads past the end of the input. -/
def PpState.ReadsEnough (s : PpState Λ) : Prop :=
  ∀ h t, s.entered = some (h, t) → h.ReadsEnough s.frame.pending

/-- The next turn enters no conditional whose condition is false. -/
def PpState.EntersNoFalseBranch (env : PpEnv Λ) (s : PpState Λ) : Prop :=
  ∀ h t, s.entered = some (h, t) → t.condition env h ≠ some false

theorem step_ne_noInput_iff (env : PpEnv Λ) (s : PpState Λ) :
    step env s ≠ .stopped .noInput ↔ s.ReadsEnough := by
  rw [Ne, step_eq_stopped_iff, not_exists]
  refine forall_congr' fun h => ?_
  rw [not_exists]
  refine forall_congr' fun t => ?_
  rw [not_and]
  refine forall_congr' fun hs => ?_
  rw [← PpState.entered_pending hs]
  exact handle_ne_noInput_iff env t h

theorem step_ne_uninitialised_iff (env : PpEnv Λ) (s : PpState Λ) :
    step env s ≠ .stopped .uninitialised ↔ s.EntersNoFalseBranch env := by
  rw [Ne, step_eq_stopped_iff, not_exists]
  refine forall_congr' fun h => ?_
  rw [not_exists]
  refine forall_congr' fun t => ?_
  rw [not_and]
  refine forall_congr' fun hs => ?_
  exact (handle_eq_uninitialised_iff env t h).not

/-- The last turn of a run. -/
theorem run_succ (env : PpEnv Λ) (s : PpState Λ) (n : ℕ) :
    run env s (n + 1) =
      match run env s n with
      | .running t => step env t
      | o => o := by
  induction n generalizing s with
  | zero =>
    change run env s 1 = step env s
    rw [run]
    cases step env s <;> rfl
  | succ n ih =>
    rw [run]
    conv_rhs => rw [run]
    cases step env s with
    | running t => exact ih t
    | finished output => rfl
    | stopped why => rfl

/-- A run that has come to an end stays there. -/
theorem run_stable {env : PpEnv Λ} {s : PpState Λ} {n m : ℕ}
    (hn : ∀ t, run env s n ≠ .running t) (hm : n ≤ m) : run env s m = run env s n := by
  induction m, hm using Nat.le_induction with
  | base => rfl
  | succ m _ ih =>
    rw [run_succ, ih]
    cases h : run env s n with
    | running t => exact absurd h (hn t)
    | finished output => rfl
    | stopped why => rfl

/-- A run stops for a reason exactly if some state it reaches does. -/
theorem run_ne_stopped_iff (env : PpEnv Λ) (s : PpState Λ) (why : PpStop) :
    (∀ n, run env s n ≠ .stopped why) ↔
      ∀ n t, run env s n = .running t → step env t ≠ .stopped why := by
  constructor
  · intro h n t ht hstop
    have hrun : run env s (n + 1) = .stopped why := by
      rw [run_succ, ht]
      exact hstop
    exact h (n + 1) hrun
  · intro h n
    induction n with
    | zero => exact nofun
    | succ n ih =>
      rw [run_succ]
      split
      · rename_i t ht
        exact h n t ht
      · exact ih

/-- **A run never reads past the end of its input** exactly if every handler that is entered
finds what its loops look for, and it only ever stops by `dhalt` exactly if, besides, no
conditional is entered whose condition is false. -/
theorem run_readsEnough_iff (env : PpEnv Λ) (s : PpState Λ) :
    ((∀ n, run env s n ≠ .stopped .noInput) ↔
        ∀ n t, run env s n = .running t → t.ReadsEnough) ∧
      ((∀ n why, run env s n = .stopped why → ∃ error location, why = .dhalt error location) ↔
        ∀ n t, run env s n = .running t → t.ReadsEnough ∧ t.EntersNoFalseBranch env) := by
  have hreads : (∀ n, run env s n ≠ .stopped .noInput) ↔
      ∀ n t, run env s n = .running t → t.ReadsEnough := by
    rw [run_ne_stopped_iff]
    simp only [step_ne_noInput_iff]
  have hbranch : (∀ n, run env s n ≠ .stopped .uninitialised) ↔
      ∀ n t, run env s n = .running t → t.EntersNoFalseBranch env := by
    rw [run_ne_stopped_iff]
    simp only [step_ne_uninitialised_iff]
  refine ⟨hreads, ?_⟩
  constructor
  · intro h n t ht
    have hr : ∀ n, run env s n ≠ .stopped .noInput := by
      intro n hn
      obtain ⟨_, _, hd⟩ := h n _ hn
      cases hd
    have hb : ∀ n, run env s n ≠ .stopped .uninitialised := by
      intro n hn
      obtain ⟨_, _, hd⟩ := h n _ hn
      cases hd
    exact ⟨hreads.mp hr n t ht, hbranch.mp hb n t ht⟩
  · intro h n why hwhy
    cases why with
    | dhalt error location => exact ⟨error, location, rfl⟩
    | noInput => exact absurd hwhy (hreads.mpr (fun n t ht => (h n t ht).1) n)
    | uninitialised => exact absurd hwhy (hbranch.mpr (fun n t ht => (h n t ht).2) n)

/-- A preprocessor that is given no parameters of directives and no files. -/
def plainEnv : PpEnv Unit where
  paramGet lexer text := ([], text, lexer)
  paramGet_suffix _ _ := List.suffix_rfl
  locate _ := none
  printIndex := 0
  caseInsensitive := true

/-- The name of a file. -/
def plainName : Bstring := ['f']

/-- Whether a run read past the end of its input. -/
def Outcome.ranDry : Outcome Λ → Bool
  | .stopped .noInput => true
  | _ => false

/-- A definition without a newline at the end of the file. -/
theorem not_forall_run_ne_noInput :
    ¬ ∀ (env : PpEnv Unit) (lexer : Unit) (filename : Bstring) (line : UInt32) (lang : Language)
      (input : List Char) (n : ℕ),
      run env (ppimplNew env lexer filename line lang input) n ≠ .stopped .noInput := by
  intro h
  have hdry :
      (run plainEnv (ppimplNew plainEnv () plainName 1 .asm ".DEFINE foo".toList) 285).ranDry
      = true := by
    decide +kernel
  have hrun := h plainEnv () plainName 1 .asm ".DEFINE foo".toList 285
  revert hdry hrun
  cases run plainEnv (ppimplNew plainEnv () plainName 1 .asm ".DEFINE foo".toList) 285 with
  | running s => exact nofun
  | finished output => exact nofun
  | stopped why => cases why <;> simp [Outcome.ranDry]

end DcpuToolchain
