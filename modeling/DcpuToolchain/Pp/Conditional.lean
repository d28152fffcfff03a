import DcpuToolchain.Pp.Rest
import Mathlib.Data.List.TakeWhile

/-!
# Conditionals, line by line

`skip_to_endif` reads the text of a conditional character by character, looks at what seems
to be a directive, and copies what it reads. What it should do is stated by lines: a line
whose first character but for blanks begins a directive may open or close a conditional or
begin its other branch, and the lines match as brackets do
(`DcpuToolchain.matchingLines`).

The loop differs from this in three ways. It begins its copy of a directive with `#`, also
where the text has `.`. It reads the first word behind an empty directive from the next line,
so that this line is not looked at (`DcpuToolchain.Language.takenAs`). And where the condition
is false its caller uses an uninitialised string. Besides, the copy is printed as a C string.
-/

namespace DcpuToolchain

/-! ### Matching -/

/-- What a line is to the conditionals around it. -/
inductive Conditional
  | opens | elses | closes
  deriving DecidableEq, Repr

/-- How many conditionals are open after a line. -/
def depthAfter : Option Conditional → ℕ → ℕ
  | some .opens, depth => depth + 1
  | some .closes, depth => depth - 1
  | _, depth => depth

/-- Whether a line ends the innermost conditional, or only its first branch. -/
def ends (stopAtElse : Bool) (kind : Option Conditional) (depth : ℕ) : Option Bool :=
  if kind = some .closes ∧ depth = 1 then some false
  else if kind = some .elses ∧ stopAtElse = true ∧ depth = 1 then some true
  else none

/-- The first line that ends the innermost conditional or its first branch, and whether it
ends only the branch. -/
def matching (stopAtElse : Bool) : (depth : ℕ) → List (Option Conditional) → Option (ℕ × Bool)
  | _, [] => none
  | depth, kind :: kinds =>
    match ends stopAtElse kind depth with
    | some atElse => some (0, atElse)
    | none =>
      (matching stopAtElse (depthAfter kind depth) kinds).map fun (i, atElse) => (i + 1, atElse)

/-- The lines that end the first branch and the conditional. -/
def matchingLines (kinds : List (Option Conditional)) : Option (ℕ × ℕ) :=
  match matching true 1 kinds with
  | none => none
  | some (i, false) => some (i, i)
  | some (i, true) => (matching false 1 (kinds.drop (i + 1))).map fun (j, _) => (i, i + 1 + j)

/-! ### Lines -/

/-- The lines of a text, with their newlines. -/
def toLines : List Char → List (List Char)
  | [] => []
  | c :: text =>
    if c = '\n' then ['\n'] :: toLines text
    else
      match toLines text with
      | [] => [[c]]
      | line :: lines => (c :: line) :: lines

/-- What ends the name of a directive. -/
def endsDirective (c : Char) : Bool := isBlank c || c = '\n'

/-- The word at the beginning of a text. -/
def firstWord (text : List Char) : List Char := text.takeWhile (!endsDirective ·)

/-- The blanks at the beginning of a line. -/
def indent (line : List Char) : List Char := line.takeWhile isBlank

theorem isBlank_of_mem_indent {line : List Char} {c : Char} (hc : c ∈ indent line) :
    isBlank c = true :=
  List.mem_takeWhile_imp hc

namespace Language

/-- What the name of a directive makes of its line. -/
def conditional (l : Language) (word : Bstring) : Option Conditional :=
  if word = "endif".toList then some .closes
  else if l.opens word then some .opens
  else if word = "else".toList then some .elses
  else none

/-- What stands behind the character that begins a directive, and behind blanks after it. -/
def behindLead (l : Language) (line : List Char) : Option (List Char) :=
  match line.dropWhile isBlank with
  | [] => none
  | char :: text => if l.leads char then some (text.dropWhile isBlank) else none

/-- What a line is. -/
def kind (l : Language) (line : List Char) : Option Conditional :=
  (l.behindLead line).bind fun text => l.conditional (l.directive (firstWord text))

/-- Whether a line is an empty directive. -/
def isEmptyDirective (l : Language) (line : List Char) : Bool :=
  l.behindLead line = some ['\n']

/-- What the lines are taken for: the first word of a line behind an empty directive is read
as the name of that directive. -/
def takenAs (l : Language) : (hidden : Bool) → List (List Char) → List (Option Conditional)
  | _, [] => []
  | true, line :: lines =>
    l.conditional (l.directive ('\n' :: firstWord line)) :: takenAs l false lines
  | false, line :: lines => l.kind line :: takenAs l (l.isEmptyDirective line) lines

/-- The copy of a line that is looked at: a directive begins with `#`. -/
def copyLine (l : Language) (line : List Char) : List Char :=
  if (l.behindLead line).isSome then indent line ++ '#' :: line.drop ((indent line).length + 1)
  else line

/-- Whether a line is a directive that begins with another character than its copy. -/
def beginsWithDot (l : Language) (line : List Char) : Bool :=
  match line.dropWhile isBlank with
  | [] => false
  | char :: _ => l.leads char && char != '#'

/-- The copy of lines. -/
def copyLines (l : Language) : (hidden : Bool) → List (List Char) → List (List Char)
  | _, [] => []
  | true, line :: lines => line :: copyLines l false lines
  | false, line :: lines => l.copyLine line :: copyLines l (l.isEmptyDirective line) lines

end Language

/-- Whether a line stands behind an empty directive. -/
def Language.hides (l : Language) : (hidden : Bool) → List (List Char) → ℕ → Bool
  | _, [], _ => false
  | hidden, _ :: _, 0 => hidden
  | true, _ :: lines, i + 1 => l.hides false lines i
  | false, line :: lines, i + 1 => l.hides (l.isEmptyDirective line) lines i

/-- The line at which the copy ends if a line is taken for the end of the branch. -/
def Language.copyEnd (l : Language) (lines : List (List Char)) (i : ℕ) : ℕ :=
  if l.hides false lines i then i - 1 else i

/-- The lines before one, and its blanks. -/
def textBefore (lines : List (List Char)) (i : ℕ) : List Char :=
  (lines.take i).flatten ++ (lines[i]?.map indent).getD []

/-- The branch that a condition selects, between the lines that match. -/
def branch (value : Bool) (lines : List (List Char)) (i j : ℕ) : List Char :=
  if value then textBefore lines i
  else if i = j then []
  else textBefore (lines.drop (i + 1)) (j - (i + 1))

/-! ### One line -/

/-- Fuel does not matter if there is enough. -/
theorem skipLoop_fuel (l : Language) (stopAtElse : Bool) (fuel fuel' : ℕ) (freshLine : Bool)
    (ifOpen : ℕ) (output : Bstring) (text : List Char) (h : text.length < fuel)
    (h' : text.length < fuel') :
    skipLoop l stopAtElse fuel freshLine ifOpen output text =
      skipLoop l stopAtElse fuel' freshLine ifOpen output text := by
  induction fuel generalizing fuel' freshLine ifOpen output text with
  | zero => exact absurd h (Nat.not_lt_zero _)
  | succ fuel ih =>
    obtain ⟨fuel', rfl⟩ : ∃ n, fuel' = n + 1 := ⟨fuel' - 1, by omega⟩
    cases text with
    | nil => rw [skipLoop, skipLoop] <;> simp
    | cons c text =>
      have hrest : ∀ (freshLine : Bool) (ifOpen : ℕ) (output : Bstring) (rest : List Char),
          rest <:+ text → skipLoop l stopAtElse fuel freshLine ifOpen output rest =
            skipLoop l stopAtElse fuel' freshLine ifOpen output rest := by
        intro freshLine ifOpen output rest hsuf
        have hlen := hsuf.length_le
        rw [List.length_cons] at h h'
        exact ih fuel' freshLine ifOpen output rest (by omega) (by omega)
      have hself := fun freshLine ifOpen output =>
        hrest freshLine ifOpen output text List.suffix_rfl
      rcases hs : skipSpaces c ['#'] text with ⟨c₁, tempOutput₁, text₁⟩
      rcases hr : readDirective c₁ [c₁] tempOutput₁ text₁ with ⟨c₂, temp, tempOutput₂, text₂⟩
      have hafter := fun freshLine ifOpen output =>
        hrest freshLine ifOpen output text₂ (directive_suffix hs hr)
      simp only [skipLoop, hs, hr, hself, hafter]

/-- The loop of `skip_to_endif`, with enough fuel. -/
def skipFrom (l : Language) (stopAtElse freshLine : Bool) (ifOpen : ℕ) (output : Bstring)
    (text : List Char) : Scan (Bstring × Bool) :=
  skipLoop l stopAtElse (text.length + 1) freshLine ifOpen output text

section Turns

variable (l : Language) (stopAtElse : Bool) (ifOpen : ℕ) (output : Bstring)

theorem skipFrom_nil (freshLine : Bool) :
    skipFrom l stopAtElse freshLine ifOpen output [] = .halt .asmNoEndifToIf [] := rfl

/-- A character that does not begin a directive is copied. -/
theorem skipFrom_cons {freshLine : Bool} {char : Char} (h : l.leads char = true → freshLine = false)
    (text : List Char) :
    skipFrom l stopAtElse freshLine ifOpen output (char :: text) =
      skipFrom l stopAtElse (char = '\n' || (freshLine && isBlank char)) ifOpen (output ++ [char])
        text := by
  rw [skipFrom, skipFrom, List.length_cons, skipLoop]
  rcases hl : l.leads char with - | -
  · rcases eq_or_ne char '\n' with rfl | hn
    · simp
    · rcases hb : isBlank char <;> simp [hn]
  · have hn : char ≠ '\n' := by
      rintro rfl
      cases l <;> exact absurd hl (by decide)
    simp [h hl, hn]

/-- The rest of a line that does not begin with a directive is copied, also if it is the last
one and has no newline. -/
theorem skipFrom_line {body newline text : List Char} (hbody : '\n' ∉ body)
    (hnewline : newline = ['\n'] ∨ newline = [] ∧ text = []) :
    skipFrom l stopAtElse false ifOpen output (body ++ newline ++ text) =
      skipFrom l stopAtElse true ifOpen (output ++ body ++ newline) text := by
  induction body generalizing output with
  | nil =>
    rcases hnewline with rfl | ⟨rfl, rfl⟩
    · simp [skipFrom_cons]
    · rfl
  | cons char body ih =>
    rw [List.mem_cons, not_or] at hbody
    rw [List.cons_append, List.cons_append, skipFrom_cons _ _ _ _ (fun _ => rfl)]
    have hn : char ≠ '\n' := Ne.symm hbody.1
    simp only [hn, decide_false, Bool.false_and, Bool.or_self]
    rw [ih _ hbody.2]
    simp

/-- The blanks at the beginning of a line are copied. -/
theorem skipFrom_blanks {blanks : List Char} (hblanks : ∀ c ∈ blanks, isBlank c = true)
    (text : List Char) :
    skipFrom l stopAtElse true ifOpen output (blanks ++ text) =
      skipFrom l stopAtElse true ifOpen (output ++ blanks) text := by
  induction blanks generalizing output with
  | nil => simp
  | cons char blanks ih =>
    have hb : isBlank char = true := hblanks char List.mem_cons_self
    have hl : l.leads char = true → true = false := by
      intro hl
      have hc : char = ' ' ∨ char = '\t' := by simpa [isBlank] using hb
      rcases hc with rfl | rfl <;> cases l <;> exact absurd hl (by decide)
    rw [List.cons_append, skipFrom_cons _ _ _ _ hl, hb, Bool.and_true, Bool.or_true,
      ih _ fun c hc => hblanks c (List.mem_cons_of_mem _ hc)]
    simp

/-! ### Directives -/

theorem skipSpaces_blanks {blanks : List Char} (hblanks : ∀ c ∈ blanks, isBlank c = true)
    {c₁ : Char}
    (hc₁ : isBlank c₁ = false) (c : Char) (tempOutput : Bstring) (text : List Char) :
    skipSpaces c tempOutput (blanks ++ c₁ :: text) = (c₁, tempOutput ++ blanks ++ [c₁], text) := by
  induction blanks generalizing c tempOutput with
  | nil => simp [skipSpaces, hc₁]
  | cons b blanks ih =>
    rw [List.cons_append, skipSpaces, if_pos (hblanks b List.mem_cons_self),
      ih fun c hc => hblanks c (List.mem_cons_of_mem _ hc)]
    simp

theorem skipSpaces_end {blanks : List Char} (hblanks : ∀ c ∈ blanks, isBlank c = true) (c : Char)
    (tempOutput : Bstring) :
    ∃ c₁ tempOutput₁, skipSpaces c tempOutput blanks = (c₁, tempOutput₁, []) := by
  induction blanks generalizing c tempOutput with
  | nil => exact ⟨c, tempOutput, rfl⟩
  | cons b blanks ih =>
    rw [skipSpaces, if_pos (hblanks b List.mem_cons_self)]
    exact ih (fun c hc => hblanks c (List.mem_cons_of_mem _ hc)) b _

theorem readDirective_word {word : List Char} (hword : ∀ c ∈ word, endsDirective c = false)
    {c₂ : Char} (hc₂ : endsDirective c₂ = true) (c : Char) (temp tempOutput : Bstring)
    (text : List Char) :
    readDirective c temp tempOutput (word ++ c₂ :: text) =
      (c₂, temp ++ word, tempOutput ++ word ++ [c₂], text) := by
  induction word generalizing c temp tempOutput with
  | nil =>
    have h : isBlank c₂ = true ∨ c₂ = '\n' := by simpa [endsDirective] using hc₂
    simp [readDirective, h]
  | cons d word ih =>
    have h : ¬ (isBlank d = true ∨ d = '\n') := by
      simpa [endsDirective] using hword d List.mem_cons_self
    rw [List.cons_append, readDirective, if_neg h,
      ih fun c hc => hword c (List.mem_cons_of_mem _ hc)]
    simp

theorem readDirective_end {word : List Char} (hword : ∀ c ∈ word, endsDirective c = false)
    (c : Char) (temp tempOutput : Bstring) :
    ∃ c₂, readDirective c temp tempOutput word = (c₂, temp ++ word, tempOutput ++ word, []) := by
  induction word generalizing c temp tempOutput with
  | nil => exact ⟨c, by simp [readDirective]⟩
  | cons d word ih =>
    have h : ¬ (isBlank d = true ∨ d = '\n') := by
      simpa [endsDirective] using hword d List.mem_cons_self
    obtain ⟨c₂, hc₂⟩ := ih (fun c hc => hword c (List.mem_cons_of_mem _ hc)) d (temp ++ [d])
      (tempOutput ++ [d])
    refine ⟨c₂, ?_⟩
    rw [readDirective, if_neg h, hc₂]
    simp

theorem skipToEndln_line {body newline text : List Char} (hbody : '\n' ∉ body)
    (hnewline : newline = ['\n'] ∨ newline = [] ∧ text = []) :
    skipToEndln (body ++ newline ++ text) = text := by
  have hall : ∀ c ∈ body, decide (c ≠ '\n') = true := by
    intro c hc
    refine decide_eq_true ?_
    rintro rfl
    exact hbody hc
  rw [skipToEndln, List.append_assoc, List.dropWhile_append_of_pos hall]
  rcases hnewline with rfl | ⟨rfl, rfl⟩
  · simp
  · rfl

theorem Language.ends_conditional (word : Bstring) :
    ends stopAtElse (l.conditional word) ifOpen =
      if word = "endif".toList ∧ ifOpen = 1 then some false
      else if word = "else".toList ∧ stopAtElse = true ∧ ifOpen = 1 then some true
      else none := by
  by_cases h₁ : word = "endif".toList
  · have h₂ : word ≠ "else".toList := by
      rintro rfl
      exact absurd h₁ (by decide)
    have hcond : l.conditional word = some .closes := if_pos h₁
    rw [hcond]
    simp only [eq_true h₁, h₂, ends, Option.some.injEq, reduceCtorEq, true_and, false_and, if_false]
  · by_cases h₂ : word = "else".toList
    · have ho : l.opens word = false := by
        rw [h₂]
        cases l <;> decide
      have hcond : l.conditional word = some .elses := by
        rw [conditional, if_neg h₁, if_neg (by simp [ho]), if_pos h₂]
      rw [hcond]
      simp only [h₁, eq_true h₂, ends, Option.some.injEq, reduceCtorEq, true_and, false_and,
        if_false]
    · have hcond : l.conditional word = if l.opens word then some .opens else none := by
        rw [conditional, if_neg h₁, if_neg h₂]
      simp only [h₁, h₂, false_and, if_false]
      rw [hcond]
      split <;> rfl

theorem Language.depthAfter_conditional (word : Bstring) :
    depthAfter (l.conditional word) ifOpen =
      if word = "endif".toList then ifOpen - 1
      else if l.opens word then ifOpen + 1
      else ifOpen := by
  rw [conditional]
  split
  · rfl
  · split
    · rfl
    · split <;> rfl

/-- **A directive**: the word behind it says what it is, and what is copied of it begins with
`#`. -/
theorem skipFrom_word {lead c₁ : Char} {gap body newline text : List Char}
    (hlead : l.leads lead = true) (hgap : ∀ c ∈ gap, isBlank c = true) (hc₁ : isBlank c₁ = false)
    (hbody : '\n' ∉ body) (hnewline : newline = ['\n'] ∨ newline = [] ∧ text = []) :
    skipFrom l stopAtElse true ifOpen output (lead :: gap ++ c₁ :: (body ++ newline ++ text)) =
      match ends stopAtElse (l.conditional (l.directive (c₁ :: firstWord body))) ifOpen with
      | some atElse => .done (output, atElse) text
      | none =>
        skipFrom l stopAtElse true
          (depthAfter (l.conditional (l.directive (c₁ :: firstWord body))) ifOpen)
          (output ++ '#' :: gap ++ c₁ :: body ++ newline) text := by
  have hword : ∀ c ∈ firstWord body, endsDirective c = false := by
    intro c hc
    simpa using List.mem_takeWhile_imp hc
  have hsplit : firstWord body ++ body.dropWhile (!endsDirective ·) = body :=
    List.takeWhile_append_dropWhile
  -- what is left when the word is read, and what is copied of it
  have hread : ∀ (c₂ : Char) (tempOutput₂ : Bstring) (text₂ : List Char),
      readDirective c₁ [c₁] (['#'] ++ gap ++ [c₁]) (body ++ newline ++ text) =
          (c₂, c₁ :: firstWord body, tempOutput₂, text₂) →
        (if c₂ ≠ '\n' then skipToEndln text₂ else text₂) = text →
        (∀ ifOpen, skipFrom l stopAtElse (c₂ = '\n') ifOpen (output ++ tempOutput₂) text₂ =
          skipFrom l stopAtElse true ifOpen (output ++ '#' :: gap ++ c₁ :: body ++ newline) text) →
        skipFrom l stopAtElse true ifOpen output (lead :: gap ++ c₁ :: (body ++ newline ++ text)) =
          match ends stopAtElse (l.conditional (l.directive (c₁ :: firstWord body))) ifOpen with
          | some atElse => .done (output, atElse) text
          | none =>
            skipFrom l stopAtElse true
              (depthAfter (l.conditional (l.directive (c₁ :: firstWord body))) ifOpen)
              (output ++ '#' :: gap ++ c₁ :: body ++ newline) text := by
    intro c₂ tempOutput₂ text₂ hr hrest hgo
    have hs := skipSpaces_blanks hgap hc₁ lead ['#'] (body ++ newline ++ text)
    rw [skipFrom, List.cons_append, List.length_cons, skipLoop]
    simp only [hlead, hs, hr, hrest, if_true, Bool.true_eq_false, if_false]
    rw [Language.ends_conditional, Language.depthAfter_conditional, ← hgo, skipFrom,
      skipLoop_fuel l stopAtElse _ (text₂.length + 1) _ _ _ text₂ _ (Nat.lt_succ_self _)]
    · split
      · rfl
      · split <;> rfl
    · have hlen := (directive_suffix hs hr).length_le
      omega
  rcases hrest : body.dropWhile (!endsDirective ·) with - | ⟨c₂, behind⟩
  · -- the word ends with the line
    rw [hrest, List.append_nil] at hsplit
    rcases hnewline with rfl | ⟨rfl, rfl⟩
    · have hr := readDirective_word hword (show endsDirective '\n' = true by decide) c₁ [c₁]
        (['#'] ++ gap ++ [c₁]) text
      rw [hsplit] at hr
      refine hread '\n' _ text (by simpa [hsplit] using hr) (by simp) fun ifOpen => ?_
      simp
    · obtain ⟨c₂, hr⟩ := readDirective_end hword c₁ [c₁] (['#'] ++ gap ++ [c₁])
      rw [hsplit] at hr
      refine hread c₂ _ [] (by simpa [hsplit] using hr) (by simp [skipToEndln]) fun ifOpen => ?_
      rw [skipFrom_nil, skipFrom_nil]
  · -- a blank ends the word
    have hc₂ : endsDirective c₂ = true := by
      have h := List.head?_dropWhile_not (!endsDirective ·) body
      rw [hrest] at h
      simpa using h
    rw [hrest] at hsplit
    have hmem : '\n' ∉ firstWord body ++ c₂ :: behind := by rwa [hsplit]
    simp only [List.mem_append, List.mem_cons, not_or] at hmem
    have hn : c₂ ≠ '\n' := Ne.symm hmem.2.1
    have hr :=
      readDirective_word hword hc₂ c₁ [c₁] (['#'] ++ gap ++ [c₁]) (behind ++ newline ++ text)
    have htext : body ++ newline ++ text = firstWord body ++ c₂ :: (behind ++ newline ++ text) := by
      conv_lhs => rw [← hsplit]
      simp
    refine hread c₂ (['#'] ++ gap ++ [c₁] ++ firstWord body ++ [c₂]) (behind ++ newline ++ text)
      ?_ ?_ fun ifOpen => ?_
    · rw [htext]
      exact hr
    · rw [if_pos hn, skipToEndln_line hmem.2.2 hnewline]
    · rw [decide_eq_false hn, skipFrom_line _ _ _ _ hmem.2.2 hnewline]
      congr 1
      have hout : c₁ :: body = c₁ :: firstWord body ++ c₂ :: behind := by
        rw [List.cons_append, hsplit]
      rw [hout]
      simp

/-! ### Lines, one by one -/

omit stopAtElse ifOpen output in
/-- Blanks at the beginning of a line are blanks at the beginning of its body. -/
theorem dropWhile_newline (body : List Char) {newline : List Char}
    (hnewline : newline = ['\n'] ∨ newline = []) :
    (body ++ newline).dropWhile isBlank = body.dropWhile isBlank ++ newline := by
  have hnl : newline.dropWhile isBlank = newline := by
    rcases hnewline with rfl | rfl <;> rfl
  rw [List.dropWhile_append]
  split
  · rename_i h
    rw [List.isEmpty_iff.mp h, hnl, List.nil_append]
  · rfl

omit stopAtElse ifOpen output in
theorem firstWord_newline (text : List Char) {newline : List Char}
    (hnewline : newline = ['\n'] ∨ newline = []) :
    firstWord (text ++ newline) = firstWord text := by
  have hnl : newline.takeWhile (!endsDirective ·) = [] := by
    rcases hnewline with rfl | rfl <;> rfl
  rw [firstWord, List.takeWhile_append, hnl, List.append_nil]
  split
  · rename_i h
    exact ((List.takeWhile_prefix _).eq_of_length h).symm
  · rfl

omit stopAtElse ifOpen output in
theorem indent_newline (body : List Char) {newline : List Char}
    (hnewline : newline = ['\n'] ∨ newline = []) : indent (body ++ newline) = indent body := by
  have h := List.takeWhile_append_dropWhile (p := isBlank) (l := body ++ newline)
  rw [dropWhile_newline body hnewline, ← List.append_assoc] at h
  have hsplit := List.takeWhile_append_dropWhile (p := isBlank) (l := body)
  exact List.append_cancel_right ((List.append_cancel_right h).trans hsplit.symm)

omit stopAtElse ifOpen output in
/-- A line either begins with no directive, or with one and then something that is no
blank. -/
theorem Language.line_cases (body : List Char) {newline : List Char}
    (hnewline : newline = ['\n'] ∨ newline = []) :
    (l.behindLead (body ++ newline) = none ∧ ∀ char rest, body = indent body ++ char :: rest →
        l.leads char = false) ∨
      ∃ lead gap rest, l.leads lead = true ∧ (∀ c ∈ gap, isBlank c = true) ∧
        body = indent body ++ lead :: (gap ++ rest) ∧ rest.head?.all (!isBlank ·) = true ∧
        l.behindLead (body ++ newline) = some (rest ++ newline) := by
  have hsplit : indent body ++ body.dropWhile isBlank = body := List.takeWhile_append_dropWhile
  rw [behindLead, dropWhile_newline body hnewline]
  rcases hdrop : body.dropWhile isBlank with - | ⟨lead, behind⟩
  · left
    refine ⟨?_, fun char rest hbody => ?_⟩
    · rcases hnewline with rfl | rfl
      · cases l <;> rfl
      · rfl
    · rw [hdrop, List.append_nil] at hsplit
      have hlen := congrArg List.length (hsplit.trans hbody)
      simp at hlen
  · rw [hdrop] at hsplit
    rcases hl : l.leads lead with - | -
    · left
      refine ⟨by simp [hl], fun char rest hbody => ?_⟩
      have h := List.append_cancel_left (hsplit.trans hbody)
      rw [← (List.cons.inj h).1]
      exact hl
    · right
      refine ⟨lead, indent behind, behind.dropWhile isBlank, hl, ?_, ?_, ?_, ?_⟩
      · exact fun c hc => isBlank_of_mem_indent hc
      · have hbehind : indent behind ++ behind.dropWhile isBlank = behind :=
          List.takeWhile_append_dropWhile
        rw [hbehind, hsplit]
      · have h := List.head?_dropWhile_not isBlank behind
        cases hb : (behind.dropWhile isBlank).head? with
        | none => rfl
        | some c =>
          rw [hb] at h
          simpa using h
      · simp only [List.cons_append, hl, if_true]
        rw [dropWhile_newline behind hnewline]

/-- The copy of a line with a directive. -/
theorem Language.copyLine_of_lead {line behind rest : List Char} {lead : Char}
    (hline : line = indent line ++ lead :: rest) (hbehind : l.behindLead line = some behind) :
    l.copyLine line = indent line ++ '#' :: rest := by
  have hdrop : ∀ blanks : List Char, (blanks ++ lead :: rest).drop (blanks.length + 1) = rest := by
    intro blanks
    simp
  have hdrop := hdrop (indent line)
  rw [← hline] at hdrop
  rw [copyLine, hbehind, Option.isSome_some, if_pos rfl, hdrop]

/-- No directive has a name of one character. -/
theorem Language.conditional_singleton (char : Char) :
    l.conditional (l.directive [char]) = none := by
  have hlen : (l.directive [char]).length ≤ 1 := by
    cases l with
    | asm => simp [directive, btolower]
    | c =>
      have h₁ := (List.dropWhile_suffix isSpace (l := btolower [char])).length_le
      have h₂ :=
        (List.dropWhile_suffix isSpace (l := (bltrimws (btolower [char])).reverse)).length_le
      simp only [directive, btrimws, bltrimws, List.length_reverse] at h₁ h₂ ⊢
      exact h₂.trans (h₁.trans (by simp [btolower]))
  have hne : ∀ word : Bstring, 2 ≤ word.length → l.directive [char] ≠ word := by
    intro word hword h
    rw [h] at hlen
    omega
  have hopens : ¬ l.opens (l.directive [char]) = true := by
    cases l with
    | asm => exact fun h => hne "if".toList (by decide) (by simpa [opens] using h)
    | c =>
      intro h
      have hmem : Language.c.directive [char] ∈ ["if".toList, "ifdef".toList, "ifndef".toList] := by
        simpa [opens] using h
      simp only [List.mem_cons, List.not_mem_nil, or_false] at hmem
      rcases hmem with h | h | h <;> exact hne _ (by decide) h
  rw [conditional, if_neg (hne _ (by decide)), if_neg hopens, if_neg (hne _ (by decide))]

/-- A directive without a name at the end of the text. -/
theorem skipFrom_lead {lead : Char} {gap : List Char} (hlead : l.leads lead = true)
    (hgap : ∀ c ∈ gap, isBlank c = true) :
    skipFrom l stopAtElse true ifOpen output (lead :: gap) = .halt .asmNoEndifToIf [] := by
  obtain ⟨c₁, tempOutput₁, hs⟩ := skipSpaces_end hgap lead ['#']
  have hends := l.ends_conditional stopAtElse ifOpen (l.directive [c₁])
  rw [l.conditional_singleton, ends] at hends
  simp only [reduceCtorEq, false_and, if_false] at hends
  rw [skipFrom, List.length_cons, skipLoop]
  simp only [hlead, hs, readDirective, if_true, Bool.true_eq_false, if_false]
  split at hends
  · cases hends
  · rename_i h₁
    rw [if_neg h₁]
    split at hends
    · cases hends
    · rename_i h₂
      rw [if_neg h₂]
      rw [skipLoop]
      simp

/-- A line that begins with no directive is copied. -/
theorem skipFrom_plain {body newline text : List Char} (hbody : '\n' ∉ body)
    (hnewline : newline = ['\n'] ∨ newline = [] ∧ text = [])
    (hplain : ∀ char rest, body = indent body ++ char :: rest → l.leads char = false) :
    skipFrom l stopAtElse true ifOpen output (body ++ newline ++ text) =
      skipFrom l stopAtElse true ifOpen (output ++ (body ++ newline)) text := by
  have hsplit : indent body ++ body.dropWhile isBlank = body := List.takeWhile_append_dropWhile
  have hblanks := skipFrom_blanks l stopAtElse ifOpen output
    (fun c hc => @isBlank_of_mem_indent body c hc)
  rcases hdrop : body.dropWhile isBlank with - | ⟨char, rest⟩
  · rw [hdrop, List.append_nil] at hsplit
    rw [hsplit] at hblanks
    rw [List.append_assoc, hblanks]
    rcases hnewline with rfl | ⟨rfl, rfl⟩
    · have hn : l.leads '\n' = true → true = false := by cases l <;> decide
      rw [List.singleton_append, skipFrom_cons _ _ _ _ hn]
      simp
    · rw [List.append_nil, skipFrom_nil, skipFrom_nil]
  · rw [hdrop] at hsplit
    have hl : l.leads char = false := hplain char rest hsplit.symm
    have hb : isBlank char = false := by
      have h := List.head?_dropWhile_not isBlank body
      rw [hdrop] at h
      simpa using h
    rw [← hsplit] at hbody
    simp only [List.mem_append, List.mem_cons, not_or] at hbody
    have hn : char ≠ '\n' := Ne.symm hbody.2.1
    conv_lhs => rw [← hsplit]
    rw [List.append_assoc, List.append_assoc, hblanks, List.cons_append,
      skipFrom_cons _ _ _ _ (fun h => absurd h (by simp [hl])), decide_eq_false hn, hb,
      Bool.and_false, Bool.or_false, ← List.append_assoc rest,
      skipFrom_line _ _ _ _ hbody.2.2 hnewline]
    congr 1
    conv_rhs => rw [← hsplit]
    simp

/-- **A line that is no empty directive** is taken for what it is. -/
theorem skipFrom_shown {body newline text : List Char} (hbody : '\n' ∉ body)
    (hnewline : newline = ['\n'] ∨ newline = [] ∧ text = [])
    (hempty : l.isEmptyDirective (body ++ newline) = false) :
    skipFrom l stopAtElse true ifOpen output (body ++ newline ++ text) =
      match ends stopAtElse (l.kind (body ++ newline)) ifOpen with
      | some atElse => .done (output ++ indent (body ++ newline), atElse) text
      | none =>
        skipFrom l stopAtElse true (depthAfter (l.kind (body ++ newline)) ifOpen)
          (output ++ l.copyLine (body ++ newline)) text := by
  have hnewline' : newline = ['\n'] ∨ newline = [] := hnewline.imp_right And.left
  rcases l.line_cases body hnewline' with ⟨hnone, hplain⟩ |
    ⟨lead, gap, rest, hl, hgap, hb, hrest, hsome⟩
  · have hkind : l.kind (body ++ newline) = none := by rw [Language.kind, hnone, Option.bind_none]
    have hcopy : l.copyLine (body ++ newline) = body ++ newline := by
      rw [Language.copyLine, hnone, Option.isSome_none, if_neg (by simp)]
    rw [hkind, hcopy, skipFrom_plain l stopAtElse ifOpen output hbody hnewline hplain]
    rfl
  · have hindent : indent (body ++ newline) = indent body := indent_newline body hnewline'
    have hline :
        body ++ newline = indent (body ++ newline) ++ lead :: (gap ++ rest ++ newline) := by
      rw [hindent]
      conv_lhs => rw [hb]
      simp
    rw [l.copyLine_of_lead hline hsome, hindent]
    have hblanks := skipFrom_blanks l stopAtElse ifOpen output
      (fun c hc => @isBlank_of_mem_indent body c hc)
    conv_lhs => rw [hb]
    cases rest with
    | nil =>
      -- the text ends here, as the directive is not empty
      have hnil : newline = [] ∧ text = [] := by
        rcases hnewline with rfl | h
        · exact absurd hsome (by simpa [Language.isEmptyDirective] using hempty)
        · exact h
      obtain ⟨rfl, rfl⟩ := hnil
      have hkind : l.kind (body ++ []) = none := by
        rw [Language.kind, hsome]
        cases l <;> decide
      rw [hkind, List.append_nil, List.append_nil, List.append_nil, hblanks,
        skipFrom_lead _ _ _ _ hl hgap]
      rfl
    | cons c₁ rest =>
      have hc₁ : isBlank c₁ = false := by simpa using hrest
      rw [hb] at hbody
      simp only [List.mem_append, List.mem_cons, not_or] at hbody
      have hends : endsDirective c₁ = false := by
        simp [endsDirective, hc₁, Ne.symm hbody.2.2.2.1]
      have hword : firstWord (c₁ :: rest ++ newline) = c₁ :: firstWord rest := by
        rw [List.cons_append, firstWord, List.takeWhile_cons, if_pos (by simp [hends]), ← firstWord,
          firstWord_newline rest hnewline']
      have hkind : l.kind (body ++ newline) =
          l.conditional (l.directive (c₁ :: firstWord rest)) := by
        rw [Language.kind, hsome, Option.bind_some, hword]
      rw [hkind]
      have h := skipFrom_word l stopAtElse ifOpen (output ++ indent body) hl hgap hc₁
        hbody.2.2.2.2 hnewline
      simp only [List.cons_append, List.append_assoc] at h hblanks ⊢
      rw [hblanks, h]

/-- **An empty directive** is named by the next line. -/
theorem skipFrom_hidden {line body newline text : List Char} (hbody : '\n' ∉ body)
    (hnewline : newline = ['\n'] ∨ newline = [] ∧ text = [])
    (hline : l.isEmptyDirective line = true) :
    skipFrom l stopAtElse true ifOpen output (line ++ (body ++ newline ++ text)) =
      match ends stopAtElse (l.conditional (l.directive ('\n' :: firstWord body))) ifOpen with
      | some atElse => .done (output ++ indent line, atElse) text
      | none =>
        skipFrom l stopAtElse true
          (depthAfter (l.conditional (l.directive ('\n' :: firstWord body))) ifOpen)
          (output ++ l.copyLine line ++ (body ++ newline)) text := by
  have hsplit : indent line ++ line.dropWhile isBlank = line := List.takeWhile_append_dropWhile
  have hbehind : l.behindLead line = some ['\n'] := by simpa [Language.isEmptyDirective] using hline
  have hlead := hbehind
  rw [Language.behindLead] at hlead
  rcases hdrop : line.dropWhile isBlank with - | ⟨lead, behind⟩
  · rw [hdrop] at hlead
    cases hlead
  · rw [hdrop] at hlead hsplit
    simp only [Option.ite_none_right_eq_some, Option.some.injEq] at hlead
    obtain ⟨hl, hbehind'⟩ := hlead
    have hgap : indent behind ++ ['\n'] = behind := by
      rw [← hbehind']
      exact List.takeWhile_append_dropWhile
    have hline' : line = indent line ++ lead :: (indent behind ++ ['\n']) := by rw [hgap, hsplit]
    have hword := skipFrom_word l stopAtElse ifOpen (output ++ indent line) hl
      (fun c hc => @isBlank_of_mem_indent behind c hc)
      (show isBlank '\n' = false by decide) hbody hnewline
    have hblanks := skipFrom_blanks l stopAtElse ifOpen output
      (fun c hc => @isBlank_of_mem_indent line c hc)
      (lead :: (indent behind ++ '\n' :: (body ++ newline ++ text)))
    rw [l.copyLine_of_lead hline' hbehind]
    conv_lhs => rw [hline']
    simp only [List.cons_append, List.append_assoc, List.nil_append] at hword hblanks ⊢
    rw [hblanks, hword]

end Turns

end DcpuToolchain
