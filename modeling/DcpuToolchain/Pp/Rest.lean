import DcpuToolchain.Pp.Process

/-!
# What is left of the input

Reading takes characters off the front of the input and printing puts characters there, so
that what is left after a loop that reads is an end of what there was.
-/

namespace DcpuToolchain

/-! ### Reading -/

namespace Frame

variable (f : Frame)

/-- Reading a character takes the first one off what is left of the input. -/
theorem getInput_pending : f.getInput.pending = f.pending.tail := by
  rw [getInput, pending]
  cases h : f.cachedInput with
  | cons c cs => simp [pending, h]
  | nil => cases h' : f.input <;> simp [pending, h, h']

/-- Reading as many characters drops them from what is left of the input. -/
theorem advance_pending (n : ℕ) : (f.advance n).pending = f.pending.drop n := by
  induction n generalizing f with
  | zero => rw [advance, List.drop_zero]
  | succ n ih => rw [advance, ih, getInput_pending, List.drop_tail]

/-- After reading up to a rest of the input, that rest is left. -/
theorem advanceTo_pending {rest : List Char} (h : rest <:+ f.pending) :
    (f.advanceTo rest).pending = rest := by
  obtain ⟨read, hread⟩ := h
  rw [advanceTo, advance_pending, ← hread, List.length_append, Nat.add_sub_cancel,
    List.drop_left]

/-- A character that is only looked at is put back: the input is as before. -/
theorem peek_pending : f.peek.pending = f.pending := by
  rw [peek]
  cases h : f.pending with
  | nil => exact h
  | cons c cs =>
    have htail : f.getInput.pending = cs := by rw [getInput_pending, h, List.tail_cons]
    rw [← htail]
    rfl

/-- Reading changes nothing but the input and the line numbers. -/
structure Reads (f g : Frame) : Prop where
  cachedOutput : g.cachedOutput = f.cachedOutput
  currentFilename : g.currentFilename = f.currentFilename
  inSingleString : g.inSingleString = f.inSingleString
  inDoubleString : g.inDoubleString = f.inDoubleString
  printIndex : g.printIndex = f.printIndex
  next : g.next = f.next

theorem Reads.rfl : f.Reads f := ⟨Eq.refl _, Eq.refl _, Eq.refl _, Eq.refl _, Eq.refl _, Eq.refl _⟩

/-- Reading a character leaves all but the input and the line numbers alone. -/
theorem getInput_reads : f.Reads f.getInput := by
  rw [getInput]
  split
  · exact ⟨Eq.refl _, Eq.refl _, Eq.refl _, Eq.refl _, Eq.refl _, Eq.refl _⟩
  · split
    · exact ⟨Eq.refl _, Eq.refl _, Eq.refl _, Eq.refl _, Eq.refl _, Eq.refl _⟩
    · exact .rfl f

/-- Reading any number of characters leaves all but the input and the line numbers alone. -/
theorem advance_reads (n : ℕ) : f.Reads (f.advance n) := by
  induction n generalizing f with
  | zero => exact .rfl f
  | succ n ih =>
    have h := ih f.getInput
    have hone := f.getInput_reads
    exact ⟨h.1.trans hone.1, h.2.trans hone.2, h.3.trans hone.3, h.4.trans hone.4,
      h.5.trans hone.5, h.6.trans hone.6⟩

theorem advanceTo_reads (rest : List Char) : f.Reads (f.advanceTo rest) := f.advance_reads _

/-- Looking at a character counts a newline, but touches neither output nor strings. -/
theorem peek_reads : f.Reads f.peek := by
  rw [peek]
  split
  · exact .rfl f
  · have h := f.getInput_reads
    exact ⟨h.1, h.2, h.3, h.4, h.5, h.6⟩

/-- Testing a match looks at a character at most, whatever comes out of the test. -/
theorem matchTest_reads (m : Match) : f.Reads (f.matchTest m).2 := by
  rw [matchTest]
  split
  · exact .rfl f
  · split
    · exact .rfl f
    · split
      · exact f.peek_reads
      · exact .rfl f

/-- Printing in front of what is left of the input. -/
theorem printf_pending (h : f.printIndex = 0) (text : List Char) :
    (f.printf text).pending = text.filter (· ≠ '\x00') ++ f.pending := by
  have hinsert : (f.insertPrinted (text.filter (· ≠ '\x00'))).pending =
      text.filter (· ≠ '\x00') ++ f.pending := by
    rw [insertPrinted, pending, h]
    simp [pending]
  exact hinsert

/-- What `ppimpl_iprintf` puts back stands in front of what is left of the input. -/
theorem iprintf_pending (h : f.printIndex = 0) (text : List Char) :
    (f.iprintf text).pending = text.filter (· ≠ '\x00') ++ f.pending := by
  rw [iprintf, insertPrinted, pending, h]
  simp [pending]

/-- Testing a match leaves the input as it is, as it puts back what it reads. -/
theorem matchTest_pending (m : Match) : (f.matchTest m).2.pending = f.pending := by
  rw [matchTest]
  split
  · rfl
  · split
    · rfl
    · split
      · exact f.peek_pending
      · rfl

/-- Tracking strings looks at the output only, and leaves the input as it is. -/
theorem trackStrings_pending : f.trackStrings.pending = f.pending := by
  rw [trackStrings]
  split
  · rfl
  · split <;> rfl

/-- A turn that fetches takes one character off what is left of the input. -/
theorem fetch_pending : f.fetch.pending = f.pending.tail := by
  rw [fetch]
  cases hpending : f.pending with
  | nil => exact hpending
  | cons c text =>
    dsimp only
    rw [← hpending, ← f.getInput_pending]
    split <;> split <;> exact trackStrings_pending _

end Frame

variable {Λ : Type}

/-- A state that has read up to a rest of its input has that rest left. -/
theorem PpState.readTo_pending (s : PpState Λ) {rest : List Char}
    (h : rest <:+ s.frame.pending) : (s.readTo rest).frame.pending = rest :=
  s.frame.advanceTo_pending h

/-- What popping scopes leaves of a state. -/
structure PpState.Pops (s t : PpState Λ) (n : ℕ) : Prop where
  output : t.frame.cachedOutput <+: s.frame.cachedOutput
  pending : t.frame.pending = s.frame.pending
  currentFilename : t.frame.currentFilename = s.frame.currentFilename
  printIndex : t.frame.printIndex = s.frame.printIndex
  next : t.frame.next = s.frame.next
  parents : t.parents = s.parents
  scopes : t.scopes = s.scopes.drop n

/-- Popping a scope touches no input; of the output it can cut off the end. -/
theorem popScope_pops (s : PpState Λ) : s.Pops s.popScope 1 := by
  rw [PpState.popScope]
  split
  · rename_i hscopes
    exact ⟨List.prefix_rfl, rfl, rfl, rfl, rfl, rfl, by rw [hscopes]; rfl⟩
  · rename_i scope scopes hscopes
    dsimp only
    split
    · exact ⟨List.prefix_rfl, rfl, rfl, rfl, rfl, rfl, by rw [hscopes]; rfl⟩
    · exact ⟨List.take_prefix _ _, rfl, rfl, rfl, rfl, rfl, by rw [hscopes]; rfl⟩

/-- Popping some scopes touches no input; of the output it can cut off the end. -/
theorem popScopes_pops (s : PpState Λ) (n : ℕ) : s.Pops (s.popScopes n) n := by
  induction n generalizing s with
  | zero => exact ⟨List.prefix_rfl, rfl, rfl, rfl, rfl, rfl, rfl⟩
  | succ n ih =>
    have hone := popScope_pops s
    have h := ih s.popScope
    refine ⟨h.output.trans hone.output, h.pending.trans hone.pending,
      h.currentFilename.trans hone.currentFilename, h.printIndex.trans hone.printIndex,
      h.next.trans hone.next, h.parents.trans hone.parents, ?_⟩
    rw [PpState.popScopes, h.scopes, hone.scopes, List.drop_drop, Nat.add_comm]

/-- What registering parameters leaves of a state. -/
theorem registerParameters_keeps (s : PpState Λ) (parameters : List (Bstring × Bstring))
    (hscopes : s.scopes ≠ []) :
    (s.registerParameters parameters).frame = s.frame ∧
      (s.registerParameters parameters).parents = s.parents ∧
      (s.registerParameters parameters).scopes.length = s.scopes.length := by
  induction parameters generalizing s with
  | nil => exact ⟨rfl, rfl, rfl⟩
  | cons p parameters ih =>
    obtain ⟨parameter, argument⟩ := p
    rw [PpState.registerParameters]
    split
    · exact ih s hscopes
    · obtain ⟨scope, scopes, hcons⟩ := List.exists_cons_of_ne_nil hscopes
      have hregister : ∀ m, (s.register m).frame = s.frame ∧
          (s.register m).parents = s.parents ∧
          (s.register m).scopes.length = s.scopes.length := by
        intro m
        rw [PpState.register, hcons]
        exact ⟨rfl, rfl, rfl⟩
      have hone := hregister (nameMatch parameter (.replaceHandle argument))
      have hne : (s.register (nameMatch parameter (.replaceHandle argument))).scopes ≠ [] := by
        rw [← List.length_pos_iff, hone.2.2, hcons]
        exact Nat.succ_pos _
      have h := ih _ hne
      exact ⟨h.1.trans hone.1, h.2.1.trans hone.2.1, h.2.2.trans hone.2.2⟩

/-- A loop that reads and lets the handler go on. -/
theorem PpState.scan_ok {α β : Type} {s : PpState Λ} {r : Scan α}
    {k : α → PpState Λ → Except PpStop β} {b : β} (h : s.scan r k = .ok b) :
    ∃ a rest, r = .done a rest ∧ k a (s.readTo rest) = .ok b := by
  cases r with
  | done a rest => exact ⟨a, rest, rfl, h⟩
  | halt error rest => cases h
  | dry => cases h

/-! ### Line corrections -/

/-- A line number that is printed consists of digits, behind a minus sign at most. -/
theorem notMem_formatInt (n : UInt32) {c : Char} (hdigit : c.isDigit = false) (hminus : c ≠ '-') :
    c ∉ formatInt n := by
  have hdigits : ∀ k : ℕ, c ∉ Nat.toDigits 10 k := fun k hm =>
    absurd (Nat.isDigit_of_mem_toDigits (by decide) le_rfl hm) (by simp [hdigit])
  rw [formatInt]
  split
  · exact hdigits _
  · rw [List.mem_cons, not_or]
    exact ⟨hminus, hdigits _⟩

/-- What `%s` prints has no other characters than the string itself. -/
theorem notMem_cString {name : Bstring} {c : Char} (h : c ∉ name) : c ∉ cString name :=
  fun hm => h ((List.takeWhile_sublist _).subset hm)

/-- What `%s` prints ends before the first NUL, so that it contains none. -/
theorem zero_notMem_cString (name : Bstring) : '\x00' ∉ cString name := fun hm => by
  simpa using (List.all_eq_true.mp List.all_takeWhile) _ hm

/-- What is put out before a newline to correct the line number. -/
def lineCorrection (line : UInt32) (filename : Bstring) : List Char :=
  '\n' :: (['#', ' '] ++ formatInt line ++ [' '] ++ cString filename)

/-- A line correction brings no character that is neither in its pattern nor in the file name. -/
theorem notMem_lineCorrection (line : UInt32) {filename : Bstring} {c : Char}
    (hdigit : c.isDigit = false) (hc : c ∉ ['\n', '#', ' ', '-']) (h : c ∉ filename) :
    c ∉ lineCorrection line filename := by
  simp only [List.mem_cons, List.not_mem_nil, or_false, not_or] at hc
  obtain ⟨hnewline, hhash, hspace, hminus⟩ := hc
  simp [lineCorrection, hnewline, hhash, hspace, notMem_formatInt line hdigit hminus,
    notMem_cString h]

/-- A line correction has no NUL in it, so that all of it is put out. -/
theorem lineCorrection_filter (line : UInt32) (filename : Bstring) :
    (lineCorrection line filename).filter (· ≠ '\x00') = lineCorrection line filename := by
  rw [List.filter_eq_self]
  rintro c hc
  rw [decide_eq_true_iff]
  rintro rfl
  have hnumber := notMem_formatInt line (c := '\x00') (by decide) (by decide)
  revert hc
  simp [lineCorrection, hnumber, zero_notMem_cString]

/-- A fetched character is put out, if it is a newline behind a correction of the line
number, and it begins or ends strings. -/
theorem Frame.fetch_cons {f : Frame} {c : Char} {text : List Char} (h : f.pending = c :: text) :
    ∃ (g : Frame) (mark : List Char), f.fetch = { g.trackStrings with
        next := if g.trackStrings.inSingleString ∨ g.trackStrings.inDoubleString then none
          else some 0 } ∧
      g.cachedOutput = f.cachedOutput ++ mark ++ [c] ∧
      (mark = [] ∨ c = '\n' ∧ ∃ line, mark = lineCorrection line f.currentFilename) ∧
      g.currentFilename = f.currentFilename ∧
      g.inSingleString = f.inSingleString ∧ g.inDoubleString = f.inDoubleString := by
  have hreads := f.getInput_reads
  rw [fetch, h]
  dsimp only
  by_cases hc : c = '\n'
  · rw [if_pos hc]
    split
    · refine ⟨_, lineCorrection f.getInput.currentLine f.currentFilename, rfl, ?_,
        .inr ⟨hc, _, rfl⟩, hreads.currentFilename, hreads.inSingleString, hreads.inDoubleString⟩
      rw [← lineCorrection_filter, ← hreads.currentFilename, ← hreads.cachedOutput]
      rfl
    · refine ⟨_, [], rfl, ?_, .inl rfl, hreads.currentFilename, hreads.inSingleString,
        hreads.inDoubleString⟩
      rw [List.append_nil, ← hreads.cachedOutput]
  · rw [if_neg hc, if_neg fun hand => hc hand.1]
    refine ⟨_, [], rfl, ?_, .inl rfl, hreads.currentFilename, hreads.inSingleString,
      hreads.inDoubleString⟩
    rw [List.append_nil, ← hreads.cachedOutput]

/-- Tracking strings leaves the output and the name of the file as they are. -/
theorem Frame.trackStrings_keeps (f : Frame) :
    f.trackStrings.cachedOutput = f.cachedOutput ∧
      f.trackStrings.currentFilename = f.currentFilename := by
  rw [trackStrings]
  split
  · exact ⟨rfl, rfl⟩
  · split <;> exact ⟨rfl, rfl⟩

/-- Outside of strings, only quotes begin one. -/
theorem Frame.trackStrings_outside {f : Frame} {before : List Char} {c : Char}
    (hstring : f.inSingleString = false ∧ f.inDoubleString = false)
    (houtput : f.cachedOutput = before ++ [c]) (hsingle : c ≠ '\'') (hdouble : c ≠ '"') :
    f.trackStrings.inSingleString = false ∧ f.trackStrings.inDoubleString = false := by
  rw [trackStrings, if_pos hstring, houtput, List.getLast?_concat]
  simp [hsingle, hdouble]

/-! ### Loops that read -/

/-- What a loop leaves of a text is an end of it. -/
def Scan.Leaves {α : Type} (text : List Char) : Scan α → Prop
  | .done _ rest | .halt _ rest => rest <:+ text
  | .dry => True

/-- What a loop leaves of a text, it also leaves of one with a character more. -/
theorem Scan.Leaves.cons {α : Type} {r : Scan α} {text : List Char} (h : r.Leaves text)
    (c : Char) : r.Leaves (c :: text) := by
  cases r with
  | done _ _ | halt _ _ => exact h.trans (List.suffix_cons c text)
  | dry => trivial

/-- Reading the name of a definition leaves an end of the text. -/
theorem defineWord_leaves (word : Bstring) (text : List Char) :
    (defineWord word text).Leaves text := by
  fun_induction defineWord word text with
  | case1 => trivial
  | case6 _ _ _ _ _ _ _ _ ih => exact ih.cons _
  | _ => exact List.suffix_cons _ _

/-- Reading what a name of the assembler is defined as leaves an end of the text. -/
theorem defineDefinition_leaves (definition : Bstring) (text : List Char) :
    (defineDefinition definition text).Leaves text := by
  fun_induction defineDefinition definition text with
  | case1 => trivial
  | case3 _ _ _ _ _ _ ih | case5 _ _ _ _ _ _ ih => exact ih.cons _
  | _ => exact List.suffix_cons _ _

/-- Reading the name of a macro with its parameters leaves an end of the text. -/
theorem macroWord_leaves (incorrect : PpError) (endsAtNewline : Bool) (name word : Bstring)
    (isMacro : Bool) (text : List Char) :
    (macroWord incorrect endsAtNewline name word isMacro text).Leaves text := by
  fun_induction macroWord incorrect endsAtNewline name word isMacro text with
  | case1 => trivial
  | case3 _ _ _ _ _ _ _ _ _ ih => exact ih.cons _
  | case8 => rename_i ih; exact ih.cons _
  | _ => exact List.suffix_cons _ _

/-- Reading what a name of C is defined as leaves an end of the text. -/
theorem cDefineDefinition_leaves (definition : Bstring) (continued : ℕ) (text : List Char) :
    (cDefineDefinition definition continued text).Leaves text := by
  fun_induction cDefineDefinition definition continued text with
  | case1 => trivial
  | case2 => rename_i ih; exact ih.cons _
  | case5 => rename_i ih; exact ih.cons _
  | case6 => rename_i ih; exact ih.cons _
  | _ => exact List.suffix_cons _ _

/-- Reading the body of a macro up to its last line leaves an end of the text. -/
theorem macroDefinition_leaves (definition : Bstring) (count : ℕ) (text : List Char) :
    (macroDefinition definition count text).Leaves text := by
  fun_induction macroDefinition definition count text with
  | case1 => exact List.suffix_rfl
  | case2 => rename_i ih; exact ih.cons _
  | case4 => rename_i ih; exact ih.cons _
  | case5 => rename_i ih; exact ih.cons _
  | _ => exact List.suffix_cons _ _

/-- Reading up to the bracket of a call, terminators included, leaves an end of the text. -/
theorem openBracket_leaves (expected : List Char) (pops : ℕ) (text : List Char) :
    (openBracket expected pops text).Leaves text := by
  fun_induction openBracket expected pops text with
  | case1 => trivial
  | case2 => rename_i ih; exact ih.cons _
  | case6 => rename_i ih; exact ih.cons _
  | _ => exact List.suffix_cons _ _

/-- Reading the arguments of a call leaves an end of the text. -/
theorem readArguments_suffix {brackets : ℕ} {temp : Bstring} {arguments arguments' : List Bstring}
    {text rest : List Char}
    (h : readArguments brackets temp arguments text = some (arguments', rest)) :
    rest <:+ text := by
  fun_induction readArguments brackets temp arguments text with
  | case1 => exact absurd h (by simp)
  | case4 =>
    obtain ⟨-, rfl⟩ : _ ∧ _ = rest := by simpa using h
    exact List.suffix_cons _ _
  | case2 | case3 | case5 | case6 => rename_i ih; exact (ih h).trans (List.suffix_cons _ _)

/-- Skipping to the end of the line leaves an end of the text. -/
theorem skipToEndln_suffix (text : List Char) : skipToEndln text <:+ text :=
  (List.tail_suffix _).trans (List.dropWhile_suffix _)

/-- Skipping the blanks before a directive leaves an end of the text. -/
theorem skipSpaces_suffix (c : Char) (tempOutput : Bstring) (text : List Char) :
    (skipSpaces c tempOutput text).2.2 <:+ text := by
  fun_induction skipSpaces c tempOutput text with
  | case1 => exact List.suffix_rfl
  | case2 => rename_i ih; exact ih.trans (List.suffix_cons _ _)
  | case3 => exact List.suffix_cons _ _

/-- Reading the name of a directive in a branch leaves an end of the text. -/
theorem readDirective_suffix (c : Char) (temp tempOutput : Bstring) (text : List Char) :
    (readDirective c temp tempOutput text).2.2.2 <:+ text := by
  fun_induction readDirective c temp tempOutput text with
  | case1 => exact List.suffix_rfl
  | case2 => exact List.suffix_cons _ _
  | case3 => rename_i ih; exact ih.trans (List.suffix_cons _ _)

/-- An end of an end of a text is an end of the text. -/
theorem Scan.Leaves.trans {α : Type} {r : Scan α} {text text' : List Char}
    (h : r.Leaves text) (h' : text <:+ text') : r.Leaves text' := by
  cases r with
  | done _ _ | halt _ _ => exact List.IsSuffix.trans h h'
  | dry => trivial

/-- What is left behind a directive. -/
theorem directive_suffix {c c₁ c₂ : Char} {tempOutput tempOutput₁ tempOutput₂ temp : Bstring}
    {text text₁ text₂ : List Char} (hs : skipSpaces c tempOutput text = (c₁, tempOutput₁, text₁))
    (hr : readDirective c₁ [c₁] tempOutput₁ text₁ = (c₂, temp, tempOutput₂, text₂)) :
    text₂ <:+ text := by
  have h₁ : text₁ <:+ text := by
    have h := skipSpaces_suffix c tempOutput text
    rwa [hs] at h
  have h₂ : text₂ <:+ text₁ := by
    have h := readDirective_suffix c₁ [c₁] tempOutput₁ text₁
    rwa [hr] at h
  exact h₂.trans h₁

/-- Going through the lines of a branch leaves an end of the text. -/
theorem skipLoop_leaves (l : Language) (stopAtElse : Bool) (fuel : ℕ) (freshLine : Bool)
    (ifOpen : ℕ) (output : Bstring) (text : List Char) :
    (skipLoop l stopAtElse fuel freshLine ifOpen output text).Leaves text := by
  have hrest : ∀ (c : Char) (text : List Char),
      (if c ≠ '\n' then skipToEndln text else text) <:+ text := by
    intro c text
    split
    · exact skipToEndln_suffix text
    · exact List.suffix_rfl
  fun_induction skipLoop l stopAtElse fuel freshLine ifOpen output text with
  | case1 | case2 => exact List.nil_suffix
  | case3 | case7 | case8 | case9 => rename_i ih; exact ih.cons _
  | case4 =>
    rename_i hs _ _ _ _ hr _ _ _
    exact ((hrest _ _).trans (directive_suffix hs hr)).trans (List.suffix_cons _ _)
  | case5 =>
    rename_i hs _ _ _ _ hr _ _ _ _
    exact ((hrest _ _).trans (directive_suffix hs hr)).trans (List.suffix_cons _ _)
  | case6 =>
    rename_i hs _ _ _ _ hr _ _ _ _ ih
    exact (ih.trans (directive_suffix hs hr)).cons _

/-- Reading a branch up to the directive that ends it leaves an end of the text. -/
theorem skipToEndif_leaves (l : Language) (stopAtElse : Bool) (text : List Char) :
    (skipToEndif l stopAtElse text).Leaves text :=
  skipLoop_leaves l stopAtElse _ true 1 [] text

/-- Selecting one of the branches of a conditional leaves an end of the text. -/
theorem selectBranch_leaves {l : Language} {value : Bool} {text : List Char} {r : Scan Bstring}
    (h : selectBranch l value text = .ok r) : r.Leaves text := by
  rw [selectBranch] at h
  have h₁ := skipToEndif_leaves l true text
  split at h
  · split at h
    · rename_i rest heq
      rw [heq] at h₁
      have h₂ := skipToEndif_leaves l false rest
      split at h <;> cases h
      · rename_i heq₂
        rw [heq₂] at h₂
        exact h₂.trans h₁
      · rename_i heq₂
        rw [heq₂] at h₂
        exact h₂.trans h₁
      · trivial
    · rename_i heq
      rw [heq] at h₁
      cases h
      exact h₁
    · rename_i heq
      rw [heq] at h₁
      cases h
      exact h₁
    · cases h
      trivial
  · cases h

end DcpuToolchain
