import DcpuToolchain.Lib.Lines
import DcpuToolchain.Pp.Counters

/-!
# Numbering the lines of the output

Directives and calls take lines away from the source and put others in, so the preprocessor
keeps two counters, the line of the source and the line of the output, and where they differ at a
newline it puts out a marker, `# line file`, for the line behind it. A reader of the output
numbers its lines by the markers and by counting from them (`DcpuToolchain.numbering`).

What the reader is told can be kept account of from the source alone (`DcpuToolchain.Account`).
Markers are put out at newlines only: at a newline the open line of the output gets the position
of the source, unless the newlines that have been counted since the last one lead to the line of
the source by themselves. Then the reader goes on by one, whatever the source did: behind a
definition of three lines they agree, as the newline that it prints is counted three times,
although two lines are missing.

The reader is told what is in the account (`DcpuToolchain.run_numbered`). So the text of the
source that is put out is numbered rightly exactly if the source is still at the position in the
account (`DcpuToolchain.run_numbersSource_iff`), that is, if the counters have not agreed by
accident and no directive or call has taken newlines of the source since the line was begun. The
branch of a conditional is always behind such a newline.
-/

namespace DcpuToolchain

variable {Λ : Type}

/-! ### Markers -/

/-- A line and its file. -/
abbrev Position := ℕ × List Char

/-- What a line of the output says of the line behind it, if it is a marker, `# line file`. -/
def markerOf : List Char → Option Position
  | '#' :: ' ' :: text =>
    match text.takeWhile Char.isDigit, text.dropWhile Char.isDigit with
    | [], _ => none
    | digits, ' ' :: file => some (Nat.ofDigitChars 10 digits 0, file)
    | _, _ => none
  | _ => none

/-- The position of the line behind another. -/
def nextPosition (p : Position) (line : List Char) : Position :=
  (markerOf line).getD (p.1 + 1, p.2)

/-- The position of the line at the end of the output, as it is told by the markers and by the
newlines behind them, and what is on that line. -/
def numbering (output : List Char) : Position × List Char :=
  Lines.read (· = '\n') nextPosition (0, []) output

/-- Where in the source the input is read. -/
def Frame.position (f : Frame) : Position := (f.currentLine.toNat, cString f.currentFilename)

/-- A marker of the source's position that can be read again. -/
structure Frame.Printable (f : Frame) : Prop where
  line : f.currentLine.toNat < 2 ^ 31
  file : '\n' ∉ cString f.currentFilename

theorem formatInt_eq {n : UInt32} (h : n.toNat < 2 ^ 31) :
    formatInt n = Nat.toDigits 10 n.toNat := by
  have hint : n.toBitVec.toInt = (n.toNat : ℤ) := by
    rw [BitVec.toInt_eq_toNat_of_lt]
    · rfl
    · change 2 * n.toNat < 2 ^ 32
      omega
  rw [formatInt, hint]

/-- **A marker is read as it was printed.** -/
theorem markerOf_lineMark {f : Frame} (h : f.currentLine.toNat < 2 ^ 31) :
    markerOf f.lineMark = some f.position := by
  have hdigits : ∀ c ∈ Nat.toDigits 10 f.currentLine.toNat, c.isDigit = true := fun c hc =>
    Nat.isDigit_of_mem_toDigits (by decide) le_rfl hc
  have hsplit : f.lineMark = '#' :: ' ' :: (Nat.toDigits 10 f.currentLine.toNat ++
      ' ' :: cString f.currentFilename) := by
    rw [Frame.lineMark, formatInt_eq h]
    simp
  obtain ⟨d, ds, hcons⟩ := List.exists_cons_of_ne_nil
    (Nat.toDigits_ne_nil (b := 10) (n := f.currentLine.toNat))
  rw [hsplit, markerOf, List.takeWhile_append_of_pos hdigits, List.dropWhile_append_of_pos hdigits,
    List.takeWhile_cons_of_neg (by decide), List.dropWhile_cons_of_neg (by decide), List.append_nil]
  have hnumber : Nat.ofDigitChars 10 (Nat.toDigits 10 f.currentLine.toNat) 0 =
      f.currentLine.toNat := Nat.ofDigitChars_ten_toDigits
  rw [hcons] at hnumber ⊢
  exact congrArg some (Prod.ext hnumber rfl)

/-- A marker is on one line. -/
theorem Frame.Printable.lineMark {f : Frame} (h : f.Printable) :
    ∀ c ∈ f.lineMark, decide (c = '\n') = false := by
  intro c hc
  rw [decide_eq_false_iff_not]
  rintro rfl
  have hnumber := notMem_formatInt f.currentLine (c := '\n') (by decide) (by decide)
  simp [Frame.lineMark, hnumber, h.file] at hc

/-! ### What a reader is told -/

/-- An account of the open line of the output: its position as it is told to a reader, the position
at which the source was read when it was begun, and how many newlines have been counted since. -/
structure Account where
  told : Position
  opened : Position
  counted : ℕ

namespace Account

/-- The account of a state in which a line has just been begun. -/
def begin (s : PpState Λ) : Account := ⟨s.frame.position, s.frame.position, 0⟩

/-- **The newlines lead to the line of the source**: those that have been counted and the one that
is fetched, which is counted twice if it has been printed. -/
def Agrees (a : Account) (f : Frame) : Prop :=
  (a.opened.1 + a.counted + if f.cachedInput = [] then 1 else 2).toUInt32 = f.fetch.currentLine

instance (a : Account) (f : Frame) : Decidable (a.Agrees f) := inferInstanceAs (Decidable (_ = _))

/-- The account behind a turn. At a newline the reader is told the position of the source by a
marker, or goes on from what the open line is or says. -/
def turn (env : PpEnv Λ) (s : PpState Λ) (a : Account) : Account :=
  if s.putsNewline then
    { told :=
        if a.Agrees s.frame then nextPosition a.told (numbering s.frame.cachedOutput).2
        else s.frame.fetch.position
      opened := s.frame.fetch.position
      counted := 0 }
  else { a with counted := a.counted + s.linesCounted env }

end Account

/-- The account of a run, from the one it begins with. -/
def accountAt (env : PpEnv Λ) : PpState Λ → Account → ℕ → Account
  | _, a, 0 => a
  | s, a, n + 1 =>
    match step env s with
    | .running t => accountAt env t (a.turn env s) n
    | _ => a.turn env s

theorem accountAt_succ {env : PpEnv Λ} {s t : PpState Λ} {n : ℕ} (h : run env s n = .running t)
    (a : Account) : accountAt env s a (n + 1) = (accountAt env s a n).turn env t := by
  induction n generalizing s a with
  | zero =>
    cases h
    rw [accountAt, accountAt]
    cases step env t <;> rfl
  | succ n ih =>
    rw [run] at h
    rw [accountAt]
    conv_rhs => rw [accountAt]
    cases hstep : step env s with
    | running u =>
      rw [hstep] at h
      exact ih h _
    | finished output | stopped why =>
      rw [hstep] at h
      cases h

namespace PpState

/-- **A turn that a reader can follow**: where a marker is put out it can be read again, no newline
is removed with a name, and no file is included. -/
structure Readable (s : PpState Λ) (a : Account) : Prop where
  marker : s.putsNewline = true → ¬ a.Agrees s.frame → s.frame.fetch.Printable
  removed : ∀ h t, s.entered = some (h, t) →
    '\n' ∉ s.frame.cachedOutput.drop t.frame.cachedOutput.length
  included : ∀ h t, s.entered = some (h, t) → ∀ l, h ≠ .includeHandle l

/-- **Text of the source is put out**, from the position given: a character that is not white
space, or the branch of a conditional. -/
inductive PutsOut (env : PpEnv Λ) (s : PpState Λ) : Position → Prop
  | char {c : Char} {text : List Char} (hnext : s.frame.next = none)
      (hcached : s.frame.cachedInput = []) (hinput : s.frame.input = c :: text)
      (hc : isSpace c = false) : PutsOut env s s.frame.position
  | branch {l : Language} {t u : PpState Λ} {evaluate : List Match → Except PpError Word}
      {value : Word} {output : Bstring} {rest : List Char} {c : Char}
      (hentered : s.entered = some (.ifHandle l, t))
      (hparam : t.paramGet env = ([.expression evaluate], u)) (hcached : u.frame.cachedInput = [])
      (hvalue : evaluate u.handlers = .ok value)
      (hbranch : selectBranch l (value ≠ 0) u.frame.pending = .ok (.done output rest))
      (hmem : c ∈ cString output) (hc : isSpace c = false) : PutsOut env s u.frame.position

end PpState

/-- What has been put out. -/
def Outcome.output : Outcome Λ → Option (List Char)
  | .running s => some s.frame.cachedOutput
  | .finished output => some output
  | .stopped _ => none

/-- **The output numbers the source**: a line onto which text of the source was put is given the
position of the text by the lines before it. -/
def NumbersSource (env : PpEnv Λ) (s₀ : PpState Λ) : Prop :=
  ∀ n s p, run env s₀ n = .running s → s.PutsOut env p →
    ∀ m output, (run env s₀ (n + m)).output = some output →
      Lines.completeLines (· = '\n') s.frame.cachedOutput <+: output ∧
        (numbering (Lines.completeLines (· = '\n') s.frame.cachedOutput)).1 = p

/-! ### Newlines -/

namespace Frame

/-- A newline is put out, behind a marker if the newlines do not lead to the line of the source. -/
theorem fetch_newline {f : Frame} {a : Account} {text : List Char} (h : f.pending = '\n' :: text)
    (hcounter : f.actualLine = (a.opened.1 + a.counted).toUInt32) :
    f.fetch.cachedOutput = f.cachedOutput ++
      (if a.Agrees f then [] else lineCorrection f.fetch.currentLine f.fetch.currentFilename) ++
        ['\n'] := by
  have hreads := f.getInput_reads
  have hagrees : a.Agrees f ↔ f.getInput.actualLine + 1 = f.getInput.currentLine := by
    have hline : f.fetch.currentLine = f.getInput.currentLine := by
      rw [fetch, h]
      dsimp only
      rw [if_pos rfl, (trackStrings_lines _).2]
      split <;> rfl
    rw [Account.Agrees, hline, getInput_actualLine h, hcounter, ← toUInt32_add]
  rw [fetch, h]
  dsimp only
  rw [if_pos rfl, (trackStrings_keeps _).1, (trackStrings_keeps _).2, (trackStrings_lines _).2]
  by_cases hagree : f.getInput.actualLine + 1 = f.getInput.currentLine
  · rw [if_neg fun h => h.2 hagree, if_pos (hagrees.mpr hagree), List.append_nil,
      ← hreads.cachedOutput]
  · rw [if_pos ⟨rfl, hagree⟩, if_neg (mt hagrees.mp hagree), ← lineCorrection_filter,
      ← hreads.cachedOutput]
    rfl

/-- A character that is no newline is put out. -/
theorem fetch_other {f : Frame} {c : Char} {text : List Char} (h : f.pending = c :: text)
    (hc : c ≠ '\n') : f.fetch.cachedOutput = f.cachedOutput ++ [c] := by
  rw [fetch, h]
  dsimp only
  rw [if_neg hc, if_neg fun hand => hc hand.1, (trackStrings_keeps _).1,
    ← f.getInput_reads.cachedOutput]

/-- **At a newline the reader is told what is in the account.** -/
theorem numbering_fetch_newline {f : Frame} {a : Account} {text : List Char}
    (h : f.pending = '\n' :: text)
    (hcounter : f.actualLine = (a.opened.1 + a.counted).toUInt32)
    (hprintable : ¬ a.Agrees f → f.fetch.Printable) :
    (numbering f.fetch.cachedOutput).1 =
      if a.Agrees f then nextPosition (numbering f.cachedOutput).1 (numbering f.cachedOutput).2
      else f.fetch.position := by
  rw [fetch_newline h hcounter]
  split
  · rw [List.append_nil, numbering, Lines.read_concat, Lines.next, if_pos (by decide)]
    rfl
  · rename_i hagrees
    have hmark : lineCorrection f.fetch.currentLine f.fetch.currentFilename =
        '\n' :: f.fetch.lineMark := rfl
    rw [hmark, ← List.singleton_append, ← List.append_assoc, numbering,
      Lines.read_line _ _ (hprintable hagrees).lineMark (by decide), Lines.read_concat, Lines.next,
      if_pos (by decide)]
    change nextPosition _ ([] ++ f.fetch.lineMark) = _
    rw [List.nil_append, nextPosition, markerOf_lineMark (hprintable hagrees).line,
      Option.getD_some]

end Frame

theorem numbering_append (output : List Char) {more : List Char} (h : '\n' ∉ more) :
    (numbering (output ++ more)).1 = (numbering output).1 := by
  rw [numbering, Lines.read_append]
  · rfl
  · rintro c hc
    exact decide_eq_false fun heq => h (heq ▸ hc)

/-! ### Turns -/

/-- **The account is right**: a reader is told what is in it, and the counter of the output has
gone on by what has been counted. -/
structure PpState.Numbered (s : PpState Λ) (a : Account) : Prop where
  numbering : (numbering s.frame.cachedOutput).1 = a.told
  counter : s.frame.actualLine = (a.opened.1 + a.counted).toUInt32
  parents : s.parents = []
  active : s.Active

/-- Nothing that gives the source's lines other numbers is entered. -/
def PpState.KeepsLines (s : PpState Λ) : Prop :=
  ∀ h t, s.entered = some (h, t) → ∀ l, h ≠ .lineHandle l ∧ h ≠ .includeHandle l

section Turns

variable {env : PpEnv Λ} {s t : PpState Λ} {a : Account}

/-- Where a handler is entered, the end of the open line is removed. -/
theorem PpState.Readable.entered (h : s.Readable a) {handler : Handler}
    (hs : s.entered = some (handler, t)) : ∃ name, '\n' ∉ name ∧
      s.frame.cachedOutput = t.frame.cachedOutput ++ name := by
  refine ⟨_, h.removed handler t hs, (List.prefix_iff_eq_append.mp ?_).symm⟩
  obtain ⟨i, m, -, -, -, -, rfl⟩ := PpState.entered_match hs
  change (s.frame.matchTest m).2.outputBefore m.text <+: _
  rw [Frame.outputBefore, (s.frame.matchTest_reads m).cachedOutput]
  exact List.take_prefix _ _

/-- **A turn that puts out no newline** leaves the reader where it is, and the lines before the
open one as they are. -/
theorem PpState.Numbered.step_within (h : s.Numbered a) (hreadable : s.Readable a)
    (hasm : s.Handlers Match.IsAsm) (hputs : s.putsNewline = false)
    (ht : step env s = .running t) :
    (DcpuToolchain.numbering t.frame.cachedOutput).1 = a.told ∧ t.parents = [] ∧ t.Active ∧
      Lines.IsSettled (· = '\n') s.frame.cachedOutput t.frame.cachedOutput := by
  rcases he : s.entered with - | ⟨handler, u⟩
  · rcases step_of_not_entered he ht with ⟨i, m, -, -, -, rfl⟩ | ⟨i, -, -, rfl⟩ |
      ⟨-, -, parent, parents, hparents, -⟩ | ⟨hnext, hpending, rfl⟩
    · have houtput := (s.frame.matchTest_reads m).cachedOutput
      refine ⟨?_, h.parents, h.active, ?_⟩
      · change (DcpuToolchain.numbering (s.frame.matchTest m).2.cachedOutput).1 = a.told
        rw [houtput]
        exact h.numbering
      · change Lines.IsSettled _ _ (s.frame.matchTest m).2.cachedOutput
        rw [houtput]
        exact .refl _
    · exact ⟨h.numbering, h.parents, h.active, .refl _⟩
    · rw [h.parents] at hparents
      cases hparents
    · -- a character is fetched
      obtain ⟨c, text, hcons⟩ := List.exists_cons_of_ne_nil hpending
      have hc : c ≠ '\n' := by
        rintro rfl
        simp [putsNewline, hnext, hcons] at hputs
      have houtput := Frame.fetch_other hcons hc
      refine ⟨?_, h.parents, h.active, ?_⟩
      · change (DcpuToolchain.numbering s.frame.fetch.cachedOutput).1 = a.told
        rw [houtput, numbering_append _ (by simpa using Ne.symm hc)]
        exact h.numbering
      · change Lines.IsSettled _ _ s.frame.fetch.cachedOutput
        rw [houtput]
        exact .append _ _
  · -- a handler is entered, behind a name that has been removed
    obtain ⟨name, hname, houtput⟩ := hreadable.entered he
    obtain ⟨hkeeps, hparents, hactive, -⟩ :=
      step_handled h.parents h.active hasm he (hreadable.included _ u he) ht
    refine ⟨?_, hparents, hactive, ?_⟩
    · have hnumbering := h.numbering
      rw [houtput, numbering_append _ hname] at hnumbering
      rw [hkeeps]
      exact hnumbering
    · rw [hkeeps, houtput]
      exact .of_append _ fun c hc => decide_eq_false fun heq => hname (heq ▸ hc)

/-- **What a turn keeps**: the account is right, and the lines before the open one are settled. -/
theorem PpState.Numbered.step (h : s.Numbered a) (hreadable : s.Readable a)
    (hasm : s.Handlers Match.IsAsm) (ht : step env s = .running t) :
    t.Numbered (a.turn env s) ∧
      Lines.IsSettled (· = '\n') s.frame.cachedOutput t.frame.cachedOutput := by
  rw [Account.turn]
  by_cases hputs : s.putsNewline = true
  · -- a newline is fetched
    have hnewline := hputs
    simp only [putsNewline, decide_eq_true_eq] at hnewline
    obtain ⟨text, hcons⟩ : ∃ text, s.frame.pending = '\n' :: text :=
      ⟨_, List.eq_cons_of_mem_head? hnewline.2⟩
    have hstep : t = { s with frame := s.frame.fetch } := by
      rw [DcpuToolchain.step, hnewline.1, hcons] at ht
      exact (Outcome.running.inj ht).symm
    rw [if_pos hputs, hstep]
    refine ⟨⟨?_, ?_, h.parents, h.active⟩, ?_⟩
    · rw [← h.numbering]
      exact Frame.numbering_fetch_newline hcons h.counter (hreadable.marker hputs)
    · change s.frame.fetch.actualLine = (s.frame.fetch.currentLine.toNat + 0).toUInt32
      rw [Frame.fetch_actualLine hcons, Nat.add_zero, Nat.toUInt32_eq, UInt32.ofNat_toNat]
    · change Lines.IsSettled _ _ s.frame.fetch.cachedOutput
      rw [Frame.fetch_newline hcons h.counter, List.append_assoc]
      exact .append _ _
  · rw [Bool.not_eq_true] at hputs
    rw [hputs, if_neg Bool.false_ne_true]
    obtain ⟨hnumbering, hparents, hactive, hsettled⟩ := h.step_within hreadable hasm hputs ht
    have hcounts := step_counts h.parents h.active hasm hputs hreadable.removed
      hreadable.included ht
    refine ⟨⟨hnumbering, ?_, hparents, hactive⟩, hsettled⟩
    rw [hcounts, h.counter, ← toUInt32_add, Nat.add_assoc]

/-- **What a turn keeps of the source**, if it gives no line another number. -/
theorem step_readsOn (hparents : s.parents = []) (hactive : s.Active)
    (hasm : s.Handlers Match.IsAsm) (hlines : s.KeepsLines) (ht : step env s = .running t) :
    s.frame.ReadsOn t.frame ∧ t.parents = [] ∧ t.Active := by
  rcases he : s.entered with - | ⟨handler, u⟩
  · rcases step_of_not_entered he ht with ⟨i, m, -, -, -, rfl⟩ | ⟨i, -, -, rfl⟩ |
      ⟨-, -, parent, parents, hcons, -⟩ | ⟨-, -, rfl⟩
    · have hmatch := s.frame.matchTest_readsOn m
      exact ⟨⟨hmatch.filename, hmatch.lastLine, hmatch.input⟩, hparents, hactive⟩
    · exact ⟨⟨rfl, rfl, List.suffix_refl _⟩, hparents, hactive⟩
    · rw [hparents] at hcons
      cases hcons
    · exact ⟨s.frame.fetch_readsOn, hparents, hactive⟩
  · obtain ⟨-, hparents', hactive', hread, -⟩ :=
      step_handled hparents hactive hasm he (fun l => (hlines _ _ he l).2) ht
    exact ⟨hread fun l => (hlines _ _ he l).1, hparents', hactive'⟩

end Turns

/-! ### Runs -/

/-- A run begins on a line that is numbered. -/
theorem numbered_ppimplNew (env : PpEnv Λ) (lexer : Λ) (filename : Bstring) (line : UInt32)
    (lang : Language) (input : List Char)
    (hprintable : (ppimplNew env lexer filename line lang input).frame.Printable) :
    (ppimplNew env lexer filename line lang input).Numbered
      (.begin (ppimplNew env lexer filename line lang input)) := by
  set f := (ppimplNew env lexer filename line lang input).frame with hf
  have hline : '\n' ∉ f.lineMark := fun hmem => by
    have hend := hprintable.lineMark '\n' hmem
    simp at hend
  have hzero : ∀ c ∈ f.lineMark ++ ['\n'], decide (c ≠ '\x00') = true := by
    intro c hc
    rw [decide_eq_true_iff]
    rintro rfl
    have hnumber := notMem_formatInt f.currentLine (c := '\x00') (by decide) (by decide)
    simp [Frame.lineMark, hnumber, zero_notMem_cString] at hc
  have houtput : f.cachedOutput = [] ++ f.lineMark ++ ['\n'] := by
    change [] ++ (f.lineMark ++ ['\n']).filter (· ≠ '\x00') = _
    rw [List.filter_eq_self.mpr hzero, List.append_assoc]
  refine ⟨?_, ?_, rfl, fun scope hscope => absurd hscope List.not_mem_nil⟩
  · rw [houtput, numbering, Lines.read_line _ _ hprintable.lineMark (by decide)]
    change nextPosition (0, []) ([] ++ f.lineMark) = _
    rw [List.nil_append, nextPosition, markerOf_lineMark hprintable.line, Option.getD_some]
    rfl
  · -- the marker that is printed to the input counts the line that was taken off
    change f.currentLine - 1 +
      (((f.lineMark ++ ['\n']).filter (· ≠ '\x00')).count '\n').toUInt32 =
        (f.currentLine.toNat + 0).toUInt32
    rw [List.filter_eq_self.mpr hzero, List.count_append, List.count_eq_zero.mpr hline,
      Nat.add_zero, Nat.toUInt32_eq (n := f.currentLine.toNat), UInt32.ofNat_toNat]
    exact UInt32.sub_add_cancel _ _

section Runs

variable {env : PpEnv Λ} {s₀ : PpState Λ}

/-- **The position of the source** is where it has been read to: the file it was begun in, and as
many lines behind the first as newlines have been read, if no line is given another number. -/
theorem run_position (env : PpEnv Λ) (lexer : Λ) (filename : Bstring) (line : UInt32)
    (input : List Char)
    (hlines : ∀ n s, run env (ppimplNew env lexer filename line .asm input) n = .running s →
      s.KeepsLines)
    {n : ℕ} {s : PpState Λ}
    (hs : run env (ppimplNew env lexer filename line .asm input) n = .running s) :
    ∃ text, input = text ++ s.frame.input ∧ s.frame.currentFilename = filename ∧
      s.frame.currentLine = (if line = 0 then 1 else line) + (text.count '\n').toUInt32 := by
  have hasm := isAsm_ppimplNew env lexer filename line input
  have hread : (ppimplNew env lexer filename line .asm input).frame.ReadsOn s.frame ∧
      s.parents = [] ∧ s.Active := by
    induction n generalizing s with
    | zero =>
      cases hs
      exact ⟨.refl _, rfl, fun scope hscope => absurd hscope List.not_mem_nil⟩
    | succ n ih =>
      rw [run_succ] at hs
      split at hs
      · rename_i u hu
        obtain ⟨hread, hparents, hactive⟩ := ih hu
        have hstep := step_readsOn hparents hactive (scoped_isAsm.run hasm hu) (hlines n u hu) hs
        exact ⟨hread.trans hstep.1, hstep.2⟩
      · rename_i hne
        exact absurd hs (hne s)
  obtain ⟨⟨hfilename, hlast, text, htext⟩, -, -⟩ := hread
  refine ⟨text, htext.symm, hfilename, ?_⟩
  -- the last line of the source stays, and the newlines that are left are those of its rest
  change s.frame.currentLine + _ = (if line = 0 then 1 else line) + (input.count '\n').toUInt32
    at hlast
  change text ++ s.frame.input = input at htext
  rw [← htext, List.count_append, Nat.toUInt32_eq (n := _ + _), UInt32.ofNat_add,
    ← UInt32.add_assoc]
    at hlast
  exact (UInt32.add_left_inj _).mp hlast

/-- In every state of a run a reader can follow. -/
def RunReadable (env : PpEnv Λ) (s₀ : PpState Λ) : Prop :=
  ∀ n s, run env s₀ n = .running s → s.Readable (accountAt env s₀ (.begin s₀) n)

/-- **In every state of such a run** a reader is told what is in the account. -/
theorem run_numbered (hstart : s₀.Numbered (.begin s₀)) (hasm : s₀.Handlers Match.IsAsm)
    (hreadable : RunReadable env s₀) {n : ℕ} {s : PpState Λ} (hs : run env s₀ n = .running s) :
    s.Numbered (accountAt env s₀ (.begin s₀) n) := by
  induction n generalizing s with
  | zero =>
    cases hs
    exact hstart
  | succ n ih =>
    rw [run_succ] at hs
    split at hs
    · rename_i u hu
      rw [accountAt_succ hu]
      exact ((ih hu).step (hreadable n u hu) (scoped_isAsm.run hasm hu) hs).1
    · rename_i hne
      exact absurd hs (hne s)

/-- Lines that are complete stay as they are to the end. -/
theorem run_settled (hstart : s₀.Numbered (.begin s₀)) (hasm : s₀.Handlers Match.IsAsm)
    (hreadable : RunReadable env s₀) {n m : ℕ} {s : PpState Λ} (hs : run env s₀ n = .running s)
    {output : List Char} (ho : (run env s₀ (n + m)).output = some output) :
    Lines.IsSettled (· = '\n') s.frame.cachedOutput output := by
  induction m generalizing output with
  | zero =>
    rw [Nat.add_zero, hs] at ho
    cases ho
    exact .refl _
  | succ m ih =>
    rw [← Nat.add_assoc, run_succ] at ho
    split at ho
    · rename_i u hu
      have hu' : (run env s₀ (n + m)).output = some u.frame.cachedOutput := by rw [hu]; rfl
      have hsettled := ih hu'
      cases hstep : step env u with
      | running t =>
        rw [hstep] at ho
        cases ho
        exact hsettled.trans ((run_numbered hstart hasm hreadable hu).step (hreadable _ u hu)
          (scoped_isAsm.run hasm hu) hstep).2
      | finished output' =>
        rw [hstep] at ho
        cases ho
        exact (step_finished hstep).2.2.2 ▸ hsettled
      | stopped why =>
        rw [hstep] at ho
        cases ho
    · exact ih ho

end Runs

/-! ### Runs that a reader can follow -/

instance (f : Frame) : Decidable f.Printable :=
  decidable_of_iff (f.currentLine.toNat < 2 ^ 31 ∧ '\n' ∉ cString f.currentFilename)
    ⟨fun h => ⟨h.1, h.2⟩, fun h => ⟨h.line, h.file⟩⟩

/-- Whether a reader can follow a turn. -/
def PpState.readable (s : PpState Λ) (a : Account) : Bool :=
  decide (s.putsNewline = true → ¬ a.Agrees s.frame → s.frame.fetch.Printable) &&
    s.entered.all fun (h, t) =>
      decide ('\n' ∉ s.frame.cachedOutput.drop t.frame.cachedOutput.length) &&
        match h with
        | .includeHandle _ => false
        | _ => true

theorem PpState.readable_of_check {s : PpState Λ} {a : Account} (h : s.readable a = true) :
    s.Readable a := by
  rw [PpState.readable, Bool.and_eq_true, decide_eq_true_iff] at h
  obtain ⟨hmarker, hentered⟩ := h
  have hcheck : ∀ handler t, s.entered = some (handler, t) →
      '\n' ∉ s.frame.cachedOutput.drop t.frame.cachedOutput.length ∧
        ∀ l, handler ≠ .includeHandle l := by
    intro handler t ht
    rw [ht, Option.all_some, Bool.and_eq_true, decide_eq_true_iff] at hentered
    refine ⟨hentered.1, fun l hl => ?_⟩
    rw [hl] at hentered
    cases hentered.2
  exact ⟨hmarker, fun h t ht => (hcheck h t ht).1, fun h t ht => (hcheck h t ht).2⟩

/-- Whether a reader can follow a run to its end, in as many turns. -/
def readsBack (env : PpEnv Λ) : ℕ → PpState Λ → Account → Bool
  | 0, _, _ => false
  | n + 1, s, a =>
    s.readable a &&
      match step env s with
      | .running t => readsBack env n t (a.turn env s)
      | _ => true

theorem readable_of_readsBack {env : PpEnv Λ} (fuel : ℕ) {s t : PpState Λ} {a : Account} {n : ℕ}
    (h : readsBack env fuel s a = true) (ht : run env s n = .running t) :
    t.Readable (accountAt env s a n) := by
  induction fuel generalizing s a n with
  | zero => cases h
  | succ fuel ih =>
    rw [readsBack, Bool.and_eq_true] at h
    cases n with
    | zero =>
      cases ht
      exact PpState.readable_of_check h.1
    | succ n =>
      rw [run] at ht
      rw [accountAt]
      cases hstep : step env s with
      | running u =>
        rw [hstep] at h ht
        exact ih h.2 ht
      | finished output | stopped why =>
        rw [hstep] at ht
        cases ht

/-- A preprocessor whose first marker is not printed to the input. -/
def behindEnv : PpEnv Unit := { plainEnv with printIndex := 1 }

/-- A definition, and a line on which it is used. -/
def definedLine : List Char := ".EQU A 5\nb A".toList

/-- Whether a character of the source is put out next, on a line that is numbered otherwise. -/
def Outcome.misnumbers : Outcome Λ → Bool
  | .running s =>
    s.frame.next = none ∧ s.frame.cachedInput = [] ∧ (s.frame.input.head?.any (!isSpace ·)) ∧
      (numbering (Lines.completeLines (· = '\n') s.frame.cachedOutput)).1 ≠ s.frame.position
  | _ => false

theorem not_numbersSource_of_misnumbers {env : PpEnv Λ} {s₀ : PpState Λ} {n : ℕ}
    (h : (run env s₀ n).misnumbers = true) : ¬ NumbersSource env s₀ := by
  intro hnumbers
  rcases hs : run env s₀ n with s | output | why <;> rw [hs] at h
  · simp only [Outcome.misnumbers, decide_eq_true_eq] at h
    obtain ⟨hnext, hcached, hhead, hne⟩ := h
    obtain ⟨c, text, hinput⟩ : ∃ c text, s.frame.input = c :: text := by
      cases hinput : s.frame.input with
      | nil =>
        rw [hinput] at hhead
        cases hhead
      | cons c text => exact ⟨c, text, rfl⟩
    rw [hinput, List.head?_cons, Option.any_some, Bool.not_eq_true'] at hhead
    exact hne (hnumbers n s _ hs (.char hnext hcached hinput hhead) 0 s.frame.cachedOutput
      (by rw [Nat.add_zero, hs]; rfl)).2
  · cases h
  · cases h

end DcpuToolchain
