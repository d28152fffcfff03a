import DcpuToolchain.Pp.Registered

/-!
# The line counters

The preprocessor counts the lines of the source that it has read (`line_current`) and those of the
output (`line_actual`). The latter is counted on for every newline that a handler prints to the
input, for every newline of printed text that is read, and for one that is only looked at behind a
name: `DcpuToolchain.PpState.linesCounted` says for how many in a turn, and
`DcpuToolchain.step_counts` that the counter has gone on by as many. Where a newline is put out,
the counter is set to the line of the source (`DcpuToolchain.Frame.fetch_actualLine`).

All of this rests on what a handler does to the input: it reads on, and then prints in front of
what is left (`DcpuToolchain.handle_stays`).
-/

namespace DcpuToolchain

variable {Λ : Type}

/-! ### What is counted -/

namespace Frame

variable (f : Frame)

/-- The newlines of printed text that have not been read. -/
def cachedLines : ℕ := f.cachedInput.count '\n'

/-- The newlines that have been printed to the input by a handler, up to the printing cursor. -/
def printedLines : ℕ := (f.cachedInput.take f.printIndex).count '\n'

/-- A match is tried for which a newline of printed text is looked at. -/
def peeksNewline (m : Match) : Bool :=
  matchesText m f.cachedOutput && !m.lineStartOnly && m.identifierOnly &&
    f.cachedInput.head? = some '\n'

/-- The number of the line on which the source ends, if no line is given another number. -/
def lastLine : UInt32 := f.currentLine + (f.input.count '\n').toUInt32

end Frame

namespace PpState

/-- The next turn puts out a newline. -/
def putsNewline (s : PpState Λ) : Bool :=
  s.frame.next = none ∧ s.frame.pending.head? = some '\n'

/-- **How many newlines a turn counts**: one of printed text that it looks at behind a name, those
that its handler prints, and those of printed text that its handler reads, which are missing from
what is cached behind it. -/
def linesCounted (env : PpEnv Λ) (s : PpState Λ) : ℕ :=
  (if (s.frame.next.bind (s.handlers[·]?)).any s.frame.peeksNewline then 1 else 0) +
    match s.entered, step env s with
    | some (_, u), .running t =>
      t.frame.printedLines +
        (u.frame.cachedLines + t.frame.printedLines - t.frame.cachedLines)
    | _, _ => 0

end PpState

/-! ### Reading -/

theorem toUInt32_add (m n : ℕ) : (m + n).toUInt32 = m.toUInt32 + n.toUInt32 := by
  rw [Nat.toUInt32_eq, Nat.toUInt32_eq, Nat.toUInt32_eq, UInt32.ofNat_add]

namespace Frame

variable (f : Frame)

/-- **The source is read on**: its file and its lines are as they were, and what is left of it is
the end of what was left. -/
structure ReadsOn (f g : Frame) : Prop where
  filename : g.currentFilename = f.currentFilename
  lastLine : g.lastLine = f.lastLine
  input : g.input <:+ f.input

theorem ReadsOn.refl : f.ReadsOn f := ⟨rfl, rfl, List.suffix_refl _⟩

theorem ReadsOn.trans {f g k : Frame} (h : f.ReadsOn g) (h' : g.ReadsOn k) : f.ReadsOn k :=
  ⟨h'.filename.trans h.filename, h'.lastLine.trans h.lastLine, h'.input.trans h.input⟩

theorem getInput_readsOn : f.ReadsOn f.getInput := by
  rw [getInput]
  split
  · exact ⟨rfl, rfl, List.suffix_refl _⟩
  · split
    · rename_i c text hinput
      refine ⟨rfl, ?_, hinput ▸ List.suffix_cons c text⟩
      rw [lastLine, lastLine, hinput]
      dsimp only
      by_cases hc : c = '\n'
      · -- the newline is counted by the line instead
        rw [if_pos hc, hc, List.count_cons_self, Nat.toUInt32_eq, Nat.toUInt32_eq,
          UInt32.ofNat_add, UInt32.add_assoc, UInt32.add_comm 1]
        rfl
      · rw [if_neg hc, List.count_cons_of_ne hc]
    · exact .refl f

theorem advance_readsOn (n : ℕ) : f.ReadsOn (f.advance n) := by
  induction n generalizing f with
  | zero => exact .refl f
  | succ n ih => exact f.getInput_readsOn.trans (ih f.getInput)

theorem matchTest_readsOn (m : Match) : f.ReadsOn (f.matchTest m).2 := by
  rw [matchTest]
  split
  · exact .refl f
  · split
    · exact .refl f
    · split
      · rw [peek]
        split
        · exact .refl f
        · have h := f.getInput_readsOn
          exact ⟨h.filename, h.lastLine, h.input⟩
      · exact .refl f

theorem trackStrings_readsOn : f.ReadsOn f.trackStrings := by
  rw [trackStrings]
  split
  · exact ⟨rfl, rfl, List.suffix_refl _⟩
  · split <;> exact ⟨rfl, rfl, List.suffix_refl _⟩

theorem fetch_readsOn : f.ReadsOn f.fetch := by
  have hread := f.getInput_readsOn
  have hlast : ∀ (g : Frame) (next : Option ℕ), f.ReadsOn g →
      f.ReadsOn { g.trackStrings with next := next } := by
    intro g next hg
    have htrack := hg.trans g.trackStrings_readsOn
    exact ⟨htrack.filename, htrack.lastLine, htrack.input⟩
  rw [fetch]
  split
  · exact .refl f
  · refine hlast _ _ ?_
    dsimp only
    split <;> split <;> exact ⟨hread.filename, hread.lastLine, hread.input⟩

/-- **Printed text is read**: its newlines are counted as they are read. -/
structure Rereads (f g : Frame) : Prop where
  cached : g.cachedLines ≤ f.cachedLines
  actualLine : g.actualLine = f.actualLine + (f.cachedLines - g.cachedLines).toUInt32

theorem Rereads.refl : f.Rereads f := ⟨le_rfl, by simp⟩

variable {f} in
theorem Rereads.trans {g k : Frame} (h : f.Rereads g) (h' : g.Rereads k) : f.Rereads k := by
  refine ⟨h'.cached.trans h.cached, ?_⟩
  rw [h'.actualLine, h.actualLine, UInt32.add_assoc, ← toUInt32_add,
    Nat.sub_add_sub_cancel h.cached h'.cached]

theorem getInput_rereads : f.Rereads f.getInput := by
  rw [getInput]
  split
  · rename_i c text hcached
    have hlines : f.cachedLines = text.count '\n' + if c = '\n' then 1 else 0 := by
      rw [cachedLines, hcached, List.count_cons]
      simp only [beq_iff_eq]
    refine ⟨?_, ?_⟩
    · rw [hlines]
      exact Nat.le_add_right _ _
    · change (if c = '\n' then f.actualLine + 1 else f.actualLine) =
        f.actualLine + (f.cachedLines - text.count '\n').toUInt32
      rw [hlines, Nat.add_sub_cancel_left]
      split
      · rfl
      · exact (UInt32.add_zero _).symm
  · split <;> exact ⟨le_rfl, by simp [cachedLines]⟩

theorem advance_rereads (n : ℕ) : f.Rereads (f.advance n) := by
  induction n generalizing f with
  | zero => exact .refl f
  | succ n ih => exact f.getInput_rereads.trans (ih f.getInput)

/-- **What a handler counts**: the newlines that it has printed, and those of printed text that it
has read. -/
structure Counts (f g : Frame) : Prop where
  cached : g.cachedLines ≤ f.cachedLines + g.printedLines
  actualLine : g.actualLine = f.actualLine +
    (g.printedLines + (f.cachedLines + g.printedLines - g.cachedLines)).toUInt32

theorem printedLines_of_printIndex {f : Frame} (h : f.printIndex = 0) : f.printedLines = 0 := by
  rw [printedLines, h]
  rfl

variable {f} in
/-- Nothing has been printed as long as the cursor has not moved. -/
theorem Rereads.counts {g : Frame} (h : f.Rereads g) (hg : g.printIndex = 0) : f.Counts g := by
  have hprinted := printedLines_of_printIndex hg
  refine ⟨h.cached.trans (Nat.le_add_right _ _), ?_⟩
  rw [h.actualLine, hprinted, Nat.add_zero, Nat.zero_add]

variable {f} in
/-- A text is printed in front of what is left. -/
theorem Rereads.printf {g : Frame} (h : f.Rereads g) (hg : g.printIndex = 0) (text : List Char) :
    f.Counts (g.printf text) := by
  set printed := text.filter (· ≠ '\x00') with hfilter
  have hcached : (g.printf text).cachedInput = printed ++ g.cachedInput := by
    change (if g.printIndex ≤ g.cachedInput.length then _ else _) = _
    rw [hg, if_pos (Nat.zero_le _)]
    rfl
  have hindex : (g.printf text).printIndex = printed.length := by
    change g.printIndex + printed.length = _
    rw [hg, Nat.zero_add]
  have hprinted : (g.printf text).printedLines = printed.count '\n' := by
    rw [printedLines, hcached, hindex, List.take_left]
  have hlines : (g.printf text).cachedLines = printed.count '\n' + g.cachedLines := by
    rw [cachedLines, hcached, List.count_append, cachedLines]
  have hactual : (g.printf text).actualLine = g.actualLine + (printed.count '\n').toUInt32 := rfl
  have hle := h.cached
  refine ⟨?_, ?_⟩
  · rw [hprinted, hlines]
    omega
  · have hsum : printed.count '\n' + (f.cachedLines + printed.count '\n' -
        (printed.count '\n' + g.cachedLines)) = f.cachedLines - g.cachedLines +
          printed.count '\n' := by
      omega
    rw [hactual, hprinted, hlines, h.actualLine, hsum, toUInt32_add, UInt32.add_assoc]

end Frame

/-! ### What a handler leaves alone -/

/-- A state in which no scope is silenced. -/
def PpState.Active (s : PpState Λ) : Prop := ∀ scope ∈ s.scopes, scope.active = true

/-- **Reading on and printing to the input**: the output stays as it is, no scope is silenced, and
the newlines are counted. -/
structure PpState.Stays (s t : PpState Λ) : Prop where
  output : t.frame.cachedOutput = s.frame.cachedOutput
  source : s.frame.ReadsOn t.frame
  parents : t.parents = s.parents
  active : t.Active
  counts : s.frame.Counts t.frame

/-- Reading on, where nothing has been printed. -/
structure PpState.Scans (s t : PpState Λ) : Prop where
  output : t.frame.cachedOutput = s.frame.cachedOutput
  source : s.frame.ReadsOn t.frame
  parents : t.parents = s.parents
  active : t.Active
  rereads : s.frame.Rereads t.frame
  printIndex : t.frame.printIndex = 0

theorem PpState.Active.register {s : PpState Λ} (h : s.Active) (m : Match) :
    (s.register m).Active ∧ (s.register m).frame = s.frame ∧
      (s.register m).parents = s.parents := by
  rw [PpState.register]
  split
  · exact ⟨h, rfl, rfl⟩
  · rename_i scope scopes hscopes
    rw [PpState.Active, hscopes, List.forall_mem_cons] at h
    exact ⟨List.forall_mem_cons.mpr h, rfl, rfl⟩

namespace PpState.Stays

variable {s t : PpState Λ} {p : PpState Λ × Bool}

theorem register (h : s.Stays t) (m : Match) : s.Stays (t.register m) := by
  obtain ⟨hactive, hframe, hparents⟩ := h.active.register m
  exact ⟨hframe ▸ h.output, hframe ▸ h.source, hparents.trans h.parents, hactive,
    hframe ▸ h.counts⟩

theorem registerDefinition (h : s.Stays t) {name full replacement : Bstring} {handler : Handler}
    (hp : t.registerDefinition name full replacement handler = .ok p) : s.Stays p.1 := by
  rw [PpState.registerDefinition] at hp
  split at hp <;> cases hp
  · exact h
  · exact h.register _

end PpState.Stays

namespace PpState.Scans

variable {s t u : PpState Λ} {p : PpState Λ × Bool} {env : PpEnv Λ}

theorem refl (hs : s.Active) (hindex : s.frame.printIndex = 0) : s.Scans s :=
  ⟨rfl, .refl _, rfl, hs, .refl _, hindex⟩

theorem stays (h : s.Scans t) : s.Stays t :=
  ⟨h.output, h.source, h.parents, h.active, h.rereads.counts h.printIndex⟩

theorem print (h : s.Scans t) (text : List Char) : s.Stays (t.print text) :=
  ⟨h.output, ⟨h.source.filename, h.source.lastLine, h.source.input⟩, h.parents, h.active,
    h.rereads.printf h.printIndex text⟩

theorem readTo (h : s.Scans t) (rest : List Char) : s.Scans (t.readTo rest) := by
  have hreads := t.frame.advanceTo_reads rest
  exact ⟨hreads.cachedOutput.trans h.output, h.source.trans (t.frame.advance_readsOn _), h.parents,
    h.active, h.rereads.trans (t.frame.advance_rereads _), hreads.printIndex.trans h.printIndex⟩

theorem register (h : s.Scans t) (m : Match) : s.Scans (t.register m) := by
  obtain ⟨hactive, hframe, hparents⟩ := h.active.register m
  exact ⟨hframe ▸ h.output, hframe ▸ h.source, hparents.trans h.parents, hactive,
    hframe ▸ h.rereads, hframe ▸ h.printIndex⟩

theorem pushScope (h : s.Scans t) : s.Scans (t.pushScope true) :=
  ⟨h.output, h.source, h.parents, List.forall_mem_cons.mpr ⟨rfl, h.active⟩, h.rereads,
    h.printIndex⟩

theorem popScope (h : s.Scans t) : s.Scans t.popScope := by
  rw [PpState.popScope]
  split
  · exact h
  · rename_i scope scopes hscopes
    have hactive := h.active
    rw [PpState.Active, hscopes, List.forall_mem_cons] at hactive
    rw [if_pos hactive.1]
    exact ⟨h.output, h.source, h.parents, hactive.2, h.rereads, h.printIndex⟩

theorem popScopes (h : s.Scans t) (n : ℕ) : s.Scans (t.popScopes n) := by
  induction n generalizing t with
  | zero => exact h
  | succ n ih => exact ih h.popScope

theorem registerParameters (h : s.Scans t) (parameters : List (Bstring × Bstring)) :
    s.Scans (t.registerParameters parameters) := by
  induction parameters generalizing t with
  | nil => exact h
  | cons q parameters ih =>
    obtain ⟨parameter, argument⟩ := q
    rw [PpState.registerParameters]
    split
    · exact ih h
    · exact ih (h.register _)

theorem defineHandle (h : s.Scans t) (hp : t.defineHandle = .ok p) : s.Stays p.1 := by
  rw [PpState.defineHandle] at hp
  obtain ⟨⟨word, gettingDefinition⟩, rest, -, hp⟩ := PpState.scan_ok hp
  dsimp only at hp
  split at hp
  · obtain ⟨definition, rest', -, hp⟩ := PpState.scan_ok hp
    exact (((h.readTo rest).readTo rest').print _).registerDefinition hp
  · exact ((h.readTo rest).print _).registerDefinition hp

theorem macroDefHandle (h : s.Scans t) (hp : t.macroDefHandle = .ok p) : s.Stays p.1 := by
  rw [PpState.macroDefHandle] at hp
  obtain ⟨n, rest, -, hp⟩ := PpState.scan_ok hp
  split at hp
  · cases hp
  · obtain ⟨definition, rest', -, hp⟩ := PpState.scan_ok hp
    exact ((h.readTo rest).readTo rest').stays.registerDefinition hp

theorem macroHandle (h : s.Scans t) {full replacement : Bstring}
    (hp : t.macroHandle full replacement = .ok p) : s.Stays p.1 := by
  rw [PpState.macroHandle] at hp
  obtain ⟨pops, text, -, hp⟩ := PpState.scan_ok hp
  dsimp only at hp
  split at hp
  · cases hp
  · rename_i arguments rest _
    split at hp
    · cases hp
    · split at hp
      · cases hp
      · cases hp
        exact (((((h.readTo text).popScopes pops).readTo rest).pushScope).registerParameters
          _).print _

theorem printBranch (h : s.Scans t) {l : Language} {value : Bool}
    (hp : t.printBranch l value = .ok p) : s.Stays p.1 := by
  rw [PpState.printBranch] at hp
  split at hp
  · cases hp
  · obtain ⟨output, rest, -, hp⟩ := PpState.scan_ok hp
    cases hp
    exact (h.readTo rest).print _

theorem paramGet (h : s.Scans t) {parameters : List Parameter}
    (ht : t.paramGet env = (parameters, u)) : s.Scans u := by
  rw [PpState.paramGet] at ht
  cases ht
  have hread := h.readTo (env.paramGet t.lexer t.frame.pending).2.1
  exact ⟨hread.output, hread.source, hread.parents, hread.active, hread.rereads, hread.printIndex⟩

theorem ulineHandle (h : s.Scans t) (hp : t.ulineHandle env = .ok p) : s.Stays p.1 := by
  unfold PpState.ulineHandle at hp
  split at hp
  · rename_i ht
    cases hp
    exact (h.paramGet ht).print _
  · rename_i ht
    cases hp
    exact (h.paramGet ht).print _
  · cases hp

theorem ifHandle (h : s.Scans t) {l : Language} (hp : t.ifHandle env l = .ok p) : s.Stays p.1 := by
  unfold PpState.ifHandle at hp
  split at hp
  · rename_i ht
    split at hp
    · cases hp
    · exact (h.paramGet ht).printBranch hp
  · cases hp

theorem ifdefGeneralHandle (h : s.Scans t) {exist : Bool}
    (hp : t.ifdefGeneralHandle env exist = .ok p) : s.Stays p.1 := by
  rw [PpState.ifdefGeneralHandle] at hp
  split at hp
  · rename_i ht
    exact (h.paramGet ht).printBranch hp
  · cases hp

end PpState.Scans

/-- A state with another line and file. -/
def PpState.relocate (s : PpState Λ) (line : UInt32) (filename : Bstring) : PpState Λ :=
  { s with frame := { s.frame with currentLine := line, currentFilename := filename } }

theorem PpState.Scans.lineHandle {env : PpEnv Λ} {s t : PpState Λ} {p : PpState Λ × Bool}
    {l : Language} (h : s.Scans t) (hp : t.lineHandle env l = .ok p) :
    ∃ u line filename, s.Stays u ∧ p.1 = u.relocate line filename := by
  cases l with
  | asm | c =>
    unfold PpState.lineHandle at hp
    dsimp only at hp
    split at hp
    · rename_i ht
      cases hp
      exact ⟨_, _, _, (h.paramGet ht).print _, rfl⟩
    · rename_i ht
      cases hp
      exact ⟨_, _, _, (h.paramGet ht).print _, rfl⟩
    · cases hp

/-- **What a handler of the assembler's directives does to the lines**: only `.LINE` gives a line
another number or file. -/
theorem handle_stays {env : PpEnv Λ} {s : PpState Λ} {p : PpState Λ × Bool} {h : Handler}
    (hs : s.Active) (hindex : s.frame.printIndex = 0) (hc : h ≠ .defineHandle .c)
    (hinclude : ∀ l, h ≠ .includeHandle l) (hp : s.handle env h = .ok p) :
    s.Stays p.1 ∨ (∃ l, h = .lineHandle l) ∧
      ∃ t line filename, s.Stays t ∧ p.1 = t.relocate line filename := by
  have hrefl := PpState.Scans.refl hs hindex
  cases h with
  | replaceHandle replacement =>
    cases hp
    exact .inl (hrefl.print _)
  | macroHandle full replacement => exact .inl (hrefl.macroHandle hp)
  | macroTermHandle =>
    cases hp
    exact .inl hrefl.popScope.stays
  | defineHandle l =>
    cases l with
    | asm => exact .inl (hrefl.defineHandle hp)
    | c => exact absurd rfl hc
  | macroDefHandle => exact .inl (hrefl.macroDefHandle hp)
  | ifHandle l => exact .inl (hrefl.ifHandle hp)
  | ifdefGeneralHandle exist => exact .inl (hrefl.ifdefGeneralHandle hp)
  | elseHandle l | endifHandle l => cases l <;> cases hp
  | includeHandle l => exact absurd rfl (hinclude l)
  | lineHandle l => exact .inr ⟨⟨l, rfl⟩, hrefl.lineHandle hp⟩
  | ulineHandle => exact .inl (hrefl.ulineHandle hp)

/-! ### Turns -/

/-- None of the handlers is that of `#define`, which puts out newlines itself. -/
def Match.IsAsm (m : Match) : Prop := m.handler ≠ .defineHandle .c

theorem scoped_isAsm : Scoped (Λ := Λ) (PpState.Handlers Match.IsAsm) :=
  scoped_handlers fun m hm => by cases hm <;> exact nofun

theorem isAsm_ppimplNew (env : PpEnv Λ) (lexer : Λ) (filename : Bstring) (line : UInt32)
    (input : List Char) :
    (ppimplNew env lexer filename line .asm input).Handlers Match.IsAsm := by
  refine ⟨?_, fun scope hscope => absurd hscope List.not_mem_nil⟩
  change ∀ m ∈ initialHandlers env.caseInsensitive .asm, m.handler ≠ .defineHandle .c
  simp [initialHandlers, directiveMatch, macroTermMatch]

namespace Frame

variable (f : Frame)

theorem trackStrings_lines :
    f.trackStrings.actualLine = f.actualLine ∧ f.trackStrings.currentLine = f.currentLine := by
  rw [trackStrings]
  split
  · exact ⟨rfl, rfl⟩
  · split <;> exact ⟨rfl, rfl⟩

variable {f} in
/-- Where a newline is put out, the counter of the output is that of the source. -/
theorem fetch_actualLine {text : List Char} (h : f.pending = '\n' :: text) :
    f.fetch.actualLine = f.fetch.currentLine := by
  rw [fetch, h]
  dsimp only
  rw [if_pos rfl, (trackStrings_lines _).1, (trackStrings_lines _).2]
  split
  · rfl
  · rename_i hagree
    exact not_not.mp fun hne => hagree ⟨rfl, hne⟩

variable {f} in
/-- Before a newline is put out, the counter goes on by that newline, and by one more if it has
been printed. -/
theorem getInput_actualLine {text : List Char} (h : f.pending = '\n' :: text) :
    f.getInput.actualLine + 1 =
      f.actualLine + (if f.cachedInput = [] then 1 else 2 : ℕ).toUInt32 := by
  rcases hcached : f.cachedInput with - | ⟨c, cached⟩
  · rw [pending, hcached, List.nil_append] at h
    rw [getInput, hcached, h]
    rfl
  · rw [pending, hcached] at h
    obtain ⟨rfl, -⟩ := List.cons.inj h
    rw [getInput, hcached, if_neg (List.cons_ne_nil _ _)]
    change f.actualLine + 1 + 1 = f.actualLine + 2
    rw [UInt32.add_assoc]
    rfl

variable {f} in
/-- Any other character is not counted. -/
theorem fetch_actualLine_of_ne {c : Char} {text : List Char} (h : f.pending = c :: text)
    (hc : c ≠ '\n') : f.fetch.actualLine = f.actualLine := by
  have hinput : f.getInput.actualLine = f.actualLine := by
    rw [getInput]
    split
    · rename_i d cached hcached
      rw [pending, hcached] at h
      obtain ⟨rfl, -⟩ := List.cons.inj h
      exact if_neg hc
    · split <;> rfl
  rw [fetch, h]
  dsimp only
  rw [if_neg hc, if_neg fun hand => hc hand.1, (trackStrings_lines _).1]
  exact hinput

/-- A newline of printed text is counted where it is looked at. -/
theorem matchTest_actualLine (m : Match) :
    (f.matchTest m).2.actualLine =
      f.actualLine + (if f.peeksNewline m then 1 else 0 : ℕ).toUInt32 := by
  have hzero : f.actualLine = f.actualLine + (0 : ℕ).toUInt32 := (UInt32.add_zero _).symm
  rw [matchTest, peeksNewline]
  split
  · rename_i htext
    rw [htext]
    exact hzero
  · split
    · rename_i hstart
      rw [hstart, Bool.not_true, Bool.and_false, Bool.false_and, Bool.false_and]
      exact hzero
    · rename_i htext hstart
      rw [Bool.not_eq_false] at htext
      rw [Bool.not_eq_true] at hstart
      split
      · rename_i hidentifier
        rw [htext, hstart, hidentifier]
        rcases hcached : f.cachedInput with - | ⟨c, cached⟩
        · rw [peek]
          split
          · exact hzero
          · simp only [getInput, hcached]
            split <;> exact hzero
        · have hpending : f.pending = c :: (cached ++ f.input) := by
            rw [pending, hcached]
            rfl
          rw [peek, hpending]
          dsimp only
          rw [getInput, hcached]
          by_cases hc : c = '\n'
          · rw [hc]
            rfl
          · simp [hc]
      · rename_i hidentifier
        rw [Bool.not_eq_true] at hidentifier
        rw [hidentifier, Bool.and_false, Bool.false_and]
        exact hzero

end Frame

section Turns

variable {env : PpEnv Λ} {s t u : PpState Λ} {handler : Handler}

/-- **A turn in which a handler is entered** puts nothing out, reads the source on unless the
handler gives a line another number, and counts. -/
theorem step_handled (hparents : s.parents = []) (hactive : s.Active)
    (hasm : s.Handlers Match.IsAsm) (he : s.entered = some (handler, u))
    (hinclude : ∀ l, handler ≠ .includeHandle l) (ht : step env s = .running t) :
    t.frame.cachedOutput = u.frame.cachedOutput ∧ t.parents = [] ∧ t.Active ∧
      ((∀ l, handler ≠ .lineHandle l) → s.frame.ReadsOn t.frame) ∧
      u.frame.Counts t.frame := by
  obtain ⟨i, m, -, hm, -, rfl, hu⟩ := PpState.entered_match he
  have hmatch : s.frame.ReadsOn u.frame := by
    have hread := s.frame.matchTest_readsOn m
    rw [hu]
    exact ⟨hread.filename, hread.lastLine, hread.input⟩
  have hactive' : u.Active := by
    rw [hu]
    exact hactive
  have hparents' : u.parents = [] := by
    rw [hu]
    exact hparents
  have hindex : u.frame.printIndex = 0 := by
    rw [hu]
    rfl
  rw [step_of_entered env he] at ht
  split at ht
  · cases ht
  · rename_i v reprocess hp
    -- `.LINE` alone moves the source, and it leaves the output and the scopes as they are
    have hkeeps : v.frame.cachedOutput = u.frame.cachedOutput ∧ v.parents = [] ∧ v.Active ∧
        ((∀ l, m.handler ≠ .lineHandle l) → s.frame.ReadsOn v.frame) ∧
        u.frame.Counts v.frame := by
      rcases handle_stays hactive' hindex (hasm.handlers m (List.mem_of_getElem? hm)) hinclude
        hp with hstays | ⟨⟨l, hline⟩, w, line, filename, hstays, rfl⟩
      · exact ⟨hstays.output, hstays.parents.trans hparents', hstays.active,
          fun _ => hmatch.trans hstays.source, hstays.counts⟩
      · have hcounts := hstays.counts
        exact ⟨hstays.output, hstays.parents.trans hparents', hstays.active,
          fun hnot => absurd hline (hnot l), hcounts.cached, hcounts.actualLine⟩
    rw [← Outcome.running.inj ht]
    cases reprocess
    · exact hkeeps
    · obtain ⟨houtput, hparents'', hactive'', hreads, hcounts⟩ := hkeeps
      refine ⟨houtput, hparents'', hactive'', fun hnot => ?_, hcounts.cached, hcounts.actualLine⟩
      have hread := hreads hnot
      exact ⟨hread.filename, hread.lastLine, hread.input⟩

/-- **A turn that puts out no newline goes on by as many as it counts**, if it removes none with a
name. -/
theorem step_counts (hparents : s.parents = []) (hactive : s.Active)
    (hasm : s.Handlers Match.IsAsm) (hputs : s.putsNewline = false)
    (hremoved : ∀ h u, s.entered = some (h, u) →
      '\n' ∉ s.frame.cachedOutput.drop u.frame.cachedOutput.length)
    (hincluded : ∀ h u, s.entered = some (h, u) → ∀ l, h ≠ .includeHandle l)
    (ht : step env s = .running t) :
    t.frame.actualLine = s.frame.actualLine + (s.linesCounted env).toUInt32 := by
  rw [PpState.linesCounted, ht, toUInt32_add, ← UInt32.add_assoc]
  rcases he : s.entered with - | ⟨handler, u⟩
  · -- no handler is entered: a match is tried, or none is left, or a character is fetched
    dsimp only
    change _ = _ + 0
    rw [UInt32.add_zero]
    rcases step_of_not_entered he ht with ⟨i, m, hnext, hm, -, rfl⟩ | ⟨i, hnext, hm, rfl⟩ |
      ⟨-, -, parent, parents, hcons, -⟩ | ⟨hnext, hpending, rfl⟩
    · rw [hnext, Option.bind_some, hm, Option.any_some]
      exact s.frame.matchTest_actualLine m
    · rw [hnext, Option.bind_some, hm]
      exact (UInt32.add_zero _).symm
    · rw [hparents] at hcons
      cases hcons
    · obtain ⟨c, text, hcons⟩ := List.exists_cons_of_ne_nil hpending
      have hc : c ≠ '\n' := by
        rintro rfl
        simp [PpState.putsNewline, hnext, hcons] at hputs
      rw [hnext]
      exact (Frame.fetch_actualLine_of_ne hcons hc).trans (UInt32.add_zero _).symm
  · have hcounts := (step_handled hparents hactive hasm he (hincluded _ u he) ht).2.2.2.2
    obtain ⟨i, m, hnext, hm, -, -, hu⟩ := PpState.entered_match he
    -- the name that is removed has no newlines
    have hname : (((s.frame.matchTest m).2.cachedOutput.drop
        ((s.frame.matchTest m).2.cachedOutput.length - m.text.length)).count '\n') = 0 := by
      have hdrop := hremoved _ u he
      rw [hu] at hdrop
      rw [(s.frame.matchTest_reads m).cachedOutput, List.count_eq_zero]
      simpa [Frame.removeMatch, Frame.outputBefore, (s.frame.matchTest_reads m).cachedOutput]
        using hdrop
    have hentered : u.frame.actualLine = (s.frame.matchTest m).2.actualLine := by
      rw [hu]
      change (s.frame.matchTest m).2.actualLine - _ = _
      rw [hname]
      exact UInt32.sub_zero _
    rw [hcounts.actualLine, hentered, s.frame.matchTest_actualLine m, hnext, Option.bind_some, hm,
      Option.any_some]

end Turns

end DcpuToolchain
