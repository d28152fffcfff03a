import DcpuToolchain.Pp.Defined
import DcpuToolchain.Pp.Found

/-!
# Where a name is replaced

A name is looked for at the end of the output, each time a character has been put out. It is
to be replaced where it is a maximal run of identifier characters
(`DcpuToolchain.MaximalRun`). What `ppimpl_match_test` looks at is less: in front of the name
a digit isolates it, so that the end of a longer identifier is replaced, and the first handler
that matches is entered, whatever matches behind it. The result, for every state of a run, is
`DcpuToolchain.run_replacesRuns_iff`.
-/

namespace DcpuToolchain

variable {Λ : Type} {env : PpEnv Λ}

/-! ### Runs of identifier characters -/

/-- **A maximal run of identifier characters** between two texts. -/
structure MaximalRun (before name after : List Char) : Prop where
  ne_nil : name ≠ []
  chars : ∀ c ∈ name, isWordChar c = true
  boundary : Boundary before
  ends : endsHere after

/-- Two maximal runs that end in the same place are the same. -/
theorem MaximalRun.unique {before before' name name' after : List Char}
    (h : MaximalRun before name after) (h' : MaximalRun before' name' after)
    (heq : before ++ name = before' ++ name') : name = name' := by
  have hleft : name <:+ name' :=
    suffix_of_boundary h'.boundary h.chars (heq ▸ List.suffix_append before name)
  have hright : name' <:+ name :=
    suffix_of_boundary h.boundary h'.chars (heq ▸ List.suffix_append before' name')
  exact hleft.eq_of_length_le hright.length_le

/-- A digit is an identifier character, but isolates what comes behind it. -/
theorem isolates_start_iff (c : Char) :
    ppimplIsolates c true = true ↔ isWordChar c = false ∨ '0' ≤ c ∧ c ≤ '9' := by
  by_cases hdigit : '0' ≤ c ∧ c ≤ '9'
  · refine iff_of_true ?_ (.inr hdigit)
    have hupper : ¬ 'A' ≤ c := fun h => absurd (Char.le_trans h hdigit.2) (by decide)
    have hlower : ¬ 'a' ≤ c := fun h => absurd (Char.le_trans h hdigit.2) (by decide)
    have hscore : c ≠ '_' := fun h => absurd (h ▸ hdigit.2) (by decide)
    simp [ppimplIsolates, hupper, hlower, hscore]
  · have hsame : ppimplIsolates c true = ppimplIsolates c false := by
      simp [ppimplIsolates, hdigit]
    rw [hsame, isWordChar]
    simp [hdigit]

/-! ### Definitions that are found -/

/-- **A name at the end of the output is replaced**: handlers are tried in vain until that of
a definition of the name is entered, with the name taken off the output. -/
def PpState.Replaces (env : PpEnv Λ) (s : PpState Λ) (before : List Char) (name : Bstring) : Prop :=
  ∃ t u i m, InVain env s t ∧ t.frame.next = some i ∧ t.handlers[i]? = some m ∧ m.text = name ∧
    m.handler.isDefinition = true ∧ t.entered = some (m.handler, u) ∧
    u.frame.cachedOutput = before ∧ u.frame.pending = s.frame.pending

/-- Turns in vain come to one end. -/
theorem InVain.eq_of_entered {s t u : PpState Λ} (h : InVain env s t) (h' : InVain env s u)
    (ht : t.entered ≠ none) (hu : u.entered ≠ none ∨ u.frame.next = none) : t = u := by
  induction h with
  | refl s =>
    cases h' with
    | refl => rfl
    | turn hnext hs _ _ => exact absurd hs ht
  | turn hnext hs hstep h ih =>
    cases h' with
    | refl => exact (hu.elim (absurd hs) fun hnone => absurd hnone hnext)
    | turn _ _ hstep' h' =>
      obtain rfl := Outcome.running.inj (hstep.symm.trans hstep')
      exact ih h' ht

theorem PpState.replaces_iff {s : PpState Λ} {before : List Char} {name : Bstring}
    (hnext : s.frame.next = some 0) (houtput : s.frame.cachedOutput = before ++ name) :
    s.Replaces env before name ↔
      ∃ m, s.firstFound 0 = some m ∧ m.text = name ∧ m.handler.isDefinition = true := by
  obtain ⟨v, hvain, halike, hlast⟩ := s.tried env hnext
  have hsame : ∀ m, (v.frame.matchTest m).1 = (s.frame.matchTest m).1 := fun m =>
    Frame.matchTest_congr m halike.output halike.pending
  rcases hlast with ⟨hnone, hfirst⟩ | ⟨j, m, hj, hm, hfirst⟩
  · -- every handler is tried in vain
    rw [hfirst]
    refine iff_of_false ?_ (by simp)
    rintro ⟨t, u, i, m, ht, hi, -, -, -, hentered, -⟩
    obtain rfl := ht.eq_of_entered hvain (by simp [hentered]) (.inr hnone)
    rw [hnone] at hi
    cases hi
  · have hfound := (hsame m).trans (s.found_of_firstFound hfirst).1
    have hentered := PpState.entered_of_found hj (halike.handlers ▸ hm) hfound
    rw [hfirst]
    constructor
    · rintro ⟨t, u, i, m', ht, hi, hm', rfl, hdefinition, hentered', -⟩
      obtain rfl := ht.eq_of_entered hvain (by simp [hentered']) (.inl (by simp [hentered]))
      obtain rfl := Option.some.inj (hi.symm.trans hj)
      rw [halike.handlers] at hm'
      obtain rfl := Option.some.inj (hm'.symm.trans hm)
      exact ⟨_, rfl, rfl, hdefinition⟩
    · rintro ⟨m', hm', rfl, hdefinition⟩
      obtain rfl := Option.some.inj hm'
      refine ⟨v, _, j, m, hvain, hj, halike.handlers ▸ hm, rfl, hdefinition, hentered, ?_, ?_⟩
      · change (v.frame.matchTest m).2.outputBefore m.text = before
        rw [Frame.outputBefore, (v.frame.matchTest_reads m).cachedOutput, halike.output, houtput,
          List.length_append, Nat.add_sub_cancel, List.take_left]
      · exact (v.frame.matchTest_pending m).trans halike.pending

/-- Every definition is matched as a name. -/
structure PpState.NamesDefinitions (s : PpState Λ) : Prop where
  handlers : ∀ m ∈ s.handlers, m.handler.isDefinition = true → m = nameMatch m.text m.handler
  scopes : ∀ scope ∈ s.scopes, ∀ m ∈ scope.oldHandlers, m.handler.isDefinition = true →
    m = nameMatch m.text m.handler

theorem scoped_namesDefinitions : Scoped (Λ := Λ) PpState.NamesDefinitions := by
  have heq : PpState.NamesDefinitions (Λ := Λ) = PpState.Handlers fun m =>
      m.handler.isDefinition = true → m = nameMatch m.text m.handler := by
    funext s
    exact propext ⟨fun h => ⟨h.handlers, h.scopes⟩, fun h => ⟨h.handlers, h.scopes⟩⟩
  rw [heq]
  refine scoped_handlers fun m hm _ => ?_
  cases hm <;> rfl

/-- A run starts with the handlers of directives only. -/
theorem namesDefinitions_ppimplNew (env : PpEnv Λ) (lexer : Λ) (filename : Bstring) (line : UInt32)
    (lang : Language) (input : List Char) :
    (ppimplNew env lexer filename line lang input).NamesDefinitions := by
  have hdirectives : ∀ m ∈ initialHandlers env.caseInsensitive lang,
      m.handler.isDefinition = false := by
    cases lang <;> simp [initialHandlers, directiveMatch, macroTermMatch, Handler.isDefinition]
  refine ⟨fun m hm hdefinition => ?_, fun scope hscope => absurd hscope List.not_mem_nil⟩
  rw [hdirectives m hm] at hdefinition
  cases hdefinition

/-! ### Exactly the maximal runs -/

/-- **Defined names are replaced exactly where they are maximal runs** of identifier
characters, at the end of the output. -/
def PpState.ReplacesRuns (env : PpEnv Λ) (s : PpState Λ) : Prop :=
  ∀ m ∈ s.handlers, m.handler.isDefinition = true →
    ∀ before, s.frame.cachedOutput = before ++ m.text →
      (s.Replaces env before m.text ↔ MaximalRun before m.text s.frame.pending)

/-- The first handler that matches the end of the output, if it is that of a definition, is
that of an identifier that does not stand behind a digit. If it is that of a directive, no
name that ends there is defined. -/
structure PpState.FindsRuns (s : PpState Λ) : Prop where
  name : ∀ m, s.firstFound 0 = some m → m.handler.isDefinition = true →
    m.text ≠ [] ∧ ∀ c ∈ m.text, isWordChar c = true
  digit : ∀ m, s.firstFound 0 = some m → m.handler.isDefinition = true →
    ∀ c ∈ (s.frame.outputBefore m.text).getLast?, ¬ ('0' ≤ c ∧ c ≤ '9')
  directive : ∀ m, s.firstFound 0 = some m → m.handler.isDefinition = false →
    ∀ m' ∈ s.handlers, m'.handler.isDefinition = true →
      ∀ before, s.frame.cachedOutput = before ++ m'.text →
        ¬ MaximalRun before m'.text s.frame.pending

section State

variable {s : PpState Λ} {m : Match} {before : List Char}

/-- What the characters around a name that is found are. -/
theorem found_iff (hm : m = nameMatch m.text m.handler)
    (houtput : s.frame.cachedOutput = before ++ m.text) :
    (s.frame.matchTest m).1 = true ↔
      endsHere s.frame.pending ∧ ∀ c ∈ before.getLast?, ppimplIsolates c true = true := by
  rw [hm, found_nameMatch, houtput, Frame.isolated, Frame.outputBefore, houtput,
    List.length_append, Nat.add_sub_cancel, List.take_left, Bool.and_eq_true, Option.all_eq_true,
    Option.all_eq_true]
  refine (and_iff_right (List.suffix_append _ _)).trans (and_congr_left' ?_)
  exact forall₂_congr fun c _ => by simp [isWordChar]

/-- The definition that is found first, in its surroundings. -/
theorem PpState.NamesDefinitions.firstFound (hs : s.NamesDefinitions)
    (hfirst : s.firstFound 0 = some m) (hdefinition : m.handler.isDefinition = true) :
    s.frame.cachedOutput = s.frame.outputBefore m.text ++ m.text ∧ endsHere s.frame.pending ∧
      ∀ c ∈ (s.frame.outputBefore m.text).getLast?, ppimplIsolates c true = true := by
  obtain ⟨hfound, hmem⟩ := s.found_of_firstFound hfirst
  have hname := hs.handlers m hmem hdefinition
  obtain ⟨before, houtput⟩ : m.text <:+ s.frame.cachedOutput := by
    rw [hname, found_nameMatch] at hfound
    exact hfound.1
  have hbefore : s.frame.outputBefore m.text = before := by
    rw [Frame.outputBefore, ← houtput, List.length_append, Nat.add_sub_cancel, List.take_left]
  rw [hbefore]
  exact ⟨houtput.symm, (found_iff hname houtput.symm).mp hfound⟩

/-- The first definition that is found is a maximal run. -/
theorem PpState.FindsRuns.maximalRun (h : s.FindsRuns) (hs : s.NamesDefinitions)
    (hfirst : s.firstFound 0 = some m) (hdefinition : m.handler.isDefinition = true) :
    MaximalRun (s.frame.outputBefore m.text) m.text s.frame.pending := by
  obtain ⟨-, hends, hstart⟩ := hs.firstFound hfirst hdefinition
  obtain ⟨hne, hchars⟩ := h.name m hfirst hdefinition
  refine ⟨hne, hchars, fun c hc => ?_, hends⟩
  exact ((isolates_start_iff c).mp (hstart c hc)).resolve_right (h.digit m hfirst hdefinition c hc)

/-- A definition that is a maximal run is found. -/
theorem PpState.NamesDefinitions.found (hs : s.NamesDefinitions) (hmem : m ∈ s.handlers)
    (hdefinition : m.handler.isDefinition = true)
    (houtput : s.frame.cachedOutput = before ++ m.text)
    (halone : MaximalRun before m.text s.frame.pending) : (s.frame.matchTest m).1 = true :=
  (found_iff (hs.handlers m hmem hdefinition) houtput).mpr
    ⟨halone.ends, fun c hc => isolates_of_not_isWordChar (halone.boundary c hc) true⟩

/-- **Defined names are replaced exactly where they are maximal runs** exactly if what is found
first is one. -/
theorem replacesRuns_iff (hs : s.NamesDefinitions) (hnext : s.frame.next = some 0) :
    s.ReplacesRuns env ↔ s.FindsRuns := by
  constructor
  · intro h
    have hrun : ∀ m, s.firstFound 0 = some m → m.handler.isDefinition = true →
        MaximalRun (s.frame.outputBefore m.text) m.text s.frame.pending := by
      intro m hfirst hdefinition
      have houtput := (hs.firstFound hfirst hdefinition).1
      exact (h m (s.found_of_firstFound hfirst).2 hdefinition _ houtput).mp
        ((PpState.replaces_iff hnext houtput).mpr ⟨m, hfirst, rfl, hdefinition⟩)
    refine ⟨fun m hfirst hdefinition => ?_, fun m hfirst hdefinition c hc hdigit => ?_,
      fun m hfirst hdirective m' hmem hdefinition before houtput halone => ?_⟩
    · exact ⟨(hrun m hfirst hdefinition).ne_nil, (hrun m hfirst hdefinition).chars⟩
    · -- a digit is an identifier character
      have hboundary := (hrun m hfirst hdefinition).boundary c hc
      simp [isWordChar, ppimplIsolates, hdigit] at hboundary
    · -- the directive is entered in place of the name
      obtain ⟨w, hw, -, hdefinition'⟩ := (PpState.replaces_iff hnext houtput).mp
        ((h m' hmem hdefinition before houtput).mpr halone)
      obtain rfl := Option.some.inj (hw.symm.trans hfirst)
      rw [hdirective] at hdefinition'
      cases hdefinition'
  · intro h m hmem hdefinition before houtput
    rw [PpState.replaces_iff hnext houtput]
    constructor
    · rintro ⟨w, hfirst, htext, hdefinition'⟩
      have halone := h.maximalRun hs hfirst hdefinition'
      have hbefore : s.frame.outputBefore m.text = before := by
        rw [Frame.outputBefore, houtput, List.length_append, Nat.add_sub_cancel, List.take_left]
      rwa [htext, hbefore] at halone
    · intro halone
      have hfound := hs.found hmem hdefinition houtput halone
      -- the handler of the name is found, if not before it another one
      rcases hfirst : s.firstFound 0 with - | w
      · rw [s.not_found_of_firstFound hfirst (by simpa using hmem)] at hfound
        cases hfound
      · rcases hdefinition' : w.handler.isDefinition with - | -
        · exact absurd halone (h.directive w hfirst hdefinition' m hmem hdefinition before houtput)
        · have hw := h.maximalRun hs hfirst hdefinition'
          have houtput' := (hs.firstFound hfirst hdefinition').1
          exact ⟨w, rfl, hw.unique halone (houtput'.symm.trans houtput), hdefinition'⟩

end State

/-! ### Runs -/

/-- **In every state of a run** in which handlers are tried, defined names are replaced exactly
where they are maximal runs exactly if what is found first is one. -/
theorem run_replacesRuns_iff (lexer : Λ) (filename : Bstring) (line : UInt32) (lang : Language)
    (input : List Char) {n : ℕ} {s : PpState Λ}
    (hs : run env (ppimplNew env lexer filename line lang input) n = .running s)
    (hnext : s.frame.next = some 0) : s.ReplacesRuns env ↔ s.FindsRuns :=
  replacesRuns_iff
    (scoped_namesDefinitions.run (namesDefinitions_ppimplNew env lexer filename line lang input) hs)
    hnext

/-- Whether a name is found first that stands behind such a character. -/
def Outcome.findsBehind (p : Char → Bool) : Outcome Λ → Bool
  | .running s => s.frame.next = some 0 ∧ (s.firstFound 0).any fun m =>
      m.handler.isDefinition && (s.frame.outputBefore m.text).getLast?.any p
  | _ => false

theorem Outcome.exists_of_findsBehind {p : Char → Bool} {o : Outcome Λ}
    (h : o.findsBehind p = true) :
    ∃ s m c, o = .running s ∧ s.frame.next = some 0 ∧ s.firstFound 0 = some m ∧
      m.handler.isDefinition = true ∧ c ∈ (s.frame.outputBefore m.text).getLast? ∧ p c = true := by
  cases o with
  | running s =>
    simp only [findsBehind, decide_eq_true_eq, Option.any_eq_true, Bool.and_eq_true] at h
    obtain ⟨hnext, m, hfirst, hdefinition, c, hc, hp⟩ := h
    exact ⟨s, m, c, rfl, hnext, hfirst, hdefinition, hc, hp⟩
  | finished output | stopped why => cases h

/-- The text `x-A` behind a definition of `A`. -/
theorem run_replacesRuns_name : ∃ s,
    run plainEnv (ppimplNew plainEnv () plainName 1 .c "#define A 5\nx-A\n".toList) 199 =
        .running s ∧
      s.frame.next = some 0 ∧ (s.ReplacesRuns plainEnv ↔ s.FindsRuns) := by
  have hfinds : (run plainEnv (ppimplNew plainEnv () plainName 1 .c "#define A 5\nx-A\n".toList)
      199).findsBehind (· = '-') = true := by
    decide +kernel
  obtain ⟨s, -, -, hs, hnext, -⟩ := Outcome.exists_of_findsBehind hfinds
  exact ⟨s, hs, hnext, run_replacesRuns_iff () plainName 1 .c "#define A 5\nx-A\n".toList hs hnext⟩

/-- In `x1A` the end of the identifier is replaced if `A` is defined. -/
theorem not_forall_run_replacesRuns :
    ¬ ∀ (env : PpEnv Unit) (lexer : Unit) (filename : Bstring) (line : UInt32) (lang : Language)
      (input : List Char) (n : ℕ) (s : PpState Unit),
      run env (ppimplNew env lexer filename line lang input) n = .running s →
        s.frame.next = some 0 → s.ReplacesRuns env := by
  intro h
  have hfinds : (run plainEnv (ppimplNew plainEnv () plainName 1 .c "#define A 5\nx1A\n".toList)
      199).findsBehind (· = '1') = true := by
    decide +kernel
  obtain ⟨s, m, c, hs, hnext, hfirst, hdefinition, hc, hone⟩ :=
    Outcome.exists_of_findsBehind hfinds
  have hruns := (replacesRuns_iff (scoped_namesDefinitions.run
    (namesDefinitions_ppimplNew _ _ _ _ _ _) hs) hnext).mp (h _ _ _ _ _ _ _ _ hs hnext)
  obtain rfl : c = '1' := by simpa using hone
  exact hruns.digit m hfirst hdefinition _ hc ⟨by decide, by decide⟩

end DcpuToolchain
