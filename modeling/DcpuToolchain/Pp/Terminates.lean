import DcpuToolchain.Lib.Nesting
import DcpuToolchain.Pp.Reads
import Mathlib.Data.Prod.Lex

/-!
# When the preprocessor comes to an end

What a handler prints is processed again, so that a definition may expand to itself. Only
the definition of a text as itself is left out (`DcpuToolchain.PpState.registerDefinition`).

A name that is replaced, a macro that is called, a line that is tracked and a file that is
included are calls: they put text in front of what is left, and the calls that are open are
those behind which nothing has been read yet. Every other turn gets somewhere
(`DcpuToolchain.turn_progress`): it takes up input, returns to an including file, leaves a
scope, or goes on with the next handler. So a run comes to an end exactly if the calls are
nested to a bounded depth (`DcpuToolchain.run_reports_iff`).
-/

namespace DcpuToolchain

variable {Λ : Type}

/-! ### How much is left -/

namespace Frame

variable (f : Frame)

theorem insertPrinted_length_le (text : List Char) :
    (f.insertPrinted text).pending.length ≤ f.pending.length + text.length := by
  rw [insertPrinted, pending, pending]
  dsimp only
  split
  · simp only [List.length_append, List.length_take, List.length_drop]
    omega
  · simp only [List.length_append]
    omega

theorem printf_length_le (text : List Char) :
    (f.printf text).pending.length ≤ f.pending.length + text.length := by
  have h := f.insertPrinted_length_le (text.filter (· ≠ '\x00'))
  have hfilter := List.length_filter_le (fun c : Char => decide (c ≠ '\x00')) text
  have hpending : (f.printf text).pending =
      (f.insertPrinted (text.filter (· ≠ '\x00'))).pending := rfl
  rw [hpending]
  omega

theorem iprintf_length_le (text : List Char) :
    (f.iprintf text).pending.length ≤ f.pending.length + text.length := by
  have h := f.insertPrinted_length_le (text.filter (· ≠ '\x00'))
  have hfilter := List.length_filter_le (fun c : Char => decide (c ≠ '\x00')) text
  rw [iprintf]
  omega

end Frame

/-- The input that is left, in the file and in those that include it. -/
def PpState.left (s : PpState Λ) : ℕ :=
  s.frame.pending.length + (s.parents.map (·.pending.length)).sum

/-! ### Calls -/

/-- **A call**: the next turn replaces a name, expands a macro, tracks a line or includes a
file. It is given by how much is left behind it. -/
def PpState.behindCall (env : PpEnv Λ) (s : PpState Λ) : Option ℕ :=
  match s.entered with
  | some (.replaceHandle _, t) => some t.left
  | some (.macroHandle _ _, t) =>
    match openBracket [] 0 t.frame.pending with
    | .done _ text => (readArguments 0 [] [] text).map fun r => (t.readTo r.2).left
    | _ => none
  | some (.includeHandle _, t) | some (.lineHandle _, t) | some (.ulineHandle, t) =>
    some (t.paramGet env).2.left
  | _ => none

/-- One turn, if it leads on. -/
def turn (env : PpEnv Λ) (s : PpState Λ) : Option (PpState Λ) :=
  match step env s with
  | .running t => some t
  | _ => none

/-- How many calls are open after a number of turns: nothing that was behind them has been
read. -/
noncomputable def expansionDepth (env : PpEnv Λ) (s : PpState Λ) (n : ℕ) : ℕ :=
  Nesting.depth (turn env) PpState.left (PpState.behindCall env) s n

theorem PpState.left_readTo_le (s : PpState Λ) {rest : List Char}
    (h : rest <:+ s.frame.pending) : (s.readTo rest).left ≤ s.left := by
  have hpending := s.readTo_pending h
  have hle := h.length_le
  rw [left, left, hpending]
  exact Nat.add_le_add_right hle _

/-- The state in which a handler is entered. -/
theorem PpState.entered_spec {s t : PpState Λ} {h : Handler} (hs : s.entered = some (h, t)) :
    ∃ i < s.handlers.length, s.frame.next = some i ∧ t.frame.next = some (i + 1) ∧
      t.parents = s.parents ∧ t.handlers = s.handlers ∧ t.scopes = s.scopes ∧ t.left = s.left := by
  have hpending := entered_pending hs
  obtain ⟨i, m, hnext, hm, -, -, rfl⟩ := entered_match hs
  refine ⟨i, (List.getElem?_eq_some_iff.mp hm).1, hnext, rfl, rfl, rfl, rfl, ?_⟩
  rw [left, left, hpending]

/-- No more is left behind a call than before it. -/
theorem PpState.behindCall_le {env : PpEnv Λ} {s : PpState Λ} {behind : ℕ}
    (h : s.behindCall env = some behind) : behind ≤ s.left := by
  rw [behindCall] at h
  have hleft : ∀ {h t}, s.entered = some (h, t) → t.left = s.left := fun hs => by
    obtain ⟨_, _, _, _, _, _, _, hleft⟩ := entered_spec hs
    exact hleft
  have hparam : ∀ t : PpState Λ, (t.paramGet env).2.left ≤ t.left := fun t =>
    t.left_readTo_le (env.paramGet_suffix t.lexer t.frame.pending)
  split at h
  · rename_i t hs
    obtain rfl := Option.some.inj h
    exact (hleft hs).le
  · rename_i t hs
    rw [← hleft hs]
    have hbracket := openBracket_leaves [] 0 t.frame.pending
    split at h
    · rename_i pops text hopen
      rw [hopen] at hbracket
      obtain ⟨⟨arguments, rest⟩, hread, rfl⟩ := Option.map_eq_some_iff.mp h
      exact t.left_readTo_le ((readArguments_suffix hread).trans hbracket)
    · cases h
  · rename_i t hs
    rw [← hleft hs, ← Option.some.inj h]
    exact hparam t
  · rename_i t hs
    rw [← hleft hs, ← Option.some.inj h]
    exact hparam t
  · rename_i t hs
    rw [← hleft hs, ← Option.some.inj h]
    exact hparam t
  · cases h

/-! ### Other handlers take up input -/

theorem defineWord_reads {word : Bstring} {text rest : List Char} {r : Bstring × Bool}
    (h : defineWord word text = .done r rest) :
    rest.length + (if word = [] then 2 else 1) ≤ text.length := by
  fun_induction defineWord word text with
  | case2 word c text new hblank =>
    obtain ⟨-, rfl⟩ : _ ∧ text = rest := by simpa using h
    have hne : word ≠ [] := by
      rintro rfl
      exact hblank.1 (bltrimws_space (isSpace_of_isBlank hblank.2))
    simp [hne]
  | case5 word c text new _ _ _ hnewline =>
    obtain ⟨-, rfl⟩ : _ ∧ text = rest := by simpa using h
    have hne : word ≠ [] := by
      rintro rfl
      have hspace : isSpace c = true := by
        rw [hnewline.2]
        decide
      exact hnewline.1 (bltrimws_space hspace)
    simp [hne]
  | case6 word c text new _ _ _ _ ih =>
    have hread := ih h
    rw [List.length_cons]
    split at hread <;> split <;> omega
  | _ => cases h

theorem defineDefinition_reads {definition r : Bstring} {text rest : List Char}
    (h : defineDefinition definition text = .done r rest) : rest.length < text.length := by
  fun_induction defineDefinition definition text with
  | case1 => cases h
  | case2 | case4 =>
    obtain ⟨-, rfl⟩ : _ ∧ _ = rest := by simpa using h
    exact Nat.lt_succ_self _
  | case3 | case5 =>
    rename_i ih
    exact (ih h).trans (Nat.lt_succ_self _)

theorem cDefineDefinition_reads {definition : Bstring} {continued : ℕ}
    {r : Bstring × DefinitionEnd × ℕ} {text rest : List Char}
    (h : cDefineDefinition definition continued text = .done r rest) :
    rest.length < text.length := by
  fun_induction cDefineDefinition definition continued text with
  | case1 => cases h
  | case3 | case4 =>
    obtain ⟨-, rfl⟩ : _ ∧ _ = rest := by simpa using h
    exact Nat.lt_succ_self _
  | case2 | case5 | case6 =>
    rename_i ih
    exact (ih h).trans (Nat.lt_succ_self _)

theorem macroWord_reads {incorrect : PpError} {endsAtNewline isMacro : Bool}
    {name word : Bstring} {text rest : List Char} {r : MacroName}
    (h : macroWord incorrect endsAtNewline name word isMacro text = .done r rest) :
    rest.length + (if word = [] ∧ isMacro = false then 2 else 1) ≤ text.length := by
  fun_induction macroWord incorrect endsAtNewline name word isMacro text with
  | case2 name word isMacro c text _ new hblank =>
    obtain ⟨-, rfl⟩ : _ ∧ text = rest := by simpa using h
    have hne : word ≠ [] := by
      rintro rfl
      exact hblank.1 (bltrimws_space (isSpace_of_isBlank hblank.2.1))
    simp [hne]
  | case5 name word isMacro c text _ new _ _ _ hclose =>
    obtain ⟨-, rfl⟩ : _ ∧ text = rest := by simpa using h
    simp [hclose.2.2]
  | case7 name word isMacro c text _ new _ _ _ _ _ hnewline =>
    obtain ⟨-, rfl⟩ : _ ∧ text = rest := by simpa using h
    have hne : word ≠ [] := by
      rintro rfl
      have hspace : isSpace c = true := by
        rw [hnewline.2.2]
        decide
      exact hnewline.2.1 (bltrimws_space hspace)
    simp [hne]
  | case3 =>
    rename_i ih
    have hread := ih h
    rw [List.length_cons]
    split at hread <;> split <;> omega
  | case8 =>
    rename_i ih
    have hread := ih h
    rw [List.length_cons]
    split at hread <;> split <;> omega
  | _ => cases h

theorem skipSpaces_length (c : Char) (tempOutput : Bstring) (text : List Char) :
    (skipSpaces c tempOutput text).2.1.length + (skipSpaces c tempOutput text).2.2.length =
      tempOutput.length + text.length := by
  fun_induction skipSpaces c tempOutput text with
  | case1 => rfl
  | case2 =>
    rename_i ih
    rw [ih]
    simp
    omega
  | case3 =>
    simp
    omega

theorem readDirective_length (c : Char) (temp tempOutput : Bstring) (text : List Char) :
    (readDirective c temp tempOutput text).2.2.1.length +
      (readDirective c temp tempOutput text).2.2.2.length = tempOutput.length + text.length := by
  fun_induction readDirective c temp tempOutput text with
  | case1 => rfl
  | case2 =>
    simp
    omega
  | case3 =>
    rename_i ih
    rw [ih]
    simp
    omega

theorem directive_length {c c₁ c₂ : Char} {tempOutput tempOutput₁ tempOutput₂ temp : Bstring}
    {text text₁ text₂ : List Char} (hs : skipSpaces c tempOutput text = (c₁, tempOutput₁, text₁))
    (hr : readDirective c₁ [c₁] tempOutput₁ text₁ = (c₂, temp, tempOutput₂, text₂)) :
    tempOutput₂.length + text₂.length = tempOutput.length + text.length := by
  have h₁ := skipSpaces_length c tempOutput text
  have h₂ := readDirective_length c₁ [c₁] tempOutput₁ text₁
  rw [hs] at h₁
  rw [hr] at h₂
  exact h₂.trans h₁

/-- What is copied of a branch and what is left behind it is less than there was. -/
theorem skipLoop_length {l : Language} {stopAtElse freshLine : Bool} {fuel ifOpen : ℕ}
    {output : Bstring} {text rest : List Char} {r : Bstring × Bool}
    (h : skipLoop l stopAtElse fuel freshLine ifOpen output text = .done r rest) :
    r.1.length + rest.length < output.length + text.length := by
  have hend : ∀ (c : Char) (text : List Char),
      (if c ≠ '\n' then skipToEndln text else text).length ≤ text.length := by
    intro c text
    split
    · exact (skipToEndln_suffix text).length_le
    · exact le_rfl
  fun_induction skipLoop l stopAtElse fuel freshLine ifOpen output text with
  | case1 | case2 => cases h
  | case3 | case7 | case8 | case9 =>
    rename_i ih
    have hlength := ih h
    simp only [List.length_append, List.length_cons, List.length_nil] at hlength ⊢
    omega
  | case4 =>
    rename_i hs _ _ _ _ hr _ _ _
    obtain ⟨rfl, hrest⟩ := Scan.done.inj h
    rw [← hrest, List.length_cons]
    refine Nat.add_lt_add_left (Nat.lt_succ_of_le ?_) _
    exact (hend _ _).trans (directive_suffix hs hr).length_le
  | case5 =>
    rename_i hs _ _ _ _ hr _ _ _ _
    obtain ⟨rfl, hrest⟩ := Scan.done.inj h
    rw [← hrest, List.length_cons]
    refine Nat.add_lt_add_left (Nat.lt_succ_of_le ?_) _
    exact (hend _ _).trans (directive_suffix hs hr).length_le
  | case6 =>
    rename_i hs _ _ _ _ hr _ _ _ _ ih
    have hlength := ih h
    have hdirective := directive_length hs hr
    simp only [List.length_append, List.length_cons, List.length_nil] at hlength hdirective ⊢
    omega

theorem selectBranch_length {l : Language} {text rest : List Char} {output : Bstring}
    (h : selectBranch l true text = .ok (.done output rest)) :
    output.length + rest.length < text.length := by
  rw [selectBranch, if_pos rfl] at h
  split at h
  · rename_i output' rest' hfirst
    have hlength := skipLoop_length hfirst
    have hsuffix := skipToEndif_leaves l false rest'
    split at h
    · rename_i hsecond
      rw [hsecond] at hsuffix
      obtain ⟨rfl, rfl⟩ := Scan.done.inj (Except.ok.inj h)
      have hle := hsuffix.length_le
      simp only [List.length_nil] at hlength
      omega
    · cases h
    · cases h
  · rename_i output' rest' hfirst
    have hlength := skipLoop_length hfirst
    obtain ⟨rfl, rfl⟩ := Scan.done.inj (Except.ok.inj h)
    simpa using hlength
  · cases h
  · cases h

/-- Less is left in the file, and the including files are the same. -/
def PpState.Shrinks (s t : PpState Λ) : Prop :=
  t.parents = s.parents ∧ t.frame.pending.length < s.frame.pending.length

theorem PpState.Shrinks.left_lt {s t : PpState Λ} (h : s.Shrinks t) : t.left < s.left := by
  rw [left, left, h.1]
  exact Nat.add_lt_add_right h.2 _

theorem registerDefinition_ok {s : PpState Λ} {name full replacement : Bstring}
    {handler : Handler} {p : PpState Λ × Bool}
    (h : s.registerDefinition name full replacement handler = .ok p) :
    p.1.frame = s.frame ∧ p.1.parents = s.parents := by
  rw [PpState.registerDefinition] at h
  split at h
  · cases h
    exact ⟨rfl, rfl⟩
  · cases h
    rw [PpState.register]
    split <;> exact ⟨rfl, rfl⟩

section Handlers

variable {s : PpState Λ} {p : PpState Λ × Bool}

theorem defineHandle_shrinks (h : s.defineHandle = .ok p) : s.Shrinks p.1 := by
  rw [PpState.defineHandle] at h
  obtain ⟨⟨word, gettingDefinition⟩, rest, hword, h⟩ := PpState.scan_ok h
  have hreads := defineWord_reads hword
  have hleaves := defineWord_leaves [] s.frame.pending
  rw [hword] at hleaves
  rw [if_pos rfl] at hreads
  have hrest := s.readTo_pending hleaves
  dsimp only at h
  split at h
  · obtain ⟨definition, rest', hdefinition, h⟩ := PpState.scan_ok h
    have hreads' := defineDefinition_reads hdefinition
    have hleaves' := defineDefinition_leaves [] (s.readTo rest).frame.pending
    rw [hdefinition] at hleaves'
    have hrest' := (s.readTo rest).readTo_pending hleaves'
    obtain ⟨hframe, hparents⟩ := registerDefinition_ok h
    have hprint := ((s.readTo rest).readTo rest').frame.printf_length_le ['\n']
    refine ⟨hparents, ?_⟩
    rw [hrest] at hreads'
    rw [hrest', List.length_singleton] at hprint
    rw [hframe]
    change (((s.readTo rest).readTo rest').frame.printf ['\n']).pending.length < _
    omega
  · obtain ⟨hframe, hparents⟩ := registerDefinition_ok h
    have hprint := (s.readTo rest).frame.printf_length_le ['\n']
    refine ⟨hparents, ?_⟩
    rw [hrest, List.length_singleton] at hprint
    rw [hframe]
    change ((s.readTo rest).frame.printf ['\n']).pending.length < _
    omega

theorem cDefineHandle_shrinks (h : s.cDefineHandle = .ok p) : s.Shrinks p.1 := by
  rw [PpState.cDefineHandle] at h
  obtain ⟨n, rest, hword, h⟩ := PpState.scan_ok h
  have hreads := macroWord_reads hword
  have hleaves := macroWord_leaves .cDefineParametersIncorrect true [] [] false s.frame.pending
  rw [hword] at hleaves
  rw [if_pos ⟨rfl, rfl⟩] at hreads
  have hrest := s.readTo_pending hleaves
  split at h
  · obtain ⟨⟨definition, ended, continued⟩, rest', hdefinition, h⟩ := PpState.scan_ok h
    have hreads' := cDefineDefinition_reads hdefinition
    have hleaves' := cDefineDefinition_leaves [] 0 (s.readTo rest).frame.pending
    rw [hdefinition] at hleaves'
    have hrest' := (s.readTo rest).readTo_pending hleaves'
    rw [hrest] at hreads'
    -- the continued lines are printed to the output
    set f := ((s.readTo rest).readTo rest').frame.oprintf (List.replicate continued '\n')
    have hf : f.pending = rest' := hrest'
    cases ended with
    | line =>
      obtain ⟨hframe, hparents⟩ := registerDefinition_ok h
      have hprint := f.printf_length_le ['\n']
      refine ⟨hparents, ?_⟩
      rw [hf, List.length_singleton] at hprint
      rw [hframe]
      change (f.printf ['\n']).pending.length < _
      omega
    | comment c =>
      obtain ⟨hframe, hparents⟩ := registerDefinition_ok h
      have hprint := f.iprintf_length_le ['/', c]
      refine ⟨hparents, ?_⟩
      rw [hf, List.length_cons, List.length_singleton] at hprint
      rw [hframe]
      change (f.iprintf ['/', c]).pending.length < _
      omega
  · obtain ⟨hframe, hparents⟩ := registerDefinition_ok h
    have hprint := (s.readTo rest).frame.printf_length_le ['\n']
    refine ⟨hparents, ?_⟩
    rw [hrest, List.length_singleton] at hprint
    rw [hframe]
    change ((s.readTo rest).frame.printf ['\n']).pending.length < _
    omega

theorem macroDefHandle_shrinks (h : s.macroDefHandle = .ok p) : s.Shrinks p.1 := by
  rw [PpState.macroDefHandle] at h
  obtain ⟨n, rest, hword, h⟩ := PpState.scan_ok h
  have hreads := macroWord_reads hword
  have hleaves := macroWord_leaves .asmMacroParametersIncorrect false [] [] false s.frame.pending
  rw [hword] at hleaves
  have hrest := s.readTo_pending hleaves
  split at h
  · cases h
  · obtain ⟨definition, rest', hdefinition, h⟩ := PpState.scan_ok h
    have hleaves' := macroDefinition_leaves [] 0 (s.readTo rest).frame.pending
    rw [hdefinition] at hleaves'
    have hrest' := (s.readTo rest).readTo_pending hleaves'
    have hle := hleaves'.length_le
    rw [hrest] at hle
    obtain ⟨hframe, hparents⟩ := registerDefinition_ok h
    refine ⟨hparents, ?_⟩
    rw [hframe, hrest']
    rw [if_pos ⟨rfl, rfl⟩] at hreads
    omega

theorem printBranch_shrinks {l : Language} {value : Bool} (h : s.printBranch l value = .ok p) :
    s.Shrinks p.1 := by
  rw [PpState.printBranch] at h
  split at h
  · cases h
  · rename_i r hselect
    obtain ⟨output, rest, rfl, h⟩ := PpState.scan_ok h
    have hvalue : value = true := by
      by_contra hfalse
      rw [selectBranch, if_neg hfalse] at hselect
      cases hselect
    subst hvalue
    have hlength := selectBranch_length hselect
    have hrest := s.readTo_pending (selectBranch_leaves hselect)
    have hprint := (s.readTo rest).frame.printf_length_le (cString output)
    have hstring : (cString output).length ≤ output.length := (List.takeWhile_sublist _).length_le
    cases h
    refine ⟨rfl, ?_⟩
    rw [hrest] at hprint
    change ((s.readTo rest).frame.printf (cString output)).pending.length < _
    omega

theorem PpState.Shrinks.of_paramGet {env : PpEnv Λ} {parameters : List Parameter}
    {t u : PpState Λ} (ht : s.paramGet env = (parameters, t)) (h : t.Shrinks u) :
    s.Shrinks u := by
  have hsuffix := env.paramGet_suffix s.lexer s.frame.pending
  have hpending : (s.paramGet env).2.frame.pending =
      (env.paramGet s.lexer s.frame.pending).2.1 := s.readTo_pending hsuffix
  have hparents : (s.paramGet env).2.parents = s.parents := rfl
  rw [ht] at hpending hparents
  have hle := hsuffix.length_le
  rw [← hpending] at hle
  exact ⟨h.1.trans hparents, h.2.trans_le hle⟩

theorem ifHandle_shrinks {env : PpEnv Λ} {l : Language} (h : s.ifHandle env l = .ok p) :
    s.Shrinks p.1 := by
  unfold PpState.ifHandle at h
  split at h
  · rename_i evaluate t ht
    split at h
    · cases h
    · exact .of_paramGet ht (printBranch_shrinks h)
  · cases h

theorem ifdefGeneralHandle_shrinks {env : PpEnv Λ} {exist : Bool}
    (h : s.ifdefGeneralHandle env exist = .ok p) : s.Shrinks p.1 := by
  rw [PpState.ifdefGeneralHandle] at h
  split at h
  · rename_i word t ht
    exact .of_paramGet ht (printBranch_shrinks h)
  · cases h

end Handlers

/-! ### Every turn but a call gets somewhere -/

/-- What the turns between two calls use up: the input, the including files, the handlers of
a character, the scopes, and the handlers that are still to be tried. -/
def PpState.effort (s : PpState Λ) : ℕ ×ₗ ℕ ×ₗ ℕ ×ₗ ℕ ×ₗ ℕ :=
  toLex (s.left, toLex (s.parents.length, toLex (if s.frame.next.isSome then 1 else 0,
    toLex (s.scopes.length, s.handlers.length - s.frame.next.getD 0))))

/-- The handlers other than those of calls take up input, or leave a scope. -/
theorem handle_shrinks {env : PpEnv Λ} {s t : PpState Λ} {h : Handler} {p : PpState Λ × Bool}
    (hs : s.entered = some (h, t)) (hcall : s.behindCall env = none) (hp : t.handle env h = .ok p) :
    t.Shrinks p.1 ∨ h = .macroTermHandle ∧ p = (t.popScope, false) := by
  rw [PpState.behindCall, hs] at hcall
  cases h with
  | macroTermHandle => exact .inr ⟨rfl, (Except.ok.inj hp).symm⟩
  | defineHandle l =>
    cases l with
    | asm => exact .inl (defineHandle_shrinks hp)
    | c => exact .inl (cDefineHandle_shrinks hp)
  | macroDefHandle => exact .inl (macroDefHandle_shrinks hp)
  | ifHandle l => exact .inl (ifHandle_shrinks hp)
  | ifdefGeneralHandle exist => exact .inl (ifdefGeneralHandle_shrinks hp)
  | elseHandle l | endifHandle l => cases l <;> cases hp
  | macroHandle full replacement =>
    -- the call is not complete
    change t.macroHandle full replacement = _ at hp
    rw [PpState.macroHandle] at hp
    obtain ⟨pops, text, hopen, hp⟩ := PpState.scan_ok hp
    have hleaves := openBracket_leaves [] 0 t.frame.pending
    rw [hopen] at hleaves
    dsimp only at hcall hp
    rw [hopen] at hcall
    rw [(popScopes_pops _ _).pending, t.readTo_pending hleaves,
      Option.map_eq_none_iff.mp hcall] at hp
    cases hp
  | replaceHandle _ | includeHandle _ | lineHandle _ | ulineHandle => cases hcall

/-- A turn that tries a handler and goes on with the next, or with the next character. -/
theorem PpState.effort_lt_of_next {s t : PpState Λ} {i : ℕ} (hnext : s.frame.next = some i)
    (hleft : t.left = s.left) (hparents : t.parents = s.parents)
    (ht : t.frame.next = none ∨ t.frame.next = some (i + 1) ∧
      (t.scopes.length < s.scopes.length ∨
        t.scopes = s.scopes ∧ t.handlers = s.handlers ∧ i < s.handlers.length)) :
    t.effort < s.effort := by
  refine Prod.Lex.toLex_lt_toLex.mpr (.inr ⟨hleft, ?_⟩)
  refine Prod.Lex.toLex_lt_toLex.mpr (.inr ⟨congrArg List.length hparents, ?_⟩)
  rcases ht with ht | ⟨ht, hscopes | ⟨hscopes, hhandlers, hi⟩⟩
  · refine Prod.Lex.toLex_lt_toLex.mpr (.inl ?_)
    simp [ht, hnext]
  · refine Prod.Lex.toLex_lt_toLex.mpr (.inr ⟨by simp [ht, hnext], ?_⟩)
    exact Prod.Lex.toLex_lt_toLex.mpr (.inl hscopes)
  · refine Prod.Lex.toLex_lt_toLex.mpr (.inr ⟨by simp [ht, hnext], ?_⟩)
    refine Prod.Lex.toLex_lt_toLex.mpr (.inr ⟨congrArg List.length hscopes, ?_⟩)
    simp only [ht, hnext, hhandlers, Option.getD_some]
    omega

/-- A turn that enters no handler. -/
theorem effort_lt_of_not_entered {env : PpEnv Λ} {s t : PpState Λ} (hs : s.entered = none)
    (ht : step env s = .running t) : t.effort < s.effort := by
  rcases step_of_not_entered hs ht with ⟨i, m, hnext, hm, -, rfl⟩ | ⟨i, hnext, -, rfl⟩ |
    ⟨-, hempty, parent, parents, hparents, rfl⟩ | ⟨-, hne, rfl⟩
  · have hpending : (s.frame.matchTest m).2.pending = s.frame.pending :=
      s.frame.matchTest_pending m
    refine PpState.effort_lt_of_next hnext ?_ rfl
      (.inr ⟨rfl, .inr ⟨rfl, rfl, (List.getElem?_eq_some_iff.mp hm).1⟩⟩)
    rw [PpState.left, PpState.left, ← hpending]
    rfl
  · exact PpState.effort_lt_of_next hnext rfl rfl (.inl rfl)
  · refine Prod.Lex.toLex_lt_toLex.mpr (.inr ⟨?_, Prod.Lex.toLex_lt_toLex.mpr (.inl ?_)⟩)
    · rw [PpState.left, PpState.left, hempty, hparents]
      change parent.pending.length + _ = 0 + (parent.pending.length + _)
      rw [Nat.zero_add]
      rfl
    · rw [hparents]
      exact Nat.lt_succ_self _
  · refine Prod.Lex.toLex_lt_toLex.mpr (.inl (Nat.add_lt_add_right ?_ _))
    change s.frame.fetch.pending.length < s.frame.pending.length
    rw [s.frame.fetch_pending, List.length_tail]
    exact Nat.sub_one_lt (mt List.length_eq_zero_iff.mp hne)

theorem popScope_effort_lt {s t : PpState Λ} {h : Handler} (hs : s.entered = some (h, t)) :
    t.popScope.effort < s.effort := by
  obtain ⟨i, hi, hnext, htnext, hparents, hhandlers, hscopes, hleft⟩ := PpState.entered_spec hs
  have hpop := popScope_pops t
  have hleftPop : t.popScope.left = t.left := by
    rw [PpState.left, PpState.left, hpop.pending, hpop.parents]
  refine PpState.effort_lt_of_next hnext (hleftPop.trans hleft) (hpop.parents.trans hparents)
    (.inr ⟨hpop.next.trans htnext, ?_⟩)
  rw [← hscopes, ← hhandlers, PpState.popScope]
  split
  · rename_i hempty
    rw [← hhandlers] at hi
    exact .inr ⟨rfl, rfl, hi⟩
  · rename_i scope scopes hcons
    rw [hcons]
    exact .inl (Nat.lt_succ_self _)

/-- **Every turn that leads on and is no call uses something up.** -/
theorem turn_progress {env : PpEnv Λ} {s t : PpState Λ} (hcall : s.behindCall env = none)
    (ht : turn env s = some t) : t.effort < s.effort := by
  have hstep : step env s = .running t := by
    rw [turn] at ht
    split at ht
    · rename_i u hu
      rw [hu, Option.some.inj ht]
    · cases ht
  rcases hs : s.entered with - | ⟨h, u⟩
  · exact effort_lt_of_not_entered hs hstep
  · rw [step_of_entered env hs] at hstep
    rcases hp : u.handle env h with why | ⟨p, reprocess⟩
    · rw [hp] at hstep
      cases hstep
    · rw [hp] at hstep
      have hrunning := Outcome.running.inj hstep
      obtain hshrinks | ⟨rfl, hpop⟩ := handle_shrinks hs hcall hp
      · obtain ⟨_, _, _, _, _, _, _, hleft⟩ := PpState.entered_spec hs
        have hlt : p.left < s.left := hleft ▸ hshrinks.left_lt
        refine Prod.Lex.toLex_lt_toLex.mpr (.inl ?_)
        rw [← hrunning]
        cases reprocess <;> exact hlt
      · obtain ⟨rfl, rfl⟩ := Prod.mk.inj hpop
        rw [← hrunning]
        exact popScope_effort_lt hs

/-! ### Runs -/

theorem stateAt_turn (env : PpEnv Λ) (s : PpState Λ) (n : ℕ) :
    Nesting.stateAt (turn env) s n =
      match run env s n with
      | .running t => some t
      | _ => none := by
  induction n with
  | zero => rfl
  | succ n ih =>
    rw [Nesting.stateAt, ih, run_succ]
    cases run env s n <;> rfl

theorem progress (env : PpEnv Λ) :
    Nesting.Progress (turn env) PpState.left (PpState.behindCall env) PpState.effort where
  left_le hcall ht := by
    rcases Prod.Lex.toLex_lt_toLex.mp (turn_progress hcall ht) with hlt | ⟨heq, -⟩
    · exact hlt.le
    · exact heq.le
  measure_lt := turn_progress
  behind_le := PpState.behindCall_le

/-- Whether the preprocessor came to an end with output or with a reported error. -/
def Outcome.reports : Outcome Λ → Bool
  | .finished _ => true
  | .stopped (.dhalt _ _) => true
  | _ => false

theorem Outcome.ne_running_of_reports {o : Outcome Λ} (h : o.reports) (t : PpState Λ) :
    o ≠ .running t := by
  rintro rfl
  exact absurd h nofun

theorem run_eq_of_reports {env : PpEnv Λ} {s : PpState Λ} {n k : ℕ} {why : PpStop}
    (hn : (run env s n).reports) (hk : run env s k = .stopped why) :
    run env s n = .stopped why := by
  rcases Nat.le_total n k with h | h
  · rw [← hk, run_stable (Outcome.ne_running_of_reports hn) h]
  · rw [run_stable (by rw [hk]; exact nofun) h, hk]

/-- **The preprocessor comes to an end**, with output or a reported error, exactly if the
calls are nested to a bounded depth, every handler that is entered finds what its loops look
for, and no conditional is entered whose condition is false. -/
theorem run_reports_iff (env : PpEnv Λ) (s : PpState Λ) :
    (∃ n, (run env s n).reports) ↔
      (∃ bound, ∀ n, expansionDepth env s n ≤ bound) ∧
        ∀ n t, run env s n = .running t → t.ReadsEnough ∧ t.EntersNoFalseBranch env := by
  have hreads := run_ne_stopped_iff env s .noInput
  have hbranch := run_ne_stopped_iff env s .uninitialised
  simp only [step_ne_noInput_iff] at hreads
  simp only [step_ne_uninitialised_iff] at hbranch
  constructor
  · rintro ⟨n, hn⟩
    refine ⟨((progress env).halts_iff s).mp ⟨n, ?_⟩, fun k t ht => ⟨?_, ?_⟩⟩
    · rw [stateAt_turn]
      cases h : run env s n with
      | running t => exact absurd h (Outcome.ne_running_of_reports hn t)
      | finished output => rfl
      | stopped why => rfl
    · refine hreads.mp (fun k hk => ?_) k t ht
      rw [run_eq_of_reports hn hk] at hn
      exact absurd hn nofun
    · refine hbranch.mp (fun k hk => ?_) k t ht
      rw [run_eq_of_reports hn hk] at hn
      exact absurd hn nofun
  · rintro ⟨hbound, hturns⟩
    obtain ⟨n, hn⟩ := ((progress env).halts_iff s).mpr hbound
    rw [stateAt_turn] at hn
    refine ⟨n, ?_⟩
    cases h : run env s n with
    | running t =>
      rw [h] at hn
      cases hn
    | finished output => rfl
    | stopped why =>
      cases why with
      | dhalt error location => rfl
      | noInput => exact absurd h (hreads.mpr (fun k t ht => (hturns k t ht).1) n)
      | uninitialised => exact absurd h (hbranch.mpr (fun k t ht => (hturns k t ht).2) n)

/-! ### Definitions that go round -/

deriving instance DecidableEq for PpState, Outcome

/-- A run that comes back to where it has been does so for ever. -/
theorem not_reports_of_cycle {env : PpEnv Λ} {s : PpState Λ} {n p : ℕ} (hp : 0 < p)
    (hcycle : run env s (n + p) = run env s n) (hn : (run env s n).reports = false) (k : ℕ) :
    (run env s k).reports = false := by
  have hturns : ∀ i, run env s (n + p + i) = run env s (n + i) := by
    intro i
    induction i with
    | zero => exact hcycle
    | succ i ih => rw [← Nat.add_assoc, ← Nat.add_assoc, run_succ, run_succ, ih]
  have hrounds : ∀ j, run env s (n + p * j) = run env s n := by
    intro j
    induction j with
    | zero => rfl
    | succ j ih =>
      have hround := hturns (p * j)
      rwa [ih, Nat.add_assoc, Nat.add_comm p, ← Nat.mul_succ] at hround
  by_contra hreports
  have hk : (run env s k).reports := by simpa using hreports
  have hle : k ≤ n + p * k := by
    have hmul := Nat.mul_le_mul_right k hp
    omega
  rw [← run_stable (Outcome.ne_running_of_reports hk) hle, hrounds k, hn] at hk
  cases hk

/-- Two names that are defined as each other, and one of them. -/
def mutualDefinitions : List Char := ".DEFINE a b\n.DEFINE b a\na \n".toList

/-- The one name is replaced by the other for ever. -/
theorem not_forall_run_reports :
    ¬ ∀ (env : PpEnv Unit) (lexer : Unit) (filename : Bstring) (line : UInt32) (lang : Language)
      (input : List Char), ∃ n,
        (run env (ppimplNew env lexer filename line lang input) n).reports := by
  intro h
  obtain ⟨n, hn⟩ := h plainEnv () plainName 1 .asm mutualDefinitions
  have hcycle : run plainEnv (ppimplNew plainEnv () plainName 1 .asm mutualDefinitions) (560 + 46) =
      run plainEnv (ppimplNew plainEnv () plainName 1 .asm mutualDefinitions) 560 := by
    decide +kernel
  have hrunning : (run plainEnv (ppimplNew plainEnv () plainName 1 .asm mutualDefinitions)
      560).reports = false := by
    decide +kernel
  rw [not_reports_of_cycle (by decide) hcycle hrunning n] at hn
  cases hn

end DcpuToolchain
