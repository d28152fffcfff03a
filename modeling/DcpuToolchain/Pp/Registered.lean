import DcpuToolchain.Pp.Reads

/-!
# What a run registers

The handlers a run starts with are those of the directives. Whatever is registered later is
a name that is replaced or expanded, without white space around it; it is registered,
displaced and removed by the calls of the scopes only. An invariant of handlers and scopes
that these calls keep (`DcpuToolchain.Scoped`) holds in every state of a run.
-/

namespace DcpuToolchain

variable {Λ : Type}

/-- The match of a name that is defined: by a definition, by a macro, or as the parameter of a
macro that is being expanded. -/
inductive Match.Registered : Match → Prop
  | replaced (name replacement : Bstring) :
    Registered (nameMatch (btrimws name) (.replaceHandle replacement))
  | expanded (name full replacement : Bstring) :
    Registered (nameMatch (btrimws name) (.macroHandle full replacement))

/-- **An invariant of the handlers and the scopes**: registering definitions keeps it, and so
does entering and leaving scopes. -/
structure Scoped (inv : PpState Λ → Prop) : Prop where
  congr : ∀ {s t : PpState Λ}, inv s → t.handlers = s.handlers → t.scopes = s.scopes → inv t
  register : ∀ {s : PpState Λ} {m : Match}, m.Registered → inv s → inv (s.register m)
  pushScope : ∀ {s : PpState Λ} (active : Bool), inv s → inv (s.pushScope active)
  popScope : ∀ {s : PpState Λ}, inv s → inv s.popScope

/-- A property of all handlers, those that were displaced included. -/
structure PpState.Handlers (property : Match → Prop) (s : PpState Λ) : Prop where
  handlers : ∀ m ∈ s.handlers, property m
  scopes : ∀ scope ∈ s.scopes, ∀ m ∈ scope.oldHandlers, property m

/-- What is said of every handler that is registered is an invariant. -/
theorem scoped_handlers {property : Match → Prop} (hproperty : ∀ m, m.Registered → property m) :
    Scoped (Λ := Λ) (PpState.Handlers property) where
  congr h hhandlers hscopes := ⟨hhandlers ▸ h.handlers, hscopes ▸ h.scopes⟩
  register {s r} hr h := by
    rw [PpState.register]
    split
    · refine ⟨fun m hm => ?_, h.scopes⟩
      rcases List.mem_append.mp hm with hm | hm
      · exact h.handlers m hm
      · exact List.mem_singleton.mp hm ▸ hproperty r hr
    · rename_i scope scopes hscopes
      have hall := h.scopes
      rw [hscopes, List.forall_mem_cons] at hall
      refine ⟨fun m hm => ?_, List.forall_mem_cons.mpr ⟨fun m hm => ?_, hall.2⟩⟩
      · rcases List.mem_append.mp hm with hm | hm
        · exact h.handlers m (List.mem_of_mem_filter hm)
        · exact List.mem_singleton.mp hm ▸ hproperty r hr
      · rcases List.mem_append.mp hm with hm | hm
        · exact hall.1 m hm
        · exact h.handlers m (List.mem_of_mem_filter hm)
  pushScope active h :=
    ⟨h.handlers, List.forall_mem_cons.mpr ⟨fun m hm => absurd hm List.not_mem_nil, h.scopes⟩⟩
  popScope {s} h := by
    rw [PpState.popScope]
    split
    · exact h
    · rename_i scope scopes hscopes
      have hall := h.scopes
      rw [hscopes, List.forall_mem_cons] at hall
      refine ⟨fun m hm => ?_, hall.2⟩
      rcases List.mem_append.mp hm with hm | hm
      · exact h.handlers m (List.mem_of_mem_filter hm)
      · exact hall.1 m hm

/-! ### Definitions -/

/-- The name of a definition has had the white space at its ends taken off. -/
theorem defineWord_trimmed {word : Bstring} {text rest : List Char} {r : Bstring × Bool}
    (h : defineWord word text = .done r rest) : ∃ name, r.1 = btrimws name := by
  induction text generalizing word with
  | nil => cases h
  | cons c text ih =>
    rw [defineWord] at h
    split at h
    · cases h
      exact ⟨_, rfl⟩
    · split at h
      · cases h
      · split at h
        · cases h
        · split at h
          · cases h
            exact ⟨_, rfl⟩
          · exact ih h

/-- The name of a macro has had the white space at its ends taken off. -/
theorem macroWord_trimmed {incorrect : PpError} {endsAtNewline isMacro : Bool}
    {name word : Bstring} {text rest : List Char} {n : MacroName}
    (h : macroWord incorrect endsAtNewline name word isMacro text = .done n rest) :
    ∃ name, n.name = btrimws name := by
  induction text generalizing name word isMacro with
  | nil => cases h
  | cons c text ih =>
    rw [macroWord] at h
    split at h
    · cases h
      exact ⟨_, rfl⟩
    · split at h
      · exact ih h
      · split at h
        · cases h
        · split at h
          · cases h
            exact ⟨_, rfl⟩
          · split at h
            · cases h
            · split at h
              · cases h
                exact ⟨_, rfl⟩
              · exact ih h

/-- A parameter of a macro has had the white space at its ends taken off, wherever it is. -/
theorem parametersFrom_trimmed {temp : Bstring} {text : List Char} {parameter : Bstring}
    (h : parameter ∈ parametersFrom temp text) : ∃ name, parameter = btrimws name := by
  induction text generalizing temp with
  | nil => cases h
  | cons c text ih =>
    rw [parametersFrom] at h
    split at h
    · rcases List.mem_cons.mp h with rfl | h
      · exact ⟨_, rfl⟩
      · exact ih h
    · split at h
      · exact ⟨_, List.mem_singleton.mp h⟩
      · exact ih h

/-- The parameters in the name of a macro have had the white space at their ends taken off. -/
theorem macroParameters_trimmed {full parameter : Bstring} (h : parameter ∈ macroParameters full) :
    ∃ name, parameter = btrimws name :=
  parametersFrom_trimmed h

namespace Scoped

variable {inv : PpState Λ → Prop} {s t : PpState Λ} {p : PpState Λ × Bool} {env : PpEnv Λ}

/-- Reading on from the input touches neither the handlers nor the scopes. -/
theorem readTo (h : Scoped inv) (hs : inv s) (rest : List Char) : inv (s.readTo rest) :=
  h.congr hs rfl rfl

/-- Printing to the input touches neither the handlers nor the scopes. -/
theorem print (h : Scoped inv) (hs : inv s) (text : List Char) : inv (s.print text) :=
  h.congr hs rfl rfl

/-! ### The calls of the scopes -/

/-- Popping any number of scopes keeps the invariant, as popping one does. -/
theorem popScopes (h : Scoped inv) (hs : inv s) (n : ℕ) : inv (s.popScopes n) := by
  induction n generalizing s with
  | zero => exact hs
  | succ n ih => exact ih (h.popScope hs)

/-- Registering the parameters of a macro keeps the invariant, as registering one name does. -/
theorem registerParameters (h : Scoped inv) (hs : inv s) {parameters : List (Bstring × Bstring)}
    (hparameters : ∀ q ∈ parameters, ∃ name, q.1 = btrimws name) :
    inv (s.registerParameters parameters) := by
  induction parameters generalizing s with
  | nil => exact hs
  | cons q parameters ih =>
    obtain ⟨parameter, argument⟩ := q
    have hrest : ∀ q ∈ parameters, ∃ name, q.1 = btrimws name := fun q hq =>
      hparameters q (List.mem_cons_of_mem _ hq)
    obtain ⟨name, hname⟩ := hparameters _ List.mem_cons_self
    rw [PpState.registerParameters]
    split
    · exact ih hs hrest
    · refine ih (h.register ?_ hs) hrest
      rw [show parameter = btrimws name from hname]
      exact .replaced name argument

/-- The end of a definition keeps the invariant, whether the name is registered or not. -/
theorem registerDefinition (h : Scoped inv) (hs : inv s) {name full replacement : Bstring}
    {handler : Handler} (hm : (nameMatch name handler).Registered)
    (hp : s.registerDefinition name full replacement handler = .ok p) : inv p.1 := by
  rw [PpState.registerDefinition] at hp
  split at hp
  · cases hp
    exact hs
  · cases hp
    exact h.register hm hs

/-! ### Handlers -/

/-- A definition of the assembler registers one name that is replaced, and nothing else. -/
theorem defineHandle (h : Scoped inv) (hs : inv s) (hp : s.defineHandle = .ok p) : inv p.1 := by
  rw [PpState.defineHandle] at hp
  obtain ⟨⟨word, gettingDefinition⟩, rest, hword, hp⟩ := PpState.scan_ok hp
  obtain ⟨name, rfl : word = _⟩ := defineWord_trimmed hword
  dsimp only at hp
  split at hp
  · obtain ⟨definition, rest', -, hp⟩ := PpState.scan_ok hp
    exact h.registerDefinition (h.print (h.readTo (h.readTo hs rest) rest') ['\n'])
      (.replaced name definition) hp
  · exact h.registerDefinition (h.print (h.readTo hs rest) ['\n']) (.replaced name []) hp

/-- A definition of C registers a name that is replaced, or a macro. -/
theorem cDefineHandle (h : Scoped inv) (hs : inv s) (hp : s.cDefineHandle = .ok p) : inv p.1 := by
  rw [PpState.cDefineHandle] at hp
  obtain ⟨n, rest, hword, hp⟩ := PpState.scan_ok hp
  obtain ⟨name, hname⟩ := macroWord_trimmed hword
  -- whatever the definition, a name is registered
  have hdefine : ∀ (t : PpState Λ) (definition : Bstring), inv t →
      t.registerDefinition n.name n.word definition
        (if n.isMacro then .macroHandle n.word definition else .replaceHandle definition) = .ok p →
      inv p.1 := by
    intro t definition ht hp
    refine h.registerDefinition ht ?_ hp
    rw [hname]
    split
    · exact .expanded name n.word definition
    · exact .replaced name definition
  split at hp
  · obtain ⟨⟨definition, ended, continued⟩, rest', -, hp⟩ := PpState.scan_ok hp
    have hread := h.readTo (h.readTo hs rest) rest'
    cases ended with
    | line =>
      dsimp only at hp
      refine hdefine _ _ ?_ hp
      exact h.congr hread rfl rfl
    | comment c =>
      dsimp only at hp
      refine hdefine _ _ ?_ hp
      exact h.congr hread rfl rfl
  · exact hdefine _ _ (h.print (h.readTo hs rest) ['\n']) hp

/-- A macro definition of the assembler registers one macro, and nothing else. -/
theorem macroDefHandle (h : Scoped inv) (hs : inv s) (hp : s.macroDefHandle = .ok p) :
    inv p.1 := by
  rw [PpState.macroDefHandle] at hp
  obtain ⟨n, rest, hword, hp⟩ := PpState.scan_ok hp
  obtain ⟨name, hname⟩ := macroWord_trimmed hword
  split at hp
  · cases hp
  · obtain ⟨definition, rest', -, hp⟩ := PpState.scan_ok hp
    refine h.registerDefinition (h.readTo (h.readTo hs rest) rest') ?_ hp
    rw [hname]
    exact .expanded name n.word definition

/-- A call pops the scopes that ended, enters one of its own and registers the parameters. -/
theorem macroHandle (h : Scoped inv) (hs : inv s) {full replacement : Bstring}
    (hp : s.macroHandle full replacement = .ok p) : inv p.1 := by
  rw [PpState.macroHandle] at hp
  obtain ⟨pops, text, -, hp⟩ := PpState.scan_ok hp
  have hpopped : inv ((s.readTo text).popScopes pops) := h.popScopes (h.readTo hs text) pops
  dsimp only at hp
  split at hp
  · cases hp
  · rename_i arguments rest _
    split at hp
    · cases hp
    · split at hp
      · cases hp
      · cases hp
        refine h.print (h.registerParameters (h.pushScope true (h.readTo hpopped rest))
          fun q hq => ?_) _
        exact macroParameters_trimmed (List.of_mem_zip hq).1

/-- Printing a branch of a conditional touches neither the handlers nor the scopes. -/
theorem printBranch (h : Scoped inv) (hs : inv s) {l : Language} {value : Bool}
    (hp : s.printBranch l value = .ok p) : inv p.1 := by
  rw [PpState.printBranch] at hp
  split at hp
  · cases hp
  · obtain ⟨output, rest, -, hp⟩ := PpState.scan_ok hp
    cases hp
    exact h.congr hs rfl rfl

/-- Reading the parameters of a directive touches neither the handlers nor the scopes. -/
theorem paramGet (h : Scoped inv) (hs : inv s) {parameters : List Parameter}
    (ht : s.paramGet env = (parameters, t)) : inv t := by
  rw [PpState.paramGet] at ht
  cases ht
  exact h.congr hs rfl rfl

/-- A file that is included shares the handlers and the scopes with its parent. -/
theorem includeHandle (h : Scoped inv) (hs : inv s) {l : Language}
    (hp : s.includeHandle env l = .ok p) : inv p.1 := by
  unfold PpState.includeHandle at hp
  dsimp only at hp
  split at hp
  · rename_i ht
    split at hp
    · cases hp
    · cases hp
      exact h.congr (h.paramGet hs ht) rfl rfl
  · rename_i ht
    split at hp
    · cases hp
    · cases hp
      exact h.congr (h.paramGet hs ht) rfl rfl
  · cases hp

/-- A change of the line number touches neither the handlers nor the scopes. -/
theorem lineHandle (h : Scoped inv) (hs : inv s) {l : Language}
    (hp : s.lineHandle env l = .ok p) : inv p.1 := by
  cases l with
  | asm | c =>
    unfold PpState.lineHandle at hp
    dsimp only at hp
    split at hp
    · rename_i ht
      cases hp
      exact h.congr (h.paramGet hs ht) rfl rfl
    · rename_i ht
      cases hp
      exact h.congr (h.paramGet hs ht) rfl rfl
    · cases hp

/-- A line number for the user touches neither the handlers nor the scopes. -/
theorem ulineHandle (h : Scoped inv) (hs : inv s) (hp : s.ulineHandle env = .ok p) : inv p.1 := by
  unfold PpState.ulineHandle at hp
  split at hp
  · rename_i ht
    cases hp
    exact h.congr (h.paramGet hs ht) rfl rfl
  · rename_i ht
    cases hp
    exact h.congr (h.paramGet hs ht) rfl rfl
  · cases hp

/-- Every handler keeps the invariant. -/
theorem handle (h : Scoped inv) (hs : inv s) {handler : Handler}
    (hp : s.handle env handler = .ok p) : inv p.1 := by
  cases handler with
  | replaceHandle replacement =>
    cases hp
    exact h.congr hs rfl rfl
  | macroHandle full replacement => exact h.macroHandle hs hp
  | macroTermHandle =>
    cases hp
    exact h.popScope hs
  | defineHandle l =>
    cases l with
    | asm => exact h.defineHandle hs hp
    | c => exact h.cDefineHandle hs hp
  | macroDefHandle => exact h.macroDefHandle hs hp
  | ifHandle l =>
    change s.ifHandle env l = .ok p at hp
    unfold PpState.ifHandle at hp
    split at hp
    · rename_i ht
      split at hp
      · cases hp
      · exact h.printBranch (h.paramGet hs ht) hp
    · cases hp
  | ifdefGeneralHandle exist =>
    change s.ifdefGeneralHandle env exist = .ok p at hp
    rw [PpState.ifdefGeneralHandle] at hp
    split at hp
    · rename_i ht
      exact h.printBranch (h.paramGet hs ht) hp
    · cases hp
  | elseHandle l | endifHandle l => cases l <;> cases hp
  | includeHandle l => exact h.includeHandle hs hp
  | lineHandle l => exact h.lineHandle hs hp
  | ulineHandle => exact h.ulineHandle hs hp

/-! ### Turns and runs -/

/-- A turn keeps the invariant. -/
theorem step (h : Scoped inv) (hs : inv s) (ht : step env s = .running t) : inv t := by
  rcases he : s.entered with - | ⟨handler, u⟩
  · rcases step_of_not_entered he ht with ⟨i, m, -, -, -, rfl⟩ | ⟨i, -, -, rfl⟩ |
      ⟨-, -, parent, parents, -, rfl⟩ | ⟨-, -, rfl⟩ <;> exact h.congr hs rfl rfl
  · obtain ⟨i, m, -, -, -, -, rfl⟩ := PpState.entered_match he
    rw [step_of_entered env he] at ht
    split at ht
    · cases ht
    · rename_i u reprocess hp
      have hentered : inv { s with
          frame := { (s.frame.matchTest m).2.removeMatch m with next := some (i + 1) } } :=
        h.congr hs rfl rfl
      have hu : inv u := h.handle hentered hp
      rw [← Outcome.running.inj ht]
      cases reprocess with
      | true => exact h.congr hu rfl rfl
      | false => exact hu

/-- **A run keeps the invariant.** -/
theorem run (h : Scoped inv) (hs : inv s) {n : ℕ} (ht : run env s n = .running t) : inv t := by
  induction n generalizing t with
  | zero =>
    cases ht
    exact hs
  | succ n ih =>
    rw [run_succ] at ht
    split at ht
    · rename_i u hu
      exact h.step (ih hu) ht
    · rename_i hne
      exact absurd ht (hne t)

end Scoped

end DcpuToolchain
