import DcpuToolchain.Pp.Found
import DcpuToolchain.Pp.Scopes

/-!
# Calls of macros

A macro is called in three steps: the arguments are read off the input, the parameters are
registered in a new scope with the arguments for replacements, and the body is printed to the
input with a terminator (`DcpuToolchain.macroHandle_ok`).
-/

namespace DcpuToolchain

variable {Λ : Type}

/-! ### What a call does -/

/-- A call up to the reading of its body. -/
def PpState.called (s : PpState Λ) (rest : List Char) (parameters : List (Bstring × Bstring))
    (body : Bstring) : PpState Λ :=
  (((s.readTo rest).pushScope true).registerParameters parameters).print
    (cString body ++ macroTerminate)

/-- **A macro that is called**: its parameters are registered in a new scope, and its body is
printed to the input with a terminator. -/
theorem macroHandle_ok {s : PpState Λ} {full body : Bstring} {p : PpState Λ × Bool}
    (hp : s.macroHandle full body = .ok p) :
    ∃ pops text arguments rest, openBracket [] 0 s.frame.pending = .done pops text ∧
      readArguments 0 [] [] text = some (arguments, rest) ∧
      arguments.length = (macroParameters full).length ∧
      p = (((s.readTo text).popScopes pops).called rest ((macroParameters full).zip arguments) body,
        false) := by
  rw [PpState.macroHandle] at hp
  obtain ⟨pops, text, hopen, hp⟩ := PpState.scan_ok hp
  have hsuffix := openBracket_leaves [] 0 s.frame.pending
  rw [hopen] at hsuffix
  have hpending : ((s.readTo text).popScopes pops).frame.pending = text :=
    (popScopes_pops (s.readTo text) pops).pending.trans (s.readTo_pending hsuffix)
  dsimp only at hp
  rw [hpending] at hp
  split at hp
  · cases hp
  · rename_i arguments rest harguments
    split at hp
    · cases hp
    · split at hp
      · cases hp
      · exact ⟨pops, text, arguments, rest, hopen, harguments, by omega, (Except.ok.inj hp).symm⟩

/-- A call whose bracket follows at once. -/
theorem macroHandle_of_bracket {s : PpState Λ} {full body : Bstring} {call rest : List Char}
    {arguments : List Bstring} (hpending : s.frame.pending = '(' :: call)
    (harguments : readArguments 0 [] [] call = some (arguments, rest))
    (hlength : arguments.length = (macroParameters full).length) :
    s.macroHandle full body =
      .ok ((s.readTo call).called rest ((macroParameters full).zip arguments) body, false) := by
  have hopen : openBracket [] 0 ('(' :: call) = .done 0 call := rfl
  have hread : (s.readTo call).frame.pending = call :=
    s.readTo_pending (hpending ▸ List.suffix_cons _ _)
  rw [PpState.macroHandle, hpending, hopen, PpState.scan]
  dsimp only [PpState.popScopes]
  rw [hread, harguments]
  dsimp only
  rw [if_neg (by omega), if_neg (by omega)]
  rfl

/-- The arguments of the call that a macro is entered for, and what is left behind it. -/
def PpState.callArguments (s : PpState Λ) : Option (List Bstring × List Char) :=
  match openBracket [] 0 s.frame.pending with
  | .done _ text => readArguments 0 [] [] text
  | _ => none

/-- The parameters that are registered: a parameter that is its own argument is left out. -/
def registeredParameters (parameters : List (Bstring × Bstring)) : List (Bstring × Bstring) :=
  parameters.filter fun b => b.1 ≠ b.2

/-- What the parameters of a macro are replaced by. -/
def callBindings (full : Bstring) (arguments : List Bstring) : List (Bstring × Bstring) :=
  registeredParameters ((macroParameters full).zip arguments)

theorem registeredParameters_of_eq {parameter argument : Bstring}
    (parameters : List (Bstring × Bstring)) (h : parameter = argument) :
    registeredParameters ((parameter, argument) :: parameters) = registeredParameters parameters :=
  List.filter_cons_of_neg (by simpa using h)

theorem registeredParameters_of_ne {parameter argument : Bstring}
    (parameters : List (Bstring × Bstring)) (h : parameter ≠ argument) :
    registeredParameters ((parameter, argument) :: parameters) =
      (parameter, argument) :: registeredParameters parameters :=
  List.filter_cons_of_pos (by simpa using h)

/-! ### The scope of a call -/

/-- States with the same handlers of every name, in the same scopes. -/
structure PpState.SameNames (s t : PpState Λ) : Prop where
  scopes : t.scopes = s.scopes
  handlers : ∀ name, named name t.handlers = named name s.handlers

section Scope

variable {s t u : PpState Λ} {name : Bstring} {m : Match}

theorem mem_iff_mem_named {l : List Match} : m ∈ l ↔ m ∈ named m.text l := by
  rw [named, List.mem_filter, decide_eq_true rfl, and_iff_left rfl]

theorem find?_eq_head? (l : List Match) (name : Bstring) :
    l.find? (·.text = name) = (named name l).head? := by
  rw [named, List.head?_filter]

namespace PpState.SameNames

theorem refl (s : PpState Λ) : s.SameNames s := ⟨rfl, fun _ => rfl⟩

theorem of_eq (hhandlers : t.handlers = s.handlers) (hscopes : t.scopes = s.scopes) :
    s.SameNames t :=
  ⟨hscopes, fun name => by rw [hhandlers]⟩

theorem trans (h : s.SameNames t) (h' : t.SameNames u) : s.SameNames u :=
  ⟨h'.scopes.trans h.scopes, fun name => (h'.handlers name).trans (h.handlers name)⟩

theorem symm (h : s.SameNames t) : t.SameNames s :=
  ⟨h.scopes.symm, fun name => (h.handlers name).symm⟩

theorem mem_iff (h : s.SameNames t) : m ∈ t.handlers ↔ m ∈ s.handlers := by
  rw [mem_iff_mem_named, h.handlers, ← mem_iff_mem_named]

theorem find? (h : s.SameNames t) (name : Bstring) :
    t.handlers.find? (·.text = name) = s.handlers.find? (·.text = name) := by
  rw [find?_eq_head?, find?_eq_head?, h.handlers]

end PpState.SameNames

/-- **The parameters are registered**, if no two have one name: each has one handler, and the
handlers of its name that it displaces go into the scope. -/
theorem registerParameters_named (s : PpState Λ) (scope : Scope) (scopes : List Scope)
    (parameters : List (Bstring × Bstring)) (hs : s.scopes = scope :: scopes)
    (hnodup : ((registeredParameters parameters).map Prod.fst).Nodup) :
    ∃ scope', (s.registerParameters parameters).scopes = scope' :: scopes ∧
      scope'.active = scope.active ∧
      ∀ name,
        ((registeredParameters parameters).lookup name = none →
          named name (s.registerParameters parameters).handlers = named name s.handlers ∧
            named name scope'.oldHandlers = named name scope.oldHandlers ∧
            (name ∈ scope'.newHandlers ↔ name ∈ scope.newHandlers)) ∧
        ∀ argument, (registeredParameters parameters).lookup name = some argument →
          named name (s.registerParameters parameters).handlers =
              [nameMatch name (.replaceHandle argument)] ∧
            named name scope'.oldHandlers =
              named name scope.oldHandlers ++ named name s.handlers ∧
            name ∈ scope'.newHandlers := by
  induction parameters generalizing s scope with
  | nil => exact ⟨scope, hs, rfl, fun name => ⟨fun _ => ⟨rfl, rfl, .rfl⟩, nofun⟩⟩
  | cons b parameters ih =>
    obtain ⟨parameter, argument⟩ := b
    rw [PpState.registerParameters]
    by_cases heq : parameter = argument
    · rw [registeredParameters_of_eq _ heq] at hnodup ⊢
      rw [if_pos heq]
      exact ih s scope hs hnodup
    · rw [registeredParameters_of_ne _ heq] at hnodup ⊢
      rw [List.map_cons, List.nodup_cons] at hnodup
      rw [if_neg heq]
      obtain ⟨scope₁, hscopes₁, hactive₁, hregister⟩ :=
        register_named s (nameMatch parameter (.replaceHandle argument)) hs
      obtain ⟨scope', hscopes, hactive, hnames⟩ :=
        ih (s.register (nameMatch parameter (.replaceHandle argument))) scope₁ hscopes₁ hnodup.2
      refine ⟨scope', hscopes, hactive.trans hactive₁, fun name => ?_⟩
      obtain ⟨hsame, hother⟩ := hregister name
      obtain ⟨hnone, hsome⟩ := hnames name
      by_cases hname : parameter = name
      · -- the rest of the parameters have other names
        have hrest : (registeredParameters parameters).lookup name = none := by
          rcases hlookup : (registeredParameters parameters).lookup name with - | other
          · rfl
          · rw [hname] at hnodup
            exact absurd (List.mem_map_of_mem (f := Prod.fst) (mem_of_lookup hlookup)) hnodup.1
        obtain ⟨hhandlers₁, hold₁, hnew₁⟩ := hsame hname
        obtain ⟨hhandlers, hold, hnew⟩ := hnone hrest
        rw [List.lookup_cons, beq_iff_eq.mpr hname.symm]
        refine ⟨fun hlookup => absurd hlookup (Option.some_ne_none _), fun other hlookup => ?_⟩
        obtain rfl := Option.some.inj hlookup
        exact ⟨hname ▸ hhandlers.trans hhandlers₁, hold.trans hold₁, hnew.mpr hnew₁⟩
      · obtain ⟨hhandlers₁, hold₁, hnew₁⟩ := hother hname
        rw [List.lookup_cons, beq_false_of_ne (Ne.symm hname)]
        refine ⟨fun hlookup => ?_, fun other hlookup => ?_⟩
        · obtain ⟨hhandlers, hold, hnew⟩ := hnone hlookup
          exact ⟨hhandlers.trans hhandlers₁, hold.trans hold₁, hnew.trans hnew₁⟩
        · obtain ⟨hhandlers, hold, hnew⟩ := hsome other hlookup
          rw [hhandlers₁, hold₁] at hold
          exact ⟨hhandlers, hold, hnew⟩

/-- The names of a call: the parameters, and the names that are no parameters. -/
theorem called_named (s : PpState Λ) (rest body : List Char) {parameters : List (Bstring × Bstring)}
    (hnodup : ((registeredParameters parameters).map Prod.fst).Nodup) (name : Bstring) :
    named name (s.called rest parameters body).handlers =
      match (registeredParameters parameters).lookup name with
      | some argument => [nameMatch name (.replaceHandle argument)]
      | none => named name s.handlers := by
  obtain ⟨scope, -, -, hnames⟩ :=
    registerParameters_named ((s.readTo rest).pushScope true) _ s.scopes parameters rfl hnodup
  obtain ⟨hnone, hsome⟩ := hnames name
  rw [PpState.called, PpState.print]
  split
  · rename_i argument hlookup
    exact (hsome argument hlookup).1
  · rename_i hlookup
    exact (hnone hlookup).1

/-- **The scope of a call is left as it was entered**, however the names were moved about. -/
theorem popScope_called {s t : PpState Λ} {rest body : List Char}
    {parameters : List (Bstring × Bstring)}
    (hnodup : ((registeredParameters parameters).map Prod.fst).Nodup)
    (ht : (s.called rest parameters body).SameNames t) :
    s.SameNames t.popScope ∧ t.popScope.frame = t.frame := by
  obtain ⟨scope, hscopes, hactive, hnames⟩ :=
    registerParameters_named ((s.readTo rest).pushScope true) _ s.scopes parameters rfl hnodup
  have hscope : t.scopes = scope :: s.scopes := ht.scopes.trans hscopes
  rw [PpState.popScope, hscope]
  refine ⟨⟨rfl, fun name => ?_⟩, if_pos hactive⟩
  obtain ⟨hnone, hsome⟩ := hnames name
  dsimp only
  have hnamed := called_named s rest body hnodup name
  rw [named_append, named_filter_notMem, ht.handlers, hnamed]
  rcases hlookup : (registeredParameters parameters).lookup name with - | argument
  · obtain ⟨-, hold, hnew⟩ := hnone hlookup
    rw [if_neg fun h => absurd (hnew.mp h) List.not_mem_nil, hold]
    exact List.append_nil _
  · obtain ⟨-, hold, hnew⟩ := hsome argument hlookup
    rw [if_pos hnew, hold]
    rfl

end Scope

/-! ### The text of a call -/

/-- **What is left of the input** when the body of a macro was printed to it: the body, the
terminator, and what is behind the call. Nothing else of the frame is changed but the line
numbers and the printing cursor. -/
theorem called_reads {s : PpState Λ} {rest body : List Char}
    {parameters : List (Bstring × Bstring)} (hcursor : s.frame.printIndex = 0)
    (hrest : rest <:+ s.frame.pending) (hzero : '\x00' ∉ body) :
    (s.called rest parameters body).frame.pending = body ++ (macroTerminate ++ rest) ∧
      (s.called rest parameters body).parents = s.parents ∧
      (s.called rest parameters body).frame.cachedOutput = s.frame.cachedOutput ∧
      (s.called rest parameters body).frame.currentFilename = s.frame.currentFilename ∧
      (s.called rest parameters body).frame.inSingleString = s.frame.inSingleString ∧
      (s.called rest parameters body).frame.inDoubleString = s.frame.inDoubleString ∧
      (s.called rest parameters body).frame.next = s.frame.next := by
  have hreads := s.frame.advanceTo_reads rest
  obtain ⟨hframe, hparents, -⟩ := registerParameters_keeps ((s.readTo rest).pushScope true)
    parameters (List.cons_ne_nil _ _)
  have hcursor' : (s.readTo rest).frame.printIndex = 0 := hreads.printIndex.trans hcursor
  have hprinted : (cString body ++ macroTerminate).filter (· ≠ '\x00') =
      body ++ macroTerminate := by
    have hterminate : macroTerminate.filter (· ≠ '\x00') = macroTerminate := by decide
    rw [List.filter_append, hterminate, cString, List.takeWhile_eq_self_iff.mpr,
      List.filter_eq_self.mpr]
    · rintro c hc
      rw [decide_eq_true_iff]
      rintro rfl
      exact hzero hc
    · rintro c hc
      rw [decide_eq_true_iff]
      rintro rfl
      exact hzero hc
  rw [PpState.called, PpState.print, hframe]
  refine ⟨?_, hparents, hreads.cachedOutput, hreads.currentFilename, hreads.inSingleString,
    hreads.inDoubleString, hreads.next⟩
  change ((s.readTo rest).frame.printf _).pending = _
  rw [Frame.printf_pending _ hcursor', hprinted, List.append_assoc]
  exact congrArg _ (congrArg _ (PpState.readTo_pending _ hrest))

theorem readArguments_of_callArguments {s : PpState Λ} {p : List Bstring × List Char}
    (h : s.callArguments = some p) : ∃ text, readArguments 0 [] [] text = some p := by
  rw [PpState.callArguments] at h
  split at h
  · exact ⟨_, h⟩
  · cases h

/-- **The state a macro is called in** is that behind the bracket, in which the scopes that ended
before it were left. -/
theorem called_of_macroHandle {s t : PpState Λ} {full body : Bstring} {again : Bool}
    {arguments : List Bstring} {rest : List Char} (hcursor : s.frame.printIndex = 0)
    (hcall : s.macroHandle full body = .ok (t, again))
    (harguments : s.callArguments = some (arguments, rest)) :
    ∃ called : PpState Λ, t = called.called rest ((macroParameters full).zip arguments) body ∧
      called.frame.printIndex = 0 ∧ rest <:+ called.frame.pending ∧
      arguments.length = (macroParameters full).length := by
  obtain ⟨pops, text, arguments', rest', hopen, hread, hlength, hp⟩ := macroHandle_ok hcall
  rw [PpState.callArguments, hopen] at harguments
  obtain ⟨rfl, rfl⟩ := Prod.mk.inj (Option.some.inj (hread.symm.trans harguments))
  have hsuffix := openBracket_leaves [] 0 s.frame.pending
  rw [hopen] at hsuffix
  have hpopped := popScopes_pops (s.readTo text) pops
  have hpending : ((s.readTo text).popScopes pops).frame.pending = text :=
    hpopped.pending.trans (s.readTo_pending hsuffix)
  refine ⟨_, (Prod.mk.inj hp).1, ?_, ?_, hlength⟩
  · exact hpopped.printIndex.trans ((s.frame.advanceTo_reads text).printIndex.trans hcursor)
  · rw [hpending]
    exact readArguments_suffix hread

end DcpuToolchain
