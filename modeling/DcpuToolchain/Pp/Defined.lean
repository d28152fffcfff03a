import DcpuToolchain.Pp.Registered

/-!
# What `#ifdef` takes for defined

`ifdef_general_handle` looks a name up among the handlers. Its loop takes the first handler
in every turn (`list_get_at(&state->handlers, 0)`), so that a name is defined for it exactly
if that is the handler of this name. The first handler of a run is that of `#line`, whatever
is registered behind it (`DcpuToolchain.run_head_handlers`), and no name is defined.
-/

namespace DcpuToolchain

variable {Λ : Type} {env : PpEnv Λ}

/-- Whether a handler is that of a definition, and not that of a directive. -/
def Handler.isDefinition : Handler → Bool
  | .replaceHandle _ | .macroHandle _ _ => true
  | _ => false

/-- A definition of a name is among the handlers. -/
def Defined (handlers : List Match) (name : Bstring) : Prop :=
  ∃ m ∈ handlers, m.handler.isDefinition = true ∧ m.text = name

/-- The handler that `ifdef_general_handle` looks at is that of a name. -/
def FirstNamed (handlers : List Match) (name : Bstring) : Prop :=
  ∃ m ∈ handlers.head?, m.text = name

/-! ### Branches -/

/-- The branches of a conditional are told apart: there is no second one. -/
theorem printBranch_eq_first_iff (s : PpState Λ) (l : Language) (value : Bool) :
    s.printBranch l value = s.printBranch l true ↔ value = true := by
  cases value with
  | true => exact iff_of_true rfl rfl
  | false =>
    refine iff_of_false (fun heq => ?_) nofun
    -- only a condition that is false has the uninitialised variable read
    have hwhy : ∀ error location, PpStop.uninitialised ≠ .dhalt error location := nofun
    have hfalse : s.printBranch l false = .error .uninitialised :=
      (printBranch_error_iff s l false hwhy).mpr ⟨rfl, rfl⟩
    obtain ⟨-, htrue⟩ := (printBranch_error_iff s l true hwhy).mp (heq ▸ hfalse)
    cases htrue

/-- The branch that a conditional selects is the first exactly if the first handler is that of
the name, and the other way about for `#ifndef`. -/
theorem ifdefGeneralHandle_first_iff {s t : PpState Λ} {name : Bstring} (exist : Bool)
    (ht : s.paramGet env = ([.word name], t)) :
    s.ifdefGeneralHandle env exist = t.printBranch .c true ↔
      (FirstNamed s.handlers name ↔ exist = true) := by
  have hhandlers : t.handlers = s.handlers := by
    rw [PpState.paramGet] at ht
    obtain ⟨-, rfl⟩ := Prod.mk.inj ht
    rfl
  have hfirst : (t.handlers.head?.any (·.text = name)) = true ↔ FirstNamed s.handlers name := by
    rw [hhandlers, Option.any_eq_true, FirstNamed]
    simp only [decide_eq_true_eq, Option.mem_def]
  rw [PpState.ifdefGeneralHandle, ht]
  dsimp only
  rw [printBranch_eq_first_iff]
  by_cases h : FirstNamed s.handlers name
  · rw [if_pos (hfirst.mpr h)]
    simp [h]
  · rw [if_neg (mt hfirst.mp h)]
    simp [h]

/-- **`#ifdef` and `#ifndef` select as a definition of the name says** exactly if the first
handler is that of the name where the name is defined, and only there. -/
theorem ifdefGeneralHandle_defined_iff {s t : PpState Λ} {name : Bstring}
    (ht : s.paramGet env = ([.word name], t)) :
    ((s.ifdefGeneralHandle env true = t.printBranch .c true ↔ Defined s.handlers name) ∧
        (s.ifdefGeneralHandle env false = t.printBranch .c true ↔ ¬ Defined s.handlers name)) ↔
      (FirstNamed s.handlers name ↔ Defined s.handlers name) := by
  rw [ifdefGeneralHandle_first_iff true ht, ifdefGeneralHandle_first_iff false ht]
  constructor
  · rintro ⟨hifdef, -⟩
    rw [← hifdef]
    simp
  · intro h
    rw [h]
    constructor <;> simp

/-- A preprocessor that is given the rest of the line as a word. -/
def wordEnv : PpEnv Unit where
  paramGet lexer text := ([.word (text.takeWhile (· ≠ '\n'))], text.dropWhile (· ≠ '\n'), lexer)
  paramGet_suffix _ _ := List.dropWhile_suffix _
  locate _ := none
  printIndex := 0
  caseInsensitive := true

/-- A preprocessor at the parameter `A` of a conditional. -/
def conditionalOn (handlers : List Match) : PpState Unit where
  frame := ⟨[], "A\nx\n#endif\n".toList, [], 1, 1, plainName, false, false, 0, none⟩
  parents := []
  handlers := handlers
  scopes := []
  lexer := ()

/-- The definition of `A`. -/
def definitionOfA : Match := nameMatch ['A'] (.replaceHandle ['1'])

theorem paramGet_conditionalOn (handlers : List Match) :
    (conditionalOn handlers).paramGet wordEnv =
      ([.word ['A']], ((conditionalOn handlers).paramGet wordEnv).2) :=
  Prod.ext (by rfl) rfl

/-- The handlers of C, followed by this definition. -/
def definedBehind : List Match := initialHandlers true .c ++ [definitionOfA]

/-- A name that is defined behind the directives. -/
theorem ifdefGeneralHandle_definedBehind :
    (((conditionalOn definedBehind).ifdefGeneralHandle wordEnv true =
            ((conditionalOn definedBehind).paramGet wordEnv).2.printBranch .c true ↔
          Defined definedBehind ['A']) ∧
        ((conditionalOn definedBehind).ifdefGeneralHandle wordEnv false =
            ((conditionalOn definedBehind).paramGet wordEnv).2.printBranch .c true ↔
          ¬ Defined definedBehind ['A'])) ↔
      (FirstNamed definedBehind ['A'] ↔ Defined definedBehind ['A']) :=
  ifdefGeneralHandle_defined_iff (paramGet_conditionalOn definedBehind)

/-- It is taken for undefined. -/
theorem not_forall_ifdefGeneralHandle_defined :
    ¬ ∀ (env : PpEnv Unit) (s t : PpState Unit) (name : Bstring),
      s.paramGet env = ([.word name], t) →
        (s.ifdefGeneralHandle env true = t.printBranch .c true ↔ Defined s.handlers name) ∧
          (s.ifdefGeneralHandle env false = t.printBranch .c true ↔ ¬ Defined s.handlers name) := by
  intro h
  obtain ⟨hifdef, -⟩ := h wordEnv (conditionalOn definedBehind) _ _
    (paramGet_conditionalOn _)
  rw [ifdefGeneralHandle_first_iff true (paramGet_conditionalOn _)] at hifdef
  have hdefined : Defined definedBehind ['A'] :=
    ⟨definitionOfA, List.mem_append_right _ List.mem_cons_self, rfl, rfl⟩
  -- the first handler is that of `#line`
  obtain ⟨m, hm, htext⟩ := (hifdef.mpr hdefined).mpr rfl
  obtain rfl := Option.some.inj hm
  exact absurd htext (by decide)

/-! ### Runs -/

/-- The first handler is one that is never displaced and never removed. -/
structure PpState.Heads (s : PpState Λ) (m : Match) : Prop where
  head : s.handlers.head? = some m
  kept : ∀ scope ∈ s.scopes, m.text ∉ scope.newHandlers

/-- A name has no blank at its end. -/
theorem btrimws_ne_of_getLast? {name text : Bstring} {c : Char} (hc : isSpace c = true)
    (htext : text.getLast? = some c) : btrimws name ≠ text := by
  rintro rfl
  rw [btrimws, List.getLast?_reverse] at htext
  have hnot := List.head?_dropWhile_not isSpace (bltrimws name).reverse
  rw [← bltrimws, htext] at hnot
  simp [hc] at hnot

/-- **A handler whose text ends with a blank stays the first one**, if it is so at the
beginning: it is no name that can be registered. -/
theorem scoped_heads {m : Match} {c : Char} (hc : isSpace c = true)
    (htext : m.text.getLast? = some c) : Scoped (Λ := Λ) (·.Heads m) where
  congr h hhandlers hscopes := ⟨hhandlers ▸ h.head, hscopes ▸ h.kept⟩
  register {s r} hr h := by
    -- the name of a definition is trimmed, that of a directive ends in white space
    have hne : m.text ≠ r.text := by
      rcases hr with ⟨name, replacement⟩ | ⟨name, full, replacement⟩
      · exact (btrimws_ne_of_getLast? hc htext).symm
      · exact (btrimws_ne_of_getLast? hc htext).symm
    obtain ⟨rest, hrest⟩ := List.head?_eq_some_iff.mp h.head
    rw [PpState.register]
    split
    · rename_i hscopes
      refine ⟨?_, h.kept⟩
      rw [hrest]
      rfl
    · rename_i scope scopes hscopes
      refine ⟨?_, fun scope' hscope' => ?_⟩
      · rw [hrest, List.filter_cons_of_pos (by simpa using hne)]
        rfl
      · rcases List.mem_cons.mp hscope' with rfl | hscope'
        · rw [List.mem_append, List.mem_singleton]
          exact not_or.mpr ⟨h.kept scope (hscopes ▸ List.mem_cons_self), hne⟩
        · exact h.kept scope' (hscopes ▸ List.mem_cons_of_mem _ hscope')
  pushScope active h := by
    refine ⟨h.head, fun scope hscope => ?_⟩
    rcases List.mem_cons.mp hscope with rfl | hscope
    · exact List.not_mem_nil
    · exact h.kept scope hscope
  popScope {s} h := by
    obtain ⟨rest, hrest⟩ := List.head?_eq_some_iff.mp h.head
    rw [PpState.popScope]
    split
    · exact h
    · rename_i scope scopes hscopes
      have hkept := h.kept scope (hscopes ▸ List.mem_cons_self)
      refine ⟨?_, fun scope' hscope' => h.kept scope' (hscopes ▸ List.mem_cons_of_mem _ hscope')⟩
      rw [hrest, List.filter_cons_of_pos (by simpa using hkept)]
      rfl

/-- The first handler of a run of C is that of `#line`. -/
theorem run_head_handlers (lexer : Λ) (filename : Bstring) (line : UInt32) (input : List Char)
    {n : ℕ} {t : PpState Λ}
    (ht : run env (ppimplNew env lexer filename line .c input) n = .running t) :
    t.handlers.head? =
      some (directiveMatch env.caseInsensitive "#line ".toList (.lineHandle .c)) := by
  refine ((scoped_heads (c := ' ') rfl rfl).run ⟨rfl, ?_⟩ ht).head
  exact fun scope hscope => absurd hscope List.not_mem_nil

/-- **In a run no name is taken for defined**: `#ifdef` never selects its first branch, and
`#ifndef` always does, so that they do as a definition says where there is none. -/
theorem run_ifdef_iff (lexer : Λ) (filename : Bstring) (line : UInt32) (input : List Char)
    {n : ℕ} {s t u : PpState Λ} {exist : Bool} {name : Bstring}
    (hs : run env (ppimplNew env lexer filename line .c input) n = .running s)
    (hentered : s.entered = some (.ifdefGeneralHandle exist, t))
    (hname : t.paramGet env = ([.word name], u)) (hline : name ≠ "#line ".toList) :
    t.ifdefGeneralHandle env exist = u.printBranch .c true ↔ exist = false := by
  rw [ifdefGeneralHandle_first_iff exist hname]
  obtain ⟨i, m, -, -, -, -, rfl⟩ := PpState.entered_match hentered
  have hfirst : ¬ FirstNamed s.handlers name := by
    rintro ⟨m, hm, htext⟩
    rw [run_head_handlers lexer filename line input hs] at hm
    obtain rfl := Option.some.inj hm
    exact hline htext.symm
  cases exist <;> simp [hfirst]

end DcpuToolchain
