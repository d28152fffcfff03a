import DcpuToolchain.Pp.Terminates
import DcpuToolchain.Pp.Terminators

/-!
# Scopes and terminators

The scopes that are open correspond to the terminators that are on their way, as long as no
turn tampers with terminators (`DcpuToolchain.run_balanced`). A terminator is printed where
a scope is pushed, and both go together where its last character has been put out, which
is before anything else can match.

The invariant (`DcpuToolchain.PpState.Carrying`) says where in a terminator the output ends,
and that names and replacements have nothing of a terminator in them.
-/

namespace DcpuToolchain

variable {Λ : Type}

/-! ### Handlers and scopes without terminators -/

/-- What a handler prints has nothing of a terminator in it. -/
def Handler.Plain : Handler → Prop
  | .replaceHandle replacement => '\x01' ∉ replacement
  | .macroHandle full replacement => '\x01' ∉ full ∧ '\x01' ∉ replacement
  | .macroTermHandle => False
  | _ => True

structure Match.Plain (m : Match) : Prop where
  text : '\x01' ∉ m.text
  handler : m.handler.Plain

/-- The handler of the terminator is registered, and is the only one whose text has anything
of a terminator in it. -/
structure PpState.PlainHandlers (s : PpState Λ) : Prop where
  terminator : macroTermMatch ∈ s.handlers
  plain : ∀ m ∈ s.handlers, m = macroTermMatch ∨ m.Plain
  oldHandlers : ∀ scope ∈ s.scopes, ∀ m ∈ scope.oldHandlers, m.Plain
  newHandlers : ∀ scope ∈ s.scopes, ∀ name ∈ scope.newHandlers, '\x01' ∉ name

theorem Match.Plain.text_ne {m : Match} (h : m.Plain) : m.text ≠ macroTermMatch.text := by
  intro heq
  exact h.text (heq ▸ (by decide : '\x01' ∈ macroTermMatch.text))

section Handlers

variable {s t : PpState Λ} {m : Match}

theorem PpState.PlainHandlers.congr (h : s.PlainHandlers) (hhandlers : t.handlers = s.handlers)
    (hscopes : t.scopes = s.scopes) : t.PlainHandlers :=
  ⟨hhandlers ▸ h.terminator, hhandlers ▸ h.plain, hscopes ▸ h.oldHandlers,
    hscopes ▸ h.newHandlers⟩

theorem PpState.PlainHandlers.register (h : s.PlainHandlers) (hm : m.Plain) :
    (s.register m).PlainHandlers := by
  rw [PpState.register]
  split
  · rename_i hscopes
    refine ⟨List.mem_append_left _ h.terminator, fun m' hm' => ?_, h.oldHandlers, h.newHandlers⟩
    rcases List.mem_append.mp hm' with hm' | hm'
    · exact h.plain m' hm'
    · exact .inr (List.mem_singleton.mp hm' ▸ hm)
  · rename_i scope scopes hscopes
    have hscope : scope ∈ s.scopes := hscopes ▸ List.mem_cons_self
    have hrest : ∀ scope' ∈ scopes, scope' ∈ s.scopes := fun _ hm =>
      hscopes ▸ List.mem_cons_of_mem _ hm
    refine ⟨?_, fun m' hm' => ?_, fun scope' hscope' m' hm' => ?_,
      fun scope' hscope' name hname => ?_⟩
    · refine List.mem_append_left _ (List.mem_filter.mpr ⟨h.terminator, ?_⟩)
      simpa using hm.text_ne.symm
    · rcases List.mem_append.mp hm' with hm' | hm'
      · exact h.plain m' (List.mem_filter.mp hm').1
      · exact .inr (List.mem_singleton.mp hm' ▸ hm)
    · rcases List.mem_cons.mp hscope' with rfl | hscope'
      · rcases List.mem_append.mp hm' with hm' | hm'
        · exact h.oldHandlers scope hscope m' hm'
        · -- what is displaced is not the handler of the terminator
          obtain ⟨hmem, htext⟩ := List.mem_filter.mp hm'
          refine (h.plain m' hmem).resolve_left ?_
          rintro rfl
          exact hm.text_ne (of_decide_eq_true htext).symm
      · exact h.oldHandlers scope' (hrest scope' hscope') m' hm'
    · rcases List.mem_cons.mp hscope' with rfl | hscope'
      · rcases List.mem_append.mp hname with hname | hname
        · exact h.newHandlers scope hscope name hname
        · rw [List.mem_singleton.mp hname]
          exact hm.text
      · exact h.newHandlers scope' (hrest scope' hscope') name hname

theorem PpState.PlainHandlers.pushScope (h : s.PlainHandlers) (active : Bool) :
    (s.pushScope active).PlainHandlers := by
  refine ⟨h.terminator, h.plain, fun scope hscope m hm => ?_, fun scope hscope name hname => ?_⟩
  · rcases List.mem_cons.mp hscope with rfl | hscope
    · exact absurd hm List.not_mem_nil
    · exact h.oldHandlers scope hscope m hm
  · rcases List.mem_cons.mp hscope with rfl | hscope
    · exact absurd hname List.not_mem_nil
    · exact h.newHandlers scope hscope name hname

theorem PpState.PlainHandlers.popScope (h : s.PlainHandlers) : s.popScope.PlainHandlers := by
  rw [PpState.popScope]
  split
  · exact h
  · rename_i scope scopes hscopes
    have hscope : scope ∈ s.scopes := hscopes ▸ List.mem_cons_self
    have hrest : ∀ scope' ∈ scopes, scope' ∈ s.scopes := fun _ hm =>
      hscopes ▸ List.mem_cons_of_mem _ hm
    refine ⟨?_, fun m hm => ?_, fun scope' hscope' => h.oldHandlers scope' (hrest scope' hscope'),
      fun scope' hscope' => h.newHandlers scope' (hrest scope' hscope')⟩
    · refine List.mem_append_left _ (List.mem_filter.mpr ⟨h.terminator, ?_⟩)
      refine decide_eq_true fun hmem => ?_
      exact h.newHandlers scope hscope _ hmem (by decide)
    · rcases List.mem_append.mp hm with hm | hm
      · exact h.plain m (List.mem_filter.mp hm).1
      · exact .inr (h.oldHandlers scope hscope m hm)

theorem PpState.PlainHandlers.popScopes (h : s.PlainHandlers) (n : ℕ) :
    (s.popScopes n).PlainHandlers := by
  induction n generalizing s with
  | zero => exact h
  | succ n ih => exact ih h.popScope

theorem PpState.PlainHandlers.registerParameters (h : s.PlainHandlers)
    {parameters : List (Bstring × Bstring)}
    (hparameters : ∀ p ∈ parameters, '\x01' ∉ p.1 ∧ '\x01' ∉ p.2) :
    (s.registerParameters parameters).PlainHandlers := by
  induction parameters generalizing s with
  | nil => exact h
  | cons p parameters ih =>
    obtain ⟨parameter, argument⟩ := p
    have hp := hparameters _ List.mem_cons_self
    have hrest : ∀ p ∈ parameters, '\x01' ∉ p.1 ∧ '\x01' ∉ p.2 := fun p hp =>
      hparameters p (List.mem_cons_of_mem _ hp)
    rw [PpState.registerParameters]
    split
    · exact ih h hrest
    · exact ih (h.register ⟨hp.1, hp.2⟩) hrest

end Handlers

/-! ### Outside of a terminator -/

theorem carried_cons_iff {f : Frame} {frames : List Frame} {count : ℕ} :
    carried (f :: frames) = some count ↔
      ∃ n m, terminators (f.cachedOutput ++ f.pending) = some n ∧ carried frames = some m ∧
        n + m = count := by
  rw [carried, Option.map₂_eq_some_iff]
  rfl

/-- As many terminators are on their way as scopes are open, and nothing else has anything of
one in it. -/
structure PpState.Corresponds (s : PpState Λ) : Prop where
  carried : carried (s.frame :: s.parents) = some s.scopes.length
  parents : ∀ f ∈ s.parents, '\x01' ∉ f.cachedOutput
  filenames : ∀ f ∈ s.frame :: s.parents, '\x01' ∉ f.currentFilename
  handlers : s.PlainHandlers

/-- Nothing of a terminator has been put out. -/
structure PpState.Outside (s : PpState Λ) : Prop extends s.Corresponds where
  output : '\x01' ∉ s.frame.cachedOutput

section Outside

variable {s t : PpState Λ}

/-- What is printed without terminators. -/
theorem terminators_filter_append {a : List Char} (ha : '\x01' ∉ a) (b : List Char) :
    terminators (a.filter (· ≠ '\x00') ++ b) = terminators b :=
  terminators_append (fun hm => ha (List.mem_filter.mp hm).1) b

theorem PpState.Outside.counts (h : s.Outside) :
    ∃ n m, terminators s.frame.pending = some n ∧ DcpuToolchain.carried s.parents = some m ∧
      n + m = s.scopes.length := by
  obtain ⟨n, m, hn, hm, hcount⟩ := carried_cons_iff.mp h.carried
  rw [terminators_append h.output] at hn
  exact ⟨n, m, hn, hm, hcount⟩

/-- A state with the same scopes and terminators. -/
theorem PpState.Outside.congr (h : s.Outside) (hparents : t.parents = s.parents)
    (hscopes : t.scopes.length = s.scopes.length) (hhandlers : t.PlainHandlers)
    (houtput : '\x01' ∉ t.frame.cachedOutput) (hfilename : '\x01' ∉ t.frame.currentFilename)
    (hpending : DcpuToolchain.terminators t.frame.pending =
      DcpuToolchain.terminators s.frame.pending) : t.Outside where
  carried := by
    obtain ⟨n, m, hn, hm, hcount⟩ := h.counts
    refine carried_cons_iff.mpr ⟨n, m, ?_, hparents ▸ hm, hscopes ▸ hcount⟩
    rw [terminators_append houtput, hpending, hn]
  parents := hparents ▸ h.parents
  filenames := by
    intro f hf
    rcases List.mem_cons.mp hf with rfl | hf
    · exact hfilename
    · exact h.filenames f (List.mem_cons_of_mem _ (hparents ▸ hf))
  handlers := hhandlers
  output := houtput

theorem PpState.Outside.filename (h : s.Outside) : '\x01' ∉ s.frame.currentFilename :=
  h.filenames _ List.mem_cons_self

/-- Reading what has nothing of a terminator in it. -/
theorem PpState.Outside.readTo (h : s.Outside) {rest : List Char}
    (hsuffix : rest <:+ s.frame.pending) (hread : untouched s.frame.pending rest = true) :
    (s.readTo rest).Outside := by
  have hkeeps := s.frame.advanceTo_reads rest
  refine h.congr rfl rfl (h.handlers.congr rfl rfl) (hkeeps.cachedOutput ▸ h.output)
    (hkeeps.currentFilename ▸ h.filename) ?_
  rw [s.readTo_pending hsuffix, terminators_of_untouched hsuffix hread]

/-- Printing text without terminators. -/
theorem PpState.Outside.print (h : s.Outside) (hcursor : s.frame.printIndex = 0)
    {text : List Char} (htext : '\x01' ∉ text) : (s.print text).Outside := by
  refine h.congr rfl rfl (h.handlers.congr rfl rfl) h.output h.filename ?_
  change DcpuToolchain.terminators (s.frame.printf text).pending = _
  rw [s.frame.printf_pending hcursor, terminators_filter_append htext]

theorem PpState.Outside.register (h : s.Outside) {m : Match} (hm : m.Plain) :
    (s.register m).Outside := by
  have hkeeps : (s.register m).parents = s.parents ∧
      (s.register m).scopes.length = s.scopes.length ∧ (s.register m).frame = s.frame := by
    rw [PpState.register]
    split
    · exact ⟨rfl, rfl, rfl⟩
    · rename_i scope scopes hscopes
      exact ⟨rfl, by rw [hscopes]; rfl, rfl⟩
  refine h.congr hkeeps.1 hkeeps.2.1 (h.handlers.register hm) ?_ ?_ ?_
  · rw [hkeeps.2.2]
    exact h.output
  · rw [hkeeps.2.2]
    exact h.filename
  · rw [hkeeps.2.2]

theorem PpState.Outside.registerDefinition (h : s.Outside) {name full replacement : Bstring}
    {p : PpState Λ × Bool} (handler : Handler) (hname : '\x01' ∉ name) (hhandler : handler.Plain)
    (hp : s.registerDefinition name full replacement handler = .ok p) : p.1.Outside := by
  rw [PpState.registerDefinition] at hp
  split at hp
  · obtain rfl := Except.ok.inj hp
    exact h
  · obtain rfl := Except.ok.inj hp
    exact h.register ⟨hname, hhandler⟩

theorem spares_done {α : Type} {text rest : List Char} {a : α}
    {followed : α → List Char → Bool} {r : Scan α} (hr : r = .done a rest)
    (h : r.spares text followed = true) : untouched text rest = true ∧ followed a rest = true := by
  rw [hr] at h
  exact Bool.and_eq_true_iff.mp h

theorem defineHandle_outside {env : PpEnv Λ} {p : PpState Λ × Bool} (h : s.Outside)
    (hcursor : s.frame.printIndex = 0)
    (hspares : (Handler.defineHandle .asm).spares env s = true)
    (hp : s.defineHandle = .ok p) : p.1.Outside := by
  rw [PpState.defineHandle] at hp
  obtain ⟨⟨word, gettingDefinition⟩, rest, hword, hp⟩ := PpState.scan_ok hp
  obtain ⟨hread, hfollowed⟩ := spares_done hword hspares
  have hsuffix := (defineWord_leaves _ _).of_done hword
  have hplain := defineWord_plain hword hread List.not_mem_nil
  have hcursor' := (s.frame.advanceTo_reads rest).printIndex.trans hcursor
  have h' := h.readTo hsuffix hread
  dsimp only at hp
  split at hp
  · rename_i hgetting
    subst hgetting
    obtain ⟨definition, rest', hdefinition, hp⟩ := PpState.scan_ok hp
    rw [s.readTo_pending hsuffix] at hdefinition
    obtain ⟨hread', -⟩ := spares_done hdefinition hfollowed
    have hsuffix' := (defineDefinition_leaves _ _).of_done hdefinition
    rw [← s.readTo_pending hsuffix] at hsuffix' hread'
    have hprint := (h'.readTo hsuffix' hread').print
      (((s.readTo rest).frame.advanceTo_reads rest').printIndex.trans hcursor')
      (by decide : '\x01' ∉ ['\n'])
    refine hprint.registerDefinition (.replaceHandle definition) hplain ?_ hp
    rw [s.readTo_pending hsuffix] at hread'
    exact defineDefinition_plain hdefinition hread' List.not_mem_nil
  · exact (h'.print hcursor' (by decide)).registerDefinition (.replaceHandle []) hplain
      List.not_mem_nil hp

theorem cDefineHandle_outside {env : PpEnv Λ} {p : PpState Λ × Bool} (h : s.Outside)
    (hcursor : s.frame.printIndex = 0)
    (hspares : (Handler.defineHandle .c).spares env s = true)
    (hp : s.cDefineHandle = .ok p) : p.1.Outside := by
  rw [PpState.cDefineHandle] at hp
  obtain ⟨n, rest, hword, hp⟩ := PpState.scan_ok hp
  obtain ⟨hread, hfollowed⟩ := spares_done hword hspares
  have hsuffix := (macroWord_leaves _ _ _ _ _ _).of_done hword
  have hplain := macroWord_plain hword hread List.not_mem_nil List.not_mem_nil
  have hcursor' := (s.frame.advanceTo_reads rest).printIndex.trans hcursor
  have h' := h.readTo hsuffix hread
  -- the handler of the name
  have hhandler : ∀ definition : Bstring, '\x01' ∉ definition →
      Handler.Plain
        (if n.isMacro then
          .macroHandle n.word (if definition = [] ∧ n.isMacro = false then ['1'] else definition)
        else .replaceHandle
          (if definition = [] ∧ n.isMacro = false then ['1'] else definition)) := by
    intro definition hdefinition
    have hvalue : '\x01' ∉ (if definition = [] ∧ n.isMacro = false then ['1'] else definition) := by
      split
      · decide
      · exact hdefinition
    split
    · exact ⟨hplain.2, hvalue⟩
    · exact hvalue
  split at hp
  · rename_i hgetting
    obtain ⟨⟨definition, ended, continued⟩, rest', hdefinition, hp⟩ := PpState.scan_ok hp
    rw [s.readTo_pending hsuffix] at hdefinition
    rw [hgetting] at hfollowed
    obtain ⟨hread', -⟩ := spares_done hdefinition hfollowed
    obtain ⟨hplain', hended⟩ := cDefineDefinition_plain hdefinition hread' List.not_mem_nil
    have hsuffix' := (cDefineDefinition_leaves _ _ _).of_done hdefinition
    rw [← s.readTo_pending hsuffix] at hsuffix' hread'
    have h'' := h'.readTo hsuffix' hread'
    have hcursor'' := ((s.readTo rest).frame.advanceTo_reads rest').printIndex.trans hcursor'
    set u := (s.readTo rest).readTo rest'
    -- the continued lines are printed to the output
    set v : PpState Λ := { u with frame := u.frame.oprintf (List.replicate continued '\n') } with hv
    have hout : v.Outside := by
      refine h''.congr rfl rfl (h''.handlers.congr rfl rfl) ?_ h''.filename rfl
      intro hm
      rcases List.mem_append.mp hm with hm | hm
      · exact h''.output hm
      · exact absurd (List.eq_of_mem_replicate (List.mem_filter.mp hm).1) (by decide)
    cases ended with
    | line =>
      exact (hout.print hcursor'' (by decide)).registerDefinition _ hplain.1
        (hhandler definition hplain') hp
    | comment c =>
      have hcomment : ({ v with frame := v.frame.iprintf ['/', c] } : PpState Λ).Outside := by
        refine hout.congr rfl rfl (hout.handlers.congr rfl rfl) hout.output hout.filename ?_
        change terminators (v.frame.iprintf ['/', c]).pending = _
        rw [v.frame.iprintf_pending hcursor'', terminators_filter_append]
        exact notMem_snoc (s := ['/']) (by decide) (hended c rfl)
      exact hcomment.registerDefinition _ hplain.1 (hhandler definition hplain') hp
  · exact (h'.print hcursor' (by decide)).registerDefinition _ hplain.1
      (hhandler [] List.not_mem_nil) hp

theorem macroDefHandle_outside {env : PpEnv Λ} {p : PpState Λ × Bool} (h : s.Outside)
    (hspares : Handler.macroDefHandle.spares env s = true)
    (hp : s.macroDefHandle = .ok p) : p.1.Outside := by
  rw [PpState.macroDefHandle] at hp
  obtain ⟨n, rest, hword, hp⟩ := PpState.scan_ok hp
  obtain ⟨hread, hfollowed⟩ := spares_done hword hspares
  have hsuffix := (macroWord_leaves _ _ _ _ _ _).of_done hword
  have hplain := macroWord_plain hword hread List.not_mem_nil List.not_mem_nil
  have h' := h.readTo hsuffix hread
  split at hp
  · cases hp
  · obtain ⟨definition, rest', hdefinition, hp⟩ := PpState.scan_ok hp
    rw [s.readTo_pending hsuffix] at hdefinition
    obtain ⟨hread', -⟩ := spares_done hdefinition hfollowed
    have hplain' := macroDefinition_plain hdefinition hread' List.not_mem_nil
    have hsuffix' := (macroDefinition_leaves _ _ _).of_done hdefinition
    rw [← s.readTo_pending hsuffix] at hsuffix' hread'
    exact (h'.readTo hsuffix' hread').registerDefinition (.macroHandle n.word definition) hplain.1
      ⟨hplain.2, hplain'⟩ hp

theorem printBranch_outside {p : PpState Λ × Bool} {l : Language} {value : Bool} (h : s.Outside)
    (hcursor : s.frame.printIndex = 0) (hspares : l.sparesBranch s.frame.pending = true)
    (hp : s.printBranch l value = .ok p) : p.1.Outside := by
  rw [PpState.printBranch] at hp
  split at hp
  · cases hp
  · rename_i r hselect
    obtain ⟨output, rest, rfl, hp⟩ := PpState.scan_ok hp
    have hvalue : value = true := by
      by_contra hfalse
      rw [selectBranch, if_neg hfalse] at hselect
      cases hselect
    subst hvalue
    rw [Language.sparesBranch, hselect] at hspares
    obtain rfl := Except.ok.inj hp
    have hkeeps := s.frame.advanceTo_reads rest
    refine h.congr rfl rfl (h.handlers.congr rfl rfl) (hkeeps.cachedOutput ▸ h.output)
      (hkeeps.currentFilename ▸ h.filename) ?_
    have hprinted : (cString output).filter (· ≠ '\x00') = cString output := by
      rw [List.filter_eq_self]
      intro c hc
      exact List.mem_takeWhile_imp (p := (· ≠ '\x00')) hc
    change terminators ((s.readTo rest).frame.printf (cString output)).pending = _
    rw [(s.readTo rest).frame.printf_pending (hkeeps.printIndex.trans hcursor), hprinted,
      s.readTo_pending (selectBranch_leaves hselect)]
    exact of_decide_eq_true hspares

section Parameters

variable {env : PpEnv Λ} {parameters : List Parameter} {p : PpState Λ × Bool} {l : Language}

/-- Reading the parameters of a directive. -/
theorem paramGet_outside (h : s.Outside) (ht : s.paramGet env = (parameters, t))
    (hread : untouched s.frame.pending (env.paramGet s.lexer s.frame.pending).2.1 = true) :
    t.Outside ∧ t.frame.printIndex = s.frame.printIndex ∧
      t.frame.pending = (env.paramGet s.lexer s.frame.pending).2.1 := by
  have hsuffix := env.paramGet_suffix s.lexer s.frame.pending
  obtain ⟨-, rfl⟩ := Prod.mk.inj ht
  have hout := h.readTo hsuffix hread
  exact ⟨hout.congr rfl rfl (hout.handlers.congr rfl rfl) hout.output hout.filename rfl,
    (s.frame.advanceTo_reads _).printIndex, s.readTo_pending hsuffix⟩

theorem ifHandle_outside (h : s.Outside) (hcursor : s.frame.printIndex = 0)
    (hspares : (Handler.ifHandle l).spares env s = true) (hp : s.ifHandle env l = .ok p) :
    p.1.Outside := by
  obtain ⟨hread, hbranch⟩ := Bool.and_eq_true_iff.mp hspares
  unfold PpState.ifHandle at hp
  split at hp
  · rename_i evaluate t ht
    obtain ⟨hout, hcursor', hpending⟩ := paramGet_outside h ht hread
    split at hp
    · cases hp
    · exact printBranch_outside hout (hcursor'.trans hcursor) (hpending ▸ hbranch) hp
  · cases hp

theorem ifdefGeneralHandle_outside {exist : Bool} (h : s.Outside)
    (hcursor : s.frame.printIndex = 0)
    (hspares : (Handler.ifdefGeneralHandle exist).spares env s = true)
    (hp : s.ifdefGeneralHandle env exist = .ok p) : p.1.Outside := by
  obtain ⟨hread, hbranch⟩ := Bool.and_eq_true_iff.mp hspares
  rw [PpState.ifdefGeneralHandle] at hp
  split at hp
  · rename_i word t ht
    obtain ⟨hout, hcursor', hpending⟩ := paramGet_outside h ht hread
    exact printBranch_outside hout (hcursor'.trans hcursor) (hpending ▸ hbranch) hp
  · cases hp

/-- The line and the file that are tracked from a directive on. -/
def PpState.track (l : Language) (n : UInt32) (name : Bstring) (s : PpState Λ) : PpState Λ :=
  let quoted := match l with | .asm => cString name | .c => '"' :: cString name ++ ['"']
  let s := s.print (['#', ' '] ++ formatInt n ++ [' '] ++ quoted ++ ['\n'])
  { s with frame := { s.frame with currentLine := n, currentFilename := name } }

theorem lineHandle_ok (hp : s.lineHandle env l = .ok p) :
    ∃ parameters n name t, s.paramGet env = (parameters, t) ∧
      (.word name ∈ parameters ∨ .string name ∈ parameters) ∧ p.1 = t.track l n name := by
  cases l with
  | asm | c =>
    unfold PpState.lineHandle at hp
    dsimp only at hp
    split at hp
    · rename_i n name t ht
      refine ⟨_, n, name, t, ht, .inr (by simp), ?_⟩
      rw [← Except.ok.inj hp]
      rfl
    · rename_i n name t ht
      refine ⟨_, n, name, t, ht, .inl (by simp), ?_⟩
      rw [← Except.ok.inj hp]
      rfl
    · cases hp

theorem PpState.Outside.track (h : s.Outside) (hcursor : s.frame.printIndex = 0) (n : UInt32)
    {name : Bstring} (hname : '\x01' ∉ name) : (s.track l n name).Outside := by
  have hprint : ∀ quoted : Bstring, '\x01' ∉ quoted →
      (s.print (['#', ' '] ++ formatInt n ++ [' '] ++ quoted ++ ['\n'])).Outside :=
    fun quoted hquoted => h.print hcursor (by simp [notMem_formatInt, hquoted])
  cases l with
  | asm =>
    have hout := hprint (cString name) (notMem_cString hname)
    exact hout.congr rfl rfl (hout.handlers.congr rfl rfl) hout.output hname rfl
  | c =>
    have hout := hprint ('"' :: cString name ++ ['"']) (by simp [notMem_cString hname])
    exact hout.congr rfl rfl (hout.handlers.congr rfl rfl) hout.output hname rfl

theorem lineHandle_outside (henv : env.Plain) (h : s.Outside) (hcursor : s.frame.printIndex = 0)
    (hspares : (Handler.lineHandle l).spares env s = true) (hp : s.lineHandle env l = .ok p) :
    p.1.Outside := by
  obtain ⟨parameters, n, name, t, ht, hmem, heq⟩ := lineHandle_ok hp
  obtain ⟨hout, hcursor', -⟩ := paramGet_outside h ht hspares
  rw [heq]
  refine hout.track (hcursor'.trans hcursor) n ?_
  refine henv.paramGet s.lexer s.frame.pending hspares name ?_
  rw [(Prod.mk.inj ht).1]
  exact hmem

theorem ulineHandle_outside (henv : env.Plain) (h : s.Outside) (hcursor : s.frame.printIndex = 0)
    (hspares : Handler.ulineHandle.spares env s = true) (hp : s.ulineHandle env = .ok p) :
    p.1.Outside := by
  have hplain := henv.paramGet s.lexer s.frame.pending hspares
  have hprint : ∀ {t : PpState Λ} (n : UInt32) {name : Bstring}, t.Outside →
      t.frame.printIndex = 0 → '\x01' ∉ name →
      (t.print (['#', 'U', ' '] ++ formatInt n ++ [' '] ++ cString name ++ ['\n'])).Outside :=
    fun n name hout hcursor hname =>
      hout.print hcursor (by simp [notMem_formatInt, notMem_cString hname])
  rw [PpState.ulineHandle] at hp
  split at hp
  · rename_i n name t ht
    obtain ⟨hout, hcursor', -⟩ := paramGet_outside h ht hspares
    rw [← Except.ok.inj hp]
    refine hprint n hout (hcursor'.trans hcursor) (hplain name (.inr ?_))
    rw [(Prod.mk.inj ht).1]
    simp
  · rename_i n name t ht
    obtain ⟨hout, hcursor', -⟩ := paramGet_outside h ht hspares
    rw [← Except.ok.inj hp]
    refine hprint n hout (hcursor'.trans hcursor) (hplain name (.inl ?_))
    rw [(Prod.mk.inj ht).1]
    simp
  · cases hp

/-- Wherever the printing cursor is, only what is printed is added. -/
theorem Frame.mem_printf_pending {f : Frame} {text : List Char} {c : Char}
    (h : c ∈ (f.printf text).pending) : c ∈ text ∨ c ∈ f.pending := by
  have hinsert : c ∈ (f.insertPrinted (text.filter (· ≠ '\x00'))).pending := h
  rw [insertPrinted, pending, List.mem_append] at hinsert
  rw [pending, List.mem_append]
  rcases hinsert with hcached | hinput
  · dsimp only at hcached
    split at hcached
    · rcases List.mem_append.mp hcached with hcached | hdrop
      · rcases List.mem_append.mp hcached with htake | htext
        · exact .inr (.inl (List.mem_of_mem_take htake))
        · exact .inl (List.mem_filter.mp htext).1
      · exact .inr (.inl (List.mem_of_mem_drop hdrop))
    · exact .inr (.inl hcached)
  · exact .inr (.inr hinput)

/-- A new file. -/
theorem newFrame_plain (printIndex : ℕ) (line : UInt32) {filename : Bstring} {input : List Char}
    (hfilename : '\x01' ∉ filename) (hinput : '\x01' ∉ input) :
    '\x01' ∉ (newFrame printIndex filename line input).cachedOutput ∧
      '\x01' ∉ (newFrame printIndex filename line input).pending ∧
      '\x01' ∉ (newFrame printIndex filename line input).currentFilename := by
  have hmark : ∀ f : Frame, '\x01' ∉ f.currentFilename → '\x01' ∉ f.lineMark ++ ['\n'] := by
    intro f hf
    simp [Frame.lineMark, notMem_formatInt, notMem_cString hf]
  rw [newFrame]
  set f : Frame := ⟨[], input, [], line - 1, line, filename, false, false, printIndex, none⟩ with hf
  have hprinted := hmark f hfilename
  have hput := hmark (f.printf (f.lineMark ++ ['\n'])) hfilename
  refine ⟨fun hm => ?_, fun hm => ?_, hfilename⟩
  · rcases List.mem_append.mp hm with hm | hm
    · cases hm
    · exact hput (List.mem_filter.mp hm).1
  · rcases Frame.mem_printf_pending hm with hm | hm
    · exact hprinted hm
    · exact hinput hm

theorem includeHandle_outside (henv : env.Plain) (h : s.Outside)
    (hspares : (Handler.includeHandle l).spares env s = true) (hp : s.includeHandle env l = .ok p) :
    p.1.Outside := by
  have hinclude : ∀ {t : PpState Λ} {path path' : Bstring} {contents : List Char}, t.Outside →
      env.locate path = some (path', contents) →
      ({ t with
        frame := newFrame env.printIndex path' 1 contents
        parents := t.frame :: t.parents } : PpState Λ).Outside := by
    intro t path path' contents hout hlocate
    obtain ⟨hpath, hcontents⟩ := henv.locate _ _ _ hlocate
    obtain ⟨houtput, hpending, hfilename⟩ := newFrame_plain env.printIndex 1 hpath hcontents
    refine ⟨⟨?_, ?_, ?_, hout.handlers.congr rfl rfl⟩, houtput⟩
    · refine carried_cons_iff.mpr ⟨0, _, ?_, hout.carried, Nat.zero_add _⟩
      rw [terminators_append houtput, terminators_of_notMem hpending]
    · exact List.forall_mem_cons.mpr ⟨hout.output, hout.parents⟩
    · exact List.forall_mem_cons.mpr ⟨hfilename, hout.filenames⟩
  unfold PpState.includeHandle at hp
  dsimp only at hp
  split at hp
  · rename_i path t ht
    obtain ⟨hout, -, -⟩ := paramGet_outside h ht hspares
    split at hp
    · cases hp
    · rename_i path' contents hlocate
      rw [← Except.ok.inj hp]
      exact hinclude hout hlocate
  · rename_i path t ht
    obtain ⟨hout, -, -⟩ := paramGet_outside h ht hspares
    split at hp
    · cases hp
    · rename_i path' contents hlocate
      rw [← Except.ok.inj hp]
      exact hinclude hout hlocate
  · cases hp

end Parameters

/-- The terminators before the bracket of a macro call, and their scopes. -/
theorem PpState.Outside.popScopes (h : s.Outside) {pops : ℕ} {text : List Char}
    (hopen : openBracket [] 0 s.frame.pending = .done pops text) :
    ((s.readTo text).popScopes pops).Outside := by
  obtain ⟨n, m, hn, hm, hcount⟩ := h.counts
  obtain ⟨left, hleft, hpops⟩ := openBracket_terminators hopen hn
  have hsuffix := (openBracket_leaves _ _ _).of_done hopen
  have hpopped := popScopes_pops (s.readTo text) pops
  have hread := s.frame.advanceTo_reads text
  have houtput : '\x01' ∉ ((s.readTo text).popScopes pops).frame.cachedOutput := fun hmem =>
    h.output (hread.cachedOutput ▸ hpopped.output.subset hmem)
  refine ⟨⟨?_, ?_, ?_, (h.handlers.congr (t := s.readTo text) rfl rfl).popScopes pops⟩, houtput⟩
  · refine carried_cons_iff.mpr ⟨left, m, ?_, hpopped.parents ▸ hm, ?_⟩
    · rw [terminators_append houtput, hpopped.pending, s.readTo_pending hsuffix, hleft]
    · rw [hpopped.scopes, List.length_drop]
      change left + m = s.scopes.length - pops
      omega
  · rw [hpopped.parents]
    exact h.parents
  · rw [hpopped.parents, List.forall_mem_cons, hpopped.currentFilename]
    exact ⟨hread.currentFilename ▸ h.filename, fun f hf =>
      h.filenames f (List.mem_cons_of_mem _ hf)⟩

/-- **The expansion of a macro**: a scope is pushed, and its terminator is printed. -/
theorem PpState.Outside.expand (h : s.Outside) (hcursor : s.frame.printIndex = 0)
    {parameters : List (Bstring × Bstring)} {replacement : Bstring}
    (hparameters : ∀ p ∈ parameters, '\x01' ∉ p.1 ∧ '\x01' ∉ p.2)
    (hreplacement : '\x01' ∉ replacement) :
    (((s.pushScope true).registerParameters parameters).print
      (cString replacement ++ macroTerminate)).Outside := by
  obtain ⟨n, m, hn, hm, hcount⟩ := h.counts
  have hhandlers := (h.handlers.pushScope true).registerParameters hparameters
  obtain ⟨hframe, hparents, hscopes⟩ :=
    registerParameters_keeps (s.pushScope true) parameters nofun
  set t := (s.pushScope true).registerParameters parameters
  have hprinted : (t.frame.printf (cString replacement ++ macroTerminate)).pending =
      (cString replacement).filter (· ≠ '\x00') ++ (macroTerminate ++ s.frame.pending) := by
    rw [t.frame.printf_pending (hframe ▸ hcursor), hframe, List.filter_append, List.append_assoc]
    rfl
  have houtput : '\x01' ∉ t.frame.cachedOutput := by
    rw [hframe]
    exact h.output
  refine ⟨⟨?_, ?_, ?_, hhandlers.congr rfl rfl⟩, houtput⟩
  · refine carried_cons_iff.mpr ⟨n + 1, m, ?_, ?_, ?_⟩
    · change terminators (t.frame.cachedOutput ++ (t.frame.printf _).pending) = _
      rw [hprinted, terminators_append houtput,
        terminators_filter_append (notMem_cString hreplacement), terminators_macroTerminate, hn]
      rfl
    · change carried t.parents = _
      rw [hparents]
      exact hm
    · change n + 1 + m = t.scopes.length
      rw [hscopes]
      change n + 1 + m = s.scopes.length + 1
      omega
  · change ∀ f ∈ t.parents, _
    rw [hparents]
    exact h.parents
  · change ∀ f ∈ t.frame.printf _ :: t.parents, _
    rw [hparents, List.forall_mem_cons]
    refine ⟨?_, fun f hf => h.filenames f (List.mem_cons_of_mem _ hf)⟩
    change '\x01' ∉ t.frame.currentFilename
    rw [hframe]
    exact h.filename

theorem macroHandle_outside {env : PpEnv Λ} {p : PpState Λ × Bool} {full replacement : Bstring}
    (h : s.Outside) (hcursor : s.frame.printIndex = 0)
    (hplain : (Handler.macroHandle full replacement).Plain)
    (hspares : (Handler.macroHandle full replacement).spares env s = true)
    (hp : s.macroHandle full replacement = .ok p) : p.1.Outside := by
  rw [PpState.macroHandle] at hp
  obtain ⟨pops, text, hopen, hp⟩ := PpState.scan_ok hp
  have hsuffix := (openBracket_leaves _ _ _).of_done hopen
  rw [Handler.spares, hopen] at hspares
  dsimp only at hspares hp
  have hpopped := popScopes_pops (s.readTo text) pops
  have hout := h.popScopes hopen
  have hcursor' := hpopped.printIndex.trans
    ((s.frame.advanceTo_reads text).printIndex.trans hcursor)
  set u := (s.readTo text).popScopes pops
  have hpending : u.frame.pending = text := hpopped.pending.trans (s.readTo_pending hsuffix)
  rw [← hpending] at hspares
  split at hp
  · cases hp
  · rename_i arguments rest harguments
    rw [harguments] at hspares
    have hread : untouched u.frame.pending rest = true := hspares
    split at hp
    · cases hp
    · split at hp
      · cases hp
      · rw [← Except.ok.inj hp]
        have hplainArguments := readArguments_plain harguments hread List.not_mem_nil
          (fun a ha => absurd ha List.not_mem_nil)
        refine (hout.readTo (readArguments_suffix harguments) hread).expand
          ((u.frame.advanceTo_reads rest).printIndex.trans hcursor') (fun q hq => ?_) hplain.2
        exact ⟨macroParameters_plain hplain.1 q.1 (List.of_mem_zip hq).1,
          hplainArguments q.2 (List.of_mem_zip hq).2⟩

/-- **Every handler but that of the terminator** keeps scopes and terminators in step. -/
theorem handle_outside {env : PpEnv Λ} {p : PpState Λ × Bool} {handler : Handler}
    (henv : env.Plain) (h : s.Outside) (hcursor : s.frame.printIndex = 0)
    (hplain : handler.Plain) (hspares : handler.spares env s = true)
    (hp : s.handle env handler = .ok p) : p.1.Outside := by
  cases handler with
  | replaceHandle replacement =>
    obtain rfl := Except.ok.inj hp
    exact h.print hcursor (notMem_cString hplain)
  | macroHandle full replacement => exact macroHandle_outside h hcursor hplain hspares hp
  | macroTermHandle => exact absurd hplain id
  | defineHandle l =>
    cases l with
    | asm => exact defineHandle_outside h hcursor hspares hp
    | c => exact cDefineHandle_outside h hcursor hspares hp
  | macroDefHandle => exact macroDefHandle_outside h hspares hp
  | ifHandle l => exact ifHandle_outside h hcursor hspares hp
  | ifdefGeneralHandle exist => exact ifdefGeneralHandle_outside h hcursor hspares hp
  | elseHandle l | endifHandle l => cases l <;> cases hp
  | includeHandle l => exact includeHandle_outside henv h hspares hp
  | lineHandle l => exact lineHandle_outside henv h hcursor hspares hp
  | ulineHandle => exact ulineHandle_outside henv h hcursor hspares hp

end Outside

/-! ### Turns -/

/-- Where the output ends: outside of a terminator, within one, the rest of which comes next,
or at the end of one, with its handler still to be tried. -/
inductive PpState.Position (s : PpState Λ) : Prop
  | outside (houtput : '\x01' ∉ s.frame.cachedOutput)
  | within (before put rest text : List Char) (c : Char) (hbefore : '\x01' ∉ before)
    (houtput : s.frame.cachedOutput = before ++ put) (hput : put ≠ [])
    (hterminator : put ++ c :: rest = macroTerminate)
    (hpending : s.frame.pending = c :: rest ++ text)
    (hstring : s.frame.inSingleString = false ∧ s.frame.inDoubleString = false)
  | ended (before : List Char) (i : ℕ) (hbefore : '\x01' ∉ before)
    (houtput : s.frame.cachedOutput = before ++ macroTerminate) (hnext : s.frame.next = some i)
    (hhandler : macroTermMatch ∈ s.handlers.drop i)

/-- **The invariant.** -/
structure PpState.Carrying (s : PpState Λ) : Prop extends s.Corresponds where
  position : s.Position

theorem PpState.Outside.carrying {s : PpState Λ} (h : s.Outside) : s.Carrying :=
  ⟨h.toCorresponds, .outside h.output⟩

theorem toLower_eq_start {c : Char} (h : c.toLower = '\x01') : c = '\x01' := by
  delta Char.toLower at h
  split at h
  · rename_i hupper
    have hval := congrArg (fun c : Char => c.val.toNat) h
    have hlow : ('A' : Char).val.toNat ≤ c.val.toNat := hupper.1
    have hhigh : c.val.toNat ≤ ('Z' : Char).val.toNat := hupper.2
    have h65 : ('A' : Char).val.toNat = 65 := rfl
    have h90 : ('Z' : Char).val.toNat = 90 := rfl
    have hone : ('\x01' : Char).val.toNat = 1 := rfl
    have h32 : (('a' : Char).val - ('A' : Char).val).toNat = 32 := rfl
    simp only [UInt32.toNat_add, h32, hone] at hval
    omega
  · exact h

/-- What is matched has nothing of a terminator in it if the text of the match has not. -/
theorem notMem_of_matchesText {m : Match} {output : List Char}
    (h : matchesText m output = true) (hm : '\x01' ∉ m.text)
    (hbefore : '\x01' ∉ output.take (output.length - m.text.length)) : '\x01' ∉ output := by
  rw [← List.take_append_drop (output.length - m.text.length) output, List.mem_append, not_or]
  refine ⟨hbefore, fun hmem => hm ?_⟩
  rw [matchesText] at h
  split at h
  · have hlower := List.suffix_iff_eq_drop.mp (List.isSuffixOf_iff_suffix.mp h)
    rw [btolower, btolower, List.length_map, List.length_map, ← List.map_drop] at hlower
    have hmap := List.mem_map_of_mem (f := Char.toLower) hmem
    rw [← hlower] at hmap
    obtain ⟨c, hc, hlow⟩ := List.mem_map.mp hmap
    obtain rfl := toLower_eq_start hlow
    exact hc
  · rw [List.suffix_iff_eq_drop.mp (List.isSuffixOf_iff_suffix.mp h)]
    exact hmem

theorem matchTest_matchesText {f : Frame} {m : Match} (h : (f.matchTest m).1 = true) :
    matchesText m f.cachedOutput = true := by
  rw [Frame.matchTest] at h
  split at h
  · cases h
  · rename_i hmatches
    simpa using hmatches

section Turns

variable {env : PpEnv Λ} {s t : PpState Λ}

/-- **The handler of the terminator**: a terminator is removed from the output and its scope
is popped. -/
theorem PpState.Corresponds.popTerminator (h : s.Corresponds) {before : List Char}
    (hbefore : '\x01' ∉ before) (houtput : s.frame.cachedOutput = before ++ macroTerminate)
    {f : Frame} (hf : f.cachedOutput = before) (hpending : f.pending = s.frame.pending)
    (hfilename : f.currentFilename = s.frame.currentFilename) :
    ({ s with frame := f } : PpState Λ).popScope.Outside := by
  have hpop := popScope_pops ({ s with frame := f } : PpState Λ)
  have hhandlers := (h.handlers.congr (t := { s with frame := f }) rfl rfl).popScope
  set u := ({ s with frame := f } : PpState Λ).popScope
  obtain ⟨n, m, hn, hm, hcount⟩ := carried_cons_iff.mp h.carried
  rw [houtput, List.append_assoc, terminators_append hbefore, terminators_macroTerminate] at hn
  obtain ⟨k, hk, rfl⟩ := Option.map_eq_some_iff.mp hn
  have hout : '\x01' ∉ u.frame.cachedOutput := fun hmem =>
    hbefore (hf ▸ hpop.output.subset hmem)
  refine ⟨⟨?_, ?_, ?_, hhandlers⟩, hout⟩
  · refine carried_cons_iff.mpr ⟨k, m, ?_, hpop.parents ▸ hm, ?_⟩
    · rw [terminators_append hout, hpop.pending]
      exact hpending ▸ hk
    · rw [hpop.scopes, List.length_drop]
      change k + m = s.scopes.length - 1
      omega
  · rw [hpop.parents]
    exact h.parents
  · rw [hpop.parents, List.forall_mem_cons, hpop.currentFilename]
    exact ⟨hfilename ▸ h.filenames _ List.mem_cons_self, fun f hf =>
      h.filenames f (List.mem_cons_of_mem _ hf)⟩

/-- A turn that enters a handler. -/
theorem PpState.Carrying.entered (henv : env.Plain) (h : s.Carrying)
    (hspares : s.sparesTerminators env = true) {handler : Handler} {u : PpState Λ}
    (hs : s.entered = some (handler, u)) {p : PpState Λ × Bool}
    (hp : u.handle env handler = .ok p) :
    p.1.Outside := by
  rw [PpState.sparesTerminators, hs] at hspares
  obtain ⟨-, hturn⟩ := Bool.and_eq_true_iff.mp hspares
  obtain ⟨hout, hspare⟩ := Bool.and_eq_true_iff.mp hturn
  have houtput : '\x01' ∉ u.frame.cachedOutput := by simpa using hout
  obtain ⟨i, m, hnext, hm, hfound, rfl, rfl⟩ := PpState.entered_match hs
  have hreads := s.frame.matchTest_reads m
  have hmatches := matchTest_matchesText hfound
  have hbefore : '\x01' ∉
      s.frame.cachedOutput.take (s.frame.cachedOutput.length - m.text.length) := by
    rw [← hreads.cachedOutput]
    exact houtput
  rcases h.handlers.plain m (List.mem_of_getElem? hm) with rfl | hplain
  · obtain rfl := Except.ok.inj hp
    have hsuffix : macroTerminate <:+ s.frame.cachedOutput := List.isSuffixOf_iff_suffix.mp hmatches
    refine h.popTerminator hbefore ?_ ?_ ?_ ?_
    · exact (List.suffix_iff_eq_append.mp hsuffix).symm
    · change (s.frame.matchTest macroTermMatch).2.outputBefore macroTerminate = _
      rw [Frame.outputBefore, hreads.cachedOutput]
      rfl
    · exact s.frame.matchTest_pending macroTermMatch
    · exact hreads.currentFilename
  · have hs' : s.Outside := ⟨h.toCorresponds, notMem_of_matchesText hmatches hplain.text hbefore⟩
    refine handle_outside henv ?_ rfl hplain.handler hspare hp
    refine hs'.congr rfl rfl (hs'.handlers.congr rfl rfl) houtput ?_ ?_
    · change '\x01' ∉ (s.frame.matchTest m).2.currentFilename
      rw [hreads.currentFilename]
      exact hs'.filename
    · change terminators (s.frame.matchTest m).2.pending = _
      rw [s.frame.matchTest_pending]

/-- A turn that tries a handler in vain. -/
theorem PpState.Carrying.next (h : s.Carrying) {i : ℕ} {m : Match} (hnext : s.frame.next = some i)
    (hm : s.handlers[i]? = some m) (hfound : ¬ (s.frame.matchTest m).1 = true) :
    ({ s with frame := { (s.frame.matchTest m).2 with next := some (i + 1) } } :
      PpState Λ).Carrying := by
  have hreads := s.frame.matchTest_reads m
  have hpending := s.frame.matchTest_pending m
  set f : Frame := { (s.frame.matchTest m).2 with next := some (i + 1) } with hf
  have hfoutput : f.cachedOutput = s.frame.cachedOutput := hreads.cachedOutput
  have hfpending : f.pending = s.frame.pending := hpending
  refine ⟨⟨?_, h.parents, ?_, h.handlers.congr rfl rfl⟩, ?_⟩
  · change carried (f :: s.parents) = _
    rw [carried, hfoutput, hfpending]
    exact h.carried
  · refine List.forall_mem_cons.mpr ⟨?_, fun g hg => h.filenames g (List.mem_cons_of_mem _ hg)⟩
    change '\x01' ∉ (s.frame.matchTest m).2.currentFilename
    rw [hreads.currentFilename]
    exact h.filenames _ List.mem_cons_self
  · cases h.position with
    | outside houtput => exact .outside (hfoutput ▸ houtput)
    | within before put rest text c hbefore houtput hput hterminator hpend hstring =>
      exact .within before put rest text c hbefore (hfoutput.trans houtput) hput hterminator
        (hfpending.trans hpend) ⟨hreads.inSingleString.trans hstring.1,
          hreads.inDoubleString.trans hstring.2⟩
    | ended before j hbefore houtput hj hhandler =>
      rw [hnext] at hj
      obtain rfl := Option.some.inj hj
      refine .ended before (i + 1) hbefore (hfoutput.trans houtput) rfl ?_
      rw [List.drop_eq_getElem?_toList_append, hm] at hhandler
      refine (List.mem_cons.mp hhandler).resolve_left ?_
      rintro rfl
      refine hfound ?_
      have hmatches : matchesText macroTermMatch s.frame.cachedOutput = true :=
        List.isSuffixOf_iff_suffix.mpr ⟨before, houtput.symm⟩
      rw [Frame.matchTest, if_neg (by simp [hmatches])]
      rfl

theorem mem_macroTerminate {c : Char} (h : c ∈ macroTerminate) :
    c ≠ '\'' ∧ c ≠ '"' ∧ c ≠ '\n' := by
  have hall : macroTerminate.all (fun c => c ≠ '\'' ∧ c ≠ '"' ∧ c ≠ '\n') = true := by decide
  exact of_decide_eq_true (List.all_eq_true.mp hall c h)

/-- **A turn that fetches a character.** -/
theorem PpState.Carrying.fetch (h : s.Carrying) (hspares : s.sparesTerminators env = true)
    (hnext : s.frame.next = none) (hne : s.frame.pending ≠ []) :
    ({ s with frame := s.frame.fetch } : PpState Λ).Carrying := by
  obtain ⟨c, text, hpending⟩ := List.exists_cons_of_ne_nil hne
  have hfetchPending : s.frame.fetch.pending = text := by
    rw [s.frame.fetch_pending, hpending, List.tail_cons]
  obtain ⟨g, mark, hfetch, hout, hcorrection, hname, hsingle, hdouble⟩ :=
    Frame.fetch_cons hpending
  have hmark : c ≠ '\n' → mark = [] := fun hc => hcorrection.resolve_right fun hand => hc hand.1
  have hplain : '\x01' ∉ s.frame.currentFilename → '\x01' ∉ mark := by
    rcases hcorrection with rfl | ⟨-, line, rfl⟩
    · exact fun _ => List.not_mem_nil
    · exact notMem_lineCorrection line (by decide) (by decide)
  obtain ⟨hkeeps, hkeepsName⟩ := g.trackStrings_keeps
  have hfilename : '\x01' ∉ s.frame.currentFilename := h.filenames _ List.mem_cons_self
  have hfetchOutput : s.frame.fetch.cachedOutput = s.frame.cachedOutput ++ mark ++ [c] := by
    rw [hfetch, ← hout]
    exact hkeeps
  have hfetchName : '\x01' ∉ s.frame.fetch.currentFilename := by
    rw [hfetch]
    change '\x01' ∉ g.trackStrings.currentFilename
    rw [hkeepsName, hname]
    exact hfilename
  have hnames : ∀ f ∈ s.frame.fetch :: s.parents, '\x01' ∉ f.currentFilename :=
    List.forall_mem_cons.mpr ⟨hfetchName, fun f hf =>
      h.filenames f (List.mem_cons_of_mem _ hf)⟩
  -- where the character is part of a terminator, it is put out as it is
  have hcarried : mark = [] → carried (s.frame.fetch :: s.parents) = some s.scopes.length := by
    rintro rfl
    rw [carried, hfetchOutput, hfetchPending, List.append_nil, List.append_assoc,
      List.singleton_append, ← hpending]
    exact h.carried
  have hstrings : s.frame.inSingleString = false ∧ s.frame.inDoubleString = false →
      c ∈ macroTerminate →
      (s.frame.fetch.inSingleString = false ∧ s.frame.fetch.inDoubleString = false) ∧
        s.frame.fetch.next = some 0 := by
    intro hstring hc
    obtain ⟨hquote, hquotes, -⟩ := mem_macroTerminate hc
    have hg := Frame.trackStrings_outside (hsingle ▸ hdouble ▸ hstring) hout hquote hquotes
    rw [hfetch]
    exact ⟨hg, if_neg (by simp [hg])⟩
  cases h.position with
  | outside houtput =>
    by_cases hc : c = '\x01'
    · subst hc
      have hstring : s.frame.inSingleString = false ∧ s.frame.inDoubleString = false := by
        have hfirst := (Bool.and_eq_true_iff.mp hspares).1
        simpa [hnext, hpending] using hfirst
      obtain rfl := hmark (by decide)
      obtain ⟨n, -, hn, -⟩ := carried_cons_iff.mp h.carried
      rw [terminators_append houtput, hpending] at hn
      obtain ⟨rest, -, rfl, -⟩ := @terminatorsFrom_eq_some 'M' "ACROTERMINATE\x01".toList
        text n hn
      refine ⟨⟨hcarried rfl, h.parents, hnames, h.handlers.congr rfl rfl⟩, ?_⟩
      refine .within s.frame.cachedOutput ['\x01'] "ACROTERMINATE\x01".toList rest 'M' houtput ?_
        (List.cons_ne_nil _ _) rfl hfetchPending (hstrings hstring (by decide)).1
      rw [hfetchOutput, List.append_nil]
    · have hfetched : '\x01' ∉ s.frame.cachedOutput ++ mark ++ [c] := by
        simp [houtput, hplain hfilename, Ne.symm hc]
      have hout' : '\x01' ∉ s.frame.fetch.cachedOutput := hfetchOutput ▸ hfetched
      have hs : s.Outside := ⟨h.toCorresponds, houtput⟩
      refine (hs.congr (t := { s with frame := s.frame.fetch }) rfl rfl
        (hs.handlers.congr rfl rfl) hout' hfetchName ?_).carrying
      change terminators s.frame.fetch.pending = _
      rw [hfetchPending, hpending, ← List.singleton_append,
        terminators_append (List.mem_singleton.not.mpr (Ne.symm hc))]
  | within before put rest text' c' hbefore houtput hput hterminator hpend hstring =>
    rw [hpending] at hpend
    obtain ⟨rfl, rfl⟩ := List.cons.inj hpend
    have hc : c ∈ macroTerminate := hterminator ▸ List.mem_append_right _ List.mem_cons_self
    obtain rfl := hmark (mem_macroTerminate hc).2.2
    obtain ⟨hstring', hnext'⟩ := hstrings hstring hc
    have hput' : s.frame.fetch.cachedOutput = before ++ (put ++ [c]) := by
      rw [hfetchOutput, List.append_nil, houtput, List.append_assoc]
    refine ⟨⟨hcarried rfl, h.parents, hnames, h.handlers.congr rfl rfl⟩, ?_⟩
    cases rest with
    | nil => exact .ended before 0 hbefore (hterminator ▸ hput') hnext' h.handlers.terminator
    | cons c' rest =>
      refine .within before (put ++ [c]) rest text' c' hbefore hput' (by simp) ?_ hfetchPending
        hstring'
      rw [← hterminator, List.append_assoc]
      rfl
  | ended before i hbefore houtput hi hhandler =>
    rw [hnext] at hi
    cases hi

/-- A turn that finds no handler left to try. -/
theorem PpState.Carrying.exhausted (h : s.Carrying) {i : ℕ} (hnext : s.frame.next = some i)
    (hi : s.handlers[i]? = none) :
    ({ s with frame := { s.frame with next := none } } : PpState Λ).Carrying := by
  refine ⟨⟨h.carried, h.parents, List.forall_mem_cons.mpr (List.forall_mem_cons.mp h.filenames),
    h.handlers.congr rfl rfl⟩, ?_⟩
  cases h.position with
  | outside houtput => exact .outside houtput
  | within before put rest text c hbefore houtput hput hterminator hpending hstring =>
    exact .within before put rest text c hbefore houtput hput hterminator hpending hstring
  | ended before j hbefore houtput hj hhandler =>
    rw [hnext] at hj
    obtain rfl := Option.some.inj hj
    rw [List.drop_eq_nil_of_le (List.getElem?_eq_none_iff.mp hi)] at hhandler
    exact absurd hhandler List.not_mem_nil

/-- Where the input is used up and the handlers have been tried, nothing of a terminator is
in the output. -/
theorem PpState.Carrying.outside (h : s.Carrying) (hnext : s.frame.next = none)
    (hempty : s.frame.pending = []) : s.Outside := by
  refine ⟨h.toCorresponds, ?_⟩
  cases h.position with
  | outside houtput => exact houtput
  | within before put rest text c hbefore houtput hput hterminator hpending hstring =>
    rw [hempty] at hpending
    cases hpending
  | ended before i hbefore houtput hi hhandler =>
    rw [hnext] at hi
    cases hi

/-- The end of an included file. -/
theorem PpState.Carrying.includeDone (h : s.Carrying) (hnext : s.frame.next = none)
    (hempty : s.frame.pending = []) {parent : Frame} {parents : List Frame}
    (hparents : s.parents = parent :: parents) :
    ({ s with
      frame := PpState.includeDone parent s.frame.cachedOutput
      parents := parents } : PpState Λ).Carrying := by
  have hs := h.outside hnext hempty
  obtain ⟨n, m, hn, hm, hcount⟩ := hs.counts
  rw [hempty] at hn
  obtain rfl : 0 = n := Option.some.inj hn
  rw [Nat.zero_add] at hcount
  have hparent : '\x01' ∉ parent.cachedOutput :=
    h.parents parent (hparents ▸ List.mem_cons_self)
  have hname : '\x01' ∉ parent.currentFilename :=
    h.filenames parent (List.mem_cons_of_mem _ (hparents ▸ List.mem_cons_self))
  have hput : ∀ {f : Frame} {text : List Char}, '\x01' ∉ f.cachedOutput → '\x01' ∉ text →
      '\x01' ∉ (f.oprintf text).cachedOutput := by
    intro f text hf htext hmem
    rcases List.mem_append.mp hmem with hmem | hmem
    · exact hf hmem
    · exact htext (List.mem_filter.mp hmem).1
  have hout : '\x01' ∉ (PpState.includeDone parent s.frame.cachedOutput).cachedOutput := by
    refine hput (hput hparent hs.output) ?_
    simp [Frame.lineMark, notMem_formatInt, notMem_cString hname]
  rw [hparents, carried_cons_iff] at hm
  obtain ⟨n, m, hn, hm, rfl⟩ := hm
  rw [terminators_append hparent] at hn
  refine PpState.Outside.carrying ⟨⟨?_, ?_, ?_, h.handlers.congr rfl rfl⟩, hout⟩
  · refine carried_cons_iff.mpr ⟨n, m, ?_, hm, hcount⟩
    rw [terminators_append hout]
    exact hn
  · exact fun f hf => h.parents f (hparents ▸ List.mem_cons_of_mem _ hf)
  · refine List.forall_mem_cons.mpr ⟨hname, fun f hf => ?_⟩
    exact h.filenames f (List.mem_cons_of_mem _ (hparents ▸ List.mem_cons_of_mem _ hf))

/-- **One turn keeps the invariant.** -/
theorem PpState.Carrying.step (henv : env.Plain) (h : s.Carrying)
    (hspares : s.sparesTerminators env = true) (ht : step env s = .running t) : t.Carrying := by
  rcases hs : s.entered with - | ⟨handler, u⟩
  · rcases step_of_not_entered hs ht with ⟨i, m, hnext, hm, hfound, rfl⟩ | ⟨i, hnext, hm, rfl⟩ |
      ⟨hnext, hempty, parent, parents, hparents, rfl⟩ | ⟨hnext, hne, rfl⟩
    · exact h.next hnext hm hfound
    · exact h.exhausted hnext hm
    · exact h.includeDone hnext hempty hparents
    · exact h.fetch hspares hnext hne
  · rw [step_of_entered env hs] at ht
    rcases hp : u.handle env handler with why | ⟨p, reprocess⟩
    · rw [hp] at ht
      cases ht
    · rw [hp] at ht
      have hout := h.entered henv hspares hs hp
      rw [← Outcome.running.inj ht]
      cases reprocess with
      | false => exact hout.carrying
      | true => exact (hout.congr (t := { p with frame := { p.frame with next := some 0 } }) rfl rfl
          (hout.handlers.congr rfl rfl) hout.output hout.filename rfl).carrying

end Turns

/-! ### Runs -/

/-- Short of its last character, a terminator is not there. -/
theorem not_infix_within {before put rest : List Char} {c : Char} (hbefore : '\x01' ∉ before)
    (hterminator : put ++ c :: rest = macroTerminate) : ¬ macroTerminate <:+: before ++ put := by
  intro h
  have hlast : '\x01' ∈ c :: rest := by
    have hget : macroTerminate.getLast? = some '\x01' := by decide
    rw [← hterminator, List.getLast?_append_cons] at hget
    exact List.mem_of_getLast? hget
  have hcount : macroTerminate.count '\x01' = 2 := by decide
  have hle := h.sublist.count_le '\x01'
  rw [hcount, List.count_append, List.count_eq_zero_of_not_mem hbefore] at hle
  rw [← hterminator, List.count_append] at hcount
  have hpos := List.count_pos_iff.mpr hlast
  omega

theorem not_infix_outside {output : List Char} (h : '\x01' ∉ output) :
    ¬ macroTerminate <:+: output :=
  fun hinside => h (hinside.subset (by decide))

theorem PpState.Carrying.balanced {s : PpState Λ} (h : s.Carrying) : s.Balanced where
  carried := h.carried
  output hnext := by
    cases h.position with
    | outside houtput => exact not_infix_outside houtput
    | within before put rest text c hbefore houtput hput hterminator hpending hstring =>
      rw [houtput]
      exact not_infix_within hbefore hterminator
    | ended before i hbefore houtput hi hhandler =>
      rw [hnext] at hi
      cases hi
  parents f hf := not_infix_outside (h.parents f hf)
  popped u hu := by
    obtain ⟨i, m, -, hm, hfound, hhandler, -⟩ := PpState.entered_match hu
    have hterm : m = macroTermMatch := by
      refine (h.handlers.plain m (List.mem_of_getElem? hm)).resolve_right fun hplain => ?_
      have hhandlerPlain := hplain.handler
      rw [← hhandler] at hhandlerPlain
      exact hhandlerPlain
    subst hterm
    have hsuffix : macroTerminate <:+ s.frame.cachedOutput :=
      List.isSuffixOf_iff_suffix.mp (matchTest_matchesText hfound)
    cases h.position with
    | outside houtput => exact absurd hsuffix.isInfix (not_infix_outside houtput)
    | within before put rest text c hbefore houtput hput hterminator hpending hstring =>
      exact absurd (houtput ▸ hsuffix.isInfix) (not_infix_within hbefore hterminator)
    | ended before j hbefore houtput hj hmem =>
      obtain ⟨n, m, hn, -, hcount⟩ := carried_cons_iff.mp h.carried
      rw [houtput, List.append_assoc, terminators_append hbefore,
        terminators_macroTerminate] at hn
      obtain ⟨k, -, rfl⟩ := Option.map_eq_some_iff.mp hn
      rw [← List.length_pos_iff]
      omega

theorem initialHandlers_plain (caseInsensitive : Bool) (lang : Language) :
    macroTermMatch ∈ initialHandlers caseInsensitive lang ∧
      ∀ m ∈ initialHandlers caseInsensitive lang, m = macroTermMatch ∨ m.Plain := by
  have hdirective : ∀ (caseInsensitive : Bool) (text : Bstring) (handler : Handler),
      '\x01' ∉ text → handler.Plain → (directiveMatch caseInsensitive text handler).Plain :=
    fun _ _ _ htext hhandler => ⟨htext, hhandler⟩
  cases lang with
  | asm | c =>
    refine ⟨by simp [initialHandlers], fun m hm => ?_⟩
    simp only [initialHandlers, List.mem_cons, List.not_mem_nil, or_false] at hm
    casesm* _ ∨ _
    all_goals subst m
    all_goals first
      | exact .inr (hdirective _ _ _ (by decide) trivial)
      | exact .inl rfl

theorem ppimplNew_carrying (env : PpEnv Λ) (lexer : Λ) {filename : Bstring} (line : UInt32)
    (lang : Language) {input : List Char} (hfilename : '\x01' ∉ filename)
    (hinput : '\x01' ∉ input) : (ppimplNew env lexer filename line lang input).Carrying := by
  obtain ⟨houtput, hpending, hname⟩ := newFrame_plain env.printIndex
    (if line = 0 then 1 else line) hfilename hinput
  obtain ⟨hterminator, hplain⟩ := initialHandlers_plain env.caseInsensitive lang
  refine PpState.Outside.carrying ⟨⟨?_, fun f hf => absurd hf List.not_mem_nil, ?_,
    hterminator, hplain, fun scope hscope => absurd hscope List.not_mem_nil,
    fun scope hscope => absurd hscope List.not_mem_nil⟩, houtput⟩
  · exact carried_cons_iff.mpr ⟨0, 0,
      (terminators_append houtput _).trans (terminators_of_notMem hpending), rfl, rfl⟩
  · exact List.forall_mem_cons.mpr ⟨hname, fun f hf => absurd hf List.not_mem_nil⟩

/-- **Scopes and terminators stay in step** in every run whose turns do not tamper with
terminators, and at its end there is none of either. -/
theorem run_balanced (env : PpEnv Λ) (henv : env.Plain) (lexer : Λ) (filename : Bstring)
    (line : UInt32) (lang : Language) (input : List Char) (hfilename : '\x01' ∉ filename)
    (hinput : '\x01' ∉ input)
    (hspares : ∀ n t, run env (ppimplNew env lexer filename line lang input) n = .running t →
      t.sparesTerminators env = true) (n : ℕ) (t : PpState Λ)
    (ht : run env (ppimplNew env lexer filename line lang input) n = .running t) :
    t.Balanced ∧
      ∀ output, step env t = .finished output →
        t.scopes = [] ∧ ¬ macroTerminate <:+: output := by
  have hcarrying : ∀ n t, run env (ppimplNew env lexer filename line lang input) n = .running t →
      t.Carrying := by
    intro n
    induction n with
    | zero =>
      intro t ht
      obtain rfl := Outcome.running.inj ht
      exact ppimplNew_carrying env lexer line lang hfilename hinput
    | succ n ih =>
      intro t ht
      rw [run_succ] at ht
      split at ht
      · rename_i u hu
        exact (ih u hu).step henv (hspares n u hu) ht
      · rename_i o ho
        exact absurd ht (ho t)
  refine ⟨(hcarrying n t ht).balanced, fun output hfinished => ?_⟩
  obtain ⟨hnext, hempty, hparents, rfl⟩ := step_finished hfinished
  have hout := (hcarrying n t ht).outside hnext hempty
  obtain ⟨n, m, hn, hm, hcount⟩ := hout.counts
  rw [hempty] at hn
  rw [hparents] at hm
  obtain rfl : 0 = n := Option.some.inj hn
  obtain rfl : 0 = m := Option.some.inj hm
  exact ⟨List.eq_nil_of_length_eq_zero hcount.symm, not_infix_outside hout.output⟩

/-- All turns up to a number of them leave terminators alone. -/
def spareTurns (env : PpEnv Λ) (s : PpState Λ) : ℕ → Bool
  | 0 => true
  | n + 1 =>
    s.sparesTerminators env &&
      match step env s with
      | .running t => spareTurns env t n
      | _ => true

theorem sparesTerminators_of_spareTurns {env : PpEnv Λ} {s t : PpState Λ} {n k : ℕ}
    (h : spareTurns env s n = true) (hk : k < n) (ht : run env s k = .running t) :
    t.sparesTerminators env = true := by
  induction n generalizing s k with
  | zero => exact absurd hk (Nat.not_lt_zero k)
  | succ n ih =>
    obtain ⟨hs, hrest⟩ := Bool.and_eq_true_iff.mp h
    cases k with
    | zero =>
      obtain rfl := Outcome.running.inj ht
      exact hs
    | succ k =>
      rw [run] at ht
      split at ht
      · rename_i u hu
        rw [hu] at hrest
        exact ih hrest (Nat.lt_of_succ_lt_succ hk) ht
      · rename_i o ho
        exact absurd ht (ho t)

/-- A run that has come to an end before is not running. -/
theorem lt_of_run_eq_running {env : PpEnv Λ} {s t : PpState Λ} {n k : ℕ}
    (hn : (run env s n).reports) (ht : run env s k = .running t) : k < n := by
  by_contra hle
  have hne := Outcome.ne_running_of_reports hn
  rw [run_stable hne (not_lt.mp hle)] at ht
  exact hne t ht

/-- A macro and a call of it. -/
def macroCall : List Char := ".MACRO f(x)\n[x]\n.ENDMACRO\nf(1)\n".toList

theorem plainEnv_plain : plainEnv.Plain where
  locate _ _ _ h := by cases h
  paramGet _ _ _ _ h := by rcases h with h | h <;> cases h

/-- Whether the preprocessor goes on. -/
def Outcome.goesOn : Outcome Λ → Bool
  | .running _ => true
  | _ => false

/-- **A macro and a call of it**, in the last turn but one. -/
theorem run_balanced_macroCall :
    ∃ t, run plainEnv (ppimplNew plainEnv () plainName 1 .asm macroCall) 837 = .running t ∧
      t.Balanced ∧
        ∀ output, step plainEnv t = .finished output →
          t.scopes = [] ∧ ¬ macroTerminate <:+: output := by
  have hgoes : (run plainEnv (ppimplNew plainEnv () plainName 1 .asm macroCall) 837).goesOn =
      true := by
    decide +kernel
  rcases hrun : run plainEnv (ppimplNew plainEnv () plainName 1 .asm macroCall) 837 with
    t | output | why
  · exact ⟨t, rfl, run_balanced plainEnv plainEnv_plain () plainName 1 .asm macroCall (by decide)
      (by decide) (fun n t ht => sparesTerminators_of_spareTurns (n := 838) (by decide +kernel)
        (lt_of_run_eq_running (by decide +kernel) ht) ht) 837 t hrun⟩
  · rw [hrun] at hgoes
    cases hgoes
  · rw [hrun] at hgoes
    cases hgoes

/-- A macro with an apostrophe in its replacement, and a call of it. -/
def macroApostrophe : List Char := "#define f(x) don't\nf(1)\n".toList

/-- Whether a terminator is left in the output where the handlers have been tried. -/
def Outcome.leaks : Outcome Λ → Bool
  | .running s => s.frame.next.isNone && decide (macroTerminate <:+: s.frame.cachedOutput)
  | _ => false

/-- The apostrophe begins a string, in which no terminator is recognized. -/
theorem not_forall_run_balanced :
    ¬ ∀ (env : PpEnv Unit) (lexer : Unit) (filename : Bstring) (line : UInt32) (lang : Language)
      (input : List Char), env.Plain → '\x01' ∉ filename → '\x01' ∉ input →
      ∀ n t, run env (ppimplNew env lexer filename line lang input) n = .running t →
        t.Balanced := by
  intro h
  have hleaks : (run plainEnv (ppimplNew plainEnv () plainName 1 .c macroApostrophe) 244).leaks =
      true := by
    decide +kernel
  rcases hrun : run plainEnv (ppimplNew plainEnv () plainName 1 .c macroApostrophe) 244 with
    t | output | why
  · rw [hrun] at hleaks
    obtain ⟨hnext, hinside⟩ := Bool.and_eq_true_iff.mp hleaks
    have hbalanced := h plainEnv () plainName 1 .c macroApostrophe plainEnv_plain (by decide)
      (by decide) 244 t hrun
    exact hbalanced.output (Option.isNone_iff_eq_none.mp hnext) (of_decide_eq_true hinside)
  · rw [hrun] at hleaks
    cases hleaks
  · rw [hrun] at hleaks
    cases hleaks

end DcpuToolchain
