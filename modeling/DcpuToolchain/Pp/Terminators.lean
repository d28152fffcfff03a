import DcpuToolchain.Pp.Reads
import Mathlib.Data.Option.NAry

/-!
# Macro terminators on their way

The expansion of a macro is printed with a terminator behind it, and the scope that was
pushed for it is popped where the terminator comes along. In between, the terminator is text
like any other.

Here is what there is of terminators in a text (`DcpuToolchain.terminators`), what it means
that they correspond to the scopes (`DcpuToolchain.PpState.Balanced`), and which turns do
not tamper with them (`DcpuToolchain.PpState.sparesTerminators`). That the former follows from
the latter is in the next module.
-/

namespace DcpuToolchain

variable {Λ : Type}

/-! ### Terminators in a text -/

/-- How many terminators there are in a text, given what is left of the one it begins in; none
if it has a part of a terminator that is not a whole one. -/
def terminatorsFrom : (expected : List Char) → List Char → Option ℕ
  | [], [] => some 0
  | _ :: _, [] => none
  | [], c :: text =>
    if c = '\x01' then terminatorsFrom macroTerminate.tail text else terminatorsFrom [] text
  | e :: expected, c :: text =>
    if c ≠ e then none
    else if expected = [] then (terminatorsFrom [] text).map (· + 1)
    else terminatorsFrom expected text

/-- How many terminators there are in a text. -/
def terminators (text : List Char) : Option ℕ := terminatorsFrom [] text

/-- Text without terminators does not count. -/
theorem terminators_append {a : List Char} (ha : '\x01' ∉ a) (b : List Char) :
    terminators (a ++ b) = terminators b := by
  induction a with
  | nil => rfl
  | cons c a ih =>
    rw [List.mem_cons, not_or] at ha
    rw [terminators, List.cons_append, terminatorsFrom, if_neg (Ne.symm ha.1)]
    exact ih ha.2

theorem terminators_of_notMem {a : List Char} (ha : '\x01' ∉ a) : terminators a = some 0 := by
  have h := terminators_append ha []
  rwa [List.append_nil] at h

/-- The rest of a terminator. -/
theorem terminatorsFrom_append (e : Char) (expected text : List Char) :
    terminatorsFrom (e :: expected) (e :: expected ++ text) =
      (terminators text).map (· + 1) := by
  induction expected generalizing e with
  | nil => rw [List.cons_append, terminatorsFrom, if_neg (not_not.mpr rfl), if_pos rfl]; rfl
  | cons e' expected ih =>
    rw [List.cons_append, terminatorsFrom, if_neg (not_not.mpr rfl), if_neg (by simp)]
    exact ih e'

theorem terminators_macroTerminate (text : List Char) :
    terminators (macroTerminate ++ text) = (terminators text).map (· + 1) :=
  terminatorsFrom_append 'M' "ACROTERMINATE\x01".toList text

/-- A text in which a terminator is expected begins with it. -/
theorem terminatorsFrom_eq_some {e : Char} {expected text : List Char} {n : ℕ}
    (h : terminatorsFrom (e :: expected) text = some n) :
    ∃ rest m, text = e :: expected ++ rest ∧ terminators rest = some m ∧ n = m + 1 := by
  induction text generalizing e expected with
  | nil => cases h
  | cons c text ih =>
    rw [terminatorsFrom] at h
    split at h
    · cases h
    · rename_i hc
      obtain rfl := not_not.mp hc
      split at h
      · rename_i hexpected
        subst hexpected
        obtain ⟨m, hm, rfl⟩ := Option.map_eq_some_iff.mp h
        exact ⟨text, m, rfl, hm, rfl⟩
      · rename_i hexpected
        obtain ⟨e', expected, rfl⟩ := List.exists_cons_of_ne_nil hexpected
        obtain ⟨rest, m, rfl, hm, rfl⟩ := ih h
        exact ⟨rest, m, rfl, hm, rfl⟩

/-- The terminators in the texts of a file and of those that include it: what has been put out
and what is left. -/
def carried : List Frame → Option ℕ
  | [] => some 0
  | f :: frames =>
    Option.map₂ (· + ·) (terminators (f.cachedOutput ++ f.pending)) (carried frames)

/-! ### Scopes and terminators -/

/-- **Terminators correspond to scopes**: as many are on their way as scopes are open, and
once the handlers have been tried none is in the output. -/
structure PpState.Balanced (s : PpState Λ) : Prop where
  carried : carried (s.frame :: s.parents) = some s.scopes.length
  output : s.frame.next = none → ¬ macroTerminate <:+: s.frame.cachedOutput
  parents : ∀ f ∈ s.parents, ¬ macroTerminate <:+: f.cachedOutput
  /-- A terminator that is consumed has a scope to pop. -/
  popped : ∀ t, s.entered = some (.macroTermHandle, t) → s.scopes ≠ []

/-! ### Turns that leave terminators alone -/

/-- Nothing of a terminator is between a text and an end of it. -/
def untouched (text rest : List Char) : Bool :=
  !(text.take (text.length - rest.length)).contains '\x01'

/-- Nothing of a terminator is in what a loop reads, nor in what is read after it. -/
def Scan.spares {α : Type} (text : List Char) (followed : α → List Char → Bool) :
    Scan α → Bool
  | .done a rest => untouched text rest && followed a rest
  | _ => true

/-- The branch that is printed and what is left behind it hold the terminators there were. -/
def Language.sparesBranch (l : Language) (text : List Char) : Bool :=
  match selectBranch l true text with
  | .ok (.done output rest) => terminators (cString output ++ rest) = terminators text
  | _ => true

/-- Nothing of a terminator is in what a handler takes off the input, but for those that a
macro call consumes before its bracket and those that a conditional prints again. -/
def Handler.spares (env : PpEnv Λ) (s : PpState Λ) : Handler → Bool
  | .defineHandle .asm =>
    (defineWord [] s.frame.pending).spares s.frame.pending fun r text =>
      !r.2 || (defineDefinition [] text).spares text fun _ _ => true
  | .defineHandle .c =>
    (macroWord .cDefineParametersIncorrect true [] [] false s.frame.pending).spares
      s.frame.pending fun n text =>
        !n.gettingDefinition || (cDefineDefinition [] 0 text).spares text fun _ _ => true
  | .macroDefHandle =>
    (macroWord .asmMacroParametersIncorrect false [] [] false s.frame.pending).spares
      s.frame.pending fun _ text => (macroDefinition [] 0 text).spares text fun _ _ => true
  | .macroHandle _ _ =>
    match openBracket [] 0 s.frame.pending with
    | .done _ text => (readArguments 0 [] [] text).all fun r => untouched text r.2
    | _ => true
  | .ifHandle l =>
    let rest := (env.paramGet s.lexer s.frame.pending).2.1
    untouched s.frame.pending rest && l.sparesBranch rest
  | .ifdefGeneralHandle _ =>
    let rest := (env.paramGet s.lexer s.frame.pending).2.1
    untouched s.frame.pending rest && Language.c.sparesBranch rest
  | .includeHandle _ | .lineHandle _ | .ulineHandle =>
    untouched s.frame.pending (env.paramGet s.lexer s.frame.pending).2.1
  | .replaceHandle _ | .macroTermHandle | .elseHandle _ | .endifHandle _ => true

/-- **A turn that does not tamper with terminators**: none begins within a string, no name is
replaced within one, and no handler takes off a part of one. -/
def PpState.sparesTerminators (env : PpEnv Λ) (s : PpState Λ) : Bool :=
  (s.frame.next.isSome || s.frame.pending.head? != some '\x01' ||
    !s.frame.inSingleString && !s.frame.inDoubleString) &&
  match s.entered with
  | none => true
  | some (h, t) => !t.frame.cachedOutput.contains '\x01' && h.spares env t

/-- No file contains anything of a terminator, nor does its name, and the parameters of
directives are made of what is read. -/
structure PpEnv.Plain (env : PpEnv Λ) : Prop where
  locate : ∀ path path' contents, env.locate path = some (path', contents) →
    '\x01' ∉ path' ∧ '\x01' ∉ contents
  paramGet : ∀ lexer text, untouched text (env.paramGet lexer text).2.1 = true →
    ∀ name, .word name ∈ (env.paramGet lexer text).1 ∨ .string name ∈ (env.paramGet lexer text).1 →
      '\x01' ∉ name

/-! ### What is read -/

theorem untouched_append {read rest : List Char} :
    untouched (read ++ rest) rest = true ↔ '\x01' ∉ read := by
  rw [untouched, List.length_append, Nat.add_sub_cancel, List.take_left]
  simp

theorem untouched_self (c : Char) (text : List Char) :
    untouched (c :: text) text = true ↔ '\x01' ≠ c := by
  rw [← List.singleton_append, untouched_append, List.mem_singleton]

theorem untouched_cons {c : Char} {text rest : List Char} (h : rest <:+ text) :
    untouched (c :: text) rest = true ↔ '\x01' ≠ c ∧ untouched text rest = true := by
  obtain ⟨read, rfl⟩ := h
  rw [← List.cons_append, untouched_append, untouched_append, List.mem_cons, not_or]

theorem terminators_of_untouched {text rest : List Char} (h : rest <:+ text)
    (hread : untouched text rest = true) : terminators text = terminators rest := by
  obtain ⟨read, rfl⟩ := h
  exact terminators_append (untouched_append.mp hread) rest

theorem notMem_bltrimws {s : Bstring} (h : '\x01' ∉ s) : '\x01' ∉ bltrimws s :=
  fun hm => h ((List.dropWhile_suffix _).mem hm)

theorem notMem_btrimws {s : Bstring} (h : '\x01' ∉ s) : '\x01' ∉ btrimws s := by
  rw [btrimws, List.mem_reverse]
  exact notMem_bltrimws (by rw [List.mem_reverse]; exact notMem_bltrimws h)

theorem notMem_snoc {s : Bstring} {c : Char} (h : '\x01' ∉ s) (hc : '\x01' ≠ c) :
    '\x01' ∉ s ++ [c] := by
  rw [List.mem_append, List.mem_singleton]
  exact not_or.mpr ⟨h, hc⟩

theorem Scan.Leaves.of_done {α : Type} {r : Scan α} {text rest : List Char} {a : α}
    (hleaves : r.Leaves text) (h : r = .done a rest) : rest <:+ text := by
  rw [h] at hleaves
  exact hleaves

theorem defineWord_plain {word : Bstring} {text rest : List Char} {r : Bstring × Bool}
    (h : defineWord word text = .done r rest) (hread : untouched text rest = true)
    (hword : '\x01' ∉ word) : '\x01' ∉ r.1 := by
  fun_induction defineWord word text with
  | case2 word c text | case5 word c text =>
    obtain ⟨rfl, rfl⟩ := Scan.done.inj h
    rw [untouched_self] at hread
    exact notMem_btrimws (notMem_bltrimws (notMem_snoc hword hread))
  | case6 word c text _ _ _ _ _ ih =>
    rw [untouched_cons ((defineWord_leaves _ _).of_done h)] at hread
    exact ih h hread.2 (notMem_bltrimws (notMem_snoc hword hread.1))
  | _ => cases h

theorem defineDefinition_plain {definition r : Bstring} {text rest : List Char}
    (h : defineDefinition definition text = .done r rest) (hread : untouched text rest = true)
    (hdefinition : '\x01' ∉ definition) : '\x01' ∉ r := by
  fun_induction defineDefinition definition text with
  | case1 => cases h
  | case2 definition c text =>
    obtain ⟨rfl, rfl⟩ := Scan.done.inj h
    rw [untouched_self] at hread
    exact notMem_btrimws (notMem_bltrimws (notMem_snoc hdefinition hread))
  | case4 definition c text =>
    obtain ⟨rfl, rfl⟩ := Scan.done.inj h
    decide
  | case3 definition c text _ _ _ ih | case5 definition c text _ _ _ ih =>
    rw [untouched_cons ((defineDefinition_leaves _ _).of_done h)] at hread
    exact ih h hread.2 (notMem_bltrimws (notMem_snoc hdefinition hread.1))

theorem macroWord_plain {incorrect : PpError} {endsAtNewline isMacro : Bool}
    {name word : Bstring} {text rest : List Char} {r : MacroName}
    (h : macroWord incorrect endsAtNewline name word isMacro text = .done r rest)
    (hread : untouched text rest = true) (hname : '\x01' ∉ name) (hword : '\x01' ∉ word) :
    '\x01' ∉ r.name ∧ '\x01' ∉ r.word := by
  have hnew : ∀ {name : Bstring} {c : Char} (isMacro : Bool), '\x01' ∉ name → '\x01' ≠ c →
      '\x01' ∉ (if isMacro = false ∧ c ≠ '(' then name ++ [c] else name) := by
    intro name c isMacro hname hc
    split
    · exact notMem_snoc hname hc
    · exact hname
  fun_induction macroWord incorrect endsAtNewline name word isMacro text with
  | case2 name word isMacro c text | case5 name word isMacro c text
  | case7 name word isMacro c text =>
    obtain ⟨rfl, rfl⟩ := Scan.done.inj h
    rw [untouched_self] at hread
    exact ⟨notMem_btrimws (hnew isMacro hname hread),
      notMem_btrimws (notMem_bltrimws (notMem_snoc hword hread))⟩
  | case3 name word isMacro c text | case8 name word isMacro c text =>
    rename_i ih
    rw [untouched_cons ((macroWord_leaves _ _ _ _ _ _).of_done h)] at hread
    exact ih h hread.2 (hnew isMacro hname hread.1)
      (notMem_bltrimws (notMem_snoc hword hread.1))
  | _ => cases h

theorem cDefineDefinition_plain {definition : Bstring} {continued : ℕ}
    {r : Bstring × DefinitionEnd × ℕ} {text rest : List Char}
    (h : cDefineDefinition definition continued text = .done r rest)
    (hread : untouched text rest = true) (hdefinition : '\x01' ∉ definition) :
    '\x01' ∉ r.1 ∧ ∀ c, r.2.1 = .comment c → '\x01' ≠ c := by
  fun_induction cDefineDefinition definition continued text with
  | case1 => cases h
  | case3 definition continued c text =>
    obtain ⟨rfl, rfl⟩ := Scan.done.inj h
    rw [untouched_self] at hread
    refine ⟨notMem_btrimws (notMem_bltrimws (notMem_snoc hdefinition hread)), fun c hc => ?_⟩
    cases hc
  | case4 definition continued c text =>
    obtain ⟨rfl, rfl⟩ := Scan.done.inj h
    rw [untouched_self] at hread
    refine ⟨notMem_btrimws fun hm => ?_, ?_⟩
    · exact notMem_bltrimws (notMem_snoc hdefinition hread)
        (List.mem_of_mem_dropLast (List.mem_of_mem_dropLast hm))
    · rintro d hd
      obtain rfl := DefinitionEnd.comment.inj hd
      exact hread
  | case2 definition continued text new _ ih =>
    rw [untouched_cons ((cDefineDefinition_leaves _ _ _).of_done h)] at hread
    refine ih h hread.2 (notMem_snoc (fun hm => ?_) (by decide))
    exact notMem_bltrimws (notMem_snoc hdefinition hread.1)
      (List.mem_of_mem_dropLast (List.mem_of_mem_dropLast hm))
  | case5 definition continued c text | case6 definition continued c text =>
    rename_i ih
    rw [untouched_cons ((cDefineDefinition_leaves _ _ _).of_done h)] at hread
    exact ih h hread.2 (notMem_bltrimws (notMem_snoc hdefinition hread.1))

theorem macroDefinition_plain {definition r : Bstring} {count : ℕ} {text rest : List Char}
    (h : macroDefinition definition count text = .done r rest)
    (hread : untouched text rest = true) (hdefinition : '\x01' ∉ definition) : '\x01' ∉ r := by
  fun_induction macroDefinition definition count text with
  | case1 => cases h
  | case3 definition count c text =>
    obtain ⟨rfl, rfl⟩ := Scan.done.inj h
    rw [untouched_self] at hread
    exact fun hm => notMem_btrimws (notMem_bltrimws (notMem_snoc hdefinition hread))
      (List.mem_of_mem_take hm)
  | case2 definition count c text | case4 definition count c text
  | case5 definition count c text =>
    rename_i ih
    rw [untouched_cons ((macroDefinition_leaves _ _ _).of_done h)] at hread
    exact ih h hread.2 (notMem_bltrimws (notMem_snoc hdefinition hread.1))

theorem readArguments_plain {brackets : ℕ} {temp : Bstring} {arguments : List Bstring}
    {text : List Char} {r : List Bstring × List Char}
    (h : readArguments brackets temp arguments text = some r)
    (hread : untouched text r.2 = true) (htemp : '\x01' ∉ temp)
    (harguments : ∀ a ∈ arguments, '\x01' ∉ a) : ∀ a ∈ r.1, '\x01' ∉ a := by
  fun_induction readArguments brackets temp arguments text with
  | case1 => cases h
  | case4 =>
    obtain rfl := Option.some.inj h
    intro a ha
    rcases List.mem_append.mp ha with ha | ha
    · exact harguments a ha
    · rw [List.mem_singleton.mp ha]
      exact htemp
  | case5 =>
    rename_i ih
    rw [untouched_cons (readArguments_suffix h)] at hread
    refine ih h hread.2 List.not_mem_nil fun a ha => ?_
    rcases List.mem_append.mp ha with ha | ha
    · exact harguments a ha
    · rw [List.mem_singleton.mp ha]
      exact htemp
  | case2 | case3 | case6 =>
    rename_i ih
    rw [untouched_cons (readArguments_suffix h)] at hread
    exact ih h hread.2 (notMem_snoc htemp hread.1) harguments

theorem parametersFrom_plain {temp : Bstring} {text : List Char} (htemp : '\x01' ∉ temp)
    (htext : '\x01' ∉ text) : ∀ p ∈ parametersFrom temp text, '\x01' ∉ p := by
  fun_induction parametersFrom temp text with
  | case1 => exact fun p hp => absurd hp List.not_mem_nil
  | case2 temp text ih =>
    rw [List.mem_cons, not_or] at htext
    rintro p hp
    rcases List.mem_cons.mp hp with rfl | hp
    · exact notMem_btrimws htemp
    · exact ih List.not_mem_nil htext.2 p hp
  | case3 temp text =>
    rintro p hp
    rw [List.mem_singleton.mp hp]
    exact notMem_btrimws htemp
  | case4 temp c text _ _ ih =>
    rw [List.mem_cons, not_or] at htext
    exact ih (notMem_snoc htemp htext.1) htext.2

theorem macroParameters_plain {full : Bstring} (h : '\x01' ∉ full) :
    ∀ p ∈ macroParameters full, '\x01' ∉ p :=
  parametersFrom_plain List.not_mem_nil fun hm =>
    h ((List.dropWhile_suffix _).mem (List.mem_of_mem_tail hm))

/-- The terminators that a macro call consumes before its bracket. -/
theorem openBracket_terminators {expected : List Char} {pops pops' n : ℕ}
    {text rest : List Char} (h : openBracket expected pops text = .done pops' rest)
    (hn : terminatorsFrom expected text = some n) :
    ∃ m, terminators rest = some m ∧ n + pops = pops' + m := by
  fun_induction openBracket expected pops text generalizing n with
  | case1 => cases h
  | case2 pops text ih =>
    rw [terminatorsFrom, if_pos rfl] at hn
    exact ih h hn
  | case3 pops text =>
    obtain ⟨rfl, rfl⟩ := Scan.done.inj h
    rw [terminatorsFrom, if_neg (by decide)] at hn
    exact ⟨n, hn, Nat.add_comm _ _⟩
  | case4 => cases h
  | case5 => cases h
  | case6 e expected pops c text hc ih =>
    rw [terminatorsFrom, if_neg hc] at hn
    split at hn
    · rename_i hexpected
      subst hexpected
      obtain ⟨n', hn', rfl⟩ := Option.map_eq_some_iff.mp hn
      obtain ⟨m, hm, hcount⟩ := ih h hn'
      rw [if_pos rfl] at hcount
      exact ⟨m, hm, by omega⟩
    · rename_i hexpected
      obtain ⟨m, hm, hcount⟩ := ih h hn
      rw [if_neg hexpected] at hcount
      exact ⟨m, hm, hcount⟩

end DcpuToolchain
