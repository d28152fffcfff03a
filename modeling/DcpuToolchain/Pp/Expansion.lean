import DcpuToolchain.Pp.Reads
import DcpuToolchain.Pp.Words

/-!
# Reading an expansion

After a macro was called, its body is read with the handlers of its parameters registered.
An expansion goes on for as long as no other handlers are entered
(`DcpuToolchain.Expansion`); each time a parameter is replaced, what is left of the input
tells where that is.

Here is what single turns do to the output and to the input that is left, and from them how
a text is read up to the first word that is a parameter
(`DcpuToolchain.Expansion.read_text`).
-/

namespace DcpuToolchain

variable {Λ : Type}

/-! ### Expansions -/

/-- **Turns that enter no handlers but those that replace a name.** The texts are what was
left of the input each time one of them was entered. -/
inductive Expansion (env : PpEnv Λ) : PpState Λ → List (List Char) → PpState Λ → Prop
  | refl (s : PpState Λ) : Expansion env s [] s
  | turn {s t u : PpState Λ} {texts : List (List Char)} (hs : s.entered = none)
      (ht : step env s = .running t) (h : Expansion env t texts u) : Expansion env s texts u
  | replace {s t u v : PpState Λ} {texts : List (List Char)} {replacement : Bstring}
      (hs : s.entered = some (.replaceHandle replacement, v)) (ht : step env s = .running t)
      (h : Expansion env t texts u) : Expansion env s (s.frame.pending :: texts) u

namespace Expansion

variable {env : PpEnv Λ} {s t u : PpState Λ} {texts texts' : List (List Char)}

theorem trans (h : Expansion env s texts t) (h' : Expansion env t texts' u) :
    Expansion env s (texts ++ texts') u := by
  induction h with
  | refl => exact h'
  | turn hs ht _ ih => exact .turn hs ht (ih h')
  | replace hs ht _ ih => exact .replace hs ht (ih h')

/-- Of two expansions from one state, one goes on from the other. -/
theorem comparable (h : Expansion env s texts t) (h' : Expansion env s texts' u) :
    (∃ more, texts' = texts ++ more ∧ Expansion env t more u) ∨
      ∃ more, texts = texts' ++ more ∧ Expansion env u more t := by
  induction h generalizing texts' u with
  | refl s => exact .inl ⟨texts', rfl, h'⟩
  | turn hs ht h ih =>
    cases h' with
    | refl => exact .inr ⟨_, rfl, .turn hs ht h⟩
    | turn hs' ht' h' =>
      obtain rfl := Outcome.running.inj (ht.symm.trans ht')
      exact ih h'
    | replace hs' ht' h' =>
      rw [hs] at hs'
      cases hs'
  | replace hs ht h ih =>
    cases h' with
    | refl => exact .inr ⟨_, rfl, .replace hs ht h⟩
    | turn hs' ht' h' =>
      rw [hs] at hs'
      cases hs'
    | replace hs' ht' h' =>
      obtain rfl := Outcome.running.inj (ht.symm.trans ht')
      rcases ih h' with ⟨more, rfl, hmore⟩ | ⟨more, rfl, hmore⟩
      · exact .inl ⟨more, rfl, hmore⟩
      · exact .inr ⟨more, rfl, hmore⟩

end Expansion

/-! ### Handlers that are tried -/

/-- **Turns that try handlers in vain.** -/
inductive InVain (env : PpEnv Λ) : PpState Λ → PpState Λ → Prop
  | refl (s : PpState Λ) : InVain env s s
  | turn {s t u : PpState Λ} (hnext : s.frame.next ≠ none) (hs : s.entered = none)
      (ht : step env s = .running t) (h : InVain env t u) : InVain env s u

theorem InVain.expansion {env : PpEnv Λ} {s t : PpState Λ} (h : InVain env s t) :
    Expansion env s [] t := by
  induction h with
  | refl s => exact .refl s
  | turn _ hs ht _ ih => exact .turn hs ht ih

/-- A state in which another handler is tried next. -/
structure PpState.Alike (s t : PpState Λ) : Prop where
  handlers : t.handlers = s.handlers
  scopes : t.scopes = s.scopes
  parents : t.parents = s.parents
  filename : t.frame.currentFilename = s.frame.currentFilename
  output : t.frame.cachedOutput = s.frame.cachedOutput
  pending : t.frame.pending = s.frame.pending
  inSingleString : t.frame.inSingleString = s.frame.inSingleString
  inDoubleString : t.frame.inDoubleString = s.frame.inDoubleString

theorem Frame.matchTest_congr {f g : Frame} (m : Match) (houtput : g.cachedOutput = f.cachedOutput)
    (hpending : g.pending = f.pending) : (g.matchTest m).1 = (f.matchTest m).1 := by
  have hbefore : g.outputBefore m.text = f.outputBefore m.text := by
    rw [outputBefore, outputBefore, houtput]
  have hisolated : g.isolated m.text = f.isolated m.text := by
    rw [isolated, isolated, hbefore, hpending]
  rw [matchTest, matchTest, houtput, hbefore, hisolated]
  split
  · rfl
  · split
    · rfl
    · split <;> rfl

/-- The first handler from one on that is found. -/
def PpState.firstFound (s : PpState Λ) (i : ℕ) : Option Match :=
  (s.handlers.drop i).find? fun m => (s.frame.matchTest m).1

theorem PpState.found_of_firstFound (s : PpState Λ) {i : ℕ} {m : Match}
    (h : s.firstFound i = some m) : (s.frame.matchTest m).1 = true ∧ m ∈ s.handlers :=
  ⟨List.find?_some (p := fun m => (s.frame.matchTest m).1) h,
    List.mem_of_mem_drop (List.mem_of_find?_eq_some h)⟩

theorem PpState.not_found_of_firstFound (s : PpState Λ) {i : ℕ} {m : Match}
    (h : s.firstFound i = none) (hm : m ∈ s.handlers.drop i) : (s.frame.matchTest m).1 = false := by
  simpa using List.find?_eq_none.mp h m hm

/-- **The handlers are tried** from one on, until the first that is found. -/
theorem PpState.tried (env : PpEnv Λ) (s : PpState Λ) {i : ℕ} (hnext : s.frame.next = some i) :
    ∃ t, InVain env s t ∧ s.Alike t ∧
      ((t.frame.next = none ∧ s.firstFound i = none) ∨
        ∃ j m, t.frame.next = some j ∧ s.handlers[j]? = some m ∧ s.firstFound i = some m) := by
  induction hk : s.handlers.length - i generalizing s i with
  | zero =>
    have hnone : s.handlers[i]? = none := by
      rw [List.getElem?_eq_none_iff]
      omega
    have hentered : s.entered = none := by simp only [PpState.entered, hnext, hnone]
    have hstep : step env s = .running { s with frame := { s.frame with next := none } } := by
      simp only [step, hnext, hnone]
    refine ⟨_, .turn (by simp [hnext]) hentered hstep (.refl _),
      ⟨rfl, rfl, rfl, rfl, rfl, rfl, rfl, rfl⟩, .inl ⟨rfl, ?_⟩⟩
    rw [firstFound, List.drop_of_length_le (by omega), List.find?_nil]
  | succ k ih =>
    have hlt : i < s.handlers.length := by omega
    have hm : s.handlers[i]? = some s.handlers[i] := List.getElem?_eq_getElem hlt
    rw [firstFound, ← List.getElem_cons_drop hlt, List.find?_cons]
    rcases hfound : (s.frame.matchTest s.handlers[i]).1 with - | -
    · have hreads := s.frame.matchTest_reads s.handlers[i]
      have hpending := s.frame.matchTest_pending s.handlers[i]
      have hentered : s.entered = none := by
        simp only [PpState.entered, hnext, hm, hfound, Bool.false_eq_true, if_false]
      have hstep : step env s = .running { s with
          frame := { (s.frame.matchTest s.handlers[i]).2 with next := some (i + 1) } } := by
        simp only [step, hnext, hm, tryHandler, hfound, Bool.false_eq_true, if_false]
      have hsame : ∀ m, ((s.frame.matchTest s.handlers[i]).2.matchTest m).1 =
          (s.frame.matchTest m).1 := fun m =>
        Frame.matchTest_congr m hreads.cachedOutput hpending
      obtain ⟨u, hu, halike, hlast⟩ := ih { s with
          frame := { (s.frame.matchTest s.handlers[i]).2 with next := some (i + 1) } } rfl
        (by change s.handlers.length - (i + 1) = k; omega)
      refine ⟨u, .turn (by simp [hnext]) hentered hstep hu,
        ⟨halike.handlers, halike.scopes, halike.parents,
          halike.filename.trans hreads.currentFilename, halike.output.trans hreads.cachedOutput,
          halike.pending.trans hpending, halike.inSingleString.trans hreads.inSingleString,
          halike.inDoubleString.trans hreads.inDoubleString⟩, ?_⟩
      have hfind : (fun m => (({ (s.frame.matchTest s.handlers[i]).2 with
          next := some (i + 1) } : Frame).matchTest m).1) = fun m => (s.frame.matchTest m).1 := by
        funext m
        rw [← hsame m]
        exact Frame.matchTest_congr m rfl rfl
      rw [firstFound, hfind] at hlast
      exact hlast
    · exact ⟨s, .refl s, ⟨rfl, rfl, rfl, rfl, rfl, rfl, rfl, rfl⟩, .inr ⟨i, _, hnext, hm, rfl⟩⟩

/-! ### Single turns -/

/-- What the flags of a state say of the strings. -/
def Quotes.Stands (f : Frame) : Quotes → Prop
  | .outside => f.inSingleString = false ∧ f.inDoubleString = false
  | .single escaped => f.inSingleString = true ∧ f.inDoubleString = false ∧
      (escaped = true ↔ f.cachedOutput.getLast? = some '\\')
  | .double escaped => f.inSingleString = false ∧ f.inDoubleString = true ∧
      (escaped = true ↔ f.cachedOutput.getLast? = some '\\')

theorem Quotes.Stands.congr {q : Quotes} {f g : Frame} (h : q.Stands f)
    (houtput : g.cachedOutput = f.cachedOutput) (hsingle : g.inSingleString = f.inSingleString)
    (hdouble : g.inDoubleString = f.inDoubleString) : q.Stands g := by
  cases q <;> simpa only [Stands, houtput, hsingle, hdouble] using h

/-- The strings are tracked. -/
theorem Quotes.Stands.next {q : Quotes} {f g : Frame} {mark : List Char} {c : Char}
    (h : q.Stands f) (houtput : g.cachedOutput = f.cachedOutput ++ mark ++ [c])
    (hmark : mark = [] ∨ c = '\n') (hsingle : g.inSingleString = f.inSingleString)
    (hdouble : g.inDoubleString = f.inDoubleString) : (q.next c).Stands g.trackStrings := by
  have hlast : g.cachedOutput.getLast? = some c := by rw [houtput, List.getLast?_concat]
  have hbefore : mark = [] → g.cachedOutput.dropLast.getLast? = f.cachedOutput.getLast? := by
    rintro rfl
    rw [houtput, List.append_nil, List.dropLast_concat]
  have hescaped : ∀ {escaped : Bool}, (escaped = true ↔ f.cachedOutput.getLast? = some '\\') →
      c ≠ '\n' → (g.cachedOutput.dropLast.getLast? = some '\\' ↔ escaped = true) := by
    intro escaped he hc
    rw [hbefore (hmark.resolve_right hc), he]
  cases q with
  | outside =>
    obtain ⟨hs, hd⟩ := h
    rw [Frame.trackStrings, if_pos ⟨hsingle.trans hs, hdouble.trans hd⟩, hlast, Quotes.next]
    by_cases hquote : c = '\''
    · simp [hquote, Stands, hlast]
    · by_cases hquotes : c = '"'
      · simp [hquotes, Stands, hlast]
      · simp [hquote, hquotes, Stands]
  | single escaped =>
    obtain ⟨hs, hd, he⟩ := h
    rw [Frame.trackStrings, if_neg (by simp [hsingle, hs]), if_pos (hsingle.trans hs), hlast,
      Quotes.next]
    by_cases hc : c = '\n'
    · simp [hc, Stands, hdouble, hd]
    · simp only [hescaped he hc]
      by_cases hquote : c = '\'' <;> cases escaped <;>
        simp [hc, hquote, Stands, hdouble, hd, hlast]
  | double escaped =>
    obtain ⟨hs, hd, he⟩ := h
    rw [Frame.trackStrings, if_neg (by simp [hdouble, hd]), if_neg (by simp [hsingle, hs]), hlast,
      Quotes.next]
    by_cases hc : c = '\n'
    · simp [hc, Stands, hsingle, hs]
    · simp only [hescaped he hc]
      by_cases hquote : c = '"' <;> cases escaped <;> simp [hc, hquote, Stands, hsingle, hs, hlast]

/-- A state that is as another one but for its output and for the input that is left. -/
structure PpState.Reads (s t : PpState Λ) (output text : List Char) (q : Quotes) : Prop where
  handlers : t.handlers = s.handlers
  scopes : t.scopes = s.scopes
  parents : t.parents = s.parents
  filename : t.frame.currentFilename = s.frame.currentFilename
  output : t.frame.cachedOutput = output
  pending : t.frame.pending = text
  quotes : q.Stands t.frame

namespace PpState.Reads

variable {env : PpEnv Λ} {s t : PpState Λ} {output text : List Char} {q : Quotes}

theorem refl (s : PpState Λ) {q : Quotes} (hq : q.Stands s.frame) :
    s.Reads s s.frame.cachedOutput s.frame.pending q :=
  ⟨rfl, rfl, rfl, rfl, rfl, rfl, hq⟩

/-- **The handlers are tried** from one on, until one is found. -/
theorem tries (env : PpEnv Λ) (h : s.Reads t output text q) {i : ℕ}
    (hnext : t.frame.next = some i) :
    ∃ u, Expansion env t [] u ∧ s.Reads u output text q ∧
      ((u.frame.next = none ∧ ∀ m ∈ s.handlers.drop i, (u.frame.matchTest m).1 = false) ∨
        ∃ j m, u.frame.next = some j ∧ s.handlers[j]? = some m ∧
          (u.frame.matchTest m).1 = true ∧
          (s.handlers.drop i).find? (fun m => (u.frame.matchTest m).1) = some m) := by
  obtain ⟨u, hvain, halike, hlast⟩ := t.tried env hnext
  have hsame : ∀ m, (u.frame.matchTest m).1 = (t.frame.matchTest m).1 := fun m =>
    Frame.matchTest_congr m halike.output halike.pending
  refine ⟨u, hvain.expansion, ⟨halike.handlers.trans h.handlers, halike.scopes.trans h.scopes,
    halike.parents.trans h.parents, halike.filename.trans h.filename, halike.output.trans h.output,
    halike.pending.trans h.pending,
    h.quotes.congr halike.output halike.inSingleString halike.inDoubleString⟩, ?_⟩
  rw [← h.handlers]
  rcases hlast with ⟨hnone, hall⟩ | ⟨j, m, hj, hm, hfind⟩
  · refine .inl ⟨hnone, fun m hmem => ?_⟩
    rw [hsame m]
    exact t.not_found_of_firstFound hall hmem
  · refine .inr ⟨j, m, hj, hm, (hsame m).trans (t.found_of_firstFound hfind).1, ?_⟩
    simpa only [hsame, PpState.firstFound] using hfind

/-- **A character is put out.** -/
theorem fetch (env : PpEnv Λ) {c : Char} (h : s.Reads t output (c :: text) q)
    (hnext : t.frame.next = none) :
    ∃ u mark, Expansion env t [] u ∧
      (mark = [] ∨ c = '\n' ∧ ∃ line, mark = lineCorrection line s.frame.currentFilename) ∧
      s.Reads u (output ++ mark ++ [c]) text (q.next c) ∧
      u.frame.next = if q.next c = .outside then some 0 else none := by
  obtain ⟨g, mark, hfetch, hout, hmark, hname, hsingle, hdouble⟩ := Frame.fetch_cons h.pending
  obtain ⟨hkeeps, hkeepsName⟩ := g.trackStrings_keeps
  have hne : t.frame.pending ≠ [] := by rw [h.pending]; exact List.cons_ne_nil _ _
  have hentered : t.entered = none := by rw [PpState.entered, hnext]
  have hstep : step env t = .running { t with frame := t.frame.fetch } := by
    simp only [step, hnext, if_neg hne]
  have hquotes := h.quotes.next hout (hmark.imp_right And.left) hsingle hdouble
  refine ⟨_, mark, .turn hentered hstep (.refl _), h.filename ▸ hmark,
    ⟨h.handlers, h.scopes, h.parents, ?_, ?_, ?_, ?_⟩, ?_⟩
  · change t.frame.fetch.currentFilename = _
    rw [hfetch, ← h.filename, ← hname]
    exact hkeepsName
  · change t.frame.fetch.cachedOutput = _
    rw [hfetch, ← h.output, ← hout]
    exact hkeeps
  · change t.frame.fetch.pending = _
    rw [Frame.fetch_pending, h.pending, List.tail_cons]
  · change (q.next c).Stands t.frame.fetch
    rw [hfetch]
    exact hquotes.congr rfl rfl rfl
  · change t.frame.fetch.next = _
    rw [hfetch]
    revert hquotes
    cases q.next c with
    | outside => rintro ⟨hs, hd⟩; simp [hs, hd]
    | single escaped => rintro ⟨hs, -⟩; simp [hs]
    | double escaped => rintro ⟨-, hd, -⟩; simp [hd]

/-- **The handler of what is found is entered**: the text that was found is removed from the
output. -/
theorem enters {m : Match} {j : ℕ} (h : s.Reads t (output ++ m.text) text .outside)
    (hnext : t.frame.next = some j) (hm : s.handlers[j]? = some m)
    (hfound : (t.frame.matchTest m).1 = true) :
    ∃ v, t.entered = some (m.handler, v) ∧ s.Reads v output text .outside ∧
      v.frame.next = some (j + 1) ∧ v.frame.printIndex = 0 := by
  have hreads := t.frame.matchTest_reads m
  refine ⟨_, entered_of_found hnext (h.handlers ▸ hm) hfound, ⟨h.handlers, h.scopes, h.parents,
    hreads.currentFilename.trans h.filename, ?_, (t.frame.matchTest_pending m).trans h.pending,
    hreads.inSingleString.trans h.quotes.1, hreads.inDoubleString.trans h.quotes.2⟩, rfl, rfl⟩
  change (t.frame.matchTest m).2.outputBefore m.text = output
  rw [Frame.outputBefore, hreads.cachedOutput, h.output, List.length_append, Nat.add_sub_cancel,
    List.take_left]

/-- **A name is replaced**: it is removed from the output, and the replacement is read. -/
theorem replace (env : PpEnv Λ) {name replacement : Bstring} {j : ℕ}
    (h : s.Reads t (output ++ name) text .outside) (hnext : t.frame.next = some j)
    (hm : s.handlers[j]? = some (nameMatch name (.replaceHandle replacement)))
    (hfound : (t.frame.matchTest (nameMatch name (.replaceHandle replacement))).1 = true)
    (hzero : '\x00' ∉ replacement) :
    ∃ u, Expansion env t [text] u ∧ s.Reads u output (replacement ++ text) .outside ∧
      u.frame.next = some (j + 1) := by
  obtain ⟨v, hentered, hreads, hnextV, hcursor⟩ := enters h hnext hm hfound
  have hprinted : (v.frame.printf (cString replacement)).pending = replacement ++ text := by
    rw [Frame.printf_pending v.frame hcursor, hreads.pending, cString,
      List.takeWhile_eq_self_iff.mpr, List.filter_eq_self.mpr]
    · rintro c hc
      rw [decide_eq_true_iff]
      rintro rfl
      exact hzero hc
    · rintro c hc
      rw [decide_eq_true_iff]
      rintro rfl
      exact hzero hc
  have hstep : step env t = .running (v.print (cString replacement)) := step_of_entered env hentered
  have hexpansion := Expansion.replace hentered hstep (.refl _)
  rw [h.pending] at hexpansion
  exact ⟨_, hexpansion, ⟨hreads.handlers, hreads.scopes, hreads.parents, hreads.filename,
    hreads.output, hprinted, hreads.quotes⟩, hnextV⟩

end PpState.Reads

end DcpuToolchain
