import DcpuToolchain.Pp.Calls

/-!
# The arguments of a macro

A parameter is replaced by registering its name as a text that is replaced, and what is put
in place of it is read again. So text that comes from an argument is replaced in turn where
it contains the name of a parameter.

An expansion in which no handlers but those of the parameters are entered is the body with
the arguments substituted all at once exactly where no argument of a parameter that occurs
in the body contains a parameter (`DcpuToolchain.simultaneous_iff`).
-/

namespace DcpuToolchain

variable {Λ : Type}

/-! ### The whole text -/

/-- **What was left of the input** each time a parameter of a text was replaced, if the text
is followed by `k`. -/
def replacements (bindings : List (Bstring × Bstring)) (word text k : List Char) :
    List (List Char) :=
  ((words word .outside text).filter fun w => (bindings.lookup w.1).isSome).map (·.2 ++ k)

/-- **No argument of a parameter that occurs in a text contains a parameter.** -/
def Uncaptured (bindings : List (Bstring × Bstring)) (word text : List Char) : Prop :=
  ∀ w ∈ words word .outside text, ∀ argument, bindings.lookup w.1 = some argument →
    ∀ w' ∈ words [] .outside argument, bindings.lookup w'.1 = none

/-- Text is replaced that is not of the body. -/
def Captures (env : PpEnv Λ) (t : PpState Λ) (expected : List (List Char)) : Prop :=
  ∃ u v texts replacement, Expansion env t texts u ∧
    u.entered = some (.replaceHandle replacement, v) ∧
    ¬ texts ++ [u.frame.pending] <+: expected

section Whole

variable {env : PpEnv Λ} {s t u : PpState Λ} {bindings : List (Bstring × Bstring)}
  {texts expected : List (List Char)} {word text mid name argument rest k : List Char}

theorem Captures.of_expansion (h : Expansion env t texts u) (hu : Captures env u expected) :
    Captures env t (texts ++ expected) := by
  obtain ⟨v, w, more, replacement, hexp, hentered, hnot⟩ := hu
  refine ⟨v, w, texts ++ more, replacement, h.trans hexp, hentered, fun hbegins => hnot ?_⟩
  rw [List.append_assoc] at hbegins
  exact (List.prefix_append_right_inj texts).mp hbegins

theorem PpState.Meets.entered {output word text : List Char} {handler : Handler}
    (h : s.Meets u output word handler text) : ∃ v, u.entered = some (handler, v) := by
  obtain ⟨j, hj, hm, hfound⟩ := h.found
  exact ⟨_, entered_of_found hj (h.reads.handlers ▸ hm) hfound⟩

theorem replacements_of_unbound (h : ∀ w ∈ words word .outside text, bindings.lookup w.1 = none) :
    replacements bindings word text k = [] := by
  rw [replacements, List.filter_eq_nil_iff.mpr, List.map_nil]
  intro w hw
  rw [h w hw]
  exact Bool.false_ne_true

theorem replacements_firstBound
    (h : FirstBound bindings word .outside text mid name argument rest) :
    replacements bindings word text k =
      (rest ++ k) :: replacements bindings [] rest k := by
  obtain ⟨before, hwords, hbefore⟩ := h.words
  have hnone : before.filter (fun w => (bindings.lookup w.1).isSome) = [] := by
    rw [List.filter_eq_nil_iff]
    intro w hw
    rw [hbefore w hw]
    exact Bool.false_ne_true
  rw [replacements, hwords, List.filter_append, hnone, List.nil_append,
    List.filter_cons_of_pos (by rw [h.bound]; rfl), List.map_cons]
  rfl

theorem uncaptured_firstBound
    (h : FirstBound bindings word .outside text mid name argument rest) :
    Uncaptured bindings word text ↔
      (∀ w ∈ words [] .outside argument, bindings.lookup w.1 = none) ∧
        Uncaptured bindings [] rest := by
  obtain ⟨before, hwords, hbefore⟩ := h.words
  rw [Uncaptured, hwords]
  constructor
  · intro hall
    refine ⟨hall (name, rest) (by simp) argument h.bound, fun w hw => ?_⟩
    exact hall w (List.mem_append_right _ (List.mem_cons_of_mem _ hw))
  · rintro ⟨hargument, hrest⟩ w hw argument' hbound
    rcases List.mem_append.mp hw with hw | hw
    · rw [hbefore w hw] at hbound
      cases hbound
    · rcases List.mem_cons.mp hw with rfl | hw
      · obtain rfl := Option.some.inj (h.bound.symm.trans hbound)
        exact hargument
      · exact hrest w hw argument' hbound

/-- A word that is not bound and ends changes nothing. -/
theorem uncaptured_of_endsHere (hends : endsHere text) (hword : bindings.lookup word = none) :
    replacements bindings word text k = replacements bindings [] text k ∧
      (Uncaptured bindings word text ↔ Uncaptured bindings [] text) := by
  by_cases hnil : word = []
  · rw [hnil]
    exact ⟨rfl, .rfl⟩
  · constructor
    · rw [replacements, words_of_endsHere hends hnil, List.filter_cons_of_neg (by simp [hword])]
      rfl
    · rw [Uncaptured, words_of_endsHere hends hnil, List.forall_mem_cons]
      exact and_iff_right fun argument hbound => by rw [hword] at hbound; cases hbound

/-- Behind an argument that ends with a word. -/
theorem words_behind {word' : List Char} (hends : endsHere rest) :
    ∀ w ∈ words word' .outside rest, w.1 = word' ∨ w ∈ words [] .outside rest := by
  intro w hw
  by_cases hnil : word' = []
  · exact .inr (hnil ▸ hw)
  · rw [words_of_endsHere hends hnil] at hw
    exact (List.mem_cons.mp hw).imp (congrArg Prod.fst) id

theorem FirstBound.rest_subset (h : FirstBound bindings word .outside text mid name argument rest) :
    DcpuToolchain.words [] .outside rest ⊆ DcpuToolchain.words word .outside text := by
  obtain ⟨before, hwords, -⟩ := h.words
  intro w hw
  simp [hwords, hw]

/-- A parameter that is found in an argument is replaced, although it is not of the body. -/
theorem captures_of_meets {output : List Char} {replacement more : Bstring}
    (hexp : Expansion env t [rest ++ k] u)
    (hmeets : s.Meets u output name (.replaceHandle replacement) (more ++ (rest ++ k))) :
    Captures env t ((rest ++ k) :: replacements bindings [] rest k) := by
  obtain ⟨v, hv⟩ := hmeets.entered
  refine ⟨u, v, [rest ++ k], replacement, hexp, hv, ?_⟩
  rw [hmeets.reads.pending, List.singleton_append, List.cons_prefix_cons]
  rintro ⟨-, hbegins⟩
  have hmem := hbegins.subset (List.mem_singleton_self _)
  obtain ⟨w, hw, heq⟩ := List.mem_map.mp hmem
  have hlt := words_length_lt (List.mem_filter.mp hw).1
  have hlength := congrArg List.length heq
  simp only [List.length_append] at hlength
  omega

/-- **A text is read, and its parameters are replaced**, as long as no argument contains a
parameter. -/
theorem Expansion.expand (hs : s.Binds .replaceHandle bindings)
    (hquiet : s.OnlyFinds env bindings) (hk : endsHere k) (text : List Char)
    {texts : List (List Char)} {output word : List Char}
    (hreach : Expansion env s texts t) (h : s.Awaits t .outside output word (text ++ k))
    (hunbroken : Unbroken output) (hclosed : Quotes.outside.after text = .outside)
    (hone : '\x01' ∉ text)
    (halone : ∀ w ∈ words word .outside text, standsAlone (bindings.map Prod.fst) w.1)
    (hstart : endsHere text → bindings.lookup word = none)
    (hargs : ∀ w ∈ words word .outside text, ∀ argument, bindings.lookup w.1 = some argument →
      Regular (bindings.map Prod.fst) argument) :
    (Uncaptured bindings word text ∧
      ∃ u output' word' out, Expansion env t (replacements bindings word text k) u ∧
        s.Awaits u .outside output' word' k ∧ Unbroken output' ∧
        output' ++ word' = output ++ out ∧
        Marked s.frame.currentFilename (substitute bindings word .outside text) out) ∨
      ¬ Uncaptured bindings word text ∧
        Captures env t (replacements bindings word text k) := by
  induction hn : text.length using Nat.strong_induction_on
    generalizing text t texts output word with
  | _ n ih =>
    subst hn
    rcases Expansion.read_text hs hquiet hk text hreach h hclosed hone halone (fun _ => hstart) with
      ⟨u, output', word', out, hu, hawaits, -, hall, hout, hmarked, hunbroken'⟩ |
      ⟨u, output', name, argument, rest, mid, out, hu, hmeets, hfirst, rfl, hmarked, hunbroken'⟩
    · refine .inl ⟨fun w hw argument hbound => ?_, u, output', word', word ++ out, ?_, hawaits,
        hunbroken' hunbroken, by rw [hout, List.append_assoc], ?_⟩
      · rw [hall w hw] at hbound
        cases hbound
      · rwa [replacements_of_unbound hall]
      · rw [substitute_of_unbound hs.lookup_nil hall]
        exact (Marked.refl _ word).append hmarked
    · have hregular := hargs _ hfirst.mem argument hfirst.bound
      -- the argument is put in place of the parameter
      obtain ⟨v, hv, hawaits⟩ := hmeets.replace hs hquiet (hreach.trans hu) (hunbroken' hunbroken)
        hregular.zero
      have hexp : Expansion env t [rest ++ k] v := by simpa using hu.trans hv
      rw [replacements_firstBound hfirst, uncaptured_firstBound hfirst]
      rcases Expansion.read_text hs hquiet hmeets.ends argument (hreach.trans hexp) hawaits
          hregular.closed hregular.one hregular.alone (fun _ _ => hs.lookup_nil) with
        ⟨x, output₂, word₂, out₂, hx, hawaits₂, hlast, hall, hout₂, hmarked₂, hunbroken₂⟩ |
        ⟨x, output₂, name₂, argument₂, rest₂, mid₂, out₂, hx, hmeets₂, hfirst₂, -⟩
      · -- and the rest of the text is read behind it
        have hword₂ : bindings.lookup word₂ = none :=
          last_word (p := fun w => bindings.lookup w = none) hlast hs.lookup_nil hall
        have halone₂ : standsAlone (bindings.map Prod.fst) word₂ :=
          last_word (p := fun w => standsAlone (bindings.map Prod.fst) w = true) hlast
            (standsAlone_of_forall _ nofun) hregular.alone
        have hexp₂ : Expansion env t [rest ++ k] x := by simpa using hexp.trans hx
        obtain ⟨hreplacements, hcaptured⟩ :=
          @uncaptured_of_endsHere bindings word₂ rest k hfirst.ends hword₂
        rw [← hreplacements, ← hcaptured, and_iff_right hall, ← List.singleton_append]
        refine (ih _ hfirst.length rest (hreach.trans hexp₂) hawaits₂
          (hunbroken₂ (hunbroken' hunbroken)) (hfirst.after.symm.trans hclosed)
          (fun hmem => hone (hfirst.subset _ hmem)) ?_ (fun _ => hword₂) ?_ rfl).imp ?_ ?_
        · intro w hw
          exact (words_behind hfirst.ends w hw).elim (fun heq => heq ▸ halone₂) fun hw =>
            halone w (hfirst.rest_subset hw)
        · intro w hw argument' hbound
          rcases words_behind hfirst.ends w hw with heq | hw
          · rw [heq, hword₂] at hbound
            cases hbound
          · exact hargs w (hfirst.rest_subset hw) argument' hbound
        · rintro ⟨huncaptured, y, output₃, word₃, out₃, hy, hawaits₃, hunbroken₃, hout₃, hmarked₃⟩
          rw [substitute_of_endsHere hfirst.ends hs.lookup_nil, replaced_of_unbound hword₂]
            at hmarked₃
          obtain ⟨out₄, rfl, hmarked₄⟩ := hmarked₃.of_word (hawaits₂.outside rfl).2
          refine ⟨huncaptured, y, output₃, word₃, out ++ out₂ ++ out₄, hexp₂.trans hy, hawaits₃,
            hunbroken₃, ?_,
            hfirst.substitute hs.lookup_nil ▸ (hmarked.append hmarked₂).append hmarked₄⟩
          rw [hout₃, ← List.append_assoc, hout₂]
          simp
        · rintro ⟨hcaptured, hcaptures⟩
          exact ⟨hcaptured, hcaptures.of_expansion hexp₂⟩
      · -- a parameter in the argument is found
        refine .inr ⟨fun hand => ?_, captures_of_meets (by simpa using hexp.trans hx) hmeets₂⟩
        have hnone := hand.1 _ hfirst₂.mem
        rw [hfirst₂.bound] at hnone
        cases hnone

end Whole

/-! ### Simultaneous substitution -/

/-- **The expansion is simultaneous substitution**: a parameter is replaced where it occurs in
the body and nowhere else, and what is put out up to the terminator is the body with the
arguments substituted, but for line corrections. -/
def Simultaneous (env : PpEnv Λ) (t : PpState Λ) (bindings : List (Bstring × Bstring))
    (body rest : List Char) : Prop :=
  ∃ u v out, Expansion env t (replacements bindings [] body (macroTerminate ++ rest)) u ∧
    u.entered = some (.macroTermHandle, v) ∧ v.frame.pending = rest ∧
    v.frame.cachedOutput = t.frame.cachedOutput ++ out ∧
    Marked t.frame.currentFilename (substitute bindings [] .outside body) out

/-- A text can be read from here: the output ends with no string, word or terminator that it could
go on. -/
structure PpState.Starts (t : PpState Λ) : Prop where
  outside : Quotes.outside.Stands t.frame
  boundary : Boundary t.frame.cachedOutput
  unbroken : Unbroken t.frame.cachedOutput

/-- Calls of macros: the parameters are distinct words, strings are closed, and the call is
not within a word. -/
structure PpState.RegularCall (t : PpState Λ) (bindings : List (Bstring × Bstring))
    (replacement : List Char) : Prop extends t.Starts where
  terminator : macroTermMatch ∈ t.handlers
  nodup : (bindings.map Prod.fst).Nodup
  names : ∀ b ∈ bindings, b.1 ≠ [] ∧ ∀ c ∈ b.1, isWordChar c = true
  unnamed : bindings.lookup "MACROTERMINATE".toList = none
  body : Regular (bindings.map Prod.fst) replacement
  arguments : ∀ w ∈ words [] .outside replacement, ∀ argument, bindings.lookup w.1 = some argument →
    Regular (bindings.map Prod.fst) argument

theorem Captures.not_simultaneous {env : PpEnv Λ} {t : PpState Λ}
    {bindings : List (Bstring × Bstring)} {body rest : List Char}
    (h : Captures env t (replacements bindings [] body (macroTerminate ++ rest))) :
    ¬ Simultaneous env t bindings body rest := by
  obtain ⟨u, v, texts, replacement, hu, hentered, hnot⟩ := h
  rintro ⟨w, x, out, hw, hterm, -⟩
  rcases hu.comparable hw with ⟨more, hmore, hexp⟩ | ⟨more, hmore, hexp⟩
  · rw [hmore] at hnot
    cases hexp with
    | refl =>
      rw [hentered] at hterm
      cases hterm
    | turn hs =>
      rw [hentered] at hs
      cases hs
    | replace hs ht h => exact hnot ⟨_, by rw [List.append_assoc]; rfl⟩
  · cases hexp with
    | refl =>
      rw [hentered] at hterm
      cases hterm
    | turn hs =>
      rw [hterm] at hs
      cases hs
    | replace hs =>
      rw [hterm] at hs
      cases hs

/-- A text is awaited. -/
theorem PpState.Starts.awaits {env : PpEnv Λ} {t : PpState Λ} {α : Type} {handler : α → Handler}
    {names : List (Bstring × α)} (h : t.Starts) (hs : t.Binds handler names)
    (hquiet : t.OnlyFinds env names) :
    ∃ u, Expansion env t [] u ∧ t.Awaits u .outside t.frame.cachedOutput [] t.frame.pending := by
  have hreads : t.Reads t (t.frame.cachedOutput ++ []) t.frame.pending .outside := by
    rw [List.append_nil]
    exact .refl t h.outside
  rcases hnext : t.frame.next with - | i
  · exact ⟨t, .refl t, hreads, hnext, fun _ => ⟨h.boundary, nofun⟩, fun h => absurd rfl h⟩
  · rcases hreads.settle hs hquiet (.refl t) hnext (.inr hs.lookup_nil) h.boundary nofun
        (fun _ => standsAlone_of_forall _ nofun)
        (by rw [List.append_nil]; exact h.unbroken.not_suffix) with
      ⟨u, hu, hawaits, -⟩ | ⟨u, argument, -, -, hlookup⟩
    · exact ⟨u, hu, hawaits⟩
    · rw [hs.lookup_nil] at hlookup
      cases hlookup

/-- **A call of a macro**: the body with the arguments substituted is put out, or text is
replaced that is not of the body. -/
theorem simultaneous_or_captures {env : PpEnv Λ} {r s t : PpState Λ} {full replacement : Bstring}
    {again : Bool} {arguments : List Bstring} {rest : List Char}
    (hentered : r.entered = some (.macroHandle full replacement, s))
    (hcall : s.macroHandle full replacement = .ok (t, again))
    (harguments : s.callArguments = some (arguments, rest))
    (hregular : t.RegularCall (callBindings full arguments) replacement)
    (hquiet : t.OnlyFinds env (callBindings full arguments)) :
    (Uncaptured (callBindings full arguments) [] replacement ∧
        Simultaneous env t (callBindings full arguments) replacement rest) ∨
      ¬ Uncaptured (callBindings full arguments) [] replacement ∧
        Captures env t
          (replacements (callBindings full arguments) [] replacement (macroTerminate ++ rest)) := by
  have hcursor : s.frame.printIndex = 0 := by
    obtain ⟨i, m, -, -, -, -, rfl⟩ := PpState.entered_match hentered
    rfl
  obtain ⟨called, rfl, hcursor', hsuffix, hlength⟩ := called_of_macroHandle hcursor hcall harguments
  have hpending : (called.called rest ((macroParameters full).zip arguments)
      replacement).frame.pending = replacement ++ (macroTerminate ++ rest) :=
    (called_reads hcursor' hsuffix hregular.body.zero).1
  have hbinds : (called.called rest ((macroParameters full).zip arguments) replacement).Binds
      .replaceHandle (callBindings full arguments) := by
    refine ⟨fun name argument hbound => hregular.names _ (mem_of_lookup hbound),
      fun name argument hbound => ?_⟩
    have hbound' : (registeredParameters ((macroParameters full).zip arguments)).lookup name =
        some argument := hbound
    rw [find?_eq_head?, called_named _ _ _ hregular.nodup, hbound']
    rfl
  obtain ⟨u, hu, hawaits⟩ := hregular.toStarts.awaits hbinds hquiet
  rw [hpending] at hawaits
  rcases Expansion.expand hbinds hquiet (endsHere_macroTerminate rest) replacement hu hawaits
      hregular.unbroken hregular.body.closed hregular.body.one hregular.body.alone
      (fun _ => hbinds.lookup_nil)
      hregular.arguments with
    ⟨huncaptured, v, output', word', out, hv, hawaits', hunbroken, hout, hmarked⟩ |
    ⟨hcaptured, hcaptures⟩
  · obtain ⟨w, x, i, hw, hterm, hreads, -⟩ := Expansion.read_terminator hbinds hquiet
      hregular.terminator hregular.unnamed (hu.trans hv) hawaits' hunbroken
    refine .inl ⟨huncaptured, w, x, out, ?_, hterm, hreads.pending, hreads.output.trans hout,
      hmarked⟩
    simpa using (hu.trans hv).trans hw
  · exact .inr ⟨hcaptured, hcaptures.of_expansion hu⟩

/-! ### Calls that are run -/

/-- Whether nothing but parameters is replaced in as many turns, up to a terminator. -/
def replacesOnly (env : PpEnv Λ) (bindings : List (Bstring × Bstring)) : ℕ → PpState Λ → Bool
  | 0, _ => false
  | n + 1, s =>
    let goOn := match step env s with
      | .running t => replacesOnly env bindings n t
      | _ => true
    match s.frame.next.bind (s.handlers[·]?) with
    | none => goOn
    | some m =>
      if (s.frame.matchTest m).1 = false then goOn
      else if m = macroTermMatch then true
      else (bindings.any fun b => m = nameMatch b.1 (.replaceHandle b.2)) && goOn

section Runs

variable {env : PpEnv Λ} {s t : PpState Λ} {bindings : List (Bstring × Bstring)}
  {texts : List (List Char)} {n : ℕ}

theorem replacesOnly_of_expansion (h : Expansion env s texts t)
    (hs : replacesOnly env bindings n s = true) : ∃ m, replacesOnly env bindings m t = true := by
  induction h generalizing n with
  | refl => exact ⟨n, hs⟩
  | @turn s t u texts hentered hstep _ ih =>
    cases n with
    | zero => cases hs
    | succ n =>
      refine ih (n := n) ?_
      rw [PpState.entered] at hentered
      rw [replacesOnly, hstep] at hs
      rcases hnext : s.frame.next with - | i
      · simpa [hnext] using hs
      · rcases hm : s.handlers[i]? with - | m
        · simpa [hnext, hm] using hs
        · rcases hfound : (s.frame.matchTest m).1 with - | -
          · simpa [hnext, hm, hfound] using hs
          · simp [hnext, hm, hfound] at hentered
  | @replace s t u v texts replacement hentered hstep _ ih =>
    cases n with
    | zero => cases hs
    | succ n =>
      refine ih (n := n) ?_
      obtain ⟨i, m, hnext, hm, hfound, hhandler, -⟩ := PpState.entered_match hentered
      have hne : m ≠ macroTermMatch := by
        rintro rfl
        cases hhandler
      rw [replacesOnly, hstep] at hs
      simp only [hnext, Option.bind_some, hm, hfound, Bool.true_eq_false, if_false, if_neg hne,
        Bool.and_eq_true] at hs
      exact hs.2

theorem onlyFinds_of_replacesOnly (hs : replacesOnly env bindings n s = true) :
    s.OnlyFinds env bindings := by
  intro texts t i m hexp hnext hm hfound
  obtain ⟨k, hk⟩ := replacesOnly_of_expansion hexp hs
  cases k with
  | zero => cases hk
  | succ k =>
    rw [replacesOnly] at hk
    simp only [hnext, Option.bind_some, hm, hfound, Bool.true_eq_false, if_false] at hk
    split at hk
    · rename_i hterm
      exact .inl hterm
    · obtain ⟨b, hb, hmb⟩ := List.any_eq_true.mp (Bool.and_eq_true_iff.mp hk).1
      refine .inr ⟨b.1, _, ?_, of_decide_eq_true hmb⟩
      exact isSome_lookup_of_mem hb

end Runs

instance (t : PpState Λ) : Decidable t.Starts :=
  decidable_of_iff ((t.frame.inSingleString = false ∧ t.frame.inDoubleString = false) ∧
      t.frame.cachedOutput.getLast?.all (!isWordChar ·) = true ∧
      t.frame.cachedOutput.getLast? ≠ some '\x01')
    ⟨fun ⟨ho, hb, hu⟩ => ⟨ho, fun c hc => by simpa using (Option.all_eq_true _ _).mp hb c hc, hu⟩,
      fun h => ⟨h.outside, (Option.all_eq_true _ _).mpr fun c hc => by simpa using h.boundary c hc,
        h.unbroken⟩⟩

instance (t : PpState Λ) (bindings : List (Bstring × Bstring)) (replacement : List Char) :
    Decidable (t.RegularCall bindings replacement) :=
  decidable_of_iff (t.Starts ∧ macroTermMatch ∈ t.handlers ∧
      (bindings.map Prod.fst).Nodup ∧ (∀ b ∈ bindings, b.1 ≠ [] ∧ b.1.all isWordChar = true) ∧
      bindings.lookup "MACROTERMINATE".toList = none ∧
      Regular (bindings.map Prod.fst) replacement ∧
      ∀ w ∈ words [] .outside replacement, ∀ argument ∈ bindings.lookup w.1,
        Regular (bindings.map Prod.fst) argument)
    ⟨fun ⟨hs, ht, hd, hn, hm, hr, ha⟩ =>
        ⟨hs, ht, hd, fun b hb => ⟨(hn b hb).1, List.all_eq_true.mp (hn b hb).2⟩, hm, hr, ha⟩,
      fun h => ⟨h.toStarts, h.terminator, h.nodup,
        fun b hb => ⟨(h.names b hb).1, List.all_eq_true.mpr (h.names b hb).2⟩, h.unnamed,
        h.body, h.arguments⟩⟩

instance (bindings : List (Bstring × Bstring)) (word text : List Char) :
    Decidable (Uncaptured bindings word text) :=
  inferInstanceAs (Decidable (∀ w ∈ words word .outside text,
    ∀ argument ∈ bindings.lookup w.1, ∀ w' ∈ words [] .outside argument,
      bindings.lookup w'.1 = none))

/-- Whether a state enters a regular call in which nothing but parameters is replaced, and
whether no argument contains a parameter. -/
def regularCall (env : PpEnv Λ) (n : ℕ) (uncaptured : Bool) : Outcome Λ → Bool
  | .running r =>
    match r.entered with
    | some (.macroHandle full replacement, s) =>
      match s.macroHandle full replacement, s.callArguments with
      | .ok (t, _), some (arguments, _) =>
        let bindings := callBindings full arguments
        decide (t.RegularCall bindings replacement) && replacesOnly env bindings n t &&
          (decide (Uncaptured bindings [] replacement) == uncaptured)
      | _, _ => false
    | _ => false
  | _ => false

theorem exists_of_regularCall {env : PpEnv Λ} {n : ℕ} {uncaptured : Bool} {o : Outcome Λ}
    (h : regularCall env n uncaptured o = true) :
    ∃ r s t full replacement again arguments rest, o = .running r ∧
      r.entered = some (.macroHandle full replacement, s) ∧
      s.macroHandle full replacement = .ok (t, again) ∧
      s.callArguments = some (arguments, rest) ∧
      t.RegularCall (callBindings full arguments) replacement ∧
      t.OnlyFinds env (callBindings full arguments) ∧
      decide (Uncaptured (callBindings full arguments) [] replacement) = uncaptured := by
  unfold regularCall at h
  split at h
  · split at h
    · rename_i hentered
      split at h
      · rename_i hcall harguments
        dsimp only at h
        rw [Bool.and_eq_true, Bool.and_eq_true] at h
        exact ⟨_, _, _, _, _, _, _, _, rfl, hentered, hcall, harguments,
          of_decide_eq_true h.1.1, onlyFinds_of_replacesOnly h.1.2, beq_iff_eq.mp h.2⟩
      · cases h
    · cases h
  · cases h

/-! ### Exactly where -/

/-- **An expansion in which nothing but parameters is replaced is simultaneous substitution**
exactly where no argument of a parameter that occurs in the body contains a parameter. -/
theorem simultaneous_iff (env : PpEnv Λ) {r s t : PpState Λ} {full replacement : Bstring}
    {again : Bool} {arguments : List Bstring} {rest : List Char}
    (hentered : r.entered = some (.macroHandle full replacement, s))
    (hcall : s.macroHandle full replacement = .ok (t, again))
    (harguments : s.callArguments = some (arguments, rest))
    (hregular : t.RegularCall (callBindings full arguments) replacement)
    (hquiet : t.OnlyFinds env (callBindings full arguments)) :
    Simultaneous env t (callBindings full arguments) replacement rest ↔
      Uncaptured (callBindings full arguments) [] replacement := by
  have hcases := simultaneous_or_captures hentered hcall harguments hregular hquiet
  constructor
  · intro hsimultaneous
    rcases hcases with ⟨huncaptured, -⟩ | ⟨-, hcaptures⟩
    · exact huncaptured
    · exact absurd hsimultaneous hcaptures.not_simultaneous
  · intro huncaptured
    rcases hcases with ⟨-, hsimultaneous⟩ | ⟨hcaptured, -⟩
    · exact hsimultaneous
    · exact absurd huncaptured hcaptured

end DcpuToolchain
