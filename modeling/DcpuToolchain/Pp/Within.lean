import DcpuToolchain.Pp.Arguments
import DcpuToolchain.Pp.Nested

/-!
# A call with the calls within it

The body of a macro is read within the scope of its call. A call in it opens a scope of its own,
which is left as it was entered when the terminator behind its body is read
(`DcpuToolchain.popScope_called`). So from the state in which a text is read within calls the
preprocessor comes to its end with that put out which `DcpuToolchain.ReadsAs` says
(`DcpuToolchain.ReadsAs.reads`), by induction on what is read: a text up to its first name, what
replaces the name and the text behind it, or the body of the call up to its terminator and the text
behind the call.
-/

namespace DcpuToolchain

variable {Λ : Type}

/-! ### Turns within a scope -/

/-- **Turns in which the scopes that are open stay so**: there are at least as many in every
state. -/
inductive Within (env : PpEnv Λ) (depth : ℕ) : PpState Λ → PpState Λ → Prop
  | refl (s : PpState Λ) : Within env depth s s
  | turn {s t u : PpState Λ} (ht : step env s = .running t) (hdepth : depth ≤ t.scopes.length)
      (h : Within env depth t u) : Within env depth s u

section Turns

variable {env : PpEnv Λ} {depth : ℕ} {s t u : PpState Λ} {texts : List (List Char)}

theorem Within.trans (h : Within env depth s t) (h' : Within env depth t u) :
    Within env depth s u := by
  induction h with
  | refl => exact h'
  | turn ht hdepth _ ih => exact .turn ht hdepth (ih h')

theorem Expansion.keeps (h : Expansion env s texts t) :
    t.handlers = s.handlers ∧ t.scopes = s.scopes := by
  have hturn : ∀ {s t : PpState Λ}, s.entered = none → step env s = .running t →
      t.handlers = s.handlers ∧ t.scopes = s.scopes := by
    intro s t hs ht
    rcases step_of_not_entered hs ht with ⟨i, m, -, -, -, rfl⟩ | ⟨i, -, -, rfl⟩ |
      ⟨-, -, parent, parents, -, rfl⟩ | ⟨-, -, rfl⟩ <;> exact ⟨rfl, rfl⟩
  induction h with
  | refl => exact ⟨rfl, rfl⟩
  | turn hs ht _ ih => exact ⟨ih.1.trans (hturn hs ht).1, ih.2.trans (hturn hs ht).2⟩
  | replace hs ht _ ih =>
    obtain ⟨i, m, -, -, -, -, rfl⟩ := PpState.entered_match hs
    rw [step_of_entered env hs] at ht
    obtain rfl := Outcome.running.inj ht
    exact ih

theorem Expansion.within (h : Expansion env s texts t) (hdepth : depth ≤ s.scopes.length) :
    Within env depth s t := by
  induction h with
  | refl => exact .refl _
  | turn hs ht _ ih =>
    have hscopes := (Expansion.turn hs ht (.refl _)).keeps.2
    rw [← hscopes] at hdepth
    exact .turn ht hdepth (ih hdepth)
  | replace hs ht _ ih =>
    have hscopes := (Expansion.replace hs ht (.refl _)).keeps.2
    rw [← hscopes] at hdepth
    exact .turn ht hdepth (ih hdepth)

end Turns

/-! ### Names that are in force -/

/-- The names that are in force, with the terminator; what is found besides is one of the other
handlers. -/
structure PpState.InForce (others : List Match) (s : PpState Λ)
    (names : List (Bstring × Handler)) : Prop extends s.Binds id names where
  terminator : macroTermMatch ∈ s.handlers
  unnamed : names.lookup "MACROTERMINATE".toList = none
  registers : ∀ m ∈ s.handlers,
    m ∈ others ∨ ∃ name handler, (names.lookup name).isSome ∧ m = nameMatch name handler

/-- **Nothing but the names is found in an expansion** of the handlers that are in force outside of
the call. -/
def PpState.QuietWithin (env : PpEnv Λ) (t : PpState Λ) (names : List (Bstring × Handler)) : Prop :=
  ∀ u i m, Within env t.scopes.length t u → u.frame.next = some i → u.handlers[i]? = some m →
    (u.frame.matchTest m).1 = true → m ∈ t.popScope.handlers →
      m = macroTermMatch ∨ ∃ name handler, (names.lookup name).isSome ∧ m = nameMatch name handler

section InForce

variable {env : PpEnv Λ} {s t u : PpState Λ} {others : List Match} {rest body : List Char}
  {names names' : List (Bstring × Handler)} {calls : List (List (Bstring × Bstring))}
  {full : Bstring} {arguments : List Bstring}

theorem PpState.InForce.congr (h : s.InForce others names) (ht : s.SameNames t) :
    t.InForce others names where
  identifiers := h.identifiers
  registered name value hlookup := (ht.find? name).trans (h.registered name value hlookup)
  terminator := ht.mem_iff.mpr h.terminator
  unnamed := h.unnamed
  registers m hm := h.registers m (ht.mem_iff.mp hm)

theorem isSome_lookup_inForce {name : Bstring} (h : (names.lookup name).isSome = true) :
    ((inForce names calls).lookup name).isSome = true := by
  rw [Option.isSome_iff_ne_none] at h ⊢
  exact fun hnone => h (standsFor_of_unbound hnone).1

/-- Only the names are found while a text is read within calls. -/
theorem PpState.InForce.onlyFinds (h : u.InForce t.popScope.handlers (inForce names calls))
    (hquiet : t.QuietWithin env names) (hwithin : Within env t.scopes.length t u)
    (hdepth : t.scopes.length ≤ u.scopes.length) : u.OnlyFinds env (inForce names calls) := by
  intro texts v i m hexp hnext hm hfound
  have hmem : m ∈ u.handlers := hexp.keeps.1 ▸ List.mem_of_getElem? hm
  rcases h.registers m hmem with hother | hname
  · rcases hquiet v i m (hwithin.trans (hexp.within hdepth)) hnext hm hfound hother with
      rfl | ⟨name, handler, hlookup, rfl⟩
    · exact .inl rfl
    · exact .inr ⟨name, handler, isSome_lookup_inForce hlookup, rfl⟩
  · exact .inr hname

theorem CallsWithin.sublist (h : CallsWithin calls full body arguments) :
    ((callBindings full arguments).map Prod.fst).Sublist (macroParameters full) := by
  have hzip := List.map_fst_zip (Nat.le_of_eq h.length.symm)
  exact hzip ▸ List.filter_sublist.map Prod.fst

theorem CallsWithin.registered_nodup (h : CallsWithin calls full body arguments) :
    ((callBindings full arguments).map Prod.fst).Nodup := h.sublist.nodup h.nodup

/-- **The names of a call** are its parameters and the names that are in force around it. -/
theorem PpState.InForce.called (h : s.InForce others (inForce names calls))
    (hcall : CallsWithin calls full body arguments) :
    (s.called rest ((macroParameters full).zip arguments) body).InForce others
      (inForce names (callBindings full arguments :: calls)) := by
  have hparameter : ∀ {word argument : List Char},
      (callBindings full arguments).lookup word = some argument → word ∈ macroParameters full :=
    fun hlookup => hcall.sublist.subset
      (List.mem_map_of_mem (f := Prod.fst) (mem_of_lookup hlookup))
  have hnamed := called_named s rest body hcall.registered_nodup
  rw [← callBindings] at hnamed
  refine ⟨⟨fun name value hlookup => ?_, fun name value hlookup => ?_⟩, ?_, ?_, fun m hm => ?_⟩
  · rw [lookup_inForce_cons] at hlookup
    rcases hbound : (callBindings full arguments).lookup name with - | argument
    · rw [hbound] at hlookup
      exact h.identifiers name value hlookup
    · exact hcall.identifiers name (hparameter hbound)
  · have hfirst := hnamed name
    rw [lookup_inForce_cons] at hlookup
    rw [find?_eq_head?, hfirst]
    rcases hbound : (callBindings full arguments).lookup name with - | argument
    · rw [hbound] at hlookup
      exact (find?_eq_head? _ _).symm.trans (h.registered name value hlookup)
    · rw [hbound] at hlookup
      rw [← Option.some.inj hlookup]
      rfl
  · -- the terminator is no identifier
    have hterm := hnamed macroTermMatch.text
    rcases hbound : (callBindings full arguments).lookup macroTermMatch.text with - | argument
    · rw [hbound] at hterm
      rw [mem_iff_mem_named, hterm]
      exact mem_iff_mem_named.mp h.terminator
    · have hchar := (hcall.identifiers _ (hparameter hbound)).2 '\x01' (by decide)
      exact absurd hchar (by decide)
  · rw [lookup_inForce_cons]
    rcases hbound : (callBindings full arguments).lookup "MACROTERMINATE".toList with - | argument
    · exact h.unnamed
    · exact absurd (hparameter hbound) hcall.unnamed
  · have hname := hnamed m.text
    rw [mem_iff_mem_named, hname] at hm
    rcases hbound : (callBindings full arguments).lookup m.text with - | argument
    · rw [hbound] at hm
      refine (h.registers m (mem_iff_mem_named.mpr hm)).imp_right ?_
      rintro ⟨name, handler, hlookup, rfl⟩
      refine ⟨name, handler, ?_, rfl⟩
      rw [lookup_inForce_cons, Option.isSome_or, hlookup, Bool.or_true]
    · rw [hbound] at hm
      refine .inr ⟨m.text, .replaceHandle argument, ?_, List.mem_singleton.mp hm⟩
      rw [lookup_inForce_cons, hbound]
      rfl

end InForce

/-! ### Reading within calls -/

/-- **A text is read within calls**: the names are in force, and what has been read of a word is no
name. -/
structure PpState.Reading (env : PpEnv Λ) (t : PpState Λ) (names : List (Bstring × Handler))
    (u : PpState Λ) (output word text : List Char) : Prop where
  within : Within env t.scopes.length t u
  depth : t.scopes.length ≤ u.scopes.length
  forces : u.InForce t.popScope.handlers names
  awaits : u.Awaits u .outside output word text
  unbroken : Unbroken output
  ends : word = [] ∨ endsHere text
  unbound : names.lookup word = none
  alone : standsAlone (names.map Prod.fst) word = true

theorem PpState.Awaits.self {s t : PpState Λ} {q : Quotes} {output word text : List Char}
    (h : s.Awaits t q output word text) : t.Awaits t q output word text where
  reads := ⟨rfl, rfl, rfl, rfl, h.reads.output, h.reads.pending, h.reads.quotes⟩
  next := h.next
  outside := h.outside
  string := h.string

/-- The output does not end with a terminator where a word has begun. -/
theorem Unbroken.not_suffix_word {output word : List Char} (h : Unbroken output)
    (hword : ∀ c ∈ word, isWordChar c = true) : ¬ macroTerminate <:+ output ++ word := by
  rcases List.eq_nil_or_concat' word with rfl | ⟨word, c, rfl⟩
  · rw [List.append_nil]
    exact h.not_suffix
  · rw [← List.append_assoc]
    refine (unbroken_concat _ ?_).not_suffix
    rintro rfl
    exact absurd (hword '\x01' (by simp)) (by decide)

section Reading

variable {env : PpEnv Λ} {t u v w c : PpState Λ} {names : List (Bstring × Handler)}
  {calls : List (List (Bstring × Bstring))} {output word text k name rest : List Char}
  {output₀ word₀ text₀ rest₀ : List Char} {full body replacement : Bstring}
  {arguments : List Bstring}

/-- Between words. -/
theorem PpState.Reading.of_awaits (hwithin : Within env t.scopes.length t u)
    (hdepth : t.scopes.length ≤ u.scopes.length)
    (hforce : u.InForce t.popScope.handlers (inForce names calls))
    (hawaits : u.Awaits u .outside output [] text) (hunbroken : Unbroken output) :
    t.Reading env (inForce names calls) u output [] text where
  within := hwithin
  depth := hdepth
  forces := hforce
  awaits := hawaits
  unbroken := hunbroken
  ends := .inl rfl
  unbound := hforce.lookup_nil
  alone := standsAlone_of_forall _ nofun

theorem PpState.Reading.onlyFinds (hu : t.Reading env (inForce names calls) u output word text)
    (hquiet : t.QuietWithin env names) : u.OnlyFinds env (inForce names calls) :=
  hu.forces.onlyFinds hquiet hu.within hu.depth

theorem words_subset_behind (hends : word = [] ∨ endsHere text) :
    words [] .outside text ⊆ words word .outside text := by
  by_cases hnil : word = []
  · rw [hnil]
    exact List.Subset.refl _
  · rw [words_of_endsHere (hends.resolve_left hnil) hnil]
    exact List.subset_cons_self _ _

/-- **A text is read up to its end**, if it contains no name, or up to the first one. -/
theorem PpState.Reading.read_text
    (hu : t.Reading env (inForce names calls) u output word (text ++ k))
    (hquiet : t.QuietWithin env names)
    (hregular : Regular ((inForce names calls).map Prod.fst) text) (hk : endsHere k) :
    (∃ v output' word' out, t.Reading env (inForce names calls) v output' word' k ∧
        u.SameNames v ∧ v.frame.currentFilename = u.frame.currentFilename ∧
        (∀ w ∈ words [] .outside text, (inForce names calls).lookup w.1 = none) ∧
        output' ++ word' = output ++ word ++ out ∧ Marked u.frame.currentFilename text out) ∨
      ∃ v output' name handler rest mid out, Expansion env u [] v ∧
        u.Meets v output' name handler (rest ++ k) ∧
        FirstBound (inForce names calls) [] .outside text mid name handler rest ∧
        output' = output ++ word ++ out ∧ Marked u.frame.currentFilename mid out ∧
        Unbroken output' := by
  have hbinds := hu.forces.toBinds
  have hends : word = [] ∨ endsHere text := hu.ends.imp_right (endsHere_append hk).mp
  have halone : ∀ w ∈ words word .outside text,
      standsAlone ((inForce names calls).map Prod.fst) w.1 = true := by
    intro w hw
    by_cases hnil : word = []
    · exact hregular.alone w (hnil ▸ hw)
    · rcases words_behind (hends.resolve_left hnil) w hw with heq | hw
      · exact heq ▸ hu.alone
      · exact hregular.alone w hw
  rcases Expansion.read_text hbinds (hu.onlyFinds hquiet) hk text (.refl u) hu.awaits
      hregular.closed hregular.one halone (fun _ _ => hu.unbound) with
    ⟨v, output', word', out, hv, hawaits, hlast, hall, hout, hmarked, hunbroken⟩ |
    ⟨v, output', name, handler, rest, mid, out, hv, hmeets, hfirst, rfl, hmarked, hunbroken⟩
  · refine .inl ⟨v, output', word', out, ?_, .of_eq hawaits.reads.handlers hawaits.reads.scopes,
      hawaits.reads.filename, fun w hw => hall w (words_subset_behind hends hw), hout, hmarked⟩
    exact ⟨hu.within.trans (hv.within hu.depth), hawaits.reads.scopes ▸ hu.depth,
      hu.forces.congr (.of_eq hawaits.reads.handlers hawaits.reads.scopes), hawaits.self,
      hunbroken hu.unbroken, .inr hk,
      last_word (p := fun w => (inForce names calls).lookup w = none) hlast hbinds.lookup_nil hall,
      last_word (p := fun w => standsAlone ((inForce names calls).map Prod.fst) w = true) hlast
        (standsAlone_of_forall _ nofun) halone⟩
  · obtain ⟨mid', rfl, hfirst'⟩ := hfirst.without_word hends hbinds.lookup_nil
    obtain ⟨out', rfl, hmarked'⟩ := hmarked.of_word (hu.awaits.outside rfl).2
    exact .inr ⟨v, _, name, handler, rest, mid', out', hv, hmeets, hfirst', by simp, hmarked',
      hunbroken hu.unbroken⟩

/-- **A name is replaced**, and what replaces it is read. -/
theorem PpState.Reading.replace
    (hu : t.Reading env (inForce names calls) u output₀ word₀ text₀)
    (hquiet : t.QuietWithin env names) (hv : Expansion env u [] v)
    (hmeets : u.Meets v output name (.replaceHandle replacement) text)
    (hunbroken : Unbroken output) (hzero : '\x00' ∉ replacement) :
    ∃ w, t.Reading env (inForce names calls) w output [] (replacement ++ text) ∧ u.SameNames w ∧
      w.frame.currentFilename = u.frame.currentFilename := by
  obtain ⟨w, hw, hawaits⟩ := hmeets.replace hu.forces.toBinds (hu.onlyFinds hquiet) hv hunbroken
    hzero
  have hsame : u.SameNames w := .of_eq hawaits.reads.handlers hawaits.reads.scopes
  refine ⟨w, .of_awaits (hu.within.trans ((hv.trans hw).within hu.depth)) ?_
    (hu.forces.congr hsame) hawaits.self hunbroken, hsame, hawaits.reads.filename⟩
  exact hawaits.reads.scopes ▸ hu.depth

/-- **A macro is called**, and its body is read in a scope of its own. -/
theorem PpState.Reading.call {call : List Char}
    (hu : t.Reading env (inForce names calls) u output₀ word₀ text₀)
    (hquiet : t.QuietWithin env names) (hv : Expansion env u [] v)
    (hmeets : u.Meets v output name (.macroHandle full body) ('(' :: call))
    (harguments : readArguments 0 [] [] call = some (arguments, rest))
    (hcall : CallsWithin calls full body arguments) (hunbroken : Unbroken output)
    (hzero : '\x00' ∉ body) :
    ∃ c w, u.SameNames c ∧
      (c.called rest ((macroParameters full).zip arguments) body).SameNames w ∧
      t.Reading env (inForce names (callBindings full arguments :: calls)) w output []
        (body ++ (macroTerminate ++ rest)) ∧
      w.frame.currentFilename = u.frame.currentFilename := by
  obtain ⟨j, hj, hm, hfound⟩ := hmeets.found
  obtain ⟨e, hentered, hreads, hnext, hcursor⟩ := PpState.Reads.enters hmeets.reads hj hm hfound
  have hsuffix : call <:+ e.frame.pending := hreads.pending ▸ List.suffix_cons _ _
  have hcallReads := e.frame.advanceTo_reads call
  have hstep : step env v =
      .running ((e.readTo call).called rest ((macroParameters full).zip arguments) body) := by
    have hhandle : e.handle env (nameMatch name (.macroHandle full body)).handler = _ :=
      macroHandle_of_bracket hreads.pending harguments hcall.length
    rw [step_of_entered env hentered, hhandle]
    rfl
  have hsame : u.SameNames (e.readTo call) := .of_eq hreads.handlers hreads.scopes
  have hrest : rest <:+ (e.readTo call).frame.pending := by
    rw [PpState.readTo_pending _ hsuffix]
    exact readArguments_suffix harguments
  obtain ⟨hpending, hparents, houtput, hfilename, hsingle, hdouble, hnextCalled⟩ :=
    @called_reads Λ (e.readTo call) rest body ((macroParameters full).zip arguments)
      (hcallReads.printIndex.trans hcursor) hrest hzero
  have hforce : ((e.readTo call).called rest ((macroParameters full).zip arguments) body).InForce
      t.popScope.handlers (inForce names (callBindings full arguments :: calls)) :=
    (hu.forces.congr hsame).called hcall
  have hscopes : ((e.readTo call).called rest ((macroParameters full).zip arguments)
      body).scopes.length = u.scopes.length + 1 := by
    have hkeeps := (registerParameters_keeps (((e.readTo call).readTo rest).pushScope true)
      ((macroParameters full).zip arguments) (List.cons_ne_nil _ _)).2.2
    rw [← hreads.scopes]
    exact hkeeps
  have hdepth : t.scopes.length ≤ ((e.readTo call).called rest
      ((macroParameters full).zip arguments) body).scopes.length := by
    have hdepth := hu.depth
    omega
  have hwithin := hu.within.trans ((hv.within hu.depth).trans (.turn hstep hdepth (.refl _)))
  have hstarts :
      ((e.readTo call).called rest ((macroParameters full).zip arguments) body).Starts := by
    have hout := houtput.trans (hcallReads.cachedOutput.trans hreads.output)
    exact ⟨⟨hsingle.trans (hcallReads.inSingleString.trans hreads.quotes.1),
      hdouble.trans (hcallReads.inDoubleString.trans hreads.quotes.2)⟩,
      hout ▸ hmeets.boundary, hout ▸ hunbroken⟩
  obtain ⟨w, hw, hawaits⟩ := hstarts.awaits hforce.toBinds (hforce.onlyFinds hquiet hwithin hdepth)
  rw [hpending, houtput, show (e.readTo call).frame.cachedOutput = output from
    hcallReads.cachedOutput.trans hreads.output] at hawaits
  have hsameW := PpState.SameNames.of_eq hawaits.reads.handlers hawaits.reads.scopes
  refine ⟨_, w, hsame, hsameW, .of_awaits (hwithin.trans (hw.within hdepth)) ?_
    (hforce.congr hsameW) hawaits.self hunbroken, hawaits.reads.filename.trans
      (hfilename.trans (hcallReads.currentFilename.trans hreads.filename))⟩
  exact hawaits.reads.scopes ▸ hdepth

/-- **A call is left**, and what is behind it is read with the names that are in force there. -/
theorem PpState.Reading.leave
    (hw : t.Reading env (inForce names (callBindings full arguments :: calls)) w output word
      (macroTerminate ++ rest))
    (hquiet : t.QuietWithin env names)
    (hcall : CallsWithin calls full body arguments)
    (hcalled : (c.called rest₀ ((macroParameters full).zip arguments) body).SameNames w)
    (hforce : c.InForce t.popScope.handlers (inForce names calls))
    (hdepth : t.scopes.length ≤ c.scopes.length) (hends : endsHere rest) :
    ∃ x, t.Reading env (inForce names calls) x output word rest ∧ c.SameNames x ∧
      x.frame.currentFilename = w.frame.currentFilename := by
  obtain ⟨e, v, i, he, hentered, hreads, hnext⟩ := Expansion.read_terminator hw.forces.toBinds
    (hw.onlyFinds hquiet) hw.forces.terminator hw.forces.unnamed (.refl w) hw.awaits hw.unbroken
  have hsameV : (c.called rest₀ ((macroParameters full).zip arguments) body).SameNames v :=
    hcalled.trans (.of_eq hreads.handlers hreads.scopes)
  obtain ⟨hsame, hframe⟩ := popScope_called hcall.registered_nodup hsameV
  have hstep : step env e = .running v.popScope := step_of_entered env hentered
  have hdepthV : t.scopes.length ≤ v.popScope.scopes.length := hsame.scopes ▸ hdepth
  have hwithin : Within env t.scopes.length t v.popScope :=
    (hw.within.trans (he.within hw.depth)).trans (.turn hstep hdepthV (.refl _))
  have hforceV := hforce.congr hsame
  -- the names around are among those of the call
  have hunbound : (inForce names calls).lookup word = none := by
    have hnone := hw.unbound
    rw [lookup_inForce_cons, Option.or_eq_none_iff] at hnone
    exact hnone.2
  have halone : standsAlone ((inForce names calls).map Prod.fst) word = true := by
    have hall := hw.alone
    rw [inForce, List.map_append, standsAlone, List.all_append, Bool.and_eq_true] at hall
    exact hall.2
  obtain ⟨hboundary, hword⟩ := hw.awaits.outside rfl
  have hstays : v.popScope.Reads v.popScope (output ++ word) rest .outside := by
    refine ⟨rfl, rfl, rfl, rfl, ?_, ?_, ?_⟩
    · rw [hframe, hreads.output]
    · rw [hframe, hreads.pending]
    · rw [hframe]
      exact hreads.quotes
  rcases hstays.settle hforceV.toBinds (hforceV.onlyFinds hquiet hwithin hdepthV) (.refl _)
      (hframe ▸ hnext) (.inr hunbound) hboundary hword (fun _ => halone)
      (hw.unbroken.not_suffix_word hword) with
    ⟨x, hx, hawaits, -⟩ | ⟨x, _, -, -, hlookup⟩
  · have hsameX := PpState.SameNames.of_eq hawaits.reads.handlers hawaits.reads.scopes
    have hfilename : x.frame.currentFilename = w.frame.currentFilename := by
      rw [hawaits.reads.filename, hframe, hreads.filename]
    refine ⟨x, ⟨hwithin.trans (hx.within hdepthV), ?_, hforceV.congr hsameX, hawaits.self,
      hw.unbroken, .inr hends, hunbound, halone⟩, hsame.trans hsameX, hfilename⟩
    exact hawaits.reads.scopes ▸ hdepthV
  · rw [hunbound] at hlookup
    cases hlookup

end Reading

theorem ReadsAs.regular {names : List (Bstring × Handler)}
    {calls : List (List (Bstring × Bstring))} {text out : List Char}
    (h : ReadsAs names calls text out) : Regular ((inForce names calls).map Prod.fst) text := by
  cases h with
  | done hregular | replace hregular | call hregular => exact hregular

/-- **What is read within calls is put out**, whatever is behind it, and the names are as they
were. -/
theorem ReadsAs.reads {env : PpEnv Λ} {t : PpState Λ} {names : List (Bstring × Handler)}
    {calls : List (List (Bstring × Bstring))} {text out : List Char}
    (h : ReadsAs names calls text out) (hquiet : t.QuietWithin env names) {u : PpState Λ}
    {output word k : List Char} (hk : endsHere k)
    (hu : t.Reading env (inForce names calls) u output word (text ++ k)) :
    ∃ v output' word' out', t.Reading env (inForce names calls) v output' word' k ∧
      u.SameNames v ∧ v.frame.currentFilename = u.frame.currentFilename ∧
      output' ++ word' = output ++ word ++ out' ∧ Marked u.frame.currentFilename out out' := by
  induction h generalizing u output word k with
  | done hregular hall =>
    rcases hu.read_text hquiet hregular hk with
      ⟨v, output', word', out', hv, hsame, hfilename, -, hout, hmarked⟩ |
      ⟨v, output', name, handler, rest, mid, out', -, -, hfirst, -⟩
    · exact ⟨v, output', word', out', hv, hsame, hfilename, hout, hmarked⟩
    · have hbound := hfirst.bound
      rw [hall _ hfirst.mem] at hbound
      cases hbound
  | replace hregular hfirst hclosed hkeeps hreads ih =>
    rcases hu.read_text hquiet hregular hk with
      ⟨v, output', word', out', -, -, -, hall, -⟩ |
      ⟨v, output₁, name, handler, rest, mid, out₁, hv, hmeets, hfirst', rfl, hmarked, hunbroken⟩
    · have hbound := hfirst.bound
      rw [hall _ hfirst.mem] at hbound
      cases hbound
    · obtain ⟨rfl, rfl, rfl, rfl⟩ := hfirst.unique hfirst'
      have hzero := fun hmem => hreads.regular.zero (List.mem_append_left _ hmem)
      obtain ⟨w, hw, hsame, hfilename⟩ := hu.replace hquiet hv hmeets hunbroken hzero
      rw [← List.append_assoc] at hw
      obtain ⟨x, output', word', out', hx, hsame', hfilename', hout, hmarked'⟩ := ih hk hw
      rw [hfilename] at hmarked'
      refine ⟨x, output', word', out₁ ++ out', hx, hsame.trans hsame', hfilename'.trans hfilename,
        ?_, hmarked.append hmarked'⟩
      rw [hout]
      simp
  | call hregular hfirst harguments hcall hends hbody hrest ihbody ihrest =>
    rcases hu.read_text hquiet hregular hk with
      ⟨v, output', word', out', -, -, -, hall, -⟩ |
      ⟨v, output₁, name, handler, rest, mid, out₁, hv, hmeets, hfirst', rfl, hmarked, hunbroken⟩
    · have hbound := hfirst.bound
      rw [hall _ hfirst.mem] at hbound
      cases hbound
    · obtain ⟨rfl, rfl, rfl, rfl⟩ := hfirst.unique hfirst'
      obtain ⟨c, w, hsame, hcalled, hw, hfilename⟩ := hu.call hquiet hv hmeets
        (readArguments_append k harguments) hcall hunbroken hbody.regular.zero
      -- the body, up to its terminator
      obtain ⟨x, output₂, word₂, out₂, hx, hsame₂, hfilename₂, hout₂, hmarked₂⟩ :=
        ihbody (endsHere_macroTerminate _) hw
      obtain ⟨y, hy, hsameY, hfilenameY⟩ := hx.leave hquiet hcall (hcalled.trans hsame₂)
        (hu.forces.congr hsame) (hsame.scopes ▸ hu.depth) ((endsHere_append hk).mpr hends)
      -- and the text behind the call
      obtain ⟨z, output', word', out₃, hz, hsameZ, hfilenameZ, hout, hmarked₃⟩ := ihrest hk hy
      have hname := hfilenameY.trans (hfilename₂.trans hfilename)
      rw [hname] at hmarked₃
      rw [hfilename] at hmarked₂
      refine ⟨z, output', word', out₁ ++ (out₂ ++ out₃), hz, hsame.trans (hsameY.trans hsameZ),
        hfilenameZ.trans hname, ?_, hmarked.append (hmarked₂.append hmarked₃)⟩
      rw [hout, hout₂]
      simp

/-! ### What a call puts out -/

/-- **A text is put out in place of a call**: from the state in which the body of the macro was
printed to the input, the terminator behind it is reached with the text put out, but for line
corrections. -/
def PpState.CallPutsOut (env : PpEnv Λ) (t : PpState Λ) (text rest : List Char) : Prop :=
  ∃ u v out, Within env t.scopes.length t u ∧ u.scopes = t.scopes ∧
    u.entered = some (.macroTermHandle, v) ∧ v.frame.pending = rest ∧
    v.frame.cachedOutput = t.frame.cachedOutput ++ out ∧
    Marked t.frame.currentFilename text out

/-- **A call puts out what is read in its body.** -/
theorem ReadsAs.putsOut {env : PpEnv Λ} {r s t : PpState Λ} {full replacement : Bstring}
    {again : Bool} {arguments : List Bstring} {rest out : List Char}
    {names : List (Bstring × Handler)}
    (hentered : r.entered = some (.macroHandle full replacement, s))
    (hcall : s.macroHandle full replacement = .ok (t, again))
    (harguments : s.callArguments = some (arguments, rest)) (hstarts : t.Starts)
    (hforce : t.popScope.InForce t.popScope.handlers names)
    (hwithin : CallsWithin [] full replacement arguments) (hquiet : t.QuietWithin env names)
    (h : ReadsAs names [callBindings full arguments] replacement out) :
    t.CallPutsOut env out rest := by
  have hcursor : s.frame.printIndex = 0 := by
    obtain ⟨i, m, -, -, -, -, rfl⟩ := PpState.entered_match hentered
    rfl
  obtain ⟨c, rfl, hcursorC, hsuffix, -⟩ := called_of_macroHandle hcursor hcall harguments
  have hpending := (@called_reads Λ c rest replacement ((macroParameters full).zip arguments)
    hcursorC hsuffix h.regular.zero).1
  have hpopped := (popScope_called hwithin.registered_nodup (.refl (c.called rest
    ((macroParameters full).zip arguments) replacement))).1
  have hforceC : c.InForce _ (inForce names []) := hforce.congr hpopped.symm
  have hforceT : (c.called rest ((macroParameters full).zip arguments) replacement).InForce _
      (inForce names [callBindings full arguments]) := hforceC.called hwithin
  obtain ⟨u, hu, hawaits⟩ := hstarts.awaits hforceT.toBinds
    (hforceT.onlyFinds hquiet (.refl _) le_rfl)
  rw [hpending] at hawaits
  have hsame := PpState.SameNames.of_eq hawaits.reads.handlers hawaits.reads.scopes
  have hreading := PpState.Reading.of_awaits (hu.within le_rfl) (hsame.scopes ▸ le_rfl)
    (hforceT.congr hsame) hawaits.self hstarts.unbroken
  obtain ⟨v, output, word, out', hv, hsameV, hfilename, hout, hmarked⟩ :=
    h.reads hquiet (endsHere_macroTerminate rest) hreading
  obtain ⟨w, x, i, hw, hterm, hreads, -⟩ := Expansion.read_terminator hv.forces.toBinds
    (hv.onlyFinds hquiet) hv.forces.terminator hv.forces.unnamed (.refl v) hv.awaits hv.unbroken
  refine ⟨w, x, out', hv.within.trans (hw.within hv.depth), ?_, hterm, hreads.pending, ?_, ?_⟩
  · exact hw.keeps.2.trans (hsameV.scopes.trans hsame.scopes)
  · rw [hreads.output, hout, List.append_nil]
  · rwa [hawaits.reads.filename] at hmarked

/-! ### Calls that are run -/

/-- Whether nothing but names is found of the handlers outside of a call, in as many turns, until
its scope is left. -/
def quietWithin (env : PpEnv Λ) (depth : ℕ) (others : List Match)
    (names : List (Bstring × Handler)) : ℕ → PpState Λ → Bool
  | 0, _ => false
  | n + 1, s =>
    let goOn := match step env s with
      | .running t =>
        if t.scopes.length < depth then true else quietWithin env depth others names n t
      | _ => true
    match s.frame.next.bind (s.handlers[·]?) with
    | none => goOn
    | some m =>
      if (s.frame.matchTest m).1 = false ∨ m ∉ others ∨ m = macroTermMatch ∨
          ((names.lookup m.text).isSome ∧ m = nameMatch m.text m.handler) then goOn
      else false

section Runs

variable {env : PpEnv Λ} {s t : PpState Λ} {names : List (Bstring × Handler)} {n : ℕ}

theorem quietWithin_of_within {depth : ℕ} {others : List Match} (h : Within env depth s t)
    (hs : quietWithin env depth others names n s = true) :
    ∃ m, quietWithin env depth others names m t = true := by
  induction h generalizing n with
  | refl => exact ⟨n, hs⟩
  | turn ht hdepth _ ih =>
    cases n with
    | zero => cases hs
    | succ n =>
      refine ih (n := n) ?_
      rw [quietWithin, ht] at hs
      dsimp only at hs
      rw [if_neg (Nat.not_lt.mpr hdepth)] at hs
      split at hs
      · exact hs
      · split at hs
        · exact hs
        · cases hs

theorem quietWithin_of_check
    (h : quietWithin env t.scopes.length t.popScope.handlers names n t = true) :
    t.QuietWithin env names := by
  intro u i m hu hnext hm hfound hother
  obtain ⟨k, hk⟩ := quietWithin_of_within hu h
  cases k with
  | zero => cases hk
  | succ k =>
    rw [quietWithin, hnext, Option.bind_some, hm] at hk
    dsimp only at hk
    split at hk
    · rename_i hcheck
      rcases hcheck with hnot | hnot | hterm | ⟨hlookup, hname⟩
      · rw [hfound] at hnot
        cases hnot
      · exact absurd hother hnot
      · exact .inl hterm
      · exact .inr ⟨_, _, hlookup, hname⟩
    · cases hk

/-- Whether names are in force, with the terminator. -/
def forces (s : PpState Λ) (names : List (Bstring × Handler)) : Bool :=
  (names.all fun b => b.1 ≠ [] && b.1.all isWordChar &&
      s.handlers.find? (·.text = b.1) = (names.lookup b.1).map (nameMatch b.1)) &&
    macroTermMatch ∈ s.handlers && (names.lookup "MACROTERMINATE".toList).isNone

theorem inForce_of_forces (h : forces s names = true) : s.InForce s.handlers names := by
  rw [forces, Bool.and_eq_true, Bool.and_eq_true, decide_eq_true_iff,
    Option.isNone_iff_eq_none] at h
  obtain ⟨⟨hnames, hterm⟩, hunnamed⟩ := h
  have hcheck : ∀ name value, names.lookup name = some value →
      (name ≠ [] ∧ ∀ c ∈ name, isWordChar c = true) ∧
        s.handlers.find? (·.text = name) = some (nameMatch name value) := by
    intro name value hlookup
    have hone := List.all_eq_true.mp hnames _ (mem_of_lookup hlookup)
    simp only [Bool.and_eq_true, decide_eq_true_iff, List.all_eq_true] at hone
    rw [hlookup] at hone
    exact hone
  exact ⟨⟨fun name value hlookup => (hcheck name value hlookup).1,
    fun name value hlookup => (hcheck name value hlookup).2⟩, hterm, hunnamed, fun m hm => .inl hm⟩

end Runs

/-- Whether a state enters a call in whose expansion only names are found, and in whose body that is
read which is given. -/
def nestedCall (env : PpEnv Λ) (n : ℕ) (names : List (Bstring × Handler)) (out : List Char) :
    Outcome Λ → Bool
  | .running r =>
    match r.entered with
    | some (.macroHandle full replacement, s) =>
      match s.macroHandle full replacement, s.callArguments with
      | .ok (t, _), some (arguments, _) =>
        decide t.Starts && forces t.popScope names &&
          decide (CallsWithin [] full replacement arguments) &&
          quietWithin env t.scopes.length t.popScope.handlers names n t &&
          readWithin names n [callBindings full arguments] replacement = some out
      | _, _ => false
    | _ => false
  | _ => false

/-! ### Calls of macros -/

/-- A call within whose expansion only names and parameters are found: the names that are in force
outside of it are identifiers, and so are the parameters. -/
structure PpState.NestedCall (env : PpEnv Λ) (t : PpState Λ) (names : List (Bstring × Handler))
    (full replacement : Bstring) (arguments : List Bstring) : Prop where
  starts : t.Starts
  forces : t.popScope.InForce t.popScope.handlers names
  within : CallsWithin [] full replacement arguments
  quiet : t.QuietWithin env names

theorem exists_of_nestedCall {env : PpEnv Λ} {n : ℕ} {names : List (Bstring × Handler)}
    {out : List Char} {o : Outcome Λ} (h : nestedCall env n names out o = true) :
    ∃ r s t full replacement again arguments rest, o = .running r ∧
      r.entered = some (.macroHandle full replacement, s) ∧
      s.macroHandle full replacement = .ok (t, again) ∧
      s.callArguments = some (arguments, rest) ∧
      t.NestedCall env names full replacement arguments ∧
      ReadsAs names [callBindings full arguments] replacement out := by
  unfold nestedCall at h
  split at h
  · split at h
    · rename_i hentered
      split at h
      · rename_i hcall harguments
        rw [Bool.and_eq_true, Bool.and_eq_true, Bool.and_eq_true, Bool.and_eq_true] at h
        obtain ⟨⟨⟨⟨hstarts, hforces⟩, hwithin⟩, hquiet⟩, hreads⟩ := h
        exact ⟨_, _, _, _, _, _, _, _, rfl, hentered, hcall, harguments,
          ⟨of_decide_eq_true hstarts, inForce_of_forces hforces, of_decide_eq_true hwithin,
            quietWithin_of_check hquiet⟩, readsAs_of_readWithin (of_decide_eq_true hreads)⟩
      · cases h
    · cases h
  · cases h

/-- **A call of a macro comes to its body with the arguments in place of the parameters**, all at
once, and with the names in force expanded in it, if every text that is put in place of a name
keeps its meaning. Where nothing but the parameters is found in the expansion, that is so exactly
if no argument of a parameter that occurs in the body contains a parameter. -/
theorem call_expands (env : PpEnv Λ) {r s t : PpState Λ} {full replacement : Bstring}
    {again : Bool} {arguments : List Bstring} {rest : List Char}
    (hentered : r.entered = some (.macroHandle full replacement, s))
    (hcall : s.macroHandle full replacement = .ok (t, again))
    (harguments : s.callArguments = some (arguments, rest)) :
    (∀ names out, t.NestedCall env names full replacement arguments →
      ReadsAs names [callBindings full arguments] replacement out →
        Expands names (substitute (callBindings full arguments) [] .outside replacement) out ∧
          t.CallPutsOut env out rest) ∧
      (t.RegularCall (callBindings full arguments) replacement →
        t.OnlyFinds env (callBindings full arguments) →
          (Simultaneous env t (callBindings full arguments) replacement rest ↔
            Uncaptured (callBindings full arguments) [] replacement)) := by
  refine ⟨fun names out hnested hreads => ⟨?_, ?_⟩, fun hregular hquiet => ?_⟩
  · obtain ⟨text, htext⟩ := readArguments_of_callArguments harguments
    have hproper := hnested.within.proper htext
    rw [← resolve_singleton]
    exact hreads.expands (List.forall_mem_singleton.mpr hproper)
  · exact hreads.putsOut hentered hcall harguments hnested.starts hnested.forces hnested.within
      hnested.quiet
  · exact simultaneous_iff env hentered hcall harguments hregular hquiet

/-- A call with a call of the same macro for an argument, and one whose arguments are numbers, in
C. -/
theorem call_expands_nested :
    (∃ r s t full replacement again arguments rest,
      run plainEnv (ppimplNew plainEnv () plainName 1 .c
          "#define f(a,b) a b\nf(f(1,2),3)\n".toList) 184 = .running r ∧
      r.entered = some (.macroHandle full replacement, s) ∧
      s.macroHandle full replacement = .ok (t, again) ∧
      s.callArguments = some (arguments, rest) ∧
      Expands [("f".toList, .macroHandle "f(a,b)".toList "a b".toList)]
        (substitute (callBindings full arguments) [] .outside replacement) "1 2 3".toList ∧
      t.CallPutsOut plainEnv "1 2 3".toList rest) ∧
    ∃ r s t full replacement again arguments rest,
      run plainEnv (ppimplNew plainEnv () plainName 1 .c
          "#define f(a,b) a b\nf(1,2)\n".toList) 184 = .running r ∧
      r.entered = some (.macroHandle full replacement, s) ∧
      s.macroHandle full replacement = .ok (t, again) ∧
      s.callArguments = some (arguments, rest) ∧
      Simultaneous plainEnv t (callBindings full arguments) replacement rest := by
  constructor
  · have hcheck : nestedCall plainEnv 600
        [("f".toList, .macroHandle "f(a,b)".toList "a b".toList)] "1 2 3".toList
        (run plainEnv (ppimplNew plainEnv () plainName 1 .c
          "#define f(a,b) a b\nf(f(1,2),3)\n".toList) 184) = true := by
      decide +kernel
    obtain ⟨r, s, t, full, replacement, again, arguments, rest, hrun, hentered, hcall, harguments,
      hnested, hreads⟩ := exists_of_nestedCall hcheck
    exact ⟨r, s, t, full, replacement, again, arguments, rest, hrun, hentered, hcall, harguments,
      (call_expands plainEnv hentered hcall harguments).1 _ _ hnested hreads⟩
  · have hcheck : regularCall plainEnv 300 true
        (run plainEnv (ppimplNew plainEnv () plainName 1 .c
          "#define f(a,b) a b\nf(1,2)\n".toList) 184) = true := by
      decide +kernel
    obtain ⟨r, s, t, full, replacement, again, arguments, rest, hrun, hentered, hcall, harguments,
      hregular, hquiet, huncaptured⟩ := exists_of_regularCall hcheck
    exact ⟨r, s, t, full, replacement, again, arguments, rest, hrun, hentered, hcall, harguments,
      ((call_expands plainEnv hentered hcall harguments).2 hregular hquiet).mpr
        (of_decide_eq_true huncaptured)⟩

/-- A macro of two parameters, and a call of it. -/
def twoParameters (arguments : List Char) : List Char :=
  ".MACRO f(a,b)\na b\n.ENDMACRO\nf(".toList ++ arguments ++ ")\n".toList

/-- The first argument is the name of the second parameter: `f(b,2)` puts out `2 2`. -/
theorem not_forall_simultaneous :
    ¬ ∀ (env : PpEnv Unit) (lexer : Unit) (filename : Bstring) (line : UInt32) (lang : Language)
      (input : List Char) (n : ℕ) (r s t : PpState Unit) (full replacement : Bstring)
      (again : Bool) (arguments : List Bstring) (rest : List Char),
      run env (ppimplNew env lexer filename line lang input) n = .running r →
      r.entered = some (.macroHandle full replacement, s) →
      s.macroHandle full replacement = .ok (t, again) →
      s.callArguments = some (arguments, rest) →
      t.RegularCall (callBindings full arguments) replacement →
      t.OnlyFinds env (callBindings full arguments) →
        Simultaneous env t (callBindings full arguments) replacement rest := by
  intro h
  have hcheck : regularCall plainEnv 600 false
      (run plainEnv (ppimplNew plainEnv () plainName 1 .asm (twoParameters "b,2".toList)) 330) =
        true := by
    decide +kernel
  obtain ⟨r, s, t, full, replacement, again, arguments, rest, hrun, hentered, hcall, harguments,
    hregular, hquiet, hcaptured⟩ := exists_of_regularCall hcheck
  rcases simultaneous_or_captures hentered hcall harguments hregular hquiet with
    ⟨huncaptured, -⟩ | ⟨-, hcaptures⟩
  · exact of_decide_eq_false hcaptured huncaptured
  · exact hcaptures.not_simultaneous (h _ _ _ _ _ _ _ _ _ _ _ _ _ _ _ hrun hentered hcall
      harguments hregular hquiet)

end DcpuToolchain
