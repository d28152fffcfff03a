import DcpuToolchain.Pp.Expansion

/-!
# Reading up to a name

Definitions, macros and the parameters of a macro are registered as names. A name is found where
a word ends that is the name (`DcpuToolchain.found_name`, `DcpuToolchain.name_of_found`), so that
a text in which nothing else is found is read up to the first of its words that is a name
(`DcpuToolchain.Expansion.read_text`), and the terminator of a macro is found behind it
(`DcpuToolchain.Expansion.read_terminator`).
-/

namespace DcpuToolchain

variable {Λ α : Type}

/-! ### Names -/

/-- The names that are in force are registered: the first handler of each is that of what it
stands for. -/
structure PpState.Binds (s : PpState Λ) (handler : α → Handler) (names : List (Bstring × α)) :
    Prop where
  identifiers : ∀ name value, names.lookup name = some value →
    name ≠ [] ∧ ∀ c ∈ name, isWordChar c = true
  registered : ∀ name value, names.lookup name = some value →
    s.handlers.find? (·.text = name) = some (nameMatch name (handler value))

/-- **No handlers are found in an expansion** but those of the names and that of the terminator. -/
def PpState.OnlyFinds (env : PpEnv Λ) (s : PpState Λ) (names : List (Bstring × α)) : Prop :=
  ∀ texts t i m, Expansion env s texts t → t.frame.next = some i → t.handlers[i]? = some m →
    (t.frame.matchTest m).1 = true →
      m = macroTermMatch ∨ ∃ name handler, (names.lookup name).isSome ∧ m = nameMatch name handler

section Names

variable {s : PpState Λ} {handler : α → Handler} {names : List (Bstring × α)} {b : Bstring × α}

theorem mem_of_lookup {word : Bstring} {value : α} (h : names.lookup word = some value) :
    (word, value) ∈ names := by
  induction names with
  | nil => cases h
  | cons b names ih =>
    rw [List.lookup_cons] at h
    split at h
    · rename_i heq
      rw [← Option.some.inj h, beq_iff_eq.mp heq]
      exact List.mem_cons_self
    · exact List.mem_cons_of_mem _ (ih h)

theorem isSome_lookup_of_mem (hb : b ∈ names) : (names.lookup b.1).isSome = true := by
  rw [Option.isSome_iff_ne_none, ne_eq, List.lookup_eq_none_iff]
  exact fun hall => absurd (hall b hb) (by simp)

theorem PpState.Binds.lookup_nil (h : s.Binds handler names) : names.lookup [] = none := by
  rcases hlookup : names.lookup [] with - | value
  · rfl
  · exact absurd rfl (h.identifiers _ _ hlookup).1

end Names

/-! ### What is found -/

/-- Two searches of a list that accept what each other find. -/
theorem eq_of_find? {β : Type} {p p' : β → Bool} {l : List β} {a b : β}
    (ha : l.find? p = some a) (hb : l.find? p' = some b) (hpb : p b = true) (hpa : p' a = true) :
    a = b := by
  induction l with
  | nil => cases ha
  | cons c l ih =>
    rw [List.find?_cons] at ha hb
    split at ha
    · obtain rfl := Option.some.inj ha
      rw [hpa] at hb
      exact Option.some.inj hb
    · rename_i hc
      split at hb
      · obtain rfl := Option.some.inj hb
        rw [hpb] at hc
        cases hc
      · exact ih ha hb

/-- Behind a text with this ending a word can begin. -/
def Boundary (output : List Char) : Prop := ∀ c ∈ output.getLast?, isWordChar c = false

/-- A text that does not end with the beginning or the end of a terminator. -/
def Unbroken (output : List Char) : Prop := output.getLast? ≠ some '\x01'

theorem unbroken_concat (output : List Char) {c : Char} (hc : c ≠ '\x01') :
    Unbroken (output ++ [c]) := by
  rw [Unbroken, List.getLast?_concat]
  exact fun heq => hc (Option.some.inj heq)

theorem Unbroken.not_suffix {output : List Char} (h : Unbroken output) :
    ¬ macroTerminate <:+ output := by
  rintro ⟨before, rfl⟩
  refine h ?_
  rw [show macroTerminate = "\x01MACROTERMINATE".toList ++ ['\x01'] by decide,
    ← List.append_assoc, List.getLast?_concat]

section Found

variable {f : Frame} {output word text name : List Char} {h : Handler}

theorem isolates_of_not_isWordChar {c : Char} (hc : isWordChar c = false) (atStart : Bool) :
    ppimplIsolates c atStart = true := by
  have hfalse : ppimplIsolates c false = true := by simpa [isWordChar] using hc
  cases atStart with
  | false => exact hfalse
  | true =>
    simp only [ppimplIsolates, decide_eq_true_eq, Bool.true_eq_false, false_and,
      false_or] at hfalse ⊢
    tauto

/-- What ends a text in which a word has begun. -/
theorem suffix_of_boundary (hboundary : Boundary output) (hname : ∀ c ∈ name, isWordChar c = true)
    (hsuffix : name <:+ output ++ word) : name <:+ word := by
  rcases List.suffix_or_suffix_of_suffix hsuffix (List.suffix_append output word) with h | h
  · exact h
  · obtain ⟨before, rfl⟩ := h
    obtain ⟨front, hfront⟩ := hsuffix
    rw [← List.append_assoc] at hfront
    have hout := List.append_cancel_right hfront
    rcases List.eq_nil_or_concat' before with rfl | ⟨before, c, rfl⟩
    · exact List.suffix_rfl
    · -- the name would go on before the word
      have hc := hboundary c (by rw [← hout, ← List.append_assoc, List.getLast?_concat]; rfl)
      rw [hname c (by simp)] at hc
      cases hc

theorem found_nameMatch : (f.matchTest (nameMatch name h)).1 = true ↔
    name <:+ f.cachedOutput ∧ f.isolated name = true := by
  rw [Frame.matchTest, matchesText]
  simp only [nameMatch, Bool.false_eq_true, if_false, if_true]
  split
  · rename_i hnot
    refine iff_of_false (by simp) fun hand => ?_
    rw [List.isSuffixOf_iff_suffix.mpr hand.1] at hnot
    cases hnot
  · rename_i hsuffix
    rw [← List.isSuffixOf_iff_suffix]
    simp [hsuffix]

/-- **A name is found** where a word ends that is the name. -/
theorem found_name (houtput : f.cachedOutput = output ++ word) (hboundary : Boundary output)
    (hpending : endsHere f.pending) :
    (f.matchTest (nameMatch word h)).1 = true := by
  rw [found_nameMatch, houtput, Frame.isolated, Frame.outputBefore, houtput, List.length_append,
    Nat.add_sub_cancel, List.take_left, Bool.and_eq_true, Option.all_eq_true, Option.all_eq_true]
  exact ⟨List.suffix_append _ _, fun c hc => isolates_of_not_isWordChar (hpending c hc) false,
    fun c hc => isolates_of_not_isWordChar (hboundary c hc) true⟩

/-- A name that is found is the whole word, if the word stands alone. -/
theorem name_of_found {names : List Bstring} (hfound : (f.matchTest (nameMatch name h)).1 = true)
    (houtput : f.cachedOutput = output ++ word) (hboundary : Boundary output)
    (hname : ∀ c ∈ name, isWordChar c = true) (hmem : name ∈ names)
    (halone : endsHere f.pending → standsAlone names word = true) :
    name = word ∧ endsHere f.pending := by
  rw [found_nameMatch, houtput, Frame.isolated, Frame.outputBefore, houtput, Bool.and_eq_true,
    Option.all_eq_true, Option.all_eq_true] at hfound
  obtain ⟨hsuffix, hnext, hprev⟩ := hfound
  have hends : endsHere f.pending := fun c hc => by simpa [isWordChar] using hnext c hc
  have hword := suffix_of_boundary hboundary hname hsuffix
  refine ⟨?_, hends⟩
  have hone := List.all_eq_true.mp (halone hends) name hmem
  rw [List.isSuffixOf_iff_suffix.mpr hword, Bool.not_true, Bool.false_or,
    Option.all_eq_true] at hone
  obtain ⟨before, rfl⟩ := hword
  rw [List.length_append, Nat.add_sub_cancel, List.take_left] at hone
  rw [List.length_append, List.length_append, ← Nat.add_assoc, Nat.add_sub_cancel,
    ← List.append_assoc, ← List.length_append, List.take_left] at hprev
  rcases List.eq_nil_or_concat' before with rfl | ⟨before, c, rfl⟩
  · rfl
  · have hc := hone c (List.getLast?_concat ..)
    rw [hprev c (by rw [← List.append_assoc, List.getLast?_concat])] at hc
    cases hc

theorem not_found_macroTermMatch (houtput : ¬ macroTerminate <:+ f.cachedOutput) :
    (f.matchTest macroTermMatch).1 = false := by
  rw [Frame.matchTest, if_pos]
  rw [matchesText, if_neg (by decide), ← Bool.not_eq_true, List.isSuffixOf_iff_suffix]
  exact houtput

end Found

/-! ### Reading a text -/

/-- A state that awaits a character: the output ends with what has been read of a word. -/
structure PpState.Awaits (s t : PpState Λ) (q : Quotes) (output word text : List Char) : Prop where
  reads : s.Reads t (output ++ word) text q
  next : t.frame.next = none
  outside : q = .outside → Boundary output ∧ ∀ c ∈ word, isWordChar c = true
  string : q ≠ .outside → word = []

/-- A state in which the handler of a name is found. -/
structure PpState.Meets (s t : PpState Λ) (output word : List Char) (handler : Handler)
    (text : List Char) : Prop where
  reads : s.Reads t (output ++ word) text .outside
  found : ∃ j, t.frame.next = some j ∧ s.handlers[j]? = some (nameMatch word handler) ∧
    (t.frame.matchTest (nameMatch word handler)).1 = true
  boundary : Boundary output
  ends : endsHere text

section Reading

variable {env : PpEnv Λ} {s t : PpState Λ} {handler : α → Handler} {names : List (Bstring × α)}
  {texts : List (List Char)} {output word text : List Char} {q : Quotes}

/-- **The handlers are tried** on the end of a word, or where there is none: if it is a name, its
handler is found. -/
theorem PpState.Reads.settle (hs : s.Binds handler names) (hquiet : s.OnlyFinds env names)
    (hreach : Expansion env s texts t) (h : s.Reads t (output ++ word) text .outside) {i : ℕ}
    (hnext : t.frame.next = some i) (hi : i = 0 ∨ names.lookup word = none)
    (hboundary : Boundary output) (hword : ∀ c ∈ word, isWordChar c = true)
    (halone : endsHere text → standsAlone (names.map Prod.fst) word)
    (hterm : ¬ macroTerminate <:+ output ++ word) :
    (∃ u, Expansion env t [] u ∧ s.Awaits u .outside output word text ∧
        (endsHere text → names.lookup word = none)) ∨
      ∃ u value, Expansion env t [] u ∧ s.Meets u output word (handler value) text ∧
        names.lookup word = some value := by
  obtain ⟨u, hexp, hreads, hlast⟩ := h.tries env hnext
  have halone' : endsHere u.frame.pending → standsAlone (names.map Prod.fst) word :=
    hreads.pending ▸ halone
  -- the handler of the word is found where the word is a name
  have hfoundWord : ∀ value, endsHere u.frame.pending →
      (u.frame.matchTest (nameMatch word (handler value))).1 = true := fun value hends =>
    found_name hreads.output hboundary hends
  rcases hlast with ⟨hnone, hall⟩ | ⟨j, m, hj, hm, hfound, hfirst⟩
  · refine .inl ⟨u, hexp, ⟨hreads, hnone, fun _ => ⟨hboundary, hword⟩, fun h => absurd rfl h⟩,
      fun hends => ?_⟩
    rcases hi with rfl | hi
    · rcases hlookup : names.lookup word with - | value
      · rfl
      · have hnot := hall _ (List.mem_of_find?_eq_some (hs.registered _ _ hlookup))
        rw [hfoundWord value (hreads.pending ▸ hends)] at hnot
        cases hnot
    · exact hi
  · have hreachU := hreach.trans hexp
    rw [List.append_nil] at hreachU
    rcases hquiet _ _ _ _ hreachU hj (hreads.handlers ▸ hm) hfound with
      rfl | ⟨name, handler', hlookup, rfl⟩
    · rw [not_found_macroTermMatch (hreads.output ▸ hterm)] at hfound
      cases hfound
    · obtain ⟨value, hlookup⟩ := Option.isSome_iff_exists.mp hlookup
      obtain ⟨rfl, hends⟩ := name_of_found hfound hreads.output hboundary
        (hs.identifiers _ _ hlookup).2 (List.mem_map_of_mem (mem_of_lookup hlookup)) halone'
      rcases hi with rfl | hi
      · -- it is the first handler of the name
        obtain heq := eq_of_find? hfirst (hs.registered _ _ hlookup) (hfoundWord value hends)
          (decide_eq_true rfl)
        rw [heq] at hm hfound
        exact .inr ⟨u, value, hexp, ⟨hreads, ⟨j, hj, hm, hfound⟩, hboundary,
          hreads.pending ▸ hends⟩, hlookup⟩
      · rw [hi] at hlookup
        cases hlookup

/-- A character of a word is read. -/
theorem PpState.Awaits.wordChar (hs : s.Binds handler names) (hquiet : s.OnlyFinds env names)
    (hreach : Expansion env s texts t) {c : Char} (h : s.Awaits t .outside output word (c :: text))
    (hc : isWordChar c = true)
    (halone : endsHere text → standsAlone (names.map Prod.fst) (word ++ [c])) :
    (∃ u, Expansion env t [] u ∧ s.Awaits u .outside output (word ++ [c]) text ∧
        (endsHere text → names.lookup (word ++ [c]) = none)) ∨
      ∃ u value, Expansion env t [] u ∧ s.Meets u output (word ++ [c]) (handler value) text ∧
        names.lookup (word ++ [c]) = some value := by
  obtain ⟨u, mark, hexp, hmark, hreads, hnext⟩ := h.reads.fetch env h.next
  have hmark : mark = [] := hmark.resolve_right (by rintro ⟨rfl, -⟩; exact absurd hc (by decide))
  obtain ⟨hboundary, hword⟩ := h.outside rfl
  rw [hmark, List.append_nil, List.append_assoc, Quotes.next_outside hc] at hreads
  rw [Quotes.next_outside hc, if_pos rfl] at hnext
  have hreachU := hreach.trans hexp
  have hword' : ∀ c' ∈ word ++ [c], isWordChar c' = true := by
    simpa [or_imp, forall_and] using ⟨hword, hc⟩
  have hterm : ¬ macroTerminate <:+ output ++ (word ++ [c]) := by
    rw [← List.append_assoc]
    refine (unbroken_concat _ ?_).not_suffix
    rintro rfl
    exact absurd hc (by decide)
  rcases hreads.settle hs hquiet hreachU hnext (.inl rfl) hboundary hword' halone hterm with
    ⟨v, hv, hawaits⟩ | ⟨v, argument, hv, hmeets⟩
  · exact .inl ⟨v, hexp.trans hv, hawaits⟩
  · exact .inr ⟨v, argument, hexp.trans hv, hmeets⟩

/-- A character that ends a word or is in a string is read. -/
theorem PpState.Awaits.otherChar (hs : s.Binds handler names) (hquiet : s.OnlyFinds env names)
    (hreach : Expansion env s texts t) {c : Char} (h : s.Awaits t q output word (c :: text))
    (hc : ¬ (q = .outside ∧ isWordChar c = true))
    (hterm : c = '\x01' → ¬ macroTerminate <:+ output ++ word ++ [c]) :
    ∃ u mark, Expansion env t [] u ∧
      (mark = [] ∨ c = '\n' ∧ ∃ line, mark = lineCorrection line s.frame.currentFilename) ∧
      s.Awaits u (q.next c) (output ++ word ++ mark ++ [c]) [] text := by
  obtain ⟨u, mark, hexp, hmark, hreads, hnext⟩ := h.reads.fetch env h.next
  by_cases hq : q.next c = .outside
  · have hother : isWordChar c = false := by
      cases q with
      | outside => simpa using hc
      | single escaped | double escaped =>
        rw [Quotes.next] at hq
        split at hq
        · rename_i hend
          rcases hend with ⟨rfl, -⟩ | rfl <;> decide
        · cases hq
    rw [hq] at hreads hnext ⊢
    rw [if_pos rfl] at hnext
    rw [← List.append_nil (output ++ word ++ mark ++ [c])] at hreads
    have hboundary : Boundary (output ++ word ++ mark ++ [c]) := by
      intro c' hc'
      rw [List.getLast?_concat] at hc'
      rw [← Option.some.inj hc', hother]
    have hterm' : ¬ macroTerminate <:+ output ++ word ++ mark ++ [c] ++ [] := by
      rw [List.append_nil]
      by_cases hone : c = '\x01'
      · rw [hmark.resolve_right (by rintro ⟨rfl, -⟩; exact absurd hone (by decide)),
          List.append_nil]
        exact hterm hone
      · exact (unbroken_concat _ hone).not_suffix
    have halone : endsHere text → standsAlone (names.map Prod.fst) [] := fun _ =>
      standsAlone_of_forall _ (by simp)
    rcases hreads.settle hs hquiet (hreach.trans hexp) hnext (.inl rfl) hboundary (by simp) halone
      hterm' with ⟨v, hv, hawaits, -⟩ | ⟨v, argument, -, -, hlookup⟩
    · exact ⟨v, mark, hexp.trans hv, hmark, hawaits⟩
    · rw [hs.lookup_nil] at hlookup
      cases hlookup
  · rw [if_neg hq] at hnext
    exact ⟨u, mark, hexp, hmark, ⟨by rwa [List.append_nil], hnext, fun h => absurd h hq,
      fun _ => rfl⟩⟩

end Reading

/-! ### Up to the next name -/

section Texts

variable {env : PpEnv Λ} {s : PpState Λ} {handler : α → Handler} {names : List (Bstring × α)}
  {k : List Char}

/-- **A text is read up to its end**, if it contains no name, or up to the first one. -/
theorem Expansion.read_text (hs : s.Binds handler names) (hquiet : s.OnlyFinds env names)
    (hk : endsHere k) (text : List Char) {t : PpState Λ} {texts : List (List Char)} {q : Quotes}
    {output word : List Char} (hreach : Expansion env s texts t)
    (h : s.Awaits t q output word (text ++ k)) (hclosed : q.after text = .outside)
    (hone : '\x01' ∉ text)
    (halone : ∀ w ∈ words word q text, standsAlone (names.map Prod.fst) w.1)
    (hstart : q = .outside → endsHere text → names.lookup word = none) :
    (∃ u output' word' out, Expansion env t [] u ∧ s.Awaits u .outside output' word' k ∧
        words word' .outside [] ⊆ words word q text ∧
        (∀ w ∈ words word q text, names.lookup w.1 = none) ∧
        output' ++ word' = output ++ word ++ out ∧
        Marked s.frame.currentFilename text out ∧ (Unbroken output → Unbroken output')) ∨
      ∃ u output' name value rest mid out, Expansion env t [] u ∧
        s.Meets u output' name (handler value) (rest ++ k) ∧
        FirstBound names word q text mid name value rest ∧ output' = output ++ out ∧
        Marked s.frame.currentFilename mid out ∧ (Unbroken output → Unbroken output') := by
  induction text generalizing t texts q output word with
  | nil =>
    obtain rfl : q = .outside := hclosed
    have hlookup := hstart rfl nofun
    refine .inl ⟨t, output, word, [], .refl t, h, List.Subset.refl _, ?_,
      (List.append_nil _).symm, .nil, id⟩
    rintro w hw
    rw [words] at hw
    split at hw
    · cases hw
    · rwa [List.mem_singleton.mp hw]
  | cons c text ih =>
    rw [List.mem_cons, not_or] at hone
    obtain ⟨hcone, hone⟩ := hone
    rw [Quotes.after_cons] at hclosed
    by_cases hc : q = .outside ∧ isWordChar c = true
    · obtain ⟨rfl, hword⟩ := hc
      rw [words_wordChar hword] at halone ⊢
      rw [Quotes.next_outside hword] at hclosed
      have halone' : endsHere (text ++ k) → standsAlone (names.map Prod.fst) (word ++ [c]) := by
        intro hends
        refine halone (word ++ [c], text) ?_
        rw [words_of_endsHere ((endsHere_append hk).mp hends) (by simp)]
        exact List.mem_cons_self
      rcases h.wordChar hs hquiet hreach hword halone' with
        ⟨u, hu, hawaits, hlookup⟩ | ⟨u, argument, hu, hmeets, hlookup⟩
      · rcases ih (hreach.trans hu) hawaits hclosed hone halone
            (fun _ hends => hlookup ((endsHere_append hk).mpr hends)) with
          ⟨v, output', word', out, hv, hrest, hword', hall, hout, hmarked, hunbroken⟩ |
          ⟨v, output', name, argument, rest, mid, out, hv, hmeets, hfirst, hrest⟩
        · refine .inl ⟨v, output', word', c :: out, hu.trans hv, hrest, hword', hall, ?_,
            .char c hmarked, hunbroken⟩
          rw [hout]
          simp
        · exact .inr ⟨v, output', name, argument, rest, mid, out, hu.trans hv, hmeets,
            hfirst.wordChar hword, hrest⟩
      · exact .inr ⟨u, output, word ++ [c], argument, text, [], [], hu, hmeets,
          .here hword ((endsHere_append hk).mp hmeets.ends) hlookup,
          (List.append_nil _).symm, .nil, id⟩
    · have hlookup : names.lookup word = none := by
        by_cases hq : q = .outside
        · refine hstart hq fun c' hc' => ?_
          obtain rfl := Option.some.inj hc'
          simpa [hq] using hc
        · rw [h.string hq]
          exact hs.lookup_nil
      rw [words_otherChar hc] at halone ⊢
      obtain ⟨u, mark, hu, hmark, hawaits⟩ :=
        h.otherChar hs hquiet hreach hc fun heq => absurd heq.symm hcone
      have hcorrected : ∀ {text out : List Char}, Marked s.frame.currentFilename text out →
          Marked s.frame.currentFilename (c :: text) (mark ++ c :: out) := by
        rcases hmark with rfl | ⟨rfl, line, rfl⟩
        · exact fun hm => .char c hm
        · exact fun hm => .newline line hm
      have hunbroken : Unbroken (output ++ word ++ mark ++ [c]) :=
        unbroken_concat _ (Ne.symm hcone)
      rcases ih (hreach.trans hu) hawaits hclosed hone
          (fun w hw => halone w (List.mem_append_right _ hw)) (fun _ _ => hs.lookup_nil) with
        ⟨v, output', word', out, hv, hrest, hword', hall, hout, hmarked, hunbroken'⟩ |
        ⟨v, output', name, argument, rest, mid, out, hv, hmeets, hfirst, hout, hmarked, hunbroken'⟩
      · refine .inl ⟨v, output', word', mark ++ c :: out, hu.trans hv, hrest,
          List.Subset.trans hword' (List.subset_append_right _ _), ?_, ?_, hcorrected hmarked,
          fun _ => hunbroken' hunbroken⟩
        · intro w hw
          rcases List.mem_append.mp hw with hw | hw
          · split at hw
            · cases hw
            · rwa [List.mem_singleton.mp hw]
          · exact hall w hw
        · rw [hout]
          simp
      · refine .inr ⟨v, output', name, argument, rest, word ++ c :: mid,
          word ++ (mark ++ c :: out), hu.trans hv, hmeets, hfirst.otherChar hc hlookup, ?_,
          (Marked.refl _ word).append (hcorrected hmarked), fun _ => hunbroken' hunbroken⟩
        rw [hout]
        simp

/-- **A name is replaced**, and what replaces it is read. -/
theorem PpState.Meets.replace (hs : s.Binds handler names) (hquiet : s.OnlyFinds env names)
    {t : PpState Λ} {texts : List (List Char)} (hreach : Expansion env s texts t)
    {output name text : List Char} {replacement : Bstring}
    (h : s.Meets t output name (.replaceHandle replacement) text) (hunbroken : Unbroken output)
    (hzero : '\x00' ∉ replacement) :
    ∃ u, Expansion env t [text] u ∧ s.Awaits u .outside output [] (replacement ++ text) := by
  obtain ⟨j, hj, hm, hfound⟩ := h.found
  obtain ⟨u, hu, hreads, hnext⟩ := h.reads.replace env hj hm hfound hzero
  rw [← List.append_nil output] at hreads
  have hterm : ¬ macroTerminate <:+ output ++ [] := by
    rw [List.append_nil]
    exact hunbroken.not_suffix
  rcases hreads.settle hs hquiet (hreach.trans hu) hnext (.inr hs.lookup_nil) h.boundary nofun
      (fun _ => standsAlone_of_forall _ nofun) hterm with
    ⟨v, hv, hawaits, -⟩ | ⟨v, _, -, -, hlookup⟩
  · exact ⟨v, by simpa using hu.trans hv, hawaits⟩
  · rw [hs.lookup_nil] at hlookup
    cases hlookup

/-- What is said of the words of a text holds of the word at its end. -/
theorem last_word {p : List Char → Prop} {word word' text : List Char} {q : Quotes}
    (hlast : words word' .outside [] ⊆ words word q text) (hnil : p [])
    (h : ∀ w ∈ words word q text, p w.1) : p word' := by
  by_cases hword : word' = []
  · exact hword ▸ hnil
  · exact h (word', []) (hlast (by simp [words, hword]))

end Texts

/-! ### The terminator -/

section Terminator

variable {env : PpEnv Λ} {s t : PpState Λ} {handler : α → Handler} {names : List (Bstring × α)}
  {texts : List (List Char)} {output word rest : List Char}

/-- The terminator up to its last character. -/
theorem macroTerminate_eq : macroTerminate =
    '\x01' :: ("MACROTERMINATE".toList ++ ['\x01']) := by decide

theorem endsHere_macroTerminate (rest : List Char) : endsHere (macroTerminate ++ rest) := by
  rintro c hc
  rw [← Option.some.inj hc]
  decide

/-- The letters of the terminator. -/
theorem letters_macroTerminate : "MACROTERMINATE".toList.all isWordChar = true ∧
    "MACROTERMINATE".toList.all (!ppimplIsolates · true) = true := by decide

theorem found_macroTermMatch {f : Frame} (houtput : macroTerminate <:+ f.cachedOutput) :
    (f.matchTest macroTermMatch).1 = true := by
  have hmatches : matchesText macroTermMatch f.cachedOutput = true := by
    rw [matchesText, if_neg (by decide)]
    exact List.isSuffixOf_iff_suffix.mpr houtput
  rw [Frame.matchTest, hmatches, if_neg (by decide), if_neg (by decide), if_neg (by decide)]

/-- The first character of a terminator does not end one. -/
theorem not_suffix_start (hboundary : Boundary output) (hunbroken : Unbroken output)
    (hword : ∀ c ∈ word, isWordChar c = true) :
    ¬ macroTerminate <:+ output ++ word ++ ['\x01'] := by
  rintro ⟨front, hfront⟩
  rw [macroTerminate_eq, ← List.cons_append, ← List.append_assoc] at hfront
  have hstart := List.append_cancel_right hfront
  have hletters := List.all_eq_true.mp letters_macroTerminate.1
  have hsuffix : "MACROTERMINATE".toList <:+ output ++ word :=
    ⟨front ++ ['\x01'], by rw [← hstart, List.append_assoc, List.singleton_append]⟩
  obtain ⟨before, rfl⟩ := suffix_of_boundary hboundary hletters hsuffix
  rw [← List.append_assoc, ← List.singleton_append, ← List.append_assoc] at hstart
  have hlast := congrArg List.getLast? (List.append_cancel_right hstart)
  rw [List.getLast?_concat] at hlast
  rcases List.eq_nil_or_concat' before with rfl | ⟨before, c, rfl⟩
  · rw [List.append_nil] at hlast
    exact hunbroken hlast.symm
  · rw [← List.append_assoc, List.getLast?_concat] at hlast
    have hc := hword c (by simp)
    rw [← Option.some.inj hlast] at hc
    exact absurd hc (by decide)

/-- **The terminator is found** where it is read behind a text. -/
theorem Expansion.read_terminator (hs : s.Binds handler names) (hquiet : s.OnlyFinds env names)
    (hterm : macroTermMatch ∈ s.handlers)
    (hname : names.lookup "MACROTERMINATE".toList = none) (hreach : Expansion env s texts t)
    (h : s.Awaits t .outside output word (macroTerminate ++ rest)) (hunbroken : Unbroken output) :
    ∃ u v i, Expansion env t [] u ∧ u.entered = some (.macroTermHandle, v) ∧
      s.Reads v (output ++ word) rest .outside ∧ v.frame.next = some i := by
  obtain ⟨hboundary, hword⟩ := h.outside rfl
  rw [macroTerminate_eq, List.cons_append, List.append_assoc, List.singleton_append] at h
  obtain ⟨u, mark, hu, hmark, hawaits⟩ := h.otherChar hs hquiet hreach (by decide)
    fun _ => not_suffix_start hboundary hunbroken hword
  obtain rfl := hmark.resolve_right fun hand => absurd hand.1 (by decide)
  have hlast : endsHere ('\x01' :: rest) := by
    rintro c hc
    rw [← Option.some.inj hc]
    decide
  have hletters : words [] (Quotes.outside.next '\x01') "MACROTERMINATE".toList =
      [("MACROTERMINATE".toList, [])] := by decide
  have halone : standsAlone (names.map Prod.fst) "MACROTERMINATE".toList :=
    standsAlone_of_forall _ fun c hc => by
      simpa using List.all_eq_true.mp letters_macroTerminate.2 c hc
  rcases Expansion.read_text hs hquiet hlast "MACROTERMINATE".toList (hreach.trans hu) hawaits
      (by decide) (by decide) (by rw [hletters]; simpa using halone) (fun _ _ => hs.lookup_nil) with
    ⟨v, output', word', out, hv, hawaits', -, -, hout, hmarked, -⟩ |
    ⟨v, output', name, value, rest', mid, out, hv, hmeets, hfirst, -⟩
  · rw [← List.append_nil "MACROTERMINATE".toList] at hmarked
    obtain ⟨out', rfl, hnil⟩ := hmarked.of_append fun c hc hnewline => by
      have hchar := List.all_eq_true.mp letters_macroTerminate.1 c hc
      rw [hnewline] at hchar
      exact absurd hchar (by decide)
    cases hnil
    obtain ⟨w, mark, hw, hmark, hreads, hnext⟩ := hawaits'.reads.fetch env hawaits'.next
    obtain rfl := hmark.resolve_right fun hand => absurd hand.1 (by decide)
    have hreachW : Expansion env s (texts ++ []) w := by
      simpa using hreach.trans ((hu.trans hv).trans hw)
    have houtput : w.frame.cachedOutput = output ++ word ++ macroTerminate := by
      rw [hreads.output, hout, macroTerminate_eq]
      simp
    obtain ⟨x, hx, hreadsX, hfound⟩ := hreads.tries env hnext
    have houtputX : x.frame.cachedOutput = output ++ word ++ macroTerminate := by
      rw [hreadsX.output, ← hreads.output, houtput]
    have hfoundTerm : (x.frame.matchTest macroTermMatch).1 = true :=
      found_macroTermMatch (houtputX ▸ List.suffix_append _ _)
    rcases hfound with ⟨-, hnone⟩ | ⟨j, m, hj, hm, hfound, -⟩
    · rw [hnone _ (by simpa using hterm)] at hfoundTerm
      cases hfoundTerm
    · rcases hquiet _ _ _ _ (hreachW.trans hx) hj (hreadsX.handlers ▸ hm) hfound with
        rfl | ⟨name, value, hlookup, rfl⟩
      · rw [hreadsX.output.symm.trans houtputX] at hreadsX
        obtain ⟨y, hentered, hreadsY, hnextY, -⟩ :=
          PpState.Reads.enters (m := macroTermMatch) hreadsX hj hm hfound
        exact ⟨x, y, j + 1, by simpa using ((hu.trans hv).trans hw).trans hx, hentered, hreadsY,
          hnextY⟩
      · -- a name does not end like a terminator
        obtain ⟨value, hlookup⟩ := Option.isSome_iff_exists.mp hlookup
        obtain ⟨hne, hchars⟩ := hs.identifiers _ _ hlookup
        obtain ⟨⟨front, hfront⟩, -⟩ := found_nameMatch.mp hfound
        obtain ⟨before, c, hconcat⟩ := (List.eq_nil_or_concat' name).resolve_left hne
        have hlast := congrArg List.getLast? hfront
        rw [hconcat, ← List.append_assoc, List.getLast?_concat, hreadsX.output,
          List.getLast?_concat] at hlast
        have hc := hchars c (by simp [hconcat])
        rw [Option.some.inj hlast] at hc
        exact absurd hc (by decide)
  · have hmem := hfirst.mem
    rw [hletters, List.mem_singleton] at hmem
    have hbound := hfirst.bound
    rw [(Prod.mk.inj hmem).1, hname] at hbound
    cases hbound

end Terminator

end DcpuToolchain
