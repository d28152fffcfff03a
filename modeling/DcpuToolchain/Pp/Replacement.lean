import DcpuToolchain.Pp.Endmacro

/-!
# What `#define` stores

What is stored is the text behind the name, or behind the list of the parameters, up to where it is
cut: at the end of a line that is not continued, or at the beginning of a comment. The loop of
`define_handle` (C) trims what it has read whenever it has read a character, and looks one
character back in it (`DcpuToolchain.cDefineDefinition_cut`).

A continued line loses its backslash and keeps its newline, and a name behind which there is nothing
stands for `1` (`DcpuToolchain.cDefineHandle_stores`).
-/

namespace DcpuToolchain

/-! ### Texts -/

/-- A character of a program: in a string or character literal, or outside. The characters behind a
backslash do not end a literal. -/
inductive Literal
  | outside
  | inside (quote : Char) (escaped : Bool)
  deriving DecidableEq, Repr

/-- What the next character changes. -/
def Literal.next : Literal → Char → Literal
  | .outside, c => if c = '"' ∨ c = '\'' then .inside c false else .outside
  | .inside quote true, _ => .inside quote false
  | .inside quote false, c =>
    if c = '\\' then .inside quote true else if c = quote then .outside else .inside quote false

/-- Where the character behind a text is. -/
def literalAfter (text : List Char) : Literal := text.foldl Literal.next .outside

/-- The lines of a text joined: a backslash and the newline behind it are replaced by a joint. -/
def joinLines (joint : List Char) : List Char → List Char
  | [] => []
  | '\\' :: '\n' :: text => joint ++ joinLines joint text
  | c :: text => c :: joinLines joint text

/-- The beginning of a comment, in lines that are joined. -/
def StartsComment (joint left : List Char) : Prop :=
  left.head? = some '/' ∧
    ((joinLines joint left)[1]? = some '/' ∨ (joinLines joint left)[1]? = some '*')

/-- The end of a line that is not continued. -/
def EndsLine (before left : List Char) : Prop :=
  left.head? = some '\n' ∧ before.getLast? ≠ some '\\'

/-- Where a definition may end. -/
def CutsAt (joint before left : List Char) : Prop :=
  EndsLine before left ∨ StartsComment joint left ∧ literalAfter (joinLines joint before) = .outside

instance (joint left : List Char) : Decidable (StartsComment joint left) :=
  inferInstanceAs (Decidable (_ ∧ _))

instance (before left : List Char) : Decidable (EndsLine before left) :=
  inferInstanceAs (Decidable (_ ∧ _))

instance (joint before left : List Char) : Decidable (CutsAt joint before left) :=
  inferInstanceAs (Decidable (_ ∨ _))

/-- **Where a definition ends**: the first place at which it may. -/
structure Cut (joint text before left : List Char) : Prop where
  text_eq : text = before ++ left
  cuts : CutsAt joint before left
  first : ∀ b l, text = b ++ l → b.length < before.length → ¬ CutsAt joint b l

/-! ### Joined lines -/

/-- Texts are joined one by one, unless there is a continuation between them. -/
theorem joinLines_append (joint : List Char) {text rest : List Char}
    (h : ¬ (text.getLast? = some '\\' ∧ rest.head? = some '\n')) :
    joinLines joint (text ++ rest) = joinLines joint text ++ joinLines joint rest := by
  fun_induction joinLines joint text with
  | case1 => rfl
  | case2 text ih =>
    rw [List.cons_append, List.cons_append, joinLines, ih, List.append_assoc]
    rintro ⟨hlast, hhead⟩
    refine h ⟨?_, hhead⟩
    rw [List.getLast?_cons, List.getLast?_cons, hlast]
    rfl
  | case3 c text hc ih =>
    have hnot (t : List Char) (hslash : c = '\\') : text ++ rest = '\n' :: t → False := by
      intro ht
      cases text with
      | nil => exact h ⟨congrArg some hslash, congrArg List.head? ht⟩
      | cons d text => exact hc text hslash (congrArg (· :: text) (List.cons.inj ht).1)
    rw [List.cons_append, joinLines.eq_3 _ _ _ hnot, ih, List.cons_append]
    rintro ⟨hlast, hhead⟩
    refine h ⟨?_, hhead⟩
    rw [List.getLast?_cons, hlast]
    rfl

theorem joinLines_concat (joint : List Char) {text : List Char} {c : Char}
    (h : ¬ (text.getLast? = some '\\' ∧ c = '\n')) :
    joinLines joint (text ++ [c]) = joinLines joint text ++ [c] := by
  have hone : joinLines joint [c] = [c] := joinLines.eq_3 _ _ _ fun _ _ => nofun
  have hjoint : ¬ (text.getLast? = some '\\' ∧ [c].head? = some '\n') := fun hand =>
    h ⟨hand.1, Option.some.inj hand.2⟩
  rw [joinLines_append joint hjoint, hone]

theorem joinLines_continued (joint text : List Char) :
    joinLines joint (text ++ ['\\', '\n']) = joinLines joint text ++ joint := by
  have htwo : joinLines joint ['\\', '\n'] = joint := List.append_nil joint
  rw [joinLines_append joint fun hand => by simp at hand, htwo]

/-- A newline that is kept is the last character as before. -/
theorem getLast?_joinLines (text : List Char) :
    (joinLines ['\n'] text).getLast? = text.getLast? := by
  fun_induction joinLines ['\n'] text with
  | case1 => rfl
  | case2 text ih =>
    rw [List.singleton_append, List.getLast?_cons, ih, List.getLast?_cons, List.getLast?_cons,
      Option.getD_some]
  | case3 c text hc ih => rw [List.getLast?_cons, ih, List.getLast?_cons]

/-- The first character is joined to nothing but itself, where the second begins or ends nothing. -/
theorem startsComment_cons {joint : List Char} {c : Char} (hc : c = '/' ∨ c = '*')
    (left : List Char) : StartsComment joint ('/' :: c :: left) := by
  have hsecond : joinLines joint ('/' :: c :: left) = '/' :: c :: joinLines joint left := by
    rw [joinLines.eq_3 _ _ _ fun _ hslash => absurd hslash (by decide), joinLines.eq_3]
    rintro _ rfl
    rcases hc with hc | hc
    · cases hc
    · cases hc
  refine ⟨rfl, ?_⟩
  rw [hsecond]
  exact hc.imp (congrArg some) (congrArg some)

/-- Where newlines are kept, a comment begins with two characters that stand side by side. -/
theorem exists_of_startsComment {left : List Char} (h : StartsComment ['\n'] left) :
    ∃ c rest, left = '/' :: c :: rest ∧ (c = '/' ∨ c = '*') := by
  obtain ⟨hhead, hsecond⟩ := h
  obtain ⟨left, rfl⟩ := List.head?_eq_some_iff.mp hhead
  rw [joinLines.eq_3 _ _ _ fun _ hslash => absurd hslash (by decide), List.getElem?_cons_succ]
    at hsecond
  cases left with
  | nil => simp [joinLines] at hsecond
  | cons c rest =>
    refine ⟨c, rest, rfl, ?_⟩
    by_cases hcontinued : ∃ text, c = '\\' ∧ rest = '\n' :: text
    · obtain ⟨text, rfl, rfl⟩ := hcontinued
      rcases hsecond with hsecond | hsecond
      · cases hsecond
      · cases hsecond
    · rw [joinLines.eq_3 _ _ _ fun text hc hrest => hcontinued ⟨text, hc, hrest⟩] at hsecond
      exact hsecond.imp Option.some.inj Option.some.inj

/-! ### The loop -/

/-- White space at the end is trimmed off. -/
theorem btrimws_concat (text : Bstring) {c : Char} (hc : isSpace c = true) :
    btrimws (text ++ [c]) = btrimws text := by
  rcases eq_or_ne (bltrimws text) [] with hnil | hne
  · have hspaces : ∀ d ∈ text ++ [c], isSpace d = true := by
      intro d hd
      rcases List.mem_append.mp hd with hd | hd
      · exact (bltrimws_eq_nil_iff text).mp hnil d hd
      · rwa [List.mem_singleton.mp hd]
    rw [btrimws_eq_nil hspaces, btrimws, hnil]
    rfl
  · have hleft : bltrimws (text ++ [c]) = bltrimws text ++ [c] := by
      rw [bltrimws, List.dropWhile_append, ← bltrimws, if_neg (by simpa using hne)]
    have hright : bltrimws (c :: (bltrimws text).reverse) = bltrimws (bltrimws text).reverse :=
      List.dropWhile_cons_of_pos hc
    rw [btrimws, hleft, List.reverse_append, List.reverse_singleton, List.singleton_append, hright,
      btrimws]

/-- What is put back into the input where a definition ends. -/
def DefinitionEnd.text : DefinitionEnd → List Char
  | .line => ['\n']
  | .comment c => ['/', c]

/-- What the loop has of the text that is read, and of the character before. -/
theorem getLast?_definition {definition : Bstring} {read : List Char}
    (hdefinition : bltrimws definition = bltrimws (joinLines ['\n'] read)) {d : Char}
    (hd : isSpace d = false) : definition.getLast? = some d ↔ read.getLast? = some d := by
  rw [← getLast?_bltrimws_iff definition hd, hdefinition, getLast?_bltrimws_iff _ hd,
    getLast?_joinLines]

theorem bltrimws_definition {definition : Bstring} {read : List Char} {c : Char}
    (hdefinition : bltrimws definition = bltrimws (joinLines ['\n'] read))
    (h : ¬ (read.getLast? = some '\\' ∧ c = '\n')) :
    bltrimws (bltrimws (definition ++ [c])) = bltrimws (joinLines ['\n'] (read ++ [c])) := by
  rw [bltrimws_bltrimws, joinLines_concat _ h, ← bltrimws_append_bltrimws, hdefinition,
    bltrimws_append_bltrimws]

/-- `bdelete` of the backslash before the newline that has just been read. -/
theorem bltrimws_definition_continued {definition : Bstring} {read : List Char}
    (hdefinition : bltrimws definition = bltrimws (joinLines ['\n'] (read ++ ['\\']))) :
    bltrimws ((bltrimws (definition ++ ['\n'])).dropLast.dropLast ++ ['\n']) =
      bltrimws (joinLines ['\n'] (read ++ ['\\'] ++ ['\n'])) := by
  have hslash : joinLines ['\n'] (read ++ ['\\']) = joinLines ['\n'] read ++ ['\\'] :=
    joinLines_concat _ fun hand => absurd hand.2 (by decide)
  rw [dropLast_bltrimws_snoc, hdefinition, hslash, dropLast_bltrimws_snoc,
    bltrimws_append_bltrimws, List.append_assoc, List.cons_append, List.nil_append,
    joinLines_continued]

/-- **The loop stores what is before the place where it stops**, joined and trimmed, if up to there
no line ends and no comment begins. -/
theorem cDefineDefinition_cut {definition : Bstring} {read more left : List Char}
    (hdefinition : bltrimws definition = bltrimws (joinLines ['\n'] read))
    (hends : EndsLine (read ++ more) left ∨ StartsComment ['\n'] left)
    (hfirst : ∀ b l, read ++ more ++ left = b ++ l → b.length < (read ++ more).length →
      ¬ (EndsLine b l ∨ StartsComment ['\n'] l)) (continued : ℕ) :
    ∃ ended rest continued', cDefineDefinition definition continued (more ++ left) =
        .done (btrimws (joinLines ['\n'] (read ++ more)), ended, continued') rest ∧
      left = ended.text ++ rest := by
  have hspace : isSpace '\\' = false ∧ isSpace '/' = false := by decide
  induction more generalizing definition read continued with
  | nil =>
    rw [List.append_nil] at hends hfirst ⊢
    rw [List.nil_append]
    rcases hends with ⟨hhead, hlast⟩ | hcomment
    · -- the end of the line
      obtain ⟨rest, rfl⟩ := List.head?_eq_some_iff.mp hhead
      have hslash := (previous_iff definition '\n' hspace.1).trans
        (getLast?_definition hdefinition hspace.1)
      refine ⟨.line, rest, continued, ?_, rfl⟩
      rw [cDefineDefinition, if_pos rfl, if_neg (mt hslash.mp hlast), btrimws_bltrimws,
        btrimws_concat _ (by decide), ← btrimws_bltrimws definition, hdefinition, btrimws_bltrimws]
    · -- the two characters of a comment
      obtain ⟨c, rest, rfl, hc⟩ := exists_of_startsComment hcomment
      have hn : c ≠ '\n' := by
        rintro rfl
        exact absurd hc (by decide)
      have hbefore : read.getLast? ≠ some '/' := by
        intro hlast
        obtain ⟨r, rfl⟩ := List.getLast?_eq_some_iff.mp hlast
        exact hfirst r ('/' :: '/' :: c :: rest) (by simp) (by simp)
          (.inr (startsComment_cons (.inl rfl) _))
      have hfirstSlash := mt ((previous_iff definition '/' hspace.2).trans
        (getLast?_definition hdefinition hspace.2)).mp hbefore
      have hread := bltrimws_definition hdefinition (c := '/') fun hand => absurd hand.2 (by decide)
      have hsecondSlash := ((previous_iff (bltrimws (definition ++ ['/'])) c hspace.2).trans
        (getLast?_definition hread hspace.2)).mpr List.getLast?_concat
      have hslash : joinLines ['\n'] (read ++ ['/']) = joinLines ['\n'] read ++ ['/'] :=
        joinLines_concat _ fun hand => absurd hand.2 (by decide)
      refine ⟨.comment c, rest, continued, ?_, rfl⟩
      rw [cDefineDefinition, if_neg (by decide), if_pos (.inl rfl), if_neg hfirstSlash,
        cDefineDefinition, if_neg hn, if_pos hc, if_pos hsecondSlash, dropLast_bltrimws_snoc, hread,
        hslash, dropLast_bltrimws_snoc, btrimws_bltrimws]
  | cons c more ih =>
    have hslash := (previous_iff definition c hspace.1).trans
      (getLast?_definition hdefinition hspace.1)
    have hcomment := (previous_iff definition c hspace.2).trans
      (getLast?_definition hdefinition hspace.2)
    have hline : ¬ EndsLine read (c :: more ++ left) := fun hline =>
      hfirst read (c :: more ++ left) (by simp) (by simp) (.inl hline)
    rw [List.append_cons] at hends hfirst ⊢
    rw [List.cons_append, cDefineDefinition]
    by_cases hn : c = '\n'
    · subst hn
      have hbackslash : read.getLast? = some '\\' := by
        by_contra hlast
        exact hline ⟨rfl, hlast⟩
      rw [if_pos rfl, if_pos (hslash.mpr hbackslash)]
      obtain ⟨r, rfl⟩ := List.getLast?_eq_some_iff.mp hbackslash
      exact ih (bltrimws_definition_continued hdefinition) hends hfirst _
    · have hread := bltrimws_definition hdefinition fun hand => hn hand.2
      have hnext := ih hread hends hfirst continued
      rw [if_neg hn]
      by_cases hc : c = '/' ∨ c = '*'
      · have hslash' : read.getLast? ≠ some '/' := by
          intro hlast
          obtain ⟨r, rfl⟩ := List.getLast?_eq_some_iff.mp hlast
          exact hfirst r ('/' :: c :: (more ++ left)) (by simp) (by simp)
            (.inr (startsComment_cons hc _))
        rw [if_pos hc, if_neg (mt hcomment.mp hslash')]
        exact hnext
      · rw [if_neg hc]
        exact hnext

/-! ### What is stored -/

variable {Λ : Type}

/-- The text behind the name: the newline that ends a name is put back. -/
def MacroName.behind (n : MacroName) (text : List Char) : List Char :=
  if n.gettingDefinition then text else '\n' :: text

/-- **A definition is stored**, if it is not the name itself, and this is left of the input. -/
def PpState.Stores (s : PpState Λ) (n : MacroName) (definition : Bstring) (left : List Char) :
    Prop :=
  ∃ t : PpState Λ, t.frame.pending = left ∧
    s.cDefineHandle = t.registerDefinition n.name n.word definition
      (if n.isMacro then .macroHandle n.word definition else .replaceHandle definition)

/-- What a text is stored as, where `blank` is what is stored for a name without one. -/
def stored (joint blank : Bstring) (n : MacroName) (before : List Char) : Bstring :=
  if btrimws (joinLines joint before) = [] ∧ n.isMacro = false then blank
  else btrimws (joinLines joint before)

/-- **Every line that ends is cut somewhere.** -/
theorem exists_cut (joint : List Char) {line behind : List Char} (h : EndsLine line behind) :
    ∃ before left, Cut joint (line ++ behind) before left := by
  -- the first of the places at which the definition may end
  obtain ⟨⟨before, left⟩, ⟨heq, hcuts⟩, hfirst⟩ :=
    (measure fun place : List Char × List Char => place.1.length).wf.has_min
      {place | line ++ behind = place.1 ++ place.2 ∧ CutsAt joint place.1 place.2}
      ⟨(line, behind), rfl, .inl h⟩
  exact ⟨before, left, heq, hcuts, fun b l hplace hlt hcuts' => hfirst (b, l) ⟨hplace, hcuts'⟩ hlt⟩

/-- The places before a cut, one by one. -/
theorem first_of_take {joint text before : List Char}
    (h : ∀ k < before.length, ¬ CutsAt joint (text.take k) (text.drop k)) :
    ∀ b l, text = b ++ l → b.length < before.length → ¬ CutsAt joint b l := by
  rintro b l rfl hlt
  have hcuts := h b.length hlt
  rwa [List.take_left, List.drop_left] at hcuts

/-- A newline that ends the name ends the definition. -/
theorem Cut.of_newline {joint text before left : List Char}
    (h : Cut joint ('\n' :: text) before left) : before = [] ∧ left = '\n' :: text := by
  have hbefore : before = [] := by
    by_contra hne
    exact h.first [] _ rfl (List.length_pos_iff.mpr hne) (.inl ⟨rfl, nofun⟩)
  have heq := h.text_eq
  rw [hbefore] at heq
  exact ⟨hbefore, heq.symm⟩

/-- What the loop reads up to a cut, and what is put back of it. -/
theorem Cut.exists_done {text before left : List Char} (h : Cut ['\n'] text before left)
    (hliterals : ∀ b l, text = b ++ l → b.length < before.length →
      StartsComment ['\n'] l → literalAfter (joinLines ['\n'] b) = .outside) :
    ∃ ended rest continued, cDefineDefinition [] 0 text =
        .done (btrimws (joinLines ['\n'] before), ended, continued) rest ∧
      left = ended.text ++ rest ∧ '\x00' ∉ ended.text := by
  have hends : EndsLine before left ∨ StartsComment ['\n'] left := h.cuts.imp_right And.left
  have hfirst : ∀ b l, before ++ left = b ++ l → b.length < before.length →
      ¬ (EndsLine b l ∨ StartsComment ['\n'] l) := by
    rintro b l heq hlt (hline | hcomment)
    · exact h.first b l (h.text_eq.trans heq) hlt (.inl hline)
    · exact h.first b l (h.text_eq.trans heq) hlt
        (.inr ⟨hcomment, hliterals b l (h.text_eq.trans heq) hlt hcomment⟩)
  have hnothing : bltrimws [] = bltrimws (joinLines ['\n'] []) := rfl
  obtain ⟨ended, rest, continued, hloop, hleft⟩ := cDefineDefinition_cut hnothing hends hfirst 0
  rw [← h.text_eq] at hloop
  refine ⟨ended, rest, continued, hloop, hleft, ?_⟩
  cases ended with
  | line => decide
  | comment c =>
    rw [hleft] at hends
    rcases hends with hline | hcomment
    · cases hline.1
    · obtain ⟨c', rest', heq, hc⟩ := exists_of_startsComment hcomment
      obtain rfl : c = c' := (List.cons.inj (List.cons.inj heq).2).1
      rcases hc with rfl | rfl
      · decide
      · decide

/-- A cut without a comment in a literal before it is what the loop does. -/
theorem Cut.stores (s : PpState Λ) (hcursor : s.frame.printIndex = 0) {n : MacroName}
    {text before left : List Char}
    (hname : macroWord .cDefineParametersIncorrect true [] [] false s.frame.pending = .done n text)
    (hcut : Cut ['\n'] (n.behind text) before left)
    (hliterals : ∀ b l, n.behind text = b ++ l → b.length < before.length →
      StartsComment ['\n'] l → literalAfter (joinLines ['\n'] b) = .outside) :
    s.Stores n (stored ['\n'] ['1'] n before) left := by
  have hleaves := macroWord_leaves .cDefineParametersIncorrect true [] [] false s.frame.pending
  rw [hname] at hleaves
  have htext := s.readTo_pending hleaves
  have hcursor' : (s.readTo text).frame.printIndex = 0 :=
    (s.frame.advanceTo_reads text).printIndex.trans hcursor
  rw [PpState.Stores, PpState.cDefineHandle, hname, PpState.scan]
  rcases hfollows : n.gettingDefinition with - | -
  · -- the name is at the end of the line
    rw [MacroName.behind, hfollows] at hcut
    obtain ⟨rfl, rfl⟩ := hcut.of_newline
    refine ⟨(s.readTo text).print ['\n'], ?_, rfl⟩
    exact (Frame.printf_pending _ hcursor' _).trans (congrArg ('\n' :: ·) htext)
  · rw [MacroName.behind, hfollows, if_pos rfl] at hcut hliterals
    obtain ⟨ended, rest, continued, hloop, rfl, hzero⟩ := hcut.exists_done hliterals
    have hsuffix : rest <:+ (s.readTo text).frame.pending := by
      have hleaves' := cDefineDefinition_leaves [] 0 text
      rw [hloop] at hleaves'
      rwa [htext]
    have hrest := (s.readTo text).readTo_pending hsuffix
    have hcursor'' : ((s.readTo text).readTo rest).frame.printIndex = 0 :=
      ((s.readTo text).frame.advanceTo_reads rest).printIndex.trans hcursor'
    have hprinted : ended.text.filter (· ≠ '\x00') = ended.text :=
      List.filter_eq_self.mpr fun c hc => decide_eq_true fun hnul => hzero (hnul ▸ hc)
    dsimp only
    rw [if_pos rfl, htext, hloop]
    cases ended with
    | line =>
      refine ⟨_, ?_, rfl⟩
      exact (Frame.printf_pending _ hcursor'' _).trans (congrArg₂ (· ++ ·) hprinted hrest)
    | comment c =>
      refine ⟨_, ?_, rfl⟩
      exact (Frame.iprintf_pending _ hcursor'' _).trans (congrArg₂ (· ++ ·) hprinted hrest)

/-- **What `#define` stores** is the text behind the name, cut at the end of the line or at the
first comment: a continued line loses its backslash, and a name without a text stands for `1`.
Nothing is said of a comment that seems to begin in a literal. -/
theorem cDefineHandle_stores (s : PpState Λ) (hcursor : s.frame.printIndex = 0) {n : MacroName}
    {text line behind : List Char}
    (hname : macroWord .cDefineParametersIncorrect true [] [] false s.frame.pending = .done n text)
    (hline : n.behind text = line ++ behind) (hends : EndsLine line behind) :
    ∃ before left, Cut ['\n'] (n.behind text) before left ∧
      ((∀ b l, n.behind text = b ++ l → b.length < before.length → StartsComment ['\n'] l →
          literalAfter (joinLines ['\n'] b) = .outside) →
        s.Stores n (stored ['\n'] ['1'] n before) left) := by
  obtain ⟨before, left, hcut⟩ := exists_cut ['\n'] hends
  rw [← hline] at hcut
  exact ⟨before, left, hcut, hcut.stores s hcursor hname⟩

/-- A preprocessor behind `#define `. -/
def behindDefine (input : List Char) : PpState Unit := behindMacro input

/-- The name `A`. -/
def nameOfObject : MacroName := ⟨['A'], ['A'], false, true⟩

/-- The definition of a character, behind which there is a comment. -/
theorem cDefineHandle_stores_char :
    ∃ before left, Cut ['\n'] (nameOfObject.behind "'x' // y\n".toList) before left ∧
      ((∀ b l, nameOfObject.behind "'x' // y\n".toList = b ++ l → b.length < before.length →
          StartsComment ['\n'] l → literalAfter (joinLines ['\n'] b) = .outside) →
        (behindDefine "A 'x' // y\n".toList).Stores nameOfObject
          (stored ['\n'] ['1'] nameOfObject before) left) := by
  have hname : macroWord .cDefineParametersIncorrect true [] [] false
      (behindDefine "A 'x' // y\n".toList).frame.pending =
        .done nameOfObject "'x' // y\n".toList := by decide
  have hline : nameOfObject.behind "'x' // y\n".toList = "'x' // y".toList ++ ['\n'] := by decide
  exact cDefineHandle_stores _ rfl hname hline (by decide)

/-- What has been stored is the last handler. -/
theorem PpState.Stores.getLast? {s : PpState Λ} {n : MacroName} {definition : Bstring}
    {left : List Char} (h : s.Stores n definition left) {p : PpState Λ × Bool}
    (hp : s.cDefineHandle = .ok p) (hnew : p.2 = true) :
    p.1.handlers.getLast? = some (nameMatch n.name
      (if n.isMacro then .macroHandle n.word definition else .replaceHandle definition)) := by
  obtain ⟨t, -, heq⟩ := h
  rw [hp, PpState.registerDefinition] at heq
  split at heq
  · obtain rfl := Except.ok.inj heq
    cases hnew
  · obtain rfl := Except.ok.inj heq
    exact getLast?_register _ _

/-- What a definition is said to be stored as, with what a continued line leaves and what a name
without a text stands for. -/
def StoresAs (joint blank : Bstring) : Prop :=
  ∀ (s : PpState Unit) (n : MacroName) (text before left : List Char), s.frame.printIndex = 0 →
    macroWord .cDefineParametersIncorrect true [] [] false s.frame.pending = .done n text →
      Cut joint (n.behind text) before left → s.Stores n (stored joint blank n before) left

/-- A name without a text stands for `1`. -/
theorem blank_eq_of_storesAs {joint blank : Bstring} (h : StoresAs joint blank) :
    blank = ['1'] := by
  have hcut : Cut joint (nameOfObject.behind ['\n']) [] ['\n'] :=
    ⟨rfl, .inl ⟨rfl, nofun⟩, fun _ _ _ hlt => absurd hlt (Nat.not_lt_zero _)⟩
  have hname : macroWord .cDefineParametersIncorrect true [] [] false
      (behindDefine "A \n".toList).frame.pending = .done nameOfObject ['\n'] := by decide
  have hlast := (h _ nameOfObject _ _ _ rfl hname hcut).getLast? rfl rfl
  exact (Handler.replaceHandle.inj (congrArg Match.handler (Option.some.inj hlast))).symm

/-- A name without a text stands for `1`, a continued line is not joined to the next without its
newline, and literals are not looked for. -/
theorem not_storesAs :
    ¬ StoresAs [] [] ∧ ¬ StoresAs ['\n'] [] ∧ ¬ StoresAs [] ['1'] ∧ ¬ StoresAs ['\n'] ['1'] := by
  refine ⟨fun h => ?_, fun h => ?_, fun h => ?_, fun h => ?_⟩
  · cases blank_eq_of_storesAs h
  · cases blank_eq_of_storesAs h
  · have hname : macroWord .cDefineParametersIncorrect true [] [] false
        (behindDefine "A p\\\nq\n".toList).frame.pending =
          .done nameOfObject "p\\\nq\n".toList := by decide
    have hcut : Cut [] (nameOfObject.behind "p\\\nq\n".toList) "p\\\nq".toList ['\n'] :=
      ⟨by decide, by decide, first_of_take (by decide)⟩
    have hlast := (h _ nameOfObject _ _ _ rfl hname hcut).getLast? rfl rfl
    have heq := Handler.replaceHandle.inj (congrArg Match.handler (Option.some.inj hlast))
    exact absurd heq (by decide)
  · have hname : macroWord .cDefineParametersIncorrect true [] [] false
        (behindDefine "A \"//\"\n".toList).frame.pending =
          .done nameOfObject "\"//\"\n".toList := by decide
    have hcut : Cut ['\n'] (nameOfObject.behind "\"//\"\n".toList) "\"//\"".toList ['\n'] :=
      ⟨by decide, by decide, first_of_take (by decide)⟩
    have hlast := (h _ nameOfObject _ _ _ rfl hname hcut).getLast? rfl rfl
    have heq := Handler.replaceHandle.inj (congrArg Match.handler (Option.some.inj hlast))
    exact absurd heq (by decide)

end DcpuToolchain
