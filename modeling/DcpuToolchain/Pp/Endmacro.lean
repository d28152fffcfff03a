import DcpuToolchain.Pp.Branch
import DcpuToolchain.Pp.Defined
import DcpuToolchain.Pp.Terminates

/-!
# What `.MACRO` stores

The body of a macro is the text between its name and the first line that begins with
`.ENDMACRO` or `#ENDMACRO` (`DcpuToolchain.macroBody`). The loop of `macro_def_handle` trims
what it has read before it deletes the terminator from the end of it
(`DcpuToolchain.macroDefinition_done`), so that the white space in front of the terminator,
which is a newline at least, is never trimmed. Nothing is stored of it only if the body is
nothing but white space (`DcpuToolchain.macroDefHandle_body_iff`).
-/

namespace DcpuToolchain

/-! ### Bodies -/

/-- A terminator, in any case. -/
def IsTerminator (word : List Char) : Prop :=
  btolower word = btolower termMatch ∨ btolower word = btolower termMatchAlt

instance : DecidablePred IsTerminator := fun _ => inferInstanceAs (Decidable (_ ∨ _))

/-- A line whose first characters that are no blanks are a terminator. -/
def endsMacro (line : List Char) : Bool :=
  IsTerminator ((line.dropWhile isBlank).take termMatch.length)

/-- The text up to the first line that ends a macro, and the text behind its terminator. The
line of the name is no such line. -/
def macroBody (text : List Char) : Option (List Char × List Char) :=
  match toLines text with
  | [] => none
  | header :: lines =>
    match lines.dropWhile (!endsMacro ·) with
    | [] => none
    | line :: behind =>
      some ((header :: lines.takeWhile (!endsMacro ·)).flatten,
        (line.dropWhile isBlank).drop termMatch.length ++ behind.flatten)

/-- Lines that are not the last end with a newline. -/
theorem IsLines.getLast?_flatten {before : List (List Char)} {line : List Char}
    {behind : List (List Char)} (h : IsLines (before ++ line :: behind)) (hne : before ≠ []) :
    before.flatten.getLast? = some '\n' := by
  induction before with
  | nil => exact absurd rfl hne
  | cons first before ih =>
    obtain ⟨⟨body, newline, rfl, -, hnewline⟩, hlines⟩ := h
    have hfirst : newline = ['\n'] := hnewline.resolve_right fun ⟨_, _, hnil⟩ => by simp at hnil
    rcases eq_or_ne before [] with rfl | hbefore
    · simp [hfirst]
    · rw [List.flatten_cons, List.getLast?_append, ih hlines hbefore, Option.some_or]

/-- **A text with a body**: the body ends with a newline, and blanks and a terminator follow. -/
theorem macroBody_eq_some {text body behind : List Char}
    (h : macroBody text = some (body, behind)) :
    ∃ blanks word, text = body ++ (blanks ++ (word ++ behind)) ∧ (∀ c ∈ blanks, isBlank c = true) ∧
      IsTerminator word ∧ body.getLast? = some '\n' := by
  have hlines := isLines_toLines text
  have hflatten := toLines_flatten text
  rw [macroBody] at h
  rcases htext : toLines text with - | ⟨header, lines⟩
  · rw [htext] at h
    cases h
  · rw [htext] at h hlines hflatten
    dsimp only at h
    rcases hdrop : lines.dropWhile (!endsMacro ·) with - | ⟨line, rest⟩
    · rw [hdrop] at h
      cases h
    · rw [hdrop] at h
      obtain ⟨rfl, rfl⟩ := Prod.mk.inj (Option.some.inj h)
      -- `line` is the first that ends the macro
      have hsplit : lines.takeWhile (!endsMacro ·) ++ line :: rest = lines := by
        rw [← hdrop, List.takeWhile_append_dropWhile]
      have hends : endsMacro line = true := by
        have hnot := List.head?_dropWhile_not (!endsMacro ·) lines
        rw [hdrop] at hnot
        simpa using hnot
      have hline : line.takeWhile isBlank ++ ((line.dropWhile isBlank).take termMatch.length ++
          (line.dropWhile isBlank).drop termMatch.length) = line := by
        rw [List.take_append_drop, List.takeWhile_append_dropWhile]
      refine ⟨line.takeWhile isBlank, (line.dropWhile isBlank).take termMatch.length, ?_,
        fun c hc => List.mem_takeWhile_imp hc, by simpa [endsMacro] using hends, ?_⟩
      · calc text = (header :: (lines.takeWhile (!endsMacro ·) ++ line :: rest)).flatten := by
              rw [hsplit, hflatten]
          _ = (header :: lines.takeWhile (!endsMacro ·)).flatten ++ (line ++ rest.flatten) := by
              simp
          _ = _ := by
              conv_lhs => rw [← hline]
              simp only [List.append_assoc]
      · have hsplit' : IsLines ((header :: lines.takeWhile (!endsMacro ·)) ++ line :: rest) := by
          rw [List.cons_append, hsplit]
          exact hlines
        exact hsplit'.getLast?_flatten (List.cons_ne_nil _ _)

/-! ### Trimming -/

theorem bltrimws_append_bltrimws (text rest : Bstring) :
    bltrimws (bltrimws text ++ rest) = bltrimws (text ++ rest) := by
  induction text with
  | nil => rfl
  | cons c text ih =>
    rcases hc : isSpace c with - | -
    · have hself : bltrimws (c :: text) = c :: text := List.dropWhile_cons_of_neg (by simp [hc])
      rw [hself]
    · have hleft : bltrimws (c :: text) = bltrimws text := List.dropWhile_cons_of_pos hc
      have hboth : bltrimws (c :: text ++ rest) = bltrimws (text ++ rest) :=
        List.dropWhile_cons_of_pos hc
      rw [hleft, hboth, ih]

/-- Only white space is trimmed off to nothing. -/
theorem bltrimws_eq_nil_iff (text : Bstring) :
    bltrimws text = [] ↔ ∀ c ∈ text, isSpace c = true := List.dropWhile_eq_nil_iff

theorem btrimws_eq_nil {text : Bstring} (h : ∀ c ∈ text, isSpace c = true) : btrimws text = [] := by
  rw [btrimws, (bltrimws_eq_nil_iff text).mpr h]
  rfl

theorem bltrimws_bltrimws (text : Bstring) : bltrimws (bltrimws text) = bltrimws text := by
  have h := bltrimws_append_bltrimws text []
  rwa [List.append_nil, List.append_nil] at h

theorem btrimws_bltrimws (text : Bstring) : btrimws (bltrimws text) = btrimws text := by
  rw [btrimws, bltrimws_bltrimws, btrimws]

theorem bltrimws_eq_self {text : Bstring} (h : ∀ c ∈ text, isSpace c = false) :
    bltrimws text = text := by
  cases text with
  | nil => rfl
  | cons c text => exact List.dropWhile_cons_of_neg (by simp [h c List.mem_cons_self])

/-- Nothing is trimmed off where there is no white space. -/
theorem btrimws_eq_self {text : Bstring} (h : ∀ c ∈ text, isSpace c = false) :
    btrimws text = text := by
  rw [btrimws, bltrimws_eq_self h, bltrimws_eq_self fun c hc => h c (List.mem_reverse.mp hc),
    List.reverse_reverse]

/-- Nothing is trimmed off behind a character that is no white space. -/
theorem btrimws_append {text word : Bstring} (htext : ∃ c ∈ text, isSpace c = false)
    (hword : ∀ c ∈ word, isSpace c = false) (hne : word ≠ []) :
    btrimws (text ++ word) = bltrimws text ++ word := by
  obtain ⟨c, hc, hspace⟩ := htext
  have hleft : bltrimws (text ++ word) = bltrimws text ++ word := by
    have hnil : ¬ bltrimws text = [] := fun hnil => by
      simp [(bltrimws_eq_nil_iff text).mp hnil c hc] at hspace
    rw [bltrimws, List.dropWhile_append, ← bltrimws, if_neg (by simpa using hnil)]
  rw [btrimws, hleft, List.reverse_append]
  rcases hreverse : word.reverse with - | ⟨d, rest⟩
  · exact absurd (List.reverse_eq_nil_iff.mp hreverse) hne
  · have hd : isSpace d = false :=
      hword d (List.mem_reverse.mp (hreverse ▸ List.mem_cons_self))
    rw [bltrimws, List.cons_append, List.dropWhile_cons_of_neg (by simp [hd]), ← List.cons_append,
      ← hreverse, ← List.reverse_append, List.reverse_reverse]

/-! ### Terminators -/

theorem length_of_isTerminator {word : List Char} (h : IsTerminator word) :
    word.length = termMatch.length := by
  have hlength : (btolower word).length = word.length := List.length_map _
  have hsame : (btolower termMatch).length = termMatch.length := List.length_map _
  have halt : (btolower termMatchAlt).length = termMatch.length := by decide
  rw [← hlength]
  exact h.elim (fun h => (congrArg List.length h).trans hsame)
    fun h => (congrArg List.length h).trans halt

/-- The characters of a terminator match. -/
theorem termMatch_of_isTerminator {word : List Char} (h : IsTerminator word) {i : ℕ} {c : Char}
    (hc : word[i]? = some c) :
    termMatch[i]?.map Char.toLower = some c.toLower ∨
      termMatchAlt[i]?.map Char.toLower = some c.toLower := by
  refine h.imp (fun h => ?_) fun h => ?_
  · rw [← List.getElem?_map, ← btolower, ← h, btolower, List.getElem?_map, hc, Option.map_some]
  · rw [← List.getElem?_map, ← btolower, ← h, btolower, List.getElem?_map, hc, Option.map_some]

/-- White space has no case. -/
theorem toLower_of_isSpace {c : Char} (h : isSpace c = true) : c.toLower = c := by
  have hc : c = ' ' ∨ '\t' ≤ c ∧ c ≤ '\r' := by simpa [isSpace] using h
  rcases hc with rfl | ⟨-, hle⟩
  · rfl
  · -- it comes before the capital letters
    have hupper : ¬ (c.val ≥ 'A'.val ∧ c.val ≤ 'Z'.val) := fun ⟨hge, _⟩ =>
      absurd (UInt32.le_trans hge hle) (by decide)
    exact dif_neg hupper

/-- What matches a character of a terminator is no white space. -/
theorem isSpace_of_termMatch {i : ℕ} {c : Char}
    (h : termMatch[i]?.map Char.toLower = some c.toLower ∨
      termMatchAlt[i]?.map Char.toLower = some c.toLower) : isSpace c = false := by
  have hmem : c.toLower ∈ btolower termMatch ++ btolower termMatchAlt := by
    rw [← List.getElem?_map, ← List.getElem?_map] at h
    exact List.mem_append.mpr (h.imp List.mem_of_getElem? List.mem_of_getElem?)
  have hnone : (btolower termMatch ++ btolower termMatchAlt).all (isSpace · = false) = true := rfl
  rcases hspace : isSpace c with - | -
  · rfl
  · rw [toLower_of_isSpace hspace] at hmem
    rw [of_decide_eq_true (List.all_eq_true.mp hnone c hmem)] at hspace
    cases hspace

/-- There is no white space in a terminator. -/
theorem isSpace_of_isTerminator {word : List Char} (h : IsTerminator word) {c : Char}
    (hc : c ∈ word) : isSpace c = false := by
  obtain ⟨i, hi⟩ := List.mem_iff_getElem?.mp hc
  exact isSpace_of_termMatch (termMatch_of_isTerminator h hi)

/-- White space stands before a terminator. -/
theorem exists_getLast?_space {body blanks : List Char} (hbody : body.getLast? = some '\n')
    (hblanks : ∀ c ∈ blanks, isBlank c = true) :
    ∃ c, (body ++ blanks).getLast? = some c ∧ isSpace c = true := by
  rcases hlast : blanks.getLast? with - | c
  · rw [List.getLast?_append, hlast, hbody]
    exact ⟨'\n', rfl, rfl⟩
  · rw [List.getLast?_append, hlast]
    exact ⟨c, rfl, isSpace_of_isBlank (hblanks c (List.mem_of_getLast? hlast))⟩

/-! ### The loop -/

/-- **What the loop stores** is what it has read, trimmed at both ends, less as many characters
as a terminator has. -/
theorem macroDefinition_done {definition d : Bstring} {count : ℕ} {text rest : List Char}
    (h : macroDefinition definition count text = .done d rest) :
    ∃ read, text = read ++ rest ∧
      d = (btrimws (definition ++ read)).take
        ((btrimws (definition ++ read)).length - termMatch.length) := by
  fun_induction macroDefinition definition count text with
  | case1 => cases h
  | case3 definition count c text =>
    obtain ⟨rfl, rfl⟩ := Scan.done.inj h
    refine ⟨[c], rfl, ?_⟩
    rw [← btrimws_bltrimws (definition ++ [c])]
  | case2 definition count c text | case4 definition count c text
  | case5 definition count c text =>
    rename_i ih
    obtain ⟨read, rfl, rfl⟩ := ih h
    have hread : btrimws (bltrimws (definition ++ [c]) ++ read) =
        btrimws (definition ++ c :: read) := by
      rw [← btrimws_bltrimws, bltrimws_append_bltrimws, btrimws_bltrimws, List.append_assoc,
        List.singleton_append]
    exact ⟨c :: read, rfl, by rw [← hread]⟩

/-- White space at the beginning is read over. -/
theorem macroDefinition_spaces {spaces : List Char} (h : ∀ c ∈ spaces, isSpace c = true)
    (text : List Char) : macroDefinition [] 0 (spaces ++ text) = macroDefinition [] 0 text := by
  induction spaces with
  | nil => rfl
  | cons c spaces ih =>
    have hc := h c List.mem_cons_self
    have hfirst : ¬ (termMatch[0]?.map Char.toLower = some c.toLower ∨
        termMatchAlt[0]?.map Char.toLower = some c.toLower) := fun hmatch => by
      rw [isSpace_of_termMatch hmatch] at hc
      cases hc
    rw [List.cons_append, macroDefinition, List.nil_append, bltrimws_space hc, if_neg hfirst]
    exact ih fun d hd => h d (List.mem_cons_of_mem _ hd)

/-- **A terminator at the beginning is found**, from any of its characters on. -/
theorem macroDefinition_terminator {before word : List Char} (rest : List Char)
    (h : IsTerminator (before ++ word)) (hne : word ≠ []) :
    macroDefinition before before.length (word ++ rest) = .done [] rest := by
  induction word generalizing before with
  | nil => exact absurd rfl hne
  | cons c word ih =>
    have hlength := length_of_isTerminator h
    rw [List.length_append, List.length_cons] at hlength
    have hmatch := termMatch_of_isTerminator (i := before.length) (c := c) h (by simp)
    have htrim : bltrimws (before ++ [c]) = before ++ [c] :=
      bltrimws_eq_self fun d hd => isSpace_of_isTerminator h (by simp at hd ⊢; tauto)
    -- nothing stands before the terminator, so that the beginning of its line is not searched for
    have hstart : ¬ (before.length = 0 ∧ 2 ≤ (before ++ [c]).length ∧
        onlySpaces (before ++ [c]).dropLast.reverse = false) := by
      rintro ⟨hzero, htwo, -⟩
      rw [List.length_append, List.length_singleton] at htwo
      omega
    rw [List.cons_append, macroDefinition, htrim, if_pos hmatch, if_neg hstart]
    rcases eq_or_ne word [] with rfl | hword
    · -- the last character: nothing is left without the terminator
      rw [List.length_nil] at hlength
      have hlast : termMatch.length ≤ before.length + 1 := by omega
      have htake : (before ++ [c]).length - termMatch.length = 0 := by
        rw [List.length_append, List.length_singleton]
        omega
      rw [if_pos hlast, btrimws_eq_self fun d => isSpace_of_isTerminator h]
      dsimp only
      rw [htake, List.take_zero, List.nil_append]
    · have hpos := List.length_pos_iff.mpr hword
      have hmore : ¬ termMatch.length ≤ before.length + 1 := by omega
      have hnext : macroDefinition (before ++ [c]) (before ++ [c]).length (word ++ rest) =
          .done [] rest := ih (by simpa using h) hword
      rw [if_neg hmore]
      rwa [List.length_append, List.length_singleton] at hnext

/-! ### What is stored -/

/-- **The loop stores the body, trimmed,** and stops behind the terminator, exactly if the body
is nothing but white space. -/
theorem macroDefinition_body_iff {text body behind : List Char}
    (h : macroBody text = some (body, behind)) :
    macroDefinition [] 0 text = .done (btrimws body) behind ↔ ∀ c ∈ body, isSpace c = true := by
  obtain ⟨blanks, word, rfl, hblanks, hword, hlast⟩ := macroBody_eq_some h
  constructor
  · intro hdone
    obtain ⟨read, hread, hstored⟩ := macroDefinition_done hdone
    have hread : body ++ (blanks ++ word) = read := by
      rw [← List.append_assoc, ← List.append_assoc] at hread
      rw [← List.append_assoc]
      exact List.append_cancel_right hread
    rw [List.nil_append, ← hread, ← List.append_assoc] at hstored
    by_contra hspace
    push Not at hspace
    obtain ⟨c, hc, hcspace⟩ := hspace
    have hcspace : isSpace c = false := by simpa using hcspace
    -- what stands before the terminator is left as it is
    have htrim : btrimws (body ++ blanks ++ word) = bltrimws (body ++ blanks) ++ word :=
      btrimws_append ⟨c, List.mem_append_left _ hc, hcspace⟩
        (fun d hd => isSpace_of_isTerminator hword hd)
        (List.ne_nil_of_length_pos (length_of_isTerminator hword ▸ by decide))
    rw [htrim, List.length_append, length_of_isTerminator hword, Nat.add_sub_cancel,
      List.take_left] at hstored
    obtain ⟨d, hd, hdspace⟩ := exists_getLast?_space hlast hblanks
    have hend : (bltrimws (body ++ blanks)).getLast? = some d := by
      have hne : bltrimws (body ++ blanks) ≠ [] := fun hnil => by
        have hall := (bltrimws_eq_nil_iff _).mp hnil c (List.mem_append_left _ hc)
        rw [hall] at hcspace
        cases hcspace
      have hne' : body ++ blanks ≠ [] := fun hnil => hne (by rw [hnil]; rfl)
      have hsame : (bltrimws (body ++ blanks)).getLast hne = (body ++ blanks).getLast hne' :=
        (List.dropWhile_suffix isSpace).getLast hne
      rw [List.getLast?_eq_some_getLast hne, hsame, ← List.getLast?_eq_some_getLast hne', hd]
    exact btrimws_ne_of_getLast? hdspace hend hstored
  · intro hspace
    have hall : ∀ c ∈ body ++ blanks, isSpace c = true := fun c hc =>
      (List.mem_append.mp hc).elim (hspace c) fun hc => isSpace_of_isBlank (hblanks c hc)
    have hne : word ≠ [] := List.ne_nil_of_length_pos (length_of_isTerminator hword ▸ by decide)
    rw [← List.append_assoc, macroDefinition_spaces hall, btrimws_eq_nil hspace]
    have hfound : macroDefinition [] ([] : Bstring).length (word ++ behind) = .done [] behind :=
      macroDefinition_terminator behind hword hne
    exact hfound

variable {Λ : Type}

/-- What is registered last is the last handler. -/
theorem getLast?_register (s : PpState Λ) (m : Match) :
    (s.register m).handlers.getLast? = some m := by
  rw [PpState.register]
  split <;> exact List.getLast?_concat

/-- What a macro is defined as can be told from the state behind its definition. -/
theorem registerDefinition_injective {s t : PpState Λ} {name full d d' : Bstring}
    (h : s.registerDefinition name full d (.macroHandle full d) =
      t.registerDefinition name full d' (.macroHandle full d')) : s.frame = t.frame ∧ d = d' := by
  obtain ⟨p, hp⟩ : ∃ p, t.registerDefinition name full d' (.macroHandle full d') = .ok p := by
    rw [PpState.registerDefinition]
    split
    · exact ⟨_, rfl⟩
    · exact ⟨_, rfl⟩
  rw [hp] at h
  refine ⟨(registerDefinition_ok h).1.symm.trans (registerDefinition_ok hp).1, ?_⟩
  rw [PpState.registerDefinition] at h hp
  split at h
  · obtain rfl := Except.ok.inj h
    split at hp
    · -- neither is registered
      exact ‹full = d›.symm.trans ‹full = d'›
    · cases hp
  · obtain rfl := Except.ok.inj h
    split at hp
    · cases hp
    · have hlast := congrArg (fun p : PpState Λ × Bool => p.1.handlers.getLast?) (Except.ok.inj hp)
      dsimp only at hlast
      rw [getLast?_register, getLast?_register] at hlast
      have hhandler := congrArg Match.handler (Option.some.inj hlast)
      exact (Handler.macroHandle.inj hhandler).2.symm

/-- **`.MACRO` stores the text up to the line of its terminator, trimmed at both ends,** and
consumes the input through that terminator, exactly if there is nothing but white space up to
there. -/
theorem macroDefHandle_body_iff (s : PpState Λ) {n : MacroName} {text body behind : List Char}
    (hname : macroWord .asmMacroParametersIncorrect false [] [] false s.frame.pending =
      .done n text)
    (hparameters : n.isMacro = true) (hbody : macroBody text = some (body, behind)) :
    s.macroDefHandle =
        ((s.readTo text).readTo behind).registerDefinition n.name n.word (btrimws body)
          (.macroHandle n.word (btrimws body)) ↔
      ∀ c ∈ body, isSpace c = true := by
  have hleaves := macroWord_leaves .asmMacroParametersIncorrect false [] [] false s.frame.pending
  rw [hname] at hleaves
  have htext := s.readTo_pending hleaves
  have hhandle : s.macroDefHandle = (s.readTo text).scan (macroDefinition [] 0 text)
      fun definition s =>
        s.registerDefinition n.name n.word definition (.macroHandle n.word definition) := by
    rw [PpState.macroDefHandle, hname, PpState.scan, if_neg (by simp [hparameters]), htext]
  rw [← macroDefinition_body_iff hbody, hhandle]
  constructor
  · intro heq
    rcases hdone : macroDefinition [] 0 text with ⟨definition, rest⟩ | ⟨error, rest⟩ | -
    · -- the states tell what is stored and how far the input is consumed
      rw [hdone] at heq
      obtain ⟨hframe, rfl⟩ := registerDefinition_injective heq
      have hrest : rest <:+ (s.readTo text).frame.pending := by
        have hleaves' := macroDefinition_leaves [] 0 text
        rw [hdone] at hleaves'
        rw [htext]
        exact hleaves'
      have hbehind : behind <:+ (s.readTo text).frame.pending := by
        obtain ⟨blanks, word, rfl, -⟩ := macroBody_eq_some hbody
        rw [htext]
        exact ⟨body ++ (blanks ++ word), by simp⟩
      have hpending := congrArg Frame.pending hframe
      rw [PpState.readTo_pending _ hrest, PpState.readTo_pending _ hbehind] at hpending
      rw [hpending]
    · rw [hdone] at heq
      exact absurd heq.symm (registerDefinition_ne_error _ _ _ _ _ _)
    · exact absurd hdone (macroDefinition_ne_dry _ _ _)
  · intro hdone
    rw [hdone]
    rfl

/-- A preprocessor behind `.MACRO `. -/
def behindMacro (input : List Char) : PpState Unit where
  frame := ⟨[], input, [], 1, 1, plainName, false, false, 0, none⟩
  parents := []
  handlers := []
  scopes := []
  lexer := ()

/-- The name `a()`. -/
def nameOfA : MacroName := ⟨['a'], "a()".toList, true, true⟩

/-- A macro without a body, whose terminator is indented by a tab. -/
theorem macroDefHandle_body_blank :
    (behindMacro "a()\n \n\t.endMACRO\nx".toList).macroDefHandle =
        (((behindMacro "a()\n \n\t.endMACRO\nx".toList).readTo "\n \n\t.endMACRO\nx".toList).readTo
              "\nx".toList).registerDefinition nameOfA.name nameOfA.word (btrimws "\n \n".toList)
          (.macroHandle nameOfA.word (btrimws "\n \n".toList)) ↔
      ∀ c ∈ "\n \n".toList, isSpace c = true :=
  macroDefHandle_body_iff _ (by decide) rfl (by decide)

/-- The newline before the terminator is stored with the body `ADD A, 1`. -/
theorem not_forall_macroDefHandle_body :
    ¬ ∀ (s : PpState Unit) (n : MacroName) (text body behind : List Char),
      macroWord .asmMacroParametersIncorrect false [] [] false s.frame.pending = .done n text →
        n.isMacro = true → macroBody text = some (body, behind) →
          s.macroDefHandle =
            ((s.readTo text).readTo behind).registerDefinition n.name n.word (btrimws body)
              (.macroHandle n.word (btrimws body)) := by
  intro h
  have hblank := (macroDefHandle_body_iff _ (by decide) rfl (by decide)).mp
    (h (behindMacro "a()\nADD A, 1\n.ENDMACRO\n".toList) nameOfA
      "\nADD A, 1\n.ENDMACRO\n".toList "\nADD A, 1\n".toList "\n".toList
      (by decide) rfl (by decide))
  exact absurd (hblank 'A' (by decide)) (by decide)

end DcpuToolchain
