import DcpuToolchain.Pp.Conditional

/-!
# The branches of a conditional

What a conditional hands back, over all lines of its text: the loop of `skip_to_endif` finds
the line that matches among what it takes the lines for
(`DcpuToolchain.skipFrom_lines`), and what it copies before that line is the text before it
only if no directive in it begins with a dot. The result is
`DcpuToolchain.selectBranch_exact_iff`.
-/

namespace DcpuToolchain

/-! ### All lines -/

/-- What the loop copies before the line that it takes for the end of the branch. -/
def Language.copyBefore (l : Language) (lines : List (List Char)) (i : ℕ) : List Char :=
  ((l.copyLines false lines).take (l.copyEnd lines i)).flatten ++
    (lines[l.copyEnd lines i]?.map indent).getD []

/-- Only the last line has no newline. -/
def IsLines : List (List Char) → Prop
  | [] => True
  | line :: lines =>
    (∃ body newline, line = body ++ newline ∧ '\n' ∉ body ∧
      (newline = ['\n'] ∨ newline = [] ∧ body ≠ [] ∧ lines = [])) ∧ IsLines lines

section Lines

variable (l : Language) (stopAtElse : Bool)

theorem Language.kind_of_isEmptyDirective {line : List Char} (h : l.isEmptyDirective line = true) :
    l.kind line = none := by
  have hbehind : l.behindLead line = some ['\n'] := by simpa [isEmptyDirective] using h
  rw [kind, hbehind]
  cases l <;> decide

theorem Language.copyBefore_zero (line : List Char) (lines : List (List Char)) :
    l.copyBefore (line :: lines) 0 = indent line := by
  simp [copyBefore, copyEnd, hides]

/-- The first line is looked at. -/
theorem Language.pos_of_hides {lines : List (List Char)} {i : ℕ}
    (h : l.hides false lines i = true) : 0 < i := by
  rcases i with - | i
  · cases lines <;> exact absurd h (by simp [hides])
  · exact i.succ_pos

theorem Language.copyEnd_shown {line : List Char} (h : l.isEmptyDirective line = false)
    (lines : List (List Char)) (i : ℕ) :
    l.copyEnd (line :: lines) (i + 1) = l.copyEnd lines i + 1 := by
  rw [copyEnd, copyEnd, hides, h]
  split
  · rename_i hi
    have hpos := l.pos_of_hides hi
    omega
  · rfl

theorem Language.copyEnd_hidden {line : List Char} (h : l.isEmptyDirective line = true)
    (next : List Char) (lines : List (List Char)) (i : ℕ) :
    l.copyEnd (line :: next :: lines) (i + 2) = l.copyEnd lines i + 2 := by
  rw [copyEnd, copyEnd, hides, h, hides]
  split
  · rename_i hi
    have hpos := l.pos_of_hides hi
    omega
  · rfl

theorem Language.copyBefore_shown {line : List Char} (h : l.isEmptyDirective line = false)
    (lines : List (List Char)) (i : ℕ) :
    l.copyBefore (line :: lines) (i + 1) = l.copyLine line ++ l.copyBefore lines i := by
  rw [copyBefore, l.copyEnd_shown h, copyLines, h, copyBefore]
  simp

theorem Language.copyBefore_one {line : List Char} (h : l.isEmptyDirective line = true)
    (next : List Char) (lines : List (List Char)) :
    l.copyBefore (line :: next :: lines) 1 = indent line := by
  simp [copyBefore, copyEnd, hides, h]

theorem Language.copyBefore_hidden {line : List Char} (h : l.isEmptyDirective line = true)
    (next : List Char) (lines : List (List Char)) (i : ℕ) :
    l.copyBefore (line :: next :: lines) (i + 2) =
      l.copyLine line ++ next ++ l.copyBefore lines i := by
  rw [copyBefore, l.copyEnd_hidden h, copyLines, h, copyLines, copyBefore]
  simp

/-- **The loop finds the line that matches** among what it takes the lines for. -/
theorem skipFrom_lines (ifOpen : ℕ) (output : Bstring) {lines : List (List Char)}
    (hlines : IsLines lines) :
    skipFrom l stopAtElse true ifOpen output lines.flatten =
      match matching stopAtElse ifOpen (l.takenAs false lines) with
      | none => .halt .asmNoEndifToIf []
      | some (i, atElse) =>
        .done (output ++ l.copyBefore lines i, atElse) (lines.drop (i + 1)).flatten := by
  induction hn : lines.length using Nat.strong_induction_on generalizing lines ifOpen output with
  | _ n ih =>
    cases lines with
    | nil => rfl
    | cons line lines =>
      obtain ⟨⟨body, newline, rfl, hbody, hnewline⟩, hlines⟩ := hlines
      have hnl : newline = ['\n'] ∨ newline = [] ∧ lines.flatten = [] :=
        hnewline.imp_right fun ⟨h, _, hl⟩ => ⟨h, by rw [hl]; rfl⟩
      rcases he : l.isEmptyDirective (body ++ newline) with - | -
      · rw [List.flatten_cons, skipFrom_shown l stopAtElse ifOpen output hbody hnl he,
          Language.takenAs, he, matching]
        cases hends : ends stopAtElse (l.kind (body ++ newline)) ifOpen with
        | some atElse => simp [Language.copyBefore_zero]
        | none =>
          rw [ih lines.length (by simp [← hn]) _ _ hlines rfl]
          cases matching stopAtElse (depthAfter (l.kind (body ++ newline)) ifOpen)
            (l.takenAs false lines) with
          | none => rfl
          | some r => simp [l.copyBefore_shown he]
      · have hkind := l.kind_of_isEmptyDirective he
        cases lines with
        | nil =>
          -- there is no next line
          have hword := skipFrom_hidden l stopAtElse ifOpen output List.not_mem_nil
            (.inr ⟨rfl, rfl⟩ : [] = ['\n'] ∨ [] = [] ∧ [] = []) he
          have hnil : l.conditional (l.directive ('\n' :: firstWord [])) = none :=
            l.conditional_singleton '\n'
          rw [hnil] at hword
          rw [Language.takenAs, Language.takenAs, hkind, List.flatten_cons, List.flatten_nil]
          exact hword.trans rfl
        | cons next lines =>
          obtain ⟨⟨body', newline', rfl, hbody', hnewline'⟩, hlines⟩ := hlines
          have hnl' : newline' = ['\n'] ∨ newline' = [] ∧ lines.flatten = [] :=
            hnewline'.imp_right fun ⟨h, _, hl⟩ => ⟨h, by rw [hl]; rfl⟩
          have hword : firstWord (body' ++ newline') = firstWord body' :=
            firstWord_newline body' (hnl'.imp_right And.left)
          rw [List.flatten_cons, List.flatten_cons,
            skipFrom_hidden l stopAtElse ifOpen output hbody' hnl' he, Language.takenAs, he,
            Language.takenAs, hword, hkind, matching, matching]
          set kind := l.conditional (l.directive ('\n' :: firstWord body'))
          have hends : ends stopAtElse none ifOpen = none := rfl
          have hdepth : depthAfter none ifOpen = ifOpen := rfl
          rw [hends, hdepth]
          cases hends : ends stopAtElse kind ifOpen with
          | some atElse => simp [l.copyBefore_one he]
          | none =>
            have hlt : lines.length < n := by
              simp only [List.length_cons] at hn
              omega
            rw [ih lines.length hlt _ _ hlines rfl]
            cases matching stopAtElse (depthAfter kind ifOpen) (l.takenAs false lines) with
            | none => rfl
            | some r => simp [l.copyBefore_hidden he]

/-! ### Both branches -/

omit l in
/-- A line that matches is an else or an end. -/
theorem matching_kind {depth i : ℕ} {kinds : List (Option Conditional)} {atElse : Bool}
    (h : matching stopAtElse depth kinds = some (i, atElse)) :
    kinds[i]? = some (some (if atElse then .elses else .closes)) := by
  induction kinds generalizing depth i with
  | nil => cases h
  | cons kind kinds ih =>
    rw [matching] at h
    cases hends : ends stopAtElse kind depth with
    | some b =>
      rw [hends] at h
      obtain ⟨rfl, rfl⟩ : 0 = i ∧ b = atElse := by simpa using h
      rw [ends] at hends
      split at hends
      · rename_i hk
        cases hends
        rw [hk.1]
        rfl
      · split at hends
        · rename_i hk
          cases hends
          rw [hk.1]
          rfl
        · cases hends
    | none =>
      rw [hends] at h
      obtain ⟨⟨j, b⟩, hj, hij⟩ := Option.map_eq_some_iff.mp h
      obtain ⟨rfl, rfl⟩ := Prod.mk.inj hij
      exact ih hj

/-- Behind a line that ends something the next line is looked at. -/
theorem Language.takenAs_drop {hidden : Bool} {lines : List (List Char)} {i : ℕ}
    {kind : Conditional} (h : (l.takenAs hidden lines)[i]? = some (some kind)) :
    (l.takenAs hidden lines).drop (i + 1) = l.takenAs false (lines.drop (i + 1)) := by
  induction lines generalizing hidden i with
  | nil => cases hidden <;> simp [takenAs] at h
  | cons line lines ih =>
    rcases i with - | i
    · cases hidden with
      | true => rfl
      | false =>
        rcases he : l.isEmptyDirective line with - | -
        · rw [takenAs, he]
          rfl
        · rw [takenAs, List.getElem?_cons_zero, l.kind_of_isEmptyDirective he] at h
          cases h
    · cases hidden with
      | true => exact ih h
      | false => exact ih h

omit l stopAtElse in
theorem IsLines.drop {lines : List (List Char)} (h : IsLines lines) (n : ℕ) :
    IsLines (lines.drop n) := by
  induction n generalizing lines with
  | zero => exact h
  | succ n ih =>
    cases lines with
    | nil => exact h
    | cons line lines => exact ih h.2

omit l stopAtElse in
theorem toLines_flatten (text : List Char) : (toLines text).flatten = text := by
  induction text with
  | nil => rfl
  | cons c text ih =>
    rw [toLines]
    split
    · rename_i hc
      rw [List.flatten_cons, ih, hc, List.singleton_append]
    · split
      · rename_i h
        rw [h, List.flatten_nil] at ih
        rw [← ih]
        rfl
      · rename_i h
        rw [h, List.flatten_cons] at ih
        rw [List.flatten_cons, List.cons_append, ih]

omit l stopAtElse in
theorem isLines_toLines (text : List Char) : IsLines (toLines text) := by
  induction text with
  | nil => trivial
  | cons c text ih =>
    rw [toLines]
    split
    · exact ⟨⟨[], ['\n'], rfl, List.not_mem_nil, .inl rfl⟩, ih⟩
    · rename_i hc
      split
      · exact ⟨⟨[c], [], rfl, by simpa [eq_comm] using hc, .inr ⟨rfl, by simp, rfl⟩⟩, trivial⟩
      · rename_i h
        rw [h] at ih
        obtain ⟨⟨body, newline, rfl, hbody, hnewline⟩, hlines⟩ := ih
        refine ⟨⟨c :: body, newline, rfl, ?_, ?_⟩, hlines⟩
        · simpa [eq_comm (a := '\n')] using ⟨hc, hbody⟩
        · exact hnewline.imp_right fun ⟨h₁, _, h₂⟩ => ⟨h₁, by simp, h₂⟩

/-- **What the preprocessor makes of a conditional that holds.** -/
theorem selectBranch_lines {lines : List (List Char)} (hlines : IsLines lines) :
    selectBranch l true lines.flatten = .ok
      (match matchingLines (l.takenAs false lines) with
      | none => .halt .asmNoEndifToIf []
      | some (i, j) => .done (l.copyBefore lines i) (lines.drop (j + 1)).flatten) := by
  have h₁ := skipFrom_lines l true 1 [] hlines
  rw [selectBranch, if_pos rfl, skipToEndif, ← skipFrom, h₁, matchingLines]
  cases hm : matching true 1 (l.takenAs false lines) with
  | none => rfl
  | some r =>
    obtain ⟨i, atElse⟩ := r
    cases atElse with
    | false => rfl
    | true =>
      have h₂ := skipFrom_lines l false 1 [] (hlines.drop (i + 1))
      have hdrop := l.takenAs_drop (matching_kind true hm)
      dsimp only
      rw [skipToEndif, ← skipFrom, h₂, hdrop]
      cases matching false 1 (l.takenAs false (lines.drop (i + 1))) with
      | none => rfl
      | some r => simp [Nat.add_comm, Nat.add_left_comm]

/-! ### Positions -/

omit stopAtElse in
/-- A line with a directive. -/
theorem Language.split_of_isSome {line : List Char} (h : (l.behindLead line).isSome = true) :
    ∃ lead rest, l.leads lead = true ∧ line = indent line ++ lead :: rest := by
  have hsplit : indent line ++ line.dropWhile isBlank = line := List.takeWhile_append_dropWhile
  rw [behindLead] at h
  rcases hdrop : line.dropWhile isBlank with - | ⟨lead, rest⟩
  · rw [hdrop] at h
    cases h
  · rw [hdrop] at h hsplit
    refine ⟨lead, rest, ?_, hsplit.symm⟩
    rcases hl : l.leads lead with - | -
    · simp [hl] at h
    · rfl

omit stopAtElse in
theorem Language.isSome_of_kind {line : List Char} {kind : Conditional}
    (h : l.kind line = some kind) : (l.behindLead line).isSome = true := by
  rw [Language.kind] at h
  cases hb : l.behindLead line with
  | none =>
    rw [hb] at h
    cases h
  | some behind => rfl

omit stopAtElse in
theorem Language.length_copyLine (line : List Char) : (l.copyLine line).length = line.length := by
  rw [copyLine]
  split
  · rename_i h
    obtain ⟨lead, rest, -, hline⟩ := l.split_of_isSome h
    have hlen := congrArg List.length hline
    simp only [List.length_append, List.length_cons, List.length_drop] at hlen ⊢
    omega
  · rfl

omit stopAtElse in
theorem Language.copyLine_eq_iff (line : List Char) :
    l.copyLine line = line ↔ l.beginsWithDot line = false := by
  have hsplit : indent line ++ line.dropWhile isBlank = line := List.takeWhile_append_dropWhile
  rw [beginsWithDot]
  rcases hdrop : line.dropWhile isBlank with - | ⟨lead, rest⟩
  · have hnone : l.behindLead line = none := by rw [behindLead, hdrop]
    rw [copyLine, hnone]
    exact iff_of_true rfl rfl
  · rw [hdrop] at hsplit
    rcases hl : l.leads lead with - | -
    · have hnone : l.behindLead line = none := by
        rw [behindLead, hdrop]
        simp [hl]
      rw [copyLine, hnone]
      exact iff_of_true rfl (by simp [hl])
    · have hsome : l.behindLead line = some (rest.dropWhile isBlank) := by
        rw [behindLead, hdrop]
        simp [hl]
      rw [l.copyLine_of_lead hsplit.symm hsome]
      conv_lhs =>
        rhs
        rw [← hsplit]
      simp only [List.append_cancel_left_eq, List.cons.injEq, and_true, hl, Bool.true_and,
        bne_eq_false_iff_eq]
      exact eq_comm

omit stopAtElse in
/-- A copied line begins as the line does, and no character of a directive is copied as the
end of a string. -/
theorem Language.copyLines_getElem? (hidden : Bool) {lines : List (List Char)} {k : ℕ}
    {line : List Char} (hline : lines[k]? = some line) (h : (l.behindLead line).isSome = true) :
    ∃ lead rest, lead ≠ '\x00' ∧
      (l.copyLines hidden lines)[k]? = some (indent line ++ lead :: rest) := by
  induction lines generalizing hidden k with
  | nil => cases hline
  | cons first lines ih =>
    rcases k with - | k
    · obtain rfl : first = line := by simpa using hline
      obtain ⟨lead, rest, hl, hsplit⟩ := l.split_of_isSome h
      cases hidden with
      | true =>
        refine ⟨lead, rest, ?_, by rw [copyLines, List.getElem?_cons_zero, ← hsplit]⟩
        rintro rfl
        cases l <;> exact absurd hl (by decide)
      | false =>
        refine ⟨'#', first.drop ((indent first).length + 1), by decide, ?_⟩
        rw [copyLines, List.getElem?_cons_zero, copyLine, if_pos h]
    · cases hidden with
      | true => exact ih false hline
      | false => exact ih _ hline

omit stopAtElse in
/-- The copies of the first lines are as long as the lines. -/
theorem Language.length_copyLines_take (hidden : Bool) (lines : List (List Char)) (k : ℕ) :
    ((l.copyLines hidden lines).take k).flatten.length = (lines.take k).flatten.length := by
  induction lines generalizing hidden k with
  | nil => cases hidden <;> simp [copyLines]
  | cons line lines ih =>
    rcases k with - | k
    · simp
    · cases hidden with
      | true =>
        simp only [copyLines, List.take_succ_cons, List.flatten_cons, List.length_append, ih]
      | false =>
        simp only [copyLines, List.take_succ_cons, List.flatten_cons, List.length_append, ih,
          l.length_copyLine]

omit stopAtElse in
/-- **The copies of the first lines are the lines** exactly if those that are looked at are
copied as they are. -/
theorem Language.copyLines_take_iff (hidden : Bool) (lines : List (List Char)) (k : ℕ) :
    ((l.copyLines hidden lines).take k).flatten = (lines.take k).flatten ↔
      ∀ i line, i < k → l.hides hidden lines i = false → lines[i]? = some line →
        l.copyLine line = line := by
  induction lines generalizing hidden k with
  | nil => cases hidden <;> simp [copyLines]
  | cons line lines ih =>
    rcases k with - | k
    · simp
    · have hsucc : ∀ hidden' : Bool,
          (∀ i, l.hides hidden (line :: lines) (i + 1) = l.hides hidden' lines i) →
          ((∀ i line', i < k + 1 → l.hides hidden (line :: lines) i = false →
              (line :: lines)[i]? = some line' → l.copyLine line' = line') ↔
            (hidden = false → l.copyLine line = line) ∧
              ∀ i line', i < k → l.hides hidden' lines i = false → lines[i]? = some line' →
                l.copyLine line' = line') := by
        intro hidden' hh
        constructor
        · intro h
          refine ⟨fun hid => h 0 line k.succ_pos (by rw [hid]; rfl) rfl,
            fun i line' hi hhid hl => ?_⟩
          exact h (i + 1) line' (by omega) ((hh i).trans hhid) hl
        · rintro ⟨h₀, h⟩ (- | i) line' hi hhid hl
          · obtain rfl : line = line' := by simpa using hl
            refine h₀ ?_
            cases hidden <;> exact hhid
          · exact h i line' (by omega) ((hh i).symm.trans hhid) hl
      cases hidden with
      | true =>
        rw [hsucc false fun _ => rfl, copyLines, List.take_succ_cons, List.take_succ_cons,
          List.flatten_cons, List.flatten_cons, List.append_cancel_left_eq, ih]
        simp
      | false =>
        rw [hsucc (l.isEmptyDirective line) fun _ => rfl, copyLines, List.take_succ_cons,
          List.take_succ_cons, List.flatten_cons, List.flatten_cons, ← ih]
        constructor
        · intro h
          have h' := List.append_inj h (l.length_copyLine line)
          exact ⟨fun _ => h'.1, h'.2⟩
        · rintro ⟨h₀, h⟩
          rw [h₀ rfl, h]

omit stopAtElse in
/-- Where the text before a line ends. -/
theorem length_textBefore (lines : List (List Char)) (k : ℕ) :
    (textBefore lines k).length =
      (lines.take k).flatten.length + ((lines[k]?.map indent).getD []).length :=
  List.length_append

omit stopAtElse in
/-- The text before a line with a directive ends within that line. -/
theorem Language.length_textBefore_lt {lines : List (List Char)} {k k' : ℕ} {line : List Char}
    (hline : lines[k]? = some line) (h : (l.behindLead line).isSome = true) (hk : k < k') :
    (textBefore lines k).length < (lines.take k').flatten.length := by
  obtain ⟨lead, rest, -, hsplit⟩ := l.split_of_isSome h
  have hlt := congrArg List.length hsplit
  have hpre : (lines.take (k + 1)).flatten <+: (lines.take k').flatten :=
    (List.take_prefix_take_left hk).flatten
  have hlen := hpre.length_le
  rw [List.take_add_one, hline] at hlen
  rw [length_textBefore, hline]
  simp at hlt hlen ⊢
  omega

omit stopAtElse in
theorem Language.length_copyBefore (lines : List (List Char)) (i : ℕ) :
    (l.copyBefore lines i).length = (textBefore lines (l.copyEnd lines i)).length := by
  rw [copyBefore, List.length_append, l.length_copyLines_take, length_textBefore]

omit stopAtElse in
/-- A line that is looked at is taken for what it is. -/
theorem Language.takenAs_getElem? {hidden : Bool} {lines : List (List Char)} {i : ℕ}
    (h : l.hides hidden lines i = false) :
    (l.takenAs hidden lines)[i]? = lines[i]?.map l.kind := by
  induction lines generalizing hidden i with
  | nil => cases hidden <;> rfl
  | cons line lines ih =>
    rcases i with - | i
    · cases hidden with
      | true => cases h
      | false => rfl
    · cases hidden with
      | true => exact ih h
      | false => exact ih h

omit stopAtElse in
/-- A line that is not looked at stands behind an empty directive. -/
theorem Language.emptyDirective_of_hides {hidden : Bool} {lines : List (List Char)} {i : ℕ}
    (h : l.hides hidden lines (i + 1) = true) :
    ∃ line, lines[i]? = some line ∧ l.isEmptyDirective line = true := by
  induction lines generalizing hidden i with
  | nil => cases hidden <;> cases h
  | cons line lines ih =>
    rcases i with - | i
    · cases hidden with
      | true => exact absurd (@Language.pos_of_hides l lines _ h) (Nat.lt_irrefl 0)
      | false =>
        refine ⟨line, rfl, ?_⟩
        rcases he : l.isEmptyDirective line with - | -
        · rw [hides, he] at h
          exact absurd (l.pos_of_hides h) (Nat.lt_irrefl 0)
        · rfl
    · cases hidden with
      | true => exact ih h
      | false => exact ih h

omit stopAtElse in
/-- What is copied before a line that is taken for the end of the branch ends at a line with
a directive. -/
theorem Language.lead_copyEnd {lines : List (List Char)} {i : ℕ} {kind : Conditional}
    (h : (l.takenAs false lines)[i]? = some (some kind)) :
    ∃ line, lines[l.copyEnd lines i]? = some line ∧ (l.behindLead line).isSome = true ∧
      (l.hides false lines i = true → l.kind line = none) := by
  rcases hh : l.hides false lines i with - | -
  · rw [l.takenAs_getElem? hh] at h
    obtain ⟨line, hline, hkind⟩ := Option.map_eq_some_iff.mp h
    rw [copyEnd, hh]
    exact ⟨line, hline, l.isSome_of_kind hkind, nofun⟩
  · obtain ⟨i, rfl⟩ : ∃ k, i = k + 1 := ⟨i - 1, by have := l.pos_of_hides hh; omega⟩
    obtain ⟨line, hline, he⟩ := l.emptyDirective_of_hides hh
    rw [copyEnd, hh]
    refine ⟨line, hline, ?_, fun _ => l.kind_of_isEmptyDirective he⟩
    have hbehind : l.behindLead line = some ['\n'] := by simpa [isEmptyDirective] using he
    rw [hbehind]
    rfl

omit l stopAtElse in
/-- A string does not end before a character that is not NUL. -/
theorem length_cString_ne (before : List Char) {char : Char} (hchar : char ≠ '\x00')
    (behind : List Char) : (cString (before ++ char :: behind)).length ≠ before.length := by
  rw [cString, List.takeWhile_append]
  split
  · rw [List.length_append, List.takeWhile_cons, if_pos (by simpa using hchar), List.length_cons]
    omega
  · assumption

omit stopAtElse in
/-- **A copy that is printed as the text before a line** ends there. -/
theorem Language.copyEnd_eq {lines : List (List Char)} {i m : ℕ} {kind : Conditional}
    {line : List Char} (h : (l.takenAs false lines)[i]? = some (some kind))
    (hline : lines[m]? = some line) (hlead : (l.behindLead line).isSome = true)
    (hcopy : cString (l.copyBefore lines i) = textBefore lines m) : l.copyEnd lines i = m := by
  obtain ⟨last, hlast, hlastLead, -⟩ := l.lead_copyEnd h
  have hlen := congrArg List.length hcopy
  have hle : (cString (l.copyBefore lines i)).length ≤ (l.copyBefore lines i).length :=
    (List.takeWhile_prefix _).length_le
  rw [l.length_copyBefore] at hle
  rcases Nat.lt_trichotomy (l.copyEnd lines i) m with hlt | heq | hgt
  · -- the copy is too short
    have h₁ := l.length_textBefore_lt hlast hlastLead hlt
    rw [length_textBefore lines m] at hlen
    omega
  · exact heq
  · -- the copy has a character of the directive where it should end
    obtain ⟨lead, rest, hnul, hsplit⟩ := l.copyLines_getElem? false hline hlead
    have hpre : ((l.copyLines false lines).take (m + 1)).flatten <+: l.copyBefore lines i :=
      (List.take_prefix_take_left hgt).flatten.trans (List.prefix_append _ _)
    rw [List.take_add_one, hsplit, Option.toList_some, List.flatten_append] at hpre
    obtain ⟨behind, hbehind⟩ := hpre
    have htext : l.copyBefore lines i =
        (((l.copyLines false lines).take m).flatten ++ indent line) ++
        lead :: (rest ++ behind) := by
      rw [← hbehind]
      simp
    rw [htext, length_textBefore, hline] at hlen
    refine absurd hlen ?_
    rw [← l.length_copyLines_take false, Option.map_some, Option.getD_some, ← List.length_append]
    exact length_cString_ne _ hnul (rest ++ behind)

omit l stopAtElse in
theorem IsLines.ne_nil {lines : List (List Char)} (h : IsLines lines) :
    ∀ line ∈ lines, line ≠ [] := by
  induction lines with
  | nil => exact fun line hline => absurd hline List.not_mem_nil
  | cons first lines ih =>
    obtain ⟨⟨body, newline, rfl, -, hnewline⟩, hlines⟩ := h
    intro line hline
    rcases List.mem_cons.mp hline with rfl | hline
    · rcases hnewline with rfl | ⟨-, hbody, -⟩
      · simp
      · simp [hbody]
    · exact ih hlines line hline

omit l stopAtElse in
/-- Lines are not empty, so that there is more behind a line than behind a later one. -/
theorem IsLines.length_drop_lt {lines : List (List Char)} (h : IsLines lines) {j k : ℕ}
    (hjk : j < k) (hk : k < lines.length) :
    (lines.drop (k + 1)).flatten.length < (lines.drop (j + 1)).flatten.length := by
  have hdrop : lines.drop k <:+ lines.drop (j + 1) := by
    obtain ⟨n, rfl⟩ := Nat.exists_eq_add_of_lt hjk
    rw [show j + n + 1 = j + 1 + n by omega, ← List.drop_drop]
    exact List.drop_suffix _ _
  have hle := hdrop.flatten.length_le
  rw [List.drop_eq_getElem_cons hk, List.flatten_cons, List.length_append] at hle
  have hpos := List.length_pos_iff.mpr (h.ne_nil lines[k] (List.getElem_mem hk))
  omega

omit l stopAtElse in
theorem IsLines.drop_inj {lines : List (List Char)} (h : IsLines lines) {j k : ℕ}
    (hj : j < lines.length) (hk : k < lines.length)
    (heq : (lines.drop (j + 1)).flatten = (lines.drop (k + 1)).flatten) : j = k := by
  rcases Nat.lt_trichotomy j k with hlt | heq' | hgt
  · exact absurd (congrArg List.length heq) (h.length_drop_lt hlt hk).ne'
  · exact heq'
  · exact absurd (congrArg List.length heq) (h.length_drop_lt hgt hj).ne

omit l stopAtElse in
/-- The lines that match are elses and ends. -/
theorem matchingLines_kind {kinds : List (Option Conditional)} {i j : ℕ}
    (h : matchingLines kinds = some (i, j)) :
    (∃ kind, kinds[i]? = some (some kind)) ∧ ∃ kind, kinds[j]? = some (some kind) := by
  rw [matchingLines] at h
  cases hm : matching true 1 kinds with
  | none =>
    rw [hm] at h
    cases h
  | some r =>
    obtain ⟨i', atElse⟩ := r
    have hi := matching_kind true hm
    rw [hm] at h
    cases atElse with
    | false =>
      cases h
      exact ⟨⟨_, hi⟩, ⟨_, hi⟩⟩
    | true =>
      obtain ⟨⟨k, b⟩, hk, hij⟩ := Option.map_eq_some_iff.mp h
      obtain ⟨rfl, rfl⟩ := Prod.mk.inj hij
      have hkind := matching_kind false hk
      rw [List.getElem?_drop] at hkind
      exact ⟨⟨_, hi⟩, ⟨_, hkind⟩⟩

omit stopAtElse in
theorem Language.length_takenAs (hidden : Bool) (lines : List (List Char)) :
    (l.takenAs hidden lines).length = lines.length := by
  induction lines generalizing hidden with
  | nil => cases hidden <;> rfl
  | cons line lines ih => cases hidden <;> simp [takenAs, ih]

/-- **The branch that is handed back** is the one the condition selects, and the input goes on
behind the matching end, exactly if the condition holds, the lines behind empty directives
make no difference to which lines match, no directive in the branch begins with a dot, and
the branch has no NUL. -/
theorem selectBranch_exact_iff (l : Language) (value : Bool) {text : List Char} {i j : ℕ}
    (hmatch : matchingLines ((toLines text).map l.kind) = some (i, j)) :
    (∃ output, selectBranch l value text =
        .ok (.done output ((toLines text).drop (j + 1)).flatten) ∧
      cString output = branch value (toLines text) i j) ↔
      value = true ∧
        matchingLines (l.takenAs false (toLines text)) = some (i, j) ∧
          l.hides false (toLines text) i = false ∧
        (∀ k line, k < i → l.hides false (toLines text) k = false → (toLines text)[k]? = some line →
          l.beginsWithDot line = false) ∧
        '\x00' ∉ textBefore (toLines text) i := by
  have hlines := isLines_toLines text
  have hselect := selectBranch_lines l hlines
  rw [toLines_flatten] at hselect
  set lines := toLines text
  obtain ⟨⟨kind, hkind⟩, _, hj⟩ := matchingLines_kind hmatch
  rw [List.getElem?_map] at hkind hj
  obtain ⟨line, hline, hlkind⟩ := Option.map_eq_some_iff.mp hkind
  obtain ⟨lastLine, hlast, -⟩ := Option.map_eq_some_iff.mp hj
  have hlead := l.isSome_of_kind hlkind
  simp only [← l.copyLine_eq_iff]
  constructor
  · rintro ⟨output, hout, hbranch⟩
    cases value with
    | false => cases hout
    | true =>
      rw [hselect] at hout
      cases hm : matchingLines (l.takenAs false lines) with
      | none =>
        rw [hm] at hout
        cases hout
      | some r =>
        obtain ⟨i', j'⟩ := r
        rw [hm] at hout
        obtain ⟨hcopy, hrest⟩ : l.copyBefore lines i' = output ∧
            (lines.drop (j' + 1)).flatten = (lines.drop (j + 1)).flatten := by
          simpa using hout
        obtain ⟨⟨kind', hkind'⟩, _, hj'⟩ := matchingLines_kind hm
        have hend : l.copyEnd lines i' = i :=
          l.copyEnd_eq hkind' hline hlead (by rw [hcopy]; exact hbranch)
        -- the line is looked at, as an empty directive does not match
        have hshown : l.hides false lines i' = false := by
          rcases hh : l.hides false lines i' with - | -
          · rfl
          · obtain ⟨line', hline', -, hnone⟩ := l.lead_copyEnd hkind'
            rw [hend, hline] at hline'
            cases hline'
            rw [hnone hh] at hlkind
            cases hlkind
        have hii : i' = i := by
          rw [← hend, Language.copyEnd, hshown]
          rfl
        subst hii
        have hjlt' : j' < lines.length := by
          rw [← l.length_takenAs false]
          exact (List.getElem?_eq_some_iff.mp hj').1
        have hjj : j' = j := hlines.drop_inj hjlt' (List.getElem?_eq_some_iff.mp hlast).1 hrest
        -- a string as long as the copy is the whole copy
        have hwhole : cString (l.copyBefore lines i') = l.copyBefore lines i' := by
          refine (List.takeWhile_prefix _).eq_of_length ?_
          rw [← cString, hcopy, hbranch, ← hcopy, l.length_copyBefore, hend]
          rfl
        have hbefore : l.copyBefore lines i' = textBefore lines i' := by
          rw [← hwhole, hcopy]
          exact hbranch
        refine ⟨rfl, by rw [hjj], hshown, ?_, ?_⟩
        · rw [← l.copyLines_take_iff]
          rw [Language.copyBefore, hend, textBefore] at hbefore
          exact List.append_cancel_right hbefore
        · intro hmem
          rw [← hbefore, ← hwhole] at hmem
          simpa using List.mem_takeWhile_imp hmem
  · rintro ⟨rfl, hm, hshown, hcopy, hnul⟩
    have hend : l.copyEnd lines i = i := by rw [Language.copyEnd, hshown]; rfl
    refine ⟨l.copyBefore lines i, by rw [hselect, hm], ?_⟩
    have hbefore : l.copyBefore lines i = textBefore lines i := by
      rw [Language.copyBefore, hend, (l.copyLines_take_iff false lines i).mpr hcopy, textBefore]
    rw [hbefore, branch, if_pos rfl, cString, List.takeWhile_eq_self_iff]
    intro c hc
    refine decide_eq_true ?_
    rintro rfl
    exact hnul hc

end Lines

/-- A conditional in C with a nested one and another branch. -/
def documentedBranch : List Char :=
  "x = 1;\n#ifdef A\n#else\n#endif\n#else\ny\n#endif\nrest\n".toList

/-- The first branch of a conditional that holds. -/
theorem selectBranch_documentedBranch :
    (∃ output, selectBranch .c true documentedBranch =
        .ok (.done output ((toLines documentedBranch).drop 7).flatten) ∧
      cString output = branch true (toLines documentedBranch) 4 6) ↔
      true = true ∧
        matchingLines (Language.c.takenAs false (toLines documentedBranch)) = some (4, 6) ∧
          Language.c.hides false (toLines documentedBranch) 4 = false ∧
        (∀ k line, k < 4 → Language.c.hides false (toLines documentedBranch) k = false →
          (toLines documentedBranch)[k]? = some line → Language.c.beginsWithDot line = false) ∧
        '\x00' ∉ textBefore (toLines documentedBranch) 4 :=
  selectBranch_exact_iff .c true (by decide +kernel)

/-- An empty directive hides the end of the conditional. -/
theorem not_forall_selectBranch_exact :
    ¬ ∀ (l : Language) (value : Bool) (text : List Char) (i j : ℕ),
      matchingLines ((toLines text).map l.kind) = some (i, j) →
        ∃ output, selectBranch l value text =
            .ok (.done output ((toLines text).drop (j + 1)).flatten) ∧
          cString output = branch value (toLines text) i j := by
  intro h
  obtain ⟨output, hout, -⟩ := h .asm true "#\n.ENDIF\n".toList 1 1 (by decide +kernel)
  have hhalt : selectBranch .asm true "#\n.ENDIF\n".toList = .ok (.halt .asmNoEndifToIf []) := by
    decide +kernel
  rw [hhalt] at hout
  cases hout

end DcpuToolchain
