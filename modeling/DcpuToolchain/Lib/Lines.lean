import Mathlib.Data.List.DropRight

/-!
# Reading a text line by line

A reader of a text keeps a state that it updates at the end of every line, with the line that has
ended; behind the last line end there is a line that is open (`Lines.read`). Only line ends change
its state, so that it is settled by the lines that are complete (`Lines.read_completeLines`), and
these stay when a text is changed in its open line only (`Lines.IsSettled`).
-/

namespace Lines

variable {α σ : Type} {isEnd : α → Bool} {update : σ → List α → σ}

/-! ### Readers -/

/-- A symbol is read: it ends the line that is open, or belongs to it. -/
def next (isEnd : α → Bool) (update : σ → List α → σ) (r : σ × List α) (c : α) : σ × List α :=
  if isEnd c then (update r.1 r.2, []) else (r.1, r.2 ++ [c])

/-- The state behind a text, and the line that is open. -/
def read (isEnd : α → Bool) (update : σ → List α → σ) (s : σ) (text : List α) : σ × List α :=
  text.foldl (next isEnd update) (s, [])

theorem read_concat (s : σ) (text : List α) (c : α) :
    read isEnd update s (text ++ [c]) = next isEnd update (read isEnd update s text) c :=
  List.foldl_concat ..

/-- Within a line nothing happens to the state. -/
theorem read_append (s : σ) (text : List α) {more : List α} (h : ∀ c ∈ more, isEnd c = false) :
    read isEnd update s (text ++ more) =
      ((read isEnd update s text).1, (read isEnd update s text).2 ++ more) := by
  induction more using List.reverseRecOn with
  | nil => rw [List.append_nil, List.append_nil]
  | append_singleton more c ih =>
    have hc := h c (List.mem_append_right _ (List.mem_singleton_self c))
    rw [← List.append_assoc, read_concat, ih fun d hd => h d (List.mem_append_left _ hd), next,
      if_neg (by simp [hc]), List.append_assoc]

/-- A line is read to its end. -/
theorem read_line (s : σ) (text : List α) {more : List α} (h : ∀ c ∈ more, isEnd c = false) {e : α}
    (he : isEnd e = true) :
    read isEnd update s (text ++ more ++ [e]) =
      (update (read isEnd update s text).1 ((read isEnd update s text).2 ++ more), []) := by
  rw [read_concat, read_append s text h, next, if_pos he]

/-! ### Complete lines -/

/-- The lines of a text that have ended. -/
def completeLines (isEnd : α → Bool) (text : List α) : List α := text.rdropWhile (!isEnd ·)

theorem completeLines_initial (text : List α) : completeLines isEnd text <+: text :=
  List.rdropWhile_prefix _ _

/-- The state is settled by the lines that have ended. -/
theorem read_completeLines (s : σ) (text : List α) :
    (read isEnd update s (completeLines isEnd text)).1 = (read isEnd update s text).1 := by
  have hsplit : completeLines isEnd text ++ text.rtakeWhile (!isEnd ·) = text :=
    List.rdropWhile_append_rtakeWhile
  conv_rhs => rw [← hsplit]
  rw [read_append]
  intro c hc
  simpa using List.mem_rtakeWhile_imp hc

theorem completeLines_concat_end (text : List α) {c : α} (hc : isEnd c = true) :
    completeLines isEnd (text ++ [c]) = text ++ [c] :=
  List.rdropWhile_concat_neg _ _ _ (by simp [hc])

theorem completeLines_concat (text : List α) {c : α} (hc : isEnd c = false) :
    completeLines isEnd (text ++ [c]) = completeLines isEnd text :=
  List.rdropWhile_concat_pos _ _ _ (by simp [hc])

/-- Lines that are complete at the beginning of a text are among those that are complete in it. -/
theorem completeLines_mono {text text' : List α} (h : completeLines isEnd text <+: text') :
    completeLines isEnd text <+: completeLines isEnd text' := by
  induction text' using List.reverseRecOn with
  | nil =>
    rw [List.prefix_nil.mp h]
    exact List.nil_prefix
  | append_singleton text' c ih =>
    rcases hc : isEnd c with - | -
    · rw [completeLines_concat text' hc]
      refine ih ?_
      rcases List.prefix_concat_iff.mp h with heq | h
      · -- a text of complete lines does not end like this
        have hlast : completeLines isEnd (text' ++ [c]) = text' ++ [c] := by
          rw [← heq]
          exact List.rdropWhile_idempotent _ _
        rw [completeLines_concat text' hc] at hlast
        have hinitial : completeLines isEnd text' <+: text' := completeLines_initial text'
        have hlength := hinitial.length_le
        rw [hlast, List.length_append, List.length_singleton] at hlength
        omega
      · exact h
    · rw [completeLines_concat_end text' hc]
      exact h

/-- **What is settled**: the lines that are complete in one text are at the beginning of the
other. -/
def IsSettled (isEnd : α → Bool) (text text' : List α) : Prop := completeLines isEnd text <+: text'

theorem IsSettled.refl (text : List α) : IsSettled isEnd text text := completeLines_initial text

theorem IsSettled.trans {text text' text'' : List α} (h : IsSettled isEnd text text')
    (h' : IsSettled isEnd text' text'') : IsSettled isEnd text text'' :=
  (completeLines_mono h).trans h'

/-- Something is put behind a text. -/
theorem IsSettled.append (text more : List α) : IsSettled isEnd text (text ++ more) :=
  (completeLines_initial text).trans (List.prefix_append ..)

/-- The end of the open line is taken away. -/
theorem IsSettled.of_append (text : List α) {more : List α} (h : ∀ c ∈ more, isEnd c = false) :
    IsSettled isEnd (text ++ more) text := by
  induction more using List.reverseRecOn with
  | nil =>
    rw [List.append_nil]
    exact .refl text
  | append_singleton more c ih =>
    rw [IsSettled, ← List.append_assoc,
      completeLines_concat _ (h c (List.mem_append_right _ (List.mem_singleton_self c)))]
    exact ih fun d hd => h d (List.mem_append_left _ hd)

end Lines
