import DcpuToolchain.Pp.Rest

/-!
# Words and strings

A text is read as words, strings and whatever is between them. A word is a longest run of
letters, digits and underscores outside of strings; a string begins at a quote and ends at
the next one that is not behind a backslash, or with the line.

To expand a macro is to put the arguments in place of the words that are its parameters, all
at once (`DcpuToolchain.substitute`). What is put in place of a word is not read again. What
reads a text reads it up to the first of its words that is a name (`DcpuToolchain.FirstBound`).
-/

namespace DcpuToolchain

/-- The characters of an identifier. -/
def isWordChar (c : Char) : Bool := !ppimplIsolates c false

/-- Where a text stands as to strings; `escaped` says that a backslash was the last
character. -/
inductive Quotes
  | outside
  | single (escaped : Bool)
  | double (escaped : Bool)
  deriving DecidableEq, Repr

namespace Quotes

/-- The effect of a character. -/
def next : Quotes → Char → Quotes
  | outside, c => if c = '\'' then single false else if c = '"' then double false else outside
  | single escaped, c =>
    if (c = '\'' ∧ escaped = false) ∨ c = '\n' then outside else single (c = '\\')
  | double escaped, c =>
    if (c = '"' ∧ escaped = false) ∨ c = '\n' then outside else double (c = '\\')

/-- The effect of a text. -/
def after (q : Quotes) (text : List Char) : Quotes := text.foldl next q

variable {q : Quotes}

theorem after_nil : q.after [] = q := rfl

theorem after_cons (c : Char) (text : List Char) : q.after (c :: text) = (q.next c).after text :=
  rfl

end Quotes

/-! ### Words -/

/-- The words of a text, each with the text behind it; `word` is what has been read of the
first one. -/
def words : (word : List Char) → Quotes → List Char → List (List Char × List Char)
  | word, _, [] => if word = [] then [] else [(word, [])]
  | word, q, c :: text =>
    if q = .outside ∧ isWordChar c then words (word ++ [c]) q text
    else (if word = [] then [] else [(word, c :: text)]) ++ words [] (q.next c) text

/-- What stands in place of a word. -/
def replaced (bindings : List (Bstring × Bstring)) (word : List Char) : List Char :=
  (bindings.lookup word).getD word

/-- **Simultaneous substitution**: every word that is bound is replaced by what it is bound
to. -/
def substitute (bindings : List (Bstring × Bstring)) :
    (word : List Char) → Quotes → List Char → List Char
  | word, _, [] => replaced bindings word
  | word, q, c :: text =>
    if q = .outside ∧ isWordChar c then substitute bindings (word ++ [c]) q text
    else replaced bindings word ++ c :: substitute bindings [] (q.next c) text

/-- Every word replaced by what it stands for. -/
def substituteWith (f : List Char → List Char) : (word : List Char) → Quotes → List Char → List Char
  | word, _, [] => f word
  | word, q, c :: text =>
    if q = .outside ∧ isWordChar c then substituteWith f (word ++ [c]) q text
    else f word ++ c :: substituteWith f [] (q.next c) text

variable {bindings : List (Bstring × Bstring)} {word text : List Char} {q : Quotes}

theorem substitute_eq (bindings : List (Bstring × Bstring)) (word : List Char) (q : Quotes)
    (text : List Char) :
    substitute bindings word q text = substituteWith (replaced bindings) word q text := by
  induction text generalizing word q with
  | nil => rfl
  | cons c text ih => rw [substitute, substituteWith, ih, ih]

theorem replaced_of_unbound (h : bindings.lookup word = none) : replaced bindings word = word := by
  rw [replaced, h, Option.getD_none]

theorem replaced_of_bound {argument : Bstring} (h : bindings.lookup word = some argument) :
    replaced bindings word = argument := by
  rw [replaced, h, Option.getD_some]

/-- A character of a word neither begins nor ends a string. -/
theorem Quotes.next_outside {c : Char} (hc : isWordChar c = true) :
    Quotes.outside.next c = .outside := by
  have hsingle : c ≠ '\'' := by rintro rfl; exact absurd hc (by decide)
  have hdouble : c ≠ '"' := by rintro rfl; exact absurd hc (by decide)
  rw [Quotes.next, if_neg hsingle, if_neg hdouble]

/-- A text behind which no word goes on. -/
def endsHere (text : List Char) : Prop := ∀ c ∈ text.head?, isWordChar c = false

instance (text : List Char) : Decidable (endsHere text) :=
  decidable_of_iff (text.head?.all (!isWordChar ·) = true)
    ⟨fun h c hc => by simpa using (Option.all_eq_true _ _).mp h c hc,
      fun h => (Option.all_eq_true _ _).mpr fun c hc => by simpa using h c hc⟩

theorem words_of_endsHere (h : endsHere text) (hword : word ≠ []) :
    words word .outside text = (word, text) :: words [] .outside text := by
  cases text with
  | nil => rw [words, if_neg hword]; rfl
  | cons c text =>
    have hc : ¬ (Quotes.outside = .outside ∧ isWordChar c = true) := by
      simp [show isWordChar c = false from h c rfl]
    rw [words, if_neg hc, if_neg hword, words, if_neg hc]
    rfl

theorem substitute_of_endsHere (h : endsHere text) (hnil : bindings.lookup [] = none) :
    substitute bindings word .outside text =
      replaced bindings word ++ substitute bindings [] .outside text := by
  cases text with
  | nil => rw [substitute, substitute, replaced_of_unbound hnil, List.append_nil]
  | cons c text =>
    have hc : ¬ (Quotes.outside = .outside ∧ isWordChar c = true) := by
      simp [show isWordChar c = false from h c rfl]
    rw [substitute, if_neg hc, substitute, if_neg hc, replaced_of_unbound hnil]
    rfl

/-- What is behind a word is shorter than the text the word is in. -/
theorem words_length {w : List Char × List Char} (hw : w ∈ words word q text) :
    w.2.length ≤ text.length := by
  induction text generalizing word q with
  | nil =>
    rw [words] at hw
    split at hw
    · cases hw
    · rw [List.mem_singleton.mp hw]
  | cons c text ih =>
    rw [words] at hw
    split at hw
    · exact (ih hw).trans (Nat.le_succ _)
    · rcases List.mem_append.mp hw with hw | hw
      · split at hw
        · cases hw
        · rw [List.mem_singleton.mp hw]
      · exact (ih hw).trans (Nat.le_succ _)

theorem words_length_lt {w : List Char × List Char} (hw : w ∈ words [] q text) :
    w.2.length < text.length := by
  cases text with
  | nil => cases hw
  | cons c text =>
    rw [words] at hw
    split at hw
    · exact Nat.lt_succ_of_le (words_length hw)
    · exact Nat.lt_succ_of_le (words_length (by simpa using hw))

theorem endsHere_append {k : List Char} (hk : endsHere k) :
    endsHere (text ++ k) ↔ endsHere text := by
  cases text with
  | nil => exact ⟨fun _ => nofun, fun _ => hk⟩
  | cons c text => exact .rfl

/-- Whether no name is found at the end of a longer word. One could be if it is behind a
digit, which isolates what follows it. -/
def standsAlone (names : List Bstring) (word : List Char) : Bool :=
  names.all fun name => !name.isSuffixOf word ||
    (word.take (word.length - name.length)).getLast?.all fun c => !ppimplIsolates c true

theorem standsAlone_of_forall (names : List Bstring)
    (h : ∀ c ∈ word, ppimplIsolates c true = false) : standsAlone names word = true := by
  rw [standsAlone, List.all_eq_true]
  intro name _
  rw [Bool.or_eq_true, Option.all_eq_true]
  refine .inr fun c hc => ?_
  rw [h c (List.mem_of_mem_take (List.mem_of_getLast? hc))]
  rfl

/-- A text with strings that are closed and words that stand alone. -/
structure Regular (names : List Bstring) (text : List Char) : Prop where
  zero : '\x00' ∉ text
  one : '\x01' ∉ text
  closed : Quotes.outside.after text = .outside
  alone : ∀ w ∈ words [] .outside text, standsAlone names w.1

instance (names : List Bstring) (text : List Char) : Decidable (Regular names text) :=
  decidable_of_iff ('\x00' ∉ text ∧ '\x01' ∉ text ∧ Quotes.outside.after text = .outside ∧
      ∀ w ∈ words [] .outside text, standsAlone names w.1)
    ⟨fun ⟨hzero, hone, hclosed, halone⟩ => ⟨hzero, hone, hclosed, halone⟩,
      fun h => ⟨h.zero, h.one, h.closed, h.alone⟩⟩

/-! ### The first name -/

section FirstBound

variable {α : Type} {names : List (Bstring × α)} {mid name rest : List Char} {value : α} {c : Char}

/-- A character with which a word goes on. -/
theorem words_wordChar (hc : isWordChar c = true) :
    words word .outside (c :: text) = words (word ++ [c]) .outside text := by
  rw [words, if_pos ⟨rfl, hc⟩]

/-- A character with which no word goes on. -/
theorem words_otherChar (hc : ¬ (q = .outside ∧ isWordChar c = true)) :
    words word q (c :: text) =
      (if word = [] then [] else [(word, c :: text)]) ++ words [] (q.next c) text := by
  rw [words, if_neg hc]

theorem substituteWith_of_endsHere {f : List Char → List Char} (hf : f [] = [])
    (h : endsHere text) :
    substituteWith f word .outside text = f word ++ substituteWith f [] .outside text := by
  cases text with
  | nil => rw [substituteWith, substituteWith, hf, List.append_nil]
  | cons c text =>
    have hc : ¬ (Quotes.outside = .outside ∧ isWordChar c = true) := by
      simp [show isWordChar c = false from h c rfl]
    rw [substituteWith, if_neg hc, substituteWith, if_neg hc, hf]
    rfl

/-- A text whose words all stand for themselves. -/
theorem substituteWith_of_fixed {f : List Char → List Char} (hnil : f [] = [])
    (h : ∀ w ∈ words word q text, f w.1 = w.1) : substituteWith f word q text = word ++ text := by
  have hcomplete : ∀ {word rest : List Char} {l : List (List Char × List Char)},
      (∀ w ∈ (if word = [] then [] else [(word, rest)]) ++ l, f w.1 = w.1) → f word = word := by
    intro word rest l hl
    by_cases hword : word = []
    · exact hword ▸ hnil
    · exact hl (word, rest) (by simp [hword])
  induction text generalizing word q with
  | nil =>
    rw [words, ← List.append_nil (ite ..)] at h
    rw [substituteWith, hcomplete h, List.append_nil]
  | cons c text ih =>
    by_cases hc : q = .outside ∧ isWordChar c = true
    · obtain ⟨rfl, hchar⟩ := hc
      rw [words_wordChar hchar] at h
      rw [substituteWith, if_pos ⟨rfl, hchar⟩, ih h, List.append_assoc, List.singleton_append]
    · rw [words_otherChar hc] at h
      rw [substituteWith, if_neg hc, hcomplete h, ih fun w hw => h w (List.mem_append_right _ hw),
        List.nil_append]

theorem substitute_of_unbound (hnil : bindings.lookup [] = none)
    (h : ∀ w ∈ words word q text, bindings.lookup w.1 = none) :
    substitute bindings word q text = word ++ text := by
  rw [substitute_eq]
  exact substituteWith_of_fixed (replaced_of_unbound hnil) fun w hw =>
    replaced_of_unbound (h w hw)

/-- **A text up to the first of its words that is a name**: `mid` is what is before it, and
`rest` what is behind it. -/
inductive FirstBound (names : List (Bstring × α)) :
    (word : List Char) → Quotes → (text mid : List Char) → Bstring → α → (rest : List Char) → Prop
  /-- The word that is read is a name, and it ends. -/
  | here {word text : List Char} {c : Char} {value : α} (hc : isWordChar c = true)
      (hends : endsHere text) (hbound : names.lookup (word ++ [c]) = some value) :
      FirstBound names word .outside (c :: text) [] (word ++ [c]) value text
  /-- A word goes on. -/
  | wordChar {word text mid name rest : List Char} {c : Char} {value : α}
      (hc : isWordChar c = true)
      (h : FirstBound names (word ++ [c]) .outside text mid name value rest) :
      FirstBound names word .outside (c :: text) mid name value rest
  /-- A word ends that is not a name. -/
  | otherChar {word text mid name rest : List Char} {q : Quotes} {c : Char} {value : α}
      (hc : ¬ (q = .outside ∧ isWordChar c = true)) (hword : names.lookup word = none)
      (h : FirstBound names [] (q.next c) text mid name value rest) :
      FirstBound names word q (c :: text) (word ++ c :: mid) name value rest

namespace FirstBound

theorem bound (h : FirstBound names word q text mid name value rest) :
    names.lookup name = some value := by
  induction h with
  | here _ _ hbound => exact hbound
  | wordChar _ _ ih => exact ih
  | otherChar _ _ _ ih => exact ih

theorem ends (h : FirstBound names word q text mid name value rest) : endsHere rest := by
  induction h with
  | here _ hends => exact hends
  | wordChar _ _ ih => exact ih
  | otherChar _ _ _ ih => exact ih

theorem words (h : FirstBound names word q text mid name value rest) :
    ∃ before, words word q text = before ++ (name, rest) :: DcpuToolchain.words [] .outside rest ∧
      ∀ w ∈ before, names.lookup w.1 = none := by
  induction h with
  | here hc hends =>
    refine ⟨[], ?_, nofun⟩
    rw [words_wordChar hc, words_of_endsHere hends (by simp), List.nil_append]
  | wordChar hc _ ih => rwa [words_wordChar hc]
  | @otherChar word text mid name rest q c value hc hword _ ih =>
    obtain ⟨before, hwords, hbefore⟩ := ih
    refine ⟨(if word = [] then [] else [(word, c :: text)]) ++ before, ?_, fun w hw => ?_⟩
    · rw [words_otherChar hc, hwords, List.append_assoc]
    · rcases List.mem_append.mp hw with hw | hw
      · split at hw
        · cases hw
        · rwa [List.mem_singleton.mp hw]
      · exact hbefore w hw

theorem mem (h : FirstBound names word q text mid name value rest) :
    (name, rest) ∈ DcpuToolchain.words word q text := by
  obtain ⟨before, hwords, -⟩ := h.words
  rw [hwords]
  exact List.mem_append_right _ List.mem_cons_self

theorem after (h : FirstBound names word q text mid name value rest) :
    q.after text = Quotes.outside.after rest := by
  induction h with
  | here hc => rw [Quotes.after_cons, Quotes.next_outside hc]
  | wordChar hc _ ih => rw [Quotes.after_cons, Quotes.next_outside hc, ih]
  | otherChar _ _ _ ih => rw [Quotes.after_cons, ih]

theorem length (h : FirstBound names word q text mid name value rest) :
    rest.length < text.length := by
  induction h with
  | here => exact Nat.lt_succ_self _
  | wordChar _ _ ih => exact ih.trans (Nat.lt_succ_self _)
  | otherChar _ _ _ ih => exact ih.trans (Nat.lt_succ_self _)

theorem subset (h : FirstBound names word q text mid name value rest) : ∀ c ∈ rest, c ∈ text := by
  induction h with
  | here => exact fun c => List.mem_cons_of_mem _
  | wordChar _ _ ih => exact fun c hc => List.mem_cons_of_mem _ (ih c hc)
  | otherChar _ _ _ ih => exact fun c hc => List.mem_cons_of_mem _ (ih c hc)

/-- What is before the first name is left alone. -/
theorem substituteWith {f : List Char → List Char} (hnil : f [] = [])
    (hf : ∀ w, names.lookup w = none → f w = w)
    (h : FirstBound names word q text mid name value rest) :
    substituteWith f word q text =
      mid ++ f name ++ DcpuToolchain.substituteWith f [] .outside rest := by
  induction h with
  | here hc hends =>
    rw [DcpuToolchain.substituteWith, if_pos ⟨rfl, hc⟩, substituteWith_of_endsHere hnil hends,
      List.nil_append]
  | wordChar hc _ ih => rw [DcpuToolchain.substituteWith, if_pos ⟨rfl, hc⟩, ih]
  | otherChar hc hword _ ih =>
    rw [DcpuToolchain.substituteWith, if_neg hc, ih, hf _ hword]
    simp

theorem substitute {argument : Bstring} (hnil : bindings.lookup [] = none)
    (h : FirstBound bindings word q text mid name argument rest) :
    substitute bindings word q text =
      mid ++ argument ++ DcpuToolchain.substitute bindings [] .outside rest := by
  rw [substitute_eq, substitute_eq,
    h.substituteWith (replaced_of_unbound hnil) fun _ => replaced_of_unbound,
    replaced_of_bound h.bound]

end FirstBound

end FirstBound

/-! ### Parts of a text -/

section Parts

variable {α : Type} {names names' : List (Bstring × α)} {mid name rest more : List Char} {value : α}
  {f g : List Char → List Char}

/-- Only what the words of a text stand for matters. -/
theorem substituteWith_congr (hnil : f [] = g []) (h : ∀ w ∈ words word q text, f w.1 = g w.1) :
    substituteWith f word q text = substituteWith g word q text := by
  have hcomplete : ∀ {word rest : List Char} {l : List (List Char × List Char)},
      (∀ w ∈ (if word = [] then [] else [(word, rest)]) ++ l, f w.1 = g w.1) →
        f word = g word := by
    intro word rest l hl
    by_cases hword : word = []
    · exact hword ▸ hnil
    · exact hl (word, rest) (by simp [hword])
  induction text generalizing word q with
  | nil =>
    rw [words, ← List.append_nil (ite ..)] at h
    exact hcomplete h
  | cons c text ih =>
    by_cases hc : q = .outside ∧ isWordChar c = true
    · obtain ⟨rfl, hchar⟩ := hc
      rw [words_wordChar hchar] at h
      rw [substituteWith, substituteWith, if_pos ⟨rfl, hchar⟩, if_pos ⟨rfl, hchar⟩, ih h]
    · rw [words_otherChar hc] at h
      rw [substituteWith, substituteWith, if_neg hc, if_neg hc, hcomplete h,
        ih fun w hw => h w (List.mem_append_right _ hw)]

/-- A text that is closed and the one behind it. -/
theorem substituteWith_append (hnil : f [] = []) (hclosed : q.after text = .outside)
    (hrest : endsHere rest) :
    substituteWith f word q (text ++ rest) =
      substituteWith f word q text ++ substituteWith f [] .outside rest := by
  induction text generalizing word q with
  | nil =>
    obtain rfl : q = .outside := hclosed
    exact substituteWith_of_endsHere hnil hrest
  | cons c text ih =>
    rw [Quotes.after_cons] at hclosed
    rw [List.cons_append, substituteWith, substituteWith]
    split
    · rename_i hc
      obtain ⟨rfl, hchar⟩ := hc
      rw [Quotes.next_outside hchar] at hclosed
      exact ih hclosed
    · rw [ih hclosed, List.append_assoc, List.cons_append]

theorem endsHere_substituteWith (hnil : f [] = []) (h : endsHere text) :
    endsHere (substituteWith f [] .outside text) := by
  cases text with
  | nil =>
    rw [substituteWith, hnil]
    exact nofun
  | cons c text =>
    have hc : isWordChar c = false := h c rfl
    rw [substituteWith, if_neg (by simp [hc]), hnil, List.nil_append]
    rintro d hd
    rw [← Option.some.inj hd, hc]

/-- A single word. -/
theorem substituteWith_word (hname : ∀ c ∈ name, isWordChar c = true) :
    substituteWith f word .outside name = f (word ++ name) := by
  induction name generalizing word with
  | nil => rw [substituteWith, List.append_nil]
  | cons c name ih =>
    rw [List.forall_mem_cons] at hname
    rw [substituteWith, if_pos ⟨rfl, hname.1⟩, ih hname.2, List.append_assoc,
      List.singleton_append]

/-- **What stands before a word**: all words in it end, and none of them is a name. -/
inductive Lead (names : List (Bstring × α)) : (word : List Char) → Quotes → List Char → Prop
  | nil : Lead names [] .outside []
  | wordChar {word mid : List Char} {c : Char} (hc : isWordChar c = true)
      (h : Lead names (word ++ [c]) .outside mid) : Lead names word .outside (c :: mid)
  | otherChar {word mid : List Char} {q : Quotes} {c : Char}
      (hc : ¬ (q = .outside ∧ isWordChar c = true)) (hword : names.lookup word = none)
      (h : Lead names [] (q.next c) mid) : Lead names word q (c :: mid)

theorem Lead.mono (hnames : ∀ w, names.lookup w = none → names'.lookup w = none)
    (h : Lead names word q mid) : Lead names' word q mid := by
  induction h with
  | nil => exact .nil
  | wordChar hc _ ih => exact .wordChar hc ih
  | otherChar hc hword _ ih => exact .otherChar hc (hnames _ hword) ih

theorem Lead.words_unbound (h : Lead names word q mid)
    (hmore : ∀ w ∈ words [] .outside more, names.lookup w.1 = none) :
    ∀ w ∈ words word q (mid ++ more), names.lookup w.1 = none := by
  induction h with
  | nil => exact hmore
  | wordChar hc _ ih =>
    rw [List.cons_append, words_wordChar hc]
    exact ih
  | otherChar hc hword _ ih =>
    rw [List.cons_append, words_otherChar hc]
    intro w hw
    rcases List.mem_append.mp hw with hw | hw
    · split at hw
      · cases hw
      · rwa [List.mem_singleton.mp hw]
    · exact ih w hw

theorem Lead.firstBound (h : Lead names word q mid)
    (hmore : FirstBound names [] .outside more text name value rest) :
    FirstBound names word q (mid ++ more) (word ++ mid ++ text) name value rest := by
  induction h with
  | nil => exact hmore
  | @wordChar word mid c hc _ ih =>
    have hfirst := ih.wordChar hc
    rwa [List.append_assoc word, List.singleton_append] at hfirst
  | @otherChar word mid q c hc hword _ ih =>
    have hfirst := ih.otherChar hc hword
    have hmid : word ++ c :: ([] ++ mid ++ text) = word ++ c :: mid ++ text := by simp
    rwa [hmid] at hfirst

namespace FirstBound

/-- A name at the beginning of a text. -/
theorem begins (word : List Char) (hname : name ≠ []) (hchars : ∀ c ∈ name, isWordChar c = true)
    (hrest : endsHere rest) (hbound : names.lookup (word ++ name) = some value) :
    FirstBound names word .outside (name ++ rest) [] (word ++ name) value rest := by
  induction name generalizing word with
  | nil => exact absurd rfl hname
  | cons c name ih =>
    rw [List.forall_mem_cons] at hchars
    rcases eq_or_ne name [] with rfl | hne
    · exact .here hchars.1 hrest hbound
    · rw [← List.singleton_append, ← List.append_assoc] at hbound ⊢
      rw [List.append_assoc [c], List.singleton_append]
      exact .wordChar hchars.1 (ih _ hne hchars.2 hbound)

/-- **The parts of a text up to its first name.** -/
theorem parts (h : FirstBound names word q text mid name value rest) :
    (q = .outside ∧ mid = [] ∧ ∃ more, name = word ++ more ∧ more ≠ [] ∧
        (∀ c ∈ more, isWordChar c = true) ∧ text = more ++ rest) ∨
      ∃ more, mid = word ++ more ∧ text = more ++ name ++ rest ∧ Lead names word q more ∧
        name ≠ [] ∧ ∀ c ∈ name, isWordChar c = true := by
  induction h with
  | @here word text c value hc =>
    exact .inl ⟨rfl, rfl, [c], rfl, List.cons_ne_nil _ _, by simpa using hc, rfl⟩
  | @wordChar word text mid name rest c value hc _ ih =>
    rcases ih with ⟨-, rfl, more, rfl, -, hmore, rfl⟩ | ⟨more, rfl, rfl, hlead, hname⟩
    · exact .inl ⟨rfl, rfl, c :: more, by simp, List.cons_ne_nil _ _,
        List.forall_mem_cons.mpr ⟨hc, hmore⟩, rfl⟩
    · exact .inr ⟨c :: more, by simp, rfl, .wordChar hc hlead, hname⟩
  | @otherChar word text mid name rest q c value hc hword _ ih =>
    rcases ih with ⟨hq, rfl, more, hname, hne, hmore, rfl⟩ | ⟨more, hmid, rfl, hlead, hname⟩
    · obtain rfl : name = more := hname
      exact .inr ⟨[c], rfl, rfl, .otherChar hc hword (hq.symm ▸ .nil), hne, hmore⟩
    · obtain rfl : mid = more := hmid
      exact .inr ⟨c :: mid, rfl, rfl, .otherChar hc hword hlead, hname⟩

/-- The parts of a text that is read from the beginning of a word. -/
theorem parts_nil (h : FirstBound names [] .outside text mid name value rest) :
    text = mid ++ name ++ rest ∧ Lead names [] .outside mid ∧ name ≠ [] ∧
      ∀ c ∈ name, isWordChar c = true := by
  rcases h.parts with ⟨-, rfl, more, rfl, hne, hmore, rfl⟩ | ⟨more, rfl, htext, hlead, hname⟩
  · exact ⟨rfl, .nil, hne, hmore⟩
  · exact ⟨htext, hlead, hname⟩

/-- With other names and another text behind it. -/
theorem behind {value' : α} {rest' : List Char}
    (h : FirstBound names [] .outside text mid name value rest)
    (hnames : ∀ w, names.lookup w = none → names'.lookup w = none)
    (hbound : names'.lookup name = some value') (hrest : endsHere rest') :
    FirstBound names' [] .outside (mid ++ (name ++ rest')) mid name value' rest' := by
  obtain ⟨-, hlead, hne, hname⟩ := h.parts_nil
  have hbegins : FirstBound names' [] .outside (name ++ rest') [] name value' rest' :=
    .begins [] hne hname hrest hbound
  simpa using (hlead.mono hnames).firstBound hbegins

/-- A word that ends and is no name is in front of the text. -/
theorem without_word (h : FirstBound names word .outside text mid name value rest)
    (hends : word = [] ∨ endsHere text) (hnil : names.lookup [] = none) :
    ∃ mid', mid = word ++ mid' ∧ FirstBound names [] .outside text mid' name value rest := by
  by_cases hword : word = []
  · subst hword
    exact ⟨mid, rfl, h⟩
  · have hends := hends.resolve_left hword
    cases h with
    | here hc => rw [hends _ rfl] at hc; cases hc
    | wordChar hc => rw [hends _ rfl] at hc; cases hc
    | otherChar hc _ h => exact ⟨_, rfl, .otherChar hc hnil h⟩

/-- There is one first name at most. -/
theorem unique {mid' name' rest' : List Char} {value' : α}
    (h : FirstBound names word q text mid name value rest)
    (h' : FirstBound names word q text mid' name' value' rest') :
    mid = mid' ∧ name = name' ∧ value = value' ∧ rest = rest' := by
  have hends : ∀ {word text mid name rest : List Char} {value₀ value : α} {c : Char},
      names.lookup (word ++ [c]) = some value₀ → endsHere text →
        ¬ FirstBound names (word ++ [c]) .outside text mid name value rest := by
    intro word text mid name rest value₀ value c hbound hends h
    cases h with
    | here hc => rw [hends _ rfl] at hc; cases hc
    | wordChar hc => rw [hends _ rfl] at hc; cases hc
    | otherChar _ hword => rw [hbound] at hword; cases hword
  induction h generalizing mid' name' rest' value' with
  | here hc hends' hbound =>
    cases h' with
    | here _ _ hbound' => exact ⟨rfl, rfl, Option.some.inj (hbound.symm.trans hbound'), rfl⟩
    | wordChar _ h => exact absurd h (hends hbound hends')
    | otherChar hc' => exact absurd ⟨rfl, hc⟩ hc'
  | wordChar hc h ih =>
    cases h' with
    | here _ hends' hbound => exact absurd h (hends hbound hends')
    | wordChar _ h' => exact ih h'
    | otherChar hc' => exact absurd ⟨rfl, hc⟩ hc'
  | otherChar hc _ _ ih =>
    cases h' with
    | here hc' => exact absurd ⟨rfl, hc'⟩ hc
    | wordChar hc' => exact absurd ⟨rfl, hc'⟩ hc
    | otherChar _ _ h' =>
      obtain ⟨rfl, hrest⟩ := ih h'
      exact ⟨rfl, hrest⟩

end FirstBound

/-- The first name of a text. -/
def findBound {α : Type} (names : List (Bstring × α)) : (word : List Char) → Quotes → List Char →
    Option (List Char × Bstring × α × List Char)
  | _, _, [] => none
  | word, q, c :: text =>
    if q = .outside ∧ isWordChar c then
      match names.lookup (word ++ [c]) with
      | some value =>
        if endsHere text then some ([], word ++ [c], value, text)
        else findBound names (word ++ [c]) .outside text
      | none => findBound names (word ++ [c]) .outside text
    else if (names.lookup word).isSome then none
    else (findBound names [] (q.next c) text).map fun r => (word ++ c :: r.1, r.2)

theorem firstBound_of_findBound {α : Type} {names : List (Bstring × α)}
    {word text mid name rest : List Char} {q : Quotes} {value : α}
    (h : findBound names word q text = some (mid, name, value, rest)) :
    FirstBound names word q text mid name value rest := by
  induction text generalizing word q mid with
  | nil => cases h
  | cons c text ih =>
    rw [findBound] at h
    split at h
    · rename_i hc
      obtain ⟨rfl, hchar⟩ := hc
      split at h
      · rename_i value' hlookup
        split at h
        · rename_i hends
          obtain ⟨rfl, rfl, rfl, rfl⟩ := by simpa using h
          exact .here hchar hends hlookup
        · exact .wordChar hchar (ih h)
      · exact .wordChar hchar (ih h)
    · rename_i hc
      split at h
      · cases h
      · rename_i hlookup
        obtain ⟨⟨mid', name', value', rest'⟩, hfirst, heq⟩ := Option.map_eq_some_iff.mp h
        obtain ⟨rfl, rfl, rfl, rfl⟩ := by simpa using heq
        exact .otherChar hc (Option.not_isSome_iff_eq_none.mp hlookup) (ih hfirst)

end Parts

/-! ### Line marks -/

/-- **Texts that differ in line marks only**: before a newline the preprocessor may put a
correction of the line number. -/
inductive Marked (filename : Bstring) : List Char → List Char → Prop
  | nil : Marked filename [] []
  | char (c : Char) {text output : List Char} (h : Marked filename text output) :
      Marked filename (c :: text) (c :: output)
  | newline (line : UInt32) {text output : List Char} (h : Marked filename text output) :
      Marked filename ('\n' :: text) (lineCorrection line filename ++ '\n' :: output)

namespace Marked

variable {filename : Bstring} {output text' output' : List Char}

theorem refl (filename : Bstring) (text : List Char) : Marked filename text text := by
  induction text with
  | nil => exact .nil
  | cons c text ih => exact .char c ih

theorem append (h : Marked filename text output) (h' : Marked filename text' output') :
    Marked filename (text ++ text') (output ++ output') := by
  induction h with
  | nil => exact h'
  | char c _ ih => exact .char c ih
  | newline line _ ih =>
    rw [List.append_assoc]
    exact .newline line ih

/-- What has no newlines is not marked. -/
theorem of_append (hword : ∀ c ∈ word, c ≠ '\n') (h : Marked filename (word ++ text) output) :
    ∃ output', output = word ++ output' ∧ Marked filename text output' := by
  induction word generalizing output with
  | nil => exact ⟨output, rfl, h⟩
  | cons c word ih =>
    rw [List.forall_mem_cons] at hword
    cases h with
    | char _ h =>
      obtain ⟨output', rfl, h'⟩ := ih hword.2 h
      exact ⟨output', rfl, h'⟩
    | newline line h => exact absurd rfl hword.1

/-- A word is not marked. -/
theorem of_word (hword : ∀ c ∈ word, isWordChar c = true)
    (h : Marked filename (word ++ text) output) :
    ∃ output', output = word ++ output' ∧ Marked filename text output' := by
  refine h.of_append fun c hc hnewline => ?_
  have hchar := hword c hc
  rw [hnewline] at hchar
  exact absurd hchar (by decide)

end Marked

end DcpuToolchain
