import DcpuToolchain.Pp.Calls

/-!
# Calls within calls

What a call of a macro should come to is the body with the arguments in place of the parameters,
in which the names that are in force are expanded in turn (`DcpuToolchain.Expands`): a definition
is replaced, and a call comes to what its body comes to.

The preprocessor reads the body itself instead, with the parameters for names
(`DcpuToolchain.ReadsAs`), and a call in it is read with the parameters of both calls. So a
parameter is looked up where it is read and not where it was written. What is read comes to what
it should (`DcpuToolchain.ReadsAs.expands`) as long as no text that is put in place of a name
contains a parameter by which it could be meant: an argument no parameter of its own call or of
one within it (`DcpuToolchain.KeepsMeaning`), a definition and the body of a macro none at all.
-/

namespace DcpuToolchain

/-! ### Arguments -/

/-- Whether brackets are balanced behind as many that are open, and commas are within brackets. -/
def isProtected : ℕ → List Char → Bool
  | depth, [] => depth = 0
  | depth, c :: text =>
    if c = '(' then isProtected (depth + 1) text
    else if c = ')' then depth ≠ 0 && isProtected (depth - 1) text
    else if c = ',' ∧ depth = 0 then false
    else isProtected depth text

/-- Arguments with commas between them. -/
def joinArguments : List Bstring → List Char
  | [] => []
  | [argument] => argument
  | argument :: arguments => argument ++ ',' :: joinArguments arguments

section Arguments

variable {depth : ℕ} {temp argument text rest word : List Char} {c : Char} {q : Quotes}
  {arguments arguments' : List Bstring} {f : List Char → List Char}

theorem joinArguments_cons (c : Char) (argument : Bstring) (arguments : List Bstring) :
    joinArguments ((c :: argument) :: arguments) = c :: joinArguments (argument :: arguments) := by
  cases arguments <;> rfl

theorem isProtected_append (k : ℕ) (rest : List Char) (h : isProtected depth text = true) :
    isProtected (k + depth) (text ++ rest) = isProtected k rest := by
  fun_induction isProtected depth text with
  | case1 depth =>
    obtain rfl : depth = 0 := of_decide_eq_true h
    rfl
  | case2 depth text ih =>
    rw [List.cons_append, isProtected, if_pos rfl]
    exact ih h
  | case3 depth text hopen ih =>
    rw [Bool.and_eq_true, decide_eq_true_iff] at h
    have hdepth : k + depth - 1 = k + (depth - 1) := by omega
    have hne : k + depth ≠ 0 := by omega
    rw [List.cons_append, isProtected, if_neg hopen, if_pos rfl, decide_eq_true hne,
      Bool.true_and, hdepth]
    exact ih h.2
  | case4 => cases h
  | case5 depth c text hopen hclose hcomma ih =>
    rw [List.cons_append, isProtected, if_neg hopen, if_neg hclose]
    split
    · rename_i hand
      obtain ⟨rfl, hzero⟩ := hand
      exact absurd ⟨rfl, by omega⟩ hcomma
    · exact ih h

theorem isProtected_of_word (h : ∀ c ∈ text, isWordChar c = true) :
    isProtected depth text = decide (depth = 0) := by
  induction text with
  | nil => rfl
  | cons c text ih =>
    rw [List.forall_mem_cons] at h
    have hne : ∀ d : Char, isWordChar d = false → c ≠ d := by
      rintro d hd rfl
      rw [h.1] at hd
      cases hd
    rw [isProtected, if_neg (hne _ (by decide)), if_neg (hne _ (by decide)),
      if_neg fun hand => hne ',' (by decide) hand.1, ih h.2]

/-- What stands for the words of a text may be protected itself. -/
theorem isProtected_substituteWith
    (hf : ∀ w, (∀ c ∈ w, isWordChar c = true) → isProtected 0 (f w) = true)
    (hword : ∀ c ∈ word, isWordChar c = true) (h : isProtected depth text = true) :
    isProtected depth (substituteWith f word q text) = true := by
  induction text generalizing depth word q with
  | nil =>
    obtain rfl : depth = 0 := of_decide_eq_true h
    exact hf word hword
  | cons c text ih =>
    rw [substituteWith]
    split
    · rename_i hc
      refine ih (by simpa [or_imp, forall_and] using ⟨hword, hc.2⟩) ?_
      have hne : ∀ d : Char, isWordChar d = false → c ≠ d := by
        rintro d hd rfl
        rw [hc.2] at hd
        cases hd
      rwa [isProtected, if_neg (hne _ (by decide)), if_neg (hne _ (by decide)),
        if_neg fun hand => hne ',' (by decide) hand.1] at h
    · have happend := isProtected_append depth (c :: substituteWith f [] (q.next c) text)
        (hf word hword)
      rw [Nat.add_zero] at happend
      rw [happend]
      have hnil : ∀ d ∈ ([] : List Char), isWordChar d = true := fun _ hd =>
        absurd hd List.not_mem_nil
      rw [isProtected] at h ⊢
      by_cases hopen : c = '('
      · rw [if_pos hopen] at h ⊢
        exact ih hnil h
      · rw [if_neg hopen] at h ⊢
        by_cases hclose : c = ')'
        · rw [if_pos hclose, Bool.and_eq_true] at h ⊢
          exact ⟨h.1, ih hnil h.2⟩
        · rw [if_neg hclose] at h ⊢
          by_cases hcomma : c = ',' ∧ depth = 0
          · rw [if_pos hcomma] at h
            cases h
          · rw [if_neg hcomma] at h ⊢
            exact ih hnil h

/-- **The arguments that are read**: they stand between commas, each protected. -/
theorem readArguments_spec (h : readArguments depth temp arguments text = some (arguments', rest)) :
    ∃ first others, arguments' = arguments ++ (temp ++ first) :: others ∧
      text = joinArguments (first :: others) ++ ')' :: rest ∧ isProtected depth first = true ∧
        ∀ a ∈ others, isProtected 0 a = true := by
  fun_induction readArguments depth temp arguments text with
  | case1 => cases h
  | case2 depth temp arguments text ih =>
    obtain ⟨first, others, rfl, rfl, hfirst, hothers⟩ := ih h
    refine ⟨'(' :: first, others, by simp, by rw [joinArguments_cons]; rfl, ?_, hothers⟩
    rwa [isProtected, if_pos rfl]
  | case3 depth temp arguments c text hopen hclose ih =>
    obtain ⟨rfl, hne⟩ := hclose
    obtain ⟨first, others, rfl, rfl, hfirst, hothers⟩ := ih h
    refine ⟨')' :: first, others, by simp, by rw [joinArguments_cons]; rfl, ?_, hothers⟩
    rw [isProtected, if_neg hopen, if_pos rfl, hfirst, decide_eq_true hne]
    rfl
  | case4 depth temp arguments text hopen hclose =>
    obtain ⟨rfl, rfl⟩ := Prod.mk.inj (Option.some.inj h)
    obtain rfl : depth = 0 := by
      by_contra hne
      exact hclose ⟨rfl, hne⟩
    exact ⟨[], [], by simp, rfl, rfl, fun _ ha => absurd ha List.not_mem_nil⟩
  | case5 depth temp arguments c text hopen hclose hclose' hcomma ih =>
    obtain ⟨rfl, rfl⟩ := hcomma
    obtain ⟨first, others, rfl, rfl, hfirst, hothers⟩ := ih h
    exact ⟨[], first :: others, by simp, rfl, rfl, List.forall_mem_cons.mpr ⟨hfirst, hothers⟩⟩
  | case6 depth temp arguments c text hopen hclose hclose' hcomma ih =>
    obtain ⟨first, others, rfl, rfl, hfirst, hothers⟩ := ih h
    refine ⟨c :: first, others, by simp, by rw [joinArguments_cons]; rfl, ?_, hothers⟩
    rwa [isProtected, if_neg hopen, if_neg hclose', if_neg hcomma]

theorem readArguments_append (more : List Char)
    (h : readArguments depth temp arguments text = some (arguments', rest)) :
    readArguments depth temp arguments (text ++ more) = some (arguments', rest ++ more) := by
  fun_induction readArguments depth temp arguments text with
  | case1 => cases h
  | case2 depth temp arguments text ih =>
    rw [List.cons_append, readArguments, if_pos rfl]
    exact ih h
  | case3 depth temp arguments c text hopen hclose ih =>
    rw [List.cons_append, readArguments, if_neg hopen, if_pos hclose]
    exact ih h
  | case4 depth temp arguments text hopen hclose =>
    obtain ⟨rfl, rfl⟩ := Prod.mk.inj (Option.some.inj h)
    rw [List.cons_append, readArguments, if_neg hopen, if_neg hclose, if_pos rfl]
  | case5 depth temp arguments c text hopen hclose hclose' hcomma ih =>
    rw [List.cons_append, readArguments, if_neg hopen, if_neg hclose, if_neg hclose', if_pos hcomma]
    exact ih h
  | case6 depth temp arguments c text hopen hclose hclose' hcomma ih =>
    rw [List.cons_append, readArguments, if_neg hopen, if_neg hclose, if_neg hclose', if_neg hcomma]
    exact ih h

/-- A protected text is read as part of an argument. -/
theorem readArguments_protected (h : isProtected depth argument = true) :
    readArguments depth temp arguments (argument ++ text) =
      readArguments 0 (temp ++ argument) arguments text := by
  fun_induction isProtected depth argument generalizing temp with
  | case1 depth =>
    obtain rfl : depth = 0 := of_decide_eq_true h
    rw [List.nil_append, List.append_nil]
  | case2 depth argument ih =>
    rw [List.cons_append, readArguments, if_pos rfl, ih h]
    simp
  | case3 depth argument hopen ih =>
    rw [Bool.and_eq_true, decide_eq_true_iff] at h
    rw [List.cons_append, readArguments, if_neg hopen, if_pos ⟨rfl, h.1⟩, ih h.2]
    simp
  | case4 => cases h
  | case5 depth c argument hopen hclose hcomma ih =>
    rw [List.cons_append, readArguments, if_neg hopen, if_neg fun hand => hclose hand.1,
      if_neg hclose, if_neg hcomma, ih h]
    simp

/-- Protected arguments are read as they were joined. -/
theorem readArguments_joinArguments {first : Bstring} {others : List Bstring}
    (hfirst : isProtected 0 first = true) (hothers : ∀ a ∈ others, isProtected 0 a = true) :
    readArguments 0 [] arguments (joinArguments (first :: others) ++ ')' :: rest) =
      some (arguments ++ first :: others, rest) := by
  induction others generalizing first arguments with
  | nil =>
    rw [joinArguments, readArguments_protected hfirst, readArguments, if_neg (by decide),
      if_neg (by simp), if_pos rfl, List.nil_append]
  | cons second others ih =>
    rw [List.forall_mem_cons] at hothers
    rw [joinArguments, List.append_assoc, List.cons_append, readArguments_protected hfirst,
      readArguments, if_neg (by decide), if_neg (by simp), if_neg (by decide), if_pos ⟨rfl, rfl⟩,
      List.nil_append, ih hothers.1 hothers.2, List.append_assoc, List.singleton_append]
    exact List.cons_ne_nil _ _

theorem substituteWith_joinArguments (hnil : f [] = []) (hrest : endsHere rest)
    (hclosed : ∀ a ∈ arguments, Quotes.outside.after a = .outside) :
    substituteWith f [] .outside (joinArguments arguments ++ rest) =
      joinArguments (arguments.map (substituteWith f [] .outside)) ++
        substituteWith f [] .outside rest := by
  induction arguments with
  | nil => rfl
  | cons first others ih =>
    rw [List.forall_mem_cons] at hclosed
    cases others with
    | nil => exact substituteWith_append hnil hclosed.1 hrest
    | cons second others =>
      have hcomma : ∀ text, endsHere (',' :: text) := by
        rintro text c hc
        rw [← Option.some.inj hc]
        decide
      have houtside : Quotes.outside.next ',' = .outside := by decide
      have hcons : ∀ (a b : Bstring) (l : List Bstring) (text : List Char),
          joinArguments (a :: b :: l) ++ text = a ++ ',' :: (joinArguments (b :: l) ++ text) := by
        intro a b l text
        change a ++ ',' :: joinArguments (b :: l) ++ text = _
        rw [List.append_assoc, List.cons_append]
      rw [hcons, substituteWith_append hnil hclosed.1 (hcomma _), substituteWith,
        if_neg (by decide), hnil, List.nil_append, houtside, ih hclosed.2, List.map_cons,
        List.map_cons, List.map_cons, hcons]

/-- **The arguments of a text in which words were replaced** are those of the text, with their
words replaced. -/
theorem readArguments_substituteWith (hnil : f [] = [])
    (hf : ∀ w, (∀ c ∈ w, isWordChar c = true) → isProtected 0 (f w) = true)
    (hclosed : ∀ a ∈ arguments, Quotes.outside.after a = .outside)
    (h : readArguments 0 [] [] text = some (arguments, rest)) :
    readArguments 0 [] [] (substituteWith f [] .outside text) =
      some (arguments.map (substituteWith f [] .outside), substituteWith f [] .outside rest) := by
  obtain ⟨first, others, hsplit, rfl, hfirst, hothers⟩ := readArguments_spec h
  obtain rfl : arguments = first :: others := hsplit
  have hbracket : endsHere (')' :: rest) := by
    rintro c hc
    rw [← Option.some.inj hc]
    decide
  have houtside : Quotes.outside.next ')' = .outside := by decide
  have hprotected : ∀ a, isProtected 0 a = true →
      isProtected 0 (substituteWith f [] .outside a) = true := fun a =>
    isProtected_substituteWith hf fun _ hc => absurd hc List.not_mem_nil
  rw [substituteWith_joinArguments hnil hbracket hclosed, substituteWith, if_neg (by decide), hnil,
    List.nil_append, houtside, List.map_cons, readArguments_joinArguments (hprotected _ hfirst),
    List.nil_append]
  intro a ha
  obtain ⟨b, hb, rfl⟩ := List.mem_map.mp ha
  exact hprotected b (hothers b hb)

end Arguments

/-! ### What a call should come to -/

/-- **What a text comes to**: names are replaced, and what replaces them is read again; a call
comes to what its body comes to, in which the arguments are put in place of the parameters all at
once. -/
inductive Expands (names : List (Bstring × Handler)) : List Char → List Char → Prop
  | done {text : List Char} (h : ∀ w ∈ words [] .outside text, names.lookup w.1 = none) :
    Expands names text text
  | replace {text mid name replacement rest out : List Char}
      (hfirst : FirstBound names [] .outside text mid name (.replaceHandle replacement) rest)
      (h : Expands names (replacement ++ rest) out) : Expands names text (mid ++ out)
  | call {text mid name full body call rest inner out : List Char} {arguments : List Bstring}
      (hfirst : FirstBound names [] .outside text mid name (.macroHandle full body) ('(' :: call))
      (harguments : readArguments 0 [] [] call = some (arguments, rest))
      (hlength : arguments.length = (macroParameters full).length)
      (hbody : Expands names (substitute (callBindings full arguments) [] .outside body) inner)
      (hrest : Expands names rest out) : Expands names text (mid ++ (inner ++ out))

/-- A text in front that has no names. -/
theorem Expands.behind {names : List (Bstring × Handler)} {mid text out : List Char}
    (hlead : Lead names [] .outside mid) (h : Expands names text out) :
    Expands names (mid ++ text) (mid ++ out) := by
  cases h with
  | done h => exact .done (hlead.words_unbound h)
  | replace hfirst h =>
    rw [← List.append_assoc]
    exact .replace (hlead.firstBound hfirst) h
  | call hfirst harguments hlength hbody hrest =>
    rw [← List.append_assoc]
    exact .call (hlead.firstBound hfirst) harguments hlength hbody hrest

/-- **A text comes to one text at most.** -/
theorem Expands.unique {names : List (Bstring × Handler)} {text out out' : List Char}
    (h : Expands names text out) (h' : Expands names text out') : out = out' := by
  have hnot : ∀ {text mid name rest : List Char} {handler : Handler},
      (∀ w ∈ words [] .outside text, names.lookup w.1 = none) →
        ¬ FirstBound names [] .outside text mid name handler rest := by
    intro text mid name rest handler hall hfirst
    have hbound := hfirst.bound
    rw [hall _ hfirst.mem] at hbound
    cases hbound
  induction h generalizing out' with
  | done hall =>
    cases h' with
    | done => rfl
    | replace hfirst | call hfirst => exact absurd hfirst (hnot hall)
  | replace hfirst _ ih =>
    cases h' with
    | done hall => exact absurd hfirst (hnot hall)
    | replace hfirst' h' =>
      obtain ⟨rfl, rfl, hvalue, rfl⟩ := hfirst.unique hfirst'
      obtain rfl := Handler.replaceHandle.inj hvalue
      rw [ih h']
    | call hfirst' => cases (hfirst.unique hfirst').2.2.1
  | call hfirst harguments _ _ _ ihbody ihrest =>
    cases h' with
    | done hall => exact absurd hfirst (hnot hall)
    | replace hfirst' => cases (hfirst.unique hfirst').2.2.1
    | call hfirst' harguments' _ hbody' hrest' =>
      obtain ⟨rfl, rfl, hvalue, hcall⟩ := hfirst.unique hfirst'
      obtain ⟨rfl, rfl⟩ := Handler.macroHandle.inj hvalue
      obtain rfl := (List.cons.inj hcall).2
      obtain ⟨rfl, rfl⟩ := Prod.mk.inj (Option.some.inj (harguments.symm.trans harguments'))
      rw [ihbody hbody', ihrest hrest']

/-! ### What is read -/

/-- What a word stands for within calls, the innermost first: the argument of the innermost call
that has a parameter of this name, within the calls around it. -/
def standsFor : List (List (Bstring × Bstring)) → List Char → List Char
  | [], word => word
  | bindings :: calls, word =>
    match bindings.lookup word with
    | some argument => substituteWith (standsFor calls) [] .outside argument
    | none => standsFor calls word

/-- A text within calls, with what its words stand for. -/
def resolve (calls : List (List (Bstring × Bstring))) (text : List Char) : List Char :=
  substituteWith (standsFor calls) [] .outside text

/-- The names that are in force within calls. -/
def inForce (names : List (Bstring × Handler)) :
    List (List (Bstring × Bstring)) → List (Bstring × Handler)
  | [] => names
  | bindings :: calls => bindings.map (Prod.map id .replaceHandle) ++ inForce names calls

/-- None of the words of a text are bound. -/
def Free (bindings : List (Bstring × Bstring)) (text : List Char) : Prop :=
  ∀ w ∈ words [] .outside text, bindings.lookup w.1 = none

/-- **A text that is put in place of a name keeps its meaning**: no parameter of a call, out to the
one that the name is a parameter of, is in it. -/
def KeepsMeaning (name text : List Char) : List (List (Bstring × Bstring)) → Prop
  | [] => True
  | bindings :: calls =>
    Free bindings text ∧ (bindings.lookup name = none → KeepsMeaning name text calls)

/-- A call within others: the parameters are distinct words, the arguments have strings that are
closed, and the body has no parameters but its own. -/
structure CallsWithin (calls : List (List (Bstring × Bstring))) (full body : Bstring)
    (arguments : List Bstring) : Prop where
  length : arguments.length = (macroParameters full).length
  nodup : (macroParameters full).Nodup
  identifiers : ∀ p ∈ macroParameters full, p ≠ [] ∧ ∀ c ∈ p, isWordChar c = true
  unnamed : "MACROTERMINATE".toList ∉ macroParameters full
  closed : ∀ a ∈ arguments, Quotes.outside.after a = .outside
  body : ∀ w ∈ words [] .outside body, w.1 ∉ macroParameters full →
    ∀ bindings ∈ calls, bindings.lookup w.1 = none

/-- **What is put out when a text is read within calls**, where every text that is put in place of
a name keeps its meaning. -/
inductive ReadsAs (names : List (Bstring × Handler)) :
    List (List (Bstring × Bstring)) → List Char → List Char → Prop
  | done {calls : List (List (Bstring × Bstring))} {text : List Char}
      (hregular : Regular ((inForce names calls).map Prod.fst) text)
      (h : ∀ w ∈ words [] .outside text, (inForce names calls).lookup w.1 = none) :
      ReadsAs names calls text text
  | replace {calls : List (List (Bstring × Bstring))}
      {text mid name replacement rest out : List Char}
      (hregular : Regular ((inForce names calls).map Prod.fst) text)
      (hfirst : FirstBound (inForce names calls) [] .outside text mid name
        (.replaceHandle replacement) rest)
      (hclosed : Quotes.outside.after replacement = .outside)
      (hkeeps : KeepsMeaning name replacement calls)
      (h : ReadsAs names calls (replacement ++ rest) out) : ReadsAs names calls text (mid ++ out)
  | call {calls : List (List (Bstring × Bstring))}
      {text mid name full body call rest inner out : List Char} {arguments : List Bstring}
      (hregular : Regular ((inForce names calls).map Prod.fst) text)
      (hfirst : FirstBound (inForce names calls) [] .outside text mid name (.macroHandle full body)
        ('(' :: call))
      (harguments : readArguments 0 [] [] call = some (arguments, rest))
      (hcall : CallsWithin calls full body arguments) (hends : endsHere rest)
      (hbody : ReadsAs names (callBindings full arguments :: calls) body inner)
      (hrest : ReadsAs names calls rest out) : ReadsAs names calls text (mid ++ (inner ++ out))

instance (name text : List Char) : (calls : List (List (Bstring × Bstring))) →
    Decidable (KeepsMeaning name text calls)
  | [] => .isTrue trivial
  | bindings :: calls =>
    have : Decidable (KeepsMeaning name text calls) := instDecidableKeepsMeaning name text calls
    inferInstanceAs (Decidable ((∀ w ∈ words [] .outside text, bindings.lookup w.1 = none) ∧
      (bindings.lookup name = none → KeepsMeaning name text calls)))

instance (calls : List (List (Bstring × Bstring))) (full body : Bstring)
    (arguments : List Bstring) : Decidable (CallsWithin calls full body arguments) :=
  decidable_of_iff (arguments.length = (macroParameters full).length ∧
      (macroParameters full).Nodup ∧
      (∀ p ∈ macroParameters full, p ≠ [] ∧ p.all isWordChar = true) ∧
      "MACROTERMINATE".toList ∉ macroParameters full ∧
      (∀ a ∈ arguments, Quotes.outside.after a = .outside) ∧
      ∀ w ∈ words [] .outside body, w.1 ∉ macroParameters full →
        ∀ bindings ∈ calls, bindings.lookup w.1 = none)
    ⟨fun ⟨hl, hn, hi, hm, hc, hb⟩ =>
        ⟨hl, hn, fun p hp => ⟨(hi p hp).1, List.all_eq_true.mp (hi p hp).2⟩, hm, hc, hb⟩,
      fun h => ⟨h.length, h.nodup,
        fun p hp => ⟨(h.identifiers p hp).1, List.all_eq_true.mpr (h.identifiers p hp).2⟩,
        h.unnamed, h.closed, h.body⟩⟩

/-- What is put out when a text is read within calls, as far as it is known after so many names. -/
def readWithin (names : List (Bstring × Handler)) :
    ℕ → List (List (Bstring × Bstring)) → List Char → Option (List Char)
  | 0, _, _ => none
  | n + 1, calls, text =>
    if Regular ((inForce names calls).map Prod.fst) text then
      match findBound (inForce names calls) [] .outside text with
      | none =>
        if ∀ w ∈ words [] .outside text, (inForce names calls).lookup w.1 = none then some text
        else none
      | some (mid, name, .replaceHandle replacement, rest) =>
        if Quotes.outside.after replacement = .outside ∧ KeepsMeaning name replacement calls then
          (readWithin names n calls (replacement ++ rest)).map (mid ++ ·)
        else none
      | some (mid, _, .macroHandle full body, '(' :: call) =>
        match readArguments 0 [] [] call with
        | some (arguments, rest) =>
          if CallsWithin calls full body arguments ∧ endsHere rest then
            match readWithin names n (callBindings full arguments :: calls) body,
              readWithin names n calls rest with
            | some inner, some out => some (mid ++ (inner ++ out))
            | _, _ => none
          else none
        | none => none
      | _ => none
    else none

theorem readsAs_of_readWithin {names : List (Bstring × Handler)} {n : ℕ}
    {calls : List (List (Bstring × Bstring))} {text out : List Char}
    (h : readWithin names n calls text = some out) : ReadsAs names calls text out := by
  induction n generalizing calls text out with
  | zero => cases h
  | succ n ih =>
    rw [readWithin] at h
    split at h
    · rename_i hregular
      split at h
      · split at h
        · rename_i hall
          obtain rfl := Option.some.inj h
          exact .done hregular hall
        · cases h
      · rename_i hfirst
        split at h
        · rename_i hand
          obtain ⟨out, hout, rfl⟩ := Option.map_eq_some_iff.mp h
          exact .replace hregular (firstBound_of_findBound hfirst) hand.1 hand.2 (ih hout)
        · cases h
      · rename_i hfirst
        split at h
        · rename_i harguments
          split at h
          · rename_i hand
            split at h
            · rename_i hinner hout
              obtain rfl := Option.some.inj h
              exact .call hregular (firstBound_of_findBound hfirst) harguments hand.1 hand.2
                (ih hinner) (ih hout)
            · cases h
          · cases h
        · cases h
      · cases h
    · cases h

/-! ### Looking names up -/

section Lookup

variable {α β : Type} {names : List (Bstring × Handler)} {word text name : List Char}
  {bindings : List (Bstring × Bstring)} {calls : List (List (Bstring × Bstring))}

theorem lookup_map (f : α → β) (l : List (Bstring × α)) (word : Bstring) :
    (l.map (Prod.map id f)).lookup word = (l.lookup word).map f := by
  induction l with
  | nil => rfl
  | cons b l ih =>
    rw [List.map_cons, Prod.map, id, List.lookup_cons, List.lookup_cons]
    split
    · rfl
    · exact ih

/-- A parameter that is its own argument is not bound. -/
theorem lookup_registeredParameters {l : List (Bstring × Bstring)} (hnodup : (l.map Prod.fst).Nodup)
    (word : Bstring) :
    (registeredParameters l).lookup word = (l.lookup word).filter (word ≠ ·) := by
  induction l with
  | nil => rfl
  | cons b l ih =>
    rw [List.map_cons, List.nodup_cons] at hnodup
    have hother : b.1 = word → l.lookup word = none := by
      rintro rfl
      rcases hlookup : l.lookup b.1 with - | a
      · rfl
      · exact absurd (List.mem_map_of_mem (mem_of_lookup hlookup)) hnodup.1
    by_cases hword : b.1 = word
    · have hnone := hother hword
      have hbeq : (word == b.1) = true := beq_iff_eq.mpr hword.symm
      rw [List.lookup_cons, hbeq]
      by_cases hself : b.1 = b.2
      · rw [registeredParameters_of_eq _ hself, ih hnodup.2, hnone]
        simp [Option.filter, ← hself, hword]
      · have hne : word ≠ b.2 := fun heq => hself (hword.trans heq)
        rw [registeredParameters_of_ne _ hself, List.lookup_cons, hbeq]
        simp [Option.filter, hne]
    · have hbeq : (word == b.1) = false := beq_false_of_ne (Ne.symm hword)
      rw [List.lookup_cons, hbeq, ← ih hnodup.2]
      by_cases hself : b.1 = b.2
      · rw [registeredParameters_of_eq _ hself]
      · rw [registeredParameters_of_ne _ hself, List.lookup_cons, hbeq]

theorem lookup_inForce_cons (word : List Char) :
    (inForce names (bindings :: calls)).lookup word =
      ((bindings.lookup word).map .replaceHandle).or ((inForce names calls).lookup word) := by
  rw [inForce, List.lookup_append, lookup_map]

/-- A word that is no name in calls is none outside of them, and stands for itself. -/
theorem standsFor_of_unbound (h : (inForce names calls).lookup word = none) :
    names.lookup word = none ∧ standsFor calls word = word := by
  induction calls with
  | nil => exact ⟨h, rfl⟩
  | cons bindings calls ih =>
    rw [lookup_inForce_cons, Option.or_eq_none_iff, Option.map_eq_none_iff] at h
    obtain ⟨hnames, hstands⟩ := ih h.2
    refine ⟨hnames, ?_⟩
    rw [standsFor, h.1]
    exact hstands

theorem standsFor_of_free (h : ∀ bindings ∈ calls, bindings.lookup word = none) :
    standsFor calls word = word := by
  induction calls with
  | nil => rfl
  | cons bindings calls ih =>
    rw [List.forall_mem_cons] at h
    rw [standsFor, h.1]
    exact ih h.2

/-- A text without parameters is the same within a call and around it. -/
theorem Free.resolve (h : Free bindings text) (hnil : bindings.lookup [] = none) :
    resolve (bindings :: calls) text = resolve calls text := by
  refine substituteWith_congr ?_ fun w hw => ?_
  · rw [standsFor, hnil]
  · rw [standsFor, h w hw]

/-- **A text that keeps its meaning** means what the name means that it is put in place of: that is
a parameter, or else the text has no parameters. -/
theorem KeepsMeaning.resolve (h : KeepsMeaning name text calls)
    (hnil : ∀ bindings ∈ calls, bindings.lookup [] = none)
    (hname : (inForce names calls).lookup name = some (.replaceHandle text)) :
    standsFor calls name = resolve calls text ∨
      standsFor calls name = name ∧ resolve calls text = text ∧
        names.lookup name = some (.replaceHandle text) := by
  induction calls with
  | nil => exact .inr ⟨rfl, substituteWith_of_fixed rfl fun _ _ => rfl, hname⟩
  | cons bindings calls ih =>
    rw [List.forall_mem_cons] at hnil
    obtain ⟨hfree, hkeeps⟩ := h
    rw [hfree.resolve hnil.1]
    rw [lookup_inForce_cons] at hname
    rcases hbound : bindings.lookup name with - | argument
    · rw [hbound] at hname
      rw [standsFor, hbound]
      exact ih (hkeeps hbound) hnil.2 hname
    · rw [hbound] at hname
      obtain rfl := Handler.replaceHandle.inj (Option.some.inj hname)
      refine .inl ?_
      rw [standsFor, hbound]
      rfl

/-- A macro is not called by the name of a parameter. -/
theorem lookup_macroHandle {full body : Bstring}
    (h : (inForce names calls).lookup word = some (.macroHandle full body)) :
    names.lookup word = some (.macroHandle full body) ∧ standsFor calls word = word := by
  induction calls with
  | nil => exact ⟨h, rfl⟩
  | cons bindings calls ih =>
    rw [lookup_inForce_cons] at h
    rcases hbound : bindings.lookup word with - | argument
    · rw [hbound] at h
      rw [standsFor, hbound]
      exact ih h
    · rw [hbound] at h
      cases h

end Lookup

/-! ### What is read is what it should come to -/

/-- Parameters are not empty, and arguments are protected. -/
structure ProperCall (bindings : List (Bstring × Bstring)) : Prop where
  nil : bindings.lookup [] = none
  arguments : ∀ word argument, bindings.lookup word = some argument →
    isProtected 0 argument = true

section Expands

variable {names : List (Bstring × Handler)} {word text rest call out : List Char}
  {bindings : List (Bstring × Bstring)} {calls : List (List (Bstring × Bstring))}
  {full body : Bstring} {arguments : List Bstring}

theorem standsFor_nil (h : ∀ bindings ∈ calls, ProperCall bindings) : standsFor calls [] = [] :=
  standsFor_of_free fun bindings hbindings => (h bindings hbindings).nil

theorem standsFor_protected (h : ∀ bindings ∈ calls, ProperCall bindings)
    (hword : ∀ c ∈ word, isWordChar c = true) : isProtected 0 (standsFor calls word) = true := by
  induction calls generalizing word with
  | nil => exact isProtected_of_word hword
  | cons bindings calls ih =>
    rw [List.forall_mem_cons] at h
    rw [standsFor]
    split
    · rename_i argument hbound
      exact isProtected_substituteWith (fun w hw => ih h.2 hw)
        (fun _ hc => absurd hc List.not_mem_nil) (h.1.arguments _ _ hbound)
    · exact ih h.2 hword

/-- A text that is read in a call that is made outside of others. -/
theorem resolve_singleton (bindings : List (Bstring × Bstring)) (text : List Char) :
    resolve [bindings] text = substitute bindings [] .outside text := by
  have hstands : ∀ word, standsFor [bindings] word = replaced bindings word := by
    intro word
    rw [standsFor, replaced]
    split
    · rename_i argument hbound
      rw [hbound]
      exact substituteWith_of_fixed rfl fun _ _ => rfl
    · rename_i hbound
      rw [hbound]
      rfl
  rw [substitute_eq, resolve]
  exact substituteWith_congr (hstands []) fun w _ => hstands w.1

theorem lookup_callBindings (hlength : arguments.length = (macroParameters full).length)
    (hnodup : (macroParameters full).Nodup) (word : List Char) :
    (callBindings full arguments).lookup word =
      (((macroParameters full).zip arguments).lookup word).filter (word ≠ ·) := by
  refine lookup_registeredParameters ?_ word
  rwa [List.map_fst_zip (Nat.le_of_eq hlength.symm)]

theorem CallsWithin.proper (h : CallsWithin calls full body arguments)
    (harguments : readArguments 0 [] [] call = some (arguments, rest)) :
    ProperCall (callBindings full arguments) := by
  have hmem : ∀ {word argument : List Char}, (callBindings full arguments).lookup word =
      some argument → word ∈ macroParameters full ∧ argument ∈ arguments := fun hbound =>
    List.of_mem_zip (List.mem_of_mem_filter (mem_of_lookup hbound))
  obtain ⟨first, others, hsplit, -, hfirst, hothers⟩ := readArguments_spec harguments
  refine ⟨?_, fun word argument hbound => ?_⟩
  · rcases hbound : (callBindings full arguments).lookup [] with - | argument
    · rfl
    · exact absurd rfl (h.identifiers _ (hmem hbound).1).1
  · have hargument := (hmem hbound).2
    rw [hsplit, List.nil_append] at hargument
    rcases List.mem_cons.mp hargument with rfl | hargument
    · exact hfirst
    · exact hothers _ hargument

/-- **The body of a call within others** is what the call is of that has the arguments with
their meaning. -/
theorem CallsWithin.resolve_body (h : CallsWithin calls full body arguments)
    (hcalls : ∀ bindings ∈ calls, ProperCall bindings) :
    substitute (callBindings full (arguments.map (resolve calls))) [] .outside body =
      resolve (callBindings full arguments :: calls) body := by
  have hlookup : ∀ word, ((macroParameters full).zip (arguments.map (resolve calls))).lookup word =
      (((macroParameters full).zip arguments).lookup word).map (resolve calls) := fun word => by
    rw [List.zip_map_right]
    exact lookup_map (resolve calls) _ word
  have hmapped := lookup_callBindings
    (show (arguments.map (resolve calls)).length = _ from (List.length_map _).trans h.length)
    h.nodup
  have hcall := lookup_callBindings h.length h.nodup
  rw [substitute_eq, resolve]
  have hparameter : ∀ word argument,
      ((macroParameters full).zip arguments).lookup word = some argument →
        replaced (callBindings full (arguments.map (resolve calls))) word =
          standsFor (callBindings full arguments :: calls) word := by
    intro word argument hbound
    have hmeans : replaced (callBindings full (arguments.map (resolve calls))) word =
        resolve calls argument := by
      rw [replaced, hmapped, hlookup, hbound, Option.map_some, Option.filter]
      split
      · rfl
      · rename_i hsame
        exact not_not.mp (by simpa using hsame)
    rw [hmeans, standsFor, hcall, hbound, Option.filter]
    by_cases hself : word = argument
    · -- a parameter that is its own argument is one of the calls around
      have hchars := (h.identifiers _ (List.of_mem_zip (mem_of_lookup hbound)).1).2
      rw [if_neg (by simpa using hself), ← hself]
      exact substituteWith_word hchars
    · rw [if_pos (by simpa using hself)]
      rfl
  have hother : ∀ word, ((macroParameters full).zip arguments).lookup word = none →
      (∀ bindings ∈ calls, bindings.lookup word = none) →
        replaced (callBindings full (arguments.map (resolve calls))) word =
          standsFor (callBindings full arguments :: calls) word := by
    intro word hbound hfree
    rw [replaced, hmapped, hlookup, standsFor, hcall, hbound]
    exact (standsFor_of_free hfree).symm
  have hnone : ∀ word, word ∉ macroParameters full →
      ((macroParameters full).zip arguments).lookup word = none := by
    intro word hword
    rcases hbound : ((macroParameters full).zip arguments).lookup word with - | argument
    · rfl
    · exact absurd (List.of_mem_zip (mem_of_lookup hbound)).1 hword
  refine substituteWith_congr ?_ fun w hw => ?_
  · exact hother [] (hnone [] fun hmem => (h.identifiers _ hmem).1 rfl) fun bindings hbindings =>
      (hcalls bindings hbindings).nil
  · by_cases hmem : w.1 ∈ macroParameters full
    · rcases hbound : ((macroParameters full).zip arguments).lookup w.1 with - | argument
      · -- every parameter has an argument
        obtain ⟨b, hb, hw⟩ := List.mem_map.mp
          ((List.map_fst_zip (Nat.le_of_eq h.length.symm)).symm ▸ hmem)
        have hsome := isSome_lookup_of_mem hb
        rw [hw, hbound] at hsome
        cases hsome
      · exact hparameter _ _ hbound
    · exact hother _ (hnone _ hmem) (h.body w hw hmem)

/-- **What is read is what the text should come to**, with its words for what they stand for. -/
theorem ReadsAs.expands (h : ReadsAs names calls text out)
    (hcalls : ∀ bindings ∈ calls, ProperCall bindings) :
    Expands names (resolve calls text) out := by
  induction h with
  | done _ h =>
    have hstands := fun w hw => standsFor_of_unbound (h w hw)
    rw [resolve, substituteWith_of_fixed (standsFor_nil hcalls) fun w hw => (hstands w hw).2]
    exact .done fun w hw => (hstands w hw).1
  | @replace calls text mid name replacement rest out _ hfirst hclosed hkeeps _ ih =>
    have hnil := standsFor_nil hcalls
    obtain ⟨-, hlead, -⟩ := hfirst.parts_nil
    have hlead' : Lead names [] .outside mid := hlead.mono fun w hw => (standsFor_of_unbound hw).1
    have hread := ih hcalls
    rw [resolve, substituteWith_append hnil hclosed hfirst.ends] at hread
    rw [resolve, hfirst.substituteWith hnil fun w hw => (standsFor_of_unbound hw).2,
      List.append_assoc]
    rcases hkeeps.resolve (fun bindings hbindings => (hcalls bindings hbindings).nil)
        hfirst.bound with hparameter | ⟨hself, hmeans, hbound⟩
    · rw [hparameter]
      exact hread.behind hlead'
    · rw [resolve] at hmeans
      rw [hself]
      rw [hmeans] at hread
      exact .replace (hfirst.behind (fun w hw => (standsFor_of_unbound hw).1) hbound
        (endsHere_substituteWith hnil hfirst.ends)) hread
  | @call calls text mid name full body call rest inner out arguments _ hfirst harguments hcall
      hends _ _ ihbody ihrest =>
    have hnil := standsFor_nil hcalls
    obtain ⟨hbound, hself⟩ := lookup_macroHandle hfirst.bound
    have hproper := hcall.proper harguments
    have hbody := ihbody (List.forall_mem_cons.mpr ⟨hproper, hcalls⟩)
    rw [← hcall.resolve_body hcalls] at hbody
    have hbracket : substituteWith (standsFor calls) [] .outside ('(' :: call) =
        '(' :: resolve calls call := by
      rw [substituteWith, if_neg (by decide), hnil]
      rfl
    have hopen : endsHere ('(' :: resolve calls call) := by
      rintro c hc
      rw [← Option.some.inj hc]
      decide
    rw [resolve, hfirst.substituteWith hnil fun w hw => (standsFor_of_unbound hw).2, hself,
      hbracket, List.append_assoc]
    exact .call (hfirst.behind (fun w hw => (standsFor_of_unbound hw).1) hbound hopen)
      (readArguments_substituteWith hnil (fun w hw => standsFor_protected hcalls hw) hcall.closed
        harguments)
      ((List.length_map _).trans hcall.length) hbody (ihrest hcalls)

end Expands

end DcpuToolchain
