import DcpuToolchain.Ld.Policy
import Mathlib.Data.BitVec
import Mathlib.Data.Set.Card
import Mathlib.Logic.Relation
import Mathlib.Tactic.Ring

/-!
# What linker policies mean

The words that a policy denotes, by recursion on its source: a value denotes a number or words,
under variables that are bound to numbers, and an instruction denotes the words that it writes
(`DcpuToolchain.PolicyInstruction.denote`). A loop writes what its body denotes for each number
from the start up to the end; a chained policy writes what it denotes without variables.

The interpreter writes these words, or stops with an error where the source denotes nothing, if
and only if none of what it gets wrong is met while the program runs
(`DcpuToolchain.policyExecute_matches_iff`):

* `field` with a function call for an index fails an assertion, and with the size of the table
  for an index it follows a null pointer;
* `total` and `field` follow a null pointer for the sections, of which a linked bin has no table;
* `write` of `words` with an argument that is itself several words reads addresses for numbers;
* `offset` follows a null pointer at an adjustment that is not in the code.
-/

namespace DcpuToolchain

/-! ### What the source denotes -/

/-- What a value denotes. -/
inductive PolicyMeaning
  | number (number : Int)
  | words (words : List Word)

/-- The words that are written for a value. -/
def PolicyMeaning.toWords : PolicyMeaning → List Word
  | number n => [BitVec.ofInt 16 n]
  | words ws => ws

/-- The code of a bin, with an offset added to each word once for every adjustment of it. -/
def offsetWords (bin : LdBin) (offset : Word) : List Word :=
  bin.words.mapIdx fun i w =>
    w + BitVec.ofNat 16 ((bin.tables .adjustment).countP (·.address = i)) * offset

/-- The entries of a table. Of the sections none are left in a linked bin. -/
def PolicyTable.entries (bin : LdBin) (t : PolicyTable) : List LconvEntry := (t.table bin).getD []

section Denote

variable (bin : LdBin) (offset : Word) (env : String → Option Int)

mutual

/-- What a value denotes, or nothing: in a bin, at an offset, under variables. -/
def PolicyValue.denote : PolicyValue → Option PolicyMeaning
  | .number n => some (.number n)
  | .var x => (env x).map .number
  | .total t => some (.number (t.entries bin).length)
  | .field t index f =>
    match index.denote with
    | some (.number n) =>
      some (.words (if 0 ≤ n then ((t.entries bin)[n.toNat]?).elim [] f.words else []))
    | _ => none
  | .code => some (.words (offsetWords bin offset))
  | .words parameters => (PolicyValue.denoteAll parameters).map .words

/-- The words of values, one after the other. -/
def PolicyValue.denoteAll : List PolicyValue → Option (List Word)
  | [] => some []
  | value :: values =>
    value.denote.bind fun m => (PolicyValue.denoteAll values).map (m.toWords ++ ·)

end

end Denote

/-- What instructions denote: from an offset, the words that they write and the offset after
them. -/
abbrev Writing := Word → Option (List Word × Word)

/-- One after the other. -/
def Writing.andThen (d e : Writing) : Writing := fun offset =>
  (d offset).bind fun p => (e p.2).map fun q => (p.1 ++ q.1, q.2)

/-- Once for each number, in order. -/
def Writing.forEach (d : Int → Writing) : List Int → Writing
  | [] => fun offset => some ([], offset)
  | k :: ks => (d k).andThen (Writing.forEach d ks)

/-- The numbers from a start up to an end. -/
def numbersFrom (start : Int) (turns : ℕ) : List Int :=
  (List.range turns).map fun i : ℕ => start + (i : Int)

section Instructions

variable (bin : LdBin) (chain : String → Writing)

mutual

/-- What an instruction denotes, under variables. -/
def PolicyInstruction.denote :
    PolicyInstruction → (String → Option Int) → Writing
  | .write value, env => fun offset =>
    (value.denote bin offset env).map fun m => (m.toWords, offset)
  | .chain name, _ => chain name
  | .offset value, env => fun offset =>
    match value.denote bin offset env with
    | some (.number n) => some ([], BitVec.ofInt 16 n)
    | _ => none
  | .loop x start stop body, env => fun offset =>
    match env x, start.denote bin offset env, stop.denote bin offset env with
    | none, some (.number s), some (.number e) =>
      Writing.forEach (fun k => PolicyInstruction.denoteAll body (Function.update env x (some k)))
        (numbersFrom s (e - s).toNat) offset
    | _, _, _ => none

/-- What instructions denote, one after the other. -/
def PolicyInstruction.denoteAll :
    List PolicyInstruction → (String → Option Int) → Writing
  | [], _ => fun offset => some ([], offset)
  | inst :: instructions, env =>
    (inst.denote env).andThen (PolicyInstruction.denoteAll instructions env)

end

end Instructions

/-- What a policy denotes that is chained into, so many policies deep. -/
def denoteChain (bin : LdBin) (policies : List Policy) : (depth : ℕ) → String → Writing
  | 0, _ => fun _ => none
  | depth + 1, name => fun offset =>
    (policiesGetPolicy policies name).bind fun policy =>
      PolicyInstruction.denoteAll bin (denoteChain bin policies depth) policy.instructions
        (fun _ => none) offset

/-- **The words that a policy denotes.** -/
def Policy.denote (policies : List Policy) (policy : Policy) (bin : LdBin) : Option (List Word) :=
  (PolicyInstruction.denoteAll bin (denoteChain bin policies (policies.length + 1))
    policy.instructions (fun _ => none) 0).map (·.1)

/-! ### What the interpreter gets wrong -/

section Covered

variable (bin : LdBin) (offset : Word) (env : String → Option Int)

mutual

/-- No `field` of a value that is evaluated has a function call or the size of its table for an
index, and none, as no `total`, is about a table that was not created. -/
def PolicyValue.Covered : PolicyValue → Prop
  | .total t => t.table bin ≠ none
  | .field t index _ => index.isFunction = false ∧
      ∀ n, index.denote bin offset env = some (.number n) → 0 ≤ n →
        t.table bin ≠ none ∧ n ≠ (t.entries bin).length
  | .words parameters => PolicyValue.CoveredAll parameters
  | _ => True

def PolicyValue.CoveredAll : List PolicyValue → Prop
  | [] => True
  | value :: values =>
    value.Covered ∧ ∀ m, value.denote bin offset env = some m → PolicyValue.CoveredAll values

end

/-- The arguments of `words` are numbers. -/
def PolicyValue.Flat : PolicyValue → Prop
  | .words parameters => ∀ value ∈ parameters, ∃ n, value.denote bin offset env = some (.number n)
  | _ => True

variable (chain : String → Writing) (chainCovered : String → Word → Prop)

/-- Something holds for each number, from the offsets that those before it leave. -/
def coveredEach (d : Int → Writing) (covered : Int → Word → Prop) : List Int → Word → Prop
  | [], _ => True
  | k :: ks, offset => covered k offset ∧ ∀ p, d k offset = some p → coveredEach d covered ks p.2

mutual

/-- While an instruction is executed, nothing is met that the interpreter gets wrong. -/
def PolicyInstruction.Covered :
    PolicyInstruction → (String → Option Int) → Word → Prop
  | .write value, env, offset => value.Covered bin offset env ∧
      ∀ m, value.denote bin offset env = some m → value.Flat bin offset env
  | .chain name, _, offset => chainCovered name offset
  | .offset value, env, offset => value.Covered bin offset env ∧
      ∀ m, value.denote bin offset env = some m → ∀ n, m = .number n →
        ∀ e ∈ bin.tables .adjustment, e.address < bin.words.length
  | .loop x start stop body, env, offset => env x = none →
      start.Covered bin offset env ∧ ∀ s, start.denote bin offset env = some s →
      stop.Covered bin offset env ∧ ∀ e, stop.denote bin offset env = some e →
      ∀ i j, s = .number i → e = .number j →
        coveredEach
          (fun k => PolicyInstruction.denoteAll bin chain body (Function.update env x (some k)))
          (fun k => PolicyInstruction.CoveredAll body (Function.update env x (some k)))
          (numbersFrom i (j - i).toNat) offset

def PolicyInstruction.CoveredAll :
    List PolicyInstruction → (String → Option Int) → Word → Prop
  | [], _, _ => True
  | inst :: instructions, env, offset => inst.Covered env offset ∧
      ∀ p, inst.denote bin chain env offset = some p →
        PolicyInstruction.CoveredAll instructions env p.2

end

end Covered

/-- The same for a policy that is chained into. -/
def coveredChain (bin : LdBin) (policies : List Policy) : (depth : ℕ) → String → Word → Prop
  | 0, _, _ => True
  | depth + 1, name, offset => ∀ policy, policiesGetPolicy policies name = some policy →
      PolicyInstruction.CoveredAll bin (denoteChain bin policies depth)
        (coveredChain bin policies depth) policy.instructions (fun _ => none) offset

/-- **While a policy is executed, nothing is met that the interpreter gets wrong.** -/
def Policy.Covered (policies : List Policy) (policy : Policy) (bin : LdBin) : Prop :=
  PolicyInstruction.CoveredAll bin (denoteChain bin policies (policies.length + 1))
    (coveredChain bin policies (policies.length + 1)) policy.instructions (fun _ => none) 0

/-! ### Conforming -/

section Conforms

variable {α β γ δ : Type} {R : α → β → Prop} {S : γ → δ → Prop} {C D : Prop}
  {x : Except PolicyStop α} {y : Option β}

/-- The interpreter gives what the source denotes, or calls the error handler where it denotes
nothing. -/
def Matches (R : α → β → Prop) : Except PolicyStop α → Option β → Prop
  | .ok a, some b => R a b
  | .error (.error _), none => True
  | _, _ => False

/-- The interpreter stops, and not by the error handler. -/
def Broken (x : Except PolicyStop α) : Prop :=
  ∃ stop, x = .error stop ∧ ∀ message, stop ≠ .error message

theorem Broken.not_matches (h : Broken x) : ¬Matches R x y := by
  obtain ⟨stop, rfl, hstop⟩ := h
  cases stop with
  | error message => exact absurd rfl (hstop message)
  | _ => cases y <;> exact id

/-- A computation gives what it should under a condition, and breaks without it. -/
structure Conforms (C : Prop) (R : α → β → Prop) (x : Except PolicyStop α) (y : Option β) :
    Prop where
  covered : C → Matches R x y
  broken : ¬C → Broken x

theorem Conforms.matches_iff (h : Conforms C R x y) : Matches R x y ↔ C :=
  ⟨fun hm => by_contra fun hC => (h.broken hC).not_matches hm, h.covered⟩

theorem Conforms.of_matches (h : Matches R x y) : Conforms True R x y :=
  ⟨fun _ => h, fun hC => absurd trivial hC⟩

theorem Conforms.ok {a : α} {b : β} (h : R a b) : Conforms True R (.ok a) (some b) :=
  Conforms.of_matches h

theorem Conforms.stops {message : String} (hC : C) :
    Conforms C R (.error (.error message)) none :=
  ⟨fun _ => trivial, fun h => absurd hC h⟩

theorem Conforms.of_broken (h : Broken x) : Conforms False R x y :=
  ⟨False.elim, fun _ => h⟩

theorem Conforms.congr (h : Conforms C R x y) (hC : C ↔ D) : Conforms D R x y := by
  rwa [← propext hC]

/-- What comes second is settled from what comes first. -/
theorem Conforms.bind {C' : β → Prop} {f : α → Except PolicyStop γ} {g : β → Option δ}
    (h : Conforms C R x y) (hf : ∀ a b, y = some b → R a b → Conforms (C' b) S (f a) (g b)) :
    Conforms (C ∧ ∀ b, y = some b → C' b) S (x >>= f) (y.bind g) := by
  constructor
  · rintro ⟨hC, hC'⟩
    have hm := h.covered hC
    rcases x with stop | a
    · rcases y with - | b
      · cases stop <;> first | exact trivial | exact hm
      · cases stop <;> exact hm.elim
    · rcases y with - | b
      · exact hm.elim
      · exact (hf a b rfl hm).covered (hC' b rfl)
  · intro hnot
    by_cases hC : C
    · have hm := h.covered hC
      obtain ⟨b, rfl, hb⟩ : ∃ b, y = some b ∧ ¬C' b := by
        by_contra hall
        exact hnot ⟨hC, fun b hy => by_contra fun hb => hall ⟨b, hy, hb⟩⟩
      rcases x with stop | a
      · cases stop <;> exact hm.elim
      · exact (hf a b rfl hm).broken hb
    · obtain ⟨stop, rfl, hstop⟩ := h.broken hC
      exact ⟨stop, rfl, hstop⟩

theorem Conforms.map {f : α → γ} {g : β → δ} (h : Conforms C R x y)
    (hf : ∀ a b, R a b → S (f a) (g b)) :
    Conforms C S (x >>= fun a => pure (f a)) (y.map g) := by
  have hmap : y.map g = y.bind fun b => some (g b) := by cases y <;> rfl
  rw [hmap]
  refine (h.bind fun a b _ hR => Conforms.ok (hf a b hR)).congr ?_
  exact and_iff_left fun b _ => trivial

/-- Only what the source denotes is put in another form. -/
theorem Conforms.map_right {T : α → δ → Prop} {g : β → δ} (h : Conforms C R x y)
    (hg : ∀ a b, R a b → T a (g b)) : Conforms C T x (y.map g) := by
  refine ⟨fun hC => ?_, h.broken⟩
  have hm := h.covered hC
  rcases x with stop | a
  · rcases y with - | b
    · cases stop <;> exact hm
    · cases stop <;> exact hm
  · rcases y with - | b
    · exact hm
    · exact hg a b hm

theorem Conforms.imp {T : α → β → Prop} (h : Conforms C R x y) (hT : ∀ a b, R a b → T a b) :
    Conforms C T x y := by
  have h' := h.map_right hT
  rwa [Option.map_id'] at h'

/-- Only what the interpreter gives is put in another form. -/
theorem Conforms.map_left {T : γ → β → Prop} {f : α → γ} (h : Conforms C R x y)
    (hf : ∀ a b, R a b → T (f a) b) : Conforms C T (x >>= fun a => pure (f a)) y := by
  have h' := h.map hf
  rwa [Option.map_id'] at h'

end Conforms

/-! ### Values -/

mutual

/-- What a value at run time stands for. -/
def PolicyResult.meaning : PolicyResult → PolicyMeaning
  | .number n => .number n
  | .list results => .words (PolicyResult.meanings results)

def PolicyResult.meanings : List PolicyResult → List Word
  | [] => []
  | result :: results => result.meaning.toWords ++ PolicyResult.meanings results

end

/-- A list in it has numbers only. -/
def PolicyResult.Plain : PolicyResult → Prop
  | .number _ => True
  | .list results => ∀ result ∈ results, ∃ n, result = .number n

theorem PolicyResult.number_of_meaning {result : PolicyResult} {n : Int}
    (h : result.meaning = .number n) : result = .number n := by
  cases result with
  | number m =>
    cases h
    rfl
  | list results => cases h

/-- A list of words stands for these words. -/
theorem meaning_wordsResult (words : List Word) :
    (wordsResult words).meaning = .words words := by
  refine congrArg PolicyMeaning.words ?_
  induction words with
  | nil => rfl
  | cons w words ih =>
    rw [List.map_cons, PolicyResult.meanings, ih]
    refine congrArg (· :: words) ?_
    rw [BitVec.ofInt_natCast, BitVec.ofNat_toNat, BitVec.setWidth_eq]

theorem plain_wordsResult (words : List Word) : (wordsResult words).Plain := by
  intro result hmem
  obtain ⟨w, -, rfl⟩ := List.mem_map.mp hmem
  exact ⟨_, rfl⟩

/-- What is written for a value is what it stands for, unless that is a list in a list. -/
theorem conforms_written (result : PolicyResult) :
    Conforms result.Plain (· = ·) result.written (some result.meaning.toWords) := by
  cases result with
  | number n => exact Conforms.of_matches rfl
  | list results =>
    have hnumbers : Conforms (PolicyResult.Plain (.list results))
        (fun numbers words => numbers.map (BitVec.ofInt 16) = words) (getNumbers results)
        (some (PolicyResult.meanings results)) := by
      induction results with
      | nil =>
        have hplain : PolicyResult.Plain (.list []) :=
          fun result hmem => absurd hmem List.not_mem_nil
        refine Conforms.congr (Conforms.ok ?_) (iff_of_true trivial hplain)
        rfl
      | cons result results ih =>
        cases result with
        | number n =>
          have hrest := ih.map (f := fun numbers => n :: numbers)
            (g := fun words => BitVec.ofInt 16 n :: words)
            (S := fun numbers words => numbers.map (BitVec.ofInt 16) = words)
            fun numbers words h => by rw [List.map_cons, h]
          refine hrest.congr
            ⟨fun h => ?_, fun h result hmem => h result (List.mem_cons_of_mem _ hmem)⟩
          intro result hmem
          rcases List.mem_cons.mp hmem with rfl | hmem
          · exact ⟨n, rfl⟩
          · exact h result hmem
        | list inner =>
          refine (Conforms.of_broken ⟨.notANumber, rfl, fun message h => by cases h⟩).congr ?_
          refine ⟨False.elim, fun h => ?_⟩
          obtain ⟨n, hn⟩ := h _ List.mem_cons_self
          cases hn
    exact hnumbers.map fun numbers words h => h

/-- The variables of a state are bound as in an environment. -/
def Binds (vars : List PolicyVariable) (env : String → Option Int) : Prop :=
  ∀ x, (vars.find? (·.name = x)).map (·.number) = env x

/-- What the linker holds is at an offset, with words that have been written. -/
structure PolicyUserdata.At (bin : LdBin) (offset : Word) (out : List Word) (u : PolicyUserdata) :
    Prop where
  codeBin : u.codeBin = { bin with words := offsetWords bin offset }
  previousOffset : u.previousOffset = offset
  outputBin : u.outputBin.words = out

/-- A result stands for a meaning, and has no list in a list if the value is flat. -/
def Stands (bin : LdBin) (offset : Word) (env : String → Option Int) (value : PolicyValue)
    (result : PolicyResult) (m : PolicyMeaning) : Prop :=
  result.meaning = m ∧ (result.Plain ↔ value.Flat bin offset env)

section Values

variable {bin : LdBin} {offset : Word} {out : List Word} {env : String → Option Int}
  {s : PolicyState}

theorem PolicyUserdata.At.table {u : PolicyUserdata} (h : u.At bin offset out) (t : PolicyTable) :
    t.table u.codeBin = t.table bin := by
  rw [h.codeBin]
  cases t <;> rfl

/-- The number of entries of a table that was created. -/
theorem conforms_policyTotalTable {u : PolicyUserdata} (h : u.At bin offset out) (t : PolicyTable) :
    Conforms (t.table bin ≠ none) (· = ·) (policyTotalTable u t)
      (some ((t.entries bin).length : Int)) := by
  rw [policyTotalTable, h.table, PolicyTable.entries]
  cases t.table bin with
  | none =>
    refine (Conforms.of_broken ⟨.nullPointer, rfl, fun message h => by cases h⟩).congr ?_
    exact iff_of_false id fun hne => hne rfl
  | some tableList => exact (Conforms.ok rfl).congr (iff_of_true trivial (Option.some_ne_none _))

/-- The field of an entry, but for the index behind the last one. -/
theorem conforms_policyField {u : PolicyUserdata} (h : u.At bin offset out) (t : PolicyTable)
    (n : Int) (f : PolicyField) :
    Conforms (0 ≤ n → t.table bin ≠ none ∧ n ≠ (t.entries bin).length) (· = ·) (policyField u t n f)
      (some (if 0 ≤ n then ((t.entries bin)[n.toNat]?).elim [] f.words else [])) := by
  rw [policyField, h.table, PolicyTable.entries]
  by_cases hneg : 0 ≤ n
  · rw [if_neg (Int.not_lt.mpr hneg), if_pos hneg]
    cases t.table bin with
    | none =>
      refine (Conforms.of_broken ⟨.nullPointer, rfl, fun message h => by cases h⟩).congr ?_
      exact iff_of_false id fun hne => (hne hneg).1 rfl
    | some tableList =>
      have hsome : some tableList ≠ none := Option.some_ne_none _
      dsimp only
      rw [Option.getD_some]
      by_cases hlt : (tableList.length : Int) < n
      · rw [if_pos hlt, List.getElem?_eq_none (by omega)]
        exact (Conforms.ok rfl).congr (iff_of_true trivial fun _ => ⟨hsome, by omega⟩)
      · rw [if_neg hlt]
        by_cases heq : n = tableList.length
        · rw [List.getElem?_eq_none (by omega)]
          refine (Conforms.of_broken ⟨.nullPointer, rfl, fun message h => by cases h⟩).congr ?_
          exact iff_of_false id fun hne => (hne hneg).2 heq
        · rw [List.getElem?_eq_getElem (by omega)]
          exact (Conforms.ok rfl).congr (iff_of_true trivial fun _ => ⟨hsome, heq⟩)
  · rw [if_pos (Int.not_le.mp hneg), if_neg hneg]
    exact (Conforms.ok rfl).congr (iff_of_true trivial fun h => absurd h hneg)

/-- A value that is no function call is a number. -/
theorem conforms_index (hvars : Binds s.vars env) {index : PolicyValue}
    (h : index.isFunction = false) :
    Conforms True (fun result m => ∃ n, result = .number n ∧ m = .number n) (valueEvaluate s index)
      (index.denote bin offset env) := by
  cases index with
  | number n => exact Conforms.ok ⟨n, rfl, rfl⟩
  | var x =>
    have hx := hvars x
    rw [valueEvaluate, PolicyValue.denote, ← hx]
    cases s.vars.find? (·.name = x) with
    | none => exact Conforms.stops trivial
    | some v => exact Conforms.ok ⟨v.number, rfl, rfl⟩
  | _ => cases h

mutual

/-- **A value is evaluated to what it denotes**, unless it has a `field` that the interpreter gets
wrong. -/
theorem conforms_valueEvaluate (hu : s.userdata.At bin offset out) (hvars : Binds s.vars env) :
    (value : PolicyValue) →
      Conforms (value.Covered bin offset env) (Stands bin offset env value) (valueEvaluate s value)
        (value.denote bin offset env)
  | .number n => Conforms.ok ⟨rfl, Iff.rfl⟩
  | .var x => by
    refine (conforms_index hvars rfl).imp ?_
    rintro result m ⟨n, rfl, rfl⟩
    exact ⟨rfl, Iff.rfl⟩
  | .total t => by
    rw [valueEvaluate, PolicyValue.denote, PolicyValue.Covered]
    refine (conforms_policyTotalTable hu t).map ?_
    rintro _ n rfl
    exact ⟨rfl, Iff.rfl⟩
  | .field t index f => by
    rw [valueEvaluate, PolicyValue.denote, PolicyValue.Covered]
    cases hfunction : index.isFunction with
    | true =>
      refine (Conforms.of_broken ⟨.assertion, rfl, fun message h => by cases h⟩).congr ?_
      exact iff_of_false id fun h => Bool.noConfusion h.1
    | false =>
      -- The index is a number, whose field is read next.
      have hfield : Conforms
          (True ∧ ∀ m, index.denote bin offset env = some m →
            ∀ n, m = .number n → 0 ≤ n → t.table bin ≠ none ∧ n ≠ (t.entries bin).length)
          (Stands bin offset env (.field t index f))
          (valueEvaluate s index >>= fun value => value.getNumber >>= fun n =>
            policyField s.userdata t n f >>= fun ws => pure (wordsResult ws))
          ((index.denote bin offset env).bind fun m =>
            match m with
            | .number n =>
              some (.words (if 0 ≤ n then ((t.entries bin)[n.toNat]?).elim [] f.words else []))
            | .words _ => none) := by
        refine (conforms_index hvars hfunction).bind ?_
        rintro result m - ⟨n, rfl, rfl⟩
        refine ((conforms_policyField hu t n f).map ?_).congr ?_
        · rintro ws _ rfl
          exact ⟨meaning_wordsResult ws, iff_of_true (plain_wordsResult ws) trivial⟩
        · exact ⟨fun h m hm => by cases hm; exact h, fun h => h n rfl⟩
      have hdenote : (match index.denote bin offset env with
          | some (.number n) =>
            some (PolicyMeaning.words
              (if 0 ≤ n then ((t.entries bin)[n.toNat]?).elim [] f.words else []))
          | _ => none) = (index.denote bin offset env).bind fun m =>
            match m with
            | .number n =>
              some (.words (if 0 ≤ n then ((t.entries bin)[n.toNat]?).elim [] f.words else []))
            | .words _ => none := by
        rcases index.denote bin offset env with - | n | ws <;> rfl
      rw [if_neg Bool.false_ne_true, hdenote]
      refine hfield.congr ?_
      constructor
      · rintro ⟨-, h⟩
        exact ⟨rfl, fun n hn => h _ hn n rfl⟩
      · rintro ⟨-, h⟩
        refine ⟨trivial, ?_⟩
        rintro m hm n rfl
        exact h n hm
  | .code => by
    rw [valueEvaluate, PolicyValue.denote, policyCode, hu.codeBin]
    exact Conforms.ok ⟨meaning_wordsResult _, iff_of_true (plain_wordsResult _) trivial⟩
  | .words parameters => by
    rw [valueEvaluate, PolicyValue.denote, PolicyValue.Covered]
    refine (conforms_valuesEvaluate hu hvars parameters).map ?_
    rintro results ws ⟨rfl, hplain⟩
    exact ⟨rfl, hplain⟩

theorem conforms_valuesEvaluate (hu : s.userdata.At bin offset out) (hvars : Binds s.vars env) :
    (values : List PolicyValue) →
      Conforms (PolicyValue.CoveredAll bin offset env values)
        (fun results ws => PolicyResult.meanings results = ws ∧
          ((∀ result ∈ results, ∃ n, result = .number n) ↔
            ∀ value ∈ values, ∃ n, value.denote bin offset env = some (.number n)))
        (valuesEvaluate s values) (PolicyValue.denoteAll bin offset env values)
  | [] => by
    rw [valuesEvaluate, PolicyValue.denoteAll, PolicyValue.CoveredAll]
    refine Conforms.ok ⟨rfl, iff_of_true ?_ ?_⟩ <;> intro result hmem <;> cases hmem
  | value :: values => by
    rw [valuesEvaluate, PolicyValue.denoteAll, PolicyValue.CoveredAll]
    refine (conforms_valueEvaluate hu hvars value).bind fun result m hm hresult => ?_
    refine (conforms_valuesEvaluate hu hvars values).map ?_
    rintro results ws ⟨rfl, hplain⟩
    obtain ⟨rfl, -⟩ := hresult
    refine ⟨rfl, ?_⟩
    rw [List.forall_mem_cons, List.forall_mem_cons, hm]
    refine and_congr ⟨?_, ?_⟩ hplain
    · rintro ⟨n, rfl⟩
      exact ⟨n, rfl⟩
    · rintro ⟨n, hn⟩
      exact ⟨n, PolicyResult.number_of_meaning (Option.some.inj hn)⟩

end

end Values

/-! ### Instructions -/

/-- The loop of `policy_offset` adds to each word once for every adjustment of it. -/
theorem offsetLoop_of_lt {amount : Word} {entries : List LconvEntry} {words : List Word}
    (h : ∀ e ∈ entries, e.address < words.length) :
    offsetLoop amount entries words = some (words.mapIdx fun i w =>
      w + BitVec.ofNat 16 (entries.countP (·.address = i)) * amount) := by
  induction entries generalizing words with
  | nil =>
    refine congrArg some (List.ext_getElem (List.length_mapIdx).symm fun i hi hi' => ?_)
    rw [List.getElem_mapIdx, List.countP_nil, BitVec.zero_mul, BitVec.add_zero]
  | cons e entries ih =>
    obtain ⟨he, hrest⟩ := List.forall_mem_cons.mp h
    rw [offsetLoop, List.getElem?_eq_getElem he]
    dsimp only
    rw [ih (by rw [List.length_set]; exact hrest)]
    refine congrArg some (List.ext_getElem (by simp) fun i hi hi' => ?_)
    rw [List.getElem_mapIdx, List.getElem_mapIdx, List.countP_cons, List.getElem_set]
    by_cases hei : e.address = i
    · subst hei
      rw [if_pos rfl, if_pos (decide_eq_true rfl), BitVec.ofNat_add,
        show BitVec.ofNat 16 1 = (1 : Word) from rfl]
      ring
    · rw [if_neg hei, if_neg (by rw [decide_eq_false hei]; exact Bool.false_ne_true), Nat.add_zero]

theorem offsetLoop_of_not_lt {amount : Word} {entries : List LconvEntry} {words : List Word}
    (h : ¬∀ e ∈ entries, e.address < words.length) : offsetLoop amount entries words = none := by
  induction entries generalizing words with
  | nil => exact absurd (fun e hmem => absurd hmem List.not_mem_nil) h
  | cons e entries ih =>
    rw [offsetLoop]
    split
    · rfl
    · rename_i w hw
      refine ih fun hrest => h ?_
      rw [List.length_set] at hrest
      exact List.forall_mem_cons.mpr ⟨(List.getElem?_eq_some_iff.mp hw).1, hrest⟩

mutual

/-- The names that an instruction chains into. -/
def PolicyInstruction.chains : PolicyInstruction → List String
  | .chain name => [name]
  | .loop _ _ _ body => PolicyInstruction.chainsAll body
  | _ => []

def PolicyInstruction.chainsAll : List PolicyInstruction → List String
  | [] => []
  | inst :: instructions => inst.chains ++ PolicyInstruction.chainsAll instructions

end

section Execute

variable {bin : LdBin} {offset : Word} {out : List Word} {env : String → Option Int}
  {s : PolicyState}

/-- `offset` moves the adjusted words from one offset to another, if they are all there. -/
theorem conforms_policyOffset {u : PolicyUserdata} (hu : u.At bin offset out) (n : Int) :
    Conforms (∀ e ∈ bin.tables .adjustment, e.address < bin.words.length)
      (fun u' p => u'.At bin p.2 (out ++ p.1)) (policyOffset u n)
      (some ([], BitVec.ofInt 16 n)) := by
  have hlength : (offsetWords bin offset).length = bin.words.length := List.length_mapIdx
  unfold policyOffset
  rw [hu.codeBin, hu.previousOffset]
  dsimp only
  by_cases h : ∀ e ∈ bin.tables .adjustment, e.address < bin.words.length
  · rw [offsetLoop_of_lt (by rw [hlength]; exact h)]
    refine Conforms.congr (Conforms.ok ?_) (iff_of_true trivial h)
    refine ⟨?_, rfl, by rw [List.append_nil]; exact hu.outputBin⟩
    refine congrArg (fun words => { bin with words := words }) ?_
    unfold offsetWords
    refine List.ext_getElem (by simp) fun i hi hi' => ?_
    rw [List.getElem_mapIdx, List.getElem_mapIdx, List.getElem_mapIdx]
    ring
  · rw [offsetLoop_of_not_lt (by rw [hlength]; exact h)]
    refine (Conforms.of_broken ⟨.nullPointer, rfl, fun message h => by cases h⟩).congr ?_
    exact iff_of_false id h

theorem words_foldl_binWrite (words : List Word) (b : LdBin) :
    (words.foldl binWrite b).words = b.words ++ words := by
  induction words generalizing b with
  | nil => exact (List.append_nil _).symm
  | cons w words ih => rw [List.foldl_cons, ih, binWrite, List.append_assoc, List.singleton_append]

theorem PolicyUserdata.At.policyWrite {u : PolicyUserdata} (h : u.At bin offset out)
    (words : List Word) : (policyWrite u words).At bin offset (out ++ words) where
  codeBin := h.codeBin
  previousOffset := h.previousOffset
  outputBin := by
    rw [← h.outputBin]
    exact words_foldl_binWrite words u.outputBin

/-- Where instructions leave a state: with the variables as they were, and behind the words that
they have written. -/
def LeftAt (bin : LdBin) (out : List Word) (vars : List PolicyVariable) (s : PolicyState)
    (p : List Word × Word) : Prop :=
  s.vars = vars ∧ s.userdata.At bin p.2 (out ++ p.1)

theorem LeftAt.append {vars : List PolicyVariable} {ws : List Word} {p : List Word × Word}
    (h : LeftAt bin (out ++ ws) vars s p) : LeftAt bin out vars s (ws ++ p.1, p.2) := by
  obtain ⟨hvars, hat⟩ := h
  rw [List.append_assoc] at hat
  exact ⟨hvars, hat⟩

theorem Binds.any_eq_false {vars : List PolicyVariable} (h : Binds vars env) (x : String) :
    vars.any (·.name = x) = false ↔ env x = none := by
  rw [← h x, Option.map_eq_none_iff, List.find?_eq_none, List.any_eq_false]

/-- A variable that is not bound can be bound behind the others. -/
theorem Binds.append {vars : List PolicyVariable} (h : Binds vars env) {x : String}
    (hx : env x = none) (k : Int) :
    Binds (vars ++ [⟨x, k⟩]) (Function.update env x (some k)) := by
  intro y
  rw [List.find?_append, Option.map_or]
  by_cases hxy : y = x
  · subst hxy
    rw [h y, hx, Function.update_self, Option.none_or, List.find?_cons_of_pos (by simp)]
    rfl
  · rw [h y, Function.update_of_ne hxy, List.find?_cons_of_neg (by simpa using Ne.symm hxy)]
    exact Option.or_none

theorem numbersFrom_succ (k : Int) (n : ℕ) :
    numbersFrom k (n + 1) = k :: numbersFrom (k + 1) n := by
  unfold numbersFrom
  rw [List.range_succ_eq_map, List.map_cons, List.map_map]
  refine congrArg₂ List.cons (by simp) (List.map_congr_left fun i _ => ?_)
  simp only [Function.comp_apply, Nat.succ_eq_add_one]
  omega

theorem modify_length_append {α : Type} (as : List α) (a : α) (f : α → α) :
    (as ++ [a]).modify as.length f = as ++ [f a] := by
  induction as with
  | nil => rfl
  | cons b as ih => exact congrArg (b :: ·) ih

/-- **A loop runs its body once for each number** from the start up to the end, with the variable
bound to it. -/
theorem conforms_forLoop (vars : List PolicyVariable) (x : String) (target : Int)
    {body : PolicyState → Except PolicyStop PolicyState} {d : Int → Writing}
    {covered : Int → Word → Prop}
    (hbody : ∀ k offset out s, s.vars = vars ++ [⟨x, k⟩] → s.userdata.At bin offset out →
      Conforms (covered k offset) (LeftAt bin out s.vars) (body s) (d k offset)) :
    ∀ (turns : ℕ) (k : Int) (offset : Word) (out : List Word) (s : PolicyState),
      turns = (target - k).toNat → s.vars = vars ++ [⟨x, k⟩] → s.userdata.At bin offset out →
      Conforms (coveredEach d covered (numbersFrom k turns) offset)
        (fun s' p => ∃ j, LeftAt bin out (vars ++ [⟨x, j⟩]) s' p)
        (forLoop body vars.length target turns s)
        (Writing.forEach d (numbersFrom k turns) offset) := by
  intro turns
  induction turns with
  | zero =>
    intro k offset out s _ hvars hat
    refine Conforms.ok ⟨k, hvars, ?_⟩
    rw [List.append_nil]
    exact hat
  | succ turns ih =>
    intro k offset out s hturns hvars hat
    have hat' : s.vars[vars.length]? = some ⟨x, k⟩ := by
      rw [hvars, List.getElem?_append_right le_rfl, Nat.sub_self]
      rfl
    have hlt : k < target := by omega
    rw [numbersFrom_succ, forLoop, hat', Writing.forEach, coveredEach]
    dsimp only
    rw [if_pos hlt]
    refine (hbody k offset out s hvars hat).bind ?_
    rintro s' p - ⟨hvars', hp⟩
    have hrest := ih (k + 1) p.2 (out ++ p.1)
      { s' with vars := s'.vars.modify vars.length fun v => { v with number := v.number + 1 } }
      (by omega) (by rw [hvars', hvars, modify_length_append]) hp
    refine hrest.map_right ?_
    rintro s'' q ⟨j, hq⟩
    exact ⟨j, hq.append⟩

/-- `offset` moves the adjusted words to the number that its value denotes. -/
theorem conforms_offset {chain : String → PolicyUserdata → Except PolicyStop PolicyUserdata}
    {dchain : String → Writing} {covered : String → Word → Prop} (value : PolicyValue)
    (hvars : Binds s.vars env) (hat : s.userdata.At bin offset out) :
    Conforms ((PolicyInstruction.offset value).Covered bin dchain covered env offset)
      (LeftAt bin out s.vars) (instructionExecute chain (.offset value) s)
      ((PolicyInstruction.offset value).denote bin dchain env offset) := by
  have hdenote : (PolicyInstruction.offset value).denote bin dchain env offset =
      (value.denote bin offset env).bind fun m =>
        match m with
        | .number n => some ([], BitVec.ofInt 16 n)
        | .words _ => none := by
    rw [PolicyInstruction.denote]
    dsimp only
    rcases value.denote bin offset env with - | n | ws <;> rfl
  rw [instructionExecute, hdenote, PolicyInstruction.Covered]
  refine (conforms_valueEvaluate hat hvars value).bind ?_
  rintro result m - ⟨rfl, -⟩
  cases result with
  | number n =>
    refine ((conforms_policyOffset hat n).map_left fun u p hp => ?_).congr ?_
    · exact ⟨rfl, hp⟩
    · exact ⟨fun h n _ => h, fun h => h n rfl⟩
  | list results =>
    refine Conforms.stops fun n hn => ?_
    cases hn

/-- `write` writes the words of a value. -/
theorem conforms_write {chain : String → PolicyUserdata → Except PolicyStop PolicyUserdata}
    {dchain : String → Writing} {covered : String → Word → Prop} (value : PolicyValue)
    (hvars : Binds s.vars env) (hat : s.userdata.At bin offset out) :
    Conforms ((PolicyInstruction.write value).Covered bin dchain covered env offset)
      (LeftAt bin out s.vars) (instructionExecute chain (.write value) s)
      ((PolicyInstruction.write value).denote bin dchain env offset) := by
  have hdenote : (PolicyInstruction.write value).denote bin dchain env offset =
      (value.denote bin offset env).bind fun m => some (m.toWords, offset) := by
    rw [PolicyInstruction.denote]
    dsimp only
    cases value.denote bin offset env <;> rfl
  rw [instructionExecute, hdenote, PolicyInstruction.Covered]
  refine (conforms_valueEvaluate hat hvars value).bind ?_
  rintro result m - ⟨rfl, hplain⟩
  refine (((conforms_written result).map_right (g := fun ws => (ws, offset)) ?_).map_left
    (R := fun ws p => p = (ws, offset)) ?_).congr hplain
  · rintro ws _ rfl
    rfl
  · rintro ws _ rfl
    exact ⟨rfl, hat.policyWrite ws⟩

/-- What a loop denotes, with its bounds read one after the other. -/
theorem denote_loop (dchain : String → Writing) (x : String) (start stop : PolicyValue)
    (body : List PolicyInstruction) (hx : env x = none) :
    (PolicyInstruction.loop x start stop body).denote bin dchain env offset =
      (start.denote bin offset env).bind fun i => (stop.denote bin offset env).bind fun j =>
        match i, j with
        | .number i, .number j =>
          Writing.forEach
            (fun k => PolicyInstruction.denoteAll bin dchain body (Function.update env x (some k)))
            (numbersFrom i (j - i).toNat) offset
        | _, _ => none := by
  rw [PolicyInstruction.denote]
  dsimp only
  rw [hx]
  rcases start.denote bin offset env with - | i | ws <;>
    rcases stop.denote bin offset env with - | j | ws' <;> rfl

/-- A loop writes what it denotes, if its body does. -/
theorem conforms_loop {chain : String → PolicyUserdata → Except PolicyStop PolicyUserdata}
    {dchain : String → Writing} {covered : String → Word → Prop} (x : String)
    (start stop : PolicyValue) {body : List PolicyInstruction}
    (hbody : ∀ env offset out s, Binds s.vars env → s.userdata.At bin offset out →
      Conforms (PolicyInstruction.CoveredAll bin dchain covered body env offset)
        (LeftAt bin out s.vars) (instructionsExecute chain body s)
        (PolicyInstruction.denoteAll bin dchain body env offset))
    (hvars : Binds s.vars env) (hat : s.userdata.At bin offset out) :
    Conforms ((PolicyInstruction.loop x start stop body).Covered bin dchain covered env offset)
      (LeftAt bin out s.vars) (instructionExecute chain (.loop x start stop body) s)
      ((PolicyInstruction.loop x start stop body).denote bin dchain env offset) := by
  have hany := hvars.any_eq_false x
  cases hx : env x with
  | some k =>
    have hbound : s.vars.any (·.name = x) = true := by
      rw [← Bool.not_eq_false, hany, hx]
      exact Option.some_ne_none k
    rw [instructionExecute, PolicyInstruction.denote, PolicyInstruction.Covered, hx]
    dsimp only
    rw [if_pos hbound]
    refine Conforms.stops fun h => ?_
    cases h
  | none =>
    rw [instructionExecute, denote_loop dchain x start stop body hx, PolicyInstruction.Covered, hx]
    dsimp only
    rw [if_neg (by rw [hany.mpr hx]; exact Bool.false_ne_true)]
    refine Conforms.congr ((conforms_valueEvaluate hat hvars start).bind ?_)
      (Iff.symm (imp_iff_right rfl))
    rintro first i - ⟨rfl, -⟩
    refine (conforms_valueEvaluate hat hvars stop).bind ?_
    rintro last j - ⟨rfl, -⟩
    cases last with
    | list results =>
      cases first <;>
      · refine Conforms.stops fun i j hi hj => ?_
        cases hj
    | number target =>
      cases first with
      | list results =>
        refine Conforms.stops fun i j hi hj => ?_
        cases hi
      | number k =>
        have hloop := conforms_forLoop s.vars x target
          (fun k offset out s' hvars' hat' => hbody (Function.update env x (some k)) offset out s'
            (by rw [hvars']; exact hvars.append hx k) hat')
          (target - k).toNat k offset out { s with vars := s.vars ++ [⟨x, k⟩] } rfl rfl hat
        refine (hloop.map_left (T := LeftAt bin out s.vars) ?_).congr ?_
        · -- the variable is unbound again
          rintro s' p ⟨j, hvars', hp⟩
          refine ⟨?_, hp⟩
          dsimp only
          rw [hvars', List.eraseIdx_append_of_length_le le_rfl, Nat.sub_self]
          exact List.append_nil _
        · constructor
          · rintro h i j hi hj
            cases hi
            cases hj
            exact h
          · intro h
            exact h k target rfl rfl

mutual

/-- **An instruction writes what it denotes**, if the policies that it chains into do, unless
something is met that the interpreter gets wrong. -/
theorem conforms_instructionExecute
    {chain : String → PolicyUserdata → Except PolicyStop PolicyUserdata}
    {dchain : String → Writing} {covered : String → Word → Prop} :
    (inst : PolicyInstruction) → (∀ name ∈ inst.chains, ∀ offset out u, u.At bin offset out →
      Conforms (covered name offset) (fun u' p => u'.At bin p.2 (out ++ p.1)) (chain name u)
        (dchain name offset)) →
    ∀ env offset out s, Binds s.vars env → s.userdata.At bin offset out →
      Conforms (inst.Covered bin dchain covered env offset) (LeftAt bin out s.vars)
        (instructionExecute chain inst s) (inst.denote bin dchain env offset)
  | .chain name, hchain => by
    intro env offset out s hvars hat
    rw [instructionExecute, PolicyInstruction.denote, PolicyInstruction.Covered]
    refine (hchain name List.mem_cons_self offset out s.userdata hat).map_left fun u p hp => ?_
    exact ⟨rfl, hp⟩
  | .offset value, _ => fun _ _ _ _ hvars hat => conforms_offset value hvars hat
  | .write value, _ => fun _ _ _ _ hvars hat => conforms_write value hvars hat
  | .loop x start stop body, hchain => fun _ _ _ _ hvars hat =>
    conforms_loop x start stop (conforms_instructionsExecute body hchain) hvars hat

theorem conforms_instructionsExecute
    {chain : String → PolicyUserdata → Except PolicyStop PolicyUserdata}
    {dchain : String → Writing} {covered : String → Word → Prop} :
    (instructions : List PolicyInstruction) →
    (∀ name ∈ PolicyInstruction.chainsAll instructions, ∀ offset out u, u.At bin offset out →
      Conforms (covered name offset) (fun u' p => u'.At bin p.2 (out ++ p.1)) (chain name u)
        (dchain name offset)) →
    ∀ env offset out s, Binds s.vars env → s.userdata.At bin offset out →
      Conforms (PolicyInstruction.CoveredAll bin dchain covered instructions env offset)
        (LeftAt bin out s.vars) (instructionsExecute chain instructions s)
        (PolicyInstruction.denoteAll bin dchain instructions env offset)
  | [], _ => by
    intro env offset out s hvars hat
    refine Conforms.ok ⟨rfl, ?_⟩
    rw [List.append_nil]
    exact hat
  | inst :: instructions, hchain => by
    intro env offset out s hvars hat
    rw [instructionsExecute, PolicyInstruction.denoteAll, PolicyInstruction.CoveredAll]
    refine (conforms_instructionExecute inst
      (fun name hmem => hchain name (List.mem_append_left _ hmem))
      env offset out s hvars hat).bind ?_
    rintro s' p - ⟨hvars', hat'⟩
    have hrest := conforms_instructionsExecute instructions
      (fun name hmem => hchain name (List.mem_append_right _ hmem)) env p.2 (out ++ p.1) s'
      (by rw [hvars']; exact hvars) hat'
    rw [hvars'] at hrest
    exact hrest.map_right fun s'' q hq => hq.append

end

end Execute

/-! ### Chains -/

/-- A policy of a program chains into another. -/
def ChainsTo (policies : List Policy) (p q : Policy) : Prop :=
  p ∈ policies ∧ ∃ name ∈ PolicyInstruction.chainsAll p.instructions,
    policiesGetPolicy policies name = some q

/-- No policy chains into itself, also not through others. -/
def NonRecursive (policies : List Policy) : Prop :=
  ∀ p, ¬Relation.TransGen (ChainsTo policies) p p

/-- How many policies a policy chains into, also through others. -/
noncomputable def chainRank (policies : List Policy) (p : Policy) : ℕ :=
  {q | Relation.TransGen (ChainsTo policies) p q}.ncard

section Chains

variable {policies : List Policy} {p q : Policy}

theorem mem_of_chainsTo (h : ChainsTo policies p q) : q ∈ policies := by
  obtain ⟨-, name, -, hq⟩ := h
  exact List.mem_of_find?_eq_some hq

theorem chained_subset :
    {q | Relation.TransGen (ChainsTo policies) p q} ⊆ {q | q ∈ policies} := by
  rintro q (h : Relation.TransGen (ChainsTo policies) p q)
  obtain ⟨r, -, hr⟩ := Relation.TransGen.tail'_iff.mp h
  exact mem_of_chainsTo hr

theorem finite_chained : {q | Relation.TransGen (ChainsTo policies) p q}.Finite :=
  (List.finite_toSet policies).subset chained_subset

theorem chainRank_le : chainRank policies p ≤ policies.length := by
  classical
  refine (Set.ncard_le_ncard chained_subset (List.finite_toSet policies)).trans ?_
  rw [← List.coe_toFinset, Set.ncard_coe_finset]
  exact List.toFinset_card_le policies

/-- A policy that is chained into chains into fewer. -/
theorem chainRank_lt (hrec : NonRecursive policies) (h : ChainsTo policies p q) :
    chainRank policies q < chainRank policies p := by
  refine Set.ncard_lt_ncard ⟨fun r hr => ?_, fun hsub => ?_⟩ finite_chained
  · exact Relation.TransGen.head h hr
  · exact hrec q (hsub (Relation.TransGen.single h))

end Chains

mutual

/-- Only the policies that an instruction chains into matter for what it denotes. -/
theorem PolicyInstruction.denote_congr {bin : LdBin} {chain chain' : String → Writing} :
    (inst : PolicyInstruction) → (∀ name ∈ inst.chains, chain name = chain' name) →
      inst.denote bin chain = inst.denote bin chain'
  | .write value, _ => rfl
  | .offset value, _ => rfl
  | .chain name, h => by
    funext env
    rw [PolicyInstruction.denote, PolicyInstruction.denote, h name List.mem_cons_self]
  | .loop x start stop body, h => by
    funext env
    rw [PolicyInstruction.denote, PolicyInstruction.denote,
      PolicyInstruction.denoteAll_congr body h]

theorem PolicyInstruction.denoteAll_congr {bin : LdBin} {chain chain' : String → Writing} :
    (instructions : List PolicyInstruction) →
      (∀ name ∈ PolicyInstruction.chainsAll instructions, chain name = chain' name) →
      PolicyInstruction.denoteAll bin chain instructions =
        PolicyInstruction.denoteAll bin chain' instructions
  | [], _ => rfl
  | inst :: instructions, h => by
    funext env
    rw [PolicyInstruction.denoteAll, PolicyInstruction.denoteAll,
      PolicyInstruction.denote_congr inst fun name hmem => h name (List.mem_append_left _ hmem),
      PolicyInstruction.denoteAll_congr instructions fun name hmem =>
        h name (List.mem_append_right _ hmem)]

end

theorem denoteChain_of_none {bin : LdBin} {policies : List Policy} {name : String}
    (h : policiesGetPolicy policies name = none) (depth : ℕ) :
    denoteChain bin policies depth name = fun _ => none := by
  funext offset
  cases depth with
  | zero => rfl
  | succ depth =>
    rw [denoteChain]
    dsimp only
    rw [h, Option.bind_none]

theorem denoteChain_of_some {bin : LdBin} {policies : List Policy} {name : String} {q : Policy}
    (h : policiesGetPolicy policies name = some q) (depth : ℕ) :
    denoteChain bin policies (depth + 1) name =
      PolicyInstruction.denoteAll bin (denoteChain bin policies depth) q.instructions
        fun _ => none := by
  funext offset
  rw [denoteChain]
  dsimp only
  rw [h, Option.bind_some]

/-- What a policy denotes that is chained into does not depend on the depth, if that is enough for
what it chains into itself. -/
theorem denoteChain_congr {bin : LdBin} {policies : List Policy} (hrec : NonRecursive policies) :
    ∀ (depth depth' : ℕ) (name : String),
      (∀ q, policiesGetPolicy policies name = some q →
        chainRank policies q < depth ∧ chainRank policies q < depth') →
      denoteChain bin policies depth name = denoteChain bin policies depth' name := by
  intro depth
  induction depth with
  | zero =>
    intro depth' name hrank
    have hnone : policiesGetPolicy policies name = none := by
      by_contra hsome
      obtain ⟨q, hq⟩ := Option.ne_none_iff_exists'.mp hsome
      exact absurd (hrank q hq).1 (Nat.not_lt_zero _)
    rw [denoteChain_of_none hnone, denoteChain_of_none hnone]
  | succ depth ih =>
    intro depth' name hrank
    cases hq : policiesGetPolicy policies name with
    | none => rw [denoteChain_of_none hq, denoteChain_of_none hq]
    | some q =>
      have hlt := hrank q hq
      obtain ⟨depth', rfl⟩ := Nat.exists_eq_succ_of_ne_zero (Nat.ne_zero_of_lt hlt.2)
      rw [denoteChain_of_some hq, denoteChain_of_some hq,
        PolicyInstruction.denoteAll_congr q.instructions fun name' hname' =>
          ih depth' name' fun r hr => ?_]
      have hsucc := chainRank_lt hrec ⟨List.mem_of_find?_eq_some hq, name', hname', hr⟩
      omega

/-- **A policy that is chained into writes what it denotes**, deep enough. -/
theorem conforms_chainExecute {bin : LdBin} {policies : List Policy}
    (hrec : NonRecursive policies) :
    ∀ (depth : ℕ) (name : String), 0 < depth →
      (∀ q, policiesGetPolicy policies name = some q → chainRank policies q + 1 < depth) →
      ∀ offset out u, u.At bin offset out →
        Conforms (coveredChain bin policies depth name offset)
          (fun u' p => u'.At bin p.2 (out ++ p.1))
          (chainExecute policies depth name u) (denoteChain bin policies depth name offset) := by
  intro depth
  induction depth with
  | zero => exact fun name h => absurd h (Nat.lt_irrefl 0)
  | succ depth ih =>
    intro name _ hrank offset out u hu
    rw [chainExecute, denoteChain, coveredChain]
    cases hq : policiesGetPolicy policies name with
    | none =>
      refine Conforms.stops fun q h => ?_
      cases h
    | some q =>
      have hlt := hrank q hq
      have hmem : q ∈ policies := List.mem_of_find?_eq_some hq
      have hexecute := conforms_instructionsExecute q.instructions
        (fun name' hname' => ih name' (by omega) fun r hr => ?_)
        (fun _ => none) offset out ⟨[], u⟩ (fun _ => rfl) hu
      · refine (hexecute.map_left fun s p hp => hp.2).congr ?_
        constructor
        · rintro h q' hq'
          cases hq'
          exact h
        · exact fun h => h q rfl
      · have hsucc := chainRank_lt hrec ⟨hmem, name', hname', hr⟩
        omega

/-- **A policy writes the words that it denotes**, or stops with an error where it denotes none, if
and only if nothing is met that the interpreter gets wrong. -/
theorem policyExecute_matches_iff (policies : List Policy) (hrec : NonRecursive policies)
    (policy : Policy) (hmem : policy ∈ policies) (bin : LdBin) :
    Matches (· = ·) (policyExecute policies policy bin) (policy.denote policies bin) ↔
      policy.Covered policies bin := by
  have hoffset : offsetWords bin 0 = bin.words := by
    unfold offsetWords
    refine List.ext_getElem List.length_mapIdx fun i hi hi' => ?_
    rw [List.getElem_mapIdx]
    ring
  have hstart : PolicyUserdata.At bin 0 [] ⟨bin, binCreate "output_applied".toList, 0⟩ :=
    ⟨by rw [hoffset], rfl, rfl⟩
  have hexecute := conforms_instructionsExecute policy.instructions
    (fun name hname => conforms_chainExecute hrec (policies.length + 1) name (Nat.succ_pos _)
      fun q hq => ?_)
    (fun _ => none) 0 [] ⟨[], ⟨bin, binCreate "output_applied".toList, 0⟩⟩ (fun _ => rfl) hstart
  · have hwords := hexecute.map_right (T := fun s ws => s.userdata.outputBin.words = ws)
      fun s p hp => hp.2.outputBin
    exact (hwords.map_left fun s ws h => h).matches_iff
  · have hlt := chainRank_lt hrec ⟨hmem, name, hname, hq⟩
    have hle := @chainRank_le policies policy
    omega

/-! ### The policies of a kernel -/

/-- A program does not recurse, if its policies chain only into ones of lower rank. -/
theorem nonRecursive_of_rank {policies : List Policy} (rank : Policy → ℕ)
    (h : ∀ p q, ChainsTo policies p q → rank q < rank p) : NonRecursive policies := by
  intro p hp
  have hlt : ∀ q, Relation.TransGen (ChainsTo policies) p q → rank q < rank p := by
    intro q hq
    induction hq with
    | single hq => exact h _ _ hq
    | tail _ hq ih => exact (h _ _ hq).trans ih
  exact Nat.lt_irrefl _ (hlt p hp)

/-- `image-direct` of the stub kernel. -/
def stubsysImageDirect : Policy := ⟨"image-direct", [.write .code]⟩

/-- `image` of the stub kernel. -/
def stubsysImage : Policy := ⟨"image", [.offset (.number 0x1000), .chain "image-direct"]⟩

theorem policyExecute_matches_iff_stubsysImage :
    Matches (· = ·)
      (policyExecute [stubsysImage, stubsysImageDirect] stubsysImage (binCreate []))
      (stubsysImage.denote [stubsysImage, stubsysImageDirect] (binCreate [])) ↔
    stubsysImage.Covered [stubsysImage, stubsysImageDirect] (binCreate []) := by
  refine policyExecute_matches_iff _ ?_ _ List.mem_cons_self _
  refine nonRecursive_of_rank (fun p => p.instructions.length) ?_
  rintro p q ⟨hp, name, hname, hq⟩
  rcases List.mem_pair.mp hp with rfl | rfl
  · obtain rfl : name = "image-direct" := List.mem_singleton.mp hname
    obtain rfl : stubsysImageDirect = q := Option.some.inj hq
    exact Nat.lt_succ_self 1
  · cases hname

/-- `write field(adjustment, 0, address)`. -/
def firstAdjustment : Policy := ⟨"first", [.write (.field .adjustment (.number 0) .address)]⟩

/-- There is no adjustment in an empty bin, and so nothing is written for the first one. The
interpreter follows a null pointer. -/
theorem not_forall_policyExecute_matches :
    ¬∀ policies : List Policy, NonRecursive policies → ∀ policy ∈ policies, ∀ bin : LdBin,
      Matches (· = ·) (policyExecute policies policy bin) (policy.denote policies bin) := by
  intro h
  have hmatches := h [firstAdjustment] ?_ firstAdjustment List.mem_cons_self (binCreate [])
  · have hexecute : policyExecute [firstAdjustment] firstAdjustment (binCreate []) =
        .error .nullPointer := rfl
    have hdenote : firstAdjustment.denote [firstAdjustment] (binCreate []) = some [] := rfl
    rw [hexecute, hdenote] at hmatches
    exact hmatches
  · refine nonRecursive_of_rank (fun _ => 0) ?_
    rintro p q ⟨hp, name, hname, -⟩
    obtain rfl := List.mem_singleton.mp hp
    cases hname

end DcpuToolchain
