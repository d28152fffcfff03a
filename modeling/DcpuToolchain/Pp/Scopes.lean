import DcpuToolchain.Pp.State

/-!
# What a scope leaves behind

Everything that is registered in a scope is removed when the scope is popped, and
everything that was displaced is restored. A handler that was registered in the scope and
then displaced in it is on both sides, and it is restored.

`DcpuToolchain.Calls` are the calls that are made between a push and its pop. What a scope
leaves behind is computed name by name (`DcpuToolchain.Calls.kept`), and it is nothing
exactly where no name is registered twice in one scope, unless an enclosing scope makes up
for it (`DcpuToolchain.popScope_perm_iff`).
-/

namespace DcpuToolchain

variable {Λ : Type}

/-- Calls of `ppimpl_register` and properly nested scopes. -/
inductive Calls
  | nil
  | register (m : Match) (rest : Calls)
  | scope (active : Bool) (inner rest : Calls)

namespace Calls

/-- Making the calls. -/
def run : Calls → PpState Λ → PpState Λ
  | nil, s => s
  | register m rest, s => rest.run (s.register m)
  | scope active inner rest, s => rest.run (inner.run (s.pushScope active)).popScope

/-- Whether a name is registered, outside the nested scopes. -/
def registers (name : Bstring) : Calls → Bool
  | nil => false
  | register m rest => m.text = name || rest.registers name
  | scope _ _ rest => rest.registers name

/-- **No handler of a name is left behind**: the name is registered at most once in a scope,
and what is within a nested scope is so too, if it comes before that. -/
def Tidy (name : Bstring) : Calls → Prop
  | nil => True
  | register m rest =>
    if m.text = name then rest.registers name = false else rest.Tidy name
  | scope _ inner rest => inner.Tidy name ∧ rest.Tidy name

/-- The handlers of a name that are left behind. -/
def kept (name : Bstring) : Calls → List Match
  | nil => []
  | register m rest =>
    if m.text = name then if rest.registers name then m :: rest.kept name else []
    else rest.kept name
  | scope _ inner rest => inner.kept name ++ rest.kept name

variable {name : Bstring} {calls : Calls}

theorem kept_eq_nil_iff : calls.kept name = [] ↔ calls.Tidy name := by
  induction calls with
  | nil => simp [kept, Tidy]
  | register m rest ih =>
    rw [kept, Tidy]
    by_cases h : m.text = name
    · rw [if_pos h, if_pos h]
      cases rest.registers name <;> simp
    · rw [if_neg h, if_neg h, ih]
  | scope active inner rest ih₁ ih₂ =>
    rw [kept, Tidy, List.append_eq_nil_iff, ih₁, ih₂]

end Calls

/-! ### Name by name -/

/-- The handlers of a name. -/
def named (name : Bstring) (l : List Match) : List Match := l.filter (·.text = name)

variable {name : Bstring}

theorem named_append (l l' : List Match) : named name (l ++ l') = named name l ++ named name l' :=
  List.filter_append _ _

theorem named_filter_ne {text : Bstring} (l : List Match) (h : text ≠ name) :
    named name (l.filter (·.text ≠ text)) = named name l := by
  rw [named, named, List.filter_filter]
  refine List.filter_congr fun m _ => ?_
  by_cases hm : m.text = name
  · simp [hm, h.symm]
  · simp [hm]

theorem named_filter_eq {text : Bstring} (l : List Match) (h : text ≠ name) :
    named name (l.filter (·.text = text)) = [] := by
  rw [named, List.filter_filter, List.filter_eq_nil_iff]
  rintro m - hm
  simp only [Bool.and_eq_true, decide_eq_true_eq] at hm
  exact h (hm.2.symm.trans hm.1)

theorem named_filter_notMem {names : List Bstring} (l : List Match) :
    named name (l.filter (·.text ∉ names)) = if name ∈ names then [] else named name l := by
  rw [named, List.filter_filter]
  split
  · rename_i h
    rw [List.filter_eq_nil_iff]
    rintro m - hm
    simp only [Bool.and_eq_true, decide_eq_true_eq] at hm
    exact hm.2 (hm.1 ▸ h)
  · rename_i h
    refine List.filter_congr fun m _ => ?_
    by_cases hm : m.text = name
    · simp [hm, h]
    · simp [hm]

theorem named_singleton (m : Match) (name : Bstring) :
    named name [m] = if m.text = name then [m] else [] := by
  rw [named, List.filter_cons, List.filter_nil]
  split <;> simp_all

/-- **What a registration does**: the name has the new handler alone, and the handlers that it
displaces go into the scope. -/
theorem register_named (s : PpState Λ) (m : Match) {scope : Scope} {scopes : List Scope}
    (hs : s.scopes = scope :: scopes) :
    ∃ scope', (s.register m).scopes = scope' :: scopes ∧ scope'.active = scope.active ∧
      ∀ name,
        (m.text = name →
          named name (s.register m).handlers = [m] ∧
            named name scope'.oldHandlers =
              named name scope.oldHandlers ++ named name s.handlers ∧
            name ∈ scope'.newHandlers) ∧
        (m.text ≠ name →
          named name (s.register m).handlers = named name s.handlers ∧
            named name scope'.oldHandlers = named name scope.oldHandlers ∧
            (name ∈ scope'.newHandlers ↔ name ∈ scope.newHandlers)) := by
  rw [PpState.register, hs]
  refine ⟨_, rfl, rfl, fun name => ⟨?_, fun hm => ?_⟩⟩
  · rintro rfl
    refine ⟨?_, ?_, List.mem_append_right _ (List.mem_singleton.mpr rfl)⟩
    · rw [named_append, named_singleton, if_pos rfl, named, List.filter_filter,
        List.filter_eq_nil_iff.mpr (by simp), List.nil_append]
    · rw [named_append, named, named, named, List.filter_filter]
      exact congrArg _ (List.filter_congr fun m _ => by simp)
  · refine ⟨?_, ?_, ?_⟩
    · rw [named_append, named_filter_ne _ hm, named_singleton, if_neg hm, List.append_nil]
    · rw [named_append, named_filter_eq _ hm, List.append_nil]
    · rw [List.mem_append, List.mem_singleton]
      exact ⟨fun h => h.resolve_right (Ne.symm hm), .inl⟩

/-- A list of handlers is known up to order from those of each name. -/
theorem perm_of_named {l l' : List Match} (h : ∀ name, (named name l).Perm (named name l')) :
    l.Perm l' := by
  rw [List.perm_iff_count]
  intro m
  have hcount := (h m.text).count_eq m
  rwa [named, named, List.count_filter (by simp), List.count_filter (by simp)] at hcount

/-! ### What the calls do -/

/-- **What calls do within a scope**: nested scopes leave behind what they leave behind, and
what a registration displaces goes into the scope. -/
theorem Calls.run_spec (calls : Calls) (s : PpState Λ) (scope : Scope) (scopes : List Scope)
    (hs : s.scopes = scope :: scopes) :
    ∃ scope', (calls.run s).scopes = scope' :: scopes ∧
      ∀ name,
        (calls.registers name = false →
          (named name (calls.run s).handlers).Perm (named name s.handlers ++ calls.kept name) ∧
            named name scope'.oldHandlers = named name scope.oldHandlers ∧
            (name ∈ scope'.newHandlers ↔ name ∈ scope.newHandlers)) ∧
        (calls.registers name = true →
          (named name scope'.oldHandlers).Perm
              (named name scope.oldHandlers ++ named name s.handlers ++ calls.kept name) ∧
            name ∈ scope'.newHandlers) := by
  induction calls generalizing s scope scopes with
  | nil =>
    exact ⟨scope, hs, fun name =>
      ⟨fun _ => ⟨by simp [run, kept], rfl, .rfl⟩, by simp [registers]⟩⟩
  | register m rest ih =>
    obtain ⟨scope₁, hs₁, -, hnamed⟩ := register_named s m hs
    obtain ⟨scope', hs', hrest⟩ := ih (s.register m) scope₁ scopes hs₁
    refine ⟨scope', hs', fun name => ?_⟩
    obtain ⟨hsame, hother⟩ := hnamed name
    obtain ⟨h1, h2⟩ := hrest name
    rw [run]
    by_cases hm : m.text = name
    · -- the name is registered here: the rest runs with one handler of the name
      obtain ⟨hhandlers, hold, hnew⟩ := hsame hm
      rw [hold] at h1 h2
      rw [hhandlers] at h2
      rw [registers, decide_eq_true hm, Bool.true_or, kept, if_pos hm]
      refine ⟨by simp, fun _ => ?_⟩
      rcases hr : rest.registers name with - | -
      · obtain ⟨-, ho, hn⟩ := h1 hr
        rw [if_neg (by simp), List.append_nil]
        exact ⟨List.Perm.of_eq ho, hn.mpr hnew⟩
      · obtain ⟨ho, hn⟩ := h2 hr
        rw [if_pos rfl]
        refine ⟨ho.trans (List.Perm.of_eq ?_), hn⟩
        rw [List.append_assoc _ [m], List.singleton_append]
    · obtain ⟨hhandlers, hold, hnew⟩ := hother hm
      rw [hhandlers, hold] at h1 h2
      rw [registers, decide_eq_false hm, Bool.false_or, kept, if_neg hm]
      refine ⟨fun hr => ?_, h2⟩
      obtain ⟨hh, ho, hn⟩ := h1 hr
      exact ⟨hh, ho, hn.trans hnew⟩
  | scope active inner rest ih₁ ih₂ =>
    obtain ⟨scope₁, hs₁, hin⟩ := ih₁ (s.pushScope active) _ s.scopes rfl
    set s₁ := inner.run (s.pushScope active) with hs₁'
    have hpop : s₁.popScope.scopes = scope :: scopes := by
      rw [PpState.popScope, hs₁, hs]
    have hhandlers : s₁.popScope.handlers =
        s₁.handlers.filter (·.text ∉ scope₁.newHandlers) ++ scope₁.oldHandlers := by
      rw [PpState.popScope, hs₁]
    have hnamed : ∀ name, (named name s₁.popScope.handlers).Perm
        (named name s.handlers ++ inner.kept name) := fun name => by
      obtain ⟨h1, h2⟩ := hin name
      rw [hhandlers, named_append, named_filter_notMem]
      rcases hr : inner.registers name with - | -
      · obtain ⟨hh, ho, hn⟩ := h1 hr
        rw [if_neg fun h => absurd (hn.mp h) List.not_mem_nil, ho]
        simpa [PpState.pushScope, named] using hh
      · obtain ⟨ho, hn⟩ := h2 hr
        rw [if_pos hn, List.nil_append]
        simpa [PpState.pushScope, named] using ho
    obtain ⟨scope', hs', hrest⟩ := ih₂ s₁.popScope scope scopes hpop
    refine ⟨scope', hs', fun name => ?_⟩
    obtain ⟨h1, h2⟩ := hrest name
    rw [registers, kept]
    refine ⟨fun hr => ?_, fun hr => ?_⟩
    · obtain ⟨hh, ho, hn⟩ := h1 hr
      refine ⟨hh.trans ?_, ho, hn⟩
      rw [← List.append_assoc]
      exact (hnamed name).append_right _
    · obtain ⟨ho, hn⟩ := h2 hr
      refine ⟨ho.trans ?_, hn⟩
      rw [List.append_assoc, List.append_assoc, ← List.append_assoc _ (inner.kept name)]
      exact ((hnamed name).append_right _).append_left _

/-- What a scope leaves behind. -/
theorem named_popScope (calls : Calls) (active : Bool) (s : PpState Λ) (name : Bstring) :
    (named name (calls.run (s.pushScope active)).popScope.handlers).Perm
      (named name s.handlers ++ calls.kept name) := by
  obtain ⟨scope', hs', h⟩ := calls.run_spec (s.pushScope active) _ s.scopes rfl
  obtain ⟨h1, h2⟩ := h name
  rw [PpState.popScope, hs']
  rw [named_append, named_filter_notMem]
  rcases hr : calls.registers name with - | -
  · obtain ⟨hh, ho, hn⟩ := h1 hr
    rw [if_neg fun h => absurd (hn.mp h) List.not_mem_nil, ho]
    simpa [PpState.pushScope, named] using hh
  · obtain ⟨ho, hn⟩ := h2 hr
    rw [if_pos hn, List.nil_append]
    simpa [PpState.pushScope, named] using ho

/-- **The handlers after a scope are those before it** exactly where the calls in it leave
no handler of any name behind. -/
theorem popScope_perm_iff (s : PpState Λ) (active : Bool) (calls : Calls) :
    (calls.run (s.pushScope active)).popScope.handlers.Perm s.handlers ↔
      ∀ name, calls.Tidy name := by
  constructor
  · intro h name
    rw [← Calls.kept_eq_nil_iff, ← List.length_eq_zero_iff]
    have h1 := (named_popScope calls active s name).length_eq
    have h2 := (h.filter (·.text = name)).length_eq
    rw [List.length_append] at h1
    change (named name _).length = (named name _).length at h2
    omega
  · intro h
    refine perm_of_named fun name => (named_popScope calls active s name).trans ?_
    rw [Calls.kept_eq_nil_iff.mpr (h name), List.append_nil]

/-- A parameter of a macro that is named twice. -/
def twiceNamed : Calls :=
  .register ⟨['x'], .replaceHandle ['1'], false, true, false⟩
    (.register ⟨['x'], .replaceHandle ['2'], false, true, false⟩ .nil)

/-- A state without input and without handlers. -/
def emptyState : PpState Unit where
  frame := ⟨[], [], [], 0, 1, [], false, false, 0, none⟩
  parents := []
  handlers := []
  scopes := []
  lexer := ()

/-- A name that is registered twice in a scope outlives it. -/
theorem not_forall_popScope_perm :
    ¬ ∀ (s : PpState Unit) (active : Bool) (calls : Calls),
      (calls.run (s.pushScope active)).popScope.handlers.Perm s.handlers := by
  intro h
  have hlen := (h emptyState true twiceNamed).length_eq
  exact absurd hlen (by decide)

end DcpuToolchain
