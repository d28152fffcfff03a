import Mathlib.Logic.Relation

/-!
# Simulations

Two machines are related state by state. Where each step of the first is some steps of the
second, from related states to related states (`DcpuToolchain.Simulates`), so is each run, and
the relations of several levels compose.
-/

namespace DcpuToolchain

open Relation

variable {α β γ : Type*} {R : α → β → Prop} {S : β → γ → Prop}
variable {step : α → α → Prop} {step' : β → β → Prop} {step'' : γ → γ → Prop}

/-- Every step from related states is a run to related states. -/
def Simulates (R : α → β → Prop) (step : α → α → Prop) (step' : β → β → Prop) : Prop :=
  ∀ ⦃a a' b⦄, R a b → step a a' → ∃ b', ReflTransGen step' b b' ∧ R a' b'

namespace Simulates

/-- **Every run from related states is a run to related states.** -/
theorem run (h : Simulates R step step') {a a' : α} {b : β} (hab : R a b)
    (hrun : ReflTransGen step a a') : ∃ b', ReflTransGen step' b b' ∧ R a' b' := by
  induction hrun with
  | refl => exact ⟨b, .refl, hab⟩
  | tail _ hstep ih =>
    obtain ⟨b₁, hrun₁, hrelated₁⟩ := ih
    obtain ⟨b₂, hrun₂, hrelated₂⟩ := h hrelated₁ hstep
    exact ⟨b₂, hrun₁.trans hrun₂, hrelated₂⟩

/-- **Levels compose.** -/
theorem comp (h : Simulates R step step') (h' : Simulates S step' step'') :
    Simulates (Relation.Comp R S) step step'' := by
  rintro a a' c ⟨b, hab, hbc⟩ hstep
  obtain ⟨b', hrun, hab'⟩ := h hab hstep
  obtain ⟨c', hrun', hbc'⟩ := h'.run hbc hrun
  exact ⟨c', hrun', b', hab', hbc'⟩

end Simulates

end DcpuToolchain
