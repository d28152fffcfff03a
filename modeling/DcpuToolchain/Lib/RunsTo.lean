import Mathlib.Logic.Basic

/-!
# Running up to a state

A machine is a function to the next state, if there is one. `DcpuToolchain.RunsTo` relates a
state to the first one, on from it, that is as one wants it.
-/

namespace DcpuToolchain

variable {σ : Type*} {step : σ → Option σ} {p : σ → Prop} {s t u : σ}

/-- The first state from `s` on of which `p` holds is `t`. -/
inductive RunsTo (step : σ → Option σ) (p : σ → Prop) : σ → σ → Prop
  | here {s : σ} (hs : p s) : RunsTo step p s s
  | next {s t u : σ} (hs : ¬ p s) (hstep : step s = some t) (ht : RunsTo step p t u) :
    RunsTo step p s u

namespace RunsTo

/-- There is one such state at most. -/
theorem unique (ht : RunsTo step p s t) (hu : RunsTo step p s u) : t = u := by
  induction ht with
  | here hs =>
    cases hu with
    | here _ => rfl
    | next hn _ _ => exact absurd hs hn
  | next hn hstep _ ih =>
    cases hu with
    | here hs => exact absurd hs hn
    | next _ hstep' hu =>
      rw [hstep] at hstep'
      cases hstep'
      exact ih hu

end RunsTo

end DcpuToolchain
