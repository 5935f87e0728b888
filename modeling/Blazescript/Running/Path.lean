import Mathlib.Logic.Function.Basic

/-!
# Runs of a deterministic system

A system steps from a state to at most one other.
-/

namespace Running

variable {σ : Type}

/-- From one state the system comes to another, and all states before that have a property. -/
inductive Path (step : σ → Option σ) (P : σ → Prop) : σ → σ → Prop
  | refl (s : σ) : Path step P s s
  | head {s t u : σ} (hs : P s) (h : step s = some t) (hp : Path step P t u) : Path step P s u

/-- The system comes from one state to another. -/
abbrev Reaches (step : σ → Option σ) : σ → σ → Prop := Path step fun _ => True

end Running
