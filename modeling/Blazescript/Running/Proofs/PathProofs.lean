import Blazescript.Running.Path

/-!
# Proofs: runs

Two runs from one state are on one path.
-/

namespace Running

variable {σ : Type} {step : σ → Option σ} {P Q : σ → Prop} {s t u : σ}

theorem Path.trans (h : Path step P s t) (h' : Path step P t u) : Path step P s u := by
  induction h with
  | refl s => exact h'
  | head hs hstep _ ih => exact .head hs hstep (ih h')

theorem Path.single (hs : P s) (h : step s = some t) : Path step P s t := .head hs h (.refl t)

theorem Path.mono (h : Path step P s t) (hPQ : ∀ s, P s → Q s) : Path step Q s t := by
  induction h with
  | refl s => exact .refl s
  | head hs hstep _ ih => exact .head (hPQ _ hs) hstep ih

theorem Path.reaches (h : Path step P s t) : Reaches step s t := h.mono fun _ _ => trivial

/-- A state that the system reaches stands on a path from the same state, or comes after it. -/
theorem Path.split (h : Path step P s t) (hu : Reaches step s u) : P u ∨ Reaches step t u := by
  induction h with
  | refl s => exact .inr hu
  | head hs hstep _ ih =>
    cases hu with
    | refl => exact .inl hs
    | head _ hstep' hu =>
      cases hstep.symm.trans hstep'
      exact ih hu

/-- From a state without a step the system reaches only that. -/
theorem Reaches.of_stuck (h : step s = none) (hu : Reaches step s u) : u = s := by
  cases hu with
  | refl => rfl
  | head _ hstep _ => cases h.symm.trans hstep

/-- A run ends in one state only. -/
theorem Reaches.unique (h : Reaches step s t) (ht : step t = none) (h' : Reaches step s u) (hu : step u = none) :
    t = u := by
  induction h with
  | refl s => exact (h'.of_stuck ht).symm
  | head _ hstep _ ih =>
    cases h' with
    | refl => cases hu.symm.trans hstep
    | head _ hstep' h' =>
      cases hstep.symm.trans hstep'
      exact ih ht h'

/-- The first state without a property is the only one. -/
theorem Path.first_unique (h : Path step P s t) (ht : ¬ P t) (h' : Path step P s u) (hu : ¬ P u) : t = u := by
  induction h with
  | refl s =>
    cases h' with
    | refl => rfl
    | head hs _ _ => exact absurd hs ht
  | head hs hstep _ ih =>
    cases h' with
    | refl => exact absurd hs hu
    | head _ hstep' h' =>
      cases hstep.symm.trans hstep'
      exact ih ht h'

end Running
