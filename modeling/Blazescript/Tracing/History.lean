import Blazescript.Tracing.Recorder

/-!
# Histories

The states that a path goes through.
-/

namespace Tracing

variable {σ ε : Type}

/-- The states of a path from a state, the newest first. -/
def history (s : σ) (t : List (Step σ ε)) : List σ := t.map Step.post ++ [s]

/-- Any two states of a path are related, the older one first. -/
def Ordered (R : σ → σ → Prop) (s : σ) (t : List (Step σ ε)) : Prop :=
  (history s t).Pairwise fun later earlier => R earlier later

end Tracing
