/-!
# What computations keep

A computation with a state and errors keeps an invariant if it returns from a state with the invariant to a
state with it only.
-/

namespace Running

/-- From states with the invariant the computation returns to states with it, and with results of a kind. -/
def Keeps {ε σ α : Type} (I : σ → Prop) (x : EStateM ε σ α) (Q : α → Prop) : Prop :=
  ∀ s a t, I s → x s = .ok a t → I t ∧ Q a

end Running
