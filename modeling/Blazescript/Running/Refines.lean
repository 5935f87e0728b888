/-!
# Refinement of computations

A specification is itself a computation with a state and errors, on states of its own. A computation refines
it if both do the same from related states: they return related results or fail with related errors, and the
states are related again. Some errors of a specification say that nothing is specified.
-/

namespace Running

variable {ε δ σ τ α β : Type}

/-- The result of a computation is as that of its specification says. -/
inductive Agrees (U : δ → Prop) (Q : α → σ → β → τ → Prop) (E : ε → σ → δ → τ → Prop) :
    EStateM.Result ε σ α → EStateM.Result δ τ β → Prop
  | ok {a : α} {s : σ} {b : β} {t : τ} (h : Q a s b t) : Agrees U Q E (.ok a s) (.ok b t)
  | error {e : ε} {s : σ} {d : δ} {t : τ} (h : E e s d t) : Agrees U Q E (.error e s) (.error d t)
  | unspecified {r : EStateM.Result ε σ α} {d : δ} {t : τ} (h : U d) : Agrees U Q E r (.error d t)

/-- From states related by `R` the computation does what the specification says: results are related by `Q`, and
errors by `E`. -/
def Refines (U : δ → Prop) (R : σ → τ → Prop) (x : EStateM ε σ α) (y : EStateM δ τ β)
    (Q : α → σ → β → τ → Prop) (E : ε → σ → δ → τ → Prop) : Prop :=
  ∀ s t, R s t → Agrees U Q E (x s) (y t)

end Running
