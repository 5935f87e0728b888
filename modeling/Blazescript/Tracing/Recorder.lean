/-!
# Programs that record their steps

A program of `Recorder` works on a state and writes down every change it makes to it: an event, with
the states before and after. `Path` says what recorded steps are: each allowed by a transition
relation and starting where the one before ended. `Follows` says of a program that the steps it
records are a path, from states with one property to results and states with another, and `Returns`
that it comes to a result.
-/

namespace Tracing

/-- A recorded step. -/
structure Step (σ ε : Type) where
  event : ε
  pre : σ
  post : σ

/-- A state with the steps that led to it, the newest first. -/
structure World (σ ε : Type) where
  state : σ
  trace : List (Step σ ε)

variable {σ ε err α β : Type}

abbrev Recorder (σ ε err α : Type) := EStateM err (World σ ε) α

namespace Recorder

/-- Reads the state. -/
def read (f : σ → α) : Recorder σ ε err α := fun w => .ok (f w.state) w

/-- Reads what the state may lack. -/
def readOrThrow (e : err) (f : σ → Option α) : Recorder σ ε err α := fun w =>
  match f w.state with
  | some a => .ok a w
  | none => .error e w

/-- Changes the state and records the step. -/
def perform (e : err) (f : σ → Option (α × ε × σ)) : Recorder σ ε err α := fun w =>
  match f w.state with
  | some (a, event, s) => .ok a ⟨s, ⟨event, w.state, s⟩ :: w.trace⟩
  | none => .error e w

end Recorder

/-- The steps of a trace lead from one state to another, each by a transition. -/
inductive Path (T : σ → ε → σ → Prop) : σ → List (Step σ ε) → σ → Prop
  | nil (s : σ) : Path T s [] s
  | cons {s s' s'' : σ} {t : List (Step σ ε)} {event : ε} (h : Path T s t s')
      (ht : T s' event s'') : Path T s (⟨event, s', s''⟩ :: t) s''

/-- From a state with `P`, the program extends the trace by a path of `T`; if it returns, the result
and the state have `Q`. -/
def Follows (T : σ → ε → σ → Prop) (P : σ → Prop) (x : Recorder σ ε err α) (Q : α → σ → Prop) :
    Prop :=
  ∀ w, P w.state → match x w with
    | .ok a w' => (∃ t, w'.trace = t ++ w.trace ∧ Path T w.state t w'.state) ∧ Q a w'.state
    | .error _ w' => ∃ t, w'.trace = t ++ w.trace ∧ Path T w.state t w'.state

/-- From a state the program returns, whatever has been recorded before, and the result and the state have a
property. -/
def Returns (x : Recorder σ ε err α) (s : σ) (Q : α → σ → Prop) : Prop :=
  ∀ trace, ∃ a w, x ⟨s, trace⟩ = .ok a w ∧ Q a w.state

end Tracing
