import Blazescript.Eval.Bindings

/-!
# Activations

The functions that are running, and what it means that they do not disturb each other.
-/

namespace Blaze

open Arena Environment Tracing

/-- The functions that the code of some frames is running, each with the scope it was activated in. -/
def activations (stack : List Frame) : List (Nat × Nat) :=
  stack.filterMap fun frame => frame.locals.activation

namespace Machine

/-- The functions that are running, the innermost first. -/
def running (m : Machine) : List (Nat × Nat) := activations m.stack

/-- The pointer of the innermost call still leads to the function that the call is running. -/
def HoldsCallee (m : Machine) : Prop :=
  ∀ frame stack val args f s, m.stack = frame :: stack →
    frame.locals = .call val args (some (f, s)) → ∃ fn, m.calleeOf val = some (f, fn)

/-- The step does not activate a function that is running; it does not go on with one through a
pointer that leads to another; and it does not free the scope of one. -/
def Undisturbed (m : Machine) (event : Event) : Prop :=
  match event with
  | .activate f _ => ∀ a ∈ m.running, a.1 ≠ f
  | .param .. => m.HoldsCallee
  | .call (some _) => m.HoldsCallee
  | .rescope _ => m.HoldsCallee
  | .closeScope s => ∀ a ∈ m.running, ¬ m.Releases s a.2
  | _ => True

end Machine

/-- The step is to bind a name in a scope, other than by an assignment. -/
def Event.Binds (event : Event) (s : Nat) (name : String) : Prop :=
  (∃ status, event = .declare s name status) ∨ (∃ status, event = .param s name status) ∨
    event = .setDefault s name

/-- A step, after the steps before it, keeps the activations of user functions apart. -/
structure Independent (steps : List (Step Machine Event)) (step : Step Machine Event) : Prop where
  /-- A function is activated in a scope that no running function was activated in, and that binds
  no more than the built-in functions. -/
  own : ∀ f s, step.event = .activate f s → step.pre.IsCustom f →
    (∀ a ∈ step.pre.running, step.pre.IsCustom a.1 → a.2 ≠ s) ∧ step.pre.Pristine s
  /-- A parameter is bound in the scope of the innermost activation. It is rejected only if the scope
  was made with its name, or the same activation has bound it. -/
  param : ∀ s name status, step.event = .param s name status →
    ∃ f, step.pre.running.head? = some (f, s) ∧
      (status = .setExists → (step.pre.builtins.lookup name).isSome ∨
        ∃ earlier ∈ steps, earlier.pre.running.head? = some (f, s) ∧ earlier.event.Binds s name)
  /-- A statement of a body is evaluated in the scope in which its function was activated. -/
  body : ∀ f, step.event = .call (some f) →
    ∃ s, step.pre.running.head? = some (f, s) ∧ step.post.stack.head?.map Frame.scope = some s
  /-- The outer activations keep their scopes, and all that is bound there but the variables that the
  step assigns. -/
  keeps : ∀ a ∈ step.pre.running.tail, step.pre.IsCustom a.1 →
    (step.pre.scopes.isLive a.2 = true → step.post.scopes.isLive a.2 = true) ∧
    ∀ name, step.post.env.vars a.2 name = step.pre.env.vars a.2 name ∨
      ∃ status old, step.event = .assign name status ∧
        step.pre.env.vars a.2 name = some (old, false)

/-! ## Tests -/

namespace Machine

def isCustom (m : Machine) (f : Nat) : Bool :=
  (m.fns.peek f).any fun fn => fn.builtInCallback.isNone

def holdsCallee (m : Machine) : Bool :=
  match m.stack.head?.map Frame.locals with
  | some (.call val _ (some (f, _))) => (m.calleeOf val).any fun c => c.1 = f
  | _ => true

/-- A test for `Undisturbed`: no scope is freed while a function is running. -/
def undisturbed (m : Machine) (event : Event) : Bool :=
  match event with
  | .activate f _ => m.running.all fun a => a.1 ≠ f
  | .param .. => m.holdsCallee
  | .call (some _) => m.holdsCallee
  | .rescope _ => m.holdsCallee
  | .closeScope _ => m.running.isEmpty
  | _ => true

end Machine

/-- A test that a user function is activated while functions are running, and that it is or is not
among them, with the same scope. -/
def activatesWhile (among : Bool) : List (Step Machine Event) → Bool
  | ⟨.activate f s, pre, _⟩ :: _ =>
    pre.isCustom f && decide (pre.running ≠ []) &&
      (if among then decide ((f, s) ∈ pre.running) else pre.running.all fun a => a.1 ≠ f)
  | _ => false

end Blaze
