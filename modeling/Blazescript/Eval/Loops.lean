import Blazescript.Eval.Activations
import Blazescript.Eval.Eval

/-!
# The iterations of loops

A loop as the evaluations of its body, one after the other, all in one scope.
-/

namespace Blaze

open Arena Environment Tracing

/-- Makes the scope of a loop. -/
def enterLoop (scope : Nat) (varname : Option String) : Eval Nat := do
  let newScope ← openLoop scope
  declareLoopVar newScope varname
  pure newScope

/-- Iterations of a loop from number `k` on, with the worlds in which they begin to evaluate the body. -/
inductive LoopRuns (rec : Nat → AstNode → Eval Val) (s : Nat) (varname : Option String) (body : AstNode) :
    Nat → World Machine Event → List (World Machine Event) → World Machine Event → Prop
  | nil (k : Nat) (w : World Machine Event) : LoopRuns rec s varname body k w [] w
  | cons {k : Nat} {w w₁ w₂ w₃ w₄ w' : World Machine Event} {begins : List (World Machine Event)}
      (hbegin : setPrevUniqueId s k w = .ok () w₁) (hbody : evalLoopBody rec s body w₁ = .ok () w₂)
      (hid : setUniqueId s (k + 1) w₂ = .ok () w₃) (hvar : setLoopVar s (k + 1) varname w₃ = .ok () w₄)
      (h : LoopRuns rec s varname body (k + 1) w₄ begins w') :
      LoopRuns rec s varname body k w (w₁ :: begins) w'

/-- Iteration `k` of a loop begins, in a child `s` of the scope around the loop. The loop variable has the
value `k`, and the scope binds what earlier iterations have declared in it, but nothing else. `w₀` is the
world before the first iteration. -/
structure BeginsIteration (w₀ w : World Machine Event) (s scope : Nat) (varname : Option String) (k : Nat) :
    Prop where
  parent : w.state.env.parent s = some scope
  var : ∀ name ∈ varname, w.state.builtins.lookup name = none →
    w.state.env.vars s name = some (.ofData (.integer k), true)
  bound : ∃ earlier, w.trace = earlier ++ w₀.trace ∧ ∀ name, (w.state.env.vars s name).isSome ↔
    (w.state.builtins.lookup name).isSome ∨ name ∈ varname ∨ ∃ step ∈ earlier, step.event.Binds s name

/-! ## Loops with a new scope for each iteration -/

/-- The value of the loop variable in a scope of its own. -/
def bindLoopVar (newScope k : Nat) : Option String → Eval Unit
  | some varname => do
    let _ ← declareIdentifier newScope varname (.ofData (.integer k)) true
    pure ()
  | none => pure ()

/-- `n` evaluations of the body, each in a new child scope that binds the loop variable, from number `k` on. -/
def freshIterations (rec : Nat → AstNode → Eval Val) (scope : Nat) (varname : Option String) (body : AstNode) :
    Nat → Nat → Eval Unit
  | 0, _ => pure ()
  | n + 1, k => do
    let newScope ← openBlock scope
    bindLoopVar newScope k varname
    evalLoopBody rec newScope body
    closeScope newScope
    freshIterations rec scope varname body n (k + 1)

/-- A test that a computation ends in a runtime error. -/
def endsInError {α : Type} : EStateM.Result Err (World Machine Event) α → Bool
  | .error (.runtimeError ..) _ => true
  | _ => false

end Blaze
