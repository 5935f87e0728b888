import Blazescript.Eval.Shape

/-!
# The lifetime of scopes

Which scopes a state still gets at, and the steps that free one of them.
-/

namespace Blaze

open Arena Environment

namespace Machine

/-- Following parent pointers from the scope never reaches a scope that has been freed. -/
def Intact (m : Machine) (s : Nat) : Prop := ∀ t ∈ chain m.env.parent s, m.scopes.isLive t = true

/-- `s` is the scope of a function that the value holds. -/
def RunsIn (m : Machine) (v : Val) (s : Nat) : Prop :=
  ∃ f, v.data = .function f ∧ m.scopeOf f = some s

/-- Neither the scopes being evaluated nor those of the functions bound in live scopes lead to a
freed scope. -/
structure Alive (m : Machine) : Prop where
  frames : ∀ frame ∈ m.stack, ∀ s ∈ frame.scopes, m.Intact s
  bound : ∀ v, m.Bound v → ∀ s, m.RunsIn v s → m.Intact s

/-- Scope `u` stays in use when the innermost frame frees scope `s`. -/
inductive Keeps (m : Machine) (s u : Nat) : Prop
  | inner (frame : Frame) (stack : List Frame) (hs : m.stack = frame :: stack) (hu : u = frame.scope)
  | outer (frame frame' : Frame) (stack : List Frame) (hs : m.stack = frame :: stack)
      (hf : frame' ∈ stack) (hu : u ∈ frame'.scopes)
  | value (v : Val) (hv : m.Stays s v) (hu : m.RunsIn v u)

/-- The step frees no scope above one that stays in use, and copies no function whose scope leads to
a freed one. -/
def SparesScopes (m : Machine) (event : Event) : Prop :=
  match event with
  | .closeScope s => ∀ t u, m.Releases s t → m.Keeps s u → t ∉ chain m.env.parent u
  | .copyFn orig _ => ∀ s, m.scopeOf orig = some s → m.Intact s
  | _ => True

/-- A test that the name is bound in a live scope to a function whose scope leads to a freed one. -/
def dangles (m : Machine) (s : Nat) (name : String) : Bool :=
  m.scopes.isLive s && (m.env.vars s name).any fun b =>
    match b.1.data with
    | .function f =>
      (m.scopeOf f).any fun u => (chain m.env.parent u).any fun t => !m.scopes.isLive t
    | _ => false

/-- A test for `SparesScopes`: no scope is under the one that is freed, or leads to it. -/
def sparesScopes (m : Machine) (event : Event) : Bool :=
  match event with
  | .closeScope s =>
    ((m.ownedSlots s).all fun index => m.slotScope index = none) &&
      ((List.range m.scopes.size).all fun u => decide (u = s) || !(chain m.env.parent u).contains s) &&
      ((List.range m.fns.size).all fun f => m.scopeOf f ≠ some s) &&
      (m.stack.tail.all fun frame => !frame.scopes.contains s) &&
      (m.stack.head?.all fun frame => frame.scope ≠ s)
  | .copyFn orig _ =>
    (m.scopeOf orig).all fun s => (chain m.env.parent s).all fun t => m.scopes.isLive t
  | _ => true

end Machine

end Blaze
