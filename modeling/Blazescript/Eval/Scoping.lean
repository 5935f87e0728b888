import Blazescript.Eval.Alike
import Blazescript.Eval.Kept
import Blazescript.Eval.Shape

/-!
# Lexical scoping

Where a function was declared, and who gave it the scope it runs in. Both are told from the steps so
far, the newest first. Where the chain of the declaration is the same, so is a call.
-/

namespace Blaze

open Arena Environment Tracing

/-- The scope in which the innermost frame evaluates. -/
def Machine.here (m : Machine) : Option Nat := m.stack.head?.map Frame.scope

/-- The scope in which a user function was declared; for a copy, the function it is a copy of. -/
def declScope : List (Step Machine Event) → Nat → Option Nat
  | [], _ => none
  | step :: steps, f =>
    match step.event with
    | .newFn g => if g = f then step.pre.here else declScope steps f
    | .copyFn orig copy => if copy = f then declScope steps orig else declScope steps f
    | _ => declScope steps f

/-- The step gives function `f` the new scope `s`. -/
structure GivesScope (step : Step Machine Event) (f s : Nat) : Prop where
  fresh : s = step.pre.scopes.size
  scopeOf : step.post.scopeOf f = some s

/-- The step gives function `f` the scope `s` under scope `d`: the function is declared there, copied
from a function with that scope, or has been called from there. -/
inductive GivesUnder (step : Step Machine Event) (f s d : Nat) : Prop
  | declared (hg : GivesScope step f s) (he : step.event = .newFn f) (hd : step.pre.here = some d)
  | copied (orig : Nat) (hg : GivesScope step f s) (he : step.event = .copyFn orig f)
      (hd : step.pre.scopeOf orig = some d)
  | called (hg : GivesScope step f s) (he : step.event = .rescope f) (hd : step.pre.here = some d)

/-- Function `f` was given the scope `s` by its declaration or by the end of a call, in scope `d`. -/
def GivenIn (steps : List (Step Machine Event)) (f s d : Nat) : Prop :=
  ∃ step ∈ steps, GivesScope step f s ∧ (step.event = .newFn f ∨ step.event = .rescope f) ∧
    step.pre.here = some d

/-- Scope `s` is a child of scope `d`: its names mean what they mean there, but for those it binds
itself. Neither it nor a scope around it has been freed. -/
structure Machine.Lexical (m : Machine) (s d : Nat) : Prop where
  chain : chain m.env.parent s = s :: Arena.chain m.env.parent d
  live : ∀ t ∈ Arena.chain m.env.parent s, m.scopes.isLive t = true
  find : ∀ name, m.env.vars s name = none → m.env.find s name = m.env.find d name

/-- Neither the scope nor a scope of the chain of `d` has been freed. -/
def Machine.LiveUnder (m : Machine) (s d : Nat) : Prop :=
  m.scopes.isLive s = true ∧ ∀ t ∈ chain m.env.parent d, m.scopes.isLive t = true

/-- The step does to memory what does not show in the state: it moves the block of the value table, into which there are
pointers, or it frees a function with a block in it, which others may share. -/
def Machine.Disturbs (m : Machine) (event : Event) : Prop :=
  m.Reallocates event ∨ ∃ s t index v, event = .closeScope s ∧ m.Releases s t ∧ index ∈ m.ownedSlots t ∧
    m.tbl.values[index]? = some v ∧ m.HasBlocks v

/-- In two states the same call is about to be made, with the same arguments, by a name as it is found from scope `d` of
the one and `d'` of the other. The chains of these scopes are the same, with all that they lead to. -/
structure SameCall (ρ : Naming) (m m' : Machine) (d d' : Nat) (identifier : String) (val val' : EntryPtr) : Prop where
  alike : m.Alike ρ 1 m'
  chain : ρ.scopes d d'
  val : scopeResolveIdentifier m.scopes d identifier = some (some val)
  val' : scopeResolveIdentifier m'.scopes d' identifier = some (some val')
  printed : ρ.printed = m.store.stdout
  printed' : ρ.printed' = m'.store.stdout

/-- Two computations, from states `m` and `m'`, come to the same: values that say the same, or the same error, and the
same output before. -/
inductive SameResult (m m' : Machine) :
    EStateM.Result Err (World Machine Event) Val → EStateM.Result Err (World Machine Event) Val → Prop
  | ok {v v' : Val} {w w' : World Machine Event} (out : List Output) (htype : v.data.type = v'.data.type)
      (hcontent : ∀ c, w.state.Denotes v c ↔ w'.state.Denotes v' c) (hout : w.state.store.stdout = m.store.stdout ++ out)
      (hout' : w'.state.store.stdout = m'.store.stdout ++ out) : SameResult m m' (.ok v w) (.ok v' w')
  | error (e : Err) {w w' : World Machine Event} (out : List Output)
      (hout : w.state.store.stdout = m.store.stdout ++ out) (hout' : w'.state.store.stdout = m'.store.stdout ++ out) :
      SameResult m m' (.error e w) (.error e w')

/-- A test for `GivenIn`. -/
def givenIn (steps : List (Step Machine Event)) (f s d : Nat) : Bool :=
  steps.any fun step =>
    (match step.event with
    | .newFn g => decide (g = f)
    | .rescope g => decide (g = f)
    | _ => false) &&
      decide (s = step.pre.scopes.size ∧ step.post.scopeOf f = some s ∧ step.pre.here = some d)

/-- A test that a step evaluates a statement of function `f` in a scope in which the name, which it
does not bind, means something else than where `f` was declared. -/
def misreads (f : Nat) (name : String) : List (Step Machine Event) → Bool
  | [] => false
  | step :: rest =>
    match step.event, declScope rest f, step.post.here with
    | .call (some g), some d, some s =>
      decide (g = f) && decide (step.post.env.vars s name = none) &&
        decide (step.post.env.find s name ≠ step.post.env.find d name)
    | _, _, _ => false

/-- The newest step is a call of the function, which runs with the names of the scope it was declared in. -/
def runsGiven (f : Nat) : List (Step Machine Event) → Bool
  | [] => false
  | step :: rest =>
    match step.event, declScope rest f, step.post.here with
    | .call (some g), some d, some s =>
      decide (g = f) && givenIn rest f s d && step.pre.scopes.isLive s &&
        (chain step.pre.env.parent d).all fun t => step.pre.scopes.isLive t
    | _, _, _ => false

/-- A test that a step does not disturb memory. -/
def Machine.calm (m : Machine) (event : Event) : Bool :=
  match event with
  | .newSlot _ => !decide m.tbl.Grows
  | .copyFn .. => !decide m.tbl.Grows
  | .closeScope _ => false
  | _ => true

/-- A test for a call from the global scope that it comes to, after the steps so far, without disturbing memory. -/
def callsCalmly (gas : Nat) (identifier : String) (val : EntryPtr) (f : Nat) (w : World Machine Event) : Bool :=
  match w.state.calleeOf val with
  | some (g, fn) => decide (g = f) &&
      (finalWorld (callCustom (eval gas) gas 0 .unknown identifier val f fn w)).trace.all fun step =>
        step.pre.calm step.event
  | none => false

/-- A test that the newest steps of two histories activate the function in scopes `s` and `s'`, in states that are alike
from the global scope on. -/
def callsAlike (scopes fns slots : List (Nat × Nat)) (gas : Nat) (identifier : String) (f s s' : Nat) :
    List (Step Machine Event) → List (Step Machine Event) → Bool
  | step :: rest, step' :: rest' =>
    match step.event, step'.event, scopeResolveIdentifier step.pre.scopes 0 identifier,
      scopeResolveIdentifier step'.pre.scopes 0 identifier with
    | .activate g t, .activate g' t', some (some val), some (some val') =>
      decide (g = f ∧ t = s ∧ g' = f ∧ t' = s') && scopes.contains (0, 0) &&
        machinesAlike scopes fns slots step.pre step'.pre && callsCalmly gas identifier val f ⟨step.pre, rest⟩ &&
        callsCalmly gas identifier val' f ⟨step'.pre, rest'⟩
    | _, _, _, _ => false
  | _, _ => false

end Blaze
