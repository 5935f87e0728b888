import Blazescript.Eval.Trans

/-!
# The shape of the states

What every state of the evaluator has: identities lead to older or existing objects, and no two
functions run in one scope. And the values that a state can still get at.
-/

namespace Blaze

open Arena Environment

/-- `new_scope` of `eval_block`, `eval_loop_stmt` and `array_filter_call_fn`. -/
def Locals.newScope : Locals → Option Nat
  | .block s => some s
  | .loop s => some s
  | .builtin _ (some (_, s)) => some s
  | _ => Option.none

/-- `args` of `eval_expr_call`. -/
def Locals.args : Locals → List Val
  | .call _ args _ => args
  | .builtin args _ => args
  | _ => []

/-- The scopes that the code of a frame holds. -/
def Frame.scopes (frame : Frame) : List Nat := frame.scope :: frame.locals.newScope.toList

namespace Machine

/-- A value at hand that need not be bound: the last result, an argument, or a built-in function,
which every new scope binds. -/
def Holds (m : Machine) (v : Val) : Prop :=
  v = m.result ∨ (∃ frame ∈ m.stack, v ∈ frame.locals.args) ∨ ∃ b ∈ m.builtins, b.2 = v

/-- A value that the evaluator can get at, other than through a vector. -/
def InReach (m : Machine) (v : Val) : Prop := m.Bound v ∨ m.Holds v

/-- A value stays in reach when the innermost frame frees scope `s`. -/
inductive Stays (m : Machine) (s : Nat) (v : Val) : Prop
  | bound (t : Nat) (name : String) (isConst : Bool) (hl : m.scopes.isLive t = true)
      (hr : ¬ m.Releases s t) (hb : m.env.vars t name = some (v, isConst))
  | arg (frame frame' : Frame) (stack : List Frame) (hs : m.stack = frame :: stack)
      (hf : frame' ∈ stack) (hv : v ∈ frame'.locals.args)
  | builtin (name : String) (hb : (name, v) ∈ m.builtins)

/-- The function has been declared, or copied from one that has; it is not built in. -/
def IsCustom (m : Machine) (f : Nat) : Prop :=
  ∃ fn, m.fns.peek f = some fn ∧ fn.builtInCallback = none

/-- The field `scope` of a function. -/
def scopeOf (m : Machine) (f : Nat) : Option Nat := (m.fns.peek f).bind FnVal.scope

/-- The shape of a state. -/
structure Wf (m : Machine) : Prop where
  rooted : Rooted m.env.parent
  stack : m.stack ≠ []
  frames : ∀ frame ∈ m.stack, ∀ s ∈ frame.scopes, s < m.scopes.size
  fnScope : ∀ f fn s, m.fns.peek f = some fn → fn.scope = some s → s < m.scopes.size
  /-- No other function runs in the scope of a user function. -/
  fnOwn : ∀ f g fn gn s, m.fns.peek f = some fn → m.fns.peek g = some gn →
    fn.builtInCallback = none → fn.scope = some s → gn.scope = some s → f = g
  /-- A user function has a scope; a built-in function has nothing that could be run in one. -/
  custom : ∀ f fn, m.fns.peek f = some fn → fn.builtInCallback = none → fn.scope.isSome
  builtin : ∀ f fn, m.fns.peek f = some fn → fn.builtInCallback.isSome →
    fn.customBody = [] ∧ fn.paramNames = []
  builtins : ∀ b ∈ m.builtins, ∃ f fn, b.2.data = .function f ∧ m.fns.peek f = some fn

end Machine

/-- The step runs `valmap_check_realloc` on the map of the scope. An assignment does so on the map of
every scope it looks for the name in. -/
def Machine.Checks (m : Machine) (event : Event) (s : Nat) : Prop :=
  match event with
  | .declare t _ _ => s = t
  | .param t _ _ => s = t
  | .setDefault t _ => s = t
  | .assign name _ => ∃ frame stack, m.stack = frame :: stack ∧ Visited m.env frame.scope name s
  | _ => False

/-- The events that make a value. -/
def Event.Makes (event : Event) : Prop :=
  (∃ i, event = .newSlot i) ∨ (∃ f g, event = .copyFn f g) ∨ ∃ f, event = .newFn f

/-- How a step changes the scopes: not at all, but for the fields of loops; by a new scope that binds
the built-in functions; by what it binds; or by what it frees. -/
inductive ScopesChange (m : Machine) (event : Event) (h' : Scopes Val) : Prop
  | same (size : h'.size = m.scopes.size) (live : ∀ s, h'.isLive s = m.scopes.isLive s)
      (env : envOf h' = m.env) (generation : ∀ s, generationOf h' s = generationOf m.scopes s)
  | opened (p : Nat) (scope : Scope Val) (hp : p < m.scopes.size) (hparent : scope.parent = some p)
      (hin : (∃ frame stack, m.stack = frame :: stack ∧ p = frame.scope) ∨
        ∃ orig copy, event = .copyFn orig copy ∧ m.scopeOf orig = some p)
      (hvars : ∀ k, scope.valmap.binding k = (m.builtins.lookup k).map fun v => (v, true))
      (h : h' = m.scopes.alloc scope)
  | wrote (hmaps : MapsOnly m.scopes h')
      (hvars : ∀ s k v c, (envOf h').vars s k = some (v, c) →
        m.env.vars s k = some (v, c) ∨ m.Holds v ∨ v.Plain)
      (hgeneration : ∀ s, ¬ (m.Checks event s ∧ atThreshold m.scopes s = true) →
        generationOf h' s = generationOf m.scopes s)
  | freed (s : Nat) (scopes slots : List Nat) (m₁ : Machine) (he : event = .closeScope s)
      (hF : Freed m m₁ scopes slots) (hs : ∀ t, t ∈ scopes ↔ m.Releases s t)
      (h : h' = m₁.scopes)

/-- How a step changes the functions: not at all, but that a function may be freed; by a new function
with a scope that is new as well, or a copy of a built-in function; or by a new scope for a
function. -/
inductive FnsChange (m : Machine) (event : Event) (h' : Scopes Val) (fns' : Heap FnVal) : Prop
  | same (he : ∀ f, event ≠ .rescope f) (size : fns'.size = m.fns.size)
      (peek : ∀ f, fns'.peek f = m.fns.peek f)
  | copied (orig : Nat) (fn : FnVal) (he : event = .copyFn orig m.fns.size)
      (hf : m.fns.read orig = some fn) (hb : fn.builtInCallback.isSome) (h : fns' = m.fns.alloc fn)
  | made (fn : FnVal) (he : event = .newFn m.fns.size ∨ ∃ orig, event = .copyFn orig m.fns.size)
      (hb : fn.builtInCallback = none) (hs : fn.scope = some m.scopes.size)
      (hsize : h'.size = m.scopes.size + 1) (h : fns' = m.fns.alloc fn)
  | rescoped (f : Nat) (fn : FnVal) (he : event = .rescope f) (hf : m.fns.read f = some fn)
      (hsize : h'.size = m.scopes.size + 1)
      (h : fns' = m.fns.write f { fn with scope := some m.scopes.size })

/-- How a step may change the locals of the innermost frame. -/
inductive LocalsChange (m : Machine) (event : Event) (frame : Frame) (locals : Locals) : Prop
  | opened (he : event = .openScope m.scopes.size) (hold : frame.locals = .none)
      (h : locals = .block m.scopes.size ∨ locals = .loop m.scopes.size)
  | closed (s : Nat) (he : event = .closeScope s)
      (hold : frame.locals = .block s ∨ frame.locals = .loop s) (h : locals = .none)
  | resolved (val : EntryPtr) (he : event = .resolve val) (hold : frame.locals = .none)
      (h : locals = .call val [] none)
  | arg (val : EntryPtr) (args : List Val) (he : event = .arg) (hold : frame.locals = .call val args none)
      (h : locals = .call val (args ++ [m.result]) none)
  | builtin (val : EntryPtr) (args : List Val) (he : event = .builtin)
      (hold : frame.locals = .call val args none) (h : locals = .builtin args none)
  | activated (f s : Nat) (he : event = .activate f s) (ha : m.Activates frame f s)
      (h : locals = frame.locals.activate (some (f, s)))
  | rescoped (f : Nat) (fn : FnVal) (he : event = .rescope f) (hc : m.Rescopes frame f fn)
      (h : locals = frame.locals.activate none)

/-- How a step changes the stack: not at all; by other locals of the innermost frame; by the frame of a
call of `eval`; or by its return. -/
inductive StackChange (m : Machine) (event : Event) (m' : Machine) : Prop
  | same (h : m'.stack = m.stack)
  | locals (frame : Frame) (stack : List Frame) (locals : Locals) (hs : m.stack = frame :: stack)
      (hl : LocalsChange m event frame locals)
      (h : m'.stack = { frame with locals := locals } :: stack)
  | called (frame : Frame) (stack : List Frame) (node : AstNode) (scope : Nat)
      (he : event = .call none) (hs : m.stack = frame :: stack) (hc : frame.Calls node scope)
      (h : m'.stack = ⟨scope, node, .none⟩ :: m.stack)
  | ran (frame : Frame) (stack : List Frame) (f : Nat) (fn : FnVal) (node : AstNode) (scope : Nat)
      (he : event = .call (some f)) (hs : m.stack = frame :: stack) (hr : m.Runs frame f fn scope)
      (hn : node ∈ fn.customBody) (h : m'.stack = ⟨scope, node, .none⟩ :: m.stack)
  | returned (frame : Frame) (stack : List Frame) (he : event = .return)
      (hs : m.stack = frame :: stack) (ha : frame.locals.activation = none) (h : m'.stack = stack)

end Blaze
