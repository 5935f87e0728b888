import Blazescript.Eval.Release
import Blazescript.Eval.Step

/-!
# The evaluator as a transition system

What each step of the evaluator may do, told from the state before it: the innermost frame decides
which steps may come. Nothing here runs; the evaluator refines this system, and what holds of all
its runs holds of the evaluator.
-/

namespace Blaze

open Arena Environment

/-- A value that owns no slot of the table and is no function. -/
def Val.Plain (v : Val) : Prop := v.selfPtr = none ∧ ∀ f, v.data ≠ .function f

namespace Machine

/-- Some scope that has not been freed binds the value. -/
def Bound (m : Machine) (v : Val) : Prop :=
  ∃ s name isConst, m.scopes.isLive s = true ∧ m.env.vars s name = some (v, isConst)

/-- The function that an entry of a map holds. -/
def calleeOf (m : Machine) (val : EntryPtr) : Option (Nat × FnVal) :=
  (readEntry m.scopes val).bind fun b => m.fnOf b.1

end Machine

/-- The function that is running, and its scope when it was activated. -/
def Locals.activation : Locals → Option (Nat × Nat)
  | .call _ _ activation => activation
  | .builtin _ activation => activation
  | _ => Option.none

/-- A call of `eval` that the code of a frame can make while it runs no function: on which node, and in
which scope. -/
def Frame.Calls (frame : Frame) (node : AstNode) (scope : Nat) : Prop :=
  frame.locals.activation = none ∧
  match frame.node, frame.locals with
  | .block _ children, .block newScope => node ∈ children ∧ scope = newScope
  | .block .., _ => False
  | .loopStmt _ _ _ body, .loop newScope =>
    (node = body ∨ node ∈ body.children) ∧ scope = newScope
  | .loopStmt _ iterCount _ _, _ => some node = iterCount ∧ scope = frame.scope
  | .assignment _ _ value, _ => node = value ∧ scope = frame.scope
  | .fnDecl .., _ => False
  | parent, _ => node ∈ parent.children ∧ scope = frame.scope

/-- The innermost frame is running a function of which it may evaluate statements: the function, its
value, and the scope the statements are evaluated in. -/
def Machine.Runs (m : Machine) (frame : Frame) (f : Nat) (fn : FnVal) (scope : Nat) : Prop :=
  match frame.locals with
  | .call val _ (some _) => m.calleeOf val = some (f, fn) ∧ fn.scope = some scope
  | .builtin _ (some (f', newScope)) => f = f' ∧ scope = newScope ∧ m.fns.read f = some fn
  | _ => False

/-- The innermost frame may activate a function in its scope. -/
def Machine.Activates (m : Machine) (frame : Frame) (f scope : Nat) : Prop :=
  (∃ fn, m.fns.read f = some fn ∧ fn.scope = some scope) ∧
    match frame.locals with
    | .call val _ none => ∃ fn, m.calleeOf val = some (f, fn)
    | .builtin args none => ∃ v ∈ args, v.data = .function f
    | _ => False

/-- The value that a parameter is bound to: an argument, or what `val_copy_deep` has returned. -/
def Locals.Passes (locals : Locals) (result value : Val) : Prop :=
  match locals with
  | .call _ args _ => value ∈ args
  | _ => value = result

/-- The innermost frame has run a function, and gives it another scope; or the callback has none to
run in. -/
def Machine.Rescopes (m : Machine) (frame : Frame) (f : Nat) (fn : FnVal) : Prop :=
  m.fns.read f = some fn ∧
    match frame.locals with
    | .call val _ (some _) => m.calleeOf val = some (f, fn)
    | .builtin _ (some (f', _)) => f = f'
    | .builtin args none => (∃ v ∈ args, v.data = .function f) ∧ fn.scope = none
    | _ => False

/-- The scope in which the code of a frame may declare a name. -/
def Frame.Declares (frame : Frame) (name : String) (s : Nat) : Prop :=
  match frame.node, frame.locals with
  | .varDecl _ name' _ _, .none => name = name' ∧ s = frame.scope
  | .fnDecl _ name' _ _, .none => name = name' ∧ s = frame.scope
  | .loopStmt _ _ varname _, .loop newScope => some name = varname ∧ s = newScope
  | _, _ => False

/-- Strings and vectors are made, and vectors get elements. Nothing is freed, and no string is changed. -/
structure Store.Extends (store store' : Store) : Prop where
  strings : ∀ s text, store.strings.read s = some text → store'.strings.read s = some text
  vectors : ∀ a, store.vectors.isLive a = true → store'.vectors.isLive a = true

/-- The steps. `frame` is the innermost frame of the state before. -/
inductive Trans : Machine → Event → Machine → Prop
  | store (m : Machine) (store : Store) (hs : m.store.Extends store) : Trans m .store { m with store := store }
  | value (m : Machine) (v : Val) (hv : v.Plain ∨ m.Bound v) :
      Trans m .value { m with result := v }
  | newSlot (m : Machine) (data : ValData) (hd : ∀ f, data ≠ .function f) :
      Trans m (.newSlot ((m.tbl.create data).1.selfPtr.getD 0))
        { m with tbl := (m.tbl.create data).2, result := (m.tbl.create data).1 }
  | copyBuiltin (m : Machine) (orig : Nat) (fn : FnVal) (hf : m.fns.read orig = some fn)
      (hb : fn.builtInCallback.isSome) :
      Trans m (.copyFn orig m.fns.size)
        { m with
          tbl := (m.tbl.create (.function m.fns.size)).2
          result := (m.tbl.create (.function m.fns.size)).1
          fns := m.fns.alloc fn }
  | copyCustom (m : Machine) (orig : Nat) (fn : FnVal) (body : List AstNode)
      (hf : m.fns.read orig = some fn) (hb : fn.builtInCallback = none) :
      Trans m (.copyFn orig m.fns.size)
        { m with
          tbl := (m.tbl.create (.function m.fns.size)).2
          result := (m.tbl.create (.function m.fns.size)).1
          scopes := m.scopes.alloc (scopeInit m.builtins fn.scope)
          fns := m.fns.alloc ⟨none, body, fn.paramNames, some m.scopes.size⟩ }
  | newFn (m : Machine) (frame : Frame) (stack : List Frame) (body : List AstNode)
      (paramNames : List String) (hs : m.stack = frame :: stack) :
      Trans m (.newFn m.fns.size)
        { m with
          scopes := m.scopes.alloc (scopeInit m.builtins (some frame.scope))
          fns := m.fns.alloc ⟨none, body, paramNames, some m.scopes.size⟩
          result := .ofData (.function m.fns.size) }
  | call (m : Machine) (frame : Frame) (stack : List Frame) (node : AstNode) (scope : Nat)
      (hs : m.stack = frame :: stack) (hc : frame.Calls node scope) :
      Trans m (.call none) { m with stack := ⟨scope, node, .none⟩ :: m.stack }
  | callBody (m : Machine) (frame : Frame) (stack : List Frame) (f : Nat) (fn : FnVal)
      (node : AstNode) (scope : Nat) (hs : m.stack = frame :: stack)
      (hr : m.Runs frame f fn scope) (hn : node ∈ fn.customBody) :
      Trans m (.call (some f)) { m with stack := ⟨scope, node, .none⟩ :: m.stack }
  | return (m : Machine) (frame : Frame) (stack : List Frame) (hs : m.stack = frame :: stack)
      (hne : stack ≠ []) (ha : frame.locals.activation = none) :
      Trans m .return { m with stack := stack }
  | openBlock (m : Machine) (frame : Frame) (stack : List Frame) (hs : m.stack = frame :: stack)
      (hl : frame.locals = .none) :
      Trans m (.openScope m.scopes.size)
        { m with
          scopes := m.scopes.alloc (scopeInit m.builtins (some frame.scope))
          stack := { frame with locals := .block m.scopes.size } :: stack }
  | openLoop (m : Machine) (frame : Frame) (stack : List Frame) (hs : m.stack = frame :: stack)
      (hl : frame.locals = .none) :
      Trans m (.openScope m.scopes.size)
        { m with
          scopes := m.scopes.alloc
            { scopeInit m.builtins (some frame.scope) with
              allowRedecl := false, mode := .scModeReuse, prevUniqueId := 0, uniqueId := 1
              noRedecl := rfl }
          stack := { frame with locals := .loop m.scopes.size } :: stack }
  | loopIds (m : Machine) (frame : Frame) (stack : List Frame) (s : Nat) (scope : Scope Val)
      (prevUniqueId uniqueId : Nat) (hs : m.stack = frame :: stack)
      (hl : frame.locals = .loop s) (hr : m.scopes.read s = some scope) :
      Trans m (.loopIds s)
        { m with
          scopes := m.scopes.write s
            { scope with prevUniqueId := prevUniqueId, uniqueId := uniqueId } }
  | closeScope (m m₁ : Machine) (frame : Frame) (stack : List Frame) (s : Nat)
      (hs : m.stack = frame :: stack) (hl : frame.locals = .block s ∨ frame.locals = .loop s)
      (hf : m.scopeFree s = some m₁) :
      Trans m (.closeScope s)
        { m₁ with result := nullVal, stack := { frame with locals := .none } :: stack }
  | declare (m : Machine) (frame : Frame) (stack : List Frame) (s : Nat) (name : String)
      (value : Val) (isConst : Bool) (r : ValmapSetStatus × Option Val × Scopes Val)
      (hs : m.stack = frame :: stack) (hn : frame.Declares name s)
      (hv : value = m.result ∨ value.Plain)
      (hd : scopeDeclareIdentifier m.scopes s name value isConst = some r) :
      Trans m (.declare s name r.1) { m with scopes := r.2.2 }
  | param (m : Machine) (frame : Frame) (stack : List Frame) (f : Nat) (fn : FnVal) (s : Nat)
      (name : String) (value : Val) (r : ValmapSetStatus × Option Val × Scopes Val)
      (hs : m.stack = frame :: stack) (hr : m.Runs frame f fn s) (hn : name ∈ fn.paramNames)
      (hv : frame.locals.Passes m.result value)
      (hd : scopeDeclareIdentifier m.scopes s name value true = some r) :
      Trans m (.param s name r.1) { m with scopes := r.2.2 }
  | setDefault (m : Machine) (frame : Frame) (stack : List Frame) (s : Nat) (name : String)
      (value : Val) (isConst : Bool) (scopes : Scopes Val) (hs : m.stack = frame :: stack)
      (hn : frame.Declares name s) (hv : value = m.result ∨ value.Plain)
      (hd : scopeSetDefault m.scopes s name value isConst = some scopes) :
      Trans m (.setDefault s name) { m with scopes := scopes }
  | assign (m : Machine) (frame : Frame) (stack : List Frame) (pos namePos : Pos) (name : String)
      (node : AstNode) (r : ValmapSetStatus × Scopes Val) (hs : m.stack = frame :: stack)
      (hn : frame.node = .assignment pos (.identifier namePos name) node)
      (ha : scopeAssignIdentifier m.scopes frame.scope name m.result = some r) :
      Trans m (.assign name r.1) { m with scopes := r.2 }
  | resolve (m : Machine) (frame : Frame) (stack : List Frame) (name : String) (val : EntryPtr)
      (hs : m.stack = frame :: stack) (hl : frame.locals = .none)
      (hv : scopeResolveIdentifier m.scopes frame.scope name = some (some val)) :
      Trans m (.resolve val)
        { m with stack := { frame with locals := .call val [] none } :: stack }
  | use (m : Machine) (frame : Frame) (stack : List Frame) (val : EntryPtr) (args : List Val)
      (activation : Option (Nat × Nat)) (hs : m.stack = frame :: stack)
      (hl : frame.locals = .call val args activation) : Trans m (.use val) m
  | arg (m : Machine) (frame : Frame) (stack : List Frame) (val : EntryPtr) (args : List Val)
      (hs : m.stack = frame :: stack) (hl : frame.locals = .call val args none) :
      Trans m .arg
        { m with stack := { frame with locals := .call val (args ++ [m.result]) none } :: stack }
  | activate (m : Machine) (frame : Frame) (stack : List Frame) (f scope : Nat)
      (hs : m.stack = frame :: stack) (ha : m.Activates frame f scope) :
      Trans m (.activate f scope)
        { m with stack :=
            { frame with locals := frame.locals.activate (some (f, scope)) } :: stack }
  | builtin (m : Machine) (frame : Frame) (stack : List Frame) (val : EntryPtr) (args : List Val)
      (hs : m.stack = frame :: stack) (hl : frame.locals = .call val args none) :
      Trans m .builtin { m with stack := { frame with locals := .builtin args none } :: stack }
  | rescope (m : Machine) (frame : Frame) (stack : List Frame) (f : Nat) (fn : FnVal)
      (hs : m.stack = frame :: stack) (hc : m.Rescopes frame f fn) :
      Trans m (.rescope f)
        { m with
          scopes := m.scopes.alloc (scopeInit m.builtins (some frame.scope))
          fns := m.fns.write f { fn with scope := some m.scopes.size }
          stack := { frame with locals := frame.locals.activate none } :: stack }

/-- The stack is that of a frame for a given node and scope, over given frames, and whatever its code
has called. -/
def Above (scope : Nat) (node : AstNode) (stack : List Frame) (m : Machine) : Prop :=
  ∃ inner locals, m.stack = inner ++ ⟨scope, node, locals⟩ :: stack

/-- A step while that frame runs. -/
def TransAbove (scope : Nat) (node : AstNode) (stack : List Frame) (m : Machine) (event : Event)
    (m' : Machine) : Prop :=
  Trans m event m' ∧ Above scope node stack m ∧ Above scope node stack m'

end Blaze
