import Blazescript.Eval.Machine
import Blazescript.Syntax.DeepCopy
import Blazescript.Tracing.Recorder

/-!
# The steps of the evaluator

Everything the evaluator does to its state is one of the steps below, which it records. What it only
reads is not a step, except the reads through `val` in `eval_expr_call`.
-/

namespace Blaze

open Arena Tracing

/-- Why an evaluation stops early. `undefined` stands for the reads that have no defined result. -/
inductive Err
  | runtimeError (pos : Pos) (msg : String)
  | fatal (msg : String)
  | exit (code : Int)
  | undefined
  | outOfFuel
  deriving DecidableEq, Repr

/-- The steps, with what identifies them. -/
inductive Event
  /-- strings, vectors, input and output -/
  | store
  /-- a function of the evaluator returns a value -/
  | value
  /-- a slot of the table is allocated -/
  | newSlot (index : Nat)
  /-- `val_copy_deep` of a function -/
  | copyFn (orig copy : Nat)
  /-- the function value of `eval_fn_decl` -/
  | newFn (f : Nat)
  /-- a call of `eval`; of the body of which function the node is a statement, if of one -/
  | call (body : Option Nat)
  /-- a call of `eval` returns -/
  | return
  /-- `scope_init` in `eval_block` and `eval_loop_stmt` -/
  | openScope (s : Nat)
  /-- the assignments to `prev_unique_id` and `unique_id` -/
  | loopIds (s : Nat)
  /-- `scope_free` in `eval_block` and `eval_loop_stmt` -/
  | closeScope (s : Nat)
  | declare (s : Nat) (name : String) (status : ValmapSetStatus)
  | setDefault (s : Nat) (name : String)
  | assign (name : String) (status : ValmapSetStatus)
  /-- `val` has been resolved -/
  | resolve (val : EntryPtr)
  /-- a read through `val` -/
  | use (val : EntryPtr)
  /-- an argument is stored in `args` -/
  | arg
  /-- the parameters of a function are about to be bound in its scope -/
  | activate (f act : Nat)
  /-- a parameter is bound -/
  | param (act : Nat) (name : String) (status : ValmapSetStatus)
  /-- a built-in function is called, after the last read through `val` -/
  | builtin
  /-- `fnval->scope = scope_init(scope)`, when the last statement of the function has run -/
  | rescope (f : Nat)
  deriving Repr

abbrev Eval (α : Type) := Recorder Machine Event Err α

/-- A step that returns nothing. -/
def act (event : Event) (f : Machine → Option Machine) : Eval Unit :=
  Recorder.perform .undefined fun m => (f m).map fun m => ((), event, m)

/-- The step that changes the store only. -/
def updateStore (f : Store → Store) : Eval Unit :=
  act .store fun m => some { m with store := f m.store }

def getStore (f : Store → Option α) : Eval α := Recorder.readOrThrow .undefined fun m => f m.store

/-- Returns a value. -/
def giveValue (v : Val) : Eval Val :=
  Recorder.perform .undefined fun m => some (v, .value, { m with result := v })

/-! ## Strings, vectors and slots -/

/-- `strdup` and `asprintf`. -/
def newString (s : String) : Eval Nat :=
  Recorder.perform .undefined fun m =>
    some (m.store.strings.size, .store,
      { m with store := { m.store with strings := m.store.strings.alloc s } })

/-- `vector_init`. -/
def vectorInit : Eval Nat :=
  Recorder.perform .undefined fun m =>
    some (m.store.vectors.size, .store,
      { m with store := { m.store with vectors := m.store.vectors.alloc [] } })

/-- `vector_push`. -/
def vectorPush (vector : Nat) (element : Option Nat) : Eval Unit :=
  act .store fun m =>
    (m.store.vectors.read vector).map fun data =>
      { m with store :=
          { m.store with vectors := m.store.vectors.write vector (data ++ [element]) } }

/-- `val_create_heap` and `val_init_heap`, for a value that is no function. -/
def newSlot (data : ValData) : Eval Val :=
  Recorder.perform .undefined fun m =>
    let (v, tbl) := m.tbl.create data
    some (v, .newSlot (v.selfPtr.getD 0), { m with tbl := tbl, result := v })

/-- Reads through a pointer of a vector. -/
def readSlot (slot : Option Nat) : Eval Val :=
  Recorder.readOrThrow .undefined fun m => m.slotValue slot

/-! ## Functions -/

def throwFatal {α : Type} (msg : String) : Eval α := throw (.fatal msg)

/-- The loop over `parser_ast_deep_copy`. -/
def copyBody (body : List AstNode) : Eval (List AstNode) :=
  match parserAstDeepCopyAll body with
  | .ok body' => pure body'
  | .error msg => throwFatal msg

/-- The function value of `eval_fn_decl`: a function with a new child scope. -/
def newFn (scope : Nat) (body : List AstNode) (paramNames : List String) : Eval Val :=
  Recorder.perform .undefined fun m =>
    let v := Val.ofData (.function m.fns.size)
    some (v, .newFn m.fns.size,
      { m with
        scopes := m.scopes.alloc (scopeInit m.builtins (some scope))
        fns := m.fns.alloc ⟨none, body, paramNames, some m.scopes.size⟩
        result := v })

/-- What `val_copy_deep` allocates for a function. The copy of a user function gets a new scope
under the scope of the original. -/
def copyFn (orig : Nat) (fn : FnVal) (body : List AstNode) : Eval Val :=
  Recorder.perform .undefined fun m =>
    let (v, tbl) := m.tbl.create (.function m.fns.size)
    let m' : Machine := { m with tbl := tbl, result := v }
    match fn.builtInCallback with
    | some _ => some (v, .copyFn orig m.fns.size, { m' with fns := m.fns.alloc fn })
    | none =>
      some (v, .copyFn orig m.fns.size,
        { m' with
          scopes := m.scopes.alloc (scopeInit m.builtins fn.scope)
          fns := m.fns.alloc { fn with customBody := body, scope := some m.scopes.size } })

/-- `val_copy_deep`. The copy of an array is empty. -/
def valCopyDeep (orig : Val) : Eval Val :=
  match orig.data with
  | .null => giveValue nullVal
  | .string s => do
    let text ← getStore fun store => store.strings.read s
    let s' ← newString text
    newSlot (.string s')
  | .array _ => do
    let a ← vectorInit
    newSlot (.array a)
  | .function f => do
    let fn ← Recorder.readOrThrow .undefined fun m => m.fns.read f
    match fn.builtInCallback with
    | some _ => copyFn f fn []
    | none => do
      let body ← copyBody fn.customBody
      copyFn f fn body
  | data => newSlot data

/-! ## Frames -/

/-- The state with other locals in the innermost frame. -/
def Machine.withLocals (m : Machine) (locals : Locals) : Option Machine :=
  match m.stack with
  | frame :: stack => some { m with stack := { frame with locals := locals } :: stack }
  | [] => none

def Machine.locals (m : Machine) : Locals := (m.stack.head?.map Frame.locals).getD .none

/-- A call of `eval`, which `rec` evaluates. -/
def callEval (rec : Nat → AstNode → Eval Val) (body : Option Nat) (scope : Nat) (node : AstNode) :
    Eval Val := do
  act (.call body) fun m => some { m with stack := ⟨scope, node, .none⟩ :: m.stack }
  let v ← rec scope node
  act .return fun m => some { m with stack := m.stack.tail }
  pure v

/-- `scope_init` in `eval_block`. -/
def openBlock (scope : Nat) : Eval Nat :=
  Recorder.perform .undefined fun m =>
    let s := m.scopes.size
    let m' := { m with scopes := m.scopes.alloc (scopeInit m.builtins (some scope)) }
    (m'.withLocals (.block s)).map fun m' => (s, .openScope s, m')

/-- `scope_init` in `eval_loop_stmt`, and the fields it sets. -/
def openLoop (scope : Nat) : Eval Nat :=
  Recorder.perform .undefined fun m =>
    let s := m.scopes.size
    let newScope : Scope Val :=
      { scopeInit m.builtins (some scope) with
        allowRedecl := false, mode := .scModeReuse, prevUniqueId := 0, uniqueId := 1, noRedecl := rfl }
    (({ m with scopes := m.scopes.alloc newScope } : Machine).withLocals (.loop s)).map
      fun m' => (s, .openScope s, m')

/-- `new_scope->prev_unique_id = counter`. -/
def setPrevUniqueId (s counter : Nat) : Eval Unit :=
  act (.loopIds s) fun m =>
    (m.scopes.read s).map fun scope =>
      { m with scopes := m.scopes.write s { scope with prevUniqueId := counter } }

/-- `new_scope->unique_id = counter`. -/
def setUniqueId (s counter : Nat) : Eval Unit :=
  act (.loopIds s) fun m =>
    (m.scopes.read s).map fun scope =>
      { m with scopes := m.scopes.write s { scope with uniqueId := counter } }

/-- `scope_free(new_scope)`. The values of the statements have been dropped. -/
def closeScope (s : Nat) : Eval Unit :=
  act (.closeScope s) fun m =>
    (m.scopeFree s).bind fun m => ({ m with result := nullVal } : Machine).withLocals .none

/-! ## Names -/

/-- `scope_declare_identifier`. As no scope allows redeclaration, it frees no value. -/
def declareIdentifier (s : Nat) (name : String) (value : Val) (isConst : Bool) :
    Eval ValmapSetStatus :=
  Recorder.perform .undefined fun m =>
    (scopeDeclareIdentifier m.scopes s name value isConst).map fun r =>
      (r.1, .declare s name r.1, { m with scopes := r.2.2 })

/-- `scope_declare_identifier` for a parameter. -/
def declareParam (s : Nat) (name : String) (value : Val) : Eval ValmapSetStatus :=
  Recorder.perform .undefined fun m =>
    (scopeDeclareIdentifier m.scopes s name value true).map fun r =>
      (r.1, .param s name r.1, { m with scopes := r.2.2 })

/-- `valmap_set_default` on the map of a scope. -/
def setDefaultIn (s : Nat) (name : String) (value : Val) (isConst : Bool) : Eval Unit :=
  act (.setDefault s name) fun m =>
    (scopeSetDefault m.scopes s name value isConst).map fun scopes => { m with scopes := scopes }

/-- `scope_assign_identifier`. -/
def assignIdentifier (s : Nat) (name : String) (value : Val) : Eval ValmapSetStatus :=
  Recorder.perform .undefined fun m =>
    (scopeAssignIdentifier m.scopes s name value).map fun r =>
      (r.1, .assign name r.1, { m with scopes := r.2 })

/-- `scope_resolve_identifier`. -/
def resolveIdentifier (s : Nat) (name : String) : Eval (Option EntryPtr) :=
  Recorder.readOrThrow .undefined fun m => scopeResolveIdentifier m.scopes s name

/-- Reads the value a pointer points to. -/
def derefEntry (val : EntryPtr) : Eval Val :=
  Recorder.readOrThrow .undefined fun m => (readEntry m.scopes val).map Prod.fst

/-! ## Calls -/

/-- The locals of `eval_expr_call` once `val` is known not to be `NULL`. -/
def beginCall (val : EntryPtr) : Eval Unit :=
  act (.resolve val) fun m => m.withLocals (.call val [] none)

/-- `*val`. -/
def derefVal (val : EntryPtr) : Eval Val := do
  act (.use val) some
  derefEntry val

/-- `args[i] = arg`. -/
def storeArg (arg : Val) : Eval Unit :=
  act .arg fun m =>
    match m.locals with
    | .call val args activation => m.withLocals (.call val (args ++ [arg]) activation)
    | _ => none

/-- `*val->fnval`: the function that the entry holds now. -/
def callee (val : EntryPtr) : Eval (Nat × FnVal) := do
  act (.use val) some
  Recorder.readOrThrow .undefined fun m => (readEntry m.scopes val).bind fun b => m.fnOf b.1

/-- The arguments stored so far. -/
def callArgs : Eval (List Val) :=
  Recorder.readOrThrow .undefined fun m =>
    match m.locals with
    | .call _ args _ => some args
    | _ => none

/-- The parameters are about to be bound in scope `s` of function `f`. -/
def activate (f s : Nat) : Eval Unit :=
  act (.activate f s) fun m =>
    match m.locals with
    | .call val args _ => m.withLocals (.call val args (some (f, s)))
    | .builtin args _ => m.withLocals (.builtin args (some (f, s)))
    | _ => none

/-- The locals with an activation. -/
def Locals.activate (activation : Option (Nat × Nat)) : Locals → Locals
  | .call val args _ => .call val args activation
  | .builtin args _ => .builtin args activation
  | locals => locals

/-- `fnval->scope = scope_init(scope)`, with which the activation ends. -/
def rescope (f scope : Nat) : Eval Unit :=
  act (.rescope f) fun m =>
    (m.fns.read f).bind fun fn =>
      ({ m with
        scopes := m.scopes.alloc (scopeInit m.builtins (some scope))
        fns := m.fns.write f { fn with scope := some m.scopes.size } } : Machine).withLocals
          (m.locals.activate none)

/-- A built-in function is called with the arguments. -/
def beginBuiltin : Eval (List Val) :=
  Recorder.perform .undefined fun m =>
    match m.locals with
    | .call _ args _ => (m.withLocals (.builtin args none)).map fun m => (args, .builtin, m)
    | _ => none

end Blaze
