import Blazescript.Eval.Bindings
import Blazescript.Eval.Elements

/-!
# What `array_filter` judges

The elements of an array that `array_filter` has given to its callback, with the states in which the callback was
entered.
-/

namespace Blaze

open Environment Tracing

/-- An element that the callback has been given: its slot, its copy, the scope in which the callback ran, the states
before and after its parameter was declared there, and the value of its last statement. -/
structure Judgement where
  slot : Option Nat
  value : Val
  scope : Nat
  entered : Machine
  judged : Machine
  ret : Val

/-- The callback has returned `true`. -/
def Judgement.keep (j : Judgement) : Bool := j.ret.data = .boolean true

/-- `array_filter_call_fn` for a user function. -/
def judgeElement (rec : Nat → AstNode → Eval Val) (gas scope f : Nat) (slot : Option Nat) (value : Val) :
    Eval Judgement := do
  let fn ← readFn f
  match fn.scope with
  | some newScope => do
    activate f newScope
    let entered ← Recorder.read id
    declareCallbackParams newScope value fn.paramNames
    let judged ← Recorder.read id
    let ret ← callbackBody rec f newScope gas 0 nullVal
    rescope f scope
    pure ⟨slot, value, newScope, entered, judged, ret⟩
  | none => throw .undefined

/-- The loop of `array_filter` with a user function, from the `i`-th element on. -/
def judgeFrom (rec : Nat → AstNode → Eval Val) (scope f vector newVector : Nat) : Nat → Nat → Eval (List Judgement)
  | 0, _ => throw .outOfFuel
  | gas + 1, i => do
    let data ← getStore fun store => store.vectors.read vector
    match data[i]? with
    | some slot => do
      let orig ← readSlot slot
      let value ← valCopyDeep orig
      let j ← judgeElement rec gas scope f slot value
      let data ← getStore fun store => store.vectors.read vector
      keepElement newVector (data[i]?.getD none) j.keep
      let js ← judgeFrom rec scope f vector newVector gas (i + 1)
      pure (j :: js)
    | none => pure []

/-- `array_filter` of an array with a user function: the new array, and what the callback has been given. -/
def judgeAll (rec : Nat → AstNode → Eval Val) (gas scope f vector : Nat) : Eval (Val × List Judgement) := do
  let newVector ← vectorInit
  let js ← judgeFrom rec scope f vector newVector gas 0
  let v ← giveValue (.ofData (.array newVector))
  pure (v, js)

/-- Scope `s` has just been made for a function in scope `d`: it binds the built-in functions only. -/
structure Machine.FreshIn (m : Machine) (s d : Nat) : Prop where
  parent : m.env.parent s = some d
  vars : m.Pristine s

/-- The callback has been called like a function that was declared in scope `d`: in a fresh scope there, in which
the parameter is the element. -/
structure Judgement.Fair (j : Judgement) (d : Nat) (name : String) : Prop where
  fresh : j.entered.FreshIn j.scope d
  bound : j.judged.env = j.entered.env.bind j.scope name (j.value, true)

/-! ## Tests -/

/-- `const k = 1; function f(x) { x == k; } { const k = 2; array_filter(vector(1, 1), f); }` -/
def shadowProgram : AstNode :=
  .root .unknown
    [.varDecl .unknown "k" true (some (.intLit .unknown 1)),
      .fnDecl .unknown "f" ["x"] [.binaryExpr .unknown .opCmpEq (.identifier .unknown "x") (.identifier .unknown "k")],
      .block .unknown
        [.varDecl .unknown "k" true (some (.intLit .unknown 2)),
          .exprCall .unknown "array_filter"
            [.exprCall .unknown "vector" [.intLit .unknown 1, .intLit .unknown 1], .identifier .unknown "f"]]]

/-- The slots hold no vector that has not been allocated, and not the given one. -/
def Machine.holdsNot (m : Machine) (vector : Nat) : Bool :=
  m.tbl.values.all fun u =>
    match u.data with
    | .array a => a < m.store.vectors.size && a ≠ vector
    | _ => true

/-- The slots hold integers. -/
def Machine.holdsIntegers (m : Machine) (slots : List (Option Nat)) : Bool :=
  slots.all fun slot =>
    match m.slotValue slot with
    | some u =>
      match u.data with
      | .integer _ => true
      | _ => false
    | none => true

/-- Some element has been judged elsewhere than in scope 0. -/
def judgesElsewhere (r : Val × List Judgement) : Bool :=
  r.2.any fun j => j.entered.env.parent j.scope ≠ some 0

/-- `array_filter` is about to filter an array of two equal elements with a function of `x`, and keeps one. -/
def splitsEqual (m : Machine) : Bool :=
  match m.stack with
  | ⟨scope, _, .builtin [array, callback] none⟩ :: _ =>
    match array.data, m.fnOf callback with
    | .array vector, some (f, fn) =>
      match m.store.vectors.read vector, fn.scope with
      | some slots, some _ =>
        fn.paramNames = ["x"] && m.holdsNot vector && m.holdsIntegers slots &&
          (m.valuesOf array).map (fun us => us.map Val.data) = some [.integer 1, .integer 1] &&
          endsSuch (fun v m => (m.valuesOf v).map (fun us => us.map Val.data) = some [.integer 1])
            (builtinArrayFilter (eval 6) 6 scope [array, callback] ⟨m, []⟩) &&
          stepsSuch (fun step => !decide step.pre.tbl.Grows)
            (builtinArrayFilter (eval 6) 6 scope [array, callback] ⟨m, []⟩) && decide m.tbl.Unmoved &&
          returnsSuch judgesElsewhere (judgeAll (eval 6) 6 scope f vector ⟨m, []⟩)
      | _, _ => false
    | _, _ => false
  | _ => false

end Blaze
