import Blazescript.Eval.Operators

/-!
# What a copy keeps

What a value says, whatever it points to, and the values that `val_copy_deep` returns as they are.
-/

namespace Blaze

open Arena Tracing

/-- A function is its callback, its parameters and its statements. -/
inductive Content
  | integer (intval : Int)
  | float (num den : Int)
  | string (text : String)
  | function (callback : Option BuiltinFn) (paramNames : List String) (body : List AstNode)
  | null
  | boolean (boolval : Bool)
  | array (elements : List Content)

/-- What a value says, when all that it points to may be read. -/
inductive Machine.Denotes (m : Machine) : Val → Content → Prop
  | integer {v : Val} {i : Int} (h : v.data = .integer i) : Denotes m v (.integer i)
  | float {v : Val} {num den : Int} (h : v.data = .float num den) : Denotes m v (.float num den)
  | string {v : Val} {s : Nat} {text : String} (h : v.data = .string s) (hs : m.store.strings.read s = some text) :
      Denotes m v (.string text)
  | function {v : Val} {f : Nat} {fn : FnVal} (h : v.data = .function f) (hf : m.fns.read f = some fn) :
      Denotes m v (.function fn.builtInCallback fn.paramNames fn.customBody)
  | null {v : Val} (h : v.data = .null) : Denotes m v .null
  | boolean {v : Val} {b : Bool} (h : v.data = .boolean b) : Denotes m v (.boolean b)
  | array {v : Val} {a : Nat} {vs : List Val} {cs : List Content} (h : v.data = .array a)
      (ha : m.elements a = some vs) (hlength : vs.length = cs.length)
      (hcs : ∀ p ∈ vs.zip cs, Denotes m p.1 p.2) : Denotes m v (.array cs)

/-- A copy says the same: the array has no elements, the statements of the function are copied as they are. -/
def Content.Survives : Content → Prop
  | array elements => elements = []
  | function none _ body => ∀ copies, parserAstDeepCopyAll body = .ok copies → copies = body
  | _ => True

/-- Two states in which the same may be read. -/
structure SameReads (m m' : Machine) : Prop where
  strings : ∀ s text, m.store.strings.read s = some text → m'.store.strings.read s = some text
  vectors : ∀ a slots, m.store.vectors.read a = some slots → m'.store.vectors.read a = some slots
  values : ∀ (index : Nat) (v : Val), m.tbl.values[index]? = some v → m'.tbl.values[index]? = some v
  fns : ∀ f fn, m.fns.read f = some fn → ∃ fn', m'.fns.read f = some fn' ∧
    fn'.builtInCallback = fn.builtInCallback ∧ fn'.paramNames = fn.paramNames ∧ fn'.customBody = fn.customBody

/-! ## Calls -/

/-- A call of a user function, up to the value of its last statement. -/
def lastValue (rec : Nat → AstNode → Eval Val) (gas scope : Nat) (pos : Pos) (identifier : String)
    (args : List AstNode) : Eval (Option Val) := do
  match ← resolveIdentifier scope identifier with
  | none => throw .undefined
  | some val => do
    beginCall val
    let v ← derefVal val
    match v.data with
    | .function _ => do
      evalArgs rec scope args
      let (f, fn) ← callee val
      let args ← callArgs
      match fn.builtInCallback, fn.scope with
      | none, some s => do
        if fn.paramNames.length ≠ args.length then throw .undefined
        else do
          activate f s
          bindParams val pos identifier 0 args
          runBody rec val gas 0 none
      | _, _ => throw .undefined
    | _ => throw .undefined

/-- The end of `callCustom`, from the value of the last statement on. -/
def finishCall (scope : Nat) (val : EntryPtr) : Option Val → Eval Val
  | none => throw .undefined
  | some ret => do
    let copy ← valCopyDeep ret
    let (f, _) ← callee val
    rescope f scope
    pure copy

/-- The call returns the value of the last statement, or null if there is none. -/
def ReturnsLast (call : Eval Val) (w : World Machine Event) (last : Option Val) (m : Machine) : Prop :=
  ∃ v w', call w = .ok v w' ∧
    match last with
    | none => w'.state.Denotes v .null
    | some ret => ∀ c, m.Denotes ret c → w'.state.Denotes v c

/-! ## Tests -/

/-- A test that a computation returns a result of some kind. -/
def returnsSuch {α : Type} (p : α → Bool) : EStateM.Result Err (World Machine Event) α → Bool
  | .ok a _ => p a
  | .error .. => false

/-- The state after the declaration of a function `f` without parameters. -/
def worldWith (body : List AstNode) : World Machine Event :=
  finalWorld (evalFnDecl 0 .unknown "f" [] body ⟨.initial (.root .unknown []) [] "", []⟩)

end Blaze
