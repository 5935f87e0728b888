import Blazescript.Eval.Bindings
import Blazescript.Eval.Activations
import Blazescript.Eval.Kept

/-!
# What blocks and loops leave behind

The nodes that declare nothing in the scope they are evaluated in, and what evaluating one leaves of
the scopes around it.
-/

namespace Blaze

open Arena Environment Tracing

namespace AstNode

/-- The nodes below that are evaluated in the scope of the node. -/
def inScope : AstNode → List AstNode
  | block .. => []
  | fnDecl .. => []
  | loopStmt _ iterCount _ _ => iterCount.toList
  | assignment _ _ value => [value]
  | node => node.children

/-- Its evaluation may declare a name in the scope it is evaluated in. -/
inductive Leaks : AstNode → Prop
  | varDecl (pos : Pos) (name : String) (isConst : Bool) (value : Option AstNode) :
      Leaks (varDecl pos name isConst value)
  | fnDecl (pos : Pos) (identifier : String) (paramNames : List String) (body : List AstNode) :
      Leaks (fnDecl pos identifier paramNames body)
  | child {node child : AstNode} (hc : child ∈ node.inScope) (h : Leaks child) : Leaks node

/-- A block, or a loop with an expression for its count. -/
def OpensScope : AstNode → Prop
  | block .. => True
  | loopStmt _ iterCount _ _ => ∀ count ∈ iterCount, ¬ count.Leaks
  | _ => False

/-- An assignment to the name is part of it. -/
def Assigns (node : AstNode) (name : String) : Prop :=
  ∃ pos namePos value, Within (assignment pos (identifier namePos name) value) node

end AstNode

namespace Machine

/-- The step frees none of the scopes. No function is run in one of them, and a function that is not
among those given assigns none of their variables, but those with the given names. -/
def SparesAround (m : Machine) (event : Event) (scopes : List Nat) (running : List (Nat × Nat))
    (assigned : String → Prop) : Prop :=
  match event with
  | .closeScope s => ∀ t ∈ scopes, ¬ m.Releases s t
  | .call (some _) => ∀ frame stack f fn s, m.stack = frame :: stack → m.Runs frame f fn s → s ∉ scopes
  | .param s _ _ => s ∉ scopes
  | .assign name _ => m.running = running ∨ assigned name ∨
      ∀ frame stack s, m.stack = frame :: stack → m.env.binder frame.scope name = some s → s ∉ scopes
  | _ => True

/-- In `m'` the scopes from `s` up are those of `m`, none has been freed, and they bind what they bound,
but for the values of variables with the given names. -/
structure KeepsScopes (m m' : Machine) (s : Nat) (assigned : String → Prop) : Prop where
  chain : chain m'.env.parent s = Arena.chain m.env.parent s
  live : ∀ t ∈ Arena.chain m.env.parent s, m.scopes.isLive t = true → m'.scopes.isLive t = true
  bindings : m.env.RetainedIn m'.env (Arena.chain m.env.parent s) assigned

/-- A scope from `s` up binds a constant to the value, or a variable that has none of the given names. -/
def Fixed (m : Machine) (s : Nat) (assigned : String → Prop) (v : Val) : Prop :=
  ∃ t ∈ chain m.env.parent s, ∃ name isConst, m.env.vars t name = some (v, isConst) ∧
    (isConst = true ∨ ¬ assigned name)

/-- Besides, the values of the constants and of the other variables say in `m'` what they said in `m`. -/
structure KeepsAround (m m' : Machine) (s : Nat) (assigned : String → Prop) : Prop
    extends KeepsScopes m m' s assigned where
  values : ∀ v, m.Fixed s assigned v → ∀ c, m.Denotes v c → m'.Denotes v c

/-- The step leaves alone what the values of those constants and variables are made of. -/
def SparesValues (m₀ m : Machine) (event : Event) (s : Nat) (assigned : String → Prop) : Prop :=
  m.SparesKept (m₀.kept (m₀.Fixed s assigned)) event

/-! ## Tests -/

/-- A test for `SparesAround`: no function is running, and nothing but the scope is freed. -/
def sparesAround (m : Machine) (event : Event) (scopes : List Nat) (running : List (Nat × Nat)) : Bool :=
  match event with
  | .closeScope s => ((m.ownedSlots s).all fun index => m.slotScope index = none) && !scopes.contains s
  | .call (some _) => false
  | .param .. => false
  | .assign .. => m.running = running
  | _ => true

/-- A test for `SparesValues`: no slot of the scope holds a string, a function or an array. -/
def sparesValues (m : Machine) (event : Event) : Bool :=
  match event with
  | .newSlot _ => !decide m.tbl.Grows
  | .copyFn .. => !decide m.tbl.Grows
  | .closeScope s => (m.ownedSlots s).all fun index =>
      decide (m.slotScope index = none) && (m.tbl.values[index]?).all fun v => !v.data.isObject
  | _ => true

/-- A test that the scope binds no arrays. -/
def bindsNoArrays (m : Machine) (s : Nat) : Bool :=
  (m.scopes.peek s).all fun scope => scope.valmap.values.all fun v =>
    match v.data with
    | .array _ => false
    | _ => true

end Machine

/-- A test for a block that runs `array_filter`. -/
def isFilterBlock : AstNode → Bool
  | .block _
      [.ifStmt _ (.binaryExpr _ .opCmpEq (.identifier _ "n") (.intLit _ 0))
        (.block _
          [.assignment _ (.identifier _ "n") (.intLit _ 1),
            .exprCall _ "array_filter" [.exprCall _ "vector" [.intLit _ 2], .identifier _ "f"]])
        none] => true
  | _ => false

/-- A test that such a block is about to be evaluated, and leaves a name more in the scope around it. -/
def bindsMore (m : Machine) : Bool :=
  match m.stack with
  | ⟨scope, node, .none⟩ :: _ =>
    isFilterBlock node && decide (m.env.vars scope "z" = none) &&
      endsSuch (fun _ m' => (m'.env.vars scope "z").isSome) (eval 9 scope node ⟨m, []⟩)
  | _ => false

end Blaze
