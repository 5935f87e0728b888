import Blazescript.Eval.Eval
import Blazescript.Eval.Release
import Blazescript.Eval.ValAlloc
import Blazescript.Language.Semantics
import Blazescript.Running.Refines

/-!
# Programs without functions in the evaluator

Which programs `meaning` covers, and how the evaluator's state stands for the layers: the scopes from the one being
evaluated up to the global one are the layers, and bind the built-in functions besides.
-/

namespace Blaze

open Arena Environment Running Tracing

/-! ## Programs -/

/-- No built-in function has the name. -/
abbrev NotBuiltin (name : String) : Prop := builtinFunctions.lookup name = none

/-- An expression that changes nothing. -/
inductive Quiet : AstNode → Prop
  | intLit (pos : Pos) (intval : Int) : Quiet (.intLit pos intval)
  | identifier (pos : Pos) (symbol : String) (hn : NotBuiltin symbol) : Quiet (.identifier pos symbol)
  | binaryExpr (pos : Pos) (operator : BinOperator) (left right : AstNode) (hl : Quiet left) (hr : Quiet right) :
      Quiet (.binaryExpr pos operator left right)

/-- What `print` and `println` may be given. -/
inductive Printable : AstNode → Prop
  | string (pos : Pos) (strval : String) : Printable (.string pos strval)
  | quiet {node : AstNode} (h : Quiet node) : Printable node

/-- The node declares no function, calls none but `print` and `println`, and has no strings and arrays but the
strings it prints. -/
inductive FirstOrder : AstNode → Prop
  | intLit (pos : Pos) (intval : Int) : FirstOrder (.intLit pos intval)
  | identifier (pos : Pos) (symbol : String) (hn : NotBuiltin symbol) : FirstOrder (.identifier pos symbol)
  | binaryExpr (pos : Pos) (operator : BinOperator) (left right : AstNode) (hl : FirstOrder left)
      (hr : FirstOrder right) : FirstOrder (.binaryExpr pos operator left right)
  | assignment (pos namePos : Pos) (symbol : String) (value : AstNode) (hn : NotBuiltin symbol)
      (hv : FirstOrder value) : FirstOrder (.assignment pos (.identifier namePos symbol) value)
  | varDecl (pos : Pos) (name : String) (isConst : Bool) (value : Option AstNode) (hn : NotBuiltin name)
      (hv : ∀ node ∈ value, FirstOrder node) : FirstOrder (.varDecl pos name isConst value)
  | print (pos : Pos) (newline : Bool) (args : List AstNode) (h : ∀ arg ∈ args, Printable arg) :
      FirstOrder (.exprCall pos (if newline then "println" else "print") args)
  | block (pos : Pos) (children : List AstNode) (h : ∀ stmt ∈ children, FirstOrder stmt) :
      FirstOrder (.block pos children)
  | ifStmt (pos : Pos) (condition ifBlock : AstNode) (elseBlock : Option AstNode) (hc : FirstOrder condition)
      (hi : FirstOrder ifBlock) (he : ∀ node ∈ elseBlock, FirstOrder node) :
      FirstOrder (.ifStmt pos condition ifBlock elseBlock)
  | loopStmt (pos : Pos) (iterCount : Option AstNode) (varname : Option String) (body : AstNode)
      (hc : ∀ node ∈ iterCount, FirstOrder node) (hv : ∀ name ∈ varname, NotBuiltin name)
      (hb : FirstOrder body) : FirstOrder (.loopStmt pos iterCount varname body)

/-! ## States -/

/-- A value of the evaluator is a given one, and owns no slot. -/
structure Val.Is (v : Val) (value : Scalar) : Prop where
  data : v.data = value.data
  selfPtr : v.selfPtr = none

/-- A binding of a scope is that of a layer. -/
def SameBinding (b : Val × Bool) (b' : Scalar × Bool) : Prop := b.1.Is b'.1 ∧ b.2 = b'.2

/-- So many values can be put into the table before its block has to be reallocated. -/
structure ValAllocTbl.HasRoom (tbl : ValAllocTbl) (room : Nat) : Prop where
  unmoved : tbl.Unmoved
  head : tbl.head = []
  room : tbl.values.length + room + 1 = tbl.capacity

namespace Machine

/-- The test of `eval_var_decl` for a declaration that replaces a value. -/
def reuses (m : Machine) (s : Nat) : Bool :=
  (m.scopes.peek s).any fun scope => scope.mode = .scModeReuse && scope.uniqueId = scope.prevUniqueId

/-- The built-in functions. -/
structure HasBuiltins (m : Machine) : Prop where
  lookup : ∀ name, m.builtins.lookup name = none ↔ NotBuiltin name
  callback : ∀ name v, m.builtins.lookup name = some v → v.nofree = true ∧ ∃ f fn callback,
    v.data = .function f ∧ m.fns.read f = some fn ∧ fn.builtInCallback = some callback ∧
      builtinFunctions.lookup name = some callback

/-- The scope binds the built-in functions, and what the layer binds. -/
structure ScopeIs (m : Machine) (s : Nat) (layer : Layer) : Prop where
  live : m.scopes.isLive s = true
  builtin : ∀ name v, m.builtins.lookup name = some v → m.env.vars s name = some (v, true)
  vars : ∀ name, NotBuiltin name → Option.Rel SameBinding (m.env.vars s name) (layer.vars name)

/-- The scopes are the layers of the memory, the innermost first. -/
structure Represents (m : Machine) (memory : Memory) (scopes : List Nat) : Prop where
  rooted : Rooted m.env.parent
  chain : ∀ s ∈ scopes.head?, chain m.env.parent s = scopes
  builtins : m.HasBuiltins
  layers : List.Forall₂ m.ScopeIs scopes memory.layers
  replaces : scopes.map m.reuses = memory.layers.map Layer.replaces
  out : m.store.stdout = memory.out
  room : m.tbl.HasRoom memory.room
  error : m.store.evalFnError = none

end Machine

/-- Why the evaluator stops is why the program stops. -/
def Err.Is (e : Err) : Halt → Prop
  | .runtimeError pos msg => e = .runtimeError pos msg
  | .unspecified => False

/-- Nothing is specified. -/
abbrev Unspecified (halt : Halt) : Prop := halt = .unspecified

/-- The evaluator has written the same as the program, and its table of values has not been moved. -/
def HasWritten (w : World Machine Event) (memory : Memory) : Prop :=
  w.state.store.stdout = memory.out ∧ w.state.tbl.Unmoved

/-- The evaluator has stopped as the program has, and has written the same. -/
abbrev Stops (e : Err) (w : World Machine Event) (halt : Halt) (memory : Memory) : Prop :=
  e.Is halt ∧ HasWritten w memory

/-- Other frames, another result, and other vectors and slots do not matter for the property. -/
def Lasting (P : Machine → Prop) : Prop :=
  ∀ m m', P m → m'.scopes = m.scopes → m'.builtins = m.builtins → m'.store.strings = m.store.strings → P m'

/-- The evaluator has a memory in some scopes, and runs some frames. -/
structure HasMemory (P : Machine → Prop) (stack : List Frame) (scopes : List Nat) (w : World Machine Event)
    (memory : Memory) : Prop where
  kept : P w.state
  represents : w.state.Represents memory scopes
  stack : w.state.stack = stack

/-- In a state with these frames and scopes, the evaluator does what is meant, and keeps a property of the state. -/
def Simulates {α β : Type} (P : Machine → Prop) (stack : List Frame) (scopes : List Nat) (x : Eval α)
    (y : Meaning β) (Q : α → β → Prop) : Prop :=
  Refines Unspecified (HasMemory P stack scopes) x y (fun a w b memory => Q a b ∧ HasMemory P stack scopes w memory) Stops

/-- The scopes are those of loops. -/
def LoopScopes (loops : List Nat) (m : Machine) : Prop :=
  ∀ s ∈ loops, (m.scopes.peek s).map Scope.mode = some .scModeReuse

/-- The evaluator does what is meant, inside some loops. -/
abbrev Means {α β : Type} (loops : List Nat) (stack : List Frame) (scopes : List Nat) (x : Eval α) (y : Meaning β)
    (Q : α → β → Prop) : Prop := Simulates (LoopScopes loops) stack scopes x y Q

/-- In a frame of its own, the evaluation of a node does what is meant. The locals of the frame do not matter when
it returns. -/
def Evaluates (P : Machine → Prop) (stack : List Frame) (scope : Nat) (rest : List Nat) (node : AstNode)
    (x : Eval Val) (y : Meaning Scalar) : Prop :=
  Refines Unspecified (HasMemory P (⟨scope, node, .none⟩ :: stack) (scope :: rest)) x y
    (fun v w value memory => v.Is value ∧
      ∃ locals, HasMemory P (⟨scope, node, locals⟩ :: stack) (scope :: rest) w memory) Stops

/-- The evaluation of a node does what the node means. -/
def NodeMeans (rec : Nat → AstNode → Eval Val) (node : AstNode) : Prop :=
  ∀ loops stack scope rest, Evaluates (LoopScopes loops) stack scope rest node (rec scope node) (meaning node)

/-- Runs of a program end as it means, whatever the input, if the fuel is enough: the evaluator returns the value or
stops with the error, and has written the same. All the time its table of values stays where it is. -/
def RunsAsMeant (root : AstNode) : Prop :=
  ∃ n, ∀ fuel ≥ n, ∀ stdin strerror,
    Running.Agrees Unspecified (fun v w value memory => v.Is value ∧ HasWritten w memory) Stops
      (runProgram fuel root stdin strerror) (meaning root .start)

/-- What the body of a loop means. A block is evaluated in the layer of the loop. -/
def bodyMeaning : AstNode → Meaning Unit
  | .block _ children => meaningAll children
  | body => do
    let _ ← meaning body
    pure ()

/-- The evaluation of the body of a loop does what the body means. -/
def BodyMeans (rec : Nat → AstNode → Eval Val) (body : AstNode) : Prop :=
  ∀ loops stack scope rest,
    Means loops stack (scope :: rest) (evalLoopBody rec scope body) (bodyMeaning body) fun _ _ => True

/-- Iteration `k` of a loop in scope `s` is about to begin: which is to replace what the layer binds, unless it is
the first one. -/
structure LoopAt (loops : List Nat) (stack : List Frame) (s : Nat) (scopes : List Nat) (k : Nat)
    (w : World Machine Event) (memory : Memory) : Prop where
  kept : LoopScopes (s :: loops) w.state
  represents : ∃ layer layers replaces, memory.layers = layer :: layers ∧ layer.replaces = decide (0 < k) ∧
    w.state.Represents { memory with layers := { layer with replaces := replaces } :: layers } (s :: scopes)
  uniqueId : (w.state.scopes.peek s).map Scope.uniqueId = some (max 1 k)
  stack : w.state.stack = stack

/-! ## Printing -/

/-- Which of the two functions is called. -/
def printFn (newline : Bool) : BuiltinFn := if newline then .println else .print

/-- What is printed for an argument. -/
inductive Prints (strings : Heap String) : Val → List Output → Prop
  | scalar {v : Val} {value : Scalar} (his : v.Is value) : Prints strings v value.printed
  | string {v : Val} {s : Nat} {text : String} (h : v.data = .string s) (hs : strings.read s = some text) :
      Prints strings v [.text text]

/-- In a call of `print` or `println` some arguments have been evaluated. The scopes are as they were when the
function was found, so the pointer to it is good. -/
structure ArgsAt (loops : List Nat) (stack : List Frame) (scope : Nat) (rest : List Nat) (node : AstNode)
    (ptr : EntryPtr) (given : Machine) (vs : List Val) (outs : List (List Output)) (w : World Machine Event)
    (memory : Memory) : Prop where
  memory : HasMemory (LoopScopes loops) (⟨scope, node, .call ptr vs none⟩ :: stack) (scope :: rest) w memory
  scopes : w.state.scopes = given.scopes
  builtins : w.state.builtins = given.builtins
  prints : List.Forall₂ (Prints w.state.store.strings) vs outs

end Blaze
