import Blazescript.Eval.Machine

/-!
# The language without functions

What programs mean that declare no functions and compute with numbers, truth values and null, as a language with
nested layers of names. Nothing is allocated or freed here, and there are no frames and no hash maps: a layer is a
function, a block is evaluated between adding a layer and dropping it, and a loop counts its iterations.
-/

namespace Blaze

/-- A value. A quotient is kept as it was divided. -/
inductive Scalar
  | integer (i : Int)
  | quotient (num den : Int)
  | boolean (b : Bool)
  | null
  deriving DecidableEq, Repr

/-- Why a program stops early. Nothing is specified of a loop with the condition `true`, of an operation that
overflows, and of more strings than there is room for. -/
inductive Halt
  | runtimeError (pos : Pos) (msg : String)
  | unspecified
  deriving DecidableEq, Repr

/-- The names of one block or loop: their values, and whether they are constants. In the layer of a loop a
declaration replaces what is there, after the first iteration. -/
structure Layer where
  vars : String → Option (Scalar × Bool)
  replaces : Bool

/-- The layers, the innermost first, what has been written, and how many strings there is room for. A string that is
printed takes a place for good. -/
structure Memory where
  layers : List Layer
  out : List Output
  room : Nat

abbrev Meaning (α : Type) := EStateM Halt Memory α

/-! ## Values -/

namespace Scalar

/-- The value in the evaluator. -/
def data : Scalar → ValData
  | integer i => .integer i
  | quotient num den => .float num den
  | boolean b => .boolean b
  | null => .null

/-- Null, `false` and zero are not truthy. -/
def truthy : Scalar → Bool
  | integer i => i ≠ 0
  | boolean b => b
  | null => false
  | quotient .. => true

/-- What a value counts as in a comparison. Every quotient counts as one. -/
def count : Scalar → Int
  | integer i => i
  | boolean b => if b then 1 else 0
  | null => 0
  | quotient .. => 1

/-- The text that is printed for a value. -/
def printed : Scalar → List Output
  | integer i => [.text ("\x1b[1;33m" ++ toString i ++ "\x1b[0m")]
  | quotient num den => [.text "\x1b[1;33m", .longDouble num den, .text "\x1b[0m"]
  | boolean b => [.text ("\x1b[36m" ++ (if b then "true" else "false") ++ "\x1b[0m")]
  | null => [.text "\x1b[2mnull\x1b[0m"]

end Scalar

/-- A comparison. The strict ones compare the types, too. -/
def compareScalars (operator : BinOperator) (l r : Scalar) : Bool :=
  match operator with
  | .opCmpLt => l.count < r.count
  | .opCmpGt => l.count > r.count
  | .opCmpGe => l.count ≥ r.count
  | .opCmpLe => l.count ≤ r.count
  | .opCmpEq => l.count = r.count
  | .opCmpEqS => l.count = r.count && l.data.type = r.data.type
  | .opCmpNe => l.count ≠ r.count
  | .opCmpNeS => l.count ≠ r.count && l.data.type = r.data.type
  | _ => false

/-- An integer, if it has 64 bits. -/
def exactly (i : Int) : Meaning Scalar :=
  if -0x8000000000000000 ≤ i ∧ i < 0x8000000000000000 then pure (.integer i) else throw .unspecified

/-- An operation on two integers. -/
def arithmetic (operator : BinOperator) (l r : Int) (rightPos : Pos) : Meaning Scalar :=
  match operator with
  | .opPlus => exactly (l + r)
  | .opMinus => exactly (l - r)
  | .opTimes => exactly (l * r)
  | .opDivide =>
    if r = 0 then throw (.runtimeError rightPos ("cannot divide " ++ toString l ++ " by zero"))
    else pure (.quotient l r)
  | .opModulus =>
    if r = 0 then throw (.runtimeError rightPos ("cannot divide " ++ toString l ++ " by zero"))
    else if l.tdiv r < 0x8000000000000000 then exactly (l.tmod r)
    else throw .unspecified
  | _ => throw .unspecified

/-- An operation on two values. -/
def operate (pos rightPos : Pos) (operator : BinOperator) (l r : Scalar) : Meaning Scalar :=
  if operator.isComparison then pure (.boolean (compareScalars operator l r))
  else
    match l, r with
    | .integer l, .integer r => arithmetic operator l r rightPos
    | l, r =>
      throw (.runtimeError pos ("unsupported binary operation (lhs: " ++ l.data.typeToStr ++ "(" ++
        toString l.data.type ++ "), rhs: " ++ r.data.typeToStr ++ "(" ++ toString r.data.type ++ "))"))

/-! ## Names -/

/-- The names that every program has. -/
def globalNames : List (String × Scalar) := [("true", .boolean true), ("false", .boolean false), ("null", .null)]

namespace Layer

/-- A layer without names. -/
def empty : Layer := ⟨fun _ => none, false⟩

/-- The layer in which a name has another value, and is a constant or not. -/
def bind (layer : Layer) (name : String) (value : Scalar) (isConst : Bool) : Layer :=
  { layer with vars := fun k => if k = name then some (value, isConst) else layer.vars k }

/-- The layer in which a name has another value. A name that is new is a constant or not, as given. -/
def replace (layer : Layer) (name : String) (value : Scalar) (isConst : Bool) : Layer :=
  layer.bind name value (((layer.vars name).map Prod.snd).getD isConst)

end Layer

/-- The innermost layer that binds the name decides. -/
def lookupIn (name : String) : List Layer → Option (Scalar × Bool)
  | [] => none
  | layer :: layers => (layer.vars name).or (lookupIn name layers)

/-- The layers after an assignment to a variable that one of them binds. -/
def assignIn (name : String) (value : Scalar) : List Layer → List Layer
  | [] => []
  | layer :: layers =>
    if (layer.vars name).isSome then layer.bind name value false :: layers
    else layer :: assignIn name value layers

/-- Changes the innermost layer. -/
def inTop (f : Layer → Layer) : Meaning Unit := modify fun memory =>
  match memory.layers with
  | layer :: layers => { memory with layers := f layer :: layers }
  | [] => memory

/-- The value of a name. -/
def valueOf (pos : Pos) (name : String) : Meaning Scalar := do
  let memory ← get
  match lookupIn name memory.layers with
  | some (value, _) => pure value
  | none => throw (.runtimeError pos ("use of undeclared identifier '" ++ name ++ "'"))

/-- Gives a variable another value. -/
def assign (pos : Pos) (name : String) (value : Scalar) : Meaning Unit := do
  let memory ← get
  match lookupIn name memory.layers with
  | some (_, false) => set { memory with layers := assignIn name value memory.layers }
  | some (_, true) => throw (.runtimeError pos ("cannot assign to constant '" ++ name ++ "'"))
  | none => throw (.runtimeError pos ("use of undeclared identifier '" ++ name ++ "'"))

/-- Declares a name in the innermost layer. -/
def declare (pos : Pos) (name : String) (value : Scalar) (isConst : Bool) : Meaning Unit := do
  let memory ← get
  match memory.layers with
  | [] => throw .unspecified
  | layer :: _ =>
    if layer.replaces then inTop fun layer => layer.replace name value isConst
    else if (layer.vars name).isSome then
      throw (.runtimeError pos ("cannot redeclare identifier '" ++ name ++ "'"))
    else inTop fun layer => layer.bind name value isConst

/-- Adds a layer. -/
def pushLayer (layer : Layer) : Meaning Unit :=
  modify fun memory => { memory with layers := layer :: memory.layers }

/-- Drops the innermost layer. -/
def popLayer : Meaning Unit :=
  modify fun memory => { memory with layers := memory.layers.tail }

def writes (out : List Output) : Meaning Unit :=
  modify fun memory => { memory with out := memory.out ++ out }

/-- Takes the place of a string. -/
def takePlace : Meaning Unit := do
  let memory ← get
  match memory.room with
  | 0 => throw .unspecified
  | room + 1 => set { memory with room := room }

/-! ## Statements -/

/-- The layer of a loop, when it begins. -/
def loopLayer : Option String → Layer
  | some varname => Layer.empty.bind varname (.integer 0) true
  | none => .empty

/-- The layer of a loop, when iteration `k` begins that is not the first. -/
def Layer.next (layer : Layer) (k : Nat) : Option String → Layer
  | some varname => { layer.replace varname (.integer k) true with replaces := true }
  | none => { layer with replaces := true }

/-- `n` iterations of a loop, from number `k` on. -/
def iterate (body : Meaning Unit) (varname : Option String) : Nat → Nat → Meaning Unit
  | 0, _ => pure ()
  | n + 1, k => do
    body
    inTop fun layer => layer.next (k + 1) varname
    iterate body varname n (k + 1)

/-- A loop with the value of its count. -/
def repeated (pos : Pos) (varname : Option String) (body : Meaning Unit) (count : Scalar) : Meaning Scalar :=
  match count with
  | .integer n =>
    if n < 0 then throw (.runtimeError pos "the iteration count must not be a negative number")
    else do
      pushLayer (loopLayer varname)
      iterate body varname n.toNat 0
      popLayer
      pure .null
  | .boolean false => pure .null
  | .boolean true => throw .unspecified
  | count => throw (.runtimeError pos ("type '" ++ count.data.typeToStr ++ "' is not iterable"))

/-- Texts with a space between two of them. -/
def spaced : List (List Output) → List Output
  | [] => []
  | [out] => out
  | out :: outs => out ++ [.text " "] ++ spaced outs

/-- A call of `print` or `println`, when the texts of the arguments are known. -/
def printOut (pos : Pos) (newline : Bool) (outs : List (List Output)) : Meaning Scalar := do
  writes (spaced outs ++ if newline then [.text "\n"] else [])
  if outs.isEmpty then
    throw (.runtimeError pos "function println() requires at least 1 argument to be passed")
  else pure .null

mutual

/-- What a node means. -/
def meaning : AstNode → Meaning Scalar
  | .intLit _ intval => pure (.integer intval)
  | .identifier pos symbol => valueOf pos symbol
  | .binaryExpr pos operator left right => do
    let l ← meaning left
    let r ← meaning right
    operate pos right.pos operator l r
  | .assignment pos assignee value => do
    let v ← meaning value
    match assignee with
    | .identifier namePos symbol => do
      assign { namePos with filename := pos.filename } symbol v
      pure v
    | _ => throw .unspecified
  | .varDecl pos name isConst value => do
    let v ← meaningOr .null value
    declare pos name v isConst
    pure .null
  | .exprCall pos identifier args => do
    let outs ← meaningPrinted args
    printOut pos (identifier = "println") outs
  | .block _ children => do
    pushLayer .empty
    meaningAll children
    popLayer
    pure .null
  | .ifStmt _ condition ifBlock elseBlock => do
    let v ← meaning condition
    if v.truthy then do
      let _ ← meaning ifBlock
      pure .null
    else do
      let _ ← meaningOr .null elseBlock
      pure .null
  | .loopStmt pos iterCount varname body => do
    let count ← meaningOr (.boolean true) iterCount
    match body with
    | .block _ children => repeated pos varname (meaningAll children) count
    | body => repeated pos varname (do
        let _ ← meaning body
        pure ()) count
  | .root _ nodes => meaningLast .null nodes
  | _ => throw .unspecified

/-- What a node means that may be missing. -/
def meaningOr (value : Scalar) : Option AstNode → Meaning Scalar
  | none => pure value
  | some node => meaning node

/-- What statements mean. -/
def meaningAll : List AstNode → Meaning Unit
  | [] => pure ()
  | stmt :: stmts => do
    let _ ← meaning stmt
    meaningAll stmts

/-- What the statements of a program mean: the value of the last one. -/
def meaningLast (value : Scalar) : List AstNode → Meaning Scalar
  | [] => pure value
  | node :: nodes => do
    let v ← meaning node
    meaningLast v nodes

/-- The texts of arguments. -/
def meaningPrinted : List AstNode → Meaning (List (List Output))
  | [] => pure []
  | .string _ strval :: args => do
    takePlace
    let outs ← meaningPrinted args
    pure ([.text strval] :: outs)
  | arg :: args => do
    let v ← meaning arg
    let outs ← meaningPrinted args
    pure (v.printed :: outs)

end

/-- The layer of a program, when it begins. -/
def globalLayer : Layer := ⟨fun name => (globalNames.lookup name).map fun value => (value, true), false⟩

/-- The memory of a program, when it begins. Six of 4095 places are taken by the built-in functions. -/
def Memory.start : Memory := ⟨[globalLayer], [], 4089⟩

end Blaze
