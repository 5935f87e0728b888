import Blazescript.Eval.Builtins

/-!
# `eval.c`

Each function takes `rec`, which evaluates the nodes below the one it is given; `eval` closes the
recursion. Runtime errors end the program.
-/

namespace Blaze

open Arena Tracing

def throwRuntime {α : Type} (pos : Pos) (msg : String) : Eval α := throw (.runtimeError pos msg)

/-- `val_is_truthy`. -/
def valIsTruthy (val : Val) : Bool :=
  match val.data with
  | .null => false
  | .boolean boolval => boolval
  | .integer intval => intval ≠ 0
  | _ => true

/-- `val_to_int`. -/
def valToInt (val : Val) : Int :=
  match val.data with
  | .integer intval => intval
  | .null => 0
  | .boolean boolval => if boolval then 1 else 0
  | _ => 1

/-- `val_stringify`, which returns `NULL` for the other types. -/
def valStringify (val : Val) : Eval (Option String) :=
  match val.data with
  | .string s => do
    let text ← getStore fun store => store.strings.read s
    pure (some text)
  | .integer intval => pure (some (toString intval))
  | .boolean boolval => pure (some (if boolval then "true" else "false"))
  | .null => pure (some "null")
  | _ => pure none

def Val.isString (val : Val) : Bool :=
  match val.data with
  | .string _ => true
  | _ => false

/-! ## Operators -/

/-- `%c`. -/
def BinOperator.char (operator : BinOperator) : String := toString (Char.ofNat operator.code)

/-- The two strings `eval_concat` puts together; `none` where it reports an error. -/
def concatParts (left right : Val) : Eval (Option (String × String)) :=
  match left.data, right.data with
  | .string l, .string r => do
    let l ← getStore fun store => store.strings.read l
    let r ← getStore fun store => store.strings.read r
    pure (some (l, r))
  | .string l, .integer i => do
    let l ← getStore fun store => store.strings.read l
    pure (some (l, toString i))
  | .integer i, .string r => do
    let r ← getStore fun store => store.strings.read r
    pure (some (toString i, r))
  | .string l, .boolean b => do
    let l ← getStore fun store => store.strings.read l
    pure (some (l, if b then "true" else "false"))
  | .boolean b, .string r => do
    let r ← getStore fun store => store.strings.read r
    pure (some (if b then "true" else "false", r))
  | .null, .string r => do
    let r ← getStore fun store => store.strings.read r
    pure (some ("null", r))
  | .string l, .null => do
    let l ← getStore fun store => store.strings.read l
    pure (some (l, "null"))
  | _, _ => pure none

/-- `eval_concat`. The slot is allocated only once the types are known to fit: where they do not the
program ends. -/
def evalConcat (left right : Val) (leftPos : Pos) : Eval Val := do
  match ← concatParts left right with
  | some (l, r) => do
    let s ← newString (l ++ r)
    newSlot (.string s)
  | none => throwRuntime leftPos "cannot use operator '+' with type string"

def giveBool (b : Bool) : Eval Val := giveValue (.ofData (.boolean b))

/-- Whether `strcmp` finds two strings equal; of a null pointer it has no defined result. -/
def strcmpEq (leftStr rightStr : Option String) : Eval Bool :=
  match leftStr, rightStr with
  | some l, some r => pure (l = r)
  | _, _ => throw .undefined

/-- `eval_binexp_string`. -/
def evalBinexpString (operator : BinOperator) (left right : Val) (leftPos : Pos) : Eval Val :=
  if operator = .opPlus then evalConcat left right leftPos
  else do
    let leftStr ← valStringify left
    let rightStr ← valStringify right
    match operator with
    | .opCmpEq => do
      let eq ← strcmpEq leftStr rightStr
      giveBool eq
    | .opCmpEqS => do
      let eq ← strcmpEq leftStr rightStr
      giveBool (eq && left.data.type = right.data.type)
    | .opCmpNe => do
      let eq ← strcmpEq leftStr rightStr
      giveBool !eq
    | .opCmpNeS => do
      let eq ← strcmpEq leftStr rightStr
      giveBool (!eq && left.data.type = right.data.type)
    | _ => throwFatal ("unsupported operator '" ++ operator.char ++ "' (" ++
        toString operator.code ++ ") being used with type string")

/-- `eval_binexp_cmp_generic`. -/
def evalBinexpCmpGeneric (operator : BinOperator) (left right : Val) (leftPos : Pos) : Eval Val :=
  if left.isString || right.isString then evalBinexpString operator left right leftPos
  else
    let li := valToInt left
    let ri := valToInt right
    match operator with
    | .opCmpLt => giveBool (li < ri)
    | .opCmpGt => giveBool (li > ri)
    | .opCmpGe => giveBool (li ≥ ri)
    | .opCmpLe => giveBool (li ≤ ri)
    | .opCmpEq => giveBool (li = ri)
    | .opCmpEqS => giveBool (li = ri && left.data.type = right.data.type)
    | .opCmpNe => giveBool (li ≠ ri)
    | .opCmpNeS => giveBool (li ≠ ri && left.data.type = right.data.type)
    | _ => throwFatal ("unsupported comparison operator '" ++ operator.char ++ "' (" ++
        toString operator.code ++ ")")

/-- The result of an operation on `long long`, which must not overflow. -/
def giveInt (i : Int) : Eval Val :=
  if -0x8000000000000000 ≤ i ∧ i < 0x8000000000000000 then giveValue (.ofData (.integer i)) else throw .undefined

/-- `eval_binexp_int`. -/
def evalBinexpInt (operator : BinOperator) (left right : Int) (rightPos : Pos) : Eval Val :=
  match operator with
  | .opPlus => giveInt (left + right)
  | .opMinus => giveInt (left - right)
  | .opTimes => giveInt (left * right)
  | .opDivide =>
    if right = 0 then
      throwRuntime rightPos ("cannot divide " ++ toString left ++ " by zero")
    else giveValue (.ofData (.float left right))
  | .opModulus =>
    if right = 0 then
      throwRuntime rightPos ("cannot divide " ++ toString left ++ " by zero")
    else if left.tdiv right < 0x8000000000000000 then giveInt (left.tmod right)
    else throw .undefined
  | _ => throwFatal ("unsupported int operator '" ++ operator.char ++ "' (" ++
      toString operator.code ++ ")")

/-- The end of `eval_binexp`, for evaluated operands. -/
def evalBinop (pos leftPos rightPos : Pos) (operator : BinOperator) (left right : Val) : Eval Val :=
  if operator.isComparison then evalBinexpCmpGeneric operator left right leftPos
  else
    match left.data, right.data with
    | .integer l, .integer r => evalBinexpInt operator l r rightPos
    | _, _ =>
      if left.isString || right.isString then evalBinexpString operator left right leftPos
      else
        throwRuntime pos ("unsupported binary operation (lhs: " ++ left.data.typeToStr ++ "(" ++
          toString left.data.type ++ "), rhs: " ++ right.data.typeToStr ++ "(" ++
          toString right.data.type ++ "))")

section Rec

variable (rec : Nat → AstNode → Eval Val)

/-- `eval_binexp`. -/
def evalBinexp (scope : Nat) (pos : Pos) (operator : BinOperator) (left right : AstNode) :
    Eval Val := do
  let l ← callEval rec none scope left
  let r ← callEval rec none scope right
  evalBinop pos left.pos right.pos operator l r

/-! ## Names -/

/-- `eval_identifier`. -/
def evalIdentifier (scope : Nat) (pos : Pos) (symbol : String) : Eval Val := do
  match ← resolveIdentifier scope symbol with
  | none => throwRuntime pos ("use of undeclared identifier '" ++ symbol ++ "'")
  | some val => do
    let v ← derefEntry val
    giveValue v

/-- `eval_assignment`. The assignee is an identifier wherever the parser makes one. An error names the file of the
assignment, and the line and column of the assignee. -/
def evalAssignment (scope : Nat) (pos : Pos) (assignee value : AstNode) : Eval Val := do
  let val ← callEval rec none scope value
  match assignee with
  | .identifier namePos symbol => do
    let errorPos := { namePos with filename := pos.filename }
    let status ← assignIdentifier scope symbol val
    match status with
    | .setNotFound => throwRuntime errorPos ("use of undeclared identifier '" ++ symbol ++ "'")
    | .setIsConst => throwRuntime errorPos ("cannot assign to constant '" ++ symbol ++ "'")
    | _ => pure val
  | _ => throw .undefined

/-- The value of a declaration. -/
def declValue (scope : Nat) : Option AstNode → Eval Val
  | none => giveValue nullVal
  | some value => callEval rec none scope value

/-- `eval_var_decl`. -/
def evalVarDecl (scope : Nat) (pos : Pos) (name : String) (isConst : Bool)
    (value : Option AstNode) : Eval Val := do
  let val ← declValue rec scope value
  let reuse ← Recorder.readOrThrow .undefined fun m =>
    (m.scopes.read scope).map fun s => s.mode = .scModeReuse && s.uniqueId = s.prevUniqueId
  if reuse then do
    setDefaultIn scope name val isConst
    giveValue blazeNull
  else do
    let status ← declareIdentifier scope name val isConst
    if status = .setExists then throwRuntime pos ("cannot redeclare identifier '" ++ name ++ "'")
    else giveValue nullVal

/-- `eval_fn_decl`. -/
def evalFnDecl (scope : Nat) (pos : Pos) (identifier : String) (paramNames : List String)
    (body : List AstNode) : Eval Val := do
  let body ← copyBody body
  let fn ← newFn scope body paramNames
  let status ← declareIdentifier scope identifier fn true
  if status = .setExists then throwRuntime pos ("'" ++ identifier ++ "' is already defined")
  else giveValue nullVal

/-! ## Statements -/

/-- The loop over the statements of a block. -/
def evalStmts (scope : Nat) : List AstNode → Eval Unit
  | [] => pure ()
  | stmt :: stmts => do
    let _ ← callEval rec none scope stmt
    evalStmts scope stmts

/-- `eval_root`. -/
def evalRoot (scope : Nat) : List AstNode → Val → Eval Val
  | [], value => pure value
  | node :: nodes, _ => do
    let value ← callEval rec none scope node
    evalRoot scope nodes value

/-- `eval_block`. -/
def evalBlock (scope : Nat) (children : List AstNode) : Eval Val := do
  let newScope ← openBlock scope
  evalStmts rec newScope children
  closeScope newScope
  giveValue blazeNull

/-- `eval_if_stmt`. -/
def evalIfStmt (scope : Nat) (condition ifBlock : AstNode) (elseBlock : Option AstNode) :
    Eval Val := do
  let condVal ← callEval rec none scope condition
  if valIsTruthy condVal then do
    let _ ← callEval rec none scope ifBlock
    giveValue blazeNull
  else
    match elseBlock with
    | some elseBlock => do
      let _ ← callEval rec none scope elseBlock
      giveValue blazeNull
    | none => giveValue blazeNull

/-- The elements of an array literal. -/
def evalElements (scope vector : Nat) : List AstNode → Eval Unit
  | [] => pure ()
  | element :: elements => do
    let val ← callEval rec none scope element
    let copy ← valCopyDeep val
    vectorPush vector copy.selfPtr
    evalElements scope vector elements

/-- `eval_array_lit`. -/
def evalArrayLit (scope : Nat) (elements : List AstNode) : Eval Val := do
  let vector ← vectorInit
  evalElements rec scope vector elements
  giveValue (.ofData (.array vector))

/-! ## Loops -/

/-- The condition of the loop. -/
def loopContinues (iterCount : Val) (counter : Nat) : Bool :=
  match iterCount.data with
  | .boolean boolval => boolval
  | .integer intval => (counter : Int) < intval
  | _ => false

/-- The body of the loop in the scope of the loop. -/
def evalLoopBody (newScope : Nat) (body : AstNode) : Eval Unit :=
  match body with
  | .block _ children => evalStmts rec newScope children
  | body => do
    let _ ← callEval rec none newScope body
    pure ()

/-- The loop variable gets its next value. -/
def setLoopVar (newScope counter : Nat) : Option String → Eval Unit
  | some varname => setDefaultIn newScope varname (.ofData (.integer counter)) true
  | none => pure ()

/-- One iteration. -/
def loopIteration (newScope : Nat) (varname : Option String) (body : AstNode) (counter : Nat) :
    Eval Unit := do
  setPrevUniqueId newScope counter
  evalLoopBody rec newScope body
  setUniqueId newScope (counter + 1)
  setLoopVar newScope (counter + 1) varname

/-- The iterations from `counter` on. -/
def loopFrom (newScope : Nat) (varname : Option String) (body : AstNode) (iterCount : Val) :
    Nat → Nat → Eval Unit
  | 0, counter => if loopContinues iterCount counter then throw .outOfFuel else pure ()
  | gas + 1, counter =>
    if loopContinues iterCount counter then do
      loopIteration rec newScope varname body counter
      loopFrom newScope varname body iterCount gas (counter + 1)
    else pure ()

/-- A bound on the number of iterations, where the source has none. -/
def loopGas (iterCount : Val) (gas : Nat) : Nat :=
  match iterCount.data with
  | .integer intval => intval.toNat
  | _ => gas

/-- The value of the iteration count. -/
def loopCount (scope : Nat) : Option AstNode → Eval Val
  | none => giveValue (.ofData (.boolean true))
  | some iterCount => callEval rec none scope iterCount

/-- The declaration of the loop variable; the status is not looked at. -/
def declareLoopVar (newScope : Nat) : Option String → Eval Unit
  | some varname => do
    let _ ← declareIdentifier newScope varname (.ofData (.integer 0)) true
    pure ()
  | none => pure ()

/-- `eval_loop_stmt`, for a count that has been evaluated and checked. -/
def runLoop (gas scope : Nat) (varname : Option String) (body : AstNode) (iterCount : Val) :
    Eval Val := do
  let newScope ← openLoop scope
  declareLoopVar newScope varname
  loopFrom rec newScope varname body iterCount (loopGas iterCount gas) 0
  closeScope newScope
  giveValue blazeNull

/-- `eval_loop_stmt`. -/
def evalLoopStmt (gas scope : Nat) (pos : Pos) (iterCount : Option AstNode)
    (varname : Option String) (body : AstNode) : Eval Val := do
  let iterCountVal ← loopCount rec scope iterCount
  match iterCountVal.data with
  | .boolean _ => runLoop rec gas scope varname body iterCountVal
  | .integer intval =>
    if intval < 0 then
      throwRuntime pos "the iteration count must not be a negative number"
    else runLoop rec gas scope varname body iterCountVal
  | data => throwRuntime pos ("type '" ++ data.typeToStr ++ "' is not iterable")

/-! ## Calls -/

/-- The loop over the arguments. -/
def evalArgs (scope : Nat) : List AstNode → Eval Unit
  | [] => pure ()
  | arg :: args => do
    let val ← callEval rec none scope arg
    storeArg val
    evalArgs scope args

/-- The parameters from the `i`-th on. -/
def bindParams (val : EntryPtr) (pos : Pos) (identifier : String) : Nat → List Val → Eval Unit
  | _, [] => pure ()
  | i, arg :: args => do
    let (_, fn) ← callee val
    match fn.scope, fn.paramNames[i]? with
    | some s, some name => do
      let status ← declareParam s name arg
      if status = .setExists then
        throwRuntime pos ("cannot redefine '" ++ identifier ++ "' as a function parameter")
      else bindParams val pos identifier (i + 1) args
    | _, _ => throw .undefined

/-- The statements of the body from the `i`-th on; `ret` is the value of the one before. -/
def runBody (val : EntryPtr) : Nat → Nat → Option Val → Eval (Option Val)
  | 0, _, _ => throw .outOfFuel
  | gas + 1, i, ret => do
    let (f, fn) ← callee val
    match fn.customBody[i]?, fn.scope with
    | some stmt, some s => do
      let ret ← callEval rec (some f) s stmt
      runBody val gas (i + 1) (some ret)
    | some _, none => throw .undefined
    | none, _ => pure ret

/-- The call of a user function, once the arguments have been evaluated. -/
def callCustom (gas scope : Nat) (pos : Pos) (identifier : String) (val : EntryPtr) (f : Nat)
    (fn : FnVal) : Eval Val := do
  let args ← callArgs
  if fn.paramNames.length ≠ args.length then
    throwRuntime pos ("function '" ++ identifier ++ "' requires " ++
      toString fn.paramNames.length ++ " arguments, but " ++ toString args.length ++
      " were passed")
  else
    match fn.scope with
    | none => throw .undefined
    | some s => do
      activate f s
      bindParams val pos identifier 0 args
      match ← runBody rec val gas 0 none with
      | none => throw .undefined
      | some ret => do
        let copy ← valCopyDeep ret
        let (f, _) ← callee val
        rescope f scope
        pure copy

/-- `eval_expr_call`. -/
def evalExprCall (gas scope : Nat) (pos : Pos) (identifier : String) (args : List AstNode) :
    Eval Val := do
  match ← resolveIdentifier scope identifier with
  | none => throwRuntime pos ("undefined function '" ++ identifier ++ "'")
  | some val => do
    beginCall val
    let v ← derefVal val
    match v.data with
    | .function _ => do
      evalArgs rec scope args
      let (f, fn) ← callee val
      match fn.builtInCallback with
      | some callback => do
        let args ← beginBuiltin
        let ret ← callBuiltin rec gas scope callback args
        let error ← getStore fun store => some store.evalFnError
        match error with
        | some error => throwRuntime pos error
        | none => pure ret
      | none => callCustom rec gas scope pos identifier val f fn
    | _ => throwRuntime pos ("'" ++ identifier ++ "' is not a function")

/-- The dispatch of `eval` on the node type. -/
def evalNode (gas scope : Nat) (node : AstNode) : Eval Val :=
  match node with
  | .intLit _ intval => giveValue (.ofData (.integer intval))
  | .root _ nodes => do
    let null ← giveValue nullVal
    evalRoot rec scope nodes null
  | .string _ strval => do
    let s ← newString strval
    newSlot (.string s)
  | .binaryExpr pos operator left right => evalBinexp rec scope pos operator left right
  | .varDecl pos name isConst value => evalVarDecl rec scope pos name isConst value
  | .identifier pos symbol => evalIdentifier scope pos symbol
  | .assignment pos assignee value => evalAssignment rec scope pos assignee value
  | .exprCall pos identifier args => evalExprCall rec gas scope pos identifier args
  | .fnDecl pos identifier paramNames body => evalFnDecl scope pos identifier paramNames body
  | .arrayLit _ elements => evalArrayLit rec scope elements
  | .block _ children => evalBlock rec scope children
  | .ifStmt _ condition ifBlock elseBlock => evalIfStmt rec scope condition ifBlock elseBlock
  | .loopStmt pos iterCount varname body => evalLoopStmt rec gas scope pos iterCount varname body
  | .importStmt _ => throwFatal "cannot evaluate AST: unsupported AST node"

end Rec

/-- `eval`. The fuel bounds the depth of the recursion and the length of loops that the program does
not bound. -/
def eval : Nat → Nat → AstNode → Eval Val
  | 0, _, _ => throw .outOfFuel
  | fuel + 1, scope, node => evalNode (eval fuel) fuel scope node

/-- The call of `eval` in `process_file`, on the tree of a program. -/
def runProgram (fuel : Nat) (root : AstNode) (stdin : List String) (strerror : String) :
    EStateM.Result Err (World Machine Event) Val :=
  eval fuel 0 root ⟨.initial root stdin strerror, []⟩

/-- The final state of a program, whether it returns or stops early. -/
def finalWorld (r : EStateM.Result Err (World Machine Event) Val) : World Machine Event :=
  match r with
  | .ok _ w => w
  | .error _ w => w

/-- Why a program stops early, if it does. -/
def errorOf (r : EStateM.Result Err (World Machine Event) Val) : Option Err :=
  match r with
  | .ok .. => none
  | .error e _ => some e

/-- The steps of a program, the newest first. -/
def programSteps (fuel : Nat) (root : AstNode) (stdin : List String) (strerror : String) :
    List (Step Machine Event) :=
  (finalWorld (runProgram fuel root stdin strerror)).trace

end Blaze
