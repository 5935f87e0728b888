import Blazescript.Syntax.Token

/-!
# `parser.c`

The functions of the parser take the ones below them as arguments where the source calls them
recursively: `parseExpr` for `parser_parse_expr` and `parseStmt` for `parser_parse_stmt`. The recursion
is closed at the end, with a bound on its depth that also bounds the loops.
-/

namespace Blaze

/-- `struct parser`, with a record of the tokens it has moved over. -/
structure Parser where
  index : Nat
  tokens : List LexToken
  filename : Option String
  consumed : List LexToken

/-- Why parsing ends: an error at a token, something that the source leaves undefined (a token past the
end, since the assertions are compiled out, or an operator that is none), or a bound that is too small. -/
inductive ParserError
  | syntaxError (token : LexToken) (msg : String)
  | undefined
  | outOfFuel
  deriving DecidableEq, Repr

abbrev ParserM (α : Type) := EStateM ParserError Parser α

/-- `parser_at`. -/
def parserAt : ParserM LexToken := fun p =>
  match p.tokens[p.index]? with
  | some token => .ok token p
  | none => .error .undefined p

/-- `parser_ret_forward`. -/
def parserRetForward : ParserM LexToken := fun p =>
  match p.tokens[p.index]? with
  | some token => .ok token { p with index := p.index + 1, consumed := p.consumed ++ [token] }
  | none => .error .undefined p

/-- `parser_is_eof`. -/
def parserIsEof : ParserM Bool := fun p =>
  match p.tokens[p.index]? with
  | some token => .ok (token.type == .tEof) p
  | none => .ok true p

/-- `PARSER_ERROR_ARGS`. -/
def parserError {α : Type} (msg : String) : ParserM α := do
  let token ← parserAt
  throw (.syntaxError token msg)

/-- `parser_expect`. -/
def parserExpect (type : LexTokenType) : ParserM LexToken := do
  if ← parserIsEof then parserError ("unexpected end of file, expecting " ++ lexTokenToStr type)
  else do
    let token ← parserAt
    if token.type ≠ type then
      parserError ("unexpected token '" ++ token.value ++ "' (" ++ lexTokenToStr token.type ++
        "), expecting " ++ lexTokenToStr type)
    else parserRetForward

/-- A loop `while (cond) body` that changes a value; the body says whether the loop goes on. -/
def parserWhile {α : Type} (cond : ParserM Bool) (body : α → ParserM (α × Bool)) :
    Nat → α → ParserM α
  | 0, _ => throw .outOfFuel
  | n + 1, a => do
    if ← cond then do
      let (a, again) ← body a
      if again then parserWhile cond body n a else pure a
    else pure a

/-- The condition of the loops over what stands before a closing token. -/
def parserBefore (type : LexTokenType) : ParserM Bool := do
  if ← parserIsEof then pure false
  else do
    let token ← parserAt
    pure (token.type != type)

/-! ## Expressions -/

/-- The value of decimal digits. -/
def digitsValue (digits : List Char) : Nat := digits.foldl (fun v c => 10 * v + (c.toNat - 48)) 0

/-- `atoll`, which stays in the range of its type. -/
def atoll (s : String) : Int :=
  match s.toList.dropWhile fun c => c = ' ' ∨ 9 ≤ c.toNat ∧ c.toNat ≤ 13 with
  | '-' :: cs => max (-0x8000000000000000) (-(digitsValue (cs.takeWhile Char.isDigit) : Int))
  | '+' :: cs => min 0x7FFFFFFFFFFFFFFF (digitsValue (cs.takeWhile Char.isDigit))
  | cs => min 0x7FFFFFFFFFFFFFFF (digitsValue (cs.takeWhile Char.isDigit))

/-- The operator with a number. -/
def BinOperator.ofCode (code : Nat) : Option BinOperator :=
  [opPlus, opMinus, opDivide, opTimes, opModulus, opCmpLt, opCmpGt, opCmpGe, opCmpLe, opCmpEq, opCmpEqS,
    opCmpNe, opCmpNeS].find? fun operator => operator.code = code

/-- What stands where, for a node made from a single token. -/
def LexToken.pos (token : LexToken) (filename : Option String) : Pos :=
  ⟨filename, some token.lineStart, some token.lineEnd, some token.columnStart, some token.columnEnd⟩

/-- A node from a token to the one that the parser is at. -/
def LexToken.posTo (start stop : LexToken) (filename : Option String) : Pos :=
  ⟨filename, some start.lineStart, some stop.lineEnd, some start.columnStart, some stop.columnEnd⟩

section Expressions

variable (parseExpr : ParserM AstNode)

/-- `parser_parse_primary_expr`. -/
def parserParsePrimaryExpr : ParserM AstNode := do
  let token ← parserAt
  let filename := (← get).filename
  match token.type with
  | .tIdentifier => do
    let _ ← parserRetForward
    pure (.identifier (token.pos filename) token.value)
  | .tIntLit => do
    let _ ← parserRetForward
    pure (.intLit (token.pos filename) (atoll token.value))
  | .tString => do
    let _ ← parserRetForward
    pure (.string (token.pos filename) token.value)
  | .tParenOpen => do
    let _ ← parserRetForward
    let node ← parseExpr
    let _ ← parserExpect .tParenClose
    pure node
  | _ =>
    parserError ("unexpected token '" ++ token.value ++ "' (" ++ lexTokenToStr token.type ++ ")")

/-- The lookahead of `parser_parse_call_expr`. -/
def Parser.isCall (p : Parser) : Bool :=
  p.index + 2 < p.tokens.length && p.tokens[p.index]?.any (·.type == .tIdentifier) &&
    p.tokens[p.index + 1]?.any (·.type == .tParenOpen)

/-- An iteration of the loop over the arguments of a call: the comma after an argument is optional. -/
def parserParseArg (args : List AstNode) : ParserM (List AstNode × Bool) := do
  let param ← parseExpr
  let token ← parserAt
  if token.type = .tComma then do
    let _ ← parserExpect .tComma
    pure (args ++ [param], true)
  else pure (args ++ [param], true)

/-- `parser_parse_call_expr`. -/
def parserParseCallExpr (n : Nat) : ParserM AstNode := do
  if (← get).isCall then do
    let filename := (← get).filename
    let identifier ← parserExpect .tIdentifier
    let _ ← parserExpect .tParenOpen
    let args ← parserWhile (parserBefore .tParenClose) (parserParseArg parseExpr) n []
    let _ ← parserExpect .tParenClose
    let stop ← parserAt
    pure (.exprCall (identifier.posTo stop filename) identifier.value args)
  else parserParsePrimaryExpr parseExpr

/-- The operator with a text, by comparisons and else by the first character. The cast of another
character gives no operator. -/
def BinOperator.ofText (text : String) : Option BinOperator :=
  if text = ">=" then some .opCmpGe
  else if text = "<=" then some .opCmpLe
  else if text = "==" then some .opCmpEq
  else if text = "===" then some .opCmpEqS
  else if text = "!=" then some .opCmpNe
  else if text = "!==" then some .opCmpNeS
  else text.toList.head?.bind fun c => if c.toNat < 128 then ofCode c.toNat else none

/-- `parser_parse_binexp_operator`. -/
def parserParseBinexpOperator : ParserM BinOperator := do
  let token ← parserExpect .tBinaryOperator
  match BinOperator.ofText token.value with
  | some operator => pure operator
  | none => throw .undefined

/-- `parser_parse_binexp_inner`, which takes the operator as a `char`. -/
def parserParseBinexpInner (operator : BinOperator) (left right : AstNode) : ParserM AstNode := do
  let filename := (← get).filename
  match BinOperator.ofCode (operator.code % 256) with
  | some operator =>
    pure (.binaryExpr ⟨filename, left.pos.lineStart, right.pos.lineEnd, left.pos.columnStart,
      right.pos.columnEnd⟩ operator left right)
  | none => throw .undefined

/-- The condition of the loops over operators. -/
def parserAtOperator (isOperator : String → Bool) : ParserM Bool := do
  if ← parserIsEof then pure false
  else do
    let token ← parserAt
    pure (token.type == .tBinaryOperator && isOperator token.value)

/-- An iteration of the loops over operators. -/
def parserParseBinexpRight (operand : ParserM AstNode) (left : AstNode) : ParserM (AstNode × Bool) := do
  let operator ← parserParseBinexpOperator
  let right ← operand
  let node ← parserParseBinexpInner operator left right
  pure (node, true)

/-- Operands with operators of one level between them, from the left. -/
def parserParseBinexp (isOperator : String → Bool) (operand : ParserM AstNode) (n : Nat) :
    ParserM AstNode := do
  let left ← operand
  parserWhile (parserAtOperator isOperator) (parserParseBinexpRight operand) n left

/-- The text begins with one of the characters. -/
def startsWithOneOf (chars : List Char) (value : String) : Bool :=
  value.toList.head?.any fun c => chars.contains c

/-- `*`, `/` and `%`, by their first character. -/
def isMultiplicative (value : String) : Bool := startsWithOneOf ['*', '/', '%'] value

/-- `+` and `-`, by their first character. -/
def isAdditive (value : String) : Bool := startsWithOneOf ['+', '-'] value

/-- The comparisons; `>` and `<` by their first character. -/
def isComparison (value : String) : Bool :=
  startsWithOneOf ['>', '<'] value || value == ">=" || value == "<=" || value == "==" || value == "===" ||
    value == "!=" || value == "!=="

/-- `parser_parse_binexp_multiplicative`. -/
def parserParseBinexpMultiplicative (n : Nat) : ParserM AstNode :=
  parserParseBinexp isMultiplicative (parserParseCallExpr parseExpr n) n

/-- `parser_parse_binexp_additive`. -/
def parserParseBinexpAdditive (n : Nat) : ParserM AstNode :=
  parserParseBinexp isAdditive (parserParseBinexpMultiplicative parseExpr n) n

/-- `parser_parse_binexp_comparison`. -/
def parserParseBinexpComparison (n : Nat) : ParserM AstNode :=
  parserParseBinexp isComparison (parserParseBinexpAdditive parseExpr n) n

/-- An iteration of the loop over the elements of an array. -/
def parserParseElement (elements : List AstNode) : ParserM (List AstNode × Bool) := do
  let expr ← parseExpr
  let token ← parserAt
  if token.type = .tSquareBraceClose then pure (elements ++ [expr], false)
  else do
    let _ ← parserExpect .tComma
    pure (elements ++ [expr], true)

/-- `parser_parse_array_lit`. The position of the node is left uninitialised. -/
def parserParseArrayLit (n : Nat) : ParserM AstNode := do
  let token ← parserAt
  if token.type ≠ .tArray then parserParseBinexpComparison parseExpr n
  else do
    let _ ← parserExpect .tArray
    let _ ← parserExpect .tSquareBraceOpen
    let elements ← parserWhile (parserBefore .tSquareBraceClose) (parserParseElement parseExpr) n []
    let _ ← parserExpect .tSquareBraceClose
    pure (.arrayLit .unknown elements)

/-- The lookahead of `parser_parse_assignment_expr`, once it is not at the end. -/
def Parser.isAssignment (p : Parser) : Bool :=
  p.tokens[p.index + 1]?.any (·.type == .tAssignment)

/-- `parser_parse_assignment_expr`. -/
def parserParseAssignmentExpr (n : Nat) : ParserM AstNode := do
  let eof ← parserIsEof
  if !eof && (← get).isAssignment then do
    let start ← parserExpect .tIdentifier
    let _ ← parserExpect .tAssignment
    let value ← parseExpr
    let filename := (← get).filename
    let stop ← parserAt
    pure (.assignment (start.posTo stop filename) (.identifier (start.pos none) start.value) value)
  else parserParseArrayLit parseExpr n

end Expressions

/-- `parser_parse_expr`. -/
def parserParseExpr : Nat → ParserM AstNode
  | 0 => throw .outOfFuel
  | n + 1 => parserParseAssignmentExpr (parserParseExpr n) n

/-! ## Statements -/

/-- The position of a node whose other fields are zero. -/
def Pos.zero : Pos := ⟨none, some 0, some 0, some 0, some 0⟩

section Statements

variable (parseExpr parseStmt : ParserM AstNode)

/-- `as` and the name of the variable, in the header of a loop. -/
def parserParseLoopAs : ParserM (Option String) := do
  let token ← parserAt
  if token.type ≠ .tParenClose then do
    let _ ← parserExpect .tAs
    let varname ← parserExpect .tIdentifier
    pure (some varname.value)
  else pure none

/-- The header of a loop in parentheses: the count and the name of the variable. -/
def parserParseLoopHeader : ParserM (Option AstNode × Option String) := do
  let token ← parserAt
  if token.type = .tParenOpen then do
    let _ ← parserExpect .tParenOpen
    let iterCount ← parseExpr
    let iterVarname ← parserParseLoopAs
    let _ ← parserExpect .tParenClose
    pure (some iterCount, iterVarname)
  else pure (none, none)

/-- A name after `loop` and its header, which takes the place of the one in the header. -/
def parserParseLoopVarname (iterVarname : Option String) : ParserM (Option String) := do
  let token ← parserAt
  if token.type = .tIdentifier then do
    let varname ← parserExpect .tIdentifier
    pure (some varname.value)
  else pure iterVarname

/-- `parser_parse_loop_stmt`. -/
def parserParseLoopStmt : ParserM AstNode := do
  let start ← parserAt
  let filename := (← get).filename
  let _ ← parserExpect .tLoop
  let header ← parserParseLoopHeader parseExpr
  let iterVarname ← parserParseLoopVarname header.2
  let body ← parseStmt
  let stop ← parserAt
  pure (.loopStmt (start.posTo stop filename) header.1 iterVarname body)

/-- The part of an `if` after its first statement. -/
def parserParseElse : ParserM (Option AstNode) := do
  let token ← parserAt
  if token.type = .tElse then do
    let _ ← parserExpect .tElse
    let elseBody ← parseStmt
    pure (some elseBody)
  else pure none

/-- `parser_parse_if`. -/
def parserParseIf : ParserM AstNode := do
  let _ ← parserExpect .tIf
  let _ ← parserExpect .tParenOpen
  let condition ← parseExpr
  let _ ← parserExpect .tParenClose
  let ifBody ← parseStmt
  let elseBody ← parserParseElse parseStmt
  pure (.ifStmt .zero condition ifBody elseBody)

/-- An iteration of the loops over statements. -/
def parserParseChild (children : List AstNode) : ParserM (List AstNode × Bool) := do
  let child ← parseStmt
  pure (children ++ [child], true)

/-- `parser_parse_block`. -/
def parserParseBlock (n : Nat) : ParserM AstNode := do
  let _ ← parserExpect .tBlockBraceOpen
  let children ← parserWhile (parserBefore .tBlockBraceClose) (parserParseChild parseStmt) n []
  let _ ← parserExpect .tBlockBraceClose
  pure (.block .zero children)

/-- An iteration of the loop over the parameters of a function. -/
def parserParseParam (paramNames : List String) : ParserM (List String × Bool) := do
  let identifier ← parserExpect .tIdentifier
  let token ← parserAt
  if token.type = .tParenClose then pure (paramNames ++ [identifier.value], false)
  else do
    let _ ← parserExpect .tComma
    pure (paramNames ++ [identifier.value], true)

/-- `parser_parse_fn_decl`. -/
def parserParseFnDecl (n : Nat) : ParserM AstNode := do
  let first ← parserExpect .tFunction
  let fnName ← parserExpect .tIdentifier
  let _ ← parserExpect .tParenOpen
  let filename := (← get).filename
  let paramNames ← parserWhile (parserBefore .tParenClose) parserParseParam n []
  let _ ← parserExpect .tParenClose
  let _ ← parserExpect .tBlockBraceOpen
  let body ← parserWhile (parserBefore .tBlockBraceClose) (parserParseChild parseStmt) n []
  let last ← parserExpect .tBlockBraceClose
  pure (.fnDecl (first.posTo last filename) fnName.value paramNames body)

/-- `parser_parse_var_decl`. -/
def parserParseVarDecl : ParserM AstNode := do
  let start ← parserRetForward
  let isConst := start.type == .tConst
  let identifier ← parserExpect .tIdentifier
  let filename := (← get).filename
  let token ← parserAt
  if token.type = .tSemicolon then
    if isConst then
      parserError ("constant '" ++ identifier.value ++
        "' must have a value assigned to it when declaring")
    else pure (.varDecl (start.posTo token filename) identifier.value isConst none)
  else do
    let _ ← parserExpect .tAssignment
    let value ← parseExpr
    let stop ← parserAt
    pure (.varDecl (start.posTo stop filename) identifier.value isConst (some value))

/-- The statements by their first token, and whether a semicolon is expected. -/
def parserParseStmtKind (n : Nat) (type : LexTokenType) : ParserM (AstNode × Bool) :=
  match type with
  | .tVar | .tConst => do
    let stmt ← parserParseVarDecl parseExpr
    pure (stmt, true)
  | .tFunction => do
    let stmt ← parserParseFnDecl parseStmt n
    pure (stmt, false)
  | .tBlockBraceOpen => do
    let stmt ← parserParseBlock parseStmt n
    pure (stmt, false)
  | .tIf => do
    let stmt ← parserParseIf parseExpr parseStmt
    pure (stmt, false)
  | .tLoop => do
    let stmt ← parserParseLoopStmt parseExpr parseStmt
    pure (stmt, false)
  | _ => do
    let stmt ← parseExpr
    pure (stmt, true)

/-- The semicolon that ends some of the statements. -/
def parserExpectSemicolon (semicolonIsExpected : Bool) : ParserM Unit :=
  if semicolonIsExpected then do
    let _ ← parserExpect .tSemicolon
    pure ()
  else pure ()

/-- The semicolons after a statement. -/
def parserSkipSemicolons (n : Nat) : ParserM Unit :=
  parserWhile (do return (← parserAt).type == .tSemicolon)
    (fun _ => do
      let _ ← parserRetForward
      pure ((), true)) n ()

/-- The body of `parser_parse_stmt`. -/
def parserParseStmtBody (n : Nat) : ParserM AstNode := do
  let token ← parserAt
  let stmt ← parserParseStmtKind parseExpr parseStmt n token.type
  parserExpectSemicolon stmt.2
  parserSkipSemicolons n
  pure stmt.1

end Statements

/-- `parser_parse_stmt`. -/
def parserParseStmt : Nat → ParserM AstNode
  | 0 => throw .outOfFuel
  | n + 1 => parserParseStmtBody (parserParseExpr (n + 1)) (parserParseStmt n) n

/-- `parser_create_ast_node`. -/
def parserCreateAstNode (n : Nat) : ParserM AstNode := do
  let nodes ← parserWhile (do return !(← parserIsEof)) (parserParseChild (parserParseStmt n)) n []
  pure (.root ⟨(← get).filename, none, none, none, none⟩ nodes)

/-- `parser_init` and `parser_set_tokens`. -/
def Parser.init (tokens : List LexToken) (filename : Option String) : Parser := ⟨0, tokens, filename, []⟩

end Blaze
