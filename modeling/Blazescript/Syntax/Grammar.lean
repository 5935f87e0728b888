import Blazescript.Syntax.Parser

/-!
# The grammar

The sequences of tokens that make up expressions and statements, with the syntax trees they stand for.
Positions are left out of the trees.
-/

namespace Blaze

/-! ## Trees without positions -/

mutual

/-- The tree without the positions of its nodes. -/
def AstNode.erase : AstNode → AstNode
  | .root _ nodes => .root .unknown (eraseAll nodes)
  | .intLit _ intval => .intLit .unknown intval
  | .binaryExpr _ operator left right => .binaryExpr .unknown operator left.erase right.erase
  | .identifier _ symbol => .identifier .unknown symbol
  | .string _ strval => .string .unknown strval
  | .varDecl _ name isConst (some value) => .varDecl .unknown name isConst (some value.erase)
  | .varDecl _ name isConst none => .varDecl .unknown name isConst none
  | .assignment _ assignee value => .assignment .unknown assignee.erase value.erase
  | .exprCall _ identifier args => .exprCall .unknown identifier (eraseAll args)
  | .fnDecl _ identifier paramNames body => .fnDecl .unknown identifier paramNames (eraseAll body)
  | .arrayLit _ elements => .arrayLit .unknown (eraseAll elements)
  | .importStmt _ => .importStmt .unknown
  | .block _ children => .block .unknown (eraseAll children)
  | .ifStmt _ condition ifBlock (some elseBlock) =>
    .ifStmt .unknown condition.erase ifBlock.erase (some elseBlock.erase)
  | .ifStmt _ condition ifBlock none => .ifStmt .unknown condition.erase ifBlock.erase none
  | .loopStmt _ (some iterCount) iterVarname body =>
    .loopStmt .unknown (some iterCount.erase) iterVarname body.erase
  | .loopStmt _ none iterVarname body => .loopStmt .unknown none iterVarname body.erase

def eraseAll : List AstNode → List AstNode
  | [] => []
  | node :: nodes => node.erase :: eraseAll nodes

end

/-! ## Derivations -/

/-- The levels of binary operators, from the loosest. -/
inductive Level
  | comparison
  | additive
  | multiplicative
  deriving DecidableEq, Repr

/-- The operators of a level, with their texts. -/
def Level.operators : Level → List (String × BinOperator)
  | comparison =>
    [("<", .opCmpLt), (">", .opCmpGt), ("<=", .opCmpLe), (">=", .opCmpGe), ("==", .opCmpEq),
      ("===", .opCmpEqS), ("!=", .opCmpNe), ("!==", .opCmpNeS)]
  | additive => [("+", .opPlus), ("-", .opMinus)]
  | multiplicative => [("*", .opTimes), ("/", .opDivide), ("%", .opModulus)]

inductive Nonterminal
  | primary
  | call
  /-- operands of a level or a tighter one, with operators of the level between them -/
  | binary (level : Level)
  /-- an array literal or a comparison -/
  | operand
  | expr
  | args
  | elements
  /-- a statement without the semicolons that may follow it -/
  | core
  | stmt
  | stmts
  deriving DecidableEq, Repr

/-- What stands between the operators of a level. -/
def Level.operand : Level → Nonterminal
  | comparison => .binary .additive
  | additive => .binary .multiplicative
  | multiplicative => .call

/-- Two points in which grammars differ: what may separate the arguments of a call, and which texts are
operators of a level. -/
structure Rules where
  sep : List LexToken → Prop
  operator : Level → String → BinOperator → Prop

/-- The language: one comma, and the operators by their texts. -/
def language : Rules where
  sep s := ∃ comma, s = [comma] ∧ comma.type = .tComma
  operator level text operator := (text, operator) ∈ level.operators

/-- The operators of a level as the parser tells them, mostly by their first character. -/
def Level.isOperator : Level → String → Bool
  | comparison => isComparison
  | additive => isAdditive
  | multiplicative => isMultiplicative

/-- What the parser takes for the language: the commas between the arguments of a call may be missing,
and so may what should follow the first character of an operator. -/
def parserRules : Rules where
  sep s := s = [] ∨ ∃ comma, s = [comma] ∧ comma.type = .tComma
  operator level text operator := level.isOperator text ∧ BinOperator.ofText text = some operator

/-- Parameters, with one comma after each but the last, where there may be one. -/
inductive Params : List LexToken → List String → Prop
  | nil : Params [] []
  | last {x : LexToken} (hx : x.type = .tIdentifier) : Params [x] [x.value]
  | cons {x c : LexToken} {u : List LexToken} {names : List String} (hx : x.type = .tIdentifier)
      (hc : c.type = .tComma) (h : Params u names) : Params (x :: c :: u) (x.value :: names)

/-- A name that may stand after `loop` and its header. -/
inductive LoopVarname : List LexToken → Option String → Prop
  | none : LoopVarname [] .none
  | some {x : LexToken} (hx : x.type = .tIdentifier) : LoopVarname [x] (.some x.value)

/-- `as` and a name, in the header of a loop. -/
inductive LoopAs : List LexToken → Option String → Prop
  | none : LoopAs [] .none
  | some {a x : LexToken} (ha : a.type = .tAs) (hx : x.type = .tIdentifier) :
      LoopAs [a, x] (.some x.value)

/-- The tokens are derived from the nonterminal and stand for the trees. -/
inductive Derives (r : Rules) : Nonterminal → List LexToken → List AstNode → Prop
  | identifier {t : LexToken} (ht : t.type = .tIdentifier) :
      Derives r .primary [t] [.identifier .unknown t.value]
  | intLit {t : LexToken} (ht : t.type = .tIntLit) :
      Derives r .primary [t] [.intLit .unknown (atoll t.value)]
  | string {t : LexToken} (ht : t.type = .tString) :
      Derives r .primary [t] [.string .unknown t.value]
  | paren {o c : LexToken} {u : List LexToken} {e : AstNode} (ho : o.type = .tParenOpen)
      (hc : c.type = .tParenClose) (h : Derives r .expr u [e]) :
      Derives r .primary (o :: (u ++ [c])) [e]
  | call {f o c : LexToken} {u : List LexToken} {es : List AstNode} (hf : f.type = .tIdentifier)
      (ho : o.type = .tParenOpen) (hc : c.type = .tParenClose) (h : Derives r .args u es) :
      Derives r .call (f :: o :: (u ++ [c])) [.exprCall .unknown f.value es]
  | primary {u : List LexToken} {e : AstNode} (h : Derives r .primary u [e]) : Derives r .call u [e]
  | single {level : Level} {u : List LexToken} {e : AstNode} (h : Derives r level.operand u [e]) :
      Derives r (.binary level) u [e]
  | binary {level : Level} {o : LexToken} {u v : List LexToken} {operator : BinOperator}
      {left right : AstNode} (hl : Derives r (.binary level) u [left])
      (ho : o.type = .tBinaryOperator) (hop : r.operator level o.value operator)
      (hr : Derives r level.operand v [right]) :
      Derives r (.binary level) (u ++ o :: v) [.binaryExpr .unknown operator left right]
  | arrayLit {a o c : LexToken} {u : List LexToken} {es : List AstNode} (ha : a.type = .tArray)
      (ho : o.type = .tSquareBraceOpen) (hc : c.type = .tSquareBraceClose)
      (h : Derives r .elements u es) :
      Derives r .operand (a :: o :: (u ++ [c])) [.arrayLit .unknown es]
  | comparison {u : List LexToken} {e : AstNode} (h : Derives r (.binary .comparison) u [e]) :
      Derives r .operand u [e]
  | assignment {x o : LexToken} {u : List LexToken} {e : AstNode} (hx : x.type = .tIdentifier)
      (ho : o.type = .tAssignment) (h : Derives r .expr u [e]) :
      Derives r .expr (x :: o :: u) [.assignment .unknown (.identifier .unknown x.value) e]
  | operand {u : List LexToken} {e : AstNode} (h : Derives r .operand u [e]) : Derives r .expr u [e]
  | argsNil : Derives r .args [] []
  | argsLast {u : List LexToken} {e : AstNode} (h : Derives r .expr u [e]) : Derives r .args u [e]
  | argsCons {u s v : List LexToken} {e : AstNode} {es : List AstNode} (h : Derives r .expr u [e])
      (hs : r.sep s) (ht : Derives r .args v es) : Derives r .args (u ++ (s ++ v)) (e :: es)
  | elementsNil : Derives r .elements [] []
  | elementsLast {u : List LexToken} {e : AstNode} (h : Derives r .expr u [e]) :
      Derives r .elements u [e]
  | elementsCons {c : LexToken} {u v : List LexToken} {e : AstNode} {es : List AstNode}
      (h : Derives r .expr u [e]) (hc : c.type = .tComma) (ht : Derives r .elements v es) :
      Derives r .elements (u ++ c :: v) (e :: es)
  | varDecl {k x s : LexToken} (hk : k.type = .tVar) (hx : x.type = .tIdentifier)
      (hs : s.type = .tSemicolon) :
      Derives r .core [k, x, s] [.varDecl .unknown x.value false none]
  | varInit {k x o s : LexToken} {u : List LexToken} {e : AstNode}
      (hk : k.type = .tVar ∨ k.type = .tConst) (hx : x.type = .tIdentifier)
      (ho : o.type = .tAssignment) (h : Derives r .expr u [e]) (hs : s.type = .tSemicolon) :
      Derives r .core (k :: x :: o :: (u ++ [s]))
        [.varDecl .unknown x.value (k.type == .tConst) (some e)]
  | exprStmt {s : LexToken} {u : List LexToken} {e : AstNode} (h : Derives r .expr u [e])
      (hs : s.type = .tSemicolon) : Derives r .core (u ++ [s]) [e]
  | fnDecl {k f o c b d : LexToken} {u v : List LexToken} {names : List String} {ns : List AstNode}
      (hk : k.type = .tFunction) (hf : f.type = .tIdentifier) (ho : o.type = .tParenOpen)
      (hp : Params u names) (hc : c.type = .tParenClose) (hb : b.type = .tBlockBraceOpen)
      (h : Derives r .stmts v ns) (hd : d.type = .tBlockBraceClose) :
      Derives r .core (k :: f :: o :: (u ++ c :: b :: (v ++ [d])))
        [.fnDecl .unknown f.value names ns]
  | block {b d : LexToken} {u : List LexToken} {ns : List AstNode} (hb : b.type = .tBlockBraceOpen)
      (h : Derives r .stmts u ns) (hd : d.type = .tBlockBraceClose) :
      Derives r .core (b :: (u ++ [d])) [.block .unknown ns]
  | ifStmt {k o c : LexToken} {u v : List LexToken} {e n : AstNode} (hk : k.type = .tIf)
      (ho : o.type = .tParenOpen) (h : Derives r .expr u [e]) (hc : c.type = .tParenClose)
      (hn : Derives r .stmt v [n]) :
      Derives r .core (k :: o :: (u ++ c :: v)) [.ifStmt .unknown e n none]
  | ifElse {k o c l : LexToken} {u v w : List LexToken} {e n m : AstNode} (hk : k.type = .tIf)
      (ho : o.type = .tParenOpen) (h : Derives r .expr u [e]) (hc : c.type = .tParenClose)
      (hn : Derives r .stmt v [n]) (hl : l.type = .tElse) (hm : Derives r .stmt w [m]) :
      Derives r .core (k :: o :: (u ++ c :: (v ++ l :: w))) [.ifStmt .unknown e n (some m)]
  | loop {k : LexToken} {u v : List LexToken} {name : Option String} {n : AstNode}
      (hk : k.type = .tLoop) (hx : LoopVarname u name) (hn : Derives r .stmt v [n]) :
      Derives r .core (k :: (u ++ v)) [.loopStmt .unknown none name n]
  | loopCount {k o c : LexToken} {u w x v : List LexToken} {as name : Option String} {e n : AstNode}
      (hk : k.type = .tLoop) (ho : o.type = .tParenOpen) (h : Derives r .expr u [e])
      (ha : LoopAs w as) (hc : c.type = .tParenClose) (hx : LoopVarname x name)
      (hn : Derives r .stmt v [n]) :
      Derives r .core (k :: o :: (u ++ (w ++ c :: (x ++ v))))
        [.loopStmt .unknown (some e) (name.or as) n]
  | stmt {u s : List LexToken} {n : AstNode} (h : Derives r .core u [n])
      (hs : ∀ t ∈ s, t.type = .tSemicolon) : Derives r .stmt (u ++ s) [n]
  | stmtsNil : Derives r .stmts [] []
  | stmtsCons {u v : List LexToken} {n : AstNode} {ns : List AstNode} (h : Derives r .stmt u [n])
      (ht : Derives r .stmts v ns) : Derives r .stmts (u ++ v) (n :: ns)

end Blaze
