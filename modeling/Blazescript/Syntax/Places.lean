import Blazescript.Syntax.Grammar

/-!
# Where the nodes of a tree start

Which tokens each node of a tree is made of, and what the node says about where they start.
-/

namespace Blaze

/-- The tokens are derived from the nonterminal and stand for the trees. What holds of each node and its tokens
is a parameter, and so is what holds of the nodes that are assigned to. -/
inductive Spells (P A : List LexToken → AstNode → Prop) : Nonterminal → List LexToken → List AstNode → Prop
  | identifier {t : LexToken} {pos : Pos} (ht : t.type = .tIdentifier) (hp : P [t] (.identifier pos t.value)) :
      Spells P A .primary [t] [.identifier pos t.value]
  | intLit {t : LexToken} {pos : Pos} (ht : t.type = .tIntLit) (hp : P [t] (.intLit pos (atoll t.value))) :
      Spells P A .primary [t] [.intLit pos (atoll t.value)]
  | string {t : LexToken} {pos : Pos} (ht : t.type = .tString) (hp : P [t] (.string pos t.value)) :
      Spells P A .primary [t] [.string pos t.value]
  | paren {o c : LexToken} {u : List LexToken} {e : AstNode} (ho : o.type = .tParenOpen)
      (hc : c.type = .tParenClose) (h : Spells P A .expr u [e]) : Spells P A .primary (o :: (u ++ [c])) [e]
  | call {f o c : LexToken} {u : List LexToken} {es : List AstNode} {pos : Pos} (hf : f.type = .tIdentifier)
      (ho : o.type = .tParenOpen) (hc : c.type = .tParenClose) (h : Spells P A .args u es)
      (hp : P (f :: o :: (u ++ [c])) (.exprCall pos f.value es)) :
      Spells P A .call (f :: o :: (u ++ [c])) [.exprCall pos f.value es]
  | primary {u : List LexToken} {e : AstNode} (h : Spells P A .primary u [e]) : Spells P A .call u [e]
  | single {level : Level} {u : List LexToken} {e : AstNode} (h : Spells P A level.operand u [e]) :
      Spells P A (.binary level) u [e]
  | binary {level : Level} {o : LexToken} {u v : List LexToken} {operator : BinOperator} {left right : AstNode}
      {pos : Pos} (hl : Spells P A (.binary level) u [left]) (ho : o.type = .tBinaryOperator)
      (hop : parserRules.operator level o.value operator) (hr : Spells P A level.operand v [right])
      (hp : P (u ++ o :: v) (.binaryExpr pos operator left right)) :
      Spells P A (.binary level) (u ++ o :: v) [.binaryExpr pos operator left right]
  | arrayLit {a o c : LexToken} {u : List LexToken} {es : List AstNode} {pos : Pos} (ha : a.type = .tArray)
      (ho : o.type = .tSquareBraceOpen) (hc : c.type = .tSquareBraceClose) (h : Spells P A .elements u es)
      (hp : P (a :: o :: (u ++ [c])) (.arrayLit pos es)) :
      Spells P A .operand (a :: o :: (u ++ [c])) [.arrayLit pos es]
  | comparison {u : List LexToken} {e : AstNode} (h : Spells P A (.binary .comparison) u [e]) :
      Spells P A .operand u [e]
  | assignment {x o : LexToken} {u : List LexToken} {e : AstNode} {pos pos' : Pos} (hx : x.type = .tIdentifier)
      (ho : o.type = .tAssignment) (h : Spells P A .expr u [e]) (ha : A [x] (.identifier pos' x.value))
      (hp : P (x :: o :: u) (.assignment pos (.identifier pos' x.value) e)) :
      Spells P A .expr (x :: o :: u) [.assignment pos (.identifier pos' x.value) e]
  | operand {u : List LexToken} {e : AstNode} (h : Spells P A .operand u [e]) : Spells P A .expr u [e]
  | argsNil : Spells P A .args [] []
  | argsCons {u s v : List LexToken} {e : AstNode} {es : List AstNode} (h : Spells P A .expr u [e])
      (hs : parserRules.sep s) (ht : Spells P A .args v es) : Spells P A .args (u ++ (s ++ v)) (e :: es)
  | elementsNil : Spells P A .elements [] []
  | elementsLast {u : List LexToken} {e : AstNode} (h : Spells P A .expr u [e]) : Spells P A .elements u [e]
  | elementsCons {c : LexToken} {u v : List LexToken} {e : AstNode} {es : List AstNode}
      (h : Spells P A .expr u [e]) (hc : c.type = .tComma) (ht : Spells P A .elements v es) :
      Spells P A .elements (u ++ c :: v) (e :: es)
  | varDecl {k x s : LexToken} {pos : Pos} (hk : k.type = .tVar) (hx : x.type = .tIdentifier)
      (hs : s.type = .tSemicolon) (hp : P [k, x, s] (.varDecl pos x.value false none)) :
      Spells P A .core [k, x, s] [.varDecl pos x.value false none]
  | varInit {k x o s : LexToken} {u : List LexToken} {e : AstNode} {pos : Pos}
      (hk : k.type = .tVar ∨ k.type = .tConst) (hx : x.type = .tIdentifier) (ho : o.type = .tAssignment)
      (h : Spells P A .expr u [e]) (hs : s.type = .tSemicolon)
      (hp : P (k :: x :: o :: (u ++ [s])) (.varDecl pos x.value (k.type == .tConst) (some e))) :
      Spells P A .core (k :: x :: o :: (u ++ [s])) [.varDecl pos x.value (k.type == .tConst) (some e)]
  | exprStmt {s : LexToken} {u : List LexToken} {e : AstNode} (h : Spells P A .expr u [e])
      (hs : s.type = .tSemicolon) : Spells P A .core (u ++ [s]) [e]
  | fnDecl {k f o c b d : LexToken} {u v : List LexToken} {names : List String} {ns : List AstNode} {pos : Pos}
      (hk : k.type = .tFunction) (hf : f.type = .tIdentifier) (ho : o.type = .tParenOpen) (hn : Params u names)
      (hc : c.type = .tParenClose) (hb : b.type = .tBlockBraceOpen) (h : Spells P A .stmts v ns)
      (hd : d.type = .tBlockBraceClose)
      (hp : P (k :: f :: o :: (u ++ c :: b :: (v ++ [d]))) (.fnDecl pos f.value names ns)) :
      Spells P A .core (k :: f :: o :: (u ++ c :: b :: (v ++ [d]))) [.fnDecl pos f.value names ns]
  | block {b d : LexToken} {u : List LexToken} {ns : List AstNode} {pos : Pos} (hb : b.type = .tBlockBraceOpen)
      (h : Spells P A .stmts u ns) (hd : d.type = .tBlockBraceClose) (hp : P (b :: (u ++ [d])) (.block pos ns)) :
      Spells P A .core (b :: (u ++ [d])) [.block pos ns]
  | ifStmt {k o c : LexToken} {u v : List LexToken} {e n : AstNode} {pos : Pos} (hk : k.type = .tIf)
      (ho : o.type = .tParenOpen) (h : Spells P A .expr u [e]) (hc : c.type = .tParenClose)
      (hn : Spells P A .stmt v [n]) (hp : P (k :: o :: (u ++ c :: v)) (.ifStmt pos e n none)) :
      Spells P A .core (k :: o :: (u ++ c :: v)) [.ifStmt pos e n none]
  | ifElse {k o c l : LexToken} {u v w : List LexToken} {e n m : AstNode} {pos : Pos} (hk : k.type = .tIf)
      (ho : o.type = .tParenOpen) (h : Spells P A .expr u [e]) (hc : c.type = .tParenClose)
      (hn : Spells P A .stmt v [n]) (hl : l.type = .tElse) (hm : Spells P A .stmt w [m])
      (hp : P (k :: o :: (u ++ c :: (v ++ l :: w))) (.ifStmt pos e n (some m))) :
      Spells P A .core (k :: o :: (u ++ c :: (v ++ l :: w))) [.ifStmt pos e n (some m)]
  | loop {k : LexToken} {u v : List LexToken} {name : Option String} {n : AstNode} {pos : Pos}
      (hk : k.type = .tLoop) (hx : LoopVarname u name) (hn : Spells P A .stmt v [n])
      (hp : P (k :: (u ++ v)) (.loopStmt pos none name n)) :
      Spells P A .core (k :: (u ++ v)) [.loopStmt pos none name n]
  | loopCount {k o c : LexToken} {u w x v : List LexToken} {as name : Option String} {e n : AstNode} {pos : Pos}
      (hk : k.type = .tLoop) (ho : o.type = .tParenOpen) (h : Spells P A .expr u [e]) (ha : LoopAs w as)
      (hc : c.type = .tParenClose) (hx : LoopVarname x name) (hn : Spells P A .stmt v [n])
      (hp : P (k :: o :: (u ++ (w ++ c :: (x ++ v)))) (.loopStmt pos (some e) (name.or as) n)) :
      Spells P A .core (k :: o :: (u ++ (w ++ c :: (x ++ v)))) [.loopStmt pos (some e) (name.or as) n]
  | stmt {u s : List LexToken} {n : AstNode} (h : Spells P A .core u [n]) (hs : ∀ t ∈ s, t.type = .tSemicolon) :
      Spells P A .stmt (u ++ s) [n]
  | stmtsNil : Spells P A .stmts [] []
  | stmtsCons {u v : List LexToken} {n : AstNode} {ns : List AstNode} (h : Spells P A .stmt u [n])
      (ht : Spells P A .stmts v ns) : Spells P A .stmts (u ++ v) (n :: ns)

/-- The first of the tokens of a node, but for the parentheses that group what it starts with. -/
def firstToken (u : List LexToken) : Option LexToken := u.find? fun t => t.type ≠ .tParenOpen

/-- A place that begins at a token. -/
structure Pos.StartsAt (pos : Pos) (filename : Option String) (t : LexToken) : Prop where
  filename : pos.filename = filename
  lineStart : pos.lineStart = some t.lineStart
  columnStart : pos.columnStart = some t.columnStart

/-- The node says where it starts. -/
def Located (filename : Option String) (u : List LexToken) (node : AstNode) : Prop :=
  ∃ t, firstToken u = some t ∧ node.pos.StartsAt filename t

/-- What the parser stores in a node: arrays, `if` statements and blocks have no place, what is assigned to has
no filename, and an operation has the place of its left operand. -/
def Marked (filename : Option String) (u : List LexToken) : AstNode → Prop
  | .arrayLit pos _ => pos = .unknown
  | .ifStmt pos _ _ _ => pos = .zero
  | .block pos _ => pos = .zero
  | .assignment pos assignee _ => (∃ t, firstToken u = some t ∧ pos.StartsAt filename t) ∧ assignee.pos.filename = none
  | .binaryExpr pos _ left _ =>
    pos.filename = filename ∧ pos.lineStart = left.pos.lineStart ∧ pos.columnStart = left.pos.columnStart
  | node => Located filename u node

/-! ## Tokens of nodes without a place -/

/-- What tells the tokens of such nodes from others: behind a `var` or `const`, behind the name after it, and in
the header of a function. -/
inductive ScanState
  | start
  | declares
  | declared
  | header
  deriving DecidableEq, Repr

/-- A token that begins no array, `if` statement or block, and assigns to nothing but what is declared. -/
def ScanState.step : ScanState → LexTokenType → Option ScanState
  | start, .tArray => none
  | start, .tIf => none
  | start, .tBlockBraceOpen => none
  | start, .tAssignment => none
  | start, .tVar => some declares
  | start, .tConst => some declares
  | start, .tFunction => some header
  | start, _ => some start
  | declares, _ => some declared
  | declared, _ => some start
  | header, .tBlockBraceOpen => some start
  | header, _ => some header

def scan (s : ScanState) : List LexToken → Option ScanState
  | [] => some s
  | t :: u => (s.step t.type).bind fun s => scan s u

/-- There is no array among the tokens, no `if`, no assignment but in declarations, and no block. -/
def hasOnlyLocated (u : List LexToken) : Bool := (scan .start u).isSome

end Blaze
