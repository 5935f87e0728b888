import Blazescript.Syntax.Consumes
import Blazescript.Syntax.Expr
import Blazescript.Syntax.Lexemes
import Blazescript.Syntax.Separated

/-!
# Printing of statements

A program is printed to the types and texts of its tokens. The name of the variable of a loop stands after the
header, where it belongs to the loop whatever the body begins with.
-/

namespace Blaze

/-- The statements, with names in the places of the grammar. -/
inductive Stmt
  | varDecl (name : String)
  | varInit (isConst : Bool) (name : String) (value : Expr)
  | exprStmt (value : Expr)
  | fnDecl (identifier : String) (paramNames : List String) (body : List Stmt)
  | block (children : List Stmt)
  | ifStmt (condition : Expr) (ifBlock : Stmt)
  | ifElse (condition : Expr) (ifBlock elseBlock : Stmt)
  | loop (iterVarname : Option String) (body : Stmt)
  | loopCount (iterCount : Expr) (iterVarname : Option String) (body : Stmt)

mutual

/-- The syntax tree of a statement. -/
def Stmt.toNode : Stmt → AstNode
  | .varDecl name => .varDecl .unknown name false none
  | .varInit isConst name value => .varDecl .unknown name isConst (some value.toNode)
  | .exprStmt value => value.toNode
  | .fnDecl identifier paramNames body => .fnDecl .unknown identifier paramNames (stmtNodes body)
  | .block children => .block .unknown (stmtNodes children)
  | .ifStmt condition ifBlock => .ifStmt .unknown condition.toNode ifBlock.toNode none
  | .ifElse condition ifBlock elseBlock =>
    .ifStmt .unknown condition.toNode ifBlock.toNode (some elseBlock.toNode)
  | .loop iterVarname body => .loopStmt .unknown none iterVarname body.toNode
  | .loopCount iterCount iterVarname body =>
    .loopStmt .unknown (some iterCount.toNode) iterVarname body.toNode

def stmtNodes : List Stmt → List AstNode
  | [] => []
  | s :: ss => s.toNode :: stmtNodes ss

end

/-! ## Printing -/

/-- The parameters of a function, with commas between them. -/
def printParams : List String → List Key
  | [] => []
  | [name] => [(.tIdentifier, name)]
  | name :: names => (.tIdentifier, name) :: (.tComma, ",") :: printParams names

/-- The keyword of a declaration. -/
def declKeyword (isConst : Bool) : Key := if isConst then (.tConst, "const") else (.tVar, "var")

/-- The name of a variable, if there is one. -/
def printName (name : Option String) : List Key := name.toList.map fun name => (.tIdentifier, name)

/-- The condition of an `if` or the count of a loop. -/
def printHeader (e : Expr) : List Key := (.tParenOpen, "(") :: (e.print 0 ++ [(.tParenClose, ")")])

mutual

/-- The tokens of a statement. -/
def Stmt.print : Stmt → List Key
  | .varDecl name => [(.tVar, "var"), (.tIdentifier, name), (.tSemicolon, ";")]
  | .varInit isConst name value =>
    declKeyword isConst :: (.tIdentifier, name) :: (.tAssignment, "=") :: (value.print 0 ++ [(.tSemicolon, ";")])
  | .exprStmt value => value.print 0 ++ [(.tSemicolon, ";")]
  | .fnDecl identifier paramNames body =>
    (.tFunction, "function") :: (.tIdentifier, identifier) :: (.tParenOpen, "(") ::
      (printParams paramNames ++ (.tParenClose, ")") :: (.tBlockBraceOpen, "\x7b") ::
        (printStmts body ++ [(.tBlockBraceClose, "\x7d")]))
  | .block children =>
    (.tBlockBraceOpen, "\x7b") :: (printStmts children ++ [(.tBlockBraceClose, "\x7d")])
  | .ifStmt condition ifBlock => (.tIf, "if") :: (printHeader condition ++ ifBlock.print)
  | .ifElse condition ifBlock elseBlock =>
    (.tIf, "if") :: (printHeader condition ++ (ifBlock.print ++ (.tElse, "else") :: elseBlock.print))
  | .loop iterVarname body => (.tLoop, "loop") :: (printName iterVarname ++ body.print)
  | .loopCount iterCount iterVarname body =>
    (.tLoop, "loop") :: (printHeader iterCount ++ (printName iterVarname ++ body.print))

def printStmts : List Stmt → List Key
  | [] => []
  | s :: ss => s.print ++ printStmts ss

end

/-! ## Statements that can be told from their tokens -/

/-- The type of the first token. -/
def Stmt.first (s : Stmt) : Option LexTokenType := s.print.head?.map Prod.fst

/-- An `else` after the statement belongs to an `if` at its end. -/
def Stmt.isOpen : Stmt → Bool
  | .ifStmt .. => true
  | .ifElse _ _ elseBlock => elseBlock.isOpen
  | .loop _ body => body.isOpen
  | .loopCount _ _ body => body.isOpen
  | _ => false

mutual

/-- Each `else` belongs to its own `if`, and the body of a loop without a variable does not begin with what the parser
takes for one, or for a header. -/
def Stmt.plain : Stmt → Bool
  | .varDecl _ | .varInit .. | .exprStmt _ => true
  | .fnDecl _ _ body => plainAll body
  | .block children => plainAll children
  | .ifStmt _ ifBlock => ifBlock.plain
  | .ifElse _ ifBlock elseBlock => ifBlock.plain && !ifBlock.isOpen && elseBlock.plain
  | .loop none body => body.plain && body.first != some .tIdentifier && body.first != some .tParenOpen
  | .loop (some _) body => body.plain
  | .loopCount _ none body => body.plain && body.first != some .tIdentifier
  | .loopCount _ (some _) body => body.plain

def plainAll : List Stmt → Bool
  | [] => true
  | s :: ss => s.plain && plainAll ss

end

/-- The types of the tokens with which a statement begins. -/
def LexTokenType.startsStmt (type : LexTokenType) : Bool :=
  type.startsOperand || [.tVar, .tConst, .tFunction, .tBlockBraceOpen, .tIf, .tLoop].contains type

/-- The parser takes the tokens of the statement for it, where what follows does not belong to it. -/
def Stmt.Parses (s : Stmt) : Prop :=
  ∀ n u t r, u.map LexToken.key = s.print → u.length < n → t.type ≠ .tSemicolon →
    (s.isOpen = true → t.type ≠ .tElse) →
      Consumes (parserParseStmt n) u (t :: r) fun node => node.erase = s.toNode

/-! ## Programs -/

/-- A word that is no keyword. -/
def isName (name : String) : Bool :=
  match name.toList with
  | c :: cs => (c.isAlpha || c = '_') && cs.all isWordChar && !(keywords.map Prod.fst).contains name
  | [] => false

/-- A string of ASCII characters, none of which ends the buffer, that lacks one of the quotes. -/
def isQuotable (value : String) : Bool :=
  value.toList.all (fun c => c ≠ '\x00' && c.toNat < 128) &&
    (!value.toList.contains '"' || !value.toList.contains '\'')

/-- A name or a string is written as one. -/
def isWritable (key : Key) : Bool :=
  match key.1 with
  | .tIdentifier => isName key.2
  | .tString => isQuotable key.2
  | _ => true

/-- There is a lexeme for the key, if one can be written. -/
def HasLexeme (key : Key) : Prop := isWritable key = true → ∃ lexeme, IsLexeme key.1 key.2 lexeme

/-- A program that can be written, and told from its text. -/
structure Program where
  stmts : List Stmt
  plain : plainAll stmts = true
  writable : (printStmts stmts).all isWritable = true

namespace Program

def print (program : Program) : List Key := printStmts program.stmts

/-- The text of a program. -/
def text (program : Program) : List Char := printTokens program.print

/-- The syntax tree of a program. -/
def toNode (program : Program) : AstNode := .root .unknown (stmtNodes program.stmts)

end Program

end Blaze
