import Blazescript.Syntax.Grammar

/-!
# Printing of expressions

An expression is printed to the types and texts of tokens, with parentheses only where the precedence of
the operators needs them.
-/

namespace Blaze

/-! ## Precedence -/

/-- How tight the operators of a level bind. -/
def Level.rank : Level → Nat
  | comparison => 1
  | additive => 2
  | multiplicative => 3

/-- The nonterminal of the expressions that bind as tight as a rank, or tighter. -/
def rankNonterminal : Nat → Nonterminal
  | 0 => .expr
  | 1 => .binary .comparison
  | 2 => .binary .additive
  | 3 => .binary .multiplicative
  | _ => .call

def BinOperator.level : BinOperator → Level
  | opTimes | opDivide | opModulus => .multiplicative
  | opPlus | opMinus => .additive
  | _ => .comparison

def BinOperator.text : BinOperator → String
  | opPlus => "+"
  | opMinus => "-"
  | opDivide => "/"
  | opTimes => "*"
  | opModulus => "%"
  | opCmpLt => "<"
  | opCmpGt => ">"
  | opCmpGe => ">="
  | opCmpLe => "<="
  | opCmpEq => "=="
  | opCmpEqS => "==="
  | opCmpNe => "!="
  | opCmpNeS => "!=="

/-! ## Expressions -/

/-- The expressions. The literals are the numbers that a `long long` holds. -/
inductive Expr
  | intLit (intval : Fin 0x8000000000000000)
  | string (strval : String)
  | identifier (symbol : String)
  | call (identifier : String) (args : List Expr)
  | assignment (assignee : String) (value : Expr)
  | arrayLit (elements : List Expr)
  | binary (operator : BinOperator) (left right : Expr)

mutual

/-- The syntax tree of an expression. -/
def Expr.toNode : Expr → AstNode
  | .intLit intval => .intLit .unknown intval.val
  | .string strval => .string .unknown strval
  | .identifier symbol => .identifier .unknown symbol
  | .call identifier args => .exprCall .unknown identifier (toNodes args)
  | .assignment assignee value => .assignment .unknown (.identifier .unknown assignee) value.toNode
  | .arrayLit elements => .arrayLit .unknown (toNodes elements)
  | .binary operator left right => .binaryExpr .unknown operator left.toNode right.toNode

def toNodes : List Expr → List AstNode
  | [] => []
  | e :: es => e.toNode :: toNodes es

end

/-! ## Printing -/

/-- The tokens in parentheses, if these are needed. -/
def parenthesise (needed : Bool) (u : List Key) : List Key :=
  if needed then (.tParenOpen, "(") :: (u ++ [(.tParenClose, ")")]) else u

mutual

/-- The tokens of an expression where one of a rank, or a tighter one, may stand. -/
def Expr.print (k : Nat) : Expr → List Key
  | .intLit intval => [(.tIntLit, intval.val.repr)]
  | .string strval => [(.tString, strval)]
  | .identifier symbol => [(.tIdentifier, symbol)]
  | .call identifier args =>
    (.tIdentifier, identifier) :: (.tParenOpen, "(") :: (printAll args ++ [(.tParenClose, ")")])
  | .assignment assignee value =>
    parenthesise (0 < k) ((.tIdentifier, assignee) :: (.tAssignment, "=") :: value.print 0)
  | .arrayLit elements =>
    parenthesise (0 < k)
      ((.tArray, "array") :: (.tSquareBraceOpen, "[") :: (printAll elements ++ [(.tSquareBraceClose, "]")]))
  | .binary operator left right =>
    let rank := operator.level.rank
    parenthesise (rank < k)
      (left.print rank ++ (.tBinaryOperator, operator.text) :: right.print (rank + 1))

/-- The arguments of a call or the elements of an array, with commas between them. -/
def printAll : List Expr → List Key
  | [] => []
  | [e] => e.print 0
  | e :: es => e.print 0 ++ (.tComma, ",") :: printAll es

end

/-! ## What follows an expression -/

/-- The tokens that end an expression. -/
def LexTokenType.closes : LexTokenType → Bool
  | .tSemicolon | .tParenClose | .tSquareBraceClose | .tComma => true
  | _ => false

/-- An expression of a rank ends before the token. -/
def MayFollow (k : Nat) (t : LexToken) : Prop :=
  t.type.closes = true ∨ t.type = .tBinaryOperator ∧
    ∃ level operator, level.rank < k ∧ (t.value, operator) ∈ Level.operators level

end Blaze
