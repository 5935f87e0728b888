import Mathlib.Data.List.Basic

/-!
# `ast.h`

The syntax tree. A field that the parser leaves uninitialised, and a filename that is `NULL`, is
`none`.
-/

namespace Blaze

/-- The place of a node in the source text. -/
structure Pos where
  filename : Option String
  lineStart : Option Nat
  lineEnd : Option Nat
  columnStart : Option Nat
  columnEnd : Option Nat
  deriving DecidableEq, Repr

/-- A place of which nothing is known. -/
def Pos.unknown : Pos := ⟨none, none, none, none, none⟩

/-- `enum ast_bin_operator`. -/
inductive BinOperator
  | opPlus
  | opMinus
  | opDivide
  | opTimes
  | opModulus
  | opCmpLt
  | opCmpGt
  | opCmpGe
  | opCmpLe
  | opCmpEq
  | opCmpEqS
  | opCmpNe
  | opCmpNeS
  deriving DecidableEq, Repr

/-- The number the enumeration gives to an operator. -/
def BinOperator.code : BinOperator → Nat
  | opPlus => 43
  | opMinus => 45
  | opDivide => 47
  | opTimes => 42
  | opModulus => 37
  | opCmpLt => 60
  | opCmpGt => 62
  | opCmpGe => 0xF0
  | opCmpLe => 0xF1
  | opCmpEq => 0xF2
  | opCmpEqS => 0xF3
  | opCmpNe => 0xF4
  | opCmpNeS => 0xF5

/-- `operator >= OP_CMP_LT && operator <= OP_CMP_NE_S`. -/
def BinOperator.isComparison (operator : BinOperator) : Bool :=
  BinOperator.opCmpLt.code ≤ operator.code && operator.code ≤ BinOperator.opCmpNeS.code

/-- `ast_node_t`: the node type, the position and the fields of the node type. -/
inductive AstNode
  | root (pos : Pos) (nodes : List AstNode)
  | intLit (pos : Pos) (intval : Int)
  | binaryExpr (pos : Pos) (operator : BinOperator) (left right : AstNode)
  | identifier (pos : Pos) (symbol : String)
  | string (pos : Pos) (strval : String)
  | varDecl (pos : Pos) (name : String) (isConst : Bool) (value : Option AstNode)
  | assignment (pos : Pos) (assignee value : AstNode)
  | exprCall (pos : Pos) (identifier : String) (args : List AstNode)
  | fnDecl (pos : Pos) (identifier : String) (paramNames : List String) (body : List AstNode)
  | arrayLit (pos : Pos) (elements : List AstNode)
  | importStmt (pos : Pos)
  | block (pos : Pos) (children : List AstNode)
  | ifStmt (pos : Pos) (condition ifBlock : AstNode) (elseBlock : Option AstNode)
  | loopStmt (pos : Pos) (iterCount : Option AstNode) (iterVarname : Option String)
      (body : AstNode)
  deriving Repr

namespace AstNode

def pos : AstNode → Pos
  | root pos _ | intLit pos _ | binaryExpr pos _ _ _ | identifier pos _ | string pos _
  | varDecl pos _ _ _ | assignment pos _ _ | exprCall pos _ _ | fnDecl pos _ _ _
  | arrayLit pos _ | importStmt pos | block pos _ | ifStmt pos _ _ _ | loopStmt pos _ _ _ => pos

/-- The number of `enum ast_node_type`. -/
def type : AstNode → Nat
  | root .. => 0
  | intLit .. => 1
  | binaryExpr .. => 2
  | identifier .. => 3
  | string .. => 4
  | varDecl .. => 5
  | assignment .. => 6
  | exprCall .. => 7
  | fnDecl .. => 8
  | arrayLit .. => 9
  | importStmt .. => 10
  | block .. => 11
  | ifStmt .. => 12
  | loopStmt .. => 13

/-- The nodes a node points to, in the order of its fields. -/
def children : AstNode → List AstNode
  | root _ nodes => nodes
  | binaryExpr _ _ left right => [left, right]
  | varDecl _ _ _ value => value.toList
  | assignment _ assignee value => [assignee, value]
  | exprCall _ _ args => args
  | fnDecl _ _ _ body => body
  | arrayLit _ elements => elements
  | block _ children => children
  | ifStmt _ condition ifBlock elseBlock => condition :: ifBlock :: elseBlock.toList
  | loopStmt _ iterCount _ body => iterCount.toList ++ [body]
  | intLit .. | identifier .. | string .. | importStmt .. => []

/-- A node is part of a tree. -/
inductive Within : AstNode → AstNode → Prop
  | self (n : AstNode) : Within n n
  | child {n c p : AstNode} (h : Within n c) (hc : c ∈ p.children) : Within n p

end AstNode

end Blaze
