import Blazescript.Syntax.Ast

/-!
# `parser_ast_deep_copy`
-/

namespace Blaze

mutual

/-- `parser_ast_deep_copy`. The copy of a declaration is allocated zeroed and `is_const` is not
copied; the children of a block are shared with the original; a node of another type is fatal, with
the text of the error. -/
def parserAstDeepCopy : AstNode → Except String AstNode
  | .root pos nodes => (parserAstDeepCopyAll nodes).map (.root pos)
  | .identifier pos symbol => .ok (.identifier pos symbol)
  | .string pos strval => .ok (.string pos strval)
  | .intLit pos intval => .ok (.intLit pos intval)
  | .binaryExpr pos operator left right => do
    let left' ← parserAstDeepCopy left
    let right' ← parserAstDeepCopy right
    .ok (.binaryExpr pos operator left' right')
  | .assignment pos assignee value => do
    let assignee' ← parserAstDeepCopy assignee
    let value' ← parserAstDeepCopy value
    .ok (.assignment pos assignee' value')
  | .exprCall pos identifier args => (parserAstDeepCopyAll args).map (.exprCall pos identifier)
  | .varDecl pos name _ (some value) =>
    (parserAstDeepCopy value).map fun value' => .varDecl pos name false (some value')
  | .varDecl pos name _ none => .ok (.varDecl pos name false none)
  | .fnDecl pos identifier paramNames body =>
    (parserAstDeepCopyAll body).map (.fnDecl pos identifier paramNames)
  | .block pos children => .ok (.block pos children)
  | .arrayLit .. => .error "parser_ast_deep_copy(): AST type not recognized: (9)"
  | .importStmt .. => .error "parser_ast_deep_copy(): AST type not recognized: (10)"
  | .ifStmt .. => .error "parser_ast_deep_copy(): AST type not recognized: (12)"
  | .loopStmt .. => .error "parser_ast_deep_copy(): AST type not recognized: (13)"

/-- The loops over the nodes of an array. -/
def parserAstDeepCopyAll : List AstNode → Except String (List AstNode)
  | [] => .ok []
  | node :: nodes => do
    let node' ← parserAstDeepCopy node
    let nodes' ← parserAstDeepCopyAll nodes
    .ok (node' :: nodes')

end

/-! ## What is copied -/

namespace AstNode

/-- The nodes that a copy is made of: the children of a block are not. -/
def copiedChildren : AstNode → List AstNode
  | block _ _ => []
  | node => node.children

/-- To copy the first node is to copy the second. -/
inductive Copies : AstNode → AstNode → Prop
  | self (n : AstNode) : Copies n n
  | child {n c m : AstNode} (hc : c ∈ n.copiedChildren) (h : Copies c m) : Copies n m

/-- The type of the node has a case in the copy. -/
def isRecognized : AstNode → Bool
  | arrayLit .. | importStmt .. | ifStmt .. | loopStmt .. => false
  | _ => true

def isConstDecl : AstNode → Bool
  | varDecl _ _ isConst _ => isConst
  | _ => false

/-- All that is copied of the tree has a case. -/
def Recognized (n : AstNode) : Prop := ∀ m, n.Copies m → m.isRecognized = true

/-- All that is copied of the tree has a case and loses nothing. -/
def Copyable (n : AstNode) : Prop := ∀ m, n.Copies m → m.isRecognized = true ∧ m.isConstDecl = false

end AstNode

end Blaze
