import Blazescript.Codegen.Convention

/-!
# The labels of the data

The string literals of a program, the labels that its code refers to, and the label that is loaded where a
value is made from a string.
-/

namespace Blaze

/-- The label an operand refers to. -/
def AsmOperand.labelRef : AsmOperand → Option String
  | .immLbl label => some label
  | _ => none

/-- The labels among the operands of a line. -/
def AsmLine.labelRefs : AsmLine → List String
  | .instruction _ operands => operands.filterMap AsmOperand.labelRef
  | _ => []

/-- The label whose address a line puts into the register of the first argument. -/
def AsmLine.loadedLabel : AsmLine → Option String
  | .instruction .mov [.immLbl name, .register .rdi] => some name
  | _ => none

/-- The line that makes a value from a string. -/
def createStrval : AsmLine := callLine "libblaze_val_create_strval"

/-- For every line that makes a value from a string, the label that the line just before it loads. -/
def strvalLabels : Option AsmLine → List AsmLine → List (Option String)
  | _, [] => []
  | before, line :: lines =>
    if line = createStrval then before.bind AsmLine.loadedLabel :: strvalLabels (some line) lines
    else strvalLabels (some line) lines

/-- The text of a string literal. -/
def AstNode.strval : AstNode → Option String
  | .string _ strval => some strval
  | _ => none

mutual

/-- The string literals of a program, in their order. -/
def AstNode.stringLiterals : AstNode → List String
  | .root _ nodes => stringLiteralsAll nodes
  | .exprCall _ _ args => args.filterMap AstNode.strval
  | _ => []

def AstNode.stringLiteralsAll : List AstNode → List String
  | [] => []
  | node :: nodes => node.stringLiterals ++ stringLiteralsAll nodes

end

/-- The data for some string literals, their labels numbered from some number on. -/
def dataFor : Nat → List String → List AsmDataLbl
  | _, [] => []
  | k, strval :: strvals =>
    ⟨".DL" ++ toString k, "string", stringOperand strval.toList⟩ :: dataFor (k + 1) strvals

/-- Some code has been emitted for some string literals: each has its entry in the data, and nothing but
the labels of these entries is referred to, each where the value of its literal is made. -/
structure Placed (context context' : CompilationContext) (strvals : List String) (lines : List AsmLine) :
    Prop where
  data : context'.asmData = context.asmData ++ dataFor context.lblCount strvals
  count : context'.lblCount = context.lblCount + strvals.length
  refs : lines.flatMap AsmLine.labelRefs = (dataFor context.lblCount strvals).map AsmDataLbl.label
  loads : ∀ before, strvalLabels before lines =
    (dataFor context.lblCount strvals).map fun entry => some entry.label

end Blaze
