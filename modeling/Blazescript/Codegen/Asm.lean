import Blazescript.Syntax.Ast

/-!
# `asm.h`

The tree of assembly code that the back end for x86-64 makes. Every instruction has the suffix of a quad word.
-/

namespace Blaze

/-- The instructions of `asm_node_inst_t` that are used. -/
inductive AsmInst
  | mov
  | ret
  | push
  | pop
  | call
  | add
  deriving DecidableEq, Repr

/-- The registers of `asm_node_register_t` for x86-64. -/
inductive AsmRegister
  | rax
  | rcx
  | rbx
  | rdx
  | rdi
  | rsi
  | rsp
  | rbp
  | r8
  | r9
  deriving DecidableEq, Repr

/-- `asm_node_operand_t`: what the macros make. -/
inductive AsmOperand
  | imm64 (immediate : Int)
  | immLbl (label : String)
  | register (cpuRegister : AsmRegister)
  | registerOffset (offset : Int) (offsetRegister : AsmRegister)
  | identifier (identifier : String)
  deriving DecidableEq, Repr

/-- `asm_node_t`. -/
inductive AsmNode
  | instruction (inst : AsmInst) (operands : List AsmOperand)
  | instructionArray (children : List AsmNode)
  | label (name : String)
  | root (children : List AsmNode)
  | empty
  | directive (name params : String)

/-- What `asm_print` writes a line for. -/
inductive AsmLine
  | instruction (inst : AsmInst) (operands : List AsmOperand)
  | label (name : String)
  | directive (name params : String)
  deriving DecidableEq, Repr

mutual

/-- `asm_print`, up to the note at its end. -/
def AsmNode.lines : AsmNode → List AsmLine
  | instruction inst operands => [.instruction inst operands]
  | instructionArray children => linesAll children
  | label name => [.label name]
  | root children => linesAll children
  | empty => []
  | directive name params => [.directive name params]

def AsmNode.linesAll : List AsmNode → List AsmLine
  | [] => []
  | node :: nodes => node.lines ++ linesAll nodes

end

/-- `asm_data_lbl_t`. -/
structure AsmDataLbl where
  label : String
  directive : String
  param : List Char
  deriving DecidableEq, Repr

end Blaze
