import Blazescript.Codegen.Asm

/-!
# `compile-x86_64.c`

The back end for x86-64. The assertions are compiled out.
-/

namespace Blaze

/-- `struct compilation_context`, with the static `lbl_count`. -/
structure CompilationContext where
  asmData : List AsmDataLbl
  lblCount : Nat
  deriving DecidableEq, Repr

/-- `compilation_context_create`. -/
def compilationContextCreate : CompilationContext := ⟨[], 0⟩

/-- A fatal error ends the compiler with a text. -/
abbrev CompileM (α : Type) := EStateM String CompilationContext α

/-- `struct builtin_function_def`. -/
structure BuiltinFunctionDef where
  name : String
  actualName : String
  variadic : Bool

/-- `builtin_function_defs`. -/
def builtinFunctionDefs : List BuiltinFunctionDef := [⟨"println", "libblaze_fn_println", true⟩]

/-- `asm_create_inst_bin_op`. -/
def asmBinOp (inst : AsmInst) (operand1 operand2 : AsmOperand) : AsmNode :=
  .instruction inst [operand1, operand2]

/-- `asm_create_inst_mono_op`. -/
def asmMonoOp (inst : AsmInst) (operand1 : AsmOperand) : AsmNode := .instruction inst [operand1]

/-- `asm_data_push`. -/
def asmDataPush (lbl directive : String) (param : List Char) : CompileM Unit :=
  modify fun context => { context with asmData := context.asmData ++ [⟨lbl, directive, param⟩] }

/-- The loop over the characters of a string, from what it has built so far. -/
def quoteString (string : List Char) : List Char → List Char
  | [] => string
  | c :: cs => quoteString (if c = '"' then string ++ ['\\', c] else string ++ [c]) cs

/-- The operand of the directive for a string. -/
def stringOperand (strval : List Char) : List Char := quoteString ['"'] strval ++ ['"']

/-- `x86_64_compile_expr`. -/
def x8664CompileExpr (node : AstNode) : CompileM AsmNode :=
  match node with
  | .intLit _ intval =>
    pure (.instructionArray
      [asmBinOp .mov (.imm64 intval) (.register .rdi),
        asmMonoOp .call (.identifier "libblaze_val_create_intval")])
  | .string _ strval => do
    let label := ".DL" ++ toString (← get).lblCount
    modify fun context => { context with lblCount := context.lblCount + 1 }
    asmDataPush label "string" (stringOperand strval.toList)
    pure (.instructionArray
      [asmBinOp .mov (.immLbl label) (.register .rdi),
        asmMonoOp .call (.identifier "libblaze_val_create_strval")])
  | _ => throw "complex expressions aren't supported yet"

/-- The registers for the first arguments. -/
def argRegister (i : Nat) : AsmRegister :=
  match i with
  | 0 => .rdi
  | 1 => .rsi
  | 2 => .rdx
  | 3 => .rcx
  | 4 => .r8
  | _ => .r9

/-- `x86_64_compile_call_expr_args_load`. -/
def x8664CompileCallExprArgsLoad (argc : Nat) : List AsmNode :=
  (List.range argc).filterMap fun (i : Nat) =>
    if i ≤ 5 then
      some (asmBinOp .mov (.registerOffset (-8 * ((i : Int) + 1)) .rbp) (.register (argRegister i)))
    else none

/-- The loop over the arguments, which counts those that stay on the stack. -/
def compileArgs (c : Nat) : List AstNode → CompileM (List AsmNode × Nat)
  | [] => pure ([], 0)
  | arg :: args => do
    let instructions ← x8664CompileExpr arg
    let (rest, stackArgc) ← compileArgs (c + 1) args
    pure (instructions :: asmMonoOp .push (.register .rax) :: rest,
      if c > 5 then stackArgc + 1 else stackArgc)

/-- `x86_64_compile_call_expr_args`. -/
def x8664CompileCallExprArgs (args : List AstNode) (variadic : Bool) : CompileM (List AsmNode × Nat) := do
  let (instructions, stackArgc) ← compileArgs (if variadic then 1 else 0) args
  let count := if variadic then
      [asmBinOp .mov (.imm64 args.length) (.register .rdi), asmMonoOp .push (.register .rdi)]
    else []
  pure (count ++ instructions, stackArgc)

/-- The loop that frees the values. -/
def freeValues : Nat → List AsmNode
  | 0 => []
  | n + 1 => asmMonoOp .pop (.register .rdi) :: asmMonoOp .call (.identifier "libblaze_val_free") ::
      freeValues n

/-- `x86_64_compile_call_expr_free_values`. -/
def x8664CompileCallExprFreeValues (argc : Nat) (variadic : Bool) : List AsmNode :=
  freeValues (if variadic then argc - 1 else argc) ++
    if variadic then [asmBinOp .add (.imm64 8) (.register .rsp)] else []

/-- `x86_64_compile_call_expr`. The name that is called is that of the first definition. -/
def x8664CompileCallExpr (identifier : String) (args : List AstNode) : CompileM AsmNode := do
  match builtinFunctionDefs.find? (·.name == identifier) with
  | some fn => do
    let (argNodes, stackArgs) ← x8664CompileCallExprArgs args fn.variadic
    let called := (builtinFunctionDefs.head?.map (·.actualName)).getD ""
    pure (.instructionArray (argNodes ++ x8664CompileCallExprArgsLoad (args.length + 1) ++
      [asmMonoOp .call (.identifier called)] ++
      x8664CompileCallExprFreeValues (args.length + 1) fn.variadic ++
      if stackArgs > 0 then [asmBinOp .add (.imm64 (8 * stackArgs)) (.register .rsp)] else []))
  | none => throw ("call to undefined function '" ++ identifier ++ "()'")

/-- `x86_64_compile_root_start`. -/
def x8664CompileRootStart : List AsmNode :=
  [.directive "globl" "_start", .label "_start", asmMonoOp .call (.identifier "main"),
    asmBinOp .mov (.imm64 0) (.register .rdi), asmMonoOp .call (.identifier "exit")]

/-- `x86_64_setup_frame`. -/
def x8664SetupFrame : List AsmNode :=
  [asmMonoOp .push (.register .rbp), asmBinOp .mov (.register .rsp) (.register .rbp)]

/-- `x86_64_restore_frame`. -/
def x8664RestoreFrame : List AsmNode := [asmMonoOp .pop (.register .rbp)]

mutual

/-- `x86_64_compile` and `x86_64_compile_root`. -/
def x8664Compile : AstNode → CompileM AsmNode
  | .root _ nodes => do
    let children ← x8664CompileNodes nodes
    pure (.root (x8664CompileRootStart ++ .label "main" :: x8664SetupFrame ++ children ++
      x8664RestoreFrame ++ [.instruction .ret []]))
  | .exprCall _ identifier args => x8664CompileCallExpr identifier args
  | _ => throw "invalid or unsupported AST type"

/-- The loop over the nodes of the root. -/
def x8664CompileNodes : List AstNode → CompileM (List AsmNode)
  | [] => pure []
  | node :: nodes => do
    let ret ← x8664Compile node
    let children ← x8664CompileNodes nodes
    match ret with
    | .empty => pure children
    | ret => pure (ret :: children)

end

end Blaze
