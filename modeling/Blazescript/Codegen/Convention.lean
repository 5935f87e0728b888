import Blazescript.Codegen.Process

/-!
# Calls of `println`

What the code for a program of such calls is to do by the System V calling convention.
-/

namespace Blaze

open Running

/-- An integer or a string. -/
def AstNode.IsLiteral : AstNode → Prop
  | .intLit .. => True
  | .string .. => True
  | _ => False

/-- A call of `println` with literals. -/
inductive IsPrintln : AstNode → List AstNode → Prop
  | mk (pos : Pos) {args : List AstNode} (h : ∀ arg ∈ args, arg.IsLiteral) :
      IsPrintln (.exprCall pos "println" args) args

/-! ## The lines of a statement -/

def movLine (operand : AsmOperand) (r : AsmRegister) : AsmLine := .instruction .mov [operand, .register r]

def pushLine (r : AsmRegister) : AsmLine := .instruction .push [.register r]

def popLine (r : AsmRegister) : AsmLine := .instruction .pop [.register r]

def callLine (f : String) : AsmLine := .instruction .call [.identifier f]

def addLine (immediate : Int) (r : AsmRegister) : AsmLine :=
  .instruction .add [.imm64 immediate, .register r]

/-- The operand from which a function makes the value of a literal. -/
inductive Creation (data : List AsmDataLbl) : AstNode → AsmOperand → String → Prop
  | intLit (pos : Pos) (intval : Int) :
      Creation data (.intLit pos intval) (.imm64 intval) "libblaze_val_create_intval"
  | string (pos : Pos) (strval label : String) (h : ⟨label, "string", stringOperand strval.toList⟩ ∈ data) :
      Creation data (.string pos strval) (.immLbl label) "libblaze_val_create_strval"

/-- The values of the arguments are made and pushed. -/
inductive ArgLines (data : List AsmDataLbl) : List AstNode → List AsmLine → Prop
  | nil : ArgLines data [] []
  | cons {arg : AstNode} {args : List AstNode} {operand : AsmOperand} {f : String} {lines : List AsmLine}
      (h : Creation data arg operand f) (hrest : ArgLines data args lines) :
      ArgLines data (arg :: args) (movLine operand .rdi :: callLine f :: pushLine .rax :: lines)

/-- The arguments from the `i`-th on go into registers. -/
def loadLines (i : Nat) : Nat → List AsmLine
  | 0 => []
  | n + 1 => movLine (.registerOffset (-8 * ((i : Int) + 1)) .rbp) (argRegister i) :: loadLines (i + 1) n

def freeLines : Nat → List AsmLine
  | 0 => []
  | n + 1 => popLine .rdi :: callLine "libblaze_val_free" :: freeLines n

/-- A call of `println` with so many arguments. -/
inductive StatementLines (data : List AsmDataLbl) (args : List AstNode) : List AsmLine → Prop
  | mk {argLines : List AsmLine} (h : ArgLines data args argLines) :
      StatementLines data args
        ([movLine (.imm64 args.length) .rdi, pushLine .rdi] ++ argLines ++
          loadLines 0 (min (args.length + 1) 6) ++ [callLine "libblaze_fn_println"] ++
          freeLines args.length ++ [addLine 8 .rsp] ++
          if args.length > 5 then [addLine (8 * (args.length - 5 : Nat)) .rsp] else [])

/-! ## The calls of a statement -/

/-- A function of the library is called for the value of a literal. -/
def CreatedBy {σ : Type} (rt : Runtime σ) (data : List AsmDataLbl) (arg : AstNode) (c : Call) : Prop :=
  ∃ operand f, Creation data arg operand f ∧ c.name = f ∧
    Process.value rt c.cpu operand = some (c.cpu.argument 0)

/-- The values of the arguments are made, `println` gets their number and all of them in order, and each is
freed once. -/
structure FollowsConvention {σ : Type} (rt : Runtime σ) (data : List AsmDataLbl) (args : List AstNode)
    (creates : List Call) (println : Call) (frees : List Call) : Prop where
  made : List.Forall₂ (CreatedBy rt data) args creates
  called : println.name = "libblaze_fn_println"
  argc : println.cpu.argument 0 = args.length
  passed : ∀ i < args.length, (creates.map Call.ret)[i]? = some (some (println.cpu.argument (i + 1)))
  freed : ∀ c ∈ frees, c.name = "libblaze_val_free"
  once : (frees.map fun c => some (c.cpu.argument 0)).Perm (creates.map Call.ret)

/-! ## Programs -/

/-- The line at which the code for the `k`-th statement begins, behind the nodes for the entry and the
frame. -/
def AsmNode.boundary (k : Nat) : AsmNode → Nat
  | .root children => (linesAll (children.take (8 + k))).length
  | _ => 0

/-- The code calls as the convention wants it, has the stack balanced between two statements, and `main`
returns to its caller. -/
def KeepsConvention {σ : Type} (rt : Runtime σ) (nodes : List AstNode) (root : AsmNode)
    (data : List AsmDataLbl) (cpu : Cpu) (w : σ) : Prop :=
  let first := Process.start root.lines cpu w
  (∀ p, Reaches (Process.step rt root.lines) first p → ∀ k ≤ nodes.length, p.pc = root.boundary k →
      p.cpu.reg .rsp = p.cpu.reg .rbp) ∧
    ∃ p main, ∃ calls : List (List Call), Reaches (Process.step rt root.lines) first p ∧
      p.pc = first.pc + 2 ∧ p.cpu.reg .rsp = cpu.reg .rsp ∧ p.cpu.reg .rbp = cpu.reg .rbp ∧
      p.calls = main :: calls.flatten ∧ main.name = "main" ∧
      List.Forall₂ (fun node cs => ∃ args creates println frees, IsPrintln node args ∧
        cs = creates ++ println :: frees ∧ FollowsConvention rt data args creates println frees) nodes calls

/-- At every call that the code has executed, from its entry on, the stack pointer is a multiple of 16. -/
def AlignedAtCalls {σ : Type} (rt : Runtime σ) (root : AsmNode) (cpu : Cpu) (w : σ) : Prop :=
  ∀ p, Reaches (Process.step rt root.lines) (Process.start root.lines cpu w) p →
    ∀ c ∈ p.calls, 16 ∣ c.cpu.reg .rsp

end Blaze
