import Blazescript.Codegen.CompileX8664
import Blazescript.Running.Path
import Blazescript.Running.Pushed

/-!
# Running the code

A machine that executes the lines of a program. Its words are numbers without a bound, the address of a line
is its place, and the functions of the runtime library take one step.
-/

namespace Blaze

/-- The registers, and the quad words in the memory. -/
structure Cpu where
  reg : AsmRegister → Int
  mem : Int → Int

namespace Cpu

def setReg (cpu : Cpu) (r : AsmRegister) (v : Int) : Cpu := { cpu with reg := Function.update cpu.reg r v }

def push (cpu : Cpu) (v : Int) : Cpu :=
  { reg := Function.update cpu.reg .rsp (cpu.reg .rsp - 8)
    mem := Function.update cpu.mem (cpu.reg .rsp - 8) v }

/-- The word on top of the stack goes into a register. -/
def pop (cpu : Cpu) (r : AsmRegister) : Cpu :=
  (cpu.setReg .rsp (cpu.reg .rsp + 8)).setReg r (cpu.mem (cpu.reg .rsp))

/-- The places of the arguments in the System V calling convention, where a function is called. -/
def argument (cpu : Cpu) : Nat → Int
  | 0 => cpu.reg .rdi
  | 1 => cpu.reg .rsi
  | 2 => cpu.reg .rdx
  | 3 => cpu.reg .rcx
  | 4 => cpu.reg .r8
  | 5 => cpu.reg .r9
  | n + 6 => cpu.mem (cpu.reg .rsp + 8 * n)

end Cpu

/-- The functions that the code calls, and the addresses of its data. A function returns to its caller. It
keeps the registers that a callee saves, and the stack from its top on. -/
structure Runtime (σ : Type) where
  labelAddress : String → Int
  call : String → Cpu → σ → Cpu × σ
  keeps : ∀ f cpu w, ∀ r ∈ [AsmRegister.rbx, .rsp, .rbp], (call f cpu w).1.reg r = cpu.reg r
  keepsStack : ∀ f cpu w a, cpu.reg .rsp ≤ a → (call f cpu w).1.mem a = cpu.mem a

/-- A call instruction that has been executed: the function, the machine at that point, and what a function of
the library has returned. -/
structure Call where
  name : String
  cpu : Cpu
  ret : Option Int

/-- A running program: the next line, the machine, the world outside it, and the calls so far. -/
structure Process (σ : Type) where
  pc : Nat
  cpu : Cpu
  world : σ
  calls : List Call

variable {σ : Type}

namespace Process

/-- The next line, with another machine. -/
def next (p : Process σ) (cpu : Cpu) : Process σ := { p with pc := p.pc + 1, cpu := cpu }

/-- The value of an operand. -/
def value (rt : Runtime σ) (cpu : Cpu) : AsmOperand → Option Int
  | .imm64 immediate => some immediate
  | .immLbl label => some (rt.labelAddress label)
  | .register r => some (cpu.reg r)
  | .registerOffset offset r => some (cpu.mem (cpu.reg r + offset))
  | .identifier _ => none

/-- A call. A function of the code gets the address of the next line, `exit` ends the program, and the other
functions return. -/
def call (rt : Runtime σ) (code : List AsmLine) (p : Process σ) (f : String) : Process σ :=
  if .label f ∈ code then
    { p with
      pc := code.idxOf (.label f)
      cpu := p.cpu.push (p.pc + 1)
      calls := p.calls ++ [⟨f, p.cpu, none⟩] }
  else if f = "exit" then { p with pc := code.length, calls := p.calls ++ [⟨f, p.cpu, none⟩] }
  else
    let (cpu, world) := rt.call f p.cpu p.world
    { pc := p.pc + 1, cpu := cpu, world := world
      calls := p.calls ++ [⟨f, p.cpu, some (cpu.reg .rax)⟩] }

/-- A return to the address on top of the stack. -/
def ret (p : Process σ) : Option (Process σ) :=
  let address := p.cpu.mem (p.cpu.reg .rsp)
  if 0 ≤ address then
    some { p with pc := address.toNat, cpu := p.cpu.setReg .rsp (p.cpu.reg .rsp + 8) }
  else none

/-- Executes a line. -/
def exec (rt : Runtime σ) (code : List AsmLine) (p : Process σ) : AsmLine → Option (Process σ)
  | .instruction .mov [src, .register r] => (value rt p.cpu src).map fun v => p.next (p.cpu.setReg r v)
  | .instruction .add [.imm64 immediate, .register r] =>
    some (p.next (p.cpu.setReg r (p.cpu.reg r + immediate)))
  | .instruction .push [.register r] => some (p.next (p.cpu.push (p.cpu.reg r)))
  | .instruction .pop [.register r] => some (p.next (p.cpu.pop r))
  | .instruction .call [.identifier f] => some (p.call rt code f)
  | .instruction .ret [] => p.ret
  | .instruction _ _ => none
  | .label _ => some (p.next p.cpu)
  | .directive _ _ => some (p.next p.cpu)

def step (rt : Runtime σ) (code : List AsmLine) (p : Process σ) : Option (Process σ) :=
  code[p.pc]?.bind (p.exec rt code)

/-- The process at the entry of a program. -/
def start (code : List AsmLine) (cpu : Cpu) (world : σ) : Process σ :=
  ⟨code.idxOf (.label "_start"), cpu, world, []⟩

end Process

/-- The functions of the library that a list of calls goes through, from one world to another. -/
inductive Performs (rt : Runtime σ) : σ → List Call → σ → Prop
  | nil (w : σ) : Performs rt w [] w
  | cons {w w' w'' : σ} {c : Call} {cpu : Cpu} {cs : List Call} (h : rt.call c.name c.cpu w = (cpu, w'))
      (hret : c.ret = some (cpu.reg .rax)) (hrest : Performs rt w' cs w'') : Performs rt w (c :: cs) w''

end Blaze
