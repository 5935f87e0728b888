import Blazescript.Running.Path
import Blazescript.Stdio.Machine

/-!
# `stdio_linux.s`

The routines for the standard output, line by line.
-/

namespace Blaze.Stdio

/-- The labels of the file, without `x86_64_libblaze_`. -/
inductive Label
  | putc
  | putchar
  | putstr
  | putstrLoop
  | putstrEnd
  | puts
  deriving DecidableEq, Repr

/-- A line of the file that is no directive. -/
inductive Line
  | label (name : Label)
  | pushq (r : Reg)
  | popq (r : Reg)
  | movq (src dst : Reg)
  | movqImm (immediate : UInt64) (dst : Reg)
  | leaq (offset : UInt64) (src dst : Reg)
  /-- A byte of the memory becomes the low byte of a register. -/
  | movb (addr dst : Reg)
  /-- Compares the low byte of a register. -/
  | cmpb (immediate : UInt8) (r : Reg)
  /-- The low byte of a register, extended with zeros. -/
  | movzx (src dst : Reg)
  | inc (r : Reg)
  | je (name : Label)
  | jmp (name : Label)
  | call (name : Label)
  | ret
  | syscall
  deriving DecidableEq, Repr

/-- The lines of `stdio_linux.s`. -/
def stdioLinux : List Line :=
  [ .label .putc,
    .pushq .rdi,
    .pushq .rsi,
    .pushq .rdx,
    .pushq .rax,
    .movqImm 1 .rax,
    .movqImm 1 .rdi,
    .leaq 24 .rsp .rsi,
    .movqImm 1 .rdx,
    .syscall,
    .popq .rax,
    .popq .rsi,
    .popq .rdi,
    .popq .rdi,
    .ret,
    .label .putchar,
    .pushq .rbp,
    .movq .rsp .rbp,
    .call .putc,
    .movq .rbp .rsp,
    .popq .rbp,
    .ret,
    .label .putstr,
    .pushq .rbp,
    .movq .rsp .rbp,
    .pushq .rbx,
    .pushq .rax,
    .movq .rdi .rbx,
    .label .putstrLoop,
    .movb .rbx .rax,
    .cmpb 0 .rax,
    .je .putstrEnd,
    .movzx .rax .rdi,
    .call .putc,
    .inc .rbx,
    .jmp .putstrLoop,
    .label .putstrEnd,
    .popq .rax,
    .popq .rbx,
    .movq .rbp .rsp,
    .popq .rbp,
    .ret,
    .label .puts,
    .pushq .rbp,
    .movq .rsp .rbp,
    .call .putstr,
    .movqImm 10 .rdi,
    .call .putchar,
    .movq .rbp .rsp,
    .popq .rbp,
    .ret ]

/-- The place of a label in the code. -/
def Label.index (name : Label) : Nat := stdioLinux.idxOf (.label name)

section Execution

-- What a system call leaves in `%rcx` and `%r11`, and the address of the first line.
variable (clobber : Machine → UInt64 × UInt64) (base : UInt64)

/-- Executes a line. A line has the address of the first one, plus its place. -/
def exec (m : Machine) : Line → Option Machine
  | .label _ => some m.next
  | .pushq r => some (m.push (m.reg r)).next
  | .popq r => some (m.pop r).next
  | .movq src dst => some (m.setReg dst (m.reg src)).next
  | .movqImm immediate dst => some (m.setReg dst immediate).next
  | .leaq offset src dst => some (m.setReg dst (m.reg src + offset)).next
  | .movb addr dst => some (m.setReg dst (setLow (m.reg dst) (m.mem (m.reg addr)))).next
  | .cmpb immediate r => some { m with zero := (m.reg r).toUInt8 = immediate }.next
  | .movzx src dst => some (m.setReg dst (m.reg src).toUInt8.toUInt64).next
  | .inc r => some { m.setReg r (m.reg r + 1) with zero := m.reg r + 1 = 0 }.next
  | .je name => some (if m.zero then m.jump name.index else m.next)
  | .jmp name => some (m.jump name.index)
  | .call name => some ((m.push (base + UInt64.ofNat (m.pc + 1))).jump name.index)
  | .ret => some ((m.setReg .rsp (m.reg .rsp + 8)).jump (loadWord m.mem (m.reg .rsp) - base).toNat)
  | .syscall => if m.reg .rax = 1 ∧ m.reg .rdi = 1 then some (m.write (clobber m)).next else none

def step (m : Machine) : Option Machine := stdioLinux[m.pc]?.bind (exec clobber base m)

/-- A routine returns: the return address has been taken off the stack for the first time, and the next line
is the one it is the address of. -/
structure Returns (m m' : Machine) : Prop where
  path : Running.Path (step clobber base) (fun s => s.reg .rsp ≠ m.reg .rsp + 8) m m'
  rsp : m'.reg .rsp = m.reg .rsp + 8
  pc : base + UInt64.ofNat m'.pc = loadWord m.mem (m.reg .rsp)

end Execution

/-- There is a string at an address, with a zero after its bytes. -/
structure StringAt (mem : UInt64 → UInt8) (addr : UInt64) (bytes : List UInt8) : Prop where
  byte : ∀ (i : Nat) (b : UInt8), bytes[i]? = some b → mem (addr + UInt64.ofNat i) = b ∧ b ≠ 0
  nul : mem (addr + UInt64.ofNat bytes.length) = 0

/-- The bytes of a string, and the zero, do not lie in the eight words below the top of the stack, which are
free for the routines. -/
def AwayFromStack (rsp addr : UInt64) (bytes : List UInt8) : Prop :=
  ∀ i ≤ bytes.length, 64 ≤ (addr + UInt64.ofNat i - (rsp - 64)).toNat

/-- The registers that the routines push are as they were at the entry. -/
def Restored (m m' : Machine) : Prop :=
  ∀ r ∈ [Reg.rbp, .rbx, .rax, .rsi, .rdx], m'.reg r = m.reg r

end Blaze.Stdio
