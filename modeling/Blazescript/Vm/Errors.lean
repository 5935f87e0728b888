import Blazescript.Vm.Exec

/-!
# Errors of instructions

The places in `opcode.c` where a message is formatted, with the bytes that `xmalloc` gets for it, and what an
instruction leaves alone when it fails.
-/

namespace Blaze.Vm

inductive ErrorSite
  | opcode (opcode : UInt8)
  | register (id : UInt8)
  | syscall (r0 : UInt64)
  | valueType (r1 : UInt64)
  deriving DecidableEq, Repr

namespace ErrorSite

/-- The text in front of the number. -/
def text : ErrorSite → String
  | opcode _ => "Invalid opcode: 0x"
  | register _ => "Invalid register: 0x"
  | syscall _ => "Invalid syscall: 0x"
  | valueType _ => "Invalid value type: 0x"

def number : ErrorSite → Nat
  | opcode code => code.toNat
  | register id => id.toNat
  | syscall r0 => r0.toNat
  | valueType r1 => r1.toNat

/-- What `sprintf` writes, without the terminator. Every character is a byte. -/
def message (site : ErrorSite) : String := site.text ++ hex 2 site.number

/-- The argument of `xmalloc`. -/
def allocated : ErrorSite → Nat
  | opcode _ => 22
  | register _ => 25
  | syscall _ => 30
  | valueType _ => 35

def Fits (site : ErrorSite) : Prop := site.message.length + 1 ≤ site.allocated

/-- Where the instruction with the opcode can fail. -/
def Of (opcode : UInt8) (s : State) : ErrorSite → Prop
  | .opcode code => code = opcode ∧ Opcode.ofCode opcode = none
  | register id => RegisterType.ofId id = none
  | syscall r0 => opcode = Opcode.syscall.code ∧ r0 = s.registers .r0
  | valueType r1 => opcode = Opcode.syscall.code ∧ s.registers .r0 = 3 ∧ r1 = s.registers .r1

end ErrorSite

/-- Nothing has been done except for reads. -/
structure Untouched (s s' : State) : Prop where
  registers : s'.registers = s.registers
  stack : s'.stack = s.stack
  exitCode : s'.bytecodeExitCode = s.bytecodeExitCode
  stdout : s'.stdout = s.stdout

/-- The instruction has failed at one of its sites, and before it has done anything. -/
def Fails (opcode : UInt8) (s s' : State) : Prop :=
  Untouched s s' ∧ ∃ site : ErrorSite, site.Of opcode s ∧ s'.bytecodeError = some site.message

/-- A system call whose arguments are too long to be reported. -/
def State.Overlong (s : State) : Prop :=
  0x10000000000 ≤ (s.registers .r0).toNat ∨ s.registers .r0 = 3 ∧ 0x1000000000000 ≤ (s.registers .r1).toNat

end Blaze.Vm
