import Blazescript.Vm.Listing
import Blazescript.Vm.RawStack
import Blazescript.Vm.Runs

/-!
# The machine without its memory

What a program is for: it computes in twelve registers and a list of bytes, and prints. The instructions are given,
and are no bytes that lie somewhere; nothing is fetched, and the stack has no allocation that grows.
-/

namespace Blaze.Vm

/-- The registers, the bytes that have been pushed with the last one first, and what has been printed. -/
structure Core where
  registers : RegisterType → UInt64
  pushed : List UInt8
  printed : List Output

namespace Core

/-- A program at an address begins. -/
def start (base : UInt64) : Core := ⟨fun reg => if reg = .ip ∨ reg = .is then base else 0, [], []⟩

def setRegister (c : Core) (reg : RegisterType) (value : UInt64) : Core :=
  { c with registers := fun r => if r = reg then value else c.registers r }

def writes (c : Core) (out : List Output) : Core := { c with printed := c.printed ++ out }

/-- `SYS_PRINT` of a number, of an address or of a character. -/
def sysPrint (c : Core) : Option Core :=
  let r1 := c.registers .r1
  let r2 := c.registers .r2
  if r1 = 0 then some (c.writes [.text (toString r2.toNat ++ "\n")])
  else if r1 = 1 then some (c.writes [.text ((if r2 = 0 then "(nil)" else "0x" ++ hex 0 r2.toNat) ++ "\n")])
  else if r1 = 3 then some (c.writes [.bytes [r2.toUInt8], .text "\n"])
  else none

/-- What an instruction does to the registers, the bytes and the output. A pop needs a byte, a `mov` needs the address
of the program in `%is`, and no system call may exit, show the stack or print from memory. -/
def act (base : UInt64) (c : Core) : Instr → Option Core
  | .noOp => some c
  | .hlt | .stackDmp => none
  | .movIR reg imm => (RegisterType.ofId reg).bind fun reg =>
      if c.registers .is = base then some (c.setRegister reg imm) else none
  | .addRR reg1 reg2 => (RegisterType.ofId reg1).bind fun reg1 =>
      (RegisterType.ofId reg2).map fun reg2 => c.setRegister reg1 (c.registers reg1 + c.registers reg2)
  | .pushRB reg => (RegisterType.ofId reg).map fun reg =>
      { c with pushed := (c.registers reg).toUInt8 :: c.pushed }
  | .popRB reg => (RegisterType.ofId reg).bind fun reg =>
      match c.pushed with
      | [] => none
      | byte :: pushed => some ({ c with pushed := pushed }.setRegister reg byte.toUInt64)
  | .regdump => some (c.writes (regdumpText c.registers))
  | .syscall =>
      if c.registers .r0 = 1 then some (c.writes (regdumpText c.registers))
      else if c.registers .r0 = 3 then c.sysPrint
      else none

/-- An instruction, after which the next one comes. -/
def step (base : UInt64) (c : Core) (i : Instr) : Option Core :=
  (c.act base i).map fun c' => c'.setRegister .ip (c.registers .ip + UInt64.ofNat i.size)

/-- The instructions one after the other. -/
def run (base : UInt64) : Core → List Instr → Option Core
  | c, [] => some c
  | c, i :: is => (c.step base i).bind fun c => run base c is

/-- The machine is where the program is, after it has printed something else before. -/
structure Stands (c : Core) (before : List Output) (s : State) : Prop where
  registers : s.registers = c.registers
  pushed : s.stack.raw.content = c.pushed
  printed : s.stdout = before ++ c.printed
  error : s.bytecodeError = none
  exitCode : s.bytecodeExitCode = 0

end Core

/-- A file that holds a program, after a line for the shell if there is one. -/
def imageOf (line : Option (List UInt8)) (is : List Instr) : List UInt8 :=
  (line.elim [] fun line => 0x23 :: 0x21 :: (line ++ [0x0A])) ++ encodeAll is

/-- The state in which a program begins to run, when something has been printed. -/
def loaded (as : List Access) (out : List Output) : State :=
  { initialState.accessAll as with stdout := out, stack := .create stackSize }

/-- `blazevm` succeeds. It shows a disassembly that says which instructions the program has, and then what the program
prints, and that it has halted. -/
def RunsAs (bytecode : Bytecode) (outside : Outside) (is : List Instr) (printed : List Output) : Prop :=
  ∃ listing final, processFile bytecode outside initialState = .ok 0 final ∧
    final.stdout = listing ++ printed ++ [.text "System halted\n"] ∧
      readListing (listing.flatMap Output.chars) = some (listed bytecode.base.toNat is)

end Blaze.Vm
