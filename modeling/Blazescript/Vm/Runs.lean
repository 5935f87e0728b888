import Blazescript.Vm.Instr

/-!
# Runs

What a run of the machine is to do: the exit system call ends it, and a well-formed program is executed
from its first instruction to its last.
-/

namespace Blaze.Vm

/-- The opcode that is read belongs to an instruction that does nothing, or to one that ends the run. -/
def Access.Idle (bytecode : Bytecode) : Access → Prop
  | .fetch addr =>
    bytecode.bytes[bytecode.offset addr]? = some Opcode.noOp.code ∨
      bytecode.bytes[bytecode.offset addr]? = some Opcode.hlt.code
  | _ => False

/-- The run from `s₀` ends with success, with what the machine holds in `s` and the exit code in `r1`,
and so does the process. After the instruction to come in `s`, nothing is executed that has an effect. -/
structure Exits (bytecode : Bytecode) (outside : Outside) (s₀ s final : State) : Prop where
  returns : bytecodeExec bytecode outside s₀ = .ok true final
  exitCode : final.bytecodeExitCode.toNat = (s.registers .r1).toNat % 256
  registers : ∀ reg, reg ≠ .ip → final.registers reg = s.registers reg
  stack : final.stack = s.stack
  accesses : ∃ rest, final.accesses = s.accesses ++ .fetch (s.registers .ip) :: rest ∧
    ∀ a ∈ rest, a.Idle bytecode
  process : ∀ s₁ t, disassemble bytecode outside s₁ = .ok () t →
    s₀ = { t with stack := .create stackSize } →
      processFile bytecode outside s₁ = .ok final.bytecodeExitCode final

/-! ## Well-formed programs -/

/-- What `SYS_PRINT` prints. -/
def printed (outside : Outside) (s : State) : List Output :=
  let r1 := s.registers .r1
  let r2 := s.registers .r2
  if r1 = 0 then [.text (toString r2.toNat ++ "\n")]
  else if r1 = 1 then [.text ((if r2 = 0 then "(nil)" else "0x" ++ hex 0 r2.toNat) ++ "\n")]
  else if r1 = 2 then [.bytes ((outside.cstring s r2).getD []), .text "\n"]
  else [.bytes [r2.toUInt8], .text "\n"]

namespace Instr

/-- What an instruction does to the registers, the stack and the output. -/
def effect (outside : Outside) (s : State) : Instr → State
  | noOp | hlt => s
  | movIR reg imm =>
    match RegisterType.ofId reg with
    | some reg => s.setRegister reg imm
    | none => s
  | addRR reg1 reg2 =>
    match RegisterType.ofId reg1, RegisterType.ofId reg2 with
    | some reg1, some reg2 => s.setRegister reg1 (s.registers reg1 + s.registers reg2)
    | _, _ => s
  | pushRB reg =>
    match RegisterType.ofId reg with
    | some reg => { s with stack := s.stack.pushByte (s.registers reg).toUInt8 }
    | none => s
  | popRB reg =>
    match RegisterType.ofId reg, s.stack.popByte with
    | some reg, some (byte, stack) => { s with stack := stack }.setRegister reg byte.toUInt64
    | _, _ => s
  | regdump => { s with stdout := s.stdout ++ regdumpText s.registers }
  | stackDmp => { s with stdout := s.stdout ++ stackdmpText s.stack }
  | syscall =>
    if s.registers .r0 = 1 then { s with stdout := s.stdout ++ regdumpText s.registers }
    else if s.registers .r0 = 2 then { s with stdout := s.stdout ++ stackdmpText s.stack }
    else { s with stdout := s.stdout ++ printed outside s }

/-- An instruction of a well-formed program: no `hlt`, no pop on an empty stack, only system calls other
than `SYS_EXIT` with their arguments in range, and a string is printed only from where there is one.
When it is a `mov`, `%is` is the address of the program. -/
def Allowed (bytecode : Bytecode) (outside : Outside) (s : State) : Instr → Prop
  | hlt => False
  | movIR .. => s.registers .is = bytecode.base
  | popRB _ => s.stack.index ≠ 0
  | syscall =>
    s.registers .r0 = 1 ∨ s.registers .r0 = 2 ∨
      s.registers .r0 = 3 ∧ (s.registers .r1).toNat ≤ 3 ∧
        (s.registers .r1 = 2 → (outside.cstring s (s.registers .r2)).isSome)
  | noOp | addRR .. | regdump | stackDmp | pushRB _ => True

/-- The state once the instruction to come has been read. -/
def read (s : State) (i : Instr) : State := s.accessAll (i.accesses (s.registers .ip))

/-- The state after an instruction. -/
def run (outside : Outside) (s : State) (i : Instr) : State :=
  (i.effect outside (i.read s)).setRegister .ip (s.registers .ip + UInt64.ofNat i.size)

end Instr

/-- Each instruction of a sequence is allowed where it is executed. -/
def WellRun (bytecode : Bytecode) (outside : Outside) : State → List Instr → Prop
  | _, [] => True
  | s, i :: is =>
    i.Allowed bytecode outside (i.read s) ∧ WellRun bytecode outside (i.run outside s) is

/-- The state after a sequence of instructions, each executed once and in order. -/
def runAll (outside : Outside) (s : State) (is : List Instr) : State := is.foldl (Instr.run outside) s

/-- The state in which a `hlt` ends the run. -/
def State.halted (s : State) : State :=
  { s.accessAll [.fetch (s.registers .ip)] with stdout := s.stdout ++ [.text "System halted\n"] }

end Blaze.Vm
