import Blazescript.Vm.Exec

/-!
# Instructions

What the bytes of a program mean: a sequence of instructions, each encoded by its opcode and its
operands. An instruction acts on the state of the machine, without regard to where its operands come
from.
-/

namespace Blaze.Vm

/-- The bytes of a number, the lowest first. -/
def leBytes : Nat → UInt64 → List UInt8
  | 0, _ => []
  | n + 1, x => x.toUInt8 :: leBytes n (x >>> 8)

/-- The number with given bytes, the lowest first. -/
def leValue : List UInt8 → UInt64
  | [] => 0
  | b :: bs => b.toUInt64 + leValue bs <<< 8

/-- An instruction with its operands. A register is named by a number, which need not be valid. -/
inductive Instr
  | noOp
  | hlt
  | movIR (reg : UInt8) (imm : UInt64)
  | addRR (reg1 reg2 : UInt8)
  | syscall
  | regdump
  | pushRB (reg : UInt8)
  | popRB (reg : UInt8)
  | stackDmp
  deriving DecidableEq, Repr

namespace Instr

def opcode : Instr → Opcode
  | noOp => .noOp
  | hlt => .hlt
  | movIR .. => .movIR
  | addRR .. => .addRR
  | syscall => .syscall
  | regdump => .regdump
  | pushRB _ => .pushRB
  | popRB _ => .popRB
  | stackDmp => .stackDmp

def operands : Instr → List UInt8
  | movIR reg imm => reg :: leBytes 8 imm
  | addRR reg1 reg2 => [reg1, reg2]
  | pushRB reg => [reg]
  | popRB reg => [reg]
  | noOp | hlt | syscall | regdump | stackDmp => []

def encode (i : Instr) : List UInt8 := i.opcode.code :: i.operands

def size (i : Instr) : Nat := i.encode.length

/-- The numbers of the registers. -/
def registers : Instr → List UInt8
  | movIR reg _ => [reg]
  | addRR reg1 reg2 => [reg1, reg2]
  | pushRB reg => [reg]
  | popRB reg => [reg]
  | noOp | hlt | syscall | regdump | stackDmp => []

/-- The numbers of the registers are valid. -/
def Valid (i : Instr) : Prop := ∀ id ∈ i.registers, (RegisterType.ofId id).isSome

instance (i : Instr) : Decidable i.Valid :=
  decidable_of_iff (i.registers.all fun id => (RegisterType.ofId id).isSome) List.all_eq_true

/-- The register that an instruction writes, besides `%ip`. -/
def dest : Instr → Option RegisterType
  | movIR reg _ => RegisterType.ofId reg
  | addRR reg _ => RegisterType.ofId reg
  | popRB reg => RegisterType.ofId reg
  | noOp | hlt | syscall | regdump | stackDmp | pushRB _ => none

/-- The bytes that an instruction at an address reads, if its immediate is where it should be. -/
def accesses (i : Instr) (addr : UInt64) : List Access :=
  match i with
  | movIR reg _ =>
    .fetch addr :: .load (addr + 1) ::
      if (RegisterType.ofId reg).isSome then
        (List.range 8).map fun j => .load (addr + 2 + UInt64.ofNat j)
      else []
  | addRR .. => [.fetch addr, .load (addr + 1), .load (addr + 2)]
  | pushRB _ => [.fetch addr, .load (addr + 1)]
  | popRB _ => [.fetch addr, .load (addr + 1)]
  | noOp | hlt | syscall | regdump | stackDmp => [.fetch addr]

/-- What the instruction at an address does, once it has been read. -/
def act (outside : Outside) (addr : UInt64) : Instr → Action (Option UInt64)
  | noOp => pure none
  | hlt => pure none
  | movIR reg imm => do
    match ← validateRegister reg with
    | none => pure none
    | some reg => do
      writeRegister reg imm
      pure (some (addr + 10))
  | addRR reg1 reg2 => do
    match ← validateRegister reg1 with
    | none => pure none
    | some reg1 =>
      match ← validateRegister reg2 with
      | none => pure none
      | some reg2 => do
        let value1 ← readRegister reg1
        let value2 ← readRegister reg2
        writeRegister reg1 (value1 + value2)
        pure (some (addr + 3))
  | syscall => Vm.syscall outside
  | regdump => Vm.regdump
  | stackDmp => stackdmp
  | pushRB reg => do
    match ← validateRegister reg with
    | none => pure none
    | some reg => do
      let value ← readRegister reg
      modify fun s => { s with stack := s.stack.pushByte value.toUInt8 }
      pure (some (addr + 2))
  | popRB reg => do
    match ← validateRegister reg with
    | none => pure none
    | some reg => do
      let byte ← stackPop
      writeRegister reg byte.toUInt64
      pure (some (addr + 2))

/-- The end of an iteration, after the handler has returned. -/
def finish (result : Option UInt64) : Action (Option Bool) := do
  if (← get).bytecodeError.isSome then pure (some false)
  else do
    let ip ← readRegister .ip
    writeRegister .ip (result.getD (ip + 1))
    pure none

/-- An iteration of the loop on an instruction that has been read. -/
def perform (outside : Outside) (addr : UInt64) (i : Instr) : Action (Option Bool) :=
  if i = hlt then do
    print (.text "System halted\n")
    pure (some true)
  else do
    let result ← i.act outside addr
    finish result

end Instr

/-- The offsets at which the instructions of a program start, from an offset on. -/
def boundaries : Nat → List Instr → List Nat
  | _, [] => []
  | off, i :: is => off :: boundaries (off + i.size) is

/-- The code of a sequence of instructions. -/
def encodeAll (is : List Instr) : List UInt8 := is.flatMap Instr.encode

/-- The innermost pointer is at an offset where the code of an instruction starts. -/
structure At (bytecode : Bytecode) (s : State) (off : Nat) (i : Instr) : Prop where
  ip : s.registers .ip = bytecode.base + UInt64.ofNat off
  code : i.encode <+: bytecode.bytes.drop off

/-- The state in which the loop of `bytecode_exec` starts. -/
def State.started (bytecode : Bytecode) (s : State) : State :=
  (s.setRegister .ip bytecode.base).setRegister .is bytecode.base

/-- The states before the iterations of the loop, with how many iterations there have been. -/
inductive Reaches (bytecode : Bytecode) (outside : Outside) (s₀ : State) : Nat → State → Prop
  | start : Reaches bytecode outside s₀ 0 (s₀.started bytecode)
  | next {n : Nat} {s s' : State} (h : Reaches bytecode outside s₀ n s)
      (hi : execIteration bytecode outside s = .ok none s') : Reaches bytecode outside s₀ (n + 1) s'

/-- What a computation returns, if it does. -/
def returned {α : Type} : EStateM.Result Stop State α → Option α
  | .ok a _ => some a
  | .error _ _ => none

/-- The loop goes on after an iteration. -/
def goesOn : EStateM.Result Stop State (Option Bool) → Bool
  | .ok none _ => true
  | _ => false

/-- The reads of the ten bytes of a `mov`. -/
def ownAccesses (bytecode : Bytecode) (off : Nat) : List Access :=
  (List.range 10).map fun j =>
    let addr := bytecode.base + UInt64.ofNat (off + j)
    if j = 0 then .fetch addr else .load addr

/-- The `mov` at an offset moves the eight bytes that follow its register byte to its destination, and
it reads its own bytes only. -/
def Moves (bytecode : Bytecode) (outside : Outside) (s : State) (off : Nat) (dest : RegisterType) :
    Prop :=
  ∃ s', execIteration bytecode outside s = .ok none s' ∧
    s'.registers dest = leValue ((bytecode.bytes.drop (off + 2)).take 8) ∧
    s'.accesses = s.accesses ++ ownAccesses bytecode off

end Blaze.Vm
