import Blazescript.Vm.Program

/-!
# `opcode.c`

The tables of opcodes and the handlers of the instructions. A handler returns the address of the next
instruction, or `none` for the one that follows its opcode.
-/

namespace Blaze.Vm

/-- `opcode_t`. -/
inductive Opcode
  | noOp
  | hlt
  | movIR
  | addRR
  | syscall
  | regdump
  | pushRB
  | popRB
  | stackDmp
  deriving DecidableEq, Repr

/-- `addressing_mode_t`. -/
inductive AddressingMode
  | none
  | immediate
  | register
  deriving DecidableEq, Repr

/-- `operand_info_t`. -/
structure OperandInfo where
  size : Nat
  addrmode : AddressingMode
  deriving DecidableEq, Repr

namespace Opcode

/-- The opcodes in the order of the enumeration. -/
def all : List Opcode := [noOp, hlt, movIR, addRR, syscall, regdump, pushRB, popRB, stackDmp]

/-- The number of an opcode. -/
def code : Opcode → UInt8
  | noOp => 0 | hlt => 1 | movIR => 2 | addRR => 3 | syscall => 4 | regdump => 5 | pushRB => 6
  | popRB => 7 | stackDmp => 8

/-- The opcode with a number, if it is below `OPCODE_COUNT`. -/
def ofCode (code : UInt8) : Option Opcode := all[code.toNat]?

/-- `opcode_operand_sizes_lut`. -/
def operandSizes : Opcode → Nat × Nat
  | noOp => (0, 0)
  | hlt => (0, 0)
  | movIR => (1, 8)
  | addRR => (1, 1)
  | syscall => (0, 0)
  | regdump => (0, 0)
  | stackDmp => (0, 0)
  | pushRB => (1, 0)
  | popRB => (1, 0)

/-- `opcode_operand_addrmode_lut`. -/
def operandAddrmodes : Opcode → AddressingMode × AddressingMode
  | hlt => (.none, .none)
  | noOp => (.none, .none)
  | movIR => (.register, .immediate)
  | addRR => (.register, .register)
  | syscall => (.none, .none)
  | regdump => (.none, .none)
  | stackDmp => (.none, .none)
  | pushRB => (.register, .none)
  | popRB => (.register, .none)

/-- `opcode_to_str_lut`. -/
def str : Opcode → String
  | noOp => "noop"
  | hlt => "hlt"
  | movIR => "mov"
  | addRR => "add"
  | syscall => "syscall"
  | regdump => "regdump"
  | stackDmp => "stackdmp"
  | pushRB => "pushb"
  | popRB => "popb"

end Opcode

/-- `opcode_get_size`. -/
def opcodeGetSize (opcode : UInt8) : Nat :=
  match Opcode.ofCode opcode with
  | none => 1
  | some op => op.operandSizes.1 + op.operandSizes.2 + 1

/-- An entry of a table of opcodes; the assertion that there is one is compiled out. -/
def tableEntry {α : Type} (opcode : UInt8) (table : Opcode → α) : Action α := fun s =>
  match Opcode.ofCode opcode with
  | some op => .ok (table op) (s.access (.table opcode.toNat))
  | none => .error .undefined (s.access (.table opcode.toNat))

/-- `opcode_get_operand_info`. -/
def opcodeGetOperandInfo (opcode : UInt8) : Action (OperandInfo × OperandInfo) := do
  let sizes ← tableEntry opcode Opcode.operandSizes
  let addrmodes ← tableEntry opcode Opcode.operandAddrmodes
  pure (⟨sizes.1, addrmodes.1⟩, ⟨sizes.2, addrmodes.2⟩)

/-- `opcode_to_str`. -/
def opcodeToStr (opcode : UInt8) : Action String := tableEntry opcode Opcode.str

/-! ## The handlers -/

/-- `validate_register`: the register with the number. -/
def validateRegister (id : UInt8) : Action (Option RegisterType) :=
  match RegisterType.ofId id with
  | some reg => pure (some reg)
  | none => do
    setError ("Invalid register: 0x" ++ hex 2 id.toNat)
    pure none

/-- The lines of `regdump`. -/
def regdumpText (registers : RegisterType → UInt64) : List Output :=
  .text "\n*** regdump:\n\n" :: RegisterType.all.map fun reg =>
    .text ("\x1b[1;34m%" ++ reg.str ++ "\x1b[0m     \x1b[1;32m0x" ++ hex 16 (registers reg).toNat ++
      "\x1b[0m\n")

/-- `regdump`. -/
def regdump : Action (Option UInt64) := do
  modify fun s => { s with stdout := s.stdout ++ regdumpText s.registers }
  pure none

/-- The lines of `stackdmp`: at most ten bytes. -/
def stackdmpText (stack : BlazeStack) : List Output :=
  .text "\n*** stack dump:\n\n" ::
    ((List.range (min 10 stack.size)).map fun c =>
      let i := stack.index - 10 + c
      .text ((if stack.index = i then " => " else "    ") ++ "\x1b[1;34m[" ++ toString i ++
        "]\x1b[0m:     \x1b[1;32m0x" ++ hex 2 (stack.bytes[i]?.getD 0).toNat ++ "\x1b[0m\n"))

/-- `stackdmp`. -/
def stackdmp : Action (Option UInt64) := do
  modify fun s => { s with stdout := s.stdout ++ stackdmpText s.stack }
  pure none

section Handlers

variable (bytecode : Bytecode) (outside : Outside)

/-- `push_r_b`. -/
def pushRB (ip : UInt64) : Action (Option UInt64) := do
  let regId ← loadAs bytecode outside .load (ip + 1)
  match ← validateRegister regId with
  | none => pure none
  | some reg => do
    let value ← readRegister reg
    modify fun s => { s with stack := s.stack.pushByte value.toUInt8 }
    pure (some (ip + 2))

/-- `blaze_stack_pop_byte` on the stack of the machine. -/
def stackPop : Action UInt8 := do
  match (← get).stack.popByte with
  | none => throw (.fatal "Stack is empty")
  | some (byte, stack) => do
    modify fun s => { s with stack := stack }
    pure byte

/-- `pop_r_b`. -/
def popRB (ip : UInt64) : Action (Option UInt64) := do
  let regId ← loadAs bytecode outside .load (ip + 1)
  match ← validateRegister regId with
  | none => pure none
  | some reg => do
    let byte ← stackPop
    writeRegister reg byte.toUInt64
    pure (some (ip + 2))

/-- `mov_ir`. The address of the immediate is turned into an offset with `%is`. -/
def movIR (ip : UInt64) : Action (Option UInt64) := do
  let regId ← loadAs bytecode outside .load (ip + 1)
  match ← validateRegister regId with
  | none => pure none
  | some reg => do
    let is ← readRegister .is
    let value ← bytecodeGetQword bytecode outside (ip + 1 + 1 - is)
    writeRegister reg value
    pure (some (ip + 1 + 9))

/-- `add_rr`. -/
def addRR (ip : UInt64) : Action (Option UInt64) := do
  let reg1Id ← loadAs bytecode outside .load (ip + 1)
  let reg2Id ← loadAs bytecode outside .load (ip + 2)
  match ← validateRegister reg1Id with
  | none => pure none
  | some reg1 =>
    match ← validateRegister reg2Id with
    | none => pure none
    | some reg2 => do
      let value1 ← readRegister reg1
      let value2 ← readRegister reg2
      writeRegister reg1 (value1 + value2)
      pure (some (ip + 3))

/-- `SYS_PRINT`. -/
def sysPrint : Action (Option UInt64) := do
  let r1 ← readRegister .r1
  let r2 ← readRegister .r2
  if r1 = 0 then do
    print (.text (toString r2.toNat ++ "\n"))
    pure none
  else if r1 = 1 then do
    print (.text ((if r2 = 0 then "(nil)" else "0x" ++ hex 0 r2.toNat) ++ "\n"))
    pure none
  else if r1 = 2 then do
    match outside.cstring (← get) r2 with
    | none => throw .killed
    | some s => do
      print (.bytes s)
      print (.text "\n")
      pure none
  else if r1 = 3 then do
    print (.bytes [r2.toUInt8])
    print (.text "\n")
    pure none
  else do
    setError ("Invalid value type: 0x" ++ hex 2 r1.toNat)
    pure none

/-- `syscall`. -/
def syscall : Action (Option UInt64) := do
  let r0 ← readRegister .r0
  if r0 = 0 then do
    let r1 ← readRegister .r1
    modify fun s => { s with bytecodeExitCode := r1.toUInt8 }
    pure none
  else if r0 = 1 then regdump
  else if r0 = 2 then stackdmp
  else if r0 = 3 then sysPrint outside
  else do
    setError ("Invalid syscall: 0x" ++ hex 2 r0.toNat)
    pure none

/-- `handlers_lut`, by which `instruction_exec` runs an instruction. -/
def handler (opcode : Opcode) (ip : UInt64) : Action (Option UInt64) :=
  match opcode with
  | .noOp => pure none
  | .hlt => pure none
  | .movIR => movIR bytecode outside ip
  | .addRR => addRR bytecode outside ip
  | .syscall => syscall outside
  | .regdump => regdump
  | .stackDmp => stackdmp
  | .pushRB => pushRB bytecode outside ip
  | .popRB => popRB bytecode outside ip

/-- `instruction_exec`. -/
def instructionExec (opcode : UInt8) : Action (Option UInt64) := do
  match Opcode.ofCode opcode with
  | none => do
    setError ("Invalid opcode: 0x" ++ hex 2 opcode.toNat)
    pure none
  | some op => do
    let ip ← readRegister .ip
    handler bytecode outside op ip

end Handlers

end Blaze.Vm
