import Blazescript.Vm.Opcode

/-!
# `bytecode_exec`, `disassemble.c` and `blazevm.c`

The loop of the machine, the disassembler, and the program `blazevm`, which runs one after the other.
-/

namespace Blaze.Vm

section

variable (bytecode : Bytecode) (outside : Outside)

/-- One iteration of the loop, after the check of the counter: what the loop returns, if it ends. -/
def execIteration : Action (Option Bool) := do
  let ip ← readRegister .ip
  if ip.toNat ≥ bytecode.base.toNat + bytecode.size then do
    setError "%ip points to a memory address that is out of range"
    pure (some false)
  else do
    let opcode ← loadAs bytecode outside .fetch ip
    if opcode = Opcode.hlt.code then do
      print (.text "System halted\n")
      pure (some true)
    else do
      let result ← instructionExec bytecode outside opcode
      if (← get).bytecodeError.isSome then pure (some false)
      else do
        let ip ← readRegister .ip
        writeRegister .ip (result.getD (ip + 1))
        pure none

/-- The loop, with the number of iterations that the counter `i` still allows. -/
def execLoop : Nat → Action Bool
  | 0 => do
    if (← readRegister .ip) = 0 then pure true else throw (.fatal "Loop exhausted")
  | n + 1 => do
    if (← readRegister .ip) = 0 then pure true
    else
      match ← execIteration bytecode outside with
      | some ret => pure ret
      | none => execLoop n

/-- The iterations after which the loop is exhausted: `i` is 1000 in the next. -/
def maxIterations : Nat := 999

/-- `bytecode_exec`. -/
def bytecodeExec : Action Bool := do
  writeRegister .ip bytecode.base
  writeRegister .is bytecode.base
  execLoop bytecode outside maxIterations

/-! ## The disassembler -/

/-- `register_id_to_str`; the assertion that the number is valid is compiled out. -/
def registerIdToStr (id : UInt8) : Action String :=
  match RegisterType.ofId id with
  | some reg => pure reg.str
  | none =>
    match outside.registerName id with
    | some name => pure name
    | none => throw .killed

/-- `disassemble_operand`. -/
def disassembleOperand (info : OperandInfo) (i : UInt64) : Action Unit :=
  if info.addrmode = .register then do
    let id ← bytecodeGetByte bytecode outside i
    let name ← registerIdToStr outside id.toUInt8
    print (.text ("%" ++ name))
  else
    match info.size with
    | 1 => do
      let value ← bytecodeGetByte bytecode outside i
      print (.text ("0x" ++ hex 2 value.toNat))
    | 2 => do
      let value ← bytecodeGetWord bytecode outside i
      print (.text ("0x" ++ hex 4 value.toNat))
    | 4 => do
      let value ← bytecodeGetDword bytecode outside i
      print (.text ("0x" ++ hex 8 value.toNat))
    | 8 => do
      let value ← bytecodeGetQword bytecode outside i
      print (.text ("0x" ++ hex 16 value.toNat))
    | _ => pure ()

/-- The bytes of an instruction. -/
def dumpBytes : Nat → UInt64 → Action Unit
  | 0, _ => pure ()
  | n + 1, addr => do
    let byte ← loadAs bytecode outside .load addr
    print (.text (hex 2 byte.toNat ++ " "))
    dumpBytes n (addr + 1)

/-- The operands of an instruction of more than one byte. -/
def disassembleOperands (info : OperandInfo × OperandInfo) (i : UInt64) : Action Unit := do
  if info.1.size > 0 then disassembleOperand bytecode outside info.1 i
  if info.2.size > 0 then do
    print (.text ", ")
    disassembleOperand bytecode outside info.2 (i + UInt64.ofNat info.1.size)

/-- The rest of an iteration of the loop of `disassemble`, once the opcode has been read: the size of
the instruction. The spaces are written to `stdout`, as is everything else in `blazevm`. -/
def disassembleRest (i : Nat) (opcode : UInt8) : Action Nat := do
  let addr := bytecode.base + UInt64.ofNat i
  let instSize := opcodeGetSize opcode
  let info ← opcodeGetOperandInfo opcode
  let opcodeStr ← opcodeToStr opcode
  print (.text (" " ++ hex 8 addr.toNat ++ ":  "))
  dumpBytes bytecode outside instSize addr
  print (.text (String.ofList (List.replicate (35 - (instSize * 3 - 1)) ' ') ++ opcodeStr))
  if instSize < 2 then do
    print (.text "\n")
    pure instSize
  else do
    print (.text (String.ofList (List.replicate (10 - opcodeStr.length) ' ')))
    disassembleOperands bytecode outside info (UInt64.ofNat (i + 1))
    print (.text "\n")
    pure (1 + info.1.size + info.2.size)

/-- One iteration of the loop of `disassemble`. -/
def disassembleInstruction (i : Nat) : Action Nat := do
  let opcode ← loadAs bytecode outside .fetch (bytecode.base + UInt64.ofNat i)
  disassembleRest bytecode outside i opcode

/-- The loop of `disassemble`. Each iteration advances, so there are no more of them than bytes. -/
def disassembleLoop : Nat → Nat → Action Unit
  | 0, _ => pure ()
  | n + 1, i =>
    if i < bytecode.size then do
      let size ← disassembleInstruction bytecode outside i
      disassembleLoop n (i + size)
    else pure ()

/-- `disassemble`. -/
def disassemble : Action Unit := disassembleLoop bytecode outside bytecode.size 0

/-! ## `blazevm` -/

/-- `STACK_SIZE`. -/
def stackSize : Nat := 4096

/-- `process_file`, once the file has been loaded: the exit code. -/
def processFile : Action UInt8 := do
  disassemble bytecode outside
  modify fun s => { s with stack := .create stackSize }
  let ok ← bytecodeExec bytecode outside
  if ok then return (← get).bytecodeExitCode
  else throw (.fatal ((← get).bytecodeError.getD ""))

end

/-- The state in which `process_file` starts. -/
def initialState : State :=
  ⟨fun _ => 0, .create 0, none, 0, [], []⟩

/-- The final state of a computation, however it ends. -/
def finalState {α : Type} (r : EStateM.Result Stop State α) : State :=
  match r with
  | .ok _ s => s
  | .error _ s => s

end Blaze.Vm
