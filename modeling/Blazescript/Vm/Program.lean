import Blazescript.Vm.Stack

/-!
# `bytecode.c`, `register.c` and the state of the virtual machine

The program as it lies in memory, the registers, and what the machine reads and writes. Reads through
pointers are not checked by the source: one that leaves the program gives whatever is there, if the
page is mapped at all.
-/

namespace Blaze.Vm

/-- `register_type_t`. -/
inductive RegisterType
  | r0 | r1 | r2 | r3 | r4 | r5 | r6 | r7 | r8 | r9
  | ip
  | is
  deriving DecidableEq, Repr

namespace RegisterType

/-- The registers in the order of the enumeration. -/
def all : List RegisterType := [r0, r1, r2, r3, r4, r5, r6, r7, r8, r9, ip, is]

/-- The number of a register. -/
def id : RegisterType → UInt8
  | r0 => 0 | r1 => 1 | r2 => 2 | r3 => 3 | r4 => 4 | r5 => 5 | r6 => 6 | r7 => 7 | r8 => 8 | r9 => 9
  | ip => 10
  | is => 11

/-- `is_valid_register_id`: the register with a number, if there is one. -/
def ofId (id : UInt8) : Option RegisterType := all[id.toNat]?

/-- `register_id_to_str_lut`. -/
def str : RegisterType → String
  | r0 => "r0" | r1 => "r1" | r2 => "r2" | r3 => "r3" | r4 => "r4" | r5 => "r5" | r6 => "r6"
  | r7 => "r7" | r8 => "r8" | r9 => "r9"
  | ip => "ip"
  | is => "is"

end RegisterType

/-- `struct bytecode`, with the address of its bytes. The memory of a process lies in the lower half of
the addresses. -/
structure Bytecode where
  bytes : List UInt8
  base : UInt64
  base_ne : base ≠ 0
  fits : base.toNat + bytes.length < 0x8000000000000000

namespace Bytecode

/-- Some bytes, mapped at an address. -/
def mapped (bytes : List UInt8) (h : bytes.length < 0x4000000000000000) : Bytecode :=
  ⟨bytes, 0x400000, by decide, by
    have : (0x400000 : UInt64).toNat = 0x400000 := rfl
    omega⟩

def size (bytecode : Bytecode) : Nat := bytecode.bytes.length

/-- Where an address lies in the program. -/
def offset (bytecode : Bytecode) (addr : UInt64) : Nat := (addr - bytecode.base).toNat

end Bytecode

/-- `bytecode_init_from_filebuf`: the bytes after the shebang, if there is any. -/
def stripShebang : List UInt8 → List UInt8
  | 0x23 :: 0x21 :: rest =>
    if rest.isEmpty then 0x23 :: 0x21 :: rest
    else (rest.dropWhile fun b => b ≠ 0x0A ∧ b ≠ 0x0D).drop 1
  | stream => stream

/-- A read of the machine from its program or one of the tables of opcodes. -/
inductive Access
  /-- the opcode of an instruction -/
  | fetch (addr : UInt64)
  /-- any other byte -/
  | load (addr : UInt64)
  /-- an entry of a table -/
  | table (index : Nat)
  deriving DecidableEq, Repr

/-- What is printed. -/
inductive Output
  | text (s : String)
  | bytes (bytes : List UInt8)
  deriving DecidableEq, Repr

/-- The state of the machine: the globals of `register.c`, `opcode.c` and `bytecode.c`, the output,
and a record of its reads. -/
structure State where
  registers : RegisterType → UInt64
  stack : BlazeStack
  bytecodeError : Option String
  bytecodeExitCode : UInt8
  stdout : List Output
  accesses : List Access

namespace State

def setRegister (s : State) (reg : RegisterType) (value : UInt64) : State :=
  { s with registers := fun r => if r = reg then value else s.registers r }

def access (s : State) (a : Access) : State := { s with accesses := s.accesses ++ [a] }

def accessAll (s : State) (as : List Access) : State := { s with accesses := s.accesses ++ as }

end State

/-- The offset of an opcode that has been read. -/
def Access.fetched (bytecode : Bytecode) : Access → Option Nat
  | .fetch addr => some (bytecode.offset addr)
  | _ => none

/-- The opcodes that have been read, by their offsets. -/
def State.fetched (s : State) (bytecode : Bytecode) : List Nat :=
  s.accesses.filterMap (Access.fetched bytecode)

/-- Why the process ends early. `undefined` stands for a read past the end of a table. -/
inductive Stop
  | fatal (msg : String)
  | killed
  | undefined
  deriving DecidableEq, Repr

/-- What lies outside: the bytes of the memory that is no part of the program, the text `printf`
finds at an address, and the names past the end of `register_id_to_str_lut`. A read of memory that is
not mapped kills the process. -/
structure Outside where
  byte : State → UInt64 → Option UInt8
  cstring : State → UInt64 → Option (List UInt8)
  registerName : UInt8 → Option String

/-- Nothing but the program is mapped. -/
def Outside.unmapped : Outside := ⟨fun _ _ => none, fun _ _ => none, fun _ => none⟩

abbrev Action (α : Type) := EStateM Stop State α

/-- Reads a byte of the memory. -/
def loadAs (bytecode : Bytecode) (outside : Outside) (kind : UInt64 → Access) (addr : UInt64) :
    Action UInt8 := fun s =>
  match bytecode.bytes[bytecode.offset addr]?.or (outside.byte s addr) with
  | some byte => .ok byte (s.access (kind addr))
  | none => .error .killed (s.access (kind addr))

def readRegister (reg : RegisterType) : Action UInt64 := do return (← get).registers reg

def writeRegister (reg : RegisterType) (value : UInt64) : Action Unit :=
  modify fun s => s.setRegister reg value

def setError (msg : String) : Action Unit := modify fun s => { s with bytecodeError := some msg }

def print (out : Output) : Action Unit := modify fun s => { s with stdout := s.stdout ++ [out] }

/-- `%0nlx`. -/
def hex (width n : Nat) : String :=
  let digits := Nat.toDigits 16 n
  String.ofList (List.replicate (width - digits.length) '0' ++ digits)

section Reads

variable (bytecode : Bytecode) (outside : Outside)

/-- Some bytes from an address on, the first one in the lowest place. -/
def loadLittleEndian : Nat → UInt64 → Action UInt64
  | 0, _ => pure 0
  | n + 1, addr => do
    let byte ← loadAs bytecode outside .load addr
    let rest ← loadLittleEndian n (addr + 1)
    pure (byte.toUInt64 + rest <<< 8)

/-- `bytecode_get_byte`; `addr` is an offset. -/
def bytecodeGetByte (addr : UInt64) : Action UInt64 :=
  loadLittleEndian bytecode outside 1 (bytecode.base + addr)

/-- `bytecode_get_word`. -/
def bytecodeGetWord (addr : UInt64) : Action UInt64 :=
  loadLittleEndian bytecode outside 2 (bytecode.base + addr)

/-- `bytecode_get_dword`. -/
def bytecodeGetDword (addr : UInt64) : Action UInt64 :=
  loadLittleEndian bytecode outside 4 (bytecode.base + addr)

/-- `bytecode_get_qword`. -/
def bytecodeGetQword (addr : UInt64) : Action UInt64 :=
  loadLittleEndian bytecode outside 8 (bytecode.base + addr)

end Reads

end Blaze.Vm
