import Blazescript.Scanning.Fields
import Blazescript.Vm.Instr

/-!
# Reading a disassembly

What the disassembler prints for an instruction, and how it is read back: the address and the bytes in the columns on
the left, and the instruction from its name and its operands on the right.
-/

namespace Blaze.Vm

open Scanning

/-! ## Printing -/

/-- The characters that are printed. -/
def Output.chars : Output → List Char
  | .text s => s.toList
  | .bytes bs => bs.map fun byte => Char.ofNat byte.toNat

/-- The operand for a register. -/
def registerText (id : UInt8) : String := "%" ++ ((RegisterType.ofId id).map RegisterType.str).getD ""

/-- The operands of an instruction. -/
def Instr.operandsText : Instr → List Output
  | movIR reg imm => [.text (registerText reg), .text ", ", .text ("0x" ++ hex 16 imm.toNat)]
  | addRR reg1 reg2 => [.text (registerText reg1), .text ", ", .text (registerText reg2)]
  | pushRB reg => [.text (registerText reg)]
  | popRB reg => [.text (registerText reg)]
  | noOp | hlt | syscall | regdump | stackDmp => []

/-- The end of the line, after the name. -/
def Instr.restText (i : Instr) : List Output :=
  if i.size < 2 then [.text "\n"]
  else .text (String.ofList (List.replicate (10 - i.opcode.str.length) ' ')) :: (i.operandsText ++ [.text "\n"])

/-- The line of an instruction at an address. -/
def Instr.lineText (addr : UInt64) (i : Instr) : List Output :=
  .text (" " ++ hex 8 addr.toNat ++ ":  ") :: (i.encode.map (fun byte => .text (hex 2 byte.toNat ++ " ")) ++
    .text (String.ofList (List.replicate (35 - (i.size * 3 - 1)) ' ') ++ i.opcode.str) :: i.restText)

/-- The lines of a sequence of instructions from an address on. -/
def listingText : UInt64 → List Instr → List Output
  | _, [] => []
  | addr, i :: is => i.lineText addr ++ listingText (addr + UInt64.ofNat i.size) is

/-- The computation prints, and does nothing else but read. -/
def Shows {α : Type} (x : Action α) (out : List Output) (a : α) : Prop :=
  ∀ s, ∃ as, x s = .ok a { s.accessAll as with stdout := s.stdout ++ out }

/-! ## Reading -/

/-- What a line of a disassembly says. -/
structure Listed where
  addr : Nat
  code : List UInt8
  instr : Instr
  deriving DecidableEq

/-- Two hexadecimal digits. -/
def byteOf (field : List Char) : Option UInt8 :=
  if field.length = 2 then (readNumeral 16 field).map UInt8.ofNat else none

/-- The number of the register that an operand names. -/
def registerNamed : List Char → Option UInt8
  | '%' :: name => (RegisterType.all.find? fun reg => reg.str.toList = name).map RegisterType.id
  | _ => none

/-- The number that an operand gives. -/
def immediateOf : List Char → Option UInt64
  | '0' :: 'x' :: digits => (readNumeral 16 digits).map UInt64.ofNat
  | _ => none

/-- The instruction with a name and operands, which have a comma between them. -/
def instrOf : List (List Char) → Option Instr
  | [name] => [Instr.noOp, .hlt, .syscall, .regdump, .stackDmp].find? fun i => i.opcode.str.toList = name
  | [name, operand] => (registerNamed operand).bind fun reg =>
      if name = Opcode.pushRB.str.toList then some (.pushRB reg)
      else if name = Opcode.popRB.str.toList then some (.popRB reg)
      else none
  | [name, operand1, operand2] => (registerNamed (operand1.takeWhile (· ≠ ','))).bind fun reg =>
      if name = Opcode.movIR.str.toList then (immediateOf operand2).map (.movIR reg)
      else if name = Opcode.addRR.str.toList then (registerNamed operand2).map (.addRR reg)
      else none
  | _ => none

/-- A line: the address before a colon, then the bytes, then the instruction. -/
def readLine (line : List Char) : Option Listed :=
  match fields ' ' line with
  | [] => none
  | addr :: columns =>
    (readNumeral 16 (addr.takeWhile (· ≠ ':'))).bind fun addr =>
      (instrOf (columns.dropWhile fun field => (byteOf field).isSome)).map fun instr =>
        ⟨addr, (columns.takeWhile fun field => (byteOf field).isSome).filterMap byteOf, instr⟩

/-- The lines of a disassembly, if each can be read. -/
def readListing (text : List Char) : Option (List Listed) := (fields '\n' text).mapM readLine

/-- The operands of an instruction, as they stand between spaces. -/
def Instr.operandWords : Instr → List (List Char)
  | movIR reg imm => [(registerText reg).toList ++ [','], ("0x" ++ hex 16 imm.toNat).toList]
  | addRR reg1 reg2 => [(registerText reg1).toList ++ [','], (registerText reg2).toList]
  | pushRB reg => [(registerText reg).toList]
  | popRB reg => [(registerText reg).toList]
  | noOp | hlt | syscall | regdump | stackDmp => []

/-- What the disassembly of some instructions says, from an address on. -/
def listed : Nat → List Instr → List Listed
  | _, [] => []
  | addr, i :: is => ⟨addr, i.encode, i⟩ :: listed (addr + i.size) is

end Blaze.Vm
