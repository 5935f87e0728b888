import Mathlib.Logic.Function.Basic
import Blazescript.Vm.Instr

/-!
# The machine of `lib/x86_64`

As much of an x86-64 processor as the routines of the library use: its registers, its memory by bytes, the
zero flag and the system call that writes.
-/

namespace Blaze.Stdio

open Vm (leBytes leValue)

/-- The registers that the routines name, and the one that a system call clobbers besides. -/
inductive Reg
  | rax
  | rbx
  | rcx
  | rdx
  | rsi
  | rdi
  | rbp
  | rsp
  | r11
  deriving DecidableEq, Repr

/-! ## Memory -/

section Memory

variable (mem : UInt64 → UInt8)

/-- Some bytes from an address on. -/
def loadBytes (addr : UInt64) (n : Nat) : List UInt8 := (List.range n).map fun i => mem (addr + UInt64.ofNat i)

/-- The quad word at an address. -/
def loadWord (addr : UInt64) : UInt64 := leValue (loadBytes mem addr 8)

/-- Writes a quad word. -/
def storeWord (addr value : UInt64) : UInt64 → UInt8 := fun b =>
  (leBytes 8 value)[(b - addr).toNat]?.getD (mem b)

end Memory

/-- A register with another low byte. -/
def setLow (value : UInt64) (byte : UInt8) : UInt64 := (value >>> 8) <<< 8 + byte.toUInt64

/-- The state: the place of the next line in the code, and what has been written to the standard output. -/
structure Machine where
  reg : Reg → UInt64
  mem : UInt64 → UInt8
  zero : Bool
  pc : Nat
  stdout : List UInt8

namespace Machine

variable (m : Machine)

def setReg (r : Reg) (value : UInt64) : Machine := { m with reg := Function.update m.reg r value }

/-- Goes on to the next line. -/
def next : Machine := { m with pc := m.pc + 1 }

def jump (pc : Nat) : Machine := { m with pc := pc }

def push (value : UInt64) : Machine :=
  { m.setReg .rsp (m.reg .rsp - 8) with mem := storeWord m.mem (m.reg .rsp - 8) value }

def pop (r : Reg) : Machine := (m.setReg .rsp (m.reg .rsp + 8)).setReg r (loadWord m.mem (m.reg .rsp))

/-- The system call `write` to the standard output: it writes all it is asked to write, and leaves something
in the registers it clobbers. -/
def write (clobbered : UInt64 × UInt64) : Machine :=
  let bytes := loadBytes m.mem (m.reg .rsi) (m.reg .rdx).toNat
  { ((m.setReg .rax (m.reg .rdx)).setReg .rcx clobbered.1).setReg .r11 clobbered.2 with
    stdout := m.stdout ++ bytes }

end Machine

end Blaze.Stdio
