import Blazescript.Vm.Instr
import Blazescript.Vm.Reads

/-!
# Bounds

What it means that the machine reads nothing but its program.
-/

namespace Blaze.Vm

/-- The program is a sequence of complete instructions. -/
def Bytecode.Complete (bytecode : Bytecode) : Prop := ∃ is, bytecode.bytes = encodeAll is

/-- Whatever the process reads is in the program or in the tables, and a program that ends within an
instruction or has an unknown opcode is reported. -/
structure Bounded (bytecode : Bytecode) (outside : Outside) : Prop where
  inRange : ∀ a ∈ (finalState (processFile bytecode outside initialState)).accesses,
    a.InRange bytecode
  reported : ¬ bytecode.Complete →
    ∃ msg s, processFile bytecode outside initialState = .error (.fatal msg) s

/-- Where a `mov` looks for the bytes of its immediate. -/
def State.immediate (s : State) (bytecode : Bytecode) (j : Nat) : UInt64 :=
  bytecode.base + (s.registers .ip + 1 + 1 - s.registers .is) + UInt64.ofNat j

/-- In the run from `s₀`, each `mov` finds its immediate somewhere in the program. -/
def FindsImmediates (bytecode : Bytecode) (outside : Outside) (s₀ : State) : Prop :=
  ∀ n s, Reaches bytecode outside s₀ n s → n < maxIterations → ∀ off reg imm,
    At bytecode s off (.movIR reg imm) → (RegisterType.ofId reg).isSome →
      ∀ j < 8, bytecode.offset (s.immediate bytecode j) < bytecode.size

end Blaze.Vm
