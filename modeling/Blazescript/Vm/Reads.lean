import Blazescript.Vm.Instr

/-!
# What a computation of the machine reads
-/

namespace Blaze.Vm

/-- The computation reads as `A` says; if it returns, the result is as `Q` says, and if it ends the
process, the reason is as `E` says. -/
def Reads {α : Type} (A : Access → Prop) (E : Stop → Prop) (x : Action α) (Q : α → Prop) : Prop :=
  ∀ s, ∃ as, (finalState (x s)).accesses = s.accesses ++ as ∧ (∀ a ∈ as, A a) ∧
    match x s with
    | .ok a _ => Q a
    | .error e _ => E e

/-- The read is inside the program, or inside the table. -/
def Access.InRange (bytecode : Bytecode) : Access → Prop
  | .fetch addr => bytecode.offset addr < bytecode.size
  | .load addr => bytecode.offset addr < bytecode.size
  | .table index => index < Opcode.all.length

instance (bytecode : Bytecode) (a : Access) : Decidable (a.InRange bytecode) :=
  match a with
  | .fetch addr => inferInstanceAs (Decidable (bytecode.offset addr < bytecode.size))
  | .load addr => inferInstanceAs (Decidable (bytecode.offset addr < bytecode.size))
  | .table index => inferInstanceAs (Decidable (index < Opcode.all.length))

/-- The read is not of an opcode. -/
def Access.NoFetch : Access → Prop
  | .fetch _ => False
  | _ => True

end Blaze.Vm
