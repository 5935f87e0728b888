import Mathlib.Algebra.Order.Ring.Int
import Mathlib.Logic.Function.Basic

/-!
# Stacks in a memory

A stack grows towards lower addresses, by words of some size.
-/

namespace Running

variable {α : Type}

/-- Between a base and a top the memory holds the words of a stack, the one that was pushed first next to the
base. -/
structure Pushed (size : Int) (mem : Int → α) (base top : Int) (vs : List α) : Prop where
  top : top = base - size * vs.length
  get : ∀ (i : Nat) (v : α), vs[i]? = some v → mem (base - size * (i + 1)) = v

end Running
