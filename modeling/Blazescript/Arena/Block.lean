import Mathlib.Data.List.Basic

/-!
# A block of cells

Some values are written to consecutive cells of a block.
-/

namespace Arena

variable {α : Type}

/-- Writes values from an offset on. What does not fit is not written to this block. -/
def storeAt (cells : List α) : Nat → List α → List α
  | _, [] => cells
  | off, a :: as => (storeAt cells (off + 1) as).set off a

end Arena
