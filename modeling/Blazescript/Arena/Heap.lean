import Mathlib.Data.List.Basic

/-!
# Objects by identity

A heap of objects of one type. An object is named by the order of its allocation, for good: freeing
it only marks it, so that a later access through a stale identity can be told from a valid one.
`parent` pointers among the objects of a heap form chains, which `chain` lists from an object up.
-/

namespace Arena

variable {α : Type}

/-- An object, and whether it has been freed. -/
structure Cell (α : Type) where
  content : α
  freed : Bool

/-- The objects allocated so far, in order. -/
structure Heap (α : Type) where
  cells : List (Cell α)

namespace Heap

def empty : Heap α := ⟨[]⟩

/-- The number of objects allocated so far, which is the identity of the next one. -/
def size (h : Heap α) : Nat := h.cells.length

def alloc (h : Heap α) (a : α) : Heap α := ⟨h.cells ++ [⟨a, false⟩]⟩

/-- What an object holds, freed or not. -/
def peek (h : Heap α) (i : Nat) : Option α := h.cells[i]?.map Cell.content

/-- Whether an object has been allocated and not been freed. -/
def isLive (h : Heap α) (i : Nat) : Bool := h.cells[i]?.any fun c => !c.freed

/-- What an object holds, if it may be accessed. -/
def read (h : Heap α) (i : Nat) : Option α := if h.isLive i then h.peek i else none

def write (h : Heap α) (i : Nat) (a : α) : Heap α :=
  ⟨h.cells.modify i fun c => { c with content := a }⟩

def free (h : Heap α) (i : Nat) : Heap α := ⟨h.cells.modify i fun c => { c with freed := true }⟩

end Heap

/-- The first `fuel` objects met from `i` on by following parent pointers. -/
def ancestors (parent : Nat → Option Nat) : Nat → Nat → List Nat
  | 0, _ => []
  | fuel + 1, i =>
    i :: match parent i with
      | none => []
      | some p => ancestors parent fuel p

/-- The objects met from `i` on by following parent pointers, which lead to older objects. -/
def chain (parent : Nat → Option Nat) (i : Nat) : List Nat := ancestors parent (i + 1) i

/-- Parent pointers lead to older objects. -/
def Rooted (parent : Nat → Option Nat) : Prop := ∀ i p, parent i = some p → p < i

end Arena
