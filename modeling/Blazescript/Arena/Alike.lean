import Blazescript.Arena.Heap

/-!
# Heaps that differ in names

Two heaps hold the same under a pairing of the names of their objects, if objects of a pair are alike. An object that
is in no pair may be anything.
-/

namespace Arena

variable {α β : Type}

/-- No name is in two pairs. -/
structure Pairing (r : Nat → Nat → Prop) : Prop where
  right : ∀ {i j j' : Nat}, r i j → r i j' → j = j'
  left : ∀ {i i' j : Nat}, r i j → r i' j → i = i'

/-- One pair more. -/
def addPair (r : Nat → Nat → Prop) (i j : Nat) : Nat → Nat → Prop := fun a b => r a b ∨ a = i ∧ b = j

/-- Objects of a pair are alike, and both have been freed or none. -/
structure Heap.Alike (r : Nat → Nat → Prop) (R : α → β → Prop) (h : Heap α) (h' : Heap β) : Prop where
  pairing : Pairing r
  live : ∀ {i j : Nat}, r i j → h.isLive i = h'.isLive j
  content : ∀ {i j : Nat}, r i j → ∃ a b, h.peek i = some a ∧ h'.peek j = some b ∧ R a b

end Arena
