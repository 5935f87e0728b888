import Mathlib.Data.List.Nodup

/-!
# Slots that are handed out by number

A slot that has come back is handed out again before a new one is made.
-/

namespace Arena

/-- The number of slots made so far, and those that have come back, the last of them first. -/
structure FreeList where
  size : Nat
  head : List Nat

namespace FreeList

def empty : FreeList := ⟨0, []⟩

/-- The slot that is handed out next, and what is left. -/
def alloc (l : FreeList) : Nat × FreeList :=
  match l.head with
  | index :: next => (index, ⟨l.size, next⟩)
  | [] => (l.size, ⟨l.size + 1, []⟩)

def free (l : FreeList) (index : Nat) : FreeList := ⟨l.size, index :: l.head⟩

/-- The slots in use are the other ones, each handed out once. -/
structure Tracks (l : FreeList) (used : List Nat) : Prop where
  headNodup : l.head.Nodup
  usedNodup : used.Nodup
  within : ∀ index ∈ used, index < l.size
  free : ∀ index, index ∈ l.head ↔ index < l.size ∧ index ∉ used

end FreeList

end Arena
