import Blazescript.Scope.Scope
import Blazescript.Arena.Alike

/-!
# Scopes that differ in names

Two maps, or two scopes, with the same entries in the same places, but for what the values name.
-/

namespace Blaze

open Arena

variable {α β : Type}

/-- The same name and flag, and values that are alike. -/
structure ValmapEntry.Alike (R : α → β → Prop) (e : ValmapEntry α) (e' : ValmapEntry β) : Prop where
  key : e.key = e'.key
  value : R e.value e'.value
  isConst : e.isConst = e'.isConst

/-- Slots that are alike. -/
abbrev SlotsAlike (R : α → β → Prop) : List (Option (ValmapEntry α)) → List (Option (ValmapEntry β)) → Prop :=
  List.Forall₂ (Option.Rel (ValmapEntry.Alike R))

structure ValmapData.Alike (R : α → β → Prop) (valmap : ValmapData α) (valmap' : ValmapData β) : Prop where
  array : SlotsAlike R valmap.array valmap'.array
  elements : valmap.elements = valmap'.elements
  generation : valmap.generation = valmap'.generation

/-- The parents are a pair of names. -/
structure Scope.Alike (r : Nat → Nat → Prop) (R : α → β → Prop) (scope : Scope α) (scope' : Scope β) : Prop where
  parent : Option.Rel r scope.parent scope'.parent
  valmap : scope.valmap.data.Alike R scope'.valmap.data
  mode : scope.mode = scope'.mode
  uniqueId : scope.uniqueId = scope'.uniqueId
  prevUniqueId : scope.prevUniqueId = scope'.prevUniqueId

structure EntryPtr.Alike (r : Nat → Nat → Prop) (val val' : EntryPtr) : Prop where
  scope : r val.scope val'.scope
  generation : val.generation = val'.generation
  index : val.index = val'.index

/-- Scopes of two heaps that are alike. -/
abbrev ScopesAlike (r : Nat → Nat → Prop) (R : α → β → Prop) (h : Scopes α) (h' : Scopes β) : Prop :=
  Heap.Alike r (Scope.Alike r R) h h'

end Blaze
