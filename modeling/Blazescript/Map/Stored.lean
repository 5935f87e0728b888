import Mathlib.Data.Finmap
import Blazescript.Map.Map

/-!
# The finite map a generic map stands for

A finite map from names to pointers, and what a writing call does to it, said by the flags alone.
-/

namespace Blaze

variable {α : Type}

/-- A finite map from names to pointers. -/
abbrev Stored (α : Type) := Finmap fun _ : String => Option α

/-- A write: the result flags, the old element if one is replaced, and the map after it. -/
def Stored.set (stored : Stored α) (key : String) (value : Option α) (flags : UInt32) :
    UInt32 × Option (Option α) × Stored α :=
  match stored.lookup key with
  | some old =>
    if hasFlag flags mapOverwrite then
      (if hasFlag flags mapFreeOnOverwrite then mapResultFreedOnOverwrite else 0, some old,
        stored.insert key value)
    else (mapResultNotOverwritten, none, stored)
  | none =>
    if hasFlag flags mapCreateFlag then (0, none, stored.insert key value)
    else (mapResultNotCreated, none, stored)

/-- A call of one of the writing functions of `map.c`. -/
inductive MapCall (α : Type)
  | set (key : String) (value : Option α) (flags : UInt32)
  | setRet (key : String) (value : Option α) (flags : UInt32)

namespace MapCall

/-- Runs a call on a map: what it returns, what it hands out through its pointer, and the map after it. -/
def run (fuel : Nat) (map : MapT α) : MapCall α → Except MapFault (MapSetResult α)
  | set key value flags => mapSet fuel map key value flags
  | setRet key value flags => mapSetRet fuel map key value flags

/-- Runs a call on a finite map. -/
def apply (stored : Stored α) : MapCall α → (UInt32 × Option (Option α)) × Stored α
  | set key value flags => (((stored.set key value flags).1, none), (stored.set key value flags).2.2)
  | setRet key value flags =>
    (((stored.set key value flags).1, (stored.set key value flags).2.1), (stored.set key value flags).2.2)

/-- Runs calls one after the other, collecting what they give. -/
def runAll (fuel : Nat) : MapT α → List (MapCall α) →
    Except MapFault (List (UInt32 × Option (Option α)) × MapT α)
  | map, [] => .ok ([], map)
  | map, call :: calls => do
    let r ← call.run fuel map
    let rs ← runAll fuel r.map calls
    pure ((r.result, r.oldElement) :: rs.1, rs.2)

/-- Runs calls on a finite map, collecting what they give. -/
def applyAll : Stored α → List (MapCall α) → List (UInt32 × Option (Option α)) × Stored α
  | stored, [] => ([], stored)
  | stored, call :: calls =>
    ((call.apply stored).1 :: (applyAll (call.apply stored).2 calls).1,
      (applyAll (call.apply stored).2 calls).2)

/-- Calls from an empty map come to an end, without an access outside the block, and what they give, what
`map_get` gives after them and the size are those of the finite map. -/
def AsFiniteMap (fuel : Nat) (calls : List (MapCall α)) : Prop :=
  ∃ results map, runAll fuel mapCreate calls = .ok (results, map) ∧
    results = (applyAll ∅ calls).1 ∧
    (∀ key, mapGet map key = .ok ((applyAll ∅ calls).2.lookup key).join) ∧
    map.size = (applyAll ∅ calls).2.keys.card

end MapCall

end Blaze
