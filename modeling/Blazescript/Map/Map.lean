import Blazescript.Valmap.Data

/-!
# `map.c`: the generic map

An open-addressing table from names to pointers. Its block is what has been allocated, which need not be as
many entries as the map says it has; an access outside it is an outcome of its own. A pointer that is `NULL`
is `none`.
-/

namespace Blaze

open Probing

variable {α : Type}

/-- How a call does not come to a result. -/
inductive MapFault
  /-- An access outside the block. -/
  | outside
  /-- A loop, or a growth within a growth, that goes on. -/
  | endless
  deriving DecidableEq, Repr

/-- `MAP_OVERWRITE`. -/
def mapOverwrite : UInt32 := 0b00001

/-- `MAP_CREATE`. -/
def mapCreateFlag : UInt32 := 0b00010

/-- `MAP_FREE_ON_OVERWRITE`. -/
def mapFreeOnOverwrite : UInt32 := 0b00100

/-- `MAP_RESULT_NOT_OVERWRITTEN`. -/
def mapResultNotOverwritten : UInt32 := 0b00001

/-- `MAP_RESULT_NOT_CREATED`. -/
def mapResultNotCreated : UInt32 := 0b00010

/-- `MAP_RESULT_FREED_ON_OVERWRITE`. -/
def mapResultFreedOnOverwrite : UInt32 := 0b00100

/-- `(flags & flag) == flag`. -/
def hasFlag (flags flag : UInt32) : Bool := flags &&& flag = flag

/-- `map_entry_t` of a slot whose `key` is not `NULL`. It takes 16 bytes. -/
structure MapEntry (α : Type) where
  key : String
  value : Option α

/-- `map_t`, with the entries that its block has room for. -/
structure MapT (α : Type) where
  capacity : Nat
  size : Nat
  elements : List (Option (MapEntry α))

/-- `MAP_INIT_SIZE`. -/
def mapInitSize : Nat := 4096

/-- `map_create`. -/
def mapCreate : MapT α where
  capacity := mapInitSize
  size := 0
  elements := List.replicate mapInitSize none

/-- The search loop of `valmap_set_entry` and `map_get`, for some number of steps. -/
def mapProbe (elements : List (Option (MapEntry α))) (capacity : Nat) (key : String) :
    Nat → Nat → Except MapFault Nat
  | 0, _ => .error .endless
  | fuel + 1, index =>
    match elements[index]? with
    | none => .error .outside
    | some none => .ok index
    | some (some entry) =>
      if entry.key = key then .ok index else mapProbe elements capacity key fuel (next capacity index)

/-- The search for a key from the slot it hashes to. The `hash_key` of this file is that of `valmap.c`. -/
def mapFind (elements : List (Option (MapEntry α))) (capacity : Nat) (key : String) : Except MapFault Nat :=
  mapProbe elements capacity key capacity (hashKey capacity key)

/-- What a call of `valmap_set_entry` leaves behind: the elements, whether `*element_count` was incremented,
what was written to `*old_element`, the value that was freed, and `*result_flags`. -/
structure MapWritten (α : Type) where
  elements : List (Option (MapEntry α))
  created : Bool
  oldElement : Option (Option α)
  freed : Option (Option α)
  resultFlags : UInt32

/-- The `valmap_set_entry` of this file. -/
def mapSetEntry (elements : List (Option (MapEntry α))) (capacity : Nat) (key : String) (value : Option α)
    (flags : UInt32) : Except MapFault (MapWritten α) :=
  (mapFind elements capacity key).map fun index =>
    match elements[index]?.join with
    | some entry =>
      if hasFlag flags mapOverwrite then
        { elements := elements.set index (some { entry with value := value })
          created := false
          oldElement := some entry.value
          freed := if hasFlag flags mapFreeOnOverwrite then some entry.value else none
          resultFlags := if hasFlag flags mapFreeOnOverwrite then mapResultFreedOnOverwrite else 0 }
      else
        { elements, created := false, oldElement := none, freed := none, resultFlags := mapResultNotOverwritten }
    | none =>
      if hasFlag flags mapCreateFlag then
        { elements := elements.set index (some { key, value })
          created := true
          oldElement := none
          freed := none
          resultFlags := 0 }
      else
        { elements, created := false, oldElement := none, freed := none, resultFlags := mapResultNotCreated }

/-- What a call of `map_set_ret` leaves behind. -/
structure MapSetResult (α : Type) where
  result : UInt32
  oldElement : Option (Option α)
  map : MapT α

/-- The loop of `map_realloc` over the old block, which is read up to the old capacity. -/
def mapReinsert (mapSet : MapT α → String → Option α → UInt32 → Except MapFault (MapSetResult α)) :
    Nat → List (Option (MapEntry α)) → MapT α → Except MapFault (MapT α)
  | 0, _, map => .ok map
  | _ + 1, [], _ => .error .outside
  | n + 1, none :: oldArray, map => mapReinsert mapSet n oldArray map
  | n + 1, some entry :: oldArray, map => do
    let r ← mapSet map entry.key entry.value (mapCreateFlag ||| mapOverwrite)
    mapReinsert mapSet n oldArray r.map

/-- `map_realloc`. The block has as many bytes as the map is to have entries. -/
def mapRealloc (mapSet : MapT α → String → Option α → UInt32 → Except MapFault (MapSetResult α))
    (map : MapT α) (newCapacity : Nat) : Except MapFault (MapT α) :=
  mapReinsert mapSet map.capacity map.elements
    { map with elements := List.replicate (newCapacity / 16) none, capacity := newCapacity }

/-- Whether `map_check_realloc` grows the map: `size * 1.25 >= capacity`. -/
def MapT.atThreshold (map : MapT α) : Bool := 5 * map.size ≥ 4 * map.capacity

/-- `map_check_realloc`. -/
def mapCheckRealloc (mapSet : MapT α → String → Option α → UInt32 → Except MapFault (MapSetResult α))
    (map : MapT α) : Except MapFault (MapT α) :=
  if map.atThreshold then mapRealloc mapSet map (map.capacity * 2) else .ok map

/-- `map_set_ret`, for some number of growths within one another. -/
def mapSetRet : Nat → MapT α → String → Option α → UInt32 → Except MapFault (MapSetResult α)
  | 0, _, _, _, _ => .error .endless
  | fuel + 1, map, key, value, flags => do
    let map ← mapCheckRealloc (mapSetRet fuel) map
    let r ← mapSetEntry map.elements map.capacity key value flags
    pure
      { result := r.resultFlags
        oldElement := r.oldElement
        map := { map with elements := r.elements, size := if r.created then map.size + 1 else map.size } }

/-- `map_set`, which does not ask for the old element. -/
def mapSet (fuel : Nat) (map : MapT α) (key : String) (value : Option α) (flags : UInt32) :
    Except MapFault (MapSetResult α) :=
  (mapSetRet fuel map key value flags).map fun r => { r with oldElement := none }

/-- `map_get`. -/
def mapGet (map : MapT α) (key : String) : Except MapFault (Option α) :=
  (mapFind map.elements map.capacity key).map fun index => map.elements[index]?.join.bind MapEntry.value

end Blaze
