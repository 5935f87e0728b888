import Blazescript.Probing.Probe

/-!
# `valmap.c`: the hash map of a scope

An open-addressing table from names to values, each with a constant flag. The probe loop of
`valmap_get` and `valmap_set_entry` is `Probing.probe`; a function returns `none` where its probe
loop would not end. Values are of any type.
-/

namespace Blaze

open Probing

/-- `enum valmap_set_status`. -/
inductive ValmapSetStatus
  | setExists
  | setNotFound
  | setOk
  | setIsConst
  deriving DecidableEq, Repr

/-- `enum overwrite_mode`, with the numbers C gives its members. -/
inductive OverwriteMode
  | noOverwrite
  | noCreate
  | overwriteDefault
  deriving DecidableEq, Repr

/-- `struct valmap_entry` of a slot whose `key` is not `NULL`. -/
structure ValmapEntry (α : Type) where
  key : String
  value : α
  isConst : Bool

/-- `struct valmap`. The field `capacity` is the length of `array`; `generation` counts the arrays
the map has had, so that a pointer into an earlier array can be told from one into this array. -/
structure ValmapData (α : Type) where
  array : List (Option (ValmapEntry α))
  elements : Nat
  generation : Nat

variable {α : Type}

/-- The number of slots. -/
def ValmapData.capacity (valmap : ValmapData α) : Nat := valmap.array.length

/-- `VALMAP_DEFAULT_SIZE`. -/
def valmapDefaultSize : Nat := 20

/-- `valmap_init`. -/
def valmapInit (size : Nat) : ValmapData α where
  array := List.replicate size none
  elements := 0
  generation := 0

/-- `valmap_init_default`. -/
def valmapInitDefault : ValmapData α := valmapInit valmapDefaultSize

/-- `hash_key`. The bytes of a key are of type `char`, so they are sign-extended to 64 bits. -/
def hashKey (capacity : Nat) (key : String) : Nat :=
  (key.toUTF8.data.toList.foldl
    (fun hash c => (hash ^^^ c.toInt8.toInt64.toUInt64) * 0x100000001b3)
    (0xcbf29ce484222325 : UInt64)).toNat &&& (capacity - 1)

/-- The search loop of `valmap_get` and `valmap_set_entry`. -/
def probeKey (array : List (Option (ValmapEntry α))) (key : String) : Option Nat :=
  probe ValmapEntry.key key array array.length (hashKey array.length key)

/-- `valmap_get`: the index of the entry the returned pointer points into, or `NULL`. -/
def valmapGet (valmap : ValmapData α) (key : String) : Option (Option Nat) :=
  (probeKey valmap.array key).map fun index =>
    if valmap.array[index]?.join.isSome then some index else none

/-- `valmap_has`. -/
def valmapHas (valmap : ValmapData α) (key : String) : Option Bool :=
  (valmapGet valmap key).map Option.isSome

/-- What a call of `valmap_set_entry` leaves behind: the array, whether `*element_count` was
incremented, the status written to `*result`, and the value passed to `val_free_force_no_root`. -/
structure SetEntryResult (α : Type) where
  array : List (Option (ValmapEntry α))
  created : Bool
  status : ValmapSetStatus
  released : Option α

/-- `valmap_set_entry`; `report` says that `result` is not `NULL`. -/
def valmapSetEntry (array : List (Option (ValmapEntry α))) (key : String) (value : α)
    (isConst attemptFree : Bool) (overwrite : OverwriteMode) (report : Bool) :
    Option (SetEntryResult α) :=
  (probeKey array key).map fun index =>
    match array[index]?.join with
    | some entry =>
      if overwrite = .noOverwrite ∧ report then
        { array, created := false, status := .setExists, released := none }
      else if entry.isConst ∧ report then
        { array, created := false, status := .setIsConst, released := none }
      else
        { array := array.set index (some { entry with value := value })
          created := false
          status := .setOk
          released := if attemptFree then some entry.value else none }
    | none =>
      if overwrite = .noCreate ∧ report then
        { array, created := false, status := .setNotFound, released := none }
      else
        { array := array.set index (some { key, value, isConst })
          created := true
          status := .setOk
          released := none }

/-- One iteration of the loop of `valmap_realloc`. The mode is written `true` in the source, which
is the number of `OW_NO_CREATE`, and `result` is `NULL`. -/
def reinsertEntry (array : List (Option (ValmapEntry α))) :
    Option (ValmapEntry α) → Option (List (Option (ValmapEntry α)))
  | none => some array
  | some e =>
    (valmapSetEntry array e.key e.value e.isConst false .noCreate false).map SetEntryResult.array

/-- `valmap_realloc`. -/
def valmapRealloc (valmap : ValmapData α) (newCapacity : Nat) : Option (ValmapData α) :=
  (valmap.array.foldlM reinsertEntry (List.replicate newCapacity none)).map fun array =>
    { valmap with array, generation := valmap.generation + 1 }

/-- Whether `valmap_check_realloc` grows the map: `elements * 1.25 >= capacity`. -/
def ValmapData.atThreshold (valmap : ValmapData α) : Bool :=
  decide (5 * valmap.elements ≥ 4 * valmap.capacity)

/-- `valmap_check_realloc`. -/
def valmapCheckRealloc (valmap : ValmapData α) : Option (ValmapData α) :=
  if valmap.atThreshold then valmapRealloc valmap (valmap.capacity * 2) else some valmap

/-- What a call of one of the `valmap_set` functions leaves behind. -/
structure SetResult (α : Type) where
  status : ValmapSetStatus
  valmap : ValmapData α
  released : Option α

/-- The body the `valmap_set` functions share: the growth check, then `valmap_set_entry`. -/
def valmapSetMode (valmap : ValmapData α) (key : String) (value : α) (isConst attemptFree : Bool)
    (overwrite : OverwriteMode) (report : Bool) : Option (SetResult α) :=
  (valmapCheckRealloc valmap).bind fun valmap =>
    (valmapSetEntry valmap.array key value isConst attemptFree overwrite report).map fun r =>
      { status := r.status
        valmap :=
          { valmap with
            array := r.array
            elements := if r.created then valmap.elements + 1 else valmap.elements }
        released := r.released }

/-- `valmap_set`, which returns no status. -/
def valmapSet (valmap : ValmapData α) (key : String) (value : α) (isConst attemptFree : Bool) :
    Option (SetResult α) :=
  valmapSetMode valmap key value isConst attemptFree .overwriteDefault false

/-- `valmap_set_no_overwrite`. -/
def valmapSetNoOverwrite (valmap : ValmapData α) (key : String) (value : α)
    (isConst attemptFree : Bool) : Option (SetResult α) :=
  valmapSetMode valmap key value isConst attemptFree .noOverwrite true

/-- `valmap_set_no_create`. -/
def valmapSetNoCreate (valmap : ValmapData α) (key : String) (value : α)
    (isConst attemptFree : Bool) : Option (SetResult α) :=
  valmapSetMode valmap key value isConst attemptFree .noCreate true

/-- `valmap_set_default`, which returns `VAL_SET_OK`. -/
def valmapSetDefault (valmap : ValmapData α) (key : String) (value : α)
    (isConst attemptFree : Bool) : Option (SetResult α) :=
  (valmapSetMode valmap key value isConst attemptFree .overwriteDefault false).map fun r =>
    { r with status := .setOk }

/-- `valmap_get_count`. -/
def valmapGetCount (valmap : ValmapData α) : Nat := valmap.elements

end Blaze
