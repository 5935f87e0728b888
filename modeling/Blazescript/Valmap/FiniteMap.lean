import Mathlib.Data.Finmap
import Blazescript.Valmap.Data

/-!
# The finite map a hash map stands for

A finite map from names to values with a constant flag, and the four ways of writing a binding,
stated without slots, hashes or growth.
-/

namespace Blaze

variable {α : Type}

/-- A finite map from names to values, each with its constant flag. -/
abbrev Bindings (α : Type) := Finmap fun _ : String => α × Bool

namespace Bindings

/-- Inserts an absent key and rejects a present one. -/
def setNoOverwrite (b : Bindings α) (key : String) (value : α) (isConst : Bool) :
    ValmapSetStatus × Bindings α :=
  match b.lookup key with
  | none => (.setOk, b.insert key (value, isConst))
  | some _ => (.setExists, b)

/-- Replaces the value of a key that is present and not constant. -/
def setNoCreate (b : Bindings α) (key : String) (value : α) : ValmapSetStatus × Bindings α :=
  match b.lookup key with
  | none => (.setNotFound, b)
  | some (_, true) => (.setIsConst, b)
  | some (_, false) => (.setOk, b.insert key (value, false))

/-- Inserts an absent key; replaces the value of a present one, which keeps its flag. -/
def setDefault (b : Bindings α) (key : String) (value : α) (isConst : Bool) : Bindings α :=
  match b.lookup key with
  | none => b.insert key (value, isConst)
  | some (_, wasConst) => b.insert key (value, wasConst)

end Bindings

/-- A call of one of the writing functions of `valmap.c`. -/
inductive MapOp (α : Type)
  | set (key : String) (value : α) (isConst attemptFree : Bool)
  | setNoOverwrite (key : String) (value : α) (isConst attemptFree : Bool)
  | setNoCreate (key : String) (value : α) (isConst attemptFree : Bool)
  | setDefault (key : String) (value : α) (isConst attemptFree : Bool)

/-- Runs a call on a hash map. `valmap_set` returns no status. -/
def MapOp.run (valmap : ValmapData α) : MapOp α → Option (Option ValmapSetStatus × ValmapData α)
  | .set key value isConst attemptFree =>
    (valmapSet valmap key value isConst attemptFree).map fun r => (none, r.valmap)
  | .setNoOverwrite key value isConst attemptFree =>
    (valmapSetNoOverwrite valmap key value isConst attemptFree).map fun r =>
      (some r.status, r.valmap)
  | .setNoCreate key value isConst attemptFree =>
    (valmapSetNoCreate valmap key value isConst attemptFree).map fun r =>
      (some r.status, r.valmap)
  | .setDefault key value isConst attemptFree =>
    (valmapSetDefault valmap key value isConst attemptFree).map fun r =>
      (some r.status, r.valmap)

/-- Runs a call on a finite map. -/
def MapOp.apply (b : Bindings α) : MapOp α → Option ValmapSetStatus × Bindings α
  | .set key value isConst _ => (none, b.setDefault key value isConst)
  | .setNoOverwrite key value isConst _ =>
    ((b.setNoOverwrite key value isConst).1, (b.setNoOverwrite key value isConst).2)
  | .setNoCreate key value _ _ => ((b.setNoCreate key value).1, (b.setNoCreate key value).2)
  | .setDefault key value isConst _ => (some .setOk, b.setDefault key value isConst)

/-- Runs a sequence of calls on a hash map, collecting what they return. -/
def MapOp.runAll (valmap : ValmapData α) :
    List (MapOp α) → Option (List (Option ValmapSetStatus) × ValmapData α)
  | [] => some ([], valmap)
  | op :: ops =>
    (op.run valmap).bind fun r => (runAll r.2 ops).map fun rs => (r.1 :: rs.1, rs.2)

/-- Runs a sequence of calls on a finite map, collecting what they return. -/
def MapOp.applyAll (b : Bindings α) :
    List (MapOp α) → List (Option ValmapSetStatus) × Bindings α
  | [] => ([], b)
  | op :: ops =>
    ((op.apply b).1 :: (applyAll (op.apply b).2 ops).1, (applyAll (op.apply b).2 ops).2)

end Blaze
