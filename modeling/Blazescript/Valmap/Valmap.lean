import Blazescript.Valmap.Proofs.RefinementProofs

/-!
# Hash maps in good order

A hash map together with its invariant. On these every probe loop ends, so the functions of
`valmap.c` become total.
-/

namespace Blaze

variable {α : Type}

/-- `valmap_t`, in a state the functions of `valmap.c` can produce. -/
structure Valmap (α : Type) where
  data : ValmapData α
  inv : data.Inv

/-- What a writing function returns. -/
structure Written (α : Type) where
  status : ValmapSetStatus
  valmap : Valmap α
  released : Option α

/-- The result of a writing function that ends and keeps the invariant. -/
def Written.of (result : Option (SetResult α)) (h : ∃ r, result = some r ∧ r.valmap.Inv) :
    Written α :=
  match result, h with
  | some r, h => ⟨r.status, ⟨r.valmap, by obtain ⟨_, he, hi⟩ := h; cases he; exact hi⟩, r.released⟩
  | none, h => absurd h (by simp)

namespace Valmap

/-- `valmap_init_default`. -/
def initDefault : Valmap α := ⟨valmapInitDefault, inv_initDefault⟩

theorem get_ends (valmap : Valmap α) (key : String) : (valmapGet valmap.data key).isSome := by
  obtain ⟨p, hp, -⟩ := valmapGet_spec valmap.inv.wf key
  simp [hp]

/-- `valmap_get`. -/
def get (valmap : Valmap α) (key : String) : Option Nat :=
  (valmapGet valmap.data key).get (valmap.get_ends key)

theorem setMode_ends (valmap : Valmap α) (key : String) (value : α) (isConst attemptFree : Bool)
    (overwrite : OverwriteMode) (report : Bool) :
    ∃ r, valmapSetMode valmap.data key value isConst attemptFree overwrite report = some r ∧
      r.valmap.Inv := by
  obtain ⟨r, hr, hinv, -⟩ :=
    valmapSetMode_spec valmap.inv key value isConst attemptFree overwrite report
  exact ⟨r, hr, hinv⟩

theorem setDefault_ends (valmap : Valmap α) (key : String) (value : α)
    (isConst attemptFree : Bool) :
    ∃ r, valmapSetDefault valmap.data key value isConst attemptFree = some r ∧ r.valmap.Inv := by
  obtain ⟨r, hr, hinv⟩ := valmap.setMode_ends key value isConst attemptFree .overwriteDefault false
  exact ⟨{ r with status := .setOk }, by simp [valmapSetDefault, hr], hinv⟩

/-- `valmap_set_no_overwrite`. -/
def setNoOverwrite (valmap : Valmap α) (key : String) (value : α) (isConst attemptFree : Bool) :
    Written α :=
  .of (valmapSetNoOverwrite valmap.data key value isConst attemptFree)
    (valmap.setMode_ends key value isConst attemptFree .noOverwrite true)

/-- `valmap_set_no_create`. -/
def setNoCreate (valmap : Valmap α) (key : String) (value : α) (isConst attemptFree : Bool) :
    Written α :=
  .of (valmapSetNoCreate valmap.data key value isConst attemptFree)
    (valmap.setMode_ends key value isConst attemptFree .noCreate true)

/-- `valmap_set_default`. -/
def setDefault (valmap : Valmap α) (key : String) (value : α) (isConst attemptFree : Bool) :
    Written α :=
  .of (valmapSetDefault valmap.data key value isConst attemptFree)
    (valmap.setDefault_ends key value isConst attemptFree)

/-- What the map binds a key to: the value and the constant flag. -/
def binding (valmap : Valmap α) (key : String) : Option (α × Bool) := valmap.data.binding key

/-- The values of the occupied slots, in the order of the slots. -/
def values (valmap : Valmap α) : List α := valmap.data.array.reduceOption.map ValmapEntry.value

end Valmap

end Blaze
