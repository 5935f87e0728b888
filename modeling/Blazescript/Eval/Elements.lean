import Blazescript.Eval.Copying
import Blazescript.Eval.Flow
import Blazescript.Eval.ValAlloc

/-!
# The elements of arrays

What array literals and `vector` put into an array, with the states in which they do.
-/

namespace Blaze

open Tracing

/-- A value that is put into an array: the state in which it had been evaluated, and its copy. -/
structure Element where
  value : Val
  evaluated : Machine
  copy : Val

/-- Puts a copy of the value into the vector. -/
def pushElement (vector : Nat) (value : Val) : Eval Element := do
  let evaluated ← Recorder.read id
  let copy ← valCopyDeep value
  vectorPush vector copy.selfPtr
  pure ⟨value, evaluated, copy⟩

/-- Puts copies of the values of some computations into the vector. -/
def fill (vector : Nat) : List (Eval Val) → Eval (List Element)
  | [] => pure []
  | x :: xs => do
    let value ← x
    let element ← pushElement vector value
    let elements ← fill vector xs
    pure (element :: elements)

/-- An array of the values of some computations, and its elements. -/
def arrayOf (xs : List (Eval Val)) : Eval (Val × List Element) := do
  let vector ← vectorInit
  let elements ← fill vector xs
  let v ← giveValue (.ofData (.array vector))
  pure (v, elements)

namespace Content

/-- No function is part of it. -/
inductive IsData : Content → Prop
  | integer (intval : Int) : IsData (.integer intval)
  | float (num den : Int) : IsData (.float num den)
  | string (text : String) : IsData (.string text)
  | null : IsData .null
  | boolean (boolval : Bool) : IsData (.boolean boolval)
  | array (elements : List Content) (h : ∀ c ∈ elements, IsData c) : IsData (.array elements)

/-- No array with elements. -/
def IsFlat : Content → Prop
  | .array elements => elements = []
  | _ => True

/-- What is left of it in a copy. -/
def copied : Content → Content
  | .array _ => .array []
  | c => c

end Content

namespace Machine

/-- The vector has the elements, and no slot holds it. -/
structure Unslotted (m : Machine) (a : Nat) (slots : List (Option Nat)) : Prop where
  read : m.store.vectors.read a = some slots
  cells : ∀ (index : Nat) (v : Val), m.tbl.values[index]? = some v → v.data ≠ .array a

/-- The slot holds the value, and nothing but a vector points to the slot. The text of a string is as given, an
array is empty, and neither is held by another slot. -/
structure Sealed (m : Machine) (index : Nat) (v : Val) (text : String) : Prop where
  cell : m.tbl.values[index]? = some v
  unlisted : index ∉ m.tbl.head
  unnamed : ∀ u, m.Named u → u.selfPtr ≠ some index
  string : ∀ s, v.data = .string s → m.store.strings.read s = some text ∧
    ∀ (j : Nat) (u : Val), m.tbl.values[j]? = some u → u.data = .string s → j = index
  vector : ∀ a, v.data = .array a → m.store.vectors.read a = some [] ∧
    ∀ (j : Nat) (u : Val), m.tbl.values[j]? = some u → u.data = .array a → j = index

/-- What a sealed slot says. -/
def Says (v : Val) (text : String) (c : Content) : Prop :=
  match v.data with
  | .integer intval => c = .integer intval
  | .float num den => c = .float num den
  | .string _ => c = .string text
  | .boolean boolval => c = .boolean boolval
  | .array _ => c = .array []
  | _ => False

/-- The copy is null, or in a sealed slot. -/
inductive Secured (m : Machine) : Val → Content → Prop
  | null : Secured m nullVal .null
  | slot {copy : Val} {c : Content} (index : Nat) (text : String) (hp : copy.selfPtr = some index)
      (hsealed : m.Sealed index copy text) (hcontent : Says copy text c) : Secured m copy c

/-- The free list names no slot twice and none in use, and what the slots hold has been allocated. -/
structure Tidy (m : Machine) : Prop where
  nodup : m.tbl.head.Nodup
  head : ∀ index ∈ m.tbl.head, index < m.tbl.values.length
  named : ∀ v, m.Named v → ∀ index, v.selfPtr = some index → index < m.tbl.values.length ∧ index ∉ m.tbl.head
  strings : ∀ (index s : Nat) (v : Val), m.tbl.values[index]? = some v → v.data = .string s → s < m.store.strings.size
  vectors : ∀ (index a : Nat) (v : Val), m.tbl.values[index]? = some v → v.data = .array a → a < m.store.vectors.size

/-- The step takes a slot, for which the block of the table has to be reallocated. -/
def Reallocates (m : Machine) : Event → Prop
  | .newSlot _ => m.tbl.Grows
  | .copyFn .. => m.tbl.Grows
  | _ => False

/-- The value allocator can take the copy of an element: it is tidy, and its block has not been reallocated and need
not be now. -/
structure Ready (m : Machine) : Prop where
  tidy : m.Tidy
  unmoved : m.tbl.Unmoved
  room : ¬ m.tbl.Grows

end Machine

/-! ## Tests -/

/-- A test of the result and of the state in which a computation returns. -/
def endsSuch {α : Type} (p : α → Machine → Bool) : EStateM.Result Err (World Machine Event) α → Bool
  | .ok a w => p a w.state
  | .error .. => false

/-- The values in an array. -/
def Machine.valuesOf (m : Machine) (v : Val) : Option (List Val) :=
  match v.data with
  | .array a => m.elements a
  | _ => none

/-- A test of the steps of a computation that returns. -/
def stepsSuch {α : Type} (p : Step Machine Event → Bool) : EStateM.Result Err (World Machine Event) α → Bool
  | .ok _ w => w.trace.all p
  | .error .. => false

/-- The element is an array of one integer, whose copy is empty. -/
def losesOne (r : Val × List Element) (m : Machine) : Bool :=
  (r.2.map fun e => (e.evaluated.valuesOf e.value).map fun us => us.map Val.data) = [some [.integer 1]] &&
    ((m.valuesOf r.1).map fun us => us.map m.valuesOf) = some [some []]

/-- The state in which a program starts. -/
def startWorld : World Machine Event := ⟨.initial (.root .unknown []) [] "", []⟩

end Blaze
