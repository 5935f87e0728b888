import Blazescript.Eval.Eval
import Blazescript.Eval.Shape
import Blazescript.Running.Kept

/-!
# Where values go

The elementary changes that an evaluation makes to the slots, the strings and the vectors. What all of them keep
is kept by every evaluation.
-/

namespace Blaze

open Tracing

/-- A value that the evaluator can get at by a name, an argument or as a built-in function. -/
def Machine.Named (m : Machine) (v : Val) : Prop :=
  m.Bound v ∨ (∃ frame ∈ m.stack, v ∈ frame.locals.args) ∨ ∃ b ∈ m.builtins, b.2 = v

/-- An elementary change. Values of kind `Q` are given names, strings of kind `S` and vectors of kind `V` are put
into slots, vectors of kind `V` get elements, and slots that values of kind `Q` point to are freed. -/
inductive Change (Q : Val → Prop) (S V : Nat → Prop) : Machine → Machine → Prop
  | frame {m m' : Machine} (htbl : m'.tbl = m.tbl) (hstrings : m'.store.strings = m.store.strings)
      (hvectors : m'.store.vectors = m.store.vectors) (hv : ∀ v, m'.Named v → Q v) : Change Q S V m m'
  | string (m : Machine) (text : String) :
      Change Q S V m { m with store := { m.store with strings := m.store.strings.alloc text } }
  | vector (m : Machine) :
      Change Q S V m { m with store := { m.store with vectors := m.store.vectors.alloc [] } }
  | push (m : Machine) (a : Nat) (slots : List (Option Nat)) (slot : Option Nat) (ha : V a)
      (hread : m.store.vectors.read a = some slots) :
      Change Q S V m { m with store := { m.store with vectors := m.store.vectors.write a (slots ++ [slot]) } }
  | slot (m : Machine) (data : ValData) (hs : ∀ s, data = .string s → S s ∧ s < m.store.strings.size)
      (ha : ∀ a, data = .array a → V a ∧ a < m.store.vectors.size) :
      Change Q S V m { m with tbl := (m.tbl.create data).2 }
  | list (m : Machine) (index : Nat) (v : Val) (hv : Q v) (hp : v.selfPtr = some index) :
      Change Q S V m { m with tbl := m.tbl.pushFree index }
  | freeString (m : Machine) (index s : Nat) (v u : Val) (hv : Q v) (hp : v.selfPtr = some index)
      (hu : m.tbl.values[index]? = some u) (hs : u.data = .string s) :
      Change Q S V m { m with store := { m.store with strings := m.store.strings.free s } }
  | freeVector (m : Machine) (index a : Nat) (v u : Val) (hv : Q v) (hp : v.selfPtr = some index)
      (hu : m.tbl.values[index]? = some u) (ha : u.data = .array a) :
      Change Q S V m { m with store := { m.store with vectors := m.store.vectors.free a } }
  | clear (m : Machine) (index : Nat) (v u : Val) (hv : Q v) (hp : v.selfPtr = some index) (hu : u.data = .null) :
      Change Q S V m { m with tbl := m.tbl.store index u }

/-- An invariant of all changes, and what it says of the values that can be got at and of what is new. -/
structure Invariant (I : Machine → Prop) (Q : Val → Prop) (S V : Nat → Prop) : Prop where
  change : ∀ m m', I m → Change Q S V m m' → I m'
  named : ∀ m v, I m → m.Named v → Q v
  plain : ∀ v : Val, v.selfPtr = none → Q v
  string : ∀ m, I m → S m.store.strings.size
  vector : ∀ m, I m → V m.store.vectors.size
  slot : ∀ m data, I m → Q (m.tbl.create data).1

/-- A computation keeps an invariant of the state. -/
abbrev Upholds {α : Type} (I : Machine → Prop) (x : Eval α) (Q : α → Prop) : Prop :=
  Running.Keeps (fun w => I w.state) x Q

/-- The evaluation of a node keeps the invariant, and returns values of the kind. -/
def EvalUpholds (I : Machine → Prop) (Q : Val → Prop) (rec : Nat → AstNode → Eval Val) : Prop :=
  ∀ scope node, Upholds I (rec scope node) Q

end Blaze
