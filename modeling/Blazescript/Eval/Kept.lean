import Blazescript.Eval.Elements

/-!
# What is left alone

Strings, functions, arrays and slots that some values are made of, and the steps that leave them alone.
-/

namespace Blaze

open Arena Tracing

/-- The value is a string, a function or an array, to which there is a pointer. -/
def ValData.isObject : ValData → Bool
  | string _ => true
  | function _ => true
  | array _ => true
  | _ => false

/-- What is to be left alone: strings, functions and arrays, and slots of the table. -/
structure Kept where
  data : ValData → Prop
  slots : Nat → Prop
  object : ∀ d, data d → d.isObject = true

namespace Machine

/-- The values that a value is made of: an array is made of its elements, too. -/
inductive Part (m : Machine) (v : Val) : Val → Prop
  | self : Part m v v
  | element {u w : Val} {a : Nat} {slots : List (Option Nat)} {slot : Option Nat} (h : Part m v u)
      (ha : u.data = .array a) (hread : m.store.vectors.read a = some slots) (hslot : slot ∈ slots)
      (hw : m.slotValue slot = some w) : Part m v w

/-- What the values of a kind are made of. -/
def kept (m : Machine) (fixed : Val → Prop) : Kept where
  data d := d.isObject = true ∧ ∃ v u, fixed v ∧ m.Part v u ∧ u.data = d
  slots index := ∃ v u a slots, fixed v ∧ m.Part v u ∧ u.data = .array a ∧ m.store.vectors.read a = some slots ∧
    some index ∈ slots
  object _ h := h.1

/-- The value is a user function with a block in it, whose statements it shares with its copies. -/
def HasBlocks (m : Machine) (v : Val) : Prop :=
  ∃ f fn, v.data = .function f ∧ m.fns.peek f = some fn ∧ fn.builtInCallback = none ∧
    ∃ stmt ∈ fn.customBody, ∃ pos children, AstNode.Within (.block pos children) stmt

/-- The slot may be released. -/
structure SparesSlot (m : Machine) (kept : Kept) (index : Nat) : Prop where
  slot : ¬ kept.slots index
  data : ∀ v : Val, m.tbl.values[index]? = some v → ¬ kept.data v.data
  shared : ∀ v : Val, m.tbl.values[index]? = some v → ¬ m.HasBlocks v

/-- The scope may be freed: all slots that are released with it may be. -/
def SparesScope (m : Machine) (kept : Kept) (s : Nat) : Prop :=
  ∀ t, m.Releases s t → ∀ index ∈ m.ownedSlots t, m.SparesSlot kept index

/-- The step leaves alone what is to be left alone: it frees nothing of it, it takes no slot of it, and it does not
reallocate the table. -/
def SparesKept (m : Machine) (kept : Kept) : Event → Prop
  | .newSlot _ => ¬ m.tbl.Grows ∧ ¬ kept.slots m.tbl.alloc.1
  | .copyFn .. => ¬ m.tbl.Grows ∧ ¬ kept.slots m.tbl.alloc.1
  | .closeScope s => m.SparesScope kept s
  | _ => True

end Machine

/-- What is to be left alone may be read in `m'` as in `m`. The elements of arrays are not looked at. -/
structure Untouched (kept : Kept) (m m' : Machine) : Prop where
  values : ∀ index, kept.slots index → ∀ v : Val, m.tbl.values[index]? = some v → m'.tbl.values[index]? = some v
  strings : ∀ s, kept.data (.string s) → ∀ text, m.store.strings.read s = some text →
    m'.store.strings.read s = some text
  vectors : ∀ a, kept.data (.array a) → m.store.vectors.isLive a = true → m'.store.vectors.isLive a = true
  fns : ∀ f, kept.data (.function f) → ∀ fn, m.fns.read f = some fn → ∃ fn', m'.fns.read f = some fn' ∧
    fn'.builtInCallback = fn.builtInCallback ∧ fn'.paramNames = fn.paramNames ∧ fn'.customBody = fn.customBody

end Blaze
