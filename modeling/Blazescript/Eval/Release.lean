import Blazescript.Eval.Machine
import Blazescript.Scope.Proofs.ScopeProofs

/-!
# What `scope_free` releases

The scopes and the slots that freeing a scope gives up, told from the state before: a value of the
scope owns a slot, the slot may hold a function, and the scope of that function is freed with it.
-/

namespace Blaze

/-- The slot that `valmap_free` releases for a value. -/
def ownedSlot (v : Val) : Option Nat :=
  if v.data ≠ .null ∧ v.nofree = false then v.selfPtr else none

namespace Machine

/-- The environment of the scopes. -/
abbrev env (m : Machine) : Environment.Env String Val := envOf m.scopes

/-- The slots released for the values of a scope. -/
def ownedSlots (m : Machine) (s : Nat) : List Nat :=
  ((m.scopes.peek s).map fun scope => scope.valmap.values.filterMap ownedSlot).getD []

/-- The scope of a user function. -/
def fnScope (m : Machine) (f : Nat) : Option Nat :=
  (m.fns.peek f).bind fun fn => if fn.builtInCallback.isNone then fn.scope else none

/-- The scope freed with the content of a slot. -/
def slotScope (m : Machine) (index : Nat) : Option Nat :=
  m.tbl.values[index]?.bind fun w =>
    match w.nofree, w.data with
    | false, .function f => m.fnScope f
    | _, _ => none

/-- Freeing scope `s` frees scope `t`. -/
inductive Releases (m : Machine) : Nat → Nat → Prop
  | self (s : Nat) : Releases m s s
  | step {s u t index : Nat} (hi : index ∈ m.ownedSlots s) (hu : m.slotScope index = some u)
      (h : Releases m u t) : Releases m s t

end Machine

/-- `m'` is `m` with scopes and slots freed, the slots the newest first. -/
structure Freed (m m' : Machine) (scopes slots : List Nat) : Prop where
  peek : ∀ s, m'.scopes.peek s = m.scopes.peek s
  size : m'.scopes.size = m.scopes.size
  live : ∀ s, m'.scopes.isLive s = (m.scopes.isLive s && decide (s ∉ scopes))
  fnPeek : ∀ f, m'.fns.peek f = m.fns.peek f
  fnSize : m'.fns.size = m.fns.size
  fnLive : ∀ f, m'.fns.isLive f = true → m.fns.isLive f = true
  values : ∀ i : Nat, m'.tbl.values[i]? = m.tbl.values[i]? ∨
    ∃ v : Val, m'.tbl.values[i]? = some v ∧ v.nofree = true ∧ v.data = .null
  length : m'.tbl.values.length = m.tbl.values.length
  capacity : m'.tbl.capacity = m.tbl.capacity
  head : m'.tbl.head = slots ++ m.tbl.head
  stack : m'.stack = m.stack
  result : m'.result = m.result
  builtins : m'.builtins = m.builtins

end Blaze
