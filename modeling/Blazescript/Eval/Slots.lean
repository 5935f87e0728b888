import Blazescript.Eval.Shape

/-!
# The ownership of slots

The slots of `val_alloc_tbl` on the free list, the values that name a slot, and the steps that
release a slot.
-/

namespace Blaze

namespace Machine

/-- The free list names no slot twice, and no slot that a bound value points to. -/
structure SlotsFree (m : Machine) : Prop where
  nodup : m.tbl.head.Nodup
  bound : ∀ v, m.Bound v → ∀ index, v.selfPtr = some index → index ∉ m.tbl.head

/-- Freeing a scope releases no slot twice, and no slot of a value that stays in reach. -/
structure ReleasesOnce (m : Machine) (s : Nat) : Prop where
  within : ∀ t, m.Releases s t → (m.ownedSlots t).Nodup
  across : ∀ t t', m.Releases s t → m.Releases s t' → t ≠ t' →
    (m.ownedSlots t).Disjoint (m.ownedSlots t')
  stays : ∀ t, m.Releases s t → ∀ index ∈ m.ownedSlots t, ∀ v, m.Stays s v →
    v.selfPtr ≠ some index

/-- The step releases slots at most once, and only of values that do not stay in reach. -/
def SparesSlots (m : Machine) (event : Event) : Prop :=
  match event with
  | .closeScope s => m.ReleasesOnce s
  | _ => True

/-- A test that the name is bound in a live scope to a value whose slot is on the free list. -/
def pointsToFree (m : Machine) (s : Nat) (name : String) : Bool :=
  m.scopes.isLive s && (m.env.vars s name).any fun b => b.1.selfPtr.any m.tbl.head.contains

/-- A test for `SparesSlots`: no value but those of the freed scope names its slots. -/
def sparesSlots (m : Machine) (event : Event) : Bool :=
  match event with
  | .closeScope s =>
    let named := fun v : Val => v.selfPtr.any (m.ownedSlots s).contains
    ((m.ownedSlots s).all fun index => m.slotScope index = none) && decide (m.ownedSlots s).Nodup &&
      ((List.range m.scopes.size).all fun t => decide (t = s) ||
        (m.scopes.peek t).all fun scope => scope.valmap.values.all fun v => !named v) &&
      (m.stack.tail.all fun frame => frame.locals.args.all fun v => !named v) &&
      (m.builtins.all fun b => !named b.2)
  | _ => true

end Machine

/-- How a step changes the table. -/
inductive TblChange (m m' : Machine) (event : Event) : Prop
  | same (h : m'.tbl = m.tbl) (hr : event.Makes → m'.result.selfPtr = none)
  | created (data : ValData) (he : event.Makes) (htbl : m'.tbl = (m.tbl.create data).2)
      (hr : m'.result = (m.tbl.create data).1)
  | freed (s : Nat) (he : event = .closeScope s)

end Blaze
