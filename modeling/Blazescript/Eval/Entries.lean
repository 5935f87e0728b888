import Blazescript.Eval.Shape

/-!
# Pointers into maps

The pointer `val` of `eval_expr_call`, from `scope_resolve_identifier` to its last use, and the steps
that leave it dangling.
-/

namespace Blaze

/-- `val` of `eval_expr_call`, as long as it will be used. -/
def Frame.val (frame : Frame) : Option EntryPtr :=
  match frame.locals with
  | .call val _ _ => some val
  | _ => none

namespace Machine

/-- The pointers `val` of the calls that are running. -/
def vals (m : Machine) : List EntryPtr := m.stack.filterMap Frame.val

/-- The map that the pointer was got from has not been freed, and its array not been replaced. -/
def Current (m : Machine) (val : EntryPtr) : Prop :=
  m.scopes.isLive val.scope = true ∧ generationOf m.scopes val.scope = some val.generation

instance (m : Machine) (val : EntryPtr) : Decidable (m.Current val) := by
  unfold Current
  infer_instance

/-- The step neither grows the map that the pointer was got from, nor frees it. -/
def Spares (m : Machine) (event : Event) (val : EntryPtr) : Prop :=
  ¬ (m.Checks event val.scope ∧ atThreshold m.scopes val.scope = true) ∧
    ∀ s, event = .closeScope s → ¬ m.Releases s val.scope

/-- A test for `Spares` that looks at the maps only. -/
def sparesAll (m : Machine) (event : Event) : Bool :=
  match event with
  | .declare t _ _ => m.vals.all fun val => decide (val.scope ≠ t) || !atThreshold m.scopes t
  | .param t _ _ => m.vals.all fun val => decide (val.scope ≠ t) || !atThreshold m.scopes t
  | .setDefault t _ => m.vals.all fun val => decide (val.scope ≠ t) || !atThreshold m.scopes t
  | .assign _ _ => m.vals.all fun val => !atThreshold m.scopes val.scope
  | .closeScope _ => m.vals.isEmpty
  | _ => true

end Machine

end Blaze
