import Blazescript.Environment.Env
import Blazescript.Scope.Scope
import Mathlib.Logic.Relation

/-!
# Trees of scopes

The heaps that calls of the functions of `scope.c` build from one global scope, none of which is
freed on the way.
-/

namespace Blaze

open Arena

variable {α : Type}

/-- The heap of a new global scope. -/
def globalHeap (trueVal falseVal nullVal : α) (builtins : List (String × α)) : Scopes α :=
  Heap.empty.alloc (scopeCreateGlobal trueVal falseVal nullVal builtins)

/-- One call on a tree of scopes. -/
inductive ScopeStep (builtins : List (String × α)) : Scopes α → Scopes α → Prop
  | init (h : Scopes α) (parent : Nat) (hp : parent < h.size) :
      ScopeStep builtins h (h.alloc (scopeInit builtins (some parent)))
  | declare (h : Scopes α) (s : Nat) (name : String) (value : α) (isConst : Bool)
      (r : ValmapSetStatus × Option α × Scopes α)
      (hd : scopeDeclareIdentifier h s name value isConst = some r) : ScopeStep builtins h r.2.2
  | assign (h : Scopes α) (s : Nat) (name : String) (value : α) (r : ValmapSetStatus × Scopes α)
      (ha : scopeAssignIdentifier h s name value = some r) : ScopeStep builtins h r.2

/-- Any number of calls. -/
abbrev ScopeRun (builtins : List (String × α)) : Scopes α → Scopes α → Prop :=
  Relation.ReflTransGen (ScopeStep builtins)

end Blaze
