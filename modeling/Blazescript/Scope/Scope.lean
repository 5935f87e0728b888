import Blazescript.Arena.Heap
import Blazescript.Valmap.Valmap

/-!
# `scope.c`

Scopes are objects of a heap and name their parents by identity. A function returns `none` where the
source reads a scope that is not allocated or already freed. Values are of any type; the table
`builtin_functions` is a list of names and values.
-/

namespace Blaze

open Arena

variable {α : Type}

/-- `enum scope_mode`. -/
inductive ScopeMode
  | scDefault
  | scModeReuse
  deriving DecidableEq, Repr

/-- `struct scope`. The field `null` always points to the one null value and is left out; nothing in
the program sets `allow_redecl`, as `noRedecl` records. -/
structure Scope (α : Type) where
  parent : Option Nat
  valmap : Valmap α
  allowRedecl : Bool
  mode : ScopeMode
  uniqueId : Nat
  prevUniqueId : Nat
  noRedecl : allowRedecl = false

abbrev Scopes (α : Type) := Heap (Scope α)

/-- A pointer to the value of a map entry: the scope whose map it is, the generation of the array
pointed into, and the index. -/
structure EntryPtr where
  scope : Nat
  generation : Nat
  index : Nat
  deriving DecidableEq, Repr

/-- The call `scope_declare_identifier` makes on the map of the scope. -/
def Scope.declare (scope : Scope α) (name : String) (value : α) (isConst : Bool) : Written α :=
  if scope.allowRedecl then scope.valmap.setDefault name value isConst true
  else scope.valmap.setNoOverwrite name value isConst true

/-- Declares names one after the other as constants, whatever the status. -/
def Scope.declareAll (scope : Scope α) (names : List (String × α)) : Scope α :=
  names.foldl (fun scope b => { scope with valmap := (scope.declare b.1 b.2 true).valmap }) scope

/-- `scope_init`. A child scope declares the built-in functions anew. -/
def scopeInit (builtins : List (String × α)) (parent : Option Nat) : Scope α :=
  let scope : Scope α :=
    { parent, valmap := .initDefault, allowRedecl := false, mode := .scDefault, uniqueId := 0
      prevUniqueId := 0, noRedecl := rfl }
  match parent with
  | some _ => scope.declareAll builtins
  | none => scope

/-- `scope_create_global`, for given values of `true`, `false`, `null` and the built-in functions. -/
def scopeCreateGlobal (trueVal falseVal nullVal : α) (builtins : List (String × α)) : Scope α :=
  (scopeInit builtins none).declareAll
    ([("true", trueVal), ("false", falseVal), ("null", nullVal)] ++ builtins)

/-- `scope_declare_identifier`: the status, the value freed in passing, and the scopes. -/
def scopeDeclareIdentifier (h : Scopes α) (s : Nat) (name : String) (value : α) (isConst : Bool) :
    Option (ValmapSetStatus × Option α × Scopes α) :=
  (h.read s).map fun scope =>
    let w := scope.declare name value isConst
    (w.status, w.released, h.write s { scope with valmap := w.valmap })

/-- `scope_assign_identifier`; `fuel` bounds the number of scopes visited. -/
def assignFrom (h : Scopes α) (name : String) (value : α) :
    Nat → Nat → Option (ValmapSetStatus × Scopes α)
  | 0, _ => none
  | fuel + 1, s =>
    (h.read s).bind fun scope =>
      let w := scope.valmap.setNoCreate name value false false
      let h' := h.write s { scope with valmap := w.valmap }
      match w.status, scope.parent with
      | .setNotFound, some p => assignFrom h' name value fuel p
      | status, _ => some (status, h')

/-- `scope_assign_identifier`. A scope is younger than its ancestors, so the fuel suffices. -/
def scopeAssignIdentifier (h : Scopes α) (s : Nat) (name : String) (value : α) :
    Option (ValmapSetStatus × Scopes α) := assignFrom h name value (s + 1) s

/-- `scope_resolve_identifier`; `fuel` bounds the number of scopes visited. -/
def resolveFrom (h : Scopes α) (name : String) : Nat → Nat → Option (Option EntryPtr)
  | 0, _ => none
  | fuel + 1, s =>
    (h.read s).bind fun scope =>
      match scope.valmap.get name, scope.parent with
      | some index, _ => some (some ⟨s, scope.valmap.data.generation, index⟩)
      | none, some p => resolveFrom h name fuel p
      | none, none => some none

/-- `scope_resolve_identifier`. -/
def scopeResolveIdentifier (h : Scopes α) (s : Nat) (name : String) : Option (Option EntryPtr) :=
  resolveFrom h name (s + 1) s

/-- Reads the value a pointer points to; `none` if the scope has been freed or its array replaced. -/
def readEntry (h : Scopes α) (ptr : EntryPtr) : Option (α × Bool) :=
  (h.read ptr.scope).bind fun scope =>
    if scope.valmap.data.generation = ptr.generation then scope.valmap.data.entryAt ptr.index
    else none

/-- The valmap functions called by `eval_loop_stmt` and `eval_var_decl` on the map of a scope:
`valmap_set_default`. -/
def scopeSetDefault (h : Scopes α) (s : Nat) (name : String) (value : α) (isConst : Bool) :
    Option (Scopes α) :=
  (h.read s).map fun scope =>
    h.write s { scope with valmap := (scope.valmap.setDefault name value isConst false).valmap }

end Blaze
