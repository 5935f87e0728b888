import Blazescript.Eval.Value
import Blazescript.Scope.Scope

/-!
# The state of the evaluator

All the memory that `eval.c`, `datatype.c` and `lib.c` work on: the heaps of scopes, functions,
strings and vectors, the value table, the C frames of the running evaluator, and input and output.
An operation gives `none` where the source reads memory that has been freed, or a member of a union
that is not the active one.
-/

namespace Blaze

open Arena

/-- The functions of `lib.c` that `builtin_functions` names. -/
inductive BuiltinFn
  | println
  | print
  | array
  | arrayFilter
  | read
  | exit
  deriving DecidableEq, Repr

/-- `builtin_functions`. -/
def builtinFunctions : List (String × BuiltinFn) :=
  [("println", .println), ("print", .print), ("vector", .array), ("array_filter", .arrayFilter),
    ("read", .read), ("exit", .exit)]

/-- `val_function_t`: a built-in function has a callback, a user function none. The other fields of
a built-in function are zero, until `array_filter` stores a scope. -/
structure FnVal where
  builtInCallback : Option BuiltinFn
  customBody : List AstNode
  paramNames : List String
  scope : Option Nat
  deriving Repr

/-- The locals of a running C function that outlive a call of `eval` from it. -/
inductive Locals
  | none
  /-- `eval_block`: `new_scope`. -/
  | block (newScope : Nat)
  /-- `eval_loop_stmt`: `new_scope`. -/
  | loop (newScope : Nat)
  /-- `eval_expr_call`: `val` and `args`. Once the parameters are being bound, also the function and
  its scope at that point, of which the source keeps no copy: it reads them through `val` again. -/
  | call (val : EntryPtr) (args : List Val) (activation : Option (Nat × Nat))
  /-- `eval_expr_call` in the callback of a built-in function: `args`. In `array_filter_call_fn` also
  the function and `new_scope`. -/
  | builtin (args : List Val) (activation : Option (Nat × Nat))
  deriving Repr

/-- A running call of `eval`: its parameters, and the locals of the function it called. -/
structure Frame where
  scope : Nat
  node : AstNode
  locals : Locals
  deriving Repr

/-- What is written to `stdout`: text, or a quotient of integers in the format `%Lf`. -/
inductive Output
  | text (s : String)
  | longDouble (num den : Int)
  deriving DecidableEq, Repr

/-- The strings and vectors, and the world outside. A vector is a list of pointers into the value
table; the pointer to `null_val` is `none`. `stdin` is the list of lines still to be read, and
`strerror` the text of `errno` when there is none. -/
structure Store where
  strings : Heap String
  vectors : Heap (List (Option Nat))
  evalFnError : Option String
  stdin : List String
  strerror : String
  stdout : List Output

/-- The state of the evaluator. `result` is the value last returned by a function of the evaluator,
as long as it may be used, and `stack` holds the frames, the innermost first. -/
structure Machine where
  scopes : Scopes Val
  fns : Heap FnVal
  tbl : ValAllocTbl
  store : Store
  builtins : List (String × Val)
  stack : List Frame
  result : Val

namespace Machine

/-- A value of `scope_create_global`: a function allocated in the table that must not be freed. -/
def addBuiltin (m : Machine) (b : String × BuiltinFn) : Machine :=
  let (index, tbl) := m.tbl.alloc
  let value : Val := ⟨.function m.fns.size, true, some index⟩
  { m with
    tbl := tbl.store index value
    fns := m.fns.alloc ⟨some b.2, [], [], none⟩
    builtins := m.builtins ++ [(b.1, value)] }

/-- The state before the global scope is created. -/
def empty (root : AstNode) (stdin : List String) (strerror : String) : Machine :=
  { scopes := .empty, fns := .empty, tbl := .init
    store := ⟨.empty, .empty, none, stdin, strerror, []⟩
    builtins := [], stack := [⟨0, root, .none⟩], result := nullVal }

/-- The state in which `process_file` calls `eval`: the global scope has been created. -/
def initial (root : AstNode) (stdin : List String) (strerror : String) : Machine :=
  let m := builtinFunctions.foldl addBuiltin (.empty root stdin strerror)
  { m with scopes := m.scopes.alloc (scopeCreateGlobal trueVal falseVal nullVal m.builtins) }

/-- The function of a value, if it may be read. -/
def fnOf (m : Machine) (v : Val) : Option (Nat × FnVal) :=
  match v.data with
  | .function f => (m.fns.read f).map fun fn => (f, fn)
  | _ => none

/-- What a pointer of a vector points to. -/
def slotValue (m : Machine) : Option Nat → Option Val
  | some index => m.tbl.values[index]?
  | none => some nullVal

/-! ## `scope_free` -/

/-- `val_free_force_no_root` on the value of a slot. The body of a function is freed before its
scope, for which `freeScope` stands. -/
def valFreeForceNoRoot (freeScope : Machine → Nat → Option Machine) (m : Machine) (v : Val) :
    Option Machine :=
  if v.nofree then some m
  else
    match v.data with
    | .string s =>
      if m.store.strings.isLive s then
        some { m with store := { m.store with strings := m.store.strings.free s } }
      else none
    | .array a =>
      if m.store.vectors.isLive a then
        some { m with store := { m.store with vectors := m.store.vectors.free a } }
      else none
    | .function f =>
      (m.fns.read f).bind fun fn =>
        match fn.builtInCallback, fn.scope with
        | none, some s => freeScope { m with fns := m.fns.free f } s
        | none, none => some { m with fns := m.fns.free f }
        | some _, _ => some m
    | _ => some m

/-- `val_alloc_free` with `free_inner`. -/
def valAllocFree (freeScope : Machine → Nat → Option Machine) (m : Machine) (index : Nat) :
    Option Machine :=
  m.tbl.values[index]?.bind fun v =>
    (valFreeForceNoRoot freeScope { m with tbl := m.tbl.pushFree index } v).map fun m =>
      { m with tbl := m.tbl.store index ⟨.null, true, v.selfPtr⟩ }

/-- One step of the loop of `valmap_free` with `free_values`: a value without a slot is only
logged. -/
def valmapFreeValue (freeScope : Machine → Nat → Option Machine) (m : Machine) (v : Val) :
    Option Machine :=
  if v.data ≠ .null ∧ v.nofree = false then
    match v.selfPtr with
    | some index => valAllocFree freeScope m index
    | none => some m
  else some m

/-- `scope_free` of a scope that has a parent; `fuel` bounds the depth of the recursion. -/
def scopeFreeFrom : Nat → Machine → Nat → Option Machine
  | 0, _, _ => none
  | fuel + 1, m, s =>
    (m.scopes.read s).bind fun scope =>
      (scope.valmap.values.foldlM (valmapFreeValue (scopeFreeFrom fuel)) m).bind fun m =>
        if m.scopes.isLive s then some { m with scopes := m.scopes.free s } else none

/-- `scope_free`. Every level of the recursion frees another function. -/
def scopeFree (m : Machine) (s : Nat) : Option Machine := scopeFreeFrom (m.fns.size + 1) m s

end Machine

end Blaze
