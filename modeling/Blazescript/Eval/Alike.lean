import Blazescript.Scope.Alike
import Blazescript.Eval.Eval
import Blazescript.Eval.Release
import Blazescript.Running.Refines

/-!
# States that differ in names

Two states in which the same things have different names: the scopes, functions, strings, vectors and slots that have
been allocated before, and those that nothing points to, do not matter. What is evaluated in both comes to the same.
-/

namespace Blaze

open Arena Running Tracing

/-- Which objects and slots of two states are the same, and what the two programs have printed before. -/
structure Naming where
  scopes : Nat → Nat → Prop
  fns : Nat → Nat → Prop
  strings : Nat → Nat → Prop
  vectors : Nat → Nat → Prop
  slots : Nat → Nat → Prop
  printed : List Output
  printed' : List Output

/-- The names of more objects. -/
structure Naming.Le (ρ ρ' : Naming) : Prop where
  scopes : ∀ i j, ρ.scopes i j → ρ'.scopes i j
  fns : ∀ i j, ρ.fns i j → ρ'.fns i j
  strings : ∀ i j, ρ.strings i j → ρ'.strings i j
  vectors : ∀ i j, ρ.vectors i j → ρ'.vectors i j
  slots : ∀ i j, ρ.slots i j → ρ'.slots i j
  printed : ρ'.printed = ρ.printed
  printed' : ρ'.printed' = ρ.printed'

/-- The same payload. -/
inductive ValData.Alike (ρ : Naming) : ValData → ValData → Prop
  | integer (intval : Int) : Alike ρ (.integer intval) (.integer intval)
  | float (num den : Int) : Alike ρ (.float num den) (.float num den)
  | string {s s' : Nat} (h : ρ.strings s s') : Alike ρ (.string s) (.string s')
  | function {f f' : Nat} (h : ρ.fns f f') : Alike ρ (.function f) (.function f')
  | null : Alike ρ .null .null
  | boolean (boolval : Bool) : Alike ρ (.boolean boolval) (.boolean boolval)
  | array {a a' : Nat} (h : ρ.vectors a a') : Alike ρ (.array a) (.array a')

/-- The same value. -/
structure Val.Alike (ρ : Naming) (v v' : Val) : Prop where
  data : v.data.Alike ρ v'.data
  nofree : v.nofree = v'.nofree
  selfPtr : Option.Rel ρ.slots v.selfPtr v'.selfPtr

structure FnVal.Alike (ρ : Naming) (fn fn' : FnVal) : Prop where
  builtInCallback : fn.builtInCallback = fn'.builtInCallback
  customBody : fn.customBody = fn'.customBody
  paramNames : fn.paramNames = fn'.paramNames
  scope : Option.Rel ρ.scopes fn.scope fn'.scope

/-- The same locals, but for what is not read from them. -/
inductive Locals.Alike (ρ : Naming) : Locals → Locals → Prop
  | none : Alike ρ .none .none
  | block (s s' : Nat) : Alike ρ (.block s) (.block s')
  | loop (s s' : Nat) : Alike ρ (.loop s) (.loop s')
  | call {val val' : EntryPtr} {args args' : List Val} (activation activation' : Option (Nat × Nat))
      (hargs : List.Forall₂ (Val.Alike ρ) args args') :
      Alike ρ (.call val args activation) (.call val' args' activation')
  | builtin {args args' : List Val} (activation activation' : Option (Nat × Nat))
      (hargs : List.Forall₂ (Val.Alike ρ) args args') : Alike ρ (.builtin args activation) (.builtin args' activation')

/-- The innermost frames, as many as given, have the same locals. -/
def FramesAlike (ρ : Naming) : Nat → List Frame → List Frame → Prop
  | 0, _, _ => True
  | n + 1, frame :: stack, frame' :: stack' => frame.locals.Alike ρ frame'.locals ∧ FramesAlike ρ n stack stack'
  | _ + 1, _, _ => False

/-- A free list: what has been freed since is the same, and what was free before nothing points to. -/
structure FreeAlike (r : Nat → Nat → Prop) (n n' : Nat) (head head' : List Nat) : Prop where
  split : ∃ freed rest freed' rest', head = freed ++ rest ∧ head' = freed' ++ rest' ∧ List.Forall₂ r freed freed' ∧
    rest.Nodup ∧ rest'.Nodup ∧ (∀ i ∈ rest, i < n ∧ ∀ j, ¬ r i j) ∧ ∀ j ∈ rest', j < n' ∧ ∀ i, ¬ r i j

structure ValAllocTbl.Alike (ρ : Naming) (tbl tbl' : ValAllocTbl) : Prop where
  pairing : Pairing ρ.slots
  cells : ∀ {i j : Nat}, ρ.slots i j → ∃ v v', tbl.values[i]? = some v ∧ tbl'.values[j]? = some v' ∧ v.Alike ρ v'
  free : FreeAlike ρ.slots tbl.values.length tbl'.values.length tbl.head tbl'.head

/-- The same values under the same names. -/
abbrev BuiltinsAlike (ρ : Naming) : List (String × Val) → List (String × Val) → Prop :=
  List.Forall₂ fun b b' => b.1 = b'.1 ∧ b.2.Alike ρ b'.2

/-- Both programs have printed the same since. -/
abbrev Naming.Printed (ρ : Naming) (m m' : Machine) : Prop :=
  ∃ out, m.store.stdout = ρ.printed ++ out ∧ m'.store.stdout = ρ.printed' ++ out

/-- Two states that differ in names only, as far as a number of frames can tell. -/
structure Machine.Alike (ρ : Naming) (n : Nat) (m m' : Machine) : Prop where
  scopes : ScopesAlike ρ.scopes (Val.Alike ρ) m.scopes m'.scopes
  rooted : Rooted m.env.parent
  rooted' : Rooted m'.env.parent
  fns : Heap.Alike ρ.fns (FnVal.Alike ρ) m.fns m'.fns
  strings : Heap.Alike ρ.strings (· = ·) m.store.strings m'.store.strings
  vectors : Heap.Alike ρ.vectors (List.Forall₂ (Option.Rel ρ.slots)) m.store.vectors m'.store.vectors
  tbl : m.tbl.Alike ρ m'.tbl
  builtins : BuiltinsAlike ρ m.builtins m'.builtins
  frames : FramesAlike ρ n m.stack m'.stack
  evalFnError : m.store.evalFnError = m'.store.evalFnError
  stdin : m.store.stdin = m'.store.stdin
  strerror : m.store.strerror = m'.store.strerror
  stdout : ρ.Printed m m'

/-- The same function, in whatever scopes. -/
structure FnVal.SameText (fn fn' : FnVal) : Prop where
  builtInCallback : fn.builtInCallback = fn'.builtInCallback
  customBody : fn.customBody = fn'.customBody
  paramNames : fn.paramNames = fn'.paramNames

/-- Two states in which the same may be read from values. -/
structure Machine.SameValues (ρ : Naming) (m m' : Machine) : Prop where
  fns : Heap.Alike ρ.fns FnVal.SameText m.fns m'.fns
  strings : Heap.Alike ρ.strings (· = ·) m.store.strings m'.store.strings
  vectors : Heap.Alike ρ.vectors (List.Forall₂ (Option.Rel ρ.slots)) m.store.vectors m'.store.vectors
  cells : ∀ {i j : Nat}, ρ.slots i j → ∃ v v', m.tbl.values[i]? = some v ∧ m'.tbl.values[j]? = some v' ∧ v.Alike ρ v'

/-- The names the other way round. -/
def Naming.swap (ρ : Naming) : Naming where
  scopes i j := ρ.scopes j i
  fns i j := ρ.fns j i
  strings i j := ρ.strings j i
  vectors i j := ρ.vectors j i
  slots i j := ρ.slots j i
  printed := ρ.printed'
  printed' := ρ.printed

/-- The same error, after the same output. -/
abbrev Naming.SameError (ρ : Naming) (e : Err) (w : World Machine Event) (e' : Err) (w' : World Machine Event) : Prop :=
  e = e' ∧ ρ.Printed w.state w'.state

/-- In states that differ in names only, two computations come to the same: results that are alike, or the same error.
The states are alike again, with names for what has been allocated. -/
def SameEval {α β : Type} (ρ : Naming) (n : Nat) (x : Eval α) (y : Eval β) (Q : Naming → α → β → Prop) : Prop :=
  ∀ ρ', ρ.Le ρ' → Refines (fun _ => False) (fun w w' => w.state.Alike ρ' n w'.state) x y
    (fun a w b w' => ∃ ρ'', ρ'.Le ρ'' ∧ w.state.Alike ρ'' n w'.state ∧ Q ρ'' a b) ρ'.SameError

/-! ## Tests -/

/-- The names that are listed in pairs; there are no strings and no vectors. -/
def Naming.ofPairs (scopes fns slots : List (Nat × Nat)) (printed printed' : List Output) : Naming where
  scopes i j := (i, j) ∈ scopes
  fns i j := (i, j) ∈ fns
  strings _ _ := False
  vectors _ _ := False
  slots i j := (i, j) ∈ slots
  printed := printed
  printed' := printed'

/-- A test that no name is in two pairs. -/
def pairsOnce (pairs : List (Nat × Nat)) : Bool :=
  pairs.all fun p => pairs.all fun q => decide (p.1 = q.1 ↔ p.2 = q.2)

section Tests

variable {α β : Type} (test : α → β → Bool)

/-- A test for `Option.Rel`. -/
def optionsAlike : Option α → Option β → Bool
  | none, none => true
  | some a, some b => test a b
  | _, _ => false

/-- A test for `List.Forall₂`. -/
def listsAlike : List α → List β → Bool
  | [], [] => true
  | a :: as, b :: bs => test a b && listsAlike as bs
  | _, _ => false

/-- A test for `Heap.Alike`. -/
def heapsAlike (pairs : List (Nat × Nat)) (h : Heap α) (h' : Heap β) : Bool :=
  pairsOnce pairs && pairs.all fun p => decide (h.isLive p.1 = h'.isLive p.2) && (h.peek p.1).isSome &&
    optionsAlike test (h.peek p.1) (h'.peek p.2)

end Tests

variable (scopes fns slots : List (Nat × Nat))

/-- A test for `Val.Alike`. -/
def valsAlike (v v' : Val) : Bool :=
  decide (v.nofree = v'.nofree) && optionsAlike (fun i j => slots.contains (i, j)) v.selfPtr v'.selfPtr &&
    match v.data, v'.data with
    | .integer i, .integer j => decide (i = j)
    | .boolean b, .boolean c => decide (b = c)
    | .function f, .function g => fns.contains (f, g)
    | .null, .null => true
    | _, _ => false

/-- A test for `Scope.Alike`. -/
def scopesAlike (scope scope' : Scope Val) : Bool :=
  optionsAlike (fun i j => scopes.contains (i, j)) scope.parent scope'.parent &&
    listsAlike (optionsAlike fun e e' => decide (e.key = e'.key) && valsAlike fns slots e.value e'.value &&
      decide (e.isConst = e'.isConst)) scope.valmap.data.array scope'.valmap.data.array &&
    decide (scope.valmap.data.elements = scope'.valmap.data.elements) &&
    decide (scope.valmap.data.generation = scope'.valmap.data.generation) && decide (scope.mode = scope'.mode) &&
    decide (scope.uniqueId = scope'.uniqueId) && decide (scope.prevUniqueId = scope'.prevUniqueId)

/-- A test for bodies that are one name. -/
def bodiesAlike : List AstNode → List AstNode → Bool
  | [], [] => true
  | [.identifier pos symbol], [.identifier pos' symbol'] => decide (pos = pos' ∧ symbol = symbol')
  | _, _ => false

/-- A test for `FnVal.Alike`. -/
def fnsAlike (fn fn' : FnVal) : Bool :=
  decide (fn.builtInCallback = fn'.builtInCallback) && bodiesAlike fn.customBody fn'.customBody &&
    decide (fn.paramNames = fn'.paramNames) &&
    optionsAlike (fun i j => scopes.contains (i, j)) fn.scope fn'.scope

/-- A test for tables from which nothing has been freed. -/
def tblsAlike (tbl tbl' : ValAllocTbl) : Bool :=
  pairsOnce slots && tbl.head.isEmpty && tbl'.head.isEmpty && slots.all fun p =>
    (tbl.values[p.1]?).isSome && optionsAlike (valsAlike fns slots) tbl.values[p.1]? tbl'.values[p.2]?

/-- A test that the innermost frame calls a function without arguments. -/
def callsPlainly : List Frame → Bool
  | ⟨_, _, .call _ [] _⟩ :: _ => true
  | _ => false

/-- A test that states with scopes as they have to be are alike. -/
def machinesAlike (m m' : Machine) : Bool :=
  heapsAlike (scopesAlike scopes fns slots) scopes m.scopes m'.scopes && heapsAlike (fnsAlike scopes) fns m.fns m'.fns &&
    tblsAlike fns slots m.tbl m'.tbl &&
    listsAlike (fun b b' => decide (b.1 = b'.1) && valsAlike fns slots b.2 b'.2) m.builtins m'.builtins &&
    callsPlainly m.stack && callsPlainly m'.stack && decide (m.store.evalFnError = m'.store.evalFnError) &&
    decide (m.store.stdin = m'.store.stdin) && decide (m.store.strerror = m'.store.strerror)

end Blaze
