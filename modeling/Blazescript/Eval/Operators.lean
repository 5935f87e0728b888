import Blazescript.Eval.Eval
import Mathlib.Data.Rat.Defs

/-!
# What the operators give

It depends on the types and the contents of the operands only, and comes about without side effects but the
allocation of a string.
-/

namespace Blaze

open Tracing

/-- The kind of result of an operator; `undefined` where the source goes on without a result. -/
inductive Outcome
  | data (data : ValData)
  | text (s : String)
  | runtimeError
  | fatal
  | undefined
  deriving DecidableEq

/-- The program ends with a message. -/
def Err.Reports : Err → Prop
  | .runtimeError .. | .fatal _ => True
  | _ => False

/-- A computation has the outcome. The strings of before are still there. -/
def Gives (outcome : Outcome) (x : Eval Val) (w : World Machine Event) : Prop :=
  match outcome with
  | .data data => ∃ w', x w = .ok (.ofData data) w'
  | .text text => ∃ v s w', x w = .ok v w' ∧ v.data = .string s ∧ w'.state.store.strings.read s = some text ∧
      ∀ s' text', w.state.store.strings.read s' = some text' → w'.state.store.strings.read s' = some text'
  | .runtimeError => ∃ pos msg w', x w = .error (.runtimeError pos msg) w'
  | .fatal => ∃ msg w', x w = .error (.fatal msg) w'
  | .undefined => ∃ w', x w = .error .undefined w'

/-! ## Texts -/

/-- The types that `val_stringify` knows. -/
def Val.hasText (v : Val) : Bool :=
  match v.data with
  | .string _ | .integer _ | .boolean _ | .null => true
  | _ => false

/-- What `val_stringify` returns, unless it reads a string that has been freed. -/
def Machine.stringify (m : Machine) (v : Val) : Option (Option String) :=
  match v.data with
  | .string s => (m.store.strings.read s).map some
  | .integer intval => some (some (toString intval))
  | .boolean boolval => some (some (if boolval then "true" else "false"))
  | .null => some (some "null")
  | _ => some none

/-- The text of a value. -/
def Machine.text (m : Machine) (v : Val) : Option String := (m.stringify v).join

/-- No string of the value has been freed. -/
def Machine.Readable (m : Machine) (v : Val) : Prop := (m.stringify v).isSome

/-! ## Outcomes -/

/-- `eval_concat`. -/
def concatOutcome (m : Machine) (left right : Val) : Outcome :=
  if left.hasText && right.hasText then
    match m.text left, m.text right with
    | some l, some r => .text (l ++ r)
    | _, _ => .undefined
  else .runtimeError

/-- The operators that compare two texts. -/
def BinOperator.isEquality : BinOperator → Bool
  | opCmpEq | opCmpEqS | opCmpNe | opCmpNeS => true
  | _ => false

/-- A comparison for equality. -/
def equalityOutcome (operator : BinOperator) (eq sameType : Bool) : Outcome :=
  match operator with
  | .opCmpEq => .data (.boolean eq)
  | .opCmpEqS => .data (.boolean (eq && sameType))
  | .opCmpNe => .data (.boolean !eq)
  | .opCmpNeS => .data (.boolean (!eq && sameType))
  | _ => .fatal

/-- `strcmp`, for the results of `val_stringify`. -/
def textOutcome (operator : BinOperator) (sameType : Bool) : Option String → Option String → Outcome
  | some l, some r => equalityOutcome operator (l = r) sameType
  | _, _ => if operator.isEquality then .undefined else .fatal

def sameType (left right : Val) : Bool := left.data.type = right.data.type

/-- `eval_binexp_string`. -/
def stringOutcome (m : Machine) (operator : BinOperator) (left right : Val) : Outcome :=
  if operator = .opPlus then concatOutcome m left right
  else
    match m.stringify left, m.stringify right with
    | some l, some r => textOutcome operator (sameType left right) l r
    | _, _ => .undefined

/-- `eval_binexp_cmp_generic` for values that are no strings. -/
def genericOutcome (operator : BinOperator) (left right : Val) : Outcome :=
  match operator with
  | .opCmpLt => .data (.boolean (valToInt left < valToInt right))
  | .opCmpGt => .data (.boolean (valToInt left > valToInt right))
  | .opCmpGe => .data (.boolean (valToInt left ≥ valToInt right))
  | .opCmpLe => .data (.boolean (valToInt left ≤ valToInt right))
  | _ => equalityOutcome operator (valToInt left = valToInt right) (sameType left right)

/-- The range of `long long`. -/
def InRange (i : Int) : Prop := -0x8000000000000000 ≤ i ∧ i < 0x8000000000000000

instance (i : Int) : Decidable (InRange i) := inferInstanceAs (Decidable (_ ∧ _))

/-- A result of `long long`. -/
def intOutcome (i : Int) : Outcome := if InRange i then .data (.integer i) else .undefined

/-- `eval_binexp_int`. -/
def arithmeticOutcome (operator : BinOperator) (left right : Int) : Outcome :=
  match operator with
  | .opPlus => intOutcome (left + right)
  | .opMinus => intOutcome (left - right)
  | .opTimes => intOutcome (left * right)
  | .opDivide => if right = 0 then .runtimeError else .data (.float left right)
  | .opModulus =>
    if right = 0 then .runtimeError
    else if left.tdiv right < 0x8000000000000000 then intOutcome (left.tmod right)
    else .undefined
  | _ => .fatal

/-- `eval_binexp`, for evaluated operands. -/
def outcome (m : Machine) (operator : BinOperator) (left right : Val) : Outcome :=
  if operator.isComparison then
    if left.isString || right.isString then stringOutcome m operator left right
    else genericOutcome operator left right
  else
    match left.data, right.data with
    | .integer l, .integer r => arithmeticOutcome operator l r
    | _, _ =>
      if left.isString || right.isString then stringOutcome m operator left right else .runtimeError

/-! ## Answers -/

/-- A computation returns a value with the data. -/
def ReturnsData (x : Eval Val) (w : World Machine Event) (data : ValData) : Prop :=
  ∃ v w', x w = .ok v w' ∧ v.data = data

/-- A computation returns a boolean. -/
def Answers (x : Eval Val) (w : World Machine Event) (b : Bool) : Prop := ReturnsData x w (.boolean b)

/-- A computation returns an integer. -/
def ReturnsInt (x : Eval Val) (w : World Machine Event) (i : Int) : Prop := ReturnsData x w (.integer i)

/-- A computation returns a string with the text. -/
def ReturnsText (x : Eval Val) (w : World Machine Event) (text : String) : Prop :=
  ∃ v s w', x w = .ok v w' ∧ v.data = .string s ∧ w'.state.store.strings.read s = some text

/-- A computation returns a value, or ends the program with a message. -/
def Settles (x : Eval Val) (w : World Machine Event) : Prop :=
  (∃ v w', x w = .ok v w') ∨ ∃ e w', x w = .error e w' ∧ e.Reports

/-! ## Arithmetic -/

/-- What an operator computes; the remainder has the sign of the dividend. -/
def BinOperator.exact : BinOperator → Int → Int → Option Int
  | opPlus, l, r => some (l + r)
  | opMinus, l, r => some (l - r)
  | opTimes, l, r => some (l * r)
  | opModulus, l, r => some (l.tmod r)
  | _, _, _ => none

/-- An operation on integers that `long long` does not have room for. -/
def Overflows (operator : BinOperator) (l r : Int) : Prop :=
  match operator with
  | .opPlus => ¬ InRange (l + r)
  | .opMinus => ¬ InRange (l - r)
  | .opTimes => ¬ InRange (l * r)
  | .opModulus => l = -0x8000000000000000 ∧ r = -1
  | _ => False

/-! ## Pairs of operators -/

/-- The operators that are to be each other's negation. -/
def complementary : List (BinOperator × BinOperator) :=
  [(.opCmpEq, .opCmpNe), (.opCmpEqS, .opCmpNeS), (.opCmpLt, .opCmpGe), (.opCmpGt, .opCmpLe)]

/-- A string, and a value without a text. -/
def Machine.Incomparable (m : Machine) (left right : Val) : Prop :=
  (left.isString || right.isString) = true ∧ (m.text left = none ∨ m.text right = none)

/-! ## Payloads -/

/-- The elements of an array, if they may be read. -/
def Machine.elements (m : Machine) (a : Nat) : Option (List Val) :=
  (m.store.vectors.read a).bind fun slots => slots.mapM m.slotValue

/-- Two values of one type with one payload. -/
inductive Same (m : Machine) : Val → Val → Prop
  | integer {v v' : Val} {i : Int} (h : v.data = .integer i) (h' : v'.data = .integer i) : Same m v v'
  | float {v v' : Val} {n d n' d' : Int} (h : v.data = .float n d) (h' : v'.data = .float n' d')
      (hq : (n / d : Rat) = n' / d') : Same m v v'
  | string {v v' : Val} {s s' : Nat} {text : String} (h : v.data = .string s) (h' : v'.data = .string s')
      (hs : m.store.strings.read s = some text) (hs' : m.store.strings.read s' = some text) : Same m v v'
  | function {v v' : Val} {f : Nat} (h : v.data = .function f) (h' : v'.data = .function f) : Same m v v'
  | null {v v' : Val} (h : v.data = .null) (h' : v'.data = .null) : Same m v v'
  | boolean {v v' : Val} {b : Bool} (h : v.data = .boolean b) (h' : v'.data = .boolean b) : Same m v v'
  | array {v v' : Val} {a a' : Nat} {vs vs' : List Val} (h : v.data = .array a) (h' : v'.data = .array a')
      (ha : m.elements a = some vs) (ha' : m.elements a' = some vs') (hr : List.Forall₂ (Same m) vs vs') : Same m v v'

/-- The number that a value stands for. -/
def Val.rational (v : Val) : Option Rat :=
  match v.data with
  | .integer i => some i
  | .float n d => some (n / d)
  | _ => none

/-- The comparisons of numbers. -/
def orders : List (BinOperator × (Rat → Rat → Bool)) :=
  [(.opCmpLt, fun p q => p < q), (.opCmpGt, fun p q => p > q), (.opCmpLe, fun p q => p ≤ q),
    (.opCmpGe, fun p q => p ≥ q), (.opCmpEq, fun p q => p = q)]

/-- The operands do not differ by what `val_to_int` loses: division results count as one, as do arrays and
functions. -/
def Machine.Faithful (m : Machine) (left right : Val) : Prop :=
  match left.data, right.data with
  | .float n d, .float n' d' => (n / d : Rat) = n' / d'
  | .integer i, .float n d => ((i : Rat) < n / d ↔ i < 1) ∧ ((i : Rat) > n / d ↔ i > 1)
  | .float n d, .integer i => ((n / d : Rat) < i ↔ 1 < i) ∧ ((n / d : Rat) > i ↔ 1 > i)
  | .array _, .array _ => Same m left right
  | .function f, .function f' => f = f'
  | _, _ => True

/-- Strict equality is equality, and numbers are compared as numbers. -/
structure Respects (m : Machine) (left right : Val) (compared : BinOperator → Bool → Prop) : Prop where
  strict : compared .opCmpEqS true → Same m left right
  order : ∀ p q, left.rational = some p → right.rational = some q → ∀ o ∈ orders, compared o.1 (o.2 p q)

/-! ## Concatenation -/

/-- A concatenation, for operands at some places. -/
def plus (pos leftPos rightPos : Pos) (left right : Val) : Eval Val :=
  evalBinop pos leftPos rightPos .opPlus left right

/-- In a state, `+` puts texts together as `val_stringify` makes them, and so agrees with equality and is
associative around a string. -/
structure Concatenates (pos leftPos rightPos : Pos) (w : World Machine Event) : Prop where
  refused : ∀ left right, (left.isString || right.isString) = true → w.state.Readable left → w.state.Readable right →
    ((∃ p msg w', plus pos leftPos rightPos left right w = .error (.runtimeError p msg) w') ↔
      w.state.text left = none ∨ w.state.text right = none)
  texts : ∀ left right l r, (left.isString || right.isString) = true → w.state.text left = some l →
    w.state.text right = some r → ReturnsText (plus pos leftPos rightPos left right) w (l ++ r)
  equality : ∀ empty s v t u, empty.isString = true → w.state.text empty = some "" → s.isString = true →
    w.state.text s = some t → w.state.text v = some u →
    ∃ x w', plus pos leftPos rightPos empty v w = .ok x w' ∧
      ∀ b, Answers (evalBinop pos leftPos rightPos .opCmpEq v s) w b ↔
        Answers (evalBinop pos leftPos rightPos .opCmpEqS x s) w' b
  assoc : ∀ s u v t l r, s.isString = true → w.state.text s = some t → w.state.text u = some l →
    w.state.text v = some r →
    ∃ x w' y w'', plus pos leftPos rightPos u s w = .ok x w' ∧ plus pos leftPos rightPos s v w = .ok y w'' ∧
      ∃ text, ReturnsText (plus pos leftPos rightPos x v) w' text ∧ ReturnsText (plus pos leftPos rightPos u y) w'' text

end Blaze
