import Blazescript.Eval.Proofs.ReturnsProofs
import Blazescript.Language.Proofs.LayersProofs
import Blazescript.Running.Proofs.RefinesProofs

/-!
# Proofs: the steps of programs without functions

The rules of `Simulates`, and what the single steps of the evaluator mean.
-/

namespace Blaze

open Arena Environment Running Tracing

variable {α β α' β' : Type} {P : Machine → Prop} {stack : List Frame} {scopes rest : List Nat} {scope : Nat}
  {m m' : Machine} {memory : Memory} {x : Eval α} {y : Meaning β} {Q Q' : α → β → Prop} {S : α' → β' → Prop}
  {v l r : Val} {value lv rv : Scalar} {pos leftPos rightPos : Pos} {name : String}

/-! ## The rules of `Simulates` -/

theorem simulates_pure {a : α} {b : β} (h : Q a b) : Simulates P stack scopes (pure a) (pure b) Q :=
  refines_pure fun _ _ hw => ⟨h, hw⟩

theorem simulates_throw {e : Err} {halt : Halt} (h : e.Is halt) :
    Simulates P stack scopes (throw e : Eval α) (throw halt : Meaning β) Q :=
  refines_throw fun _ _ hw => ⟨h, hw.represents.hasWritten⟩

theorem simulates_throwRuntime (pos : Pos) (msg : String) :
    Simulates P stack scopes (throwRuntime pos msg : Eval α) (throw (.runtimeError pos msg) : Meaning β) Q :=
  simulates_throw rfl

theorem simulates_unspecified : Simulates P stack scopes x (throw .unspecified : Meaning β) Q :=
  refines_unspecified rfl

theorem Simulates.bind {f : α → Eval α'} {g : β → Meaning β'} (h : Simulates P stack scopes x y Q)
    (hfg : ∀ a b, Q a b → Simulates P stack scopes (f a) (g b) S) :
    Simulates P stack scopes (x >>= f) (y >>= g) S :=
  Refines.bind h fun a b => Refines.of_fact (hfg a b)

/-- One step of the evaluator, with the next state. -/
theorem simulates_of_returns (h : ∀ m memory, P m → m.Represents memory scopes → m.stack = stack →
    ∃ b memory', y memory = .ok b memory' ∧
      Returns x m fun a m' => Q a b ∧ P m' ∧ m'.Represents memory' scopes ∧ m'.stack = stack) :
    Simulates P stack scopes x y Q := by
  refine refines_of_ok fun w memory hw => ?_
  obtain ⟨b, memory', hy, hx⟩ := h w.state memory hw.kept hw.represents hw.stack
  obtain ⟨a, w', hx', hq⟩ := hx w.trace
  exact ⟨a, w', b, memory', hx', hy, hq.1, hq.2.1, hq.2.2.1, hq.2.2.2⟩

theorem simulates_giveValue (hP : Lasting P) (his : v.Is value) :
    Simulates P stack scopes (giveValue v) (pure value) Val.Is := by
  refine simulates_of_returns fun m memory hm hrep hstack => ⟨value, memory, rfl, ?_⟩
  exact returns_giveValue ⟨his, hP m _ hm rfl rfl rfl, hrep.congr rfl rfl rfl rfl rfl rfl, hstack⟩

theorem Simulates.evaluates {node : AstNode} {x : Eval Val} {y : Meaning Scalar}
    (h : Simulates P (⟨scope, node, .none⟩ :: stack) (scope :: rest) x y Val.Is) :
    Evaluates P stack scope rest node x y :=
  Refines.post h fun _ _ _ _ hw => ⟨hw.1, .none, hw.2⟩

/-- A call of `eval` does what is meant, if the evaluation of the node does. -/
theorem Evaluates.call {rec : Nat → AstNode → Eval Val} {node : AstNode} {y : Meaning Scalar} (hP : Lasting P)
    (h : Evaluates P stack scope rest node (rec scope node) y) (body : Option Nat) :
    Simulates P stack (scope :: rest) (callEval rec body scope node) y Val.Is := by
  have hpush : ∀ m memory, P m → m.Represents memory (scope :: rest) → m.stack = stack →
      Returns (act (.call body) fun m => some { m with stack := ⟨scope, node, .none⟩ :: m.stack }) m fun _ m' =>
        P m' ∧ m'.Represents memory (scope :: rest) ∧ m'.stack = ⟨scope, node, .none⟩ :: stack := by
    intro m memory hm hrep hstack
    exact returns_act rfl ⟨hP m _ hm rfl rfl rfl, hrep.congr rfl rfl rfl rfl rfl rfl, congrArg _ hstack⟩
  have hpop : ∀ m memory locals, P m → m.Represents memory (scope :: rest) →
      m.stack = ⟨scope, node, locals⟩ :: stack →
      Returns (act .return fun m => some { m with stack := m.stack.tail }) m fun _ m' =>
        P m' ∧ m'.Represents memory (scope :: rest) ∧ m'.stack = stack := by
    intro m memory locals hm hrep hstack
    exact returns_act rfl ⟨hP m _ hm rfl rfl rfl, hrep.congr rfl rfl rfl rfl rfl rfl, congrArg List.tail hstack⟩
  refine Refines.step_left (fun w memory hw => ?_) fun _ => Refines.then_left h fun v b w memory hw => ?_
  · obtain ⟨_, w', hw', hm, hrep, hstack⟩ := hpush w.state memory hw.kept hw.represents hw.stack w.trace
    exact ⟨_, w', hw', hm, hrep, hstack⟩
  · obtain ⟨his, locals, hm, hrep, hstack⟩ := hw
    obtain ⟨_, w', hw', hm', hrep', hstack'⟩ := hpop w.state memory locals hm hrep hstack w.trace
    refine ⟨v, w', ?_, his, hm', hrep', hstack'⟩
    rw [bind_ok hw']
    rfl

/-! ## Operators -/

theorem Val.Is.isString (h : v.Is value) : v.isString = false := by
  unfold Val.isString
  rw [h.data]
  cases value <;> rfl

theorem Val.Is.toInt (h : v.Is value) : valToInt v = value.count := by
  unfold valToInt
  rw [h.data]
  cases value <;> rfl

theorem Val.Is.truthy (h : v.Is value) : valIsTruthy v = value.truthy := by
  unfold valIsTruthy
  rw [h.data]
  cases value <;> rfl

theorem simulates_giveBool (hP : Lasting P) (b : Bool) :
    Simulates P stack scopes (giveBool b) (pure (.boolean b)) Val.Is :=
  simulates_giveValue hP ⟨rfl, rfl⟩

theorem simulates_giveInt (hP : Lasting P) (i : Int) :
    Simulates P stack scopes (giveInt i) (exactly i) Val.Is := by
  unfold giveInt exactly
  exact refines_ite Iff.rfl (fun _ => simulates_giveValue hP ⟨rfl, rfl⟩) fun _ => simulates_unspecified

theorem simulates_compare (hP : Lasting P) (hl : l.Is lv) (hr : r.Is rv) {operator : BinOperator}
    (hc : operator.isComparison = true) :
    Simulates P stack scopes (evalBinexpCmpGeneric operator l r leftPos)
      (pure (.boolean (compareScalars operator lv rv))) Val.Is := by
  unfold evalBinexpCmpGeneric
  have hstring : ¬ (l.isString || r.isString) = true := by
    rw [hl.isString, hr.isString]
    exact Bool.false_ne_true
  rw [if_neg hstring, hl.toInt, hr.toInt, hl.data, hr.data]
  cases operator with
  | opPlus | opMinus | opDivide | opTimes | opModulus => cases hc
  | _ => exact simulates_giveBool hP _

theorem simulates_arithmetic (hP : Lasting P) (i j : Int) {operator : BinOperator}
    (hc : operator.isComparison = false) :
    Simulates P stack scopes (evalBinexpInt operator i j rightPos) (arithmetic operator i j rightPos) Val.Is := by
  cases operator with
  | opPlus => exact simulates_giveInt hP _
  | opMinus => exact simulates_giveInt hP _
  | opTimes => exact simulates_giveInt hP _
  | opDivide =>
    unfold evalBinexpInt arithmetic
    exact refines_ite Iff.rfl (fun _ => simulates_throwRuntime _ _) fun _ => simulates_giveValue hP ⟨rfl, rfl⟩
  | opModulus =>
    unfold evalBinexpInt arithmetic
    refine refines_ite Iff.rfl (fun _ => simulates_throwRuntime _ _) fun _ => ?_
    exact refines_ite Iff.rfl (fun _ => simulates_giveInt hP _) fun _ => simulates_unspecified
  | _ => cases hc

/-- The operators compute what is meant. -/
theorem simulates_evalBinop (hP : Lasting P) (hl : l.Is lv) (hr : r.Is rv) (operator : BinOperator) :
    Simulates P stack scopes (evalBinop pos leftPos rightPos operator l r) (operate pos rightPos operator lv rv)
      Val.Is := by
  unfold evalBinop operate
  refine refines_ite Iff.rfl (fun hc => simulates_compare hP hl hr hc) fun hc => ?_
  have hc' : operator.isComparison = false := by
    rw [Bool.not_eq_true] at hc
    exact hc
  have hstring : ¬ (l.isString || r.isString) = true := by
    rw [hl.isString, hr.isString]
    exact Bool.false_ne_true
  rw [if_neg hstring, hl.data, hr.data]
  cases lv with
  | integer i =>
    cases rv with
    | integer j => exact simulates_arithmetic hP i j hc'
    | _ => exact simulates_throwRuntime _ _
  | _ => exact simulates_throwRuntime _ _

end Blaze
