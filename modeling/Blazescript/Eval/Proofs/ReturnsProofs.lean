import Blazescript.Eval.Eval
import Blazescript.Tracing.Proofs.RecorderProofs

/-!
# Proofs: steps that return

The steps of the evaluator from a state in which they return, and the state they return in.
-/

namespace Blaze

open Arena Tracing

variable {m m' : Machine} {node : AstNode} {scope : Nat} {v : Val} {vs : List Val} {ptr : EntryPtr}
  {stack : List Frame}

theorem returns_giveValue {Q : Val → Machine → Prop} (h : Q v { m with result := v }) :
    Returns (giveValue v) m Q := returns_perform rfl h

theorem returns_act {event : Event} {g : Machine → Option Machine} {Q : Unit → Machine → Prop}
    (hg : g m = some m') (h : Q () m') : Returns (act event g) m Q := by
  have hperform : (g m).map (fun m => ((), event, m)) = some ((), event, m') := by
    rw [hg]
    rfl
  exact returns_perform hperform h

theorem act_eq_ok {event : Event} {g : Machine → Option Machine} {w : World Machine Event} (hg : g w.state = some m') :
    act event g w = .ok () ⟨m', ⟨event, w.state, m'⟩ :: w.trace⟩ := by
  unfold act
  refine perform_ok ?_
  rw [hg]
  rfl

/-- A string literal makes a string and a slot for it. -/
theorem returns_string (text : String) : Returns (do
      let s ← newString text
      newSlot (.string s)) m fun v m' => v.data = .string m.store.strings.size ∧
        m' = { m with
          store := { m.store with strings := m.store.strings.alloc text }
          tbl := (m.tbl.create (.string m.store.strings.size)).2, result := v } := by
  have hnew : Returns (newString text) m fun s m' => s = m.store.strings.size ∧
      m' = { m with store := { m.store with strings := m.store.strings.alloc text } } := returns_perform rfl ⟨rfl, rfl⟩
  refine hnew.bind ?_
  rintro _ _ ⟨rfl, rfl⟩
  exact returns_perform rfl ⟨rfl, rfl⟩

/-- A call of `eval` puts its frame on the stack, and takes it off. -/
theorem returns_callEval {rec : Nat → AstNode → Eval Val} {body : Option Nat} {Q : Val → Machine → Prop}
    (h : Returns (rec scope node) { m with stack := ⟨scope, node, .none⟩ :: m.stack } Q) :
    Returns (callEval rec body scope node) m fun v m' => ∃ m₁, Q v m₁ ∧ m' = { m₁ with stack := m₁.stack.tail } := by
  have hpush : Returns (act (.call body) fun m => some { m with stack := ⟨scope, node, .none⟩ :: m.stack }) m
      fun _ m' => m' = { m with stack := ⟨scope, node, .none⟩ :: m.stack } := returns_act rfl rfl
  refine hpush.bind ?_
  rintro _ _ rfl
  refine h.bind ?_
  intro v m₁ hq
  have hpop : Returns (act .return fun m => some { m with stack := m.stack.tail }) m₁
      fun _ m' => m' = { m₁ with stack := m₁.stack.tail } := returns_act rfl rfl
  refine hpop.bind ?_
  rintro _ _ rfl
  exact returns_pure ⟨m₁, hq, rfl⟩

/-- The frame of `eval_expr_call`, with the arguments so far. -/
def callFrame (scope : Nat) (node : AstNode) (ptr : EntryPtr) (vs : List Val) : Frame :=
  ⟨scope, node, .call ptr vs none⟩

theorem returns_storeArg (hstack : m.stack = callFrame scope node ptr vs :: stack) (v : Val) :
    Returns (storeArg v) m fun _ m' =>
      m' = { m with stack := callFrame scope node ptr (vs ++ [v]) :: stack } := by
  refine returns_act ?_ rfl
  unfold Machine.locals Machine.withLocals
  rw [hstack]
  rfl

theorem returns_beginBuiltin (hstack : m.stack = callFrame scope node ptr vs :: stack) :
    Returns beginBuiltin m fun ws m' => ws = vs ∧
      m' = { m with stack := ⟨scope, node, .builtin vs none⟩ :: stack } := by
  unfold beginBuiltin
  refine returns_perform (?_ : _ = some (vs, Event.builtin, _)) ⟨rfl, rfl⟩
  unfold Machine.locals Machine.withLocals
  rw [hstack]
  rfl

end Blaze
