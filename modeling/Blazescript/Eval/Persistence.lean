import Blazescript.Eval.Eval
import Blazescript.Eval.Shape
import Blazescript.Tracing.History

/-!
# What stays in a run

Scopes, names and functions, once they are there, through all that a program does afterwards.
-/

namespace Blaze

open Arena Tracing

/-- What there is in a state is still there in a later one. A scope or a function that has been freed is not used
again. A scope that is still there has the parent it had, and binds the names it bound, as constants or as variables. A
function that is still there has its callback and its parameters; of its statements nothing is said, as blocks are
shared with its copies. -/
structure Machine.Persists (m m' : Machine) : Prop where
  builtins : m'.builtins = m.builtins
  scopes : m.scopes.size ≤ m'.scopes.size
  liveScope : ∀ s < m.scopes.size, m'.scopes.isLive s = true → m.scopes.isLive s = true
  parent : ∀ s < m.scopes.size, m'.scopes.isLive s = true → m'.env.parent s = m.env.parent s
  names : ∀ s name v isConst, m'.scopes.isLive s = true → m.env.vars s name = some (v, isConst) →
    ∃ v', m'.env.vars s name = some (v', isConst)
  fns : m.fns.size ≤ m'.fns.size
  liveFn : ∀ f < m.fns.size, m'.fns.isLive f = true → m.fns.isLive f = true
  fn : ∀ f fn, m'.fns.isLive f = true → m.fns.read f = some fn → ∃ fn', m'.fns.read f = some fn' ∧
    fn'.builtInCallback = fn.builtInCallback ∧ fn'.paramNames = fn.paramNames

end Blaze
