import Blazescript.Eval.Shape

/-!
# What a step binds

How a step may change what a scope binds a name to. The flag of a binding never changes, and only an
assignment changes the value of a binding outside the scope of the statement that is evaluated.
-/

namespace Blaze

open Arena Environment

/-- How a step may change what scope `s` binds a name to. -/
inductive BindingChange (m : Machine) (event : Event) (m' : Machine) (s : Nat) (name : String) : Prop
  | same (h : m'.env.vars s name = m.env.vars s name)
  | declared (frame : Frame) (stack : List Frame) (status : ValmapSetStatus) (b : Val × Bool)
      (hs : m.stack = frame :: stack) (hn : frame.Declares name s)
      (he : event = .declare s name status) (hold : m.env.vars s name = none)
      (h : m'.env.vars s name = some b)
  | param (frame : Frame) (stack : List Frame) (f : Nat) (fn : FnVal) (status : ValmapSetStatus)
      (v : Val) (hs : m.stack = frame :: stack) (hr : m.Runs frame f fn s)
      (hn : name ∈ fn.paramNames) (he : event = .param s name status)
      (hold : m.env.vars s name = none) (h : m'.env.vars s name = some (v, true))
  | set (frame : Frame) (stack : List Frame) (v : Val) (isConst : Bool)
      (hs : m.stack = frame :: stack) (hn : frame.Declares name s) (he : event = .setDefault s name)
      (h : m'.env.vars s name = some (v, ((m.env.vars s name).map Prod.snd).getD isConst))
  | assigned (frame : Frame) (stack : List Frame) (pos namePos : Pos) (node : AstNode) (old : Val)
      (status : ValmapSetStatus) (hs : m.stack = frame :: stack)
      (hn : frame.node = .assignment pos (.identifier namePos name) node)
      (he : event = .assign name status) (hmem : s ∈ chain m.env.parent frame.scope)
      (hold : m.env.vars s name = some (old, false))
      (h : m'.env.vars s name = some (m.result, false))

/-- The scope binds no more than the built-in functions. -/
def Machine.Pristine (m : Machine) (s : Nat) : Prop :=
  ∀ name, m.env.vars s name = (m.builtins.lookup name).map fun v => (v, true)

end Blaze
