import Blazescript.Syntax.Yields

/-!
# What the parser does with given tokens

It moves over them, whatever stood before, and returns a result.
-/

namespace Blaze

/-- The parser after some tokens. -/
def Parser.after (p : Parser) (u : List LexToken) : Parser :=
  { p with index := p.index + u.length, consumed := p.consumed ++ u }

/-- Where the tokens `u` and then `rest` lie ahead, the computation moves over `u`. -/
def Consumes {α : Type} (x : ParserM α) (u rest : List LexToken) (P : α → Prop) : Prop :=
  ∀ p : Parser, p.rest = u ++ rest → ∃ a, x p = .ok a (p.after u) ∧ P a

end Blaze
