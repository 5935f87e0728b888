import Blazescript.Syntax.Consumes
import Blazescript.Syntax.Grammar

/-!
# What the parser does with a piece of the tokens

It does the same with the tokens of a piece wherever they stand, as long as what follows them ends the piece.
-/

namespace Blaze

/-- An expression ends before the token, whatever it is made of. -/
def LexTokenType.stops : LexTokenType → Bool
  | .tEof | .tParenClose | .tAs => true
  | _ => false

/-- Some tokens lie ahead of both parsers, with the end of the file behind them for the first, and behind them
for the second what stops it. -/
structure Ahead (stop : LexTokenType → Prop) (p p' : Parser) (u : List LexToken) : Prop where
  left : ∃ t r, p.rest = u ++ t :: r ∧ t.type = .tEof
  right : ∃ t r, p'.rest = u ++ t :: r ∧ stop t.type

/-- What the parsers are at is the same token, or what is behind the tokens. -/
def Sees (stop : LexTokenType → Prop) (t t' : LexToken) : Prop := t = t' ∨ t.type = .tEof ∧ stop t'.type

/-- When the first computation moves over tokens that lie ahead of both parsers, so does the second, with a
result that has to do with that of the first. Inside the tokens, not all of them may be moved over. -/
structure Alike {α : Type} (stop : LexTokenType → Prop) (inside : Prop) (x x' : ParserM α) (R : α → α → Prop) :
    Prop where
  forward : ∀ p a q, x p = .ok a q → ∃ u r, p.rest = u ++ r ∧ q = p.after u
  same : ∀ p p' u w a, Ahead stop p p' (u ++ w) → (inside → w ≠ []) → x p = .ok a (p.after u) →
    ∃ a', x' p' = .ok a' (p'.after u) ∧ R a a'

/-- Two trees that differ in positions only. -/
def SameTree (e e' : AstNode) : Prop := e.erase = e'.erase

/-- The tokens, and no others, make up the tree. -/
def ParsesAs (parse : Nat → ParserM AstNode) (eof : LexToken) (filename : Option String)
    (tokens : List LexToken) (node : AstNode) : Prop :=
  ∃ n e p, parse n (.init (tokens ++ [eof]) filename) = .ok e p ∧ p.index = tokens.length ∧ SameTree e node

end Blaze
