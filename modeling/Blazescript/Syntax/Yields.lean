import Blazescript.Syntax.Parser

/-!
# What a computation of the parser does

It moves over some tokens, none of which is the end of the file, and gives a result that has to do with
these tokens. In the `safe` reading, where an end of the file lies ahead, it fails only with a syntax
error.
-/

namespace Blaze

/-- The tokens from the index on. -/
def Parser.rest (p : Parser) : List LexToken := p.tokens.drop p.index

/-- The parser has moved over some tokens. -/
structure Parser.Advances (p p' : Parser) (u : List LexToken) : Prop where
  rest : p.rest = u ++ p'.rest
  tokens : p'.tokens = p.tokens
  filename : p'.filename = p.filename
  index : p'.index = p.index + u.length
  consumed : p'.consumed = p.consumed ++ u
  noEof : ∀ t ∈ u, t.type ≠ .tEof

/-- There are fewer than `k` tokens before an end of the file. -/
def Parser.Within (k : Nat) (p : Parser) : Prop :=
  ∃ i < k, ∃ t, p.rest[i]? = some t ∧ t.type = .tEof

/-- The parser has a name for its file, and in the `safe` reading an end of the file ahead. -/
structure Parser.Ready (safe : Prop) (filename : Option String) (k : Nat) (p : Parser) : Prop where
  filename : p.filename = filename
  within : safe → p.Within k

def ParserError.IsSyntax : ParserError → Prop
  | .syntaxError .. => True
  | .undefined | .outOfFuel => False

/-- The computation moves over tokens and returns a result as `Q` says. -/
def Yields {α : Type} (safe : Prop) (x : ParserM α) (p : Parser) (Q : List LexToken → α → Prop) :
    Prop :=
  match x p with
  | .ok a p' => ∃ u, p.Advances p' u ∧ Q u a
  | .error e p' => (∃ u, p.Advances p' u) ∧ (safe → e.IsSyntax)

/-- The iterations of a loop: tokens, and the value at the end. -/
inductive Iterates {α : Type} (B : α → List LexToken → α × Bool → Prop) :
    α → List LexToken → α → Prop
  | done (a : α) : Iterates B a [] a
  | stop {a b : α} {u : List LexToken} (h : B a u (b, false)) : Iterates B a u b
  | again {a b c : α} {u v : List LexToken} (h : B a u (b, true)) (hr : Iterates B b v c) :
      Iterates B a (u ++ v) c

end Blaze
