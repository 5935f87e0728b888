import Blazescript.Syntax.Grammar

/-!
# Operands that stand side by side

Between parentheses or square brackets two operands have something between them, a comma or an operator.
This is told from the tokens alone.
-/

namespace Blaze

/-- An operand can end in the token. -/
def LexTokenType.endsOperand : LexTokenType → Bool
  | .tIdentifier | .tIntLit | .tString | .tParenClose | .tSquareBraceClose => true
  | _ => false

/-- An operand can begin with the token. -/
def LexTokenType.startsOperand : LexTokenType → Bool
  | .tIdentifier | .tIntLit | .tString | .tParenOpen | .tArray => true
  | _ => false

/-- The number of open parentheses and square brackets after a token. -/
def LexTokenType.nest (d : Nat) : LexTokenType → Nat
  | .tParenOpen | .tSquareBraceOpen => d + 1
  | .tParenClose | .tSquareBraceClose => d - 1
  | _ => d

def nesting (d : Nat) (u : List LexToken) : Nat := u.foldl (fun d t => t.type.nest d) d

/-- What may stand side by side: a name before a parenthesis is a call. -/
def Fits (d : Nat) (a b : LexTokenType) : Prop :=
  0 < d → a.endsOperand = true → b.startsOperand = true → a = .tIdentifier ∧ b = .tParenOpen

/-- Between parentheses or square brackets no two operands stand side by side. -/
def Separated : Nat → List LexToken → Prop
  | _, [] => True
  | d, a :: u => (∀ b ∈ u.head?, Fits (a.type.nest d) a.type b.type) ∧ Separated (a.type.nest d) u

/-- The operators have the texts of the language. -/
def OperatorTexts (u : List LexToken) : Prop :=
  ∀ t ∈ u, t.type = .tBinaryOperator → ∃ level operator, (t.value, operator) ∈ Level.operators level

/-- The tokens before the end of the file. -/
def beforeEof (tokens : List LexToken) : List LexToken := tokens.takeWhile fun t => t.type ≠ .tEof

end Blaze
