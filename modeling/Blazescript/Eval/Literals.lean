import Blazescript.Eval.Operators
import Blazescript.Syntax.Consumes
import Blazescript.Syntax.Lexer
import Mathlib.Data.Nat.Digits.Defs

/-!
# Integer literals

From the digits in a text to the value of an expression.
-/

namespace Blaze

/-- The number that decimal digits stand for. -/
def decimalValue (digits : List Char) : Nat := Nat.ofDigits 10 (digits.reverse.map fun c => c.toNat - 48)

/-- Where the lexer is at the digits, it makes a token of them, of which the parser makes a node, and the value of
the node is the integer. -/
def MeansAnywhere (digits : List Char) (i : Int) : Prop :=
  ∀ (n : Nat) (lex : Lex) (rest : List Char), lex.buf.drop lex.index = digits ++ rest →
    (∀ c ∈ rest.head?, c.isDigit = false) → lex.buf.length < n →
    ∃ t lex', lexStep n lex = .ok () lex' ∧ lex'.index = lex.index + digits.length ∧
      lex'.tokens = lex.tokens ++ [t] ∧ t.key = (.tIntLit, String.ofList digits) ∧
      ∀ (parseExpr : ParserM AstNode) (p : Parser) (r : List LexToken), p.rest = t :: r →
        ∃ node, parserParsePrimaryExpr parseExpr p = .ok node (p.after [t]) ∧
          ∀ fuel scope w, ReturnsInt (eval (fuel + 1) scope node) w i

/-- A program that consists of the digits and a semicolon has the integer for its result. -/
def MeansAlone (digits : List Char) (i : Int) : Prop :=
  ∀ filename stdin strerror, ∃ n lex m root p fuel v w,
    lexAnalyze n (lexInit filename (digits ++ [';'])) = .ok () lex ∧
    parserCreateAstNode m (.init lex.tokens (some filename)) = .ok root p ∧
    runProgram fuel root stdin strerror = .ok v w ∧ v.data = .integer i

end Blaze
