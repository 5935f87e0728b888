import Blazescript.Syntax.Lexemes

/-!
# Lines and columns

Where a place in a text is, by the text before it, and where the tokens of a text stand.
-/

namespace Blaze

/-- `IS_NEWLINE`, and the characters at which `lex_char_forward` begins a line. -/
def isLineBreak (c : Char) : Bool := c = '\r' || c = '\n'

/-- The line of what comes after a text. -/
def lineAfter (before : List Char) : Nat := 1 + before.countP isLineBreak

/-- The characters of a text after its last line break. -/
def lastLine (before : List Char) : List Char := (before.reverse.takeWhile fun c => !isLineBreak c).reverse

/-- The column of what comes after a text. -/
def columnAfter (before : List Char) : Nat := 1 + (lastLine before).length

/-- A token, the text before it and its lexeme. -/
structure Span where
  token : LexToken
  before : List Char
  lexeme : List Char

/-- The text, which comes after another one, is made up of gaps and of the lexemes of the tokens, each the
longest at its place, up to its end or to a comment that never ends. -/
inductive Spans : List Char → List Char → List Span → Prop
  | done {before gap : List Char} (hg : Gap gap []) : Spans before gap []
  | unclosed {before gap rest : List Char} (hg : Gap gap ('/' :: '*' :: rest)) (hrest : ¬ ['*', '/'] <:+: rest) :
      Spans before (gap ++ '/' :: '*' :: rest) []
  | token {before gap lexeme rest : List Char} {t : LexToken} {spans : List Span} (hg : Gap gap (lexeme ++ rest))
      (ht : IsLexeme t.type t.value lexeme) (hl : Longest lexeme (lexeme ++ rest))
      (h : Spans (before ++ gap ++ lexeme) rest spans) :
      Spans before (gap ++ (lexeme ++ rest)) (⟨t, before ++ gap, lexeme⟩ :: spans)

/-- The token says where its first character is, and where its last one is and the column after that. -/
structure Span.IsTrue (span : Span) : Prop where
  lineStart : span.token.lineStart = lineAfter span.before
  columnStart : span.token.columnStart = columnAfter span.before
  lineEnd : span.token.lineEnd = lineAfter (span.before ++ span.lexeme.dropLast)
  columnEnd : span.token.columnEnd = columnAfter (span.before ++ span.lexeme.dropLast) + 1

/-- There is a line break in a string of the text. -/
def BreaksString (text : List Char) : Prop :=
  ∃ keys rest value lexeme after, Pieces text keys rest ∧ nextPiece rest = .token .tString value lexeme after ∧
    ∃ c ∈ lexeme, isLineBreak c = true

/-- The token has the place that the lexer gives to a lexeme: the column of its first character, and else the
place after it. -/
structure Span.Recorded (span : Span) : Prop where
  lineStart : span.token.lineStart = lineAfter (span.before ++ span.lexeme)
  lineEnd : span.token.lineEnd = lineAfter (span.before ++ span.lexeme)
  columnStart : span.token.columnStart = columnAfter span.before
  columnEnd : span.token.columnEnd = columnAfter (span.before ++ span.lexeme)
  isLexeme : IsLexeme span.token.type span.token.value span.lexeme

end Blaze
