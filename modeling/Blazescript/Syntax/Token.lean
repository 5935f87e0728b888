import Blazescript.Syntax.Ast

/-!
# `lexer.h`

The tokens.
-/

namespace Blaze

/-- `enum lex_token_type`. -/
inductive LexTokenType
  | tUnknown
  | tSemicolon
  | tIntLit
  | tEof
  | tString
  | tBinaryOperator
  | tIdentifier
  | tParenOpen
  | tParenClose
  | tVar
  | tConst
  | tAssignment
  | tComma
  | tFunction
  | tBlockBraceOpen
  | tBlockBraceClose
  | tPeriod
  | tSquareBraceOpen
  | tSquareBraceClose
  | tImport
  | tArray
  | tIf
  | tElse
  | tLoop
  | tAs
  deriving DecidableEq, Repr

/-- `struct lex_token`. -/
structure LexToken where
  type : LexTokenType
  value : String
  lineStart : Nat
  lineEnd : Nat
  columnStart : Nat
  columnEnd : Nat
  deriving DecidableEq, Repr

/-- The type and the text of a token. -/
abbrev Key := LexTokenType × String

def LexToken.key (t : LexToken) : Key := (t.type, t.value)

/-- `lex_token_to_str`. The table has no entry for `T_PERIOD`, and `printf` shows that as `(null)`. -/
def lexTokenToStr : LexTokenType → String
  | .tIdentifier => "T_IDENTIFIER"
  | .tString => "T_STRING"
  | .tBinaryOperator => "T_BINARY_OPERATOR"
  | .tIntLit => "T_INT_LIT"
  | .tEof => "T_EOF"
  | .tSemicolon => "T_SEMICOLON"
  | .tParenOpen => "T_PAREN_OPEN"
  | .tParenClose => "T_PAREN_CLOSE"
  | .tUnknown => "T_UNKNOWN"
  | .tAssignment => "T_ASSIGNMENT"
  | .tVar => "T_VAR"
  | .tConst => "T_CONST"
  | .tComma => "T_COMMA"
  | .tFunction => "T_FUNCTION"
  | .tBlockBraceOpen => "T_BLOCK_BRACE_OPEN"
  | .tBlockBraceClose => "T_BLOCK_BRACE_CLOSE"
  | .tArray => "T_ARRAY"
  | .tImport => "T_IMPORT"
  | .tSquareBraceOpen => "T_SQUARE_BRACE_OPEN"
  | .tSquareBraceClose => "T_SQUARE_BRACE_CLOSE"
  | .tIf => "T_IF"
  | .tElse => "T_ELSE"
  | .tLoop => "T_LOOP"
  | .tAs => "T_AS"
  | .tPeriod => "(null)"

end Blaze
