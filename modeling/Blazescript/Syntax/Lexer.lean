import Blazescript.Syntax.Token

/-!
# `lexer.c`

The loops have a bound, which no text reaches that is shorter.
-/

namespace Blaze

/-- `struct lex`. The length of the buffer is that of the list, and the count of the tokens too. It also
records whether a character at the end of the buffer or behind it has been read. -/
structure Lex where
  buf : List Char
  index : Nat
  currentLine : Nat
  currentColumn : Nat
  tokens : List LexToken
  filename : String
  pastEnd : Bool

/-- Why the analysis ends: an error in a line, one without a place, a read past the byte that ends the
buffer, or a bound that is too small. -/
inductive LexError
  | syntaxErrorLine (filename : String) (line column : Nat) (msg : String)
  | syntaxError (msg : String)
  | undefined
  | outOfFuel
  deriving DecidableEq, Repr

/-- The error is one in the text. -/
def LexError.isSyntax : LexError → Prop
  | .syntaxErrorLine .. => True
  | .syntaxError _ => True
  | _ => False

abbrev LexM (α : Type) := EStateM LexError Lex α

/-- `chartokens`. -/
def chartokens : List (Char × LexTokenType) :=
  [(';', .tSemicolon), ('(', .tParenOpen), (')', .tParenClose), ('+', .tBinaryOperator),
    ('-', .tBinaryOperator), ('/', .tBinaryOperator), ('*', .tBinaryOperator), ('%', .tBinaryOperator),
    ('=', .tAssignment), (',', .tComma), ('\x7b', .tBlockBraceOpen), ('\x7d', .tBlockBraceClose),
    ('.', .tPeriod), ('[', .tSquareBraceOpen), (']', .tSquareBraceClose), ('<', .tBinaryOperator),
    ('>', .tBinaryOperator)]

/-- `keywords`. -/
def keywords : List (String × LexTokenType) :=
  [("var", .tVar), ("const", .tConst), ("function", .tFunction), ("array", .tArray),
    ("import", .tImport), ("if", .tIf), ("else", .tElse), ("loop", .tLoop), ("as", .tAs)]

/-- `lex_init`. -/
def lexInit (filename : String) (buf : List Char) : Lex := ⟨buf, 0, 1, 1, [], filename, false⟩

/-- `isspace`, on ASCII characters. -/
def isSpace (c : Char) : Bool := c = ' ' || 9 ≤ c.toNat && c.toNat ≤ 13

/-- A character of an identifier: `isalnum`, on ASCII characters, or an underscore. -/
def isWordChar (c : Char) : Bool := c.isAlphanum || c = '_'

/-! ## The buffer -/

/-- `lex_has_value`. -/
def Lex.hasValue (lex : Lex) : Bool := lex.index < lex.buf.length

/-- What `lex_char_forward` makes of the lex at a character. -/
def Lex.forward (lex : Lex) (c : Char) : Lex :=
  if c = '\r' ∨ c = '\n' then
    { lex with index := lex.index + 1, currentLine := lex.currentLine + 1, currentColumn := 1 }
  else { lex with index := lex.index + 1, currentColumn := lex.currentColumn + 1 }

/-- `lex_char_forward`. The assertion is compiled out, and a zero byte ends the buffer. -/
def lexCharForward : LexM Char := fun lex =>
  match lex.buf[lex.index]? with
  | some c => .ok c (lex.forward c)
  | none =>
    let lex := { lex with pastEnd := true }
    if lex.index = lex.buf.length then .ok '\x00' (lex.forward '\x00')
    else .error .undefined lex

/-- `lex_char`. -/
def lexChar : LexM Char := fun lex =>
  match lex.buf[lex.index]? with
  | some c => .ok c lex
  | none =>
    let lex := { lex with pastEnd := true }
    if lex.index = lex.buf.length then .ok '\x00' lex else .error .undefined lex

/-- The buffer has a character at an offset from the index, where this has been found to lie within the
buffer. -/
def Lex.isAt (lex : Lex) (offset : Nat) (c : Char) : Bool := lex.buf[lex.index + offset]? == some c

/-- `(lex->index + 1) < lex->len` and two characters. -/
def Lex.isAt2 (lex : Lex) (c d : Char) : Bool :=
  lex.index + 1 < lex.buf.length && lex.isAt 0 c && lex.isAt 1 d

/-- `(lex->index + 2) < lex->len` and three characters. -/
def Lex.isAt3 (lex : Lex) (c d e : Char) : Bool :=
  lex.index + 2 < lex.buf.length && lex.isAt 0 c && lex.isAt 1 d && lex.isAt 2 e

/-- The lex has a value that satisfies a condition. -/
def Lex.hasChar (lex : Lex) (cond : Char → Bool) : Bool := lex.hasValue && lex.buf[lex.index]?.any cond

/-- The loops that move forward while a condition holds and collect what they move over. -/
def lexWhile (cond : Lex → Bool) : Nat → List Char → LexM (List Char)
  | 0, _ => throw .outOfFuel
  | n + 1, acc => do
    if cond (← get) then do
      let c ← lexCharForward
      lexWhile cond n (acc ++ [c])
    else pure acc

/-- `lex_tokens_array_push`, of a token that began at a column and ends where the lex is. -/
def lexTokensArrayPush (type : LexTokenType) (value : String) (columnStart : Nat) : LexM Unit :=
  modify fun lex => { lex with tokens := lex.tokens ++
    [⟨type, value, lex.currentLine, lex.currentLine, columnStart, lex.currentColumn⟩] }

/-! ## Tokens -/

/-- `lex_string`. -/
def lexString (n : Nat) : LexM Unit := do
  let columnStart := (← get).currentColumn
  let quote ← lexCharForward
  let strbuf ← lexWhile (fun lex => lex.hasChar (· != quote)) n []
  let lex ← get
  let isUnterminated ← if lex.hasValue then (· != quote) <$> lexChar else pure true
  if isUnterminated then
    throw (.syntaxErrorLine lex.filename lex.currentLine lex.currentColumn
      ("unterminated string: expected '" ++ quote.toString ++ "'"))
  else do
    let _ ← lexCharForward
    lexTokensArrayPush .tString (String.ofList strbuf) columnStart

/-- `lex_number`. -/
def lexNumber (n : Nat) : LexM Unit := do
  let columnStart := (← get).currentColumn
  let numbuf ← lexWhile (fun lex => lex.hasChar Char.isDigit) n []
  lexTokensArrayPush .tIntLit (String.ofList numbuf) columnStart

/-- `convert_str_to_token`. -/
def convertStrToToken (keyword : String) : LexTokenType := (keywords.lookup keyword).getD .tUnknown

/-- `lex_identifier_or_keyword`. -/
def lexIdentifierOrKeyword (n : Nat) : LexM Unit := do
  let columnStart := (← get).currentColumn
  let identifier ← lexWhile (fun lex => lex.hasChar isWordChar) n []
  let keywordTokenType := convertStrToToken (String.ofList identifier)
  lexTokensArrayPush (if keywordTokenType = .tUnknown then .tIdentifier else keywordTokenType)
    (String.ofList identifier) columnStart

/-- `lex_push_char_token`. -/
def lexPushCharToken (type : LexTokenType) : LexM Unit := do
  let columnStart := (← get).currentColumn
  let c ← lexCharForward
  lexTokensArrayPush type c.toString columnStart

/-- The operator of more than one character that the lex is at. -/
def Lex.multicharOperator (lex : Lex) : Option String :=
  if lex.hasValue && decide (lex.index + 1 < lex.buf.length) then
    if lex.isAt3 '=' '=' '=' then some "==="
    else if lex.isAt3 '!' '=' '=' then some "!=="
    else if lex.isAt 0 '=' && lex.isAt 1 '=' then some "=="
    else if lex.isAt 0 '!' && lex.isAt 1 '=' then some "!="
    else if lex.isAt 0 '>' && lex.isAt 1 '=' then some ">="
    else if lex.isAt 0 '<' && lex.isAt 1 '=' then some "<="
    else none
  else none

/-- The loop over the characters of an operator. -/
def lexForwards : Nat → LexM Unit
  | 0 => pure ()
  | n + 1 => do
    let _ ← lexCharForward
    lexForwards n

/-- `lex_multichar_operators`. -/
def lexMulticharOperators : LexM Bool := do
  let columnStart := (← get).currentColumn
  match (← get).multicharOperator with
  | some value => do
    lexForwards value.length
    lexTokensArrayPush .tBinaryOperator value columnStart
    pure true
  | none => pure false

/-! ## The analysis -/

/-- A comment up to the end of the line. -/
def lexLineComment (n : Nat) : LexM Unit := do
  let _ ← lexWhile (fun lex => lex.hasChar (· != '\n')) n []

/-- A comment up to an asterisk and a slash. After the loop the check for a comment that is not
terminated needs a character that is no asterisk where the loop has found one, or is at the end. -/
def lexBlockComment (n : Nat) : LexM Unit := do
  lexForwards 2
  let _ ← lexWhile (fun lex => lex.index + 1 < lex.buf.length && (!lex.isAt 0 '*' || !lex.isAt 1 '/')) n []
  let lex ← get
  if lex.index + 1 < lex.buf.length && !lex.isAt 0 '*' && !lex.isAt 1 '/' then
    throw (.syntaxError "unterminated comment")
  else lexForwards 2

/-- What is no operator of more than one character. -/
def lexOther (n : Nat) (c : Char) : LexM Unit := do
  match chartokens.lookup c with
  | some type => lexPushCharToken type
  | none =>
    if c = '"' ∨ c = '\'' then lexString n
    else if c.isDigit then lexNumber n
    else if c.isAlpha ∨ c = '_' then lexIdentifierOrKeyword n
    else throw (.syntaxError ("unknown token '" ++ c.toString ++ "'"))

/-- The body of the loop in `lex_analyze`. -/
def lexStep (n : Nat) : LexM Unit := do
  let c ← lexChar
  let lex ← get
  if lex.isAt2 '/' '/' then lexLineComment n
  else if lex.isAt2 '/' '*' then lexBlockComment n
  else if isSpace c then do
    let _ ← lexCharForward
  else if ← lexMulticharOperators then pure ()
  else lexOther n c

/-- The loop in `lex_analyze`. -/
def lexLoop (n : Nat) : Nat → LexM Unit
  | 0 => throw .outOfFuel
  | m + 1 => do
    if (← get).hasValue then do
      lexStep n
      lexLoop n m
    else pure ()

/-- `lex_analyze`. -/
def lexAnalyze (n : Nat) : LexM Unit := do
  lexLoop n n
  lexTokensArrayPush .tEof "[EOF]" (← get).currentColumn

end Blaze
