import Blazescript.Syntax.Lexer

/-!
# Lexemes

What the language has for its tokens, what may stand between them, and how a text is made up of the two.
-/

namespace Blaze

/-- The operators of more than one character, the longer ones first. -/
def multicharOperators : List (List Char) :=
  [['=', '=', '='], ['!', '=', '='], ['=', '='], ['!', '='], ['>', '='], ['<', '=']]

/-- The token of a type and a value is written so. -/
inductive IsLexeme : LexTokenType → String → List Char → Prop
  | operator {text : List Char} (h : text ∈ multicharOperators) :
      IsLexeme .tBinaryOperator (String.ofList text) text
  | char {c : Char} {type : LexTokenType} (h : (c, type) ∈ chartokens) : IsLexeme type c.toString [c]
  | number {text : List Char} (hne : text ≠ []) (h : ∀ c ∈ text, c.isDigit = true) :
      IsLexeme .tIntLit (String.ofList text) text
  | keyword {word : String} {type : LexTokenType} (h : (word, type) ∈ keywords) :
      IsLexeme type word word.toList
  | identifier {c : Char} {cs : List Char} (hc : c.isAlpha = true ∨ c = '_')
      (hcs : ∀ d ∈ cs, isWordChar d = true) (hk : ∀ type, (String.ofList (c :: cs), type) ∉ keywords) :
      IsLexeme .tIdentifier (String.ofList (c :: cs)) (c :: cs)
  | string {quote : Char} {value : List Char} (hq : quote = '"' ∨ quote = '\'') (hv : quote ∉ value) :
      IsLexeme .tString (String.ofList value) (quote :: (value ++ [quote]))

/-- A comment in asterisks and slashes ends where these first stand side by side. -/
def EndsComment (body : List Char) : Prop :=
  ∀ i < body.length, ¬ ['*', '/'] <+: (body ++ ['*', '/']).drop i

/-- Whitespace and complete comments, before some text. A comment on a line ends before the next one. -/
inductive Gap : List Char → List Char → Prop
  | nil (rest : List Char) : Gap [] rest
  | space {c : Char} {u rest : List Char} (hc : isSpace c = true) (h : Gap u rest) : Gap (c :: u) rest
  | line {body u rest : List Char} (hbody : '\n' ∉ body) (hend : ∀ c ∈ (u ++ rest).head?, c = '\n')
      (h : Gap u rest) : Gap ('/' :: '/' :: (body ++ u)) rest
  | block {body u rest : List Char} (hbody : EndsComment body) (h : Gap u rest) :
      Gap ('/' :: '*' :: (body ++ '*' :: '/' :: u)) rest

/-- No lexeme with which the text begins is longer. -/
def Longest (lexeme text : List Char) : Prop :=
  ∀ type value lexeme', IsLexeme type value lexeme' → lexeme' <+: text → lexeme'.length ≤ lexeme.length

/-- The text is made up of gaps and of the lexemes of the tokens, each the longest at its place. -/
inductive Lexes : List Char → List LexToken → Prop
  | done {gap : List Char} (hg : Gap gap []) : Lexes gap []
  | token {gap lexeme rest : List Char} {t : LexToken} {ts : List LexToken} (hg : Gap gap (lexeme ++ rest))
      (ht : IsLexeme t.type t.value lexeme) (hl : Longest lexeme (lexeme ++ rest)) (h : Lexes rest ts) :
      Lexes (gap ++ (lexeme ++ rest)) (t :: ts)

/-! ## Comments -/

/-- What a place in a text is in. -/
inductive TextPart
  | code
  | line
  | block
  | string (quote : Char)

/-- Every comment between asterisks and slashes is closed, in a text that begins in some part. -/
def closedFrom : TextPart → List Char → Bool
  | .block, [] => false
  | _, [] => true
  | .code, '/' :: '/' :: cs => closedFrom .line cs
  | .code, '/' :: '*' :: cs => closedFrom .block cs
  | .code, c :: cs => closedFrom (if c = '"' ∨ c = '\'' then .string c else .code) cs
  | .line, c :: cs => closedFrom (if c = '\n' then .code else .line) cs
  | .block, '*' :: '/' :: cs => closedFrom .code cs
  | .block, _ :: cs => closedFrom .block cs
  | .string quote, c :: cs => closedFrom (if c = quote then .code else .string quote) cs

def commentsClosed (text : List Char) : Bool := closedFrom .code text

/-! ## The next piece -/

/-- What a text begins with, and what comes after it. -/
inductive Piece
  | gap (text rest : List Char)
  | token (type : LexTokenType) (value : String) (lexeme rest : List Char)
  /-- a comment without an end -/
  | unclosed
  | invalid
  deriving DecidableEq

/-- The text of a comment up to its end. -/
def splitComment : List Char → Option (List Char × List Char)
  | [] => none
  | '*' :: '/' :: cs => some ([], cs)
  | c :: cs => (splitComment cs).map fun (body, rest) => (c :: body, rest)

def nextString (quote : Char) (cs : List Char) : Piece :=
  match cs.dropWhile (· != quote) with
  | [] => .invalid
  | _ :: rest =>
    let value := cs.takeWhile (· != quote)
    .token .tString (String.ofList value) (quote :: (value ++ [quote])) rest

def nextNumber (text : List Char) : Piece :=
  let digits := text.takeWhile Char.isDigit
  .token .tIntLit (String.ofList digits) digits (text.dropWhile Char.isDigit)

def nextWord (text : List Char) : Piece :=
  let word := text.takeWhile isWordChar
  .token ((keywords.lookup (String.ofList word)).getD .tIdentifier) (String.ofList word) word
    (text.dropWhile isWordChar)

/-- What is no gap and no operator of more than one character. -/
def nextOther (c : Char) (cs : List Char) : Piece :=
  match chartokens.lookup c with
  | some type => .token type c.toString [c] cs
  | none =>
    if c = '"' ∨ c = '\'' then nextString c cs
    else if c.isDigit then nextNumber (c :: cs)
    else if c.isAlpha ∨ c = '_' then nextWord (c :: cs)
    else .invalid

/-- The piece with which a text begins. -/
def nextPiece (text : List Char) : Piece :=
  match text with
  | [] => .invalid
  | '/' :: '/' :: _ => .gap (text.takeWhile (· != '\n')) (text.dropWhile (· != '\n'))
  | '/' :: '*' :: cs =>
    match splitComment cs with
    | some (body, rest) => .gap ('/' :: '*' :: (body ++ ['*', '/'])) rest
    | none => .unclosed
  | c :: cs =>
    if isSpace c then .gap [c] cs
    else
      match multicharOperators.find? (·.isPrefixOf text) with
      | some lexeme => .token .tBinaryOperator (String.ofList lexeme) lexeme (text.drop lexeme.length)
      | none => nextOther c cs

/-! ## Pieces in a row -/

/-- The text begins with gaps and with lexemes of these keys, and goes on with a rest. -/
inductive Pieces : List Char → List Key → List Char → Prop
  | nil (rest : List Char) : Pieces rest [] rest
  | gap {text u r rest : List Char} {keys : List Key} (h : nextPiece text = .gap u r)
      (hrest : Pieces r keys rest) : Pieces text keys rest
  | token {text lexeme r rest : List Char} {type : LexTokenType} {value : String} {keys : List Key}
      (h : nextPiece text = .token type value lexeme r) (hrest : Pieces r keys rest) :
      Pieces text ((type, value) :: keys) rest

/-- A comment without an end is the first thing that is no gap and no lexeme. -/
def ReachesUnclosed (text : List Char) : Prop := ∃ keys rest, Pieces text keys rest ∧ nextPiece rest = .unclosed

/-- The analysis stays in the buffer. It succeeds only where every comment is closed, and else ends with an
error in the text. -/
def AnalyzesSafely (n : Nat) (filename : String) (buf : List Char) : Prop :=
  match lexAnalyze n (lexInit filename buf) with
  | .ok _ lex => lex.index ≤ buf.length ∧ lex.pastEnd = false ∧ commentsClosed buf = true
  | .error e lex => lex.index ≤ buf.length ∧ lex.pastEnd = false ∧ e.isSyntax

/-! ## Printing -/

/-- The text of a token, where a string has double quotes unless it contains one. -/
def printToken (t : Key) : List Char :=
  if t.1 = .tString then
    let quote := if '"' ∈ t.2.toList then '\'' else '"'
    quote :: (t.2.toList ++ [quote])
  else t.2.toList

def printTokens (ts : List Key) : List Char := [' '].intercalate (ts.map printToken)

end Blaze
