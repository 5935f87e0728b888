import Blazescript.Syntax.Parser
import Blazescript.Syntax.Positions
import Mathlib.Data.Nat.Log

/-!
# `errmsg.c`

What the messages about errors print. The integer part of `log10l` is `Nat.log 10`.
-/

namespace Blaze

/-- What is written to `stderr`: characters, and the escape sequences for colours. -/
inductive Printed
  | char (c : Char)
  | escape (code : String)
  deriving DecidableEq, Repr

/-- The characters that are printed, without the colours. -/
def printedText (out : List Printed) : List Char :=
  out.filterMap fun
    | .char c => some c
    | .escape _ => none

def printChars (cs : List Char) : List Printed := cs.map .char

def printString (s : String) : List Printed := printChars s.toList

/-- `enum error_type`. -/
inductive ErrorType
  | errSyntax | errEval | errCompile | errFatal
  deriving DecidableEq, Repr

/-- `error_type_to_str`. -/
def errorTypeToStr : ErrorType → String
  | .errSyntax => "syntax error"
  | .errEval => "error"
  | .errCompile => "error"
  | .errFatal => "fatal"

/-- `errmsg_print_msg_internal`, with the message that comes of the format and its arguments. -/
def errmsgPrintMsgInternal (type : ErrorType) (filename : String) (lineStart colStart : Nat) (msg : String) :
    List Printed :=
  .escape "[1;31m" :: printString (errorTypeToStr type ++ ":") ++ .escape "[0m" :: printString " " ++
    .escape "[1m" :: printString (filename ++ ":" ++ toString lineStart ++ ":" ++ toString colStart ++ ":") ++
    .escape "[0m" :: printString (" " ++ msg ++ "\n")

/-- A loop that prints spaces. -/
def printSpaces (n : Nat) : List Printed := printChars (List.replicate n ' ')

/-- The line below the source: its loop starts at `max_spaces + 2` and ends at -1. -/
def printCarets (maxSpaces colStart colEnd : Nat) : List Printed :=
  printSpaces (maxSpaces + 3) ++ .escape "[1;31m" ::
    (printChars ((List.range colEnd).map fun i => if i ≥ colStart then '^' else ' ') ++
      [.escape "[0m", .char '\n'])

/-- A line of the source, which the text begins with, and its number before it. -/
def printSrcLine (maxSpaces line : Nat) (rest : List Char) : List Printed :=
  printSpaces (maxSpaces - Nat.log 10 line) ++ printString (toString line ++ " | ") ++
    printChars (rest.takeWhile fun c => !isLineBreak c) ++ [.char '\n']

/-- What the index has not passed after the loop over the characters of a line, where there is one. -/
def restOfLine (isPrinted : Bool) (rest : List Char) : List Char :=
  if isPrinted then rest.dropWhile fun c => !isLineBreak c else rest

theorem length_restOfLine_tail (isPrinted : Bool) (c : Char) (cs : List Char) :
    (restOfLine isPrinted (c :: cs)).tail.length < (c :: cs).length := by
  have hle : (restOfLine isPrinted (c :: cs)).length ≤ (c :: cs).length := by
    unfold restOfLine
    split
    · exact (List.dropWhile_suffix _).length_le
    · exact Nat.le_refl _
  rw [List.length_tail]
  rw [List.length_cons] at hle ⊢
  omega

/-- The loop of `errmsg_print_formatted_src_lines`, at a line and with the rest of the buffer. It moves on from
the character at which a line that it prints ends too. -/
def printSrcLinesFrom (lineStart lineEnd colStart colEnd maxSpaces line : Nat) (skip : Bool) :
    List Char → List Printed
  | [] => []
  | c :: cs =>
    if line = lineEnd then printCarets maxSpaces colStart colEnd
    else
      let isPrinted := !skip || line = lineStart
      let rest := restOfLine isPrinted (c :: cs)
      (if isPrinted then printSrcLine maxSpaces line (c :: cs) else []) ++
        printSrcLinesFrom lineStart lineEnd colStart colEnd maxSpaces
          (if rest.head?.any isLineBreak then line + 1 else line) (skip && !isPrinted) rest.tail
termination_by rest => rest.length
decreasing_by exact length_restOfLine_tail _ c cs

/-- `errmsg_print_formatted_src_lines`. -/
def errmsgPrintFormattedSrcLines (lineStart lineEnd colStart colEnd : Nat) (buf : List Char) : List Printed :=
  printSrcLinesFrom lineStart lineEnd colStart colEnd (3 + Nat.log 10 lineEnd) 1 true buf

/-- `errmsg_print_formatted`. -/
def errmsgPrintFormatted (lineStart lineEnd colStart colEnd : Nat) (buf : List Char) (filename : String)
    (type : ErrorType) (msg : String) : List Printed :=
  errmsgPrintMsgInternal type filename lineStart colStart msg ++
    errmsgPrintFormattedSrcLines lineStart lineEnd colStart colEnd buf

/-- What the call in `PARSER_ERROR_ARGS` prints for a token. -/
def printSyntaxError (filename : String) (filebuf : List Char) (token : LexToken) (msg : String) : List Printed :=
  errmsgPrintFormatted token.lineStart (token.lineEnd + 1) token.columnStart token.columnEnd filebuf filename
    .errSyntax msg

/-! ## Carets -/

/-- What stands before a line: spaces, the number of the line and a bar. -/
def lineMargin (indent line : Nat) : List Char :=
  List.replicate indent ' ' ++ (toString line ++ " | ").toList

/-- The line that a text ends in, up to its own end, and a line of carets below it, under the lexeme that comes
after the text. -/
def IsUnderlined (printed before lexeme after : List Char) : Prop :=
  ∃ indent, printed = lineMargin indent (lineAfter before) ++ (lastLine before ++ (lexeme ++
      after.takeWhile fun c => !isLineBreak c)) ++ ['\n'] ++
    (List.replicate ((lineMargin indent (lineAfter before)).length + (lastLine before).length) ' ' ++
      List.replicate lexeme.length '^' ++ ['\n'])

/-- The error at a token is printed with the line of the token, and carets under the token. -/
def Span.IsPointedAt (span : Span) (filename : String) (filebuf : List Char) (msg : String) (after : List Char) : Prop :=
  ∃ printed, printedText (printSyntaxError filename filebuf span.token msg) =
      printedText (errmsgPrintMsgInternal .errSyntax filename span.token.lineStart span.token.columnStart msg) ++ printed ∧
    IsUnderlined printed span.before span.lexeme after

end Blaze
