import Blazescript.Language.Represents
import Blazescript.Syntax.Stmt

/-!
# `blaze.c`

The interpreter, from the text of a file to what the program in it does.
-/

namespace Blaze

open Running Tracing

/-- What becomes of a file. -/
inductive Processed
  | lexError (e : LexError)
  | parserError (e : ParserError)
  | ran (result : EStateM.Result Err (World Machine Event) Val)

/-- `process_file`, up to where the memory is freed. One number bounds the loops of the lexer and the parser, the other
one the evaluation. -/
def processFile (bound fuel : Nat) (filename : String) (buf : List Char) (stdin : List String) (strerror : String) :
    Processed :=
  match lexAnalyze bound (lexInit filename buf) with
  | .error e _ => .lexError e
  | .ok _ lex =>
    match parserCreateAstNode bound (.init lex.tokens (some filename)) with
    | .error e _ => .parserError e
    | .ok node _ => .ran (runProgram fuel node stdin strerror)

/-! ## Places -/

/-- Why a program stops early, without the place. -/
def Halt.erase : Halt → Halt
  | .runtimeError _ msg => .runtimeError .unknown msg
  | halt => halt

/-- The same happens, except for the places of errors. -/
abbrev SameMeaning {α : Type} (x y : Meaning α) : Prop :=
  Refines (fun _ => False) Eq x y (fun a memory b memory' => a = b ∧ memory = memory')
    fun halt memory halt' memory' => halt.erase = halt'.erase ∧ memory = memory'

/-- The evaluator has stopped as the program has, at whatever place, and has written the same. -/
def StopsSomewhere (e : Err) (w : World Machine Event) (halt : Halt) (memory : Memory) : Prop :=
  ∃ halt', halt'.erase = halt.erase ∧ Stops e w halt' memory

/-- A file is accepted and run, and the run ends as a tree means, if the bounds are large enough. -/
def ProcessedAsMeant (filename : String) (buf : List Char) (root : AstNode) : Prop :=
  ∃ m, ∀ bound ≥ m, ∃ n, ∀ fuel ≥ n, ∀ stdin strerror, ∃ result,
    processFile bound fuel filename buf stdin strerror = .ran result ∧
      Running.Agrees Unspecified (fun v w value memory => v.Is value ∧ HasWritten w memory) StopsSomewhere result
        (meaning root .start)

end Blaze
