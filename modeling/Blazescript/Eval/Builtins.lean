import Blazescript.Eval.Step

/-!
# `lib.c` and `print.c`

The built-in functions. `rec` evaluates a node and `gas` bounds the number of iterations of a loop.
-/

namespace Blaze

open Arena Tracing

/-- `print_val_internal`; `fuel` bounds the nesting of arrays. -/
def printValInternal (m : Machine) : Nat → Bool → Val → Option (List Output)
  | 0, _, _ => none
  | fuel + 1, quoteStrings, v =>
    match v.data with
    | .integer intval => some [.text ("\x1b[1;33m" ++ toString intval ++ "\x1b[0m")]
    | .float num den => some [.text "\x1b[1;33m", .longDouble num den, .text "\x1b[0m"]
    | .string s =>
      (m.store.strings.read s).map fun text =>
        let quote := if quoteStrings then "\"" else ""
        [.text ("\x1b[32m" ++ quote ++ text ++ quote ++ "\x1b[0m")]
    | .boolean boolval =>
      some [.text ("\x1b[36m" ++ (if boolval then "true" else "false") ++ "\x1b[0m")]
    | .null => some [.text "\x1b[2mnull\x1b[0m"]
    | .array a =>
      (m.store.vectors.read a).bind fun data =>
        (data.mapM fun slot =>
          (m.slotValue slot).bind (printValInternal m fuel true)).map fun elements =>
          [.text ("\x1b[34mArray (" ++ toString data.length ++ ")\x1b[0m [")] ++
            [.text ", "].intercalate elements ++ [.text "]"]
    | .function f =>
      (m.fns.read f).map fun fn =>
        [.text ("\x1b[2m[Function" ++ (if fn.builtInCallback.isNone then "" else " Built-in") ++
          "]\x1b[0m")]

/-- `printf`. -/
def writeOut (out : List Output) : Eval Unit :=
  updateStore fun store => { store with stdout := store.stdout ++ out }

/-- Sets `eval_fn_error` and returns `*scope->null`. -/
def failFn (msg : String) : Eval Val := do
  updateStore fun store => { store with evalFnError := some msg }
  giveValue nullVal

/-- The loop of `print`. -/
def printArgs : List Val → Eval Unit
  | [] => pure ()
  | arg :: args => do
    let out ← Recorder.readOrThrow .undefined fun m =>
      match arg.data with
      | .string s => (m.store.strings.read s).map fun text => [.text text]
      | _ => printValInternal m (m.store.vectors.size + 1) false arg
    writeOut (if args.isEmpty then out else out ++ [.text " "])
    printArgs args

/-- `print`. -/
def builtinPrint (args : List Val) : Eval Val :=
  if args.isEmpty then
    failFn "function println() requires at least 1 argument to be passed"
  else do
    printArgs args
    giveValue nullVal

/-- `println`. -/
def builtinPrintln (args : List Val) : Eval Val := do
  let ret ← builtinPrint args
  writeOut [.text "\n"]
  pure ret

/-- `exit`. -/
def builtinExit (args : List Val) : Eval Val :=
  match args with
  | [] => throw (.exit 0)
  | arg :: _ =>
    match arg.data with
    | .integer intval => throw (.exit (intval % 256))
    | _ => failFn "#1 argument passed to function exit() must be an integer"

/-- `read`. The line loses its newline. -/
def builtinRead : Eval Val := do
  let lines ← getStore fun store => some store.stdin
  match lines with
  | [] => do
    let strerror ← getStore fun store => some store.strerror
    failFn ("read(): failed to read from stdin: " ++ strerror)
  | line :: rest => do
    updateStore fun store => { store with stdin := rest }
    let s ← newString line
    giveValue (.ofData (.string s))

/-- The loop of `array`. -/
def pushCopies (vector : Nat) : List Val → Eval Unit
  | [] => pure ()
  | arg :: args => do
    let copy ← valCopyDeep arg
    vectorPush vector copy.selfPtr
    pushCopies vector args

/-- `array`, under the name `vector`. -/
def builtinArray (args : List Val) : Eval Val := do
  let vector ← vectorInit
  pushCopies vector args
  giveValue (.ofData (.array vector))

/-! ## `array_filter` -/

def readFn (f : Nat) : Eval FnVal := Recorder.readOrThrow .undefined fun m => m.fns.read f

/-- The parameters of a callback; the status is not looked at. -/
def declareCallbackParams (newScope : Nat) (testVal : Val) : List String → Eval Unit
  | [] => pure ()
  | name :: names => do
    let _ ← declareParam newScope name testVal
    declareCallbackParams newScope testVal names

/-- The statements of a callback, from the `i`-th on. -/
def callbackBody (rec : Nat → AstNode → Eval Val) (f newScope : Nat) :
    Nat → Nat → Val → Eval Val
  | 0, _, _ => throw .outOfFuel
  | gas + 1, i, ret => do
    let fn ← readFn f
    match fn.customBody[i]? with
    | some stmt => do
      let ret ← callEval rec (some f) newScope stmt
      callbackBody rec f newScope gas (i + 1) ret
    | none => pure ret

/-- `array_filter_call_fn`. A built-in function has neither parameters nor statements. -/
def arrayFilterCallFn (rec : Nat → AstNode → Eval Val) (gas scope f : Nat) (testVal : Val) :
    Eval Bool := do
  let fn ← readFn f
  match fn.scope with
  | some newScope => do
    activate f newScope
    declareCallbackParams newScope testVal fn.paramNames
    let ret ← callbackBody rec f newScope gas 0 nullVal
    rescope f scope
    pure (ret.data = .boolean true)
  | none => do
    rescope f scope
    pure false

/-- Keeps an element for which the callback returned `true`. -/
def keepElement (newVector : Nat) (slot : Option Nat) : Bool → Eval Unit
  | true => vectorPush newVector slot
  | false => pure ()

/-- The loop of `array_filter`, from the `i`-th element on. -/
def arrayFilterLoop (rec : Nat → AstNode → Eval Val) (scope f vector newVector : Nat) :
    Nat → Nat → Eval Unit
  | 0, _ => throw .outOfFuel
  | gas + 1, i => do
    let data ← getStore fun store => store.vectors.read vector
    match data[i]? with
    | some slot => do
      let orig ← readSlot slot
      let testVal ← valCopyDeep orig
      let keep ← arrayFilterCallFn rec gas scope f testVal
      let data ← getStore fun store => store.vectors.read vector
      keepElement newVector (data[i]?.getD none) keep
      arrayFilterLoop rec scope f vector newVector gas (i + 1)
    | none => pure ()

/-- `array_filter`. -/
def builtinArrayFilter (rec : Nat → AstNode → Eval Val) (gas scope : Nat) (args : List Val) :
    Eval Val :=
  match args with
  | [array, callback] => do
    let (f, fn) ← Recorder.readOrThrow .undefined fun m => m.fnOf callback
    if fn.paramNames.length > 1 then
      failFn "callback function passed to array_filter() must accept less than 2 arguments"
    else do
      let newVector ← vectorInit
      match array.data with
      | .array vector => do
        arrayFilterLoop rec scope f vector newVector gas 0
        giveValue (.ofData (.array newVector))
      | _ => throw .undefined
  | _ =>
    failFn
      "function array_filter() requires exactly 2 arguments (vector, function) to be passed"

/-- The call of `built_in_callback`. -/
def callBuiltin (rec : Nat → AstNode → Eval Val) (gas scope : Nat) (callback : BuiltinFn)
    (args : List Val) : Eval Val :=
  match callback with
  | .println => builtinPrintln args
  | .print => builtinPrint args
  | .array => builtinArray args
  | .arrayFilter => builtinArrayFilter rec gas scope args
  | .read => builtinRead
  | .exit => builtinExit args

end Blaze
