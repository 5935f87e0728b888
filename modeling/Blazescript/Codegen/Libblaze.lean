import Blazescript.Arena.Heap
import Blazescript.Codegen.Convention
import Blazescript.Codegen.GnuAs
import Blazescript.Eval.Eval

/-!
# `value.c`

The functions of the runtime library, and what a program writes: the code of the back end with the library,
and the program in the interpreter.
-/

namespace Blaze

open Arena Running

/-! ## The library -/

/-- `val_t`, of the types that the library makes. -/
inductive LibVal
  | integer (intval : Int)
  | string (strval : List Char)
  deriving DecidableEq

/-- The values that have been allocated, and what has been written. -/
structure LibWorld where
  vals : Heap LibVal
  stdout : List Char

/-- `print_val_internal`, for these types. -/
def LibVal.printInternal (quoteStrings : Bool) : LibVal → List Char
  | integer intval => "\x1b[1;33m".toList ++ (toString intval).toList ++ "\x1b[0m".toList
  | string strval =>
    let quote := if quoteStrings then ['"'] else []
    "\x1b[32m".toList ++ quote ++ strval ++ quote ++ "\x1b[0m".toList

/-- `print_val`. -/
def LibVal.print (val : LibVal) : List Char := val.printInternal true ++ ['\n']

/-- The value that a pointer points to. -/
def LibWorld.read (w : LibWorld) (pointer : Int) : Option LibVal :=
  if 0 ≤ pointer then w.vals.read pointer.toNat else none

/-- The bytes at a label of the data, where the assembler has put them. -/
def stringAt (data : List AsmDataLbl) (address : Int) : Option (List Char) :=
  if 0 ≤ address then
    data[address.toNat]?.bind fun lbl => (decodeOperand lbl.param).map Prod.fst
  else none

/-- A new value, and the pointer to it. -/
def LibWorld.create (w : LibWorld) (val : LibVal) : Option Int × LibWorld :=
  (some w.vals.size, { w with vals := w.vals.alloc val })

/-- The loop of `libblaze_fn_println` over the rest of its arguments, and the end. -/
def printlnFrom (w : LibWorld) (newline : Bool) (out : List Char) : List Int → Option (List Char)
  | [] => some (if newline then out ++ ['\n'] else out)
  | arg :: args =>
    let space := if args.isEmpty then [] else [' ']
    (w.read arg).bind fun val =>
      match val with
      | .string strval => printlnFrom w newline (out ++ strval ++ space) args
      | val => printlnFrom w false (out ++ val.print ++ space) args

/-- `libblaze_fn_println`, with the arguments where `va_arg` finds them. -/
def libblazeFnPrintln (cpu : Cpu) (w : LibWorld) : Option (List Char) :=
  printlnFrom w true [] ((List.range (cpu.argument 0).toNat).map fun i => cpu.argument (i + 1))

/-- `libblaze_val_free`. -/
def libblazeValFree (w : LibWorld) (pointer : Int) : Option LibWorld :=
  (w.read pointer).map fun _ => { w with vals := w.vals.free pointer.toNat }

/-- A call of the library: what it returns, and the world after it. -/
def libblazeCall (data : List AsmDataLbl) (f : String) (cpu : Cpu) (w : LibWorld) :
    Option (Option Int × LibWorld) :=
  if f = "libblaze_val_create_intval" then some (w.create (.integer (cpu.argument 0)))
  else if f = "libblaze_val_create_strval" then
    (stringAt data (cpu.argument 0)).map fun strval => w.create (.string strval)
  else if f = "libblaze_fn_println" then
    (libblazeFnPrintln cpu w).map fun out => (none, { w with stdout := w.stdout ++ out })
  else if f = "libblaze_val_free" then (libblazeValFree w (cpu.argument 0)).map fun w => (none, w)
  else none

/-- The machine after a call. What the callee need not save, and the stack below, is left as it happens to
be. -/
def Cpu.returnFrom (cpu scratch : Cpu) (value : Option Int) : Cpu where
  reg r :=
    if r = .rbx ∨ r = .rsp ∨ r = .rbp then cpu.reg r
    else if r = .rax then value.getD (scratch.reg .rax)
    else scratch.reg r
  mem a := if cpu.reg .rsp ≤ a then cpu.mem a else scratch.mem a

/-- The library. There is no world after a call that reads what it may not. -/
def libblaze (data : List AsmDataLbl) (scratch : String → Cpu → Cpu) : Runtime (Option LibWorld) where
  labelAddress label := (data.map AsmDataLbl.label).idxOf label
  call f cpu w :=
    let ret := w.bind (libblazeCall data f cpu)
    (cpu.returnFrom (scratch f cpu) (ret.bind Prod.fst), ret.map Prod.snd)
  keeps := by
    intro f cpu w r hr
    have hr' : r = .rbx ∨ r = .rsp ∨ r = .rbp := by simpa using hr
    exact if_pos hr'
  keepsStack := by
    intro f cpu w a ha
    exact if_pos ha

/-! ## What a program writes -/

/-- The compiled program ends, having written some bytes. -/
def WritesCompiled (root : AsmNode) (data : List AsmDataLbl) (scratch : String → Cpu → Cpu) (cpu : Cpu)
    (bytes : List Char) : Prop :=
  ∃ p, ∃ vals : Heap LibVal,
    Reaches (Process.step (libblaze data scratch) root.lines)
      (Process.start root.lines cpu (some ⟨.empty, []⟩)) p ∧
    p.pc = root.lines.length ∧ p.world = some ⟨vals, bytes⟩

/-- The bytes of text. A quotient has no text here. -/
def Output.text? : Output → Option (List Char)
  | .text s => some s.toList
  | .longDouble _ _ => none

/-- The bytes of some output. -/
def outputBytes (out : List Output) : Option (List Char) := (out.mapM Output.text?).map List.flatten

/-- The interpreter comes to the end of the program, having written some bytes. -/
def WritesInterpreted (root : AstNode) (stdin : List String) (strerror : String) (bytes : List Char) : Prop :=
  ∃ enough, ∀ fuel, enough ≤ fuel → ∃ v w, runProgram fuel root stdin strerror = .ok v w ∧
    outputBytes w.state.store.stdout = some bytes

end Blaze
