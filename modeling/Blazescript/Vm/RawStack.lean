import Blazescript.Vm.Stack

/-!
# The accesses of `stack.c`

The stack with nothing known of its index: an access that falls outside the allocation is an outcome of
its own, and what `xrealloc` adds to a block is whatever lies there. Beside it the stack that the calls
are about, a list of bytes with the last one pushed first.
-/

namespace Blaze.Vm

/-- How a call of the stack goes wrong. -/
inductive StackFault
  /-- `fatal_error("Stack is empty")`. -/
  | empty
  /-- An access outside the allocation. -/
  | outside
  deriving DecidableEq, Repr

/-- `blaze_stack_t`: the bytes of the allocation, and the two numbers beside them. -/
structure RawStack where
  bytes : List UInt8
  size : Nat
  index : Nat
  deriving DecidableEq, Repr

/-- A call of the stack. -/
inductive StackOp
  | push (byte : UInt8)
  | pop
  deriving DecidableEq, Repr

namespace RawStack

section Growth

-- The byte that lies at each place of a block when it is given out.
variable (fresh : Nat → UInt8)

/-- `xrealloc`: the block keeps what it holds, as far as it still fits. -/
def xrealloc (bytes : List UInt8) (size : Nat) : List UInt8 :=
  bytes.take size ++ (List.range' bytes.length (size - bytes.length)).map fresh

/-- `blaze_stack_create`. -/
def create (initialSize : Nat) : RawStack :=
  { bytes := List.replicate initialSize 0, size := initialSize, index := 0 }

/-- `stack_check_realloc`. -/
def checkRealloc (stack : RawStack) : RawStack :=
  if stack.index ≥ stack.size then
    { stack with size := stack.size + 50, bytes := xrealloc fresh stack.bytes (stack.size + 50) }
  else stack

/-- `blaze_stack_push_byte`. -/
def pushByte (stack : RawStack) (byte : UInt8) : Except StackFault RawStack :=
  let grown := stack.checkRealloc fresh
  if grown.index < grown.bytes.length then
    .ok { grown with bytes := grown.bytes.set grown.index byte, index := grown.index + 1 }
  else .error .outside

/-- `blaze_stack_pop_byte`. -/
def popByte (stack : RawStack) : Except StackFault (UInt8 × RawStack) :=
  if stack.index = 0 then .error .empty
  else
    match stack.bytes[stack.index - 1]? with
    | some byte => .ok (byte, { stack with index := stack.index - 1 })
    | none => .error .outside

/-- Some calls one after the other, and the bytes that the pops among them return. -/
def runAll : RawStack → List StackOp → Except StackFault (List UInt8 × RawStack)
  | stack, [] => .ok ([], stack)
  | stack, .push byte :: ops => do runAll (← stack.pushByte fresh byte) ops
  | stack, .pop :: ops => do
    let (byte, stack) ← stack.popByte
    let (popped, stack) ← runAll stack ops
    pure (byte :: popped, stack)

end Growth

/-- The bytes below the index, the last one first. -/
def content (stack : RawStack) : List UInt8 := (stack.bytes.take stack.index).reverse

/-- The allocation has the size that the stack says it has, and the index does not exceed it. -/
structure Inv (stack : RawStack) : Prop where
  length_bytes : stack.bytes.length = stack.size
  index_le : stack.index ≤ stack.size

end RawStack

/-- The calls on a list of bytes: a pop takes the byte that was pushed last. Nothing if one meets an
empty list. -/
def StackOp.runAll : List UInt8 → List StackOp → Option (List UInt8 × List UInt8)
  | bytes, [] => some ([], bytes)
  | bytes, .push byte :: ops => runAll (byte :: bytes) ops
  | [], .pop :: _ => none
  | byte :: bytes, .pop :: ops => do
    let (popped, bytes) ← runAll bytes ops
    pure (byte :: popped, bytes)

/-- A stack of the machine, its invariant left out. -/
def BlazeStack.raw (stack : BlazeStack) : RawStack :=
  { bytes := stack.bytes, size := stack.size, index := stack.index }

end Blaze.Vm
