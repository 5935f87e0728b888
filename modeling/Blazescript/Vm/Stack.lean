import Mathlib.Data.List.Basic

/-!
# `stack.c`

The stack of the virtual machine: an allocation that grows, filled up to an index.
-/

namespace Blaze.Vm

/-- `blaze_stack_t`. What the allocation holds from `index` on is not used; after it has grown it is
taken to be zero. -/
structure BlazeStack where
  bytes : List UInt8
  size : Nat
  index : Nat
  length_bytes : bytes.length = size
  index_le : index ≤ size

namespace BlazeStack

/-- `blaze_stack_create`. -/
def create (initialSize : Nat) : BlazeStack :=
  ⟨List.replicate initialSize 0, initialSize, 0, by simp, by simp⟩

/-- `stack_check_realloc`. -/
def checkRealloc (stack : BlazeStack) : BlazeStack :=
  if stack.index ≥ stack.size then
    ⟨stack.bytes ++ List.replicate 50 0, stack.size + 50, stack.index,
      by simp [stack.length_bytes], by have := stack.index_le; omega⟩
  else stack

theorem index_lt_checkRealloc (stack : BlazeStack) :
    stack.checkRealloc.index < stack.checkRealloc.size := by
  unfold checkRealloc
  split_ifs with h
  · have := stack.index_le
    simp only
    omega
  · omega

/-- `blaze_stack_push_byte`. -/
def pushByte (stack : BlazeStack) (byte : UInt8) : BlazeStack :=
  let grown := stack.checkRealloc
  ⟨grown.bytes.set grown.index byte, grown.size, grown.index + 1,
    by simp [grown.length_bytes], stack.index_lt_checkRealloc⟩

/-- `blaze_stack_pop_byte`, which gives up on an empty stack. -/
def popByte (stack : BlazeStack) : Option (UInt8 × BlazeStack) :=
  if h : stack.index = 0 then none
  else
    some (stack.bytes.get ⟨stack.index - 1, by have := stack.length_bytes; have := stack.index_le; omega⟩,
      { stack with index := stack.index - 1, index_le := by have := stack.index_le; omega })

end BlazeStack

end Blaze.Vm
