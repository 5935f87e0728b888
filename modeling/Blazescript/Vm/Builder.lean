import Blazescript.Arena.Proofs.BlockProofs
import Blazescript.Tracing.Recorder
import Blazescript.Vm.Instr

/-!
# Building bytecode

The part of `bytecode.c` that appends to a `struct bytecode`, on a machine that stores the lowest byte of a number
first.
-/

namespace Blaze.Vm

open Arena Tracing

/-- `struct bytecode` with the block that `bytes` points to. A part of it that has not been written is taken to be
zero. -/
structure Builder where
  bytes : List UInt8
  size : Nat
  cap : Nat
  length_bytes : bytes.length = cap

namespace Builder

/-- `bytecode_init`. -/
def init : Builder := ⟨List.replicate 10 0, 0, 10, rfl⟩

/-- `bytecode_check_realloc`. -/
def checkRealloc (b : Builder) : Builder :=
  if b.size ≥ b.cap then
    ⟨b.bytes ++ List.replicate 20 0, b.size, b.cap + 20, by simp [b.length_bytes]⟩
  else b

/-- What the functions have in common. Bytes past the end of the block are written to memory that is not part of
it. -/
def pushBytes (b : Builder) (bytes : List UInt8) : Builder :=
  let b := b.checkRealloc
  ⟨storeAt b.bytes b.size bytes, b.size + bytes.length, b.cap, (length_storeAt ..).trans b.length_bytes⟩

/-- `bytecode_push_byte`. -/
def pushByte (b : Builder) (byte : UInt8) : Builder := b.pushBytes [byte]

/-- `bytecode_push_word`. -/
def pushWord (b : Builder) (word : UInt16) : Builder := b.pushBytes (leBytes 2 word.toUInt64)

/-- `bytecode_push_dword`. -/
def pushDword (b : Builder) (dword : UInt32) : Builder := b.pushBytes (leBytes 4 dword.toUInt64)

/-- `bytecode_push_qword`. -/
def pushQword (b : Builder) (qword : UInt64) : Builder := b.pushBytes (leBytes 8 qword)

/-- The bytes up to `size`. -/
def content (b : Builder) : List UInt8 := b.bytes.take b.size

end Builder

/-! ## Sequences of pushes -/

/-- A value that is pushed. -/
inductive Push
  | byte (x : UInt8)
  | word (x : UInt16)
  | dword (x : UInt32)
  | qword (x : UInt64)
  deriving DecidableEq, Repr

namespace Push

/-- The `sizeof` of the value. -/
def width : Push → Nat
  | byte _ => 1
  | word _ => 2
  | dword _ => 4
  | qword _ => 8

def value : Push → UInt64
  | byte x => x.toUInt64
  | word x => x.toUInt64
  | dword x => x.toUInt64
  | qword x => x

/-- The function that reads such a value. -/
def get (bytecode : Bytecode) (outside : Outside) : Push → UInt64 → Action UInt64
  | byte _ => bytecodeGetByte bytecode outside
  | word _ => bytecodeGetWord bytecode outside
  | dword _ => bytecodeGetDword bytecode outside
  | qword _ => bytecodeGetQword bytecode outside

end Push

/-- The function that pushes a value. -/
def Builder.push (b : Builder) : Push → Builder
  | .byte byte => b.pushByte byte
  | .word word => b.pushWord word
  | .dword dword => b.pushDword dword
  | .qword qword => b.pushQword qword

/-- Wherever the bytes lie, the value is read at an offset. -/
def Builder.Gives (b : Builder) (off : Nat) (push : Push) : Prop :=
  ∀ (bytecode : Bytecode) (outside : Outside) (s : State), bytecode.bytes = b.content →
    ∃ s', push.get bytecode outside (UInt64.ofNat off) s = .ok push.value s'

/-- The bytecode, and the values pushed to it with their offsets. -/
structure Building where
  builder : Builder
  pushed : List (Nat × Push)

inductive Building.Pushes : Building → Push → Building → Prop
  | push (s : Building) (push : Push) :
      Pushes s push ⟨s.builder.push push, (s.builder.size, push) :: s.pushed⟩

/-- The push has stayed in the block, and every value so far can be read. -/
structure Sound (step : Step Building Push) : Prop where
  size : step.post.builder.size ≤ step.post.builder.cap
  written : ∀ i < step.event.width, step.pre.builder.size + i < step.post.builder.bytes.length
  gives : ∀ p ∈ step.post.pushed, step.post.builder.Gives p.1 p.2

/-- The block is full, or there is room for the value. -/
def Roomy (step : Step Building Push) : Prop :=
  step.pre.builder.cap ≤ step.pre.builder.size ∨
    step.pre.builder.size + step.event.width ≤ step.pre.builder.cap

end Blaze.Vm
