import Mathlib.Order.Nat
import Blazescript.Arena.Proofs.BlockProofs
import Blazescript.Vm.RawStack

/-!
# Proofs: the accesses of `stack.c`

The stack is grown before the byte is written, and the index is only ever moved over bytes that have
been written.
-/

namespace Blaze.Vm

open Arena

namespace RawStack

variable {fresh : Nat → UInt8} {stack : RawStack} {byte : UInt8}

/-! ## One call -/

theorem inv_create (initialSize : Nat) : (create initialSize).Inv where
  length_bytes := List.length_replicate
  index_le := Nat.zero_le _

theorem length_xrealloc (fresh : Nat → UInt8) (bytes : List UInt8) (size : Nat) :
    (xrealloc fresh bytes size).length = size := by
  unfold xrealloc
  rw [List.length_append, List.length_take, List.length_map, List.length_range']
  omega

theorem take_xrealloc {bytes : List UInt8} {size n : Nat} (hn : n ≤ bytes.length) (hsize : bytes.length ≤ size) :
    (xrealloc fresh bytes size).take n = bytes.take n := by
  unfold xrealloc
  rw [List.take_of_length_le hsize]
  exact List.take_append_of_le_length hn

theorem inv_checkRealloc (h : stack.Inv) : (stack.checkRealloc fresh).Inv := by
  unfold checkRealloc
  by_cases hfull : stack.index ≥ stack.size
  · rw [if_pos hfull]
    have hindex := h.index_le
    exact ⟨length_xrealloc _ _ _, by show stack.index ≤ stack.size + 50; omega⟩
  · rw [if_neg hfull]
    exact h

theorem index_lt_checkRealloc (fresh : Nat → UInt8) (h : stack.Inv) :
    (stack.checkRealloc fresh).index < (stack.checkRealloc fresh).bytes.length := by
  have hindex := h.index_le
  rw [(inv_checkRealloc h).length_bytes]
  unfold checkRealloc
  by_cases hfull : stack.index ≥ stack.size
  · rw [if_pos hfull]
    show stack.index < stack.size + 50
    omega
  · rw [if_neg hfull]
    omega

theorem content_checkRealloc (fresh : Nat → UInt8) (h : stack.Inv) : (stack.checkRealloc fresh).content = stack.content := by
  unfold checkRealloc
  by_cases hfull : stack.index ≥ stack.size
  · rw [if_pos hfull]
    have hlength := h.length_bytes
    have hindex := h.index_le
    have hkept : (xrealloc fresh stack.bytes (stack.size + 50)).take stack.index = stack.bytes.take stack.index :=
      take_xrealloc (by omega) (by omega)
    exact congrArg List.reverse hkept
  · rw [if_neg hfull]

/-- A push is inside the allocation, and puts its byte on top. -/
theorem pushByte_spec (fresh : Nat → UInt8) (byte : UInt8) (h : stack.Inv) :
    ∃ stack', stack.pushByte fresh byte = .ok stack' ∧ stack'.Inv ∧ stack'.content = byte :: stack.content := by
  have hinv : (stack.checkRealloc fresh).Inv := inv_checkRealloc h
  have hlt : (stack.checkRealloc fresh).index < (stack.checkRealloc fresh).bytes.length := index_lt_checkRealloc fresh h
  refine ⟨_, if_pos hlt, ⟨?_, ?_⟩, ?_⟩
  · exact List.length_set.trans hinv.length_bytes
  · exact hlt.trans_eq hinv.length_bytes
  · have htake : ((stack.checkRealloc fresh).bytes.set (stack.checkRealloc fresh).index byte).take
        ((stack.checkRealloc fresh).index + 1) =
          (stack.checkRealloc fresh).bytes.take (stack.checkRealloc fresh).index ++ [byte] := by
      have hfits : (stack.checkRealloc fresh).index + [byte].length ≤ (stack.checkRealloc fresh).bytes.length := hlt
      exact take_storeAt hfits
    rw [← content_checkRealloc fresh h]
    exact (congrArg List.reverse htake).trans List.reverse_append

/-- A pop takes the byte on top. -/
theorem popByte_spec {bytes : List UInt8} (h : stack.Inv) (hcontent : stack.content = byte :: bytes) :
    ∃ stack', stack.popByte = .ok (byte, stack') ∧ stack'.Inv ∧ stack'.content = bytes := by
  have htake : stack.bytes.take stack.index = bytes.reverse ++ [byte] := by
    rw [← List.reverse_cons, ← hcontent]
    exact (List.reverse_reverse _).symm
  have hlength : stack.index = bytes.length + 1 := by
    have hle : stack.index ≤ stack.bytes.length := h.index_le.trans_eq h.length_bytes.symm
    have htaken : (stack.bytes.take stack.index).length = stack.index := List.length_take_of_le hle
    rw [← htaken, htake, List.length_append, List.length_reverse]
    rfl
  have hbyte : stack.bytes[stack.index - 1]? = some byte := by
    have hpred : stack.index - 1 = bytes.reverse.length := by
      rw [hlength, List.length_reverse]
      rfl
    have hlt : stack.index - 1 < stack.index := by omega
    rw [← List.getElem?_take_of_lt hlt, htake, hpred]
    exact List.getElem?_concat_length
  have hpop : stack.popByte = .ok (byte, { stack with index := stack.index - 1 }) := by
    unfold popByte
    rw [if_neg (by omega), hbyte]
  refine ⟨_, hpop, ⟨h.length_bytes, (Nat.sub_le _ _).trans h.index_le⟩, ?_⟩
  have hless : stack.bytes.take (stack.index - 1) = bytes.reverse := by
    have hmin : stack.index - 1 = min bytes.reverse.length stack.index := by
      rw [List.length_reverse]
      omega
    rw [hmin, ← List.take_take, htake]
    exact List.take_left' rfl
  exact (congrArg List.reverse hless).trans (List.reverse_reverse _)

/-! ## Runs -/

/-- As long as no pop meets an empty list, the stack does what the list does. -/
theorem runAll_spec (fresh : Nat → UInt8) {ops : List StackOp} {popped bytes : List UInt8} (h : stack.Inv)
    (hrun : StackOp.runAll stack.content ops = some (popped, bytes)) :
    ∃ stack', stack.runAll fresh ops = .ok (popped, stack') ∧ stack'.Inv ∧ stack'.content = bytes := by
  induction ops generalizing stack popped bytes with
  | nil =>
    cases hrun
    exact ⟨stack, rfl, h, rfl⟩
  | cons op ops ih =>
    cases op with
    | push byte =>
      obtain ⟨pushed, hpush, hinv, hcontent⟩ := pushByte_spec fresh byte h
      have hrest : StackOp.runAll pushed.content ops = some (popped, bytes) := by
        rw [hcontent]
        exact hrun
      obtain ⟨stack', hstack, hinv', hcontent'⟩ := ih hinv hrest
      refine ⟨stack', ?_, hinv', hcontent'⟩
      show stack.pushByte fresh byte >>= (fun pushed => pushed.runAll fresh ops) = _
      rw [hpush]
      exact hstack
    | pop =>
      cases hcontent : stack.content with
      | nil =>
        rw [hcontent] at hrun
        cases hrun
      | cons byte below =>
        obtain ⟨lower, hpop, hinv, hlower⟩ := popByte_spec h hcontent
        rw [hcontent] at hrun
        obtain ⟨⟨later, rest⟩, hlater, heq⟩ := Option.bind_eq_some_iff.mp hrun
        cases heq
        rw [← hlower] at hlater
        obtain ⟨stack', hstack, hinv', hcontent'⟩ := ih hinv hlater
        refine ⟨stack', ?_, hinv', hcontent'⟩
        unfold runAll
        rw [hpop]
        show (lower.runAll fresh ops >>= fun r => pure (byte :: r.1, r.2)) = _
        rw [hstack]
        rfl

end RawStack

theorem StackOp.runAll_append {bytes popped rest : List UInt8} {before after : List StackOp}
    (h : StackOp.runAll bytes (before ++ after) = some (popped, rest)) :
    ∃ first now, StackOp.runAll bytes before = some (first, now) := by
  induction before generalizing bytes popped rest with
  | nil => exact ⟨[], bytes, rfl⟩
  | cons op before ih =>
    cases op with
    | push byte => exact ih h
    | pop =>
      cases bytes with
      | nil => cases h
      | cons byte bytes =>
        obtain ⟨⟨later, rest'⟩, hlater, -⟩ := Option.bind_eq_some_iff.mp h
        obtain ⟨first, now, hfirst⟩ := ih hlater
        exact ⟨byte :: first, now, Option.bind_eq_some_iff.mpr ⟨_, hfirst, rfl⟩⟩

/-- Whatever size it starts with and however often it grows, a stack on which no pop meets an empty stack
accesses nothing outside its allocation, returns the bytes that a list of bytes returns, and never has an
index greater than its size. -/
theorem stack_is_stack (fresh : Nat → UInt8) (initialSize : Nat) (ops : List StackOp) (popped bytes : List UInt8)
    (h : StackOp.runAll [] ops = some (popped, bytes)) :
    (∃ stack, (RawStack.create initialSize).runAll fresh ops = .ok (popped, stack) ∧ stack.content = bytes) ∧
      ∀ before, before <+: ops → ∃ first stack,
        (RawStack.create initialSize).runAll fresh before = .ok (first, stack) ∧
          stack.index ≤ stack.size ∧ stack.bytes.length = stack.size := by
  have hinv : (RawStack.create initialSize).Inv := RawStack.inv_create initialSize
  refine ⟨?_, ?_⟩
  · obtain ⟨stack, hstack, -, hcontent⟩ := RawStack.runAll_spec fresh hinv h
    exact ⟨stack, hstack, hcontent⟩
  · rintro before ⟨after, rfl⟩
    obtain ⟨first, now, hfirst⟩ := StackOp.runAll_append h
    obtain ⟨stack, hstack, hinv', -⟩ := RawStack.runAll_spec fresh hinv hfirst
    exact ⟨first, stack, hstack, hinv'.index_le, hinv'.length_bytes⟩

theorem stack_is_stack_grown :
    ∃ stack, (RawStack.create 0).runAll (fun _ => 7) [.push 1, .push 2, .pop, .pop] = .ok ([2, 1], stack) ∧
      stack.content = [] :=
  (stack_is_stack (fun _ => 7) 0 [.push 1, .push 2, .pop, .pop] [2, 1] [] rfl).1

/-! ## The stack of the machine -/

namespace BlazeStack

theorem inv_raw (stack : BlazeStack) : stack.raw.Inv where
  length_bytes := stack.length_bytes
  index_le := stack.index_le

theorem raw_checkRealloc (stack : BlazeStack) : stack.checkRealloc.raw = stack.raw.checkRealloc fun _ => 0 := by
  have hgrown : RawStack.xrealloc (fun _ => 0) stack.bytes (stack.size + 50) =
      stack.bytes ++ List.replicate 50 0 := by
    have hle : stack.bytes.length ≤ stack.size + 50 := stack.length_bytes.trans_le (Nat.le_add_right _ _)
    have hsub : stack.size + 50 - stack.bytes.length = 50 := by
      rw [stack.length_bytes]
      omega
    unfold RawStack.xrealloc
    rw [List.take_of_length_le hle, List.map_const', List.length_range', hsub]
  unfold checkRealloc RawStack.checkRealloc
  by_cases hfull : stack.index ≥ stack.size
  · have hraw : stack.raw.index ≥ stack.raw.size := hfull
    rw [if_pos hfull, if_pos hraw]
    exact congrArg (RawStack.mk · (stack.size + 50) stack.index) hgrown.symm
  · have hraw : ¬ stack.raw.index ≥ stack.raw.size := hfull
    rw [if_neg hfull, if_neg hraw]

/-- What `push_r_b` pushes is a push of the stack, the block it grows holding zeros. -/
theorem raw_pushByte (stack : BlazeStack) (byte : UInt8) :
    stack.raw.pushByte (fun _ => 0) byte = .ok (stack.pushByte byte).raw := by
  have hlt := RawStack.index_lt_checkRealloc (fun _ => 0) stack.inv_raw
  unfold RawStack.pushByte
  rw [if_pos hlt, ← raw_checkRealloc]
  rfl

/-- What `pop_r_b` pops is a pop of the stack. -/
theorem raw_popByte (stack : BlazeStack) :
    stack.raw.popByte = stack.popByte.elim (.error .empty) fun r => .ok (r.1, r.2.raw) := by
  have hlength := stack.length_bytes
  have hindex := stack.index_le
  unfold RawStack.popByte popByte
  by_cases hempty : stack.index = 0
  · have hraw : stack.raw.index = 0 := hempty
    rw [dif_pos hempty, if_pos hraw]
    rfl
  · have hraw : ¬ stack.raw.index = 0 := hempty
    have hlt : stack.raw.index - 1 < stack.raw.bytes.length := by
      show stack.index - 1 < stack.bytes.length
      omega
    rw [dif_neg hempty, if_neg hraw, List.getElem?_eq_getElem hlt]
    rfl

end BlazeStack

end Blaze.Vm
