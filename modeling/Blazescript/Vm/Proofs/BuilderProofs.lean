import Blazescript.Tracing.Proofs.RecorderProofs
import Blazescript.Vm.Builder
import Blazescript.Vm.Proofs.ReadsProofs

/-!
# Proofs: building bytecode

The block is grown when it is full, which makes room for any value. When it is not full there is room for a byte.
-/

namespace Blaze.Vm

open Arena Tracing

variable {b : Builder} {push : Push} {bytes : List UInt8} {s s' : Building}

/-! ## Values and bytes -/

theorem Push.value_lt (push : Push) : push.value.toNat < 2 ^ (8 * push.width) := by
  cases push with
  | byte x =>
    rw [value, UInt8.toNat_toUInt64]
    exact x.toNat_lt
  | word x =>
    rw [value, UInt16.toNat_toUInt64]
    exact x.toNat_lt
  | dword x =>
    rw [value, UInt32.toNat_toUInt64]
    exact x.toNat_lt
  | qword x => exact x.toNat_lt

theorem Push.width_le (push : Push) : push.width ≤ 8 := by
  cases push with
  | _ => exact Nat.le_of_ble_eq_true rfl

theorem Push.get_eq (push : Push) (bytecode : Bytecode) (outside : Outside) (addr : UInt64) :
    push.get bytecode outside addr = loadLittleEndian bytecode outside push.width (bytecode.base + addr) := by
  cases push with
  | _ => rfl

namespace Builder

/-- Each of the functions writes the bytes of the value. -/
theorem push_eq (b : Builder) (push : Push) : b.push push = b.pushBytes (leBytes push.width push.value) := by
  cases push with
  | byte x =>
    show b.pushBytes [x] = b.pushBytes [x.toUInt64.toUInt8]
    rw [UInt8.toUInt8_toUInt64]
  | word x => rfl
  | dword x => rfl
  | qword x => rfl

/-! ## One push -/

theorem content_checkRealloc (h : b.size ≤ b.cap) : b.checkRealloc.content = b.content := by
  unfold checkRealloc
  by_cases hfull : b.size ≥ b.cap
  · rw [if_pos hfull]
    have hlength : b.size ≤ b.bytes.length := h.trans_eq b.length_bytes.symm
    exact List.take_append_of_le_length hlength
  · rw [if_neg hfull]

theorem size_checkRealloc (b : Builder) : b.checkRealloc.size = b.size := by
  unfold checkRealloc
  by_cases hfull : b.size ≥ b.cap
  · rw [if_pos hfull]
  · rw [if_neg hfull]

theorem cap_checkRealloc (b : Builder) :
    b.checkRealloc.cap = if b.size ≥ b.cap then b.cap + 20 else b.cap := by
  unfold checkRealloc
  by_cases hfull : b.size ≥ b.cap
  · rw [if_pos hfull, if_pos hfull]
  · rw [if_neg hfull, if_neg hfull]

theorem size_push (b : Builder) (push : Push) : (b.push push).size = b.size + push.width := by
  rw [push_eq]
  show b.checkRealloc.size + (leBytes _ _).length = _
  rw [size_checkRealloc, length_leBytes]

theorem cap_push (b : Builder) (push : Push) :
    (b.push push).cap = if b.size ≥ b.cap then b.cap + 20 else b.cap := by
  rw [push_eq]
  exact b.cap_checkRealloc

/-- A value that stays in the block comes after what has been pushed before. -/
theorem content_push (hsize : b.size ≤ b.cap) (hroom : (b.push push).size ≤ (b.push push).cap) :
    (b.push push).content = b.content ++ leBytes push.width push.value := by
  rw [size_push, cap_push, ← cap_checkRealloc, ← size_checkRealloc] at hroom
  have hlength := b.checkRealloc.length_bytes
  have hwidth := length_leBytes push.width push.value
  rw [push_eq, ← content_checkRealloc hsize]
  exact take_storeAt (by omega)

theorem size_content (h : b.size ≤ b.cap) : b.content.length = b.size := by
  have hlength := b.length_bytes
  exact List.length_take_of_le (by omega)

/-- The bytes of a value are read as that value. -/
theorem gives_of_prefix {off : Nat} (h : leBytes push.width push.value <+: b.content.drop off) : b.Gives off push := by
  intro bytecode outside s hbytes
  rw [← hbytes] at h
  have hload := loadLittleEndian_of_code outside _ off s h
  rw [length_leBytes, leValue_leBytes _ _ push.value_lt] at hload
  rw [push.get_eq]
  exact ⟨_, hload⟩

end Builder

/-! ## Sequences of pushes -/

/-- What has been pushed lies in the block. -/
structure Building.Inv (s : Building) : Prop where
  size : s.builder.size ≤ s.builder.cap
  pushed : ∀ p ∈ s.pushed, leBytes p.2.width p.2.value <+: s.builder.content.drop p.1

theorem Building.inv_init : Building.Inv ⟨.init, []⟩ := ⟨Nat.zero_le _, fun _ h => nomatch h⟩

open Builder

/-- There is room for a value exactly when it stays in the block. -/
theorem Building.Inv.roomy (h : s.Inv) (hpush : Building.Pushes s push s') :
    Roomy ⟨push, s, s'⟩ ↔ s'.builder.size ≤ s'.builder.cap := by
  cases hpush with
  | push =>
    have hsize := h.size
    have hwidth := push.width_le
    show s.builder.cap ≤ s.builder.size ∨ s.builder.size + push.width ≤ s.builder.cap ↔
      (s.builder.push push).size ≤ (s.builder.push push).cap
    rw [size_push, cap_push]
    by_cases hfull : s.builder.size ≥ s.builder.cap
    · rw [if_pos hfull]
      exact ⟨fun _ => by omega, fun _ => .inl hfull⟩
    · rw [if_neg hfull]
      exact ⟨fun hroom => hroom.resolve_left hfull, .inr⟩

theorem Building.Inv.pushes (h : s.Inv) (hpush : Building.Pushes s push s')
    (hroom : s'.builder.size ≤ s'.builder.cap) : s'.Inv := by
  cases hpush with
  | push =>
    refine ⟨hroom, fun p hp => ?_⟩
    show _ <+: (s.builder.push push).content.drop p.1
    rw [content_push h.size hroom]
    rcases List.mem_cons.mp hp with rfl | hp
    · rw [List.drop_left' (size_content h.size)]
    · rw [List.drop_append]
      exact (h.pushed p hp).trans (List.prefix_append _ _)

theorem Building.Inv.sound (h : s.Inv) (hpush : Building.Pushes s push s')
    (hroom : s'.builder.size ≤ s'.builder.cap) : Sound ⟨push, s, s'⟩ := by
  have hpost := h.pushes hpush hroom
  refine ⟨hroom, fun i hi => ?_, fun p hp => gives_of_prefix (hpost.pushed p hp)⟩
  cases hpush with
  | push =>
    have hlength := (s.builder.push push).length_bytes
    have hsize := s.builder.size_push push
    show s.builder.size + i < (s.builder.push push).bytes.length
    have hroom : (s.builder.push push).size ≤ (s.builder.push push).cap := hroom
    have hi : i < push.width := hi
    omega

/-- The pushes of a sequence are sound exactly when each finds the block full or has room in it. -/
theorem builder_sound {trace : List (Step Building Push)} (h : Path Building.Pushes ⟨.init, []⟩ trace s) :
    (∀ step ∈ trace, Sound step) ↔ ∀ step ∈ trace, Roomy step := by
  constructor
  · intro hsound
    have hsteps := h.invariant_mem (I := Building.Inv) Building.inv_init hsound
      fun step hstep hpush hinv => hinv.pushes hpush hstep.size
    intro step hmem
    obtain ⟨hpush, hinv, -⟩ := hsteps.2 step hmem
    exact (hinv.roomy hpush).mpr (hsound step hmem).size
  · intro hroomy
    have hsteps := h.invariant_mem (I := Building.Inv) Building.inv_init hroomy
      fun step hstep hpush hinv => hinv.pushes hpush ((hinv.roomy hpush).mp hstep)
    intro step hmem
    obtain ⟨hpush, hinv, -⟩ := hsteps.2 step hmem
    exact hinv.sound hpush ((hinv.roomy hpush).mp (hroomy step hmem))

/-- A byte after a word. -/
theorem builder_sound_byte : Sound ⟨.byte 3, ⟨Builder.init.push (.word 7), [(0, .word 7)]⟩,
    ⟨(Builder.init.push (.word 7)).push (.byte 3), [(2, .byte 3), (0, .word 7)]⟩⟩ := by
  have hword : Path Building.Pushes ⟨.init, []⟩ _ ⟨Builder.init.push (.word 7), [(0, .word 7)]⟩ :=
    .cons (.nil _) (.push _ (.word 7))
  refine (builder_sound (hword.cons (.push _ (.byte 3)))).mpr (fun step hmem => ?_) _ List.mem_cons_self
  rcases List.mem_cons.mp hmem with rfl | hmem
  · exact .inr (show 2 + 1 ≤ 10 by decide)
  · obtain rfl := List.mem_singleton.mp hmem
    exact .inr (show 0 + 2 ≤ 10 by decide)

/-- The second of two quadwords does not fit. -/
theorem builder_overflow : ¬ ∀ trace s, Path Building.Pushes ⟨.init, []⟩ trace s → ∀ step ∈ trace, Sound step := by
  intro hall
  have hfirst : Path Building.Pushes ⟨.init, []⟩ _ ⟨Builder.init.push (.qword 1), [(0, .qword 1)]⟩ :=
    .cons (.nil _) (.push _ (.qword 1))
  have hsecond := hall _ _ (hfirst.cons (.push _ (.qword 2))) _ List.mem_cons_self
  have hsize : 16 ≤ 10 := hsecond.size
  omega

end Blaze.Vm
