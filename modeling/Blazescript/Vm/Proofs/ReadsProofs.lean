import Blazescript.Vm.Proofs.InstrProofs
import Blazescript.Vm.Reads

/-!
# Proofs: what a computation of the machine reads

The rules of `Reads`, and what the pieces of the machine read, wherever they are run.
-/

namespace Blaze.Vm

open Running

variable {bytecode : Bytecode} {outside : Outside} {A : Access → Prop} {E : Stop → Prop}

/-! ## The rules -/

section Rules

variable {α β : Type} {x : Action α} {f : α → Action β} {Q : α → Prop} {R : β → Prop}

theorem reads_pure {a : α} (h : Q a) : Reads A E (pure a) Q :=
  fun s => ⟨[], (List.append_nil _).symm, by simp, h⟩

theorem reads_throw {e : Stop} (h : E e) : Reads A E (throw e : Action α) Q :=
  fun s => ⟨[], (List.append_nil _).symm, by simp, h⟩

theorem Reads.bind (hx : Reads A E x Q) (hf : ∀ a, Q a → Reads A E (f a) R) :
    Reads A E (x >>= f) R := by
  intro s
  obtain ⟨as, has, hA, hQ⟩ := hx s
  cases hxs : x s with
  | ok a s' =>
    rw [hxs] at has hQ
    obtain ⟨bs, hbs, hB, hR⟩ := hf a hQ s'
    rw [bind_ok hxs]
    refine ⟨as ++ bs, ?_, ?_, hR⟩
    · rw [hbs, ← List.append_assoc]
      exact congrArg (· ++ bs) has
    · intro b hb
      rcases List.mem_append.mp hb with hb | hb
      · exact hA b hb
      · exact hB b hb
  | error e s' =>
    rw [hxs] at has hQ
    rw [bind_error hxs]
    exact ⟨as, has, hA, hQ⟩

theorem Reads.post {Q' : α → Prop} (h : Reads A E x Q) (hQ : ∀ a, Q a → Q' a) :
    Reads A E x Q' := by
  intro s
  obtain ⟨as, has, hA, hr⟩ := h s
  refine ⟨as, has, hA, ?_⟩
  cases hxs : x s with
  | ok a s' =>
    rw [hxs] at hr
    exact hQ a hr
  | error e s' =>
    rw [hxs] at hr
    exact hr

theorem Reads.any (h : Reads A E x Q) : Reads A E x fun _ => True := h.post fun _ _ => trivial

theorem Reads.mono {A' : Access → Prop} {E' : Stop → Prop} (h : Reads A E x Q)
    (hA : ∀ a, A a → A' a) (hE : ∀ e, E e → E' e) : Reads A' E' x Q := by
  intro s
  obtain ⟨as, has, hA', hr⟩ := h s
  refine ⟨as, has, fun a ha => hA a (hA' a ha), ?_⟩
  cases hxs : x s with
  | ok a s' =>
    rw [hxs] at hr
    exact hr
  | error e s' =>
    rw [hxs] at hr
    exact hE e hr

/-- A change of the state that is no read. -/
theorem reads_modify {f : State → State} (h : ∀ s, (f s).accesses = s.accesses) :
    Reads A E (modify f) fun _ => True :=
  fun s => ⟨[], (h s).trans (List.append_nil _).symm, by simp, trivial⟩

theorem reads_get : Reads A E (get : Action State) fun _ => True :=
  fun s => ⟨[], (List.append_nil _).symm, by simp, trivial⟩

theorem reads_ite {c : Prop} [Decidable c] {y : Action α} (hx : c → Reads A E x Q)
    (hy : ¬ c → Reads A E y Q) : Reads A E (if c then x else y) Q := by
  by_cases h : c
  · rw [if_pos h]
    exact hx h
  · rw [if_neg h]
    exact hy h

end Rules

/-! ## The pieces of the machine -/

theorem reads_readRegister (reg : RegisterType) :
    Reads A E (readRegister reg) fun _ => True :=
  fun s => ⟨[], (List.append_nil _).symm, by simp, trivial⟩

theorem reads_writeRegister (reg : RegisterType) (value : UInt64) :
    Reads A E (writeRegister reg value) fun _ => True := reads_modify fun _ => rfl

theorem reads_setError (msg : String) : Reads A E (setError msg) fun _ => True :=
  reads_modify fun _ => rfl

theorem reads_print (out : Output) : Reads A E (print out) fun _ => True :=
  reads_modify fun _ => rfl

/-- A read that may leave the program. -/
theorem reads_loadAs {kind : UInt64 → Access} {addr : UInt64} (hA : A (kind addr))
    (hE : E .killed) : Reads A E (loadAs bytecode outside kind addr) fun _ => True := by
  intro s
  refine ⟨[kind addr], ?_, by simpa using hA, ?_⟩ <;> unfold loadAs <;>
    cases bytecode.bytes[bytecode.offset addr]?.or (outside.byte s addr)
  · rfl
  · rfl
  · exact hE
  · trivial

/-- A read of a byte of the program. -/
theorem reads_loadAs_of_code {off : Nat} {bs : List UInt8}
    (h : bs <+: bytecode.bytes.drop off) {kind : UInt64 → Access} {addr : UInt64} {j : Nat} {b : UInt8}
    (hb : bs[j]? = some b) (haddr : addr = bytecode.base + UInt64.ofNat (off + j))
    (hA : A (kind addr)) : Reads A E (loadAs bytecode outside kind addr) (· = b) := by
  intro s
  subst haddr
  rw [load_of_code outside h hb kind s]
  exact ⟨_, rfl, by simpa using hA, rfl⟩

theorem reads_loadLittleEndian (hA : ∀ addr, A (.load addr)) (hE : E .killed) (n : Nat)
    (addr : UInt64) : Reads A E (loadLittleEndian bytecode outside n addr) fun _ => True := by
  induction n generalizing addr with
  | zero => exact reads_pure trivial
  | succ n ih =>
    refine (reads_loadAs (hA addr) hE).bind fun byte _ => ?_
    exact (ih (addr + 1)).bind fun rest _ => reads_pure trivial

variable (outside) in
/-- The bytes of a number that lies in the program. -/
theorem reads_loadLittleEndian_of_code {off : Nat} {bs : List UInt8}
    (h : bs <+: bytecode.bytes.drop off) {addr : UInt64}
    (haddr : addr = bytecode.base + UInt64.ofNat off)
    (hA : ∀ j < bs.length, A (.load (bytecode.base + UInt64.ofNat (off + j)))) :
    Reads A E (loadLittleEndian bytecode outside bs.length addr) (· = leValue bs) := by
  intro s
  subst haddr
  rw [loadLittleEndian_of_code outside bs off s h]
  refine ⟨_, rfl, fun a ha => ?_, rfl⟩
  obtain ⟨j, hj, rfl⟩ := List.mem_map.mp ha
  exact hA j (List.mem_range.mp hj)

theorem reads_validateRegister (id : UInt8) :
    Reads A E (validateRegister id) (· = RegisterType.ofId id) := by
  unfold validateRegister
  cases RegisterType.ofId id with
  | none => exact (reads_setError _).bind fun _ _ => reads_pure rfl
  | some reg => exact reads_pure rfl

theorem reads_stackPop (hE : E (.fatal "Stack is empty")) : Reads A E stackPop fun _ => True := by
  refine reads_get.bind fun s _ => ?_
  cases s.stack.popByte with
  | none => exact reads_throw hE
  | some r => exact Reads.bind (reads_modify fun _ => rfl) fun _ _ => reads_pure trivial

/-- The system calls read nothing of the program. -/
theorem reads_syscall (hE : E .killed) : Reads A E (syscall outside) fun _ => True := by
  refine (reads_readRegister .r0).bind fun r0 _ => ?_
  refine reads_ite (fun _ => ?_) fun _ => reads_ite (fun _ => ?_) fun _ =>
    reads_ite (fun _ => ?_) fun _ => reads_ite (fun _ => ?_) fun _ => ?_
  · refine (reads_readRegister .r1).bind fun r1 _ => ?_
    exact Reads.bind (reads_modify fun _ => rfl) fun _ _ => reads_pure trivial
  · exact Reads.bind (reads_modify fun _ => rfl) fun _ _ => reads_pure trivial
  · exact Reads.bind (reads_modify fun _ => rfl) fun _ _ => reads_pure trivial
  · refine (reads_readRegister .r1).bind fun r1 _ => (reads_readRegister .r2).bind fun r2 _ => ?_
    refine reads_ite (fun _ => ?_) fun _ => reads_ite (fun _ => ?_) fun _ =>
      reads_ite (fun _ => ?_) fun _ => reads_ite (fun _ => ?_) fun _ => ?_
    · exact (reads_print _).bind fun _ _ => reads_pure trivial
    · exact (reads_print _).bind fun _ _ => reads_pure trivial
    · refine reads_get.bind fun s _ => ?_
      cases outside.cstring s r2 with
      | none => exact reads_throw hE
      | some text =>
        exact (reads_print _).bind fun _ _ => (reads_print _).bind fun _ _ => reads_pure trivial
    · exact (reads_print _).bind fun _ _ => (reads_print _).bind fun _ _ => reads_pure trivial
    · exact (reads_setError _).bind fun _ _ => reads_pure trivial
  · exact (reads_setError _).bind fun _ _ => reads_pure trivial

/-- A handler reads no opcode. -/
theorem reads_handler (op : Opcode) (ip : UInt64) (hA : ∀ addr, A (.load addr))
    (hE : ∀ e, E e) : Reads A E (handler bytecode outside op ip) fun _ => True := by
  have hload : ∀ addr, Reads A E (loadAs bytecode outside .load addr) fun _ => True :=
    fun addr => reads_loadAs (hA addr) (hE _)
  cases op with
  | noOp | hlt => exact reads_pure trivial
  | regdump | stackDmp => exact Reads.bind (reads_modify fun _ => rfl) fun _ _ => reads_pure trivial
  | syscall => exact reads_syscall (hE _)
  | pushRB =>
    refine (hload _).bind fun id _ => (reads_validateRegister id).bind fun r _ => ?_
    cases r with
    | none => exact reads_pure trivial
    | some reg =>
      refine (reads_readRegister reg).bind fun value _ => ?_
      exact Reads.bind (reads_modify fun _ => rfl) fun _ _ => reads_pure trivial
  | popRB =>
    refine (hload _).bind fun id _ => (reads_validateRegister id).bind fun r _ => ?_
    cases r with
    | none => exact reads_pure trivial
    | some reg =>
      refine (reads_stackPop (hE _)).bind fun byte _ => ?_
      exact (reads_writeRegister _ _).bind fun _ _ => reads_pure trivial
  | movIR =>
    refine (hload _).bind fun id _ => (reads_validateRegister id).bind fun r _ => ?_
    cases r with
    | none => exact reads_pure trivial
    | some reg =>
      refine (reads_readRegister .is).bind fun is _ => ?_
      refine (reads_loadLittleEndian hA (hE _) 8 _).bind fun value _ => ?_
      exact (reads_writeRegister _ _).bind fun _ _ => reads_pure trivial
  | addRR =>
    refine (hload _).bind fun id1 _ => (hload _).bind fun id2 _ => ?_
    refine (reads_validateRegister id1).bind fun r1 _ => ?_
    cases r1 with
    | none => exact reads_pure trivial
    | some reg1 =>
      refine (reads_validateRegister id2).bind fun r2 _ => ?_
      cases r2 with
      | none => exact reads_pure trivial
      | some reg2 =>
        refine (reads_readRegister _).bind fun _ _ => (reads_readRegister _).bind fun _ _ => ?_
        exact (reads_writeRegister _ _).bind fun _ _ => reads_pure trivial

end Blaze.Vm
