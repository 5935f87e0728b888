import Blazescript.Vm.Proofs.StackMachineProofs

/-!
# Proofs: a program that prints bytes backwards

What a program does that pushes some bytes and then pops and prints them, by an induction over the bytes for each of
its two parts, and what that says of the machine.
-/

namespace Blaze.Vm

variable {c : Core} {base : UInt64} {bytecode : Bytecode} {i : Instr} {is : List Instr} {reg : RegisterType}

/-- Pushes some bytes, one after the other. -/
def pushBytes (bytes : List UInt8) : List Instr :=
  bytes.flatMap fun byte => [.movIR 3 byte.toUInt64, .pushRB 3]

/-- Pops some bytes, and prints each of them. -/
def popBytes : Nat → List Instr
  | 0 => []
  | n + 1 => .popRB 2 :: .syscall :: popBytes n

/-- Prints some bytes backwards, as numbers. -/
def reversal (bytes : List UInt8) : List Instr :=
  pushBytes bytes ++ (.movIR 0 3 :: .movIR 1 0 :: popBytes bytes.length)

/-- The line that is printed for a byte. -/
def byteLine (byte : UInt8) : Output := .text (toString byte.toNat ++ "\n")

/-! ## Registers -/

theorem Core.setRegister_ne {reg' : RegisterType} (h : reg' ≠ reg) (value : UInt64) :
    (c.setRegister reg value).registers reg' = c.registers reg' := if_neg h

theorem Core.setRegister_self (reg : RegisterType) (value : UInt64) :
    (c.setRegister reg value).registers reg = value := if_pos rfl

/-- A program begins with an instruction. -/
theorem Core.run_cons {c' : Core} (h : c.act base i = some c') :
    c.run base (i :: is) = (c'.setRegister .ip (c.registers .ip + UInt64.ofNat i.size)).run base is := by
  rw [Core.run, Core.step, h]
  rfl

/-- A register gets a value. -/
theorem Core.act_movIR {id : UInt8} (hreg : RegisterType.ofId id = some reg) (his : c.registers .is = base)
    (imm : UInt64) : c.act base (.movIR id imm) = some (c.setRegister reg imm) := by
  rw [Core.act, hreg, Option.bind_some, if_pos his]

/-! ## The parts of the program -/

/-- The bytes lie on the stack, the last one on top. -/
theorem run_pushBytes (base : UInt64) (bytes : List UInt8) : ∀ c : Core, c.registers .is = base →
    ∃ c', c.run base (pushBytes bytes) = some c' ∧ c'.registers .is = base ∧
      c'.pushed = bytes.reverse ++ c.pushed ∧ c'.printed = c.printed := by
  induction bytes with
  | nil => exact fun c his => ⟨c, rfl, his, rfl, rfl⟩
  | cons byte bytes ih =>
    intro c his
    have hmov : c.act base (.movIR 3 byte.toUInt64) = some (c.setRegister .r3 byte.toUInt64) :=
      Core.act_movIR rfl his byte.toUInt64
    obtain ⟨d, hd⟩ : ∃ d, d = (c.setRegister .r3 byte.toUInt64).setRegister .ip
        (c.registers .ip + UInt64.ofNat (Instr.movIR 3 byte.toUInt64).size) := ⟨_, rfl⟩
    have hvalue : (d.registers .r3).toUInt8 = byte := by
      rw [hd, Core.setRegister_ne (by decide), Core.setRegister_self, UInt8.toUInt8_toUInt64]
    have hpush : d.act base (.pushRB 3) = some { d with pushed := byte :: d.pushed } := by
      rw [← hvalue]
      rfl
    have his' : d.registers .is = base := by
      rw [hd, Core.setRegister_ne (by decide), Core.setRegister_ne (by decide)]
      exact his
    obtain ⟨c', hrun, hbase, hpushed, hprinted⟩ := ih
      ({ d with pushed := byte :: d.pushed }.setRegister .ip (d.registers .ip + UInt64.ofNat (Instr.pushRB 3).size)) his'
    refine ⟨c', ?_, hbase, ?_, ?_⟩
    · show c.run base (.movIR 3 byte.toUInt64 :: .pushRB 3 :: pushBytes bytes) = some c'
      rw [Core.run_cons hmov, ← hd, Core.run_cons hpush]
      exact hrun
    · rw [hpushed, List.reverse_cons, List.append_assoc, List.singleton_append, hd]
      rfl
    · rw [hprinted, hd]
      rfl

/-- The bytes on the stack are printed, from the top on. -/
theorem run_popBytes (base : UInt64) (bytes : List UInt8) : ∀ c : Core, c.registers .r0 = 3 → c.registers .r1 = 0 →
    c.pushed = bytes → ∃ c', c.run base (popBytes bytes.length) = some c' ∧
      c'.printed = c.printed ++ bytes.map byteLine := by
  induction bytes with
  | nil => exact fun c _ _ _ => ⟨c, rfl, (List.append_nil _).symm⟩
  | cons byte bytes ih =>
    intro c hr0 hr1 hpushed
    have hpop : c.act base (.popRB 2) = some ({ c with pushed := bytes }.setRegister .r2 byte.toUInt64) := by
      rw [Core.act, hpushed]
      rfl
    obtain ⟨d, hd⟩ : ∃ d, d = ({ c with pushed := bytes }.setRegister .r2 byte.toUInt64).setRegister .ip
        (c.registers .ip + UInt64.ofNat (Instr.popRB 2).size) := ⟨_, rfl⟩
    have hd0 : d.registers .r0 = 3 := by
      rw [hd, Core.setRegister_ne (by decide), Core.setRegister_ne (by decide)]
      exact hr0
    have hd1 : d.registers .r1 = 0 := by
      rw [hd, Core.setRegister_ne (by decide), Core.setRegister_ne (by decide)]
      exact hr1
    have hd2 : d.registers .r2 = byte.toUInt64 := by
      rw [hd, Core.setRegister_ne (by decide), Core.setRegister_self]
    have hprint : d.act base .syscall = some (d.writes [byteLine byte]) := by
      rw [Core.act, if_neg (by rw [hd0]; decide), if_pos hd0, Core.sysPrint, if_pos hd1, hd2, UInt8.toNat_toUInt64]
      rfl
    obtain ⟨c', hrun, hprinted⟩ := ih
      ((d.writes [byteLine byte]).setRegister .ip (d.registers .ip + UInt64.ofNat Instr.syscall.size)) hd0 hd1
      (by rw [hd]; rfl)
    refine ⟨c', ?_, ?_⟩
    · show c.run base (.popRB 2 :: .syscall :: popBytes bytes.length) = some c'
      rw [Core.run_cons hpop, ← hd, Core.run_cons hprint]
      exact hrun
    · have hbefore : d.printed = c.printed := by
        rw [hd]
        rfl
      rw [hprinted, List.map_cons, ← hbefore]
      show (d.printed ++ [byteLine byte]) ++ _ = _
      rw [List.append_assoc, List.singleton_append]

theorem run_reversal (base : UInt64) (bytes : List UInt8) :
    ∃ c, (Core.start base).run base (reversal bytes) = some c ∧ c.printed = bytes.reverse.map byteLine := by
  obtain ⟨c, hrun, his, hpushed, hprinted⟩ := run_pushBytes base bytes (Core.start base) rfl
  have hmov : c.act base (.movIR 0 3) = some (c.setRegister .r0 3) := Core.act_movIR rfl his 3
  obtain ⟨d, hd⟩ : ∃ d, d = (c.setRegister .r0 3).setRegister .ip
      (c.registers .ip + UInt64.ofNat (Instr.movIR 0 3).size) := ⟨_, rfl⟩
  have his' : d.registers .is = base := by
    rw [hd, Core.setRegister_ne (by decide), Core.setRegister_ne (by decide)]
    exact his
  have hmov' : d.act base (.movIR 1 0) = some (d.setRegister .r1 0) := Core.act_movIR rfl his' 0
  obtain ⟨e, he⟩ : ∃ e, e = (d.setRegister .r1 0).setRegister .ip
      (d.registers .ip + UInt64.ofNat (Instr.movIR 1 0).size) := ⟨_, rfl⟩
  have he0 : e.registers .r0 = 3 := by
    rw [he, Core.setRegister_ne (by decide), Core.setRegister_ne (by decide), hd, Core.setRegister_ne (by decide),
      Core.setRegister_self]
  have he1 : e.registers .r1 = 0 := by
    rw [he, Core.setRegister_ne (by decide), Core.setRegister_self]
  have hstack : e.pushed = bytes.reverse := by
    rw [he, hd]
    exact hpushed.trans (List.append_nil _)
  obtain ⟨f, hlast, hout⟩ := run_popBytes base bytes.reverse e he0 he1 hstack
  refine ⟨f, ?_, ?_⟩
  · rw [List.length_reverse] at hlast
    rw [reversal, Core.run_append, hrun, Option.bind_some, Core.run_cons hmov, ← hd, Core.run_cons hmov', ← he]
    exact hlast
  · have hnothing : e.printed = [] := by
      rw [he, hd]
      exact hprinted
    rw [hout, hnothing, List.nil_append]

/-! ## The machine -/

theorem length_pushBytes (bytes : List UInt8) : (pushBytes bytes).length = 2 * bytes.length := by
  induction bytes with
  | nil => rfl
  | cons byte bytes ih =>
    show (pushBytes bytes).length + 2 = 2 * (bytes.length + 1)
    omega

theorem length_popBytes (n : Nat) : (popBytes n).length = 2 * n := by
  induction n with
  | zero => rfl
  | succ n ih =>
    show (popBytes n).length + 2 = 2 * (n + 1)
    omega

theorem length_reversal (bytes : List UInt8) : (reversal bytes).length = 4 * bytes.length + 2 := by
  unfold reversal
  rw [List.length_append, List.length_cons, List.length_cons, length_pushBytes, length_popBytes]
  omega

/-- Some bytes are printed backwards, if they are fewer than 250: with more of them, the counter of the loop ends the
run. -/
theorem reversal_runs (outside : Outside) (bytecode : Bytecode) (bytes : List UInt8)
    (hcode : bytecode.bytes = encodeAll (reversal bytes ++ [.hlt])) :
    (bytes.length < 250 → RunsAs bytecode outside (reversal bytes ++ [.hlt]) (bytes.reverse.map byteLine)) ∧
      (250 ≤ bytes.length →
        ∃ final, processFile bytecode outside initialState = .error (.fatal "Loop exhausted") final) := by
  obtain ⟨c, hrun, hprinted⟩ := run_reversal bytecode.base bytes
  have hsize := length_reversal bytes
  have hmax : maxIterations = 999 := rfl
  constructor
  · intro hlen
    rw [← hprinted]
    exact runsAs_of_run hcode hrun (by omega)
  · intro hlen
    exact exhausts_of_run hcode hrun (by omega)

/-- Three bytes. -/
theorem reversal_runs_three :
    let bytecode := Bytecode.mapped (encodeAll (reversal [1, 2, 3] ++ [.hlt])) (by decide)
    RunsAs bytecode .unmapped (reversal [1, 2, 3] ++ [.hlt]) [.text "3\n", .text "2\n", .text "1\n"] := by
  intro bytecode
  have hlines : ([1, 2, 3] : List UInt8).reverse.map byteLine = [.text "3\n", .text "2\n", .text "1\n"] := by
    decide +kernel
  rw [← hlines]
  exact (reversal_runs .unmapped bytecode [1, 2, 3] rfl).1 (by decide)

end Blaze.Vm
