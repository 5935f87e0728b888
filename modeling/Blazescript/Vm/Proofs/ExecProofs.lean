import Blazescript.Vm.Proofs.ReadsProofs

/-!
# Proofs: the loop of the machine

Whatever the bytes of the program are, an iteration of the loop reads one opcode, and the next one
starts at the opcode that follows the instruction by the table of sizes.
-/

namespace Blaze.Vm

open Running

variable {bytecode : Bytecode} {outside : Outside} {s s' s₀ : State} {off n : Nat}

theorem validateRegister_ok {id : UInt8} {r : Option RegisterType}
    (h : validateRegister id s = .ok r s') :
    r = none ∧ s'.bytecodeError.isSome ∨ (∃ reg, r = some reg) ∧ s' = s := by
  unfold validateRegister at h
  cases hreg : RegisterType.ofId id with
  | none =>
    rw [hreg] at h
    obtain ⟨u, t, hu, ht⟩ := bind_eq_ok h
    cases hu
    cases ht
    exact .inl ⟨rfl, rfl⟩
  | some reg =>
    rw [hreg] at h
    cases h
    exact .inr ⟨⟨reg, rfl⟩, rfl⟩

theorem sysPrint_ok {r : Option UInt64} (h : sysPrint outside s = .ok r s') :
    r = none ∧ s'.registers = s.registers := by
  unfold sysPrint at h
  obtain ⟨r1, t, hr, h⟩ := bind_eq_ok h
  cases hr
  obtain ⟨r2, t, hr, h⟩ := bind_eq_ok h
  cases hr
  by_cases h0 : s.registers .r1 = 0
  · rw [if_pos h0] at h
    cases h
    exact ⟨rfl, rfl⟩
  rw [if_neg h0] at h
  by_cases h1 : s.registers .r1 = 1
  · rw [if_pos h1] at h
    cases h
    exact ⟨rfl, rfl⟩
  rw [if_neg h1] at h
  by_cases h2 : s.registers .r1 = 2
  · rw [if_pos h2] at h
    obtain ⟨t, t', hget, h⟩ := bind_eq_ok h
    cases hget
    cases hc : outside.cstring s (s.registers .r2) with
    | none =>
      simp only [hc] at h
      cases h
    | some text =>
      simp only [hc] at h
      cases h
      exact ⟨rfl, rfl⟩
  rw [if_neg h2] at h
  by_cases h3 : s.registers .r1 = 3
  · rw [if_pos h3] at h
    cases h
    exact ⟨rfl, rfl⟩
  rw [if_neg h3] at h
  cases h
  exact ⟨rfl, rfl⟩

/-- The system calls leave the registers alone. -/
theorem syscall_ok {r : Option UInt64} (h : syscall outside s = .ok r s') :
    r = none ∧ s'.registers = s.registers := by
  unfold syscall at h
  obtain ⟨r0, t, hr, h⟩ := bind_eq_ok h
  cases hr
  by_cases h0 : s.registers .r0 = 0
  · rw [if_pos h0] at h
    cases h
    exact ⟨rfl, rfl⟩
  rw [if_neg h0] at h
  by_cases h1 : s.registers .r0 = 1
  · rw [if_pos h1] at h
    cases h
    exact ⟨rfl, rfl⟩
  rw [if_neg h1] at h
  by_cases h2 : s.registers .r0 = 2
  · rw [if_pos h2] at h
    cases h
    exact ⟨rfl, rfl⟩
  rw [if_neg h2] at h
  by_cases h3 : s.registers .r0 = 3
  · rw [if_pos h3] at h
    exact sysPrint_ok h
  rw [if_neg h3] at h
  cases h
  exact ⟨rfl, rfl⟩
/-! ## The next instruction -/

/-- The next instruction is the one that follows, unless the handler has set an error. -/
theorem handler_next {op : Opcode} {result : Option UInt64} {ip : UInt64} (hip : s.registers .ip = ip)
    (h : handler bytecode outside op ip s = .ok result s')
    (he : s'.bytecodeError = none) : result.getD (s'.registers .ip + 1) =
      ip + UInt64.ofNat (opcodeGetSize op.code) := by
  -- an invalid register is an error
  have hinvalid : ∀ {id : UInt8} {t t' : State}, validateRegister id t = .ok none t' →
      t'.bytecodeError.isSome := by
    intro id t t' hv
    rcases validateRegister_ok hv with ⟨-, he⟩ | ⟨⟨reg, hreg⟩, -⟩
    · exact he
    · cases hreg
  have hone : s.registers .ip + 1 = ip + UInt64.ofNat 1 := by rw [hip]; rfl
  cases op with
  | noOp | hlt | regdump | stackDmp =>
    cases h
    exact hone
  | syscall =>
    obtain ⟨rfl, hregs⟩ := syscall_ok h
    show s'.registers .ip + 1 = _
    rw [hregs]
    exact hone
  | pushRB =>
    obtain ⟨id, t, -, h⟩ := bind_eq_ok h
    obtain ⟨r, t', hv, h⟩ := bind_eq_ok h
    cases r with
    | none =>
      cases h
      have := hinvalid hv
      simp [he] at this
    | some reg =>
      cases h
      rfl
  | popRB =>
    obtain ⟨id, t, -, h⟩ := bind_eq_ok h
    obtain ⟨r, t', hv, h⟩ := bind_eq_ok h
    cases r with
    | none =>
      cases h
      have := hinvalid hv
      simp [he] at this
    | some reg =>
      obtain ⟨byte, t'', -, h⟩ := bind_eq_ok h
      cases h
      rfl
  | movIR =>
    obtain ⟨id, t, -, h⟩ := bind_eq_ok h
    obtain ⟨r, t', hv, h⟩ := bind_eq_ok h
    cases r with
    | none =>
      cases h
      have := hinvalid hv
      simp [he] at this
    | some reg =>
      obtain ⟨is, t'', -, h⟩ := bind_eq_ok h
      obtain ⟨value, t''', -, h⟩ := bind_eq_ok h
      cases h
      show ip + 1 + 9 = ip + 10
      rw [UInt64.add_assoc]
      rfl
  | addRR =>
    obtain ⟨id1, t, -, h⟩ := bind_eq_ok h
    obtain ⟨id2, t, -, h⟩ := bind_eq_ok h
    obtain ⟨r1, t', hv, h⟩ := bind_eq_ok h
    cases r1 with
    | none =>
      cases h
      have := hinvalid hv
      simp [he] at this
    | some reg1 =>
      obtain ⟨r2, t'', hv, h⟩ := bind_eq_ok h
      cases r2 with
      | none =>
        cases h
        have := hinvalid hv
        simp [he] at this
      | some reg2 =>
        cases h
        rfl
/-! ## One iteration -/

theorem opcodeGetSize_pos (code : UInt8) : 0 < opcodeGetSize code := by
  unfold opcodeGetSize
  cases Opcode.ofCode code with
  | none => exact Nat.one_pos
  | some op => exact Nat.succ_pos _

theorem opcodeGetSize_le (code : UInt8) : opcodeGetSize code ≤ 10 := by
  unfold opcodeGetSize
  cases Opcode.ofCode code with
  | none => decide
  | some op => cases op <;> decide

/-- Past the end of the program the loop ends with an error. -/
theorem execIteration_end (hip : s.registers .ip = bytecode.base + UInt64.ofNat off)
    (hoff : bytecode.size ≤ off) (hle : off ≤ bytecode.size + 10) :
    execIteration bytecode outside s = .ok (some false)
      { s with
        bytecodeError := some "%ip points to a memory address that is out of range" } := by
  have hsize := bytecode.size_lt
  have hge : (s.registers .ip).toNat ≥ bytecode.base.toNat + bytecode.size := by
    rw [hip, toNat_add_ofNat (by omega)]
    omega
  rw [execIteration, bind_ok (readRegister_eq .ip s), if_pos hge]
  rfl

/-- An iteration at a byte of the program. -/
theorem execIteration_byte {b : UInt8} (hip : s.registers .ip = bytecode.base + UInt64.ofNat off)
    (hb : bytecode.bytes[off]? = some b) :
    execIteration bytecode outside s =
      (if b = Opcode.hlt.code then do
        print (.text "System halted\n")
        pure (some true)
      else do
        let result ← instructionExec bytecode outside b
        Instr.finish result : Action (Option Bool)) (s.accessAll [.fetch (s.registers .ip)]) := by
  have hsize := bytecode.size_lt
  have hoff : off < bytecode.size := (List.getElem?_eq_some_iff.mp hb).1
  have hlt : ¬ (s.registers .ip).toNat ≥ bytecode.base.toNat + bytecode.size := by
    rw [hip, toNat_add_ofNat (by omega)]
    omega
  have hload : loadAs bytecode outside .fetch (s.registers .ip) s =
      .ok b (s.accessAll [.fetch (s.registers .ip)]) := by
    refine loadAs_eq s ?_
    rw [hip, Bytecode.offset_base_add _ (by omega)]
    exact hb
  rw [execIteration, bind_ok (readRegister_eq .ip s), if_neg hlt, bind_ok hload]
  rfl

theorem finish_ok {result : Option UInt64} {r : Option Bool}
    (h : Instr.finish result s = .ok r s') :
    r = some false ∧ s' = s ∧ s.bytecodeError.isSome ∨
      r = none ∧ s.bytecodeError = none ∧
        s' = s.setRegister .ip (result.getD (s.registers .ip + 1)) := by
  unfold Instr.finish at h
  obtain ⟨t, t', hget, h⟩ := bind_eq_ok h
  cases hget
  by_cases he : s.bytecodeError.isSome
  · rw [if_pos he] at h
    cases h
    exact .inl ⟨rfl, rfl, he⟩
  · rw [if_neg he] at h
    cases h
    exact .inr ⟨rfl, by simpa using he, rfl⟩

/-- After an iteration with which the loop does not end, there has been no error, and the next
instruction follows. -/
theorem execIteration_none {b : UInt8} (hip : s.registers .ip = bytecode.base + UInt64.ofNat off)
    (hb : bytecode.bytes[off]? = some b) (h : execIteration bytecode outside s = .ok none s') :
    s'.bytecodeError = none ∧
      s'.registers .ip = bytecode.base + UInt64.ofNat (off + opcodeGetSize b) ∧
      b ≠ Opcode.hlt.code ∧ (Opcode.ofCode b).isSome := by
  rw [execIteration_byte hip hb] at h
  by_cases hhlt : b = Opcode.hlt.code
  · rw [if_pos hhlt] at h
    cases h
  rw [if_neg hhlt] at h
  obtain ⟨result, t, hexec, h⟩ := bind_eq_ok h
  rcases finish_ok h with ⟨hr, -⟩ | ⟨-, he, rfl⟩
  · cases hr
  refine ⟨he, ?_, hhlt, ?_⟩
  all_goals
    unfold instructionExec at hexec
    cases hop : Opcode.ofCode b with
    | none =>
      rw [hop] at hexec
      obtain ⟨u, t', hset, hexec⟩ := bind_eq_ok hexec
      cases hset
      cases hexec
      cases he
    | some op =>
      rw [hop] at hexec
      obtain ⟨ip, t', hread, hexec⟩ := bind_eq_ok hexec
      cases hread
      have hnext := handler_next rfl hexec he
      first
        | rfl
        | rw [Opcode.code_of_ofCode hop] at hnext
          show result.getD (t.registers .ip + 1) = _
          rw [hnext, ← add_ofNat, ← hip]
          rfl

variable (outside) in
/-- What an iteration reads first is the opcode, and it reads no other. -/
theorem execIteration_accesses {b : UInt8}
    (hip : s.registers .ip = bytecode.base + UInt64.ofNat off)
    (hb : bytecode.bytes[off]? = some b) :
    ∃ as, (finalState (execIteration bytecode outside s)).accesses =
      s.accesses ++ .fetch (s.registers .ip) :: as ∧ ∀ a ∈ as, a.NoFetch := by
  have hreads : Reads Access.NoFetch (fun _ => True)
      (if b = Opcode.hlt.code then do
        print (.text "System halted\n")
        pure (some true)
      else do
        let result ← instructionExec bytecode outside b
        Instr.finish result : Action (Option Bool)) fun _ => True := by
    refine reads_ite (fun _ => (reads_print _).bind fun _ _ => reads_pure trivial) fun _ => ?_
    refine Reads.bind (Q := fun _ => True) ?_ fun result _ => ?_
    · unfold instructionExec
      cases Opcode.ofCode b with
      | none => exact (reads_setError _).bind fun _ _ => reads_pure trivial
      | some op =>
        refine (reads_readRegister .ip).bind fun ip _ => ?_
        exact reads_handler op ip (fun _ => trivial) fun _ => trivial
    · refine reads_get.bind fun t _ => reads_ite (fun _ => reads_pure trivial) fun _ => ?_
      refine (reads_readRegister .ip).bind fun ip _ => ?_
      exact (reads_writeRegister _ _).bind fun _ _ => reads_pure trivial
  obtain ⟨as, has, hA, -⟩ := hreads (s.accessAll [.fetch (s.registers .ip)])
  refine ⟨as, ?_, hA⟩
  rw [execIteration_byte hip hb, has]
  show (s.accesses ++ [_]) ++ as = _
  rw [List.append_assoc]
  rfl

/-! ## Reachable states -/

/-- The instruction pointer stays near the program. -/
theorem Reaches.ip (h : Reaches bytecode outside s₀ n s) :
    ∃ off ≤ bytecode.size + 10, s.registers .ip = bytecode.base + UInt64.ofNat off := by
  induction h with
  | start =>
    refine ⟨0, Nat.zero_le _, ?_⟩
    show bytecode.base = _
    exact (UInt64.add_zero _).symm
  | next h hi ih =>
    obtain ⟨off, hle, hip⟩ := ih
    by_cases hoff : off < bytecode.size
    · have hb : bytecode.bytes[off]? = some bytecode.bytes[off] := List.getElem?_eq_getElem hoff
      obtain ⟨-, hnext, -⟩ := execIteration_none hip hb hi
      have := opcodeGetSize_le bytecode.bytes[off]
      exact ⟨_, by omega, hnext⟩
    · rw [execIteration_end hip (by omega) hle] at hi
      cases hi

theorem ip_ne_zero (hip : s.registers .ip = bytecode.base + UInt64.ofNat off)
    (hle : off ≤ bytecode.size + 10) : s.registers .ip ≠ 0 := by
  have hsize := bytecode.size_lt
  have hbase : bytecode.base.toNat ≠ 0 := fun h => bytecode.base_ne (UInt64.toNat_inj.mp h)
  intro hzero
  have hnat := toNat_add_ofNat (a := bytecode.base) (n := off) (by omega)
  rw [← hip, hzero] at hnat
  have : (0 : UInt64).toNat = 0 := rfl
  omega

/-- Reaching a state does not end the loop. -/
theorem Reaches.error (h : Reaches bytecode outside s₀ n s) (he : s₀.bytecodeError = none) :
    s.bytecodeError = none := by
  induction h with
  | start => exact he
  | next h hi ih =>
    obtain ⟨off, hle, hip⟩ := h.ip
    by_cases hoff : off < bytecode.size
    · exact (execIteration_none hip (List.getElem?_eq_getElem hoff) hi).1
    · rw [execIteration_end hip (by omega) hle] at hi
      cases hi

/-- One iteration of the loop. -/
theorem execLoop_succ (hip : s.registers .ip ≠ 0) :
    execLoop bytecode outside (n + 1) s =
      (do
        match ← execIteration bytecode outside with
        | some ret => pure ret
        | none => execLoop bytecode outside n : Action Bool) s := by
  rw [execLoop]
  exact (bind_ok (readRegister_eq .ip s)).trans (congrFun (if_neg hip) s)

theorem execLoop_next (hip : s.registers .ip ≠ 0)
    (h : execIteration bytecode outside s = .ok none s') :
    execLoop bytecode outside (n + 1) s = execLoop bytecode outside n s' := by
  rw [execLoop_succ hip, bind_ok h]

theorem execLoop_done (hip : s.registers .ip ≠ 0) {ret : Bool}
    (h : execIteration bytecode outside s = .ok (some ret) s') :
    execLoop bytecode outside (n + 1) s = .ok ret s' := by
  rw [execLoop_succ hip, bind_ok h]
  rfl

theorem execLoop_error (hip : s.registers .ip ≠ 0) {e : Stop}
    (h : execIteration bytecode outside s = .error e s') :
    execLoop bytecode outside (n + 1) s = .error e s' := by
  rw [execLoop_succ hip, bind_error h]

/-- When the counter is exhausted. -/
theorem execLoop_zero (hip : s.registers .ip ≠ 0) :
    execLoop bytecode outside 0 s = .error (.fatal "Loop exhausted") s := by
  rw [execLoop, bind_ok (readRegister_eq .ip s), if_neg hip]
  rfl

theorem bytecodeExec_eq (s₀ : State) :
    bytecodeExec bytecode outside s₀ =
      execLoop bytecode outside maxIterations (s₀.started bytecode) := rfl

/-- From a reachable state on, `bytecode_exec` goes on with the loop. -/
theorem Reaches.exec (h : Reaches bytecode outside s₀ n s) (hn : n ≤ maxIterations) :
    bytecodeExec bytecode outside s₀ = execLoop bytecode outside (maxIterations - n) s := by
  induction h with
  | start => exact bytecodeExec_eq s₀
  | @next n s s' h hi ih =>
    obtain ⟨off, hle, hip⟩ := h.ip
    obtain ⟨k, hk⟩ : ∃ k, maxIterations - n = k + 1 := ⟨maxIterations - n - 1, by omega⟩
    have hk' : maxIterations - (n + 1) = k := by omega
    rw [ih (by omega), hk, hk', execLoop_next (ip_ne_zero hip hle) hi]

end Blaze.Vm
