import Blazescript.Vm.Proofs.ExitProofs

/-!
# Proofs: well-formed programs

A well-formed program is executed from its first instruction to its `hlt`, as long as the counter of
the loop allows.
-/

namespace Blaze.Vm

open Running

variable {bytecode : Bytecode} {outside : Outside} {s s' s₀ : State} {off n : Nat} {i : Instr}
  {is : List Instr}

/-! ## One instruction -/

theorem popByte_isSome {stack : BlazeStack} (h : stack.index ≠ 0) : stack.popByte.isSome := by
  unfold BlazeStack.popByte
  rw [dif_neg h]
  rfl

/-- The machine prints what the arguments of `SYS_PRINT` say. -/
theorem sysPrint_eq (hr1 : (s.registers .r1).toNat ≤ 3)
    (hstr : s.registers .r1 = 2 → (outside.cstring s (s.registers .r2)).isSome) :
    sysPrint outside s = .ok none { s with stdout := s.stdout ++ printed outside s } := by
  unfold sysPrint
  rw [bind_ok (readRegister_eq .r1 s), bind_ok (readRegister_eq .r2 s)]
  unfold printed
  by_cases h0 : s.registers .r1 = 0
  · rw [if_pos h0, if_pos h0]
    rfl
  rw [if_neg h0, if_neg h0]
  by_cases h1 : s.registers .r1 = 1
  · rw [if_pos h1, if_pos h1]
    rfl
  rw [if_neg h1, if_neg h1]
  by_cases h2 : s.registers .r1 = 2
  · rw [if_pos h2, if_pos h2]
    obtain ⟨text, htext⟩ := Option.isSome_iff_exists.mp (hstr h2)
    have hget : (get : Action State) s = .ok s s := rfl
    rw [bind_ok hget, htext]
    show EStateM.Result.ok none _ = _
    simp
  rw [if_neg h2, if_neg h2]
  have h3 : s.registers .r1 = 3 := by
    have hn0 : (s.registers .r1).toNat ≠ 0 := fun h => h0 (UInt64.toNat_inj.mp h)
    have hn1 : (s.registers .r1).toNat ≠ 1 := fun h => h1 (UInt64.toNat_inj.mp h)
    have hn2 : (s.registers .r1).toNat ≠ 2 := fun h => h2 (UInt64.toNat_inj.mp h)
    apply UInt64.toNat_inj.mp
    show _ = 3
    omega
  rw [if_pos h3]
  show EStateM.Result.ok none _ = _
  simp

theorem syscall_eq (h : Instr.syscall.Allowed bytecode outside s) :
    syscall outside s = .ok none (Instr.syscall.effect outside s) := by
  unfold syscall Instr.effect
  rw [bind_ok (readRegister_eq .r0 s)]
  rcases h with h1 | h2 | ⟨h3, hr1, hstr⟩
  · rw [if_neg (by rw [h1]; decide), if_pos h1, if_pos h1]
    rfl
  · rw [if_neg (by rw [h2]; decide), if_neg (by rw [h2]; decide), if_pos h2,
      if_neg (by rw [h2]; decide), if_pos h2]
    rfl
  · rw [if_neg (by rw [h3]; decide), if_neg (by rw [h3]; decide), if_neg (by rw [h3]; decide),
      if_pos h3, if_neg (by rw [h3]; decide), if_neg (by rw [h3]; decide)]
    exact sysPrint_eq hr1 hstr

/-- An allowed instruction acts by its effect, and the next one follows it. -/
theorem Instr.act_eq {addr : UInt64} (hv : i.Valid) (ha : i.Allowed bytecode outside s)
    (hip : s.registers .ip = addr) :
    ∃ result, i.act outside addr s = .ok result (i.effect outside s) ∧
      result.getD ((i.effect outside s).registers .ip + 1) = addr + UInt64.ofNat i.size := by
  have hvalid : ∀ id ∈ i.registers, ∃ r, RegisterType.ofId id = some r := by
    intro id hid
    exact Option.isSome_iff_exists.mp (hv id hid)
  have hone : s.registers .ip + 1 = addr + UInt64.ofNat 1 := by
    rw [hip]
    rfl
  cases i with
  | noOp | regdump | stackDmp => exact ⟨none, rfl, hone⟩
  | hlt => exact ha.elim
  | syscall =>
    have heq := syscall_eq ha
    refine ⟨none, heq, ?_⟩
    show (Instr.effect outside s .syscall).registers .ip + 1 = _
    rw [(syscall_ok heq).2]
    exact hone
  | movIR id imm =>
    obtain ⟨reg, hreg⟩ := hvalid id (List.mem_cons_self ..)
    refine ⟨some (addr + 10), ?_, ?_⟩
    · rw [Instr.act, bind_ok (validateRegister_some hreg s), Instr.effect, hreg]
      rfl
    · show addr + 10 = _
      simp [Instr.size, Instr.encode, Instr.operands, length_leBytes]
  | addRR id1 id2 =>
    obtain ⟨reg1, hreg1⟩ := hvalid id1 (by simp [Instr.registers])
    obtain ⟨reg2, hreg2⟩ := hvalid id2 (by simp [Instr.registers])
    refine ⟨some (addr + 3), ?_, rfl⟩
    rw [Instr.act, bind_ok (validateRegister_some hreg1 s)]
    simp only
    rw [bind_ok (validateRegister_some hreg2 s), Instr.effect, hreg1, hreg2]
    rfl
  | pushRB id =>
    obtain ⟨reg, hreg⟩ := hvalid id (List.mem_cons_self ..)
    refine ⟨some (addr + 2), ?_, rfl⟩
    rw [Instr.act, bind_ok (validateRegister_some hreg s), Instr.effect, hreg]
    rfl
  | popRB id =>
    obtain ⟨reg, hreg⟩ := hvalid id (List.mem_cons_self ..)
    obtain ⟨⟨byte, stack⟩, hpop⟩ := Option.isSome_iff_exists.mp (popByte_isSome ha)
    have hstack : stackPop s = .ok byte { s with stack := stack } := by
      have hget : (get : Action State) s = .ok s s := rfl
      rw [stackPop, bind_ok hget, hpop]
      rfl
    refine ⟨some (addr + 2), ?_, rfl⟩
    rw [Instr.act, bind_ok (validateRegister_some hreg s)]
    simp only
    rw [bind_ok hstack, Instr.effect, hreg, hpop]
    rfl

/-- No instruction takes back an error, or sets one. -/
theorem Instr.effect_error : (i.effect outside s).bytecodeError = s.bytecodeError := by
  unfold Instr.effect
  split <;> (try split) <;> first | rfl | (split <;> rfl)

theorem Instr.effect_accesses : (i.effect outside s).accesses = s.accesses := by
  unfold Instr.effect
  split <;> (try split) <;> first | rfl | (split <;> rfl)

/-- An instruction reads its opcode first, and no other. -/
theorem Instr.accesses_eq (i : Instr) (addr : UInt64) :
    ∃ bs, i.accesses addr = .fetch addr :: bs ∧ ∀ a ∈ bs, a.NoFetch := by
  cases i with
  | noOp | hlt | syscall | regdump | stackDmp => exact ⟨[], rfl, by simp⟩
  | pushRB | popRB => exact ⟨_, rfl, by simp [Access.NoFetch]⟩
  | addRR => exact ⟨_, rfl, by simp [Access.NoFetch]⟩
  | movIR reg imm =>
    refine ⟨_, rfl, fun a ha => ?_⟩
    rcases List.mem_cons.mp ha with rfl | ha
    · trivial
    by_cases hreg : (RegisterType.ofId reg).isSome
    · rw [if_pos hreg] at ha
      obtain ⟨j, -, rfl⟩ := List.mem_map.mp ha
      trivial
    · rw [if_neg hreg] at ha
      cases ha

/-- An iteration on an allowed instruction runs it. -/
theorem execIteration_run (hat : At bytecode s off i) (hv : i.Valid)
    (ha : i.Allowed bytecode outside (i.read s)) (he : s.bytecodeError = none) :
    execIteration bytecode outside s = .ok none (i.run outside s) := by
  have hmov : ∀ reg imm, i = .movIR reg imm → (RegisterType.ofId reg).isSome →
      s.registers .is = bytecode.base := by
    rintro reg imm rfl -
    exact ha
  have hne : i ≠ .hlt := by
    rintro rfl
    exact ha
  obtain ⟨result, hact, hnext⟩ := Instr.act_eq hv ha (rfl : (i.read s).registers .ip = s.registers .ip)
  rw [execIteration_eq hat hmov]
  have hperform := Instr.perform_eq hne hact (Instr.effect_error.trans he)
  rw [hnext] at hperform
  exact hperform

theorem Instr.run_ip : (i.run outside s).registers .ip = s.registers .ip + UInt64.ofNat i.size :=
  setRegister_self ..

theorem Instr.run_error : (i.run outside s).bytecodeError = s.bytecodeError := Instr.effect_error

/-! ## The whole run -/

/-- The first instructions of a program are executed one after the other. -/
theorem reaches_runAll (is : List Instr) : ∀ (js : List Instr) (n off : Nat) (s : State),
    Reaches bytecode outside s₀ n s → s.registers .ip = bytecode.base + UInt64.ofNat off →
      s.bytecodeError = none → encodeAll (is ++ js) = bytecode.bytes.drop off →
        (∀ i ∈ is, i.Valid) → WellRun bytecode outside s is →
          Reaches bytecode outside s₀ (n + is.length) (runAll outside s is) ∧
            (runAll outside s is).registers .ip =
              bytecode.base + UInt64.ofNat (off + (encodeAll is).length) ∧
            (runAll outside s is).bytecodeError = none := by
  induction is with
  | nil =>
    intro js n off s h hip he _ _ _
    exact ⟨h, hip, he⟩
  | cons i is ih =>
    intro js n off s h hip he hcode hv hrun
    obtain ⟨hhead, hrest⟩ := drop_of_encodeAll hcode
    have hexec := execIteration_run ⟨hip, hhead⟩ (hv i (List.mem_cons_self ..)) hrun.1 he
    have hnext : (i.run outside s).registers .ip = bytecode.base + UInt64.ofNat (off + i.size) := by
      rw [Instr.run_ip, hip, add_ofNat]
    have hlen : off + i.size + (encodeAll is).length = off + (encodeAll (i :: is)).length := by
      rw [encodeAll_cons, List.length_append, Nat.add_assoc]
      rfl
    obtain ⟨hreach, hip', he'⟩ := ih js (n + 1) (off + i.size) (i.run outside s) (h.next hexec) hnext
      (Instr.run_error.trans he) hrest (fun j hj => hv j (List.mem_cons_of_mem _ hj)) hrun.2
    rw [hlen] at hip'
    refine ⟨?_, hip', he'⟩
    have hn : n + (i :: is).length = n + 1 + is.length := by
      rw [List.length_cons]
      omega
    rw [hn]
    exact hreach

/-- The opcodes of the instructions are fetched one after the other. -/
theorem runAll_fetched (is : List Instr) : ∀ (js : List Instr) (off : Nat) (s : State),
    s.registers .ip = bytecode.base + UInt64.ofNat off →
      encodeAll (is ++ js) = bytecode.bytes.drop off →
        (runAll outside s is).fetched bytecode = s.fetched bytecode ++ boundaries off is := by
  induction is with
  | nil =>
    intro js off s _ _
    exact (List.append_nil _).symm
  | cons i is ih =>
    intro js off s hip hcode
    obtain ⟨hhead, hrest⟩ := drop_of_encodeAll hcode
    have hle : off + i.size ≤ bytecode.size := length_of_code hhead (List.cons_ne_nil _ _)
    have hnext : (i.run outside s).registers .ip = bytecode.base + UInt64.ofNat (off + i.size) := by
      rw [Instr.run_ip, hip, add_ofNat]
    obtain ⟨bs, hbs, hno⟩ := Instr.accesses_eq i (s.registers .ip)
    have hacc : (i.run outside s).accesses = s.accesses ++ .fetch (s.registers .ip) :: bs := by
      rw [← hbs]
      exact Instr.effect_accesses
    have hone := fetched_fetch hacc hno hip (by omega)
    show (runAll outside (i.run outside s) is).fetched bytecode = _
    rw [ih js (off + i.size) _ hnext hrest, hone, List.append_assoc]
    rfl

theorem boundaries_append (is js : List Instr) : ∀ off : Nat,
    boundaries off (is ++ js) = boundaries off is ++ boundaries (off + (encodeAll is).length) js := by
  induction is with
  | nil => exact fun off => rfl
  | cons i is ih =>
    intro off
    have hlen : off + i.size + (encodeAll is).length = off + (encodeAll (i :: is)).length := by
      rw [encodeAll_cons, List.length_append, Nat.add_assoc]
      rfl
    show off :: boundaries (off + i.size) (is ++ js) = _
    rw [ih, hlen]
    rfl

theorem wellRun_take (is : List Instr) : ∀ (n : Nat) (s : State), WellRun bytecode outside s is →
    WellRun bytecode outside s (is.take n) := by
  induction is with
  | nil =>
    intro n s h
    rw [List.take_nil]
    exact h
  | cons i is ih =>
    intro n s h
    cases n with
    | zero => trivial
    | succ n => exact ⟨h.1, ih n _ h.2⟩

/-- The counter of the loop ends a run of too many instructions. -/
theorem exec_exhausted (hcode : bytecode.bytes = encodeAll (is ++ [.hlt])) (hvalid : ∀ i ∈ is, i.Valid)
    (he : s₀.bytecodeError = none) (hrun : WellRun bytecode outside (s₀.started bytecode) is)
    (hlen : maxIterations ≤ is.length) :
    bytecodeExec bytecode outside s₀ = .error (.fatal "Loop exhausted")
      (runAll outside (s₀.started bytecode) (is.take maxIterations)) := by
  have hsplit : is.take maxIterations ++ (is.drop maxIterations ++ [.hlt]) = is ++ [.hlt] := by
    rw [← List.append_assoc, List.take_append_drop]
  have hdrop : encodeAll (is.take maxIterations ++ (is.drop maxIterations ++ [.hlt])) =
      bytecode.bytes.drop 0 := by
    rw [hsplit]
    exact hcode.symm
  obtain ⟨hreach, -, -⟩ := reaches_runAll (is.take maxIterations) _ 0 0 _ .start
    (UInt64.add_zero _).symm he hdrop (fun i hi => hvalid i (List.mem_of_mem_take hi))
    (wellRun_take is maxIterations _ hrun)
  rw [List.length_take, Nat.min_eq_left hlen, Nat.zero_add] at hreach
  obtain ⟨off, hle, hip⟩ := hreach.ip
  rw [hreach.exec (Nat.le_refl _), Nat.sub_self]
  exact execLoop_zero (ip_ne_zero hip hle)

/-- A program is run up to its `hlt`, which is executed if the counter of the loop allows it. -/
theorem exec_halts (hcode : bytecode.bytes = encodeAll (is ++ [.hlt])) (hvalid : ∀ i ∈ is, i.Valid)
    (he : s₀.bytecodeError = none) (hrun : WellRun bytecode outside (s₀.started bytecode) is) :
    At bytecode (runAll outside (s₀.started bytecode) is) (encodeAll is).length .hlt ∧
      (is.length < maxIterations →
        bytecodeExec bytecode outside s₀ = .ok true (runAll outside (s₀.started bytecode) is).halted) := by
  have hstart : (s₀.started bytecode).registers .ip = bytecode.base + UInt64.ofNat 0 := (UInt64.add_zero _).symm
  obtain ⟨hreach, hip, -⟩ := reaches_runAll is [.hlt] 0 0 _ .start hstart he hcode.symm hvalid hrun
  rw [Nat.zero_add] at hreach hip
  obtain ⟨hhead, -⟩ := drop_of_encodeAll (encodeAll_drop hcode)
  have hat : At bytecode (runAll outside (s₀.started bytecode) is) (encodeAll is).length .hlt := ⟨hip, hhead⟩
  refine ⟨hat, fun hlen => ?_⟩
  obtain ⟨k, hk⟩ : ∃ k, maxIterations - is.length = k + 1 := ⟨maxIterations - is.length - 1, by omega⟩
  have hle := hat.size_le
  rw [hreach.exec (by omega), hk]
  exact execLoop_done (ip_ne_zero hip (by omega)) (execIteration_hlt hat)

/-- A well-formed program with fewer instructions before its `hlt` than the counter of the loop allows
is run to completion: each instruction is executed once, in order. With more of them, the counter ends
the run after the first ones. -/
theorem well_formed_completes (outside : Outside) (bytecode : Bytecode) (is : List Instr)
    (hcode : bytecode.bytes = encodeAll (is ++ [.hlt])) (hvalid : ∀ i ∈ is, i.Valid) (s₀ : State)
    (he : s₀.bytecodeError = none) (hrun : WellRun bytecode outside (s₀.started bytecode) is) :
    (is.length < maxIterations →
      bytecodeExec bytecode outside s₀ = .ok true (runAll outside (s₀.started bytecode) is).halted ∧
        (runAll outside (s₀.started bytecode) is).halted.fetched bytecode =
          s₀.fetched bytecode ++ boundaries 0 (is ++ [.hlt])) ∧
    (maxIterations ≤ is.length →
      bytecodeExec bytecode outside s₀ = .error (.fatal "Loop exhausted")
        (runAll outside (s₀.started bytecode) (is.take maxIterations))) := by
  obtain ⟨hat, hexec⟩ := exec_halts hcode hvalid he hrun
  refine ⟨fun hlen => ⟨hexec hlen, ?_⟩, exec_exhausted hcode hvalid he hrun⟩
  have hstart : (s₀.started bytecode).registers .ip = bytecode.base + UInt64.ofNat 0 :=
    (UInt64.add_zero _).symm
  have hle := hat.size_le
  have hsize := bytecode.size_lt
  have hlast : (runAll outside (s₀.started bytecode) is).halted.fetched bytecode =
      (runAll outside (s₀.started bytecode) is).fetched bytecode ++ [(encodeAll is).length] :=
    @fetched_fetch _ _ _ _ _ [] rfl (by simp) hat.1 (by omega)
  rw [hlast, runAll_fetched is [.hlt] 0 _ hstart hcode.symm, boundaries_append, List.append_assoc,
    Nat.zero_add]
  rfl

/-- A byte that is pushed and popped. -/
theorem well_formed_completes_pushRB :
    let bytecode := Bytecode.mapped (encodeAll [.pushRB 0, .popRB 1, .hlt]) (by decide)
    returned (bytecodeExec bytecode .unmapped initialState) = some true := by
  intro bytecode
  have hpop : (Instr.popRB 1).Allowed bytecode .unmapped ((Instr.popRB 1).read
      (Instr.run .unmapped (initialState.started bytecode) (.pushRB 0))) := by
    show BlazeStack.index _ ≠ 0
    decide
  have hrun : WellRun bytecode .unmapped (initialState.started bytecode) [.pushRB 0, .popRB 1] :=
    ⟨trivial, hpop, trivial⟩
  have h := (well_formed_completes .unmapped bytecode [.pushRB 0, .popRB 1] rfl (by decide)
    initialState rfl hrun).1 (by decide)
  rw [h.1]
  rfl

theorem wellRun_noOp (n : Nat) : ∀ s : State,
    WellRun bytecode outside s (List.replicate n .noOp) := by
  induction n with
  | zero => exact fun _ => trivial
  | succ n ih => exact fun s => ⟨trivial, ih _⟩

/-- Too many instructions. -/
def noOps : Bytecode :=
  .mapped (encodeAll (List.replicate 999 .noOp ++ [.hlt])) (by decide +kernel)

/-- A `mov` after `%is` has been changed. -/
def movedIs : Bytecode := .mapped (encodeAll [.movIR 11 0, .movIR 0 0, .hlt]) (by decide)

/-- A string where there is none. -/
def printsNothing : Bytecode :=
  .mapped (encodeAll [.movIR 0 3, .movIR 1 2, .syscall, .hlt]) (by decide)

/-- Well-formed programs that do not return. -/
theorem well_formed_stops :
    bytecodeExec noOps .unmapped initialState = .error (.fatal "Loop exhausted")
        (runAll .unmapped (initialState.started noOps) (List.replicate 999 .noOp)) ∧
      returned (bytecodeExec movedIs .unmapped initialState) = none ∧
      returned (bytecodeExec printsNothing .unmapped initialState) = none := by
  refine ⟨?_, by decide +kernel, by decide +kernel⟩
  have hvalid : ∀ i ∈ List.replicate 999 Instr.noOp, i.Valid := by
    intro i hi
    obtain rfl := List.eq_of_mem_replicate hi
    decide
  have hlen : (List.replicate 999 Instr.noOp).length = maxIterations := List.length_replicate
  have hcode : noOps.bytes = encodeAll (List.replicate 999 .noOp ++ [.hlt]) := rfl
  have hrun : WellRun noOps .unmapped (initialState.started noOps) (List.replicate 999 .noOp) :=
    wellRun_noOp 999 _
  have h := exec_exhausted hcode hvalid rfl hrun (by rw [hlen])
  rw [← hlen, List.take_length] at h
  exact h

end Blaze.Vm
