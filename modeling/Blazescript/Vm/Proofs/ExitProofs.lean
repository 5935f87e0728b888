import Blazescript.Vm.Proofs.ImmediatesProofs
import Blazescript.Vm.Runs

/-!
# Proofs: the exit system call

The handler of a system call has no way to end the loop. After the exit system call the machine goes on
with the bytes that follow, so the run ends as it should only if they come to a `hlt` before anything
else is executed.
-/

namespace Blaze.Vm

open Running

variable {bytecode : Bytecode} {outside : Outside} {s s' s₀ final : State} {off n k : Nat}

/-! ## The reads of the loop -/

/-- An iteration adds to the record of the reads. -/
theorem reads_execIteration :
    Reads (fun _ => True) (fun _ => True) (execIteration bytecode outside) fun _ => True := by
  unfold execIteration
  refine (reads_readRegister .ip).bind fun ip _ => reads_ite (fun _ => ?_) fun _ => ?_
  · exact (reads_setError _).bind fun _ _ => reads_pure trivial
  refine (reads_loadAs trivial trivial).bind fun opcode _ => reads_ite (fun _ => ?_) fun _ => ?_
  · exact (reads_print _).bind fun _ _ => reads_pure trivial
  refine Reads.bind (Q := fun _ => True) ?_ fun result _ => ?_
  · unfold instructionExec
    cases Opcode.ofCode opcode with
    | none => exact (reads_setError _).bind fun _ _ => reads_pure trivial
    | some op =>
      refine (reads_readRegister .ip).bind fun ip _ => ?_
      exact reads_handler op ip (fun _ => trivial) fun _ => trivial
  · refine reads_get.bind fun t _ => reads_ite (fun _ => reads_pure trivial) fun _ => ?_
    refine (reads_readRegister .ip).bind fun ip _ => ?_
    exact (reads_writeRegister _ _).bind fun _ _ => reads_pure trivial

variable (bytecode outside) in
theorem reads_execLoop (n : Nat) :
    Reads (fun _ => True) (fun _ => True) (execLoop bytecode outside n) fun _ => True := by
  induction n with
  | zero =>
    refine (reads_readRegister .ip).bind fun ip _ => reads_ite (fun _ => reads_pure trivial) fun _ => ?_
    exact reads_throw trivial
  | succ n ih =>
    refine (reads_readRegister .ip).bind fun ip _ => reads_ite (fun _ => reads_pure trivial) fun _ => ?_
    refine reads_execIteration.bind fun r _ => ?_
    cases r with
    | some ret => exact reads_pure trivial
    | none => exact ih

theorem execLoop_accesses (h : execLoop bytecode outside n s = .ok true final) :
    ∃ as, final.accesses = s.accesses ++ as := by
  obtain ⟨as, has, -⟩ := reads_execLoop bytecode outside n s
  rw [h] at has
  exact ⟨as, has⟩

/-! ## The instructions that matter -/

/-- A byte of the program that is an instruction by itself. -/
theorem at_of_drop {i : Instr} {rest : List UInt8} (hip : s.registers .ip = bytecode.base + UInt64.ofNat off)
    (h : bytecode.bytes.drop off = i.encode ++ rest) : At bytecode s off i :=
  ⟨hip, by rw [h]; exact List.prefix_append ..⟩

theorem execIteration_noOp (hat : At bytecode s off .noOp) (he : s.bytecodeError = none) :
    execIteration bytecode outside s =
      .ok none ((s.accessAll [.fetch (s.registers .ip)]).setRegister .ip (s.registers .ip + 1)) := by
  rw [execIteration_eq hat fun _ _ h _ => by cases h]
  exact Instr.perform_eq (i := .noOp) (by decide) rfl he

theorem execIteration_hlt (hat : At bytecode s off .hlt) :
    execIteration bytecode outside s =
      .ok (some true) { s.accessAll [.fetch (s.registers .ip)] with
        stdout := s.stdout ++ [.text "System halted\n"] } := by
  rw [execIteration_eq hat fun _ _ h _ => by cases h]
  rfl

variable (outside) in
/-- The exit system call notes the exit code. -/
theorem execIteration_exit (hat : At bytecode s off .syscall) (he : s.bytecodeError = none)
    (hr0 : s.registers .r0 = 0) :
    execIteration bytecode outside s =
      .ok none (({ s with bytecodeExitCode := (s.registers .r1).toUInt8 }.accessAll
        [.fetch (s.registers .ip)]).setRegister .ip (s.registers .ip + 1)) := by
  have hact : Instr.syscall.act outside (s.registers .ip)
      (s.accessAll (Instr.syscall.accesses (s.registers .ip))) =
        .ok none ({ s with bytecodeExitCode := (s.registers .r1).toUInt8 }.accessAll
          [.fetch (s.registers .ip)]) := by
    show syscall outside _ = _
    have hread : readRegister .r0 (s.accessAll (Instr.syscall.accesses (s.registers .ip))) =
        .ok 0 (s.accessAll (Instr.syscall.accesses (s.registers .ip))) := by
      rw [readRegister_eq]
      exact congrArg (fun x => EStateM.Result.ok x _) hr0
    rw [syscall, bind_ok hread, if_pos rfl]
    rfl
  rw [execIteration_eq hat fun _ _ h _ => by cases h]
  exact Instr.perform_eq (by decide) hact he

/-! ## What follows the system call -/

/-- Only no-ops come before a `hlt`. -/
theorem execLoop_idle (k : Nat) : ∀ (n off : Nat) (s : State) (post : List UInt8),
    s.registers .ip = bytecode.base + UInt64.ofNat off → s.bytecodeError = none →
      bytecode.bytes.drop off = List.replicate k Opcode.noOp.code ++ Opcode.hlt.code :: post → k < n →
        ∃ final rest, execLoop bytecode outside n s = .ok true final ∧
          final.bytecodeExitCode = s.bytecodeExitCode ∧
          (∀ reg, reg ≠ .ip → final.registers reg = s.registers reg) ∧ final.stack = s.stack ∧
          final.accesses = s.accesses ++ rest ∧ ∀ a ∈ rest, a.Idle bytecode := by
  induction k with
  | zero =>
    intro n off s post hip he h hn
    obtain ⟨n, rfl⟩ : ∃ m, n = m + 1 := ⟨n - 1, by omega⟩
    have hat : At bytecode s off .hlt := at_of_drop hip h
    have hsize := bytecode.size_lt
    have hle := hat.size_le
    rw [execLoop_done (ip_ne_zero hip (by omega)) (execIteration_hlt hat)]
    refine ⟨_, [.fetch (s.registers .ip)], rfl, rfl, fun _ _ => rfl, rfl, rfl, ?_⟩
    intro a ha
    obtain rfl := List.mem_singleton.mp ha
    right
    have hbyte := byte_of_code hat.code (j := 0) (by decide)
    rw [Nat.add_zero] at hbyte
    rw [hip, Bytecode.offset_base_add _ (by omega), hbyte]
    rfl
  | succ k ih =>
    intro n off s post hip he h hn
    obtain ⟨n, rfl⟩ : ∃ m, n = m + 1 := ⟨n - 1, by omega⟩
    have hat : At bytecode s off .noOp := at_of_drop hip h
    have hsize := bytecode.size_lt
    have hle := hat.size_le
    have hrest : bytecode.bytes.drop (off + 1) =
        List.replicate k Opcode.noOp.code ++ Opcode.hlt.code :: post := by
      rw [← List.drop_drop, h]
      rfl
    have hnext : (s.registers .ip) + 1 = bytecode.base + UInt64.ofNat (off + 1) := by
      rw [hip, ← add_ofNat]
      rfl
    obtain ⟨final, rest, hexec, hcode, hregs, hstack, hacc, hidle⟩ :=
      ih n (off + 1) ((s.accessAll [.fetch (s.registers .ip)]).setRegister .ip (s.registers .ip + 1))
        post ((setRegister_self ..).trans hnext) he hrest (by omega)
    rw [execLoop_next (ip_ne_zero hip (by omega)) (execIteration_noOp hat he)]
    refine ⟨final, .fetch (s.registers .ip) :: rest, hexec, hcode, ?_, hstack, ?_, ?_⟩
    · intro reg hreg
      rw [hregs reg hreg, setRegister_ne hreg]
      rfl
    · rw [hacc]
      exact List.append_assoc ..
    · intro a ha
      rcases List.mem_cons.mp ha with rfl | ha
      · left
        have hbyte := byte_of_code hat.code (j := 0) (by decide)
        rw [Nat.add_zero] at hbyte
        rw [hip, Bytecode.offset_base_add _ (by omega), hbyte]
        rfl
      · exact hidle a ha

/-- A loop that executes nothing else comes to a `hlt`. -/
theorem idle_of_execLoop (n : Nat) : ∀ (off : Nat) (s final : State) (rest : List Access),
    s.registers .ip = bytecode.base + UInt64.ofNat off → s.bytecodeError = none →
      off ≤ bytecode.size → execLoop bytecode outside n s = .ok true final →
        final.accesses = s.accesses ++ rest → (∀ a ∈ rest, a.Idle bytecode) →
          ∃ k post, bytecode.bytes.drop off =
            List.replicate k Opcode.noOp.code ++ Opcode.hlt.code :: post ∧ k < n := by
  induction n with
  | zero =>
    intro off s final rest hip he hle hexec
    rw [execLoop_zero (ip_ne_zero hip (by omega))] at hexec
    cases hexec
  | succ n ih =>
    intro off s final rest hip he hle hexec hacc hidle
    have hne := ip_ne_zero hip (by omega)
    have hsize := bytecode.size_lt
    by_cases hend : bytecode.size ≤ off
    · rw [execLoop_done hne (execIteration_end hip hend (by omega))] at hexec
      cases hexec
    have hlt : off < bytecode.bytes.length := by
      show off < bytecode.size
      omega
    have hdrop := List.drop_eq_getElem_cons hlt
    have hbyte : bytecode.bytes[off]? = some bytecode.bytes[off] := List.getElem?_eq_getElem hlt
    -- the opcode that is fetched here is one of those
    have hfetch : (Access.fetch (s.registers .ip)).Idle bytecode := by
      apply hidle
      obtain ⟨as, has, -⟩ := execIteration_accesses outside hip hbyte
      have hmore : ∃ bs, final.accesses = s.accesses ++ .fetch (s.registers .ip) :: bs := by
        cases hi : execIteration bytecode outside s with
        | error e t =>
          rw [execLoop_error hne hi] at hexec
          cases hexec
        | ok r t =>
          rw [hi] at has
          cases r with
          | some ret =>
            rw [execLoop_done hne hi] at hexec
            cases hexec
            exact ⟨as, has⟩
          | none =>
            rw [execLoop_next hne hi] at hexec
            obtain ⟨bs, hbs⟩ := execLoop_accesses hexec
            have has : t.accesses = s.accesses ++ .fetch (s.registers .ip) :: as := has
            refine ⟨as ++ bs, ?_⟩
            rw [hbs, has, List.append_assoc]
            rfl
      obtain ⟨bs, hbs⟩ := hmore
      rw [hacc] at hbs
      rw [List.append_cancel_left hbs]
      exact List.mem_cons_self ..
    have hoff : bytecode.offset (s.registers .ip) = off := by
      rw [hip, Bytecode.offset_base_add _ (by omega)]
    simp only [Access.Idle, hoff, hbyte, Option.some.injEq] at hfetch
    rcases hfetch with hno | hhlt
    · have hcode : bytecode.bytes.drop off = Instr.noOp.encode ++ bytecode.bytes.drop (off + 1) := by
        rw [hdrop, hno]
        rfl
      have hat : At bytecode s off .noOp := at_of_drop hip hcode
      rw [execLoop_next hne (execIteration_noOp hat he)] at hexec
      have hnext : ((s.accessAll [.fetch (s.registers .ip)]).setRegister .ip
          (s.registers .ip + 1)).registers .ip = bytecode.base + UInt64.ofNat (off + 1) := by
        rw [setRegister_self, hip, ← add_ofNat]
        rfl
      obtain ⟨bs, hbs⟩ := execLoop_accesses hexec
      have hbs' : final.accesses = s.accesses ++ .fetch (s.registers .ip) :: bs := by
        rw [hbs]
        exact List.append_assoc ..
      have hrest : rest = .fetch (s.registers .ip) :: bs :=
        List.append_cancel_left (hacc.symm.trans hbs')
      obtain ⟨k, post, hk, hlt'⟩ := ih (off + 1) _ final bs hnext he
        (by omega) hexec hbs fun a ha => hidle a (by rw [hrest]; exact List.mem_cons_of_mem _ ha)
      refine ⟨k + 1, post, ?_, by omega⟩
      rw [hdrop, hk, hno]
      rfl
    · refine ⟨0, bytecode.bytes.drop (off + 1), ?_, Nat.succ_pos n⟩
      rw [hdrop, hhlt]
      rfl

/-- How `process_file` ends. -/
theorem processFile_ok {s₁ t : State} (hd : disassemble bytecode outside s₁ = .ok () t)
    (h : bytecodeExec bytecode outside { t with stack := .create stackSize } = .ok true final) :
    processFile bytecode outside s₁ = .ok final.bytecodeExitCode final := by
  have hmod : (modify fun s => { s with stack := .create stackSize } : Action Unit) t =
      .ok () { t with stack := .create stackSize } := rfl
  rw [processFile, bind_ok hd, bind_ok hmod, bind_ok h]
  rfl

/-- The exit system call ends the run if and only if no-ops and a `hlt` follow it, soon enough for the
counter of the loop. -/
theorem exit_ends (outside : Outside) (bytecode : Bytecode) (s₀ : State)
    (he : s₀.bytecodeError = none) (n : Nat) (s : State) (h : Reaches bytecode outside s₀ n s)
    (hn : n < maxIterations) (off : Nat) (hat : At bytecode s off .syscall)
    (hr0 : s.registers .r0 = 0) :
    (∃ final, Exits bytecode outside s₀ s final) ↔
      ∃ k post, bytecode.bytes.drop (off + 1) =
        List.replicate k Opcode.noOp.code ++ Opcode.hlt.code :: post ∧ n + 1 + k < maxIterations := by
  have herr : s.bytecodeError = none := h.error he
  have hstep := execIteration_exit outside hat herr hr0
  have hreach := h.next hstep
  have hexec := hreach.exec (by omega)
  have hsize := bytecode.size_lt
  have hle : off + 1 ≤ bytecode.size := hat.size_le
  have hnext : (({ s with bytecodeExitCode := (s.registers .r1).toUInt8 }.accessAll
      [.fetch (s.registers .ip)]).setRegister .ip (s.registers .ip + 1)).registers .ip =
        bytecode.base + UInt64.ofNat (off + 1) := by
    rw [setRegister_self, hat.ip, ← add_ofNat]
    rfl
  constructor
  · rintro ⟨final, hx⟩
    obtain ⟨rest, hacc, hidle⟩ := hx.accesses
    have hloop := hexec.symm.trans hx.returns
    have hacc' : final.accesses = (s.accesses ++ [.fetch (s.registers .ip)]) ++ rest := by
      rw [hacc, List.append_assoc]
      rfl
    obtain ⟨k, post, hk, hlt⟩ := idle_of_execLoop _ (off + 1) _ final rest
      hnext herr hle hloop hacc' hidle
    exact ⟨k, post, hk, by omega⟩
  · rintro ⟨k, post, hk, hlt⟩
    obtain ⟨final, rest, hloop, hcode, hregs, hstack, hacc, hidle⟩ :=
      execLoop_idle k (maxIterations - (n + 1)) (off + 1) _ post hnext herr hk (by omega)
    have hret := hexec.trans hloop
    refine ⟨final, hret, ?_, ?_, hstack, ⟨rest, ?_, hidle⟩, ?_⟩
    · rw [hcode]
      exact UInt64.toNat_toUInt8 _
    · intro reg hreg
      rw [hregs reg hreg, setRegister_ne hreg]
      rfl
    · rw [hacc]
      exact List.append_assoc ..
    · rintro s₁ t hd rfl
      exact processFile_ok hd hret

/-- A `hlt` after the system call. -/
theorem exit_ends_hlt :
    let bytecode := Bytecode.mapped (encodeAll [.syscall, .hlt]) (by decide)
    ∃ final, Exits bytecode .unmapped initialState (initialState.started bytecode) final := by
  intro bytecode
  have hat : At bytecode (initialState.started bytecode) 0 .syscall := ⟨rfl, by decide⟩
  exact (exit_ends .unmapped bytecode initialState rfl 0 _ .start (by decide) 0 hat rfl).mpr
    ⟨0, [], rfl, by decide⟩

/-- Nothing after the system call: the run ends with an error. -/
theorem exit_ends_nothing :
    let bytecode := Bytecode.mapped (encodeAll [.syscall]) (by decide)
    At bytecode (initialState.started bytecode) 0 .syscall ∧
      ¬ ∃ final, Exits bytecode .unmapped initialState (initialState.started bytecode) final := by
  intro bytecode
  refine ⟨⟨rfl, by decide⟩, ?_⟩
  rintro ⟨final, hx⟩
  have hfails : returned (bytecodeExec bytecode .unmapped initialState) = some false := by
    decide +kernel
  rw [hx.returns] at hfails
  cases hfails

end Blaze.Vm
