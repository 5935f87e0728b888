import Blazescript.Vm.Proofs.CompletionProofs
import Blazescript.Vm.Proofs.ListingProofs
import Blazescript.Vm.Proofs.RawStackProofs
import Blazescript.Vm.StackMachine

/-!
# Proofs: the machine does what the program is for
-/

namespace Blaze.Vm

open Running

variable {bytecode : Bytecode} {outside : Outside} {s : State} {i : Instr} {c c' : Core} {before : List Output}
  {base : UInt64} {is js : List Instr}

/-! ## The stack -/

theorem content_pushByte (stack : BlazeStack) (byte : UInt8) :
    (stack.pushByte byte).raw.content = byte :: stack.raw.content := by
  obtain ⟨stack', hpush, -, hcontent⟩ := RawStack.pushByte_spec (fun _ => 0) byte stack.inv_raw
  rw [BlazeStack.raw_pushByte] at hpush
  cases hpush
  exact hcontent

/-- A byte that has been pushed is popped. -/
theorem popByte_of_content {stack : BlazeStack} {byte : UInt8} {bytes : List UInt8}
    (h : stack.raw.content = byte :: bytes) :
    ∃ stack', stack.popByte = some (byte, stack') ∧ stack'.raw.content = bytes := by
  obtain ⟨raw, hpop, -, hcontent⟩ := RawStack.popByte_spec stack.inv_raw h
  rw [BlazeStack.raw_popByte] at hpop
  cases hresult : stack.popByte with
  | none =>
    rw [hresult] at hpop
    cases hpop
  | some result =>
    rw [hresult] at hpop
    cases hpop
    exact ⟨_, rfl, hcontent⟩

/-! ## One instruction -/

namespace Core

/-- Reads do not matter. -/
theorem Stands.accessAll (h : c.Stands before s) (as : List Access) : c.Stands before (s.accessAll as) :=
  ⟨h.registers, h.pushed, h.printed, h.error, h.exitCode⟩

theorem Stands.setRegister (h : c.Stands before s) (reg : RegisterType) (value : UInt64) :
    (c.setRegister reg value).Stands before (s.setRegister reg value) where
  registers := by
    unfold State.setRegister Core.setRegister
    rw [h.registers]
  pushed := h.pushed
  printed := h.printed
  error := h.error
  exitCode := h.exitCode

theorem Stands.writes (h : c.Stands before s) (out : List Output) :
    (c.writes out).Stands before { s with stdout := s.stdout ++ out } where
  registers := h.registers
  pushed := h.pushed
  printed := by
    show s.stdout ++ out = before ++ (c.printed ++ out)
    rw [h.printed, List.append_assoc]
  error := h.error
  exitCode := h.exitCode

end Core

variable (outside) in
/-- `SYS_PRINT` prints the same, and may be called. -/
theorem Core.Stands.sysPrint (h : c.Stands before s) (hc : c.sysPrint = some c') :
    ((s.registers .r1).toNat ≤ 3 ∧ (s.registers .r1 = 2 → (outside.cstring s (s.registers .r2)).isSome)) ∧
      c'.Stands before { s with stdout := s.stdout ++ Vm.printed outside s } := by
  unfold Core.sysPrint at hc
  unfold Vm.printed
  rw [← h.registers] at hc
  by_cases h0 : s.registers .r1 = 0
  · rw [if_pos h0] at hc ⊢
    cases hc
    exact ⟨⟨by rw [h0]; decide, fun h2 => absurd (h0.symm.trans h2) (by decide)⟩, h.writes _⟩
  rw [if_neg h0] at hc ⊢
  by_cases h1 : s.registers .r1 = 1
  · rw [if_pos h1] at hc ⊢
    cases hc
    exact ⟨⟨by rw [h1]; decide, fun h2 => absurd (h1.symm.trans h2) (by decide)⟩, h.writes _⟩
  rw [if_neg h1] at hc ⊢
  by_cases h3 : s.registers .r1 = 3
  · have h2 : s.registers .r1 ≠ 2 := by
      rw [h3]
      decide
    rw [if_pos h3] at hc
    rw [if_neg h2]
    cases hc
    exact ⟨⟨by rw [h3]; decide, fun h => absurd h h2⟩, h.writes _⟩
  · rw [if_neg h3] at hc
    cases hc

variable (outside) in
/-- What an instruction is for is what it does, and it may be executed. -/
theorem Core.Stands.act (h : c.Stands before s) (hc : c.act bytecode.base i = some c') :
    i.Allowed bytecode outside s ∧ c'.Stands before (i.effect outside s) := by
  cases i with
  | noOp =>
    cases hc
    exact ⟨trivial, h⟩
  | hlt | stackDmp => cases hc
  | regdump =>
    cases hc
    refine ⟨trivial, ?_⟩
    rw [← h.registers]
    exact h.writes _
  | movIR id imm =>
    obtain ⟨reg, hreg, hc⟩ := Option.bind_eq_some_iff.mp hc
    by_cases his : c.registers .is = bytecode.base
    · rw [if_pos his] at hc
      cases hc
      rw [Instr.effect, hreg]
      exact ⟨(congrFun h.registers _).trans his, h.setRegister reg imm⟩
    · rw [if_neg his] at hc
      cases hc
  | addRR id1 id2 =>
    obtain ⟨reg1, hreg1, hc⟩ := Option.bind_eq_some_iff.mp hc
    obtain ⟨reg2, hreg2, rfl⟩ := Option.map_eq_some_iff.mp hc
    rw [Instr.effect, hreg1, hreg2, ← h.registers]
    exact ⟨trivial, h.setRegister reg1 _⟩
  | pushRB id =>
    obtain ⟨reg, hreg, rfl⟩ := Option.map_eq_some_iff.mp hc
    rw [Instr.effect, hreg]
    refine ⟨trivial, h.registers, ?_, h.printed, h.error, h.exitCode⟩
    show (s.stack.pushByte (s.registers reg).toUInt8).raw.content = _
    rw [content_pushByte, h.pushed, h.registers]
  | popRB id =>
    obtain ⟨reg, hreg, hc⟩ := Option.bind_eq_some_iff.mp hc
    cases hpushed : c.pushed with
    | nil =>
      rw [hpushed] at hc
      cases hc
    | cons byte bytes =>
      rw [hpushed] at hc
      cases hc
      obtain ⟨stack, hpop, hcontent⟩ := popByte_of_content (h.pushed.trans hpushed)
      have hne : s.stack.index ≠ 0 := by
        intro hzero
        unfold BlazeStack.popByte at hpop
        rw [dif_pos hzero] at hpop
        cases hpop
      rw [Instr.effect, hreg, hpop]
      refine ⟨hne, Core.Stands.setRegister ?_ reg _⟩
      exact ⟨h.registers, hcontent, h.printed, h.error, h.exitCode⟩
  | syscall =>
    rw [Core.act, ← h.registers] at hc
    rw [Instr.effect]
    by_cases h1 : s.registers .r0 = 1
    · rw [if_pos h1] at hc ⊢
      cases hc
      exact ⟨Or.inl h1, h.writes _⟩
    rw [if_neg h1] at hc ⊢
    by_cases h3 : s.registers .r0 = 3
    · have h2 : s.registers .r0 ≠ 2 := by
        rw [h3]
        decide
      rw [if_pos h3] at hc
      rw [if_neg h2]
      obtain ⟨hallowed, hstands⟩ := h.sysPrint outside hc
      exact ⟨Or.inr (Or.inr ⟨h3, hallowed⟩), hstands⟩
    · rw [if_neg h3] at hc
      cases hc

variable (outside) in
/-- An instruction of the program is executed. -/
theorem Core.Stands.step (h : c.Stands before s) (hc : c.step bytecode.base i = some c') :
    i.Allowed bytecode outside (i.read s) ∧ c'.Stands before (i.run outside s) := by
  obtain ⟨d, hd, rfl⟩ := Option.map_eq_some_iff.mp hc
  obtain ⟨hallowed, hstands⟩ := (h.accessAll (i.accesses (s.registers .ip))).act outside hd
  refine ⟨hallowed, ?_⟩
  rw [← h.registers]
  exact hstands.setRegister .ip _

/-- An instruction that is for something has valid registers. -/
theorem Core.valid_of_step (h : c.step base i = some c') : i.Valid := by
  obtain ⟨d, hd, -⟩ := Option.map_eq_some_iff.mp h
  intro id hid
  cases i with
  | noOp | hlt | syscall | regdump | stackDmp => cases hid
  | movIR reg imm =>
    obtain ⟨r, hr, -⟩ := Option.bind_eq_some_iff.mp hd
    rw [List.mem_singleton.mp hid, hr]
    rfl
  | pushRB reg =>
    obtain ⟨r, hr, -⟩ := Option.map_eq_some_iff.mp hd
    rw [List.mem_singleton.mp hid, hr]
    rfl
  | popRB reg =>
    obtain ⟨r, hr, -⟩ := Option.bind_eq_some_iff.mp hd
    rw [List.mem_singleton.mp hid, hr]
    rfl
  | addRR reg1 reg2 =>
    obtain ⟨_, hr1, hd⟩ := Option.bind_eq_some_iff.mp hd
    obtain ⟨_, hr2, -⟩ := Option.map_eq_some_iff.mp hd
    rcases List.mem_cons.mp hid with rfl | hid
    · rw [hr1]
      rfl
    · rw [List.mem_singleton.mp hid, hr2]
      rfl

/-! ## Programs -/

variable (outside) in
/-- The instructions of a program are executed one after the other. -/
theorem Core.Stands.run (is : List Instr) : ∀ {c : Core} {s : State}, c.Stands before s →
    c.run bytecode.base is = some c' → WellRun bytecode outside s is ∧ c'.Stands before (runAll outside s is) := by
  induction is with
  | nil =>
    intro c s h hc
    cases hc
    exact ⟨trivial, h⟩
  | cons i is ih =>
    intro c s h hc
    obtain ⟨d, hd, hc⟩ := Option.bind_eq_some_iff.mp hc
    obtain ⟨hallowed, hstands⟩ := h.step outside hd
    obtain ⟨hrest, hfinal⟩ := ih hstands hc
    exact ⟨⟨hallowed, hrest⟩, hfinal⟩

theorem Core.run_append (base : UInt64) (is js : List Instr) : ∀ c : Core,
    c.run base (is ++ js) = (c.run base is).bind fun c => c.run base js := by
  induction is with
  | nil => exact fun c => rfl
  | cons i is ih =>
    intro c
    rw [List.cons_append, Core.run, Core.run, Option.bind_assoc]
    congr 1
    exact funext ih

/-- The machine begins where the program begins. -/
theorem stands_started (bytecode : Bytecode) (as : List Access) (out : List Output) :
    (Core.start bytecode.base).Stands out ((loaded as out).started bytecode) where
  registers := by
    funext reg
    unfold State.started State.setRegister Core.start
    by_cases his : reg = .is
    · simp [his]
    · by_cases hip : reg = .ip
      · simp [hip]
      · simp only [his, hip, or_self, if_false]
        rfl
  pushed := rfl
  printed := (List.append_nil _).symm
  error := rfl
  exitCode := rfl

/-- No opcode is the first byte of a line for the shell. -/
theorem encodeAll_plain (is : List Instr) : stripShebang (encodeAll is) = encodeAll is := by
  cases is with
  | nil => rfl
  | cons i is =>
    rw [encodeAll_cons]
    cases i <;> rfl

/-- The program is found behind the line for the shell. -/
theorem stripShebang_imageOf {line : Option (List UInt8)}
    (hline : ∀ bytes ∈ line, ∀ byte ∈ bytes, byte ≠ 0x0A ∧ byte ≠ 0x0D) (is : List Instr) :
    stripShebang (imageOf line is) = encodeAll is := by
  cases line with
  | none => exact encodeAll_plain is
  | some bytes =>
    have hkept : ∀ byte ∈ bytes, (decide (byte ≠ 0x0A ∧ byte ≠ 0x0D)) = true := by
      intro byte hbyte
      rw [decide_eq_true_iff]
      exact hline bytes rfl byte hbyte
    have himage : imageOf (some bytes) is = 0x23 :: 0x21 :: (bytes ++ 0x0A :: encodeAll is) := by
      show 0x23 :: 0x21 :: ((bytes ++ [0x0A]) ++ encodeAll is) = _
      rw [List.append_assoc, List.singleton_append]
    rw [himage, stripShebang, if_neg (by simp), List.dropWhile_append_of_pos hkept,
      List.dropWhile_cons_of_neg (by decide)]
    rfl

theorem Core.valid_of_run (is : List Instr) : ∀ {c : Core}, c.run base is = some c' → ∀ i ∈ is, i.Valid := by
  induction is with
  | nil => exact fun _ _ hi => nomatch hi
  | cons i is ih =>
    intro c h
    obtain ⟨d, hd, h⟩ := Option.bind_eq_some_iff.mp h
    exact List.forall_mem_cons.mpr ⟨Core.valid_of_step hd, ih h⟩

theorem valid_append_hlt (h : ∀ i ∈ is, i.Valid) : ∀ i ∈ is ++ [.hlt], i.Valid := by
  intro i hi
  rcases List.mem_append.mp hi with hi | hi
  · exact h i hi
  · rw [List.mem_singleton.mp hi]
    exact fun id hid => nomatch hid

/-- A program is run as it is meant, when its code has been loaded. -/
theorem runsAs_of_run (hcode : bytecode.bytes = encodeAll (is ++ [.hlt]))
    (hrun : (Core.start bytecode.base).run bytecode.base is = some c) (hlen : is.length < maxIterations) :
    RunsAs bytecode outside (is ++ [.hlt]) c.printed := by
  have hvalid := Core.valid_of_run is hrun
  have hall := valid_append_hlt hvalid
  obtain ⟨as, hdisassemble⟩ := shows_disassemble outside _ hcode hall initialState
  have hstart := stands_started bytecode as (listingText bytecode.base (is ++ [.hlt]))
  obtain ⟨hwell, hstands⟩ := hstart.run outside is hrun
  have hexec := (exec_halts hcode hvalid rfl hwell).2 hlen
  have hprocess := processFile_ok hdisassemble hexec
  rw [show (State.halted _).bytecodeExitCode = 0 from hstands.exitCode] at hprocess
  exact ⟨_, _, hprocess, congrArg (· ++ [Output.text "System halted\n"]) hstands.printed,
    readListing_of_code _ hcode hall⟩

/-- What stops the loop stops `process_file`. -/
theorem processFile_error {s₁ t final : State} {e : Stop} (hd : disassemble bytecode outside s₁ = .ok () t)
    (h : bytecodeExec bytecode outside { t with stack := .create stackSize } = .error e final) :
    processFile bytecode outside s₁ = .error e final := by
  have hmod : (modify fun s => { s with stack := .create stackSize } : Action Unit) t =
      .ok () { t with stack := .create stackSize } := rfl
  rw [processFile, bind_ok hd, bind_ok hmod]
  exact bind_error h

/-- The counter of the loop ends the run of a program with more instructions than it allows. -/
theorem exhausts_of_run (hcode : bytecode.bytes = encodeAll (is ++ [.hlt]))
    (hrun : (Core.start bytecode.base).run bytecode.base is = some c) (hlen : maxIterations ≤ is.length) :
    ∃ final, processFile bytecode outside initialState = .error (.fatal "Loop exhausted") final := by
  have hvalid := Core.valid_of_run is hrun
  obtain ⟨as, hdisassemble⟩ := shows_disassemble outside _ hcode (valid_append_hlt hvalid) initialState
  have hstart := stands_started bytecode as (listingText bytecode.base (is ++ [.hlt]))
  obtain ⟨hwell, -⟩ := hstart.run outside is hrun
  have hexec := exec_exhausted hcode hvalid rfl hwell hlen
  exact ⟨_, processFile_error hdisassemble hexec⟩

/-- A file with a program, and perhaps a line for the shell, is run as the program is meant: `blazevm` shows which
instructions there are and prints what they are to print, and succeeds. -/
theorem blazevm_runs (outside : Outside) (bytecode : Bytecode) (line : Option (List UInt8))
    (hline : ∀ bytes ∈ line, ∀ byte ∈ bytes, byte ≠ 0x0A ∧ byte ≠ 0x0D) (is : List Instr)
    (hfile : bytecode.bytes = stripShebang (imageOf line (is ++ [.hlt]))) (c : Core)
    (hrun : (Core.start bytecode.base).run bytecode.base is = some c) (hlen : is.length < maxIterations) :
    RunsAs bytecode outside (is ++ [.hlt]) c.printed := by
  rw [stripShebang_imageOf hline] at hfile
  exact runsAs_of_run hfile hrun hlen

/-- A byte that is pushed, popped and printed, in a file with a line for the shell. -/
theorem blazevm_runs_pushRB :
    let is := [Instr.movIR 0 3, .movIR 1 0, .movIR 3 42, .pushRB 3, .popRB 2, .syscall]
    let bytecode := Bytecode.mapped (stripShebang (imageOf (some [0x76, 0x6D]) (is ++ [.hlt]))) (by decide)
    RunsAs bytecode .unmapped (is ++ [.hlt]) [.text "42\n"] := by
  intro is bytecode
  have hline : ∀ bytes ∈ some [(0x76 : UInt8), 0x6D], ∀ byte ∈ bytes, byte ≠ 0x0A ∧ byte ≠ 0x0D := by
    intro bytes hbytes
    obtain rfl := Option.some.inj hbytes
    rw [List.forall_mem_cons, List.forall_mem_singleton]
    exact ⟨⟨by decide, by decide⟩, ⟨by decide, by decide⟩⟩
  have hprints : ((Core.start bytecode.base).run bytecode.base is).map Core.printed = some [.text "42\n"] := by
    decide +kernel
  obtain ⟨c, hc, hprinted⟩ := Option.map_eq_some_iff.mp hprints
  rw [← hprinted]
  exact blazevm_runs .unmapped bytecode (some [0x76, 0x6D]) hline is rfl c hc (by decide)

end Blaze.Vm
