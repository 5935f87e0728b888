import Blazescript.Vm.Errors
import Blazescript.Vm.Proofs.ExecProofs

/-!
# Proofs: errors of instructions

An instruction that fails has done nothing but reading, and the loop ends with it. The messages fit the memory
allocated for them as long as their numbers do.
-/

namespace Blaze.Vm

open Running

variable {bytecode : Bytecode} {outside : Outside} {s s' t : State} {off : Nat} {opcode : UInt8}

/-! ## What fails -/

theorem untouched_refl (s : State) : Untouched s s := ⟨rfl, rfl, rfl, rfl⟩

theorem Untouched.trans (h : Untouched s t) (h' : Untouched t s') : Untouched s s' where
  registers := h'.registers.trans h.registers
  stack := h'.stack.trans h.stack
  exitCode := h'.exitCode.trans h.exitCode
  stdout := h'.stdout.trans h.stdout

theorem ErrorSite.Of.congr {site : ErrorSite} (h : site.Of opcode t) (hregs : t.registers = s.registers) :
    site.Of opcode s := by
  cases site with
  | opcode code => exact h
  | register id => exact h
  | syscall r0 =>
    obtain ⟨hopcode, hr0⟩ := h
    rw [hregs] at hr0
    exact ⟨hopcode, hr0⟩
  | valueType r1 =>
    obtain ⟨hopcode, hr0, hr1⟩ := h
    rw [hregs] at hr0 hr1
    exact ⟨hopcode, hr0, hr1⟩

/-- Reads may come first. -/
theorem Fails.of_untouched (hread : Untouched s t) (h : Fails opcode t s') : Fails opcode s s' := by
  obtain ⟨hrest, site, hsite, herror⟩ := h
  exact ⟨hread.trans hrest, site, hsite.congr hread.registers, herror⟩

theorem loadAs_state {kind : UInt64 → Access} {addr : UInt64} {byte : UInt8}
    (h : loadAs bytecode outside kind addr s = .ok byte s') : s' = s.access (kind addr) := by
  unfold loadAs at h
  split at h
  · cases h
    rfl
  · cases h

theorem loadAs_untouched {kind : UInt64 → Access} {addr : UInt64} {byte : UInt8}
    (h : loadAs bytecode outside kind addr s = .ok byte s') :
    Untouched s s' ∧ s'.bytecodeError = s.bytecodeError := by
  rw [loadAs_state h]
  exact ⟨⟨rfl, rfl, rfl, rfl⟩, rfl⟩

theorem loadLittleEndian_error {n : Nat} {addr value : UInt64}
    (h : loadLittleEndian bytecode outside n addr s = .ok value s') : s'.bytecodeError = s.bytecodeError := by
  induction n generalizing addr value s s' with
  | zero =>
    cases h
    rfl
  | succ n ih =>
    obtain ⟨byte, t, hload, h⟩ := bind_eq_ok h
    obtain ⟨rest, t', hrest, h⟩ := bind_eq_ok h
    cases h
    rw [ih hrest]
    exact (loadAs_untouched hload).2

theorem validateRegister_fails {id : UInt8} {r : Option RegisterType}
    (h : validateRegister id s = .ok r s') : r = none ∧ Fails opcode s s' ∨ (∃ reg, r = some reg) ∧ s' = s := by
  unfold validateRegister at h
  cases hreg : RegisterType.ofId id with
  | none =>
    rw [hreg] at h
    obtain ⟨u, t, hset, h⟩ := bind_eq_ok h
    cases hset
    cases h
    exact .inl ⟨rfl, ⟨rfl, rfl, rfl, rfl⟩, .register id, hreg, rfl⟩
  | some reg =>
    rw [hreg] at h
    cases h
    exact .inr ⟨⟨reg, rfl⟩, rfl⟩

theorem sysPrint_fails {r : Option UInt64} (hr0 : s.registers .r0 = 3) (h : sysPrint outside s = .ok r s') :
    s'.bytecodeError = s.bytecodeError ∨ Fails Opcode.syscall.code s s' := by
  unfold sysPrint at h
  obtain ⟨r1, t, hr, h⟩ := bind_eq_ok h
  cases hr
  obtain ⟨r2, t, hr, h⟩ := bind_eq_ok h
  cases hr
  by_cases h0 : s.registers .r1 = 0
  · rw [if_pos h0] at h
    cases h
    exact .inl rfl
  rw [if_neg h0] at h
  by_cases h1 : s.registers .r1 = 1
  · rw [if_pos h1] at h
    cases h
    exact .inl rfl
  rw [if_neg h1] at h
  by_cases h2 : s.registers .r1 = 2
  · rw [if_pos h2] at h
    obtain ⟨t, t', hget, h⟩ := bind_eq_ok h
    cases hget
    cases hc : outside.cstring s (s.registers .r2) with
    | none =>
      simp only [hc] at h
      cases h
    | some text =>
      simp only [hc] at h
      cases h
      exact .inl rfl
  rw [if_neg h2] at h
  by_cases h3 : s.registers .r1 = 3
  · rw [if_pos h3] at h
    cases h
    exact .inl rfl
  rw [if_neg h3] at h
  cases h
  exact .inr ⟨⟨rfl, rfl, rfl, rfl⟩, .valueType _, ⟨rfl, hr0, rfl⟩, rfl⟩

theorem syscall_fails {r : Option UInt64} (h : syscall outside s = .ok r s') :
    s'.bytecodeError = s.bytecodeError ∨ Fails Opcode.syscall.code s s' := by
  unfold syscall at h
  obtain ⟨r0, t, hr, h⟩ := bind_eq_ok h
  cases hr
  by_cases h0 : s.registers .r0 = 0
  · rw [if_pos h0] at h
    cases h
    exact .inl rfl
  rw [if_neg h0] at h
  by_cases h1 : s.registers .r0 = 1
  · rw [if_pos h1] at h
    cases h
    exact .inl rfl
  rw [if_neg h1] at h
  by_cases h2 : s.registers .r0 = 2
  · rw [if_pos h2] at h
    cases h
    exact .inl rfl
  rw [if_neg h2] at h
  by_cases h3 : s.registers .r0 = 3
  · rw [if_pos h3] at h
    exact sysPrint_fails h3 h
  rw [if_neg h3] at h
  cases h
  exact .inr ⟨⟨rfl, rfl, rfl, rfl⟩, .syscall _, ⟨rfl, rfl⟩, rfl⟩

theorem stackPop_error {byte : UInt8} (h : stackPop s = .ok byte s') : s'.bytecodeError = s.bytecodeError := by
  unfold stackPop at h
  obtain ⟨t, t', hget, h⟩ := bind_eq_ok h
  cases hget
  cases hpop : s.stack.popByte with
  | none =>
    simp only [hpop] at h
    cases h
  | some popped =>
    simp only [hpop] at h
    cases h
    rfl

/-- An operand that is a register is read and checked first. -/
theorem operand_fails {α : Type} {addr : UInt64} {f : Option RegisterType → Action α} {r : α}
    (h : (do
      let id ← loadAs bytecode outside .load addr
      let reg ← validateRegister id
      f reg : Action α) s = .ok r s') :
    ∃ t, Untouched s t ∧ ((∃ reg, f (some reg) t = .ok r s') ∧ t.bytecodeError = s.bytecodeError ∨
      Fails opcode s t ∧ f none t = .ok r s') := by
  obtain ⟨id, t, hload, hrest⟩ := bind_eq_ok h
  obtain ⟨hread, herror⟩ := loadAs_untouched hload
  obtain ⟨reg, t', hvalid, hf⟩ := bind_eq_ok hrest
  rcases validateRegister_fails hvalid with ⟨rfl, hfails⟩ | ⟨⟨reg, rfl⟩, ht⟩
  · have hfails : Fails opcode s t' := hfails.of_untouched hread
    exact ⟨t', hfails.1, .inr ⟨hfails, hf⟩⟩
  · rw [ht] at hf
    exact ⟨t, hread, .inl ⟨⟨reg, hf⟩, herror⟩⟩

/-- A handler reports an error before it does anything else. -/
theorem handler_fails {op : Opcode} {ip : UInt64} {result : Option UInt64}
    (h : handler bytecode outside op ip s = .ok result s') :
    s'.bytecodeError = s.bytecodeError ∨ Fails op.code s s' := by
  cases op with
  | noOp | hlt | regdump | stackDmp =>
    cases h
    exact .inl rfl
  | syscall => exact syscall_fails h
  | pushRB =>
    obtain ⟨t, -, ⟨⟨reg, h⟩, herror⟩ | ⟨hfails, h⟩⟩ := operand_fails h
    · cases h
      exact .inl herror
    · cases h
      exact .inr hfails
  | popRB =>
    obtain ⟨t, -, ⟨⟨reg, h⟩, herror⟩ | ⟨hfails, h⟩⟩ := operand_fails h
    · obtain ⟨byte, t', hpop, h⟩ := bind_eq_ok h
      cases h
      exact .inl ((stackPop_error hpop).trans herror)
    · cases h
      exact .inr hfails
  | movIR =>
    obtain ⟨t, -, ⟨⟨reg, h⟩, herror⟩ | ⟨hfails, h⟩⟩ := operand_fails h
    · obtain ⟨is, t', hread, h⟩ := bind_eq_ok h
      cases hread
      obtain ⟨value, t'', hvalue, h⟩ := bind_eq_ok h
      cases h
      exact .inl ((loadLittleEndian_error hvalue).trans herror)
    · cases h
      exact .inr hfails
  | addRR =>
    obtain ⟨id1, t, hload1, h⟩ := bind_eq_ok h
    obtain ⟨id2, t', hload2, h⟩ := bind_eq_ok h
    obtain ⟨hread1, herror1⟩ := loadAs_untouched hload1
    obtain ⟨hread2, herror2⟩ := loadAs_untouched hload2
    have hread := hread1.trans hread2
    obtain ⟨r1, t'', hvalid1, h⟩ := bind_eq_ok h
    rcases validateRegister_fails hvalid1 with ⟨rfl, hfails⟩ | ⟨⟨reg1, rfl⟩, ht⟩
    · cases h
      exact .inr (hfails.of_untouched hread)
    · rw [ht] at h
      obtain ⟨r2, t''', hvalid2, h⟩ := bind_eq_ok h
      rcases validateRegister_fails hvalid2 with ⟨rfl, hfails⟩ | ⟨⟨reg2, rfl⟩, ht⟩
      · cases h
        exact .inr (hfails.of_untouched hread)
      · rw [ht] at h
        cases h
        exact .inl (herror2.trans herror1)

/-- What an instruction does when it sets the error. -/
theorem instructionExec_fails {result : Option UInt64}
    (h : instructionExec bytecode outside opcode s = .ok result s') :
    s'.bytecodeError = s.bytecodeError ∨ Fails opcode s s' := by
  unfold instructionExec at h
  cases hop : Opcode.ofCode opcode with
  | none =>
    rw [hop] at h
    cases h
    exact .inr ⟨⟨rfl, rfl, rfl, rfl⟩, .opcode opcode, ⟨rfl, hop⟩, rfl⟩
  | some op =>
    rw [hop] at h
    obtain ⟨ip, t, hread, h⟩ := bind_eq_ok h
    cases hread
    have hfails := handler_fails h
    rw [Opcode.code_of_ofCode hop] at hfails
    exact hfails


/-! ## The loop -/

theorem finish_error {result : Option UInt64} (h : s.bytecodeError.isSome) :
    Instr.finish result s = .ok (some false) s := by
  unfold Instr.finish
  show (if s.bytecodeError.isSome then (pure (some false) : Action (Option Bool)) else _) s = _
  rw [if_pos h]
  rfl

/-- The iteration in which an instruction fails is the last one. -/
theorem execIteration_fails {result : Option UInt64} (hip : s.registers .ip = bytecode.base + UInt64.ofNat off)
    (hopcode : bytecode.bytes[off]? = some opcode) (hnone : s.bytecodeError = none)
    (h : instructionExec bytecode outside opcode (s.access (.fetch (s.registers .ip))) = .ok result s')
    (herror : s'.bytecodeError.isSome) : execIteration bytecode outside s = .ok (some false) s' := by
  have hhlt : opcode ≠ Opcode.hlt.code := by
    rintro rfl
    cases h
    rw [show (s.access (.fetch (s.registers .ip))).bytecodeError = none from hnone] at herror
    cases herror
  rw [execIteration_byte hip hopcode, if_neg hhlt]
  exact (bind_ok h).trans (finish_error herror)

/-- When an instruction of the program fails, nothing has changed, and `bytecode_exec` returns without another
instruction. -/
theorem instruction_fails {result : Option UInt64} (hip : s.registers .ip = bytecode.base + UInt64.ofNat off)
    (hopcode : bytecode.bytes[off]? = some opcode) (hnone : s.bytecodeError = none)
    (h : instructionExec bytecode outside opcode (s.access (.fetch (s.registers .ip))) = .ok result s')
    (herror : s'.bytecodeError.isSome) :
    Untouched s s' ∧
      (∃ as, s'.accesses = s.accesses ++ .fetch (s.registers .ip) :: as ∧ ∀ a ∈ as, a.NoFetch) ∧
      (∀ n, execLoop bytecode outside (n + 1) s = .ok false s') ∧
      ∀ s₀ n, Reaches bytecode outside s₀ n s → n < maxIterations →
        bytecodeExec bytecode outside s₀ = .ok false s' := by
  have hlast := execIteration_fails hip hopcode hnone h herror
  have hoff : off < bytecode.size := (List.getElem?_eq_some_iff.mp hopcode).1
  have hne : s.registers .ip ≠ 0 := ip_ne_zero hip (by omega)
  have hloop : ∀ n, execLoop bytecode outside (n + 1) s = .ok false s' := fun n => execLoop_done hne hlast
  refine ⟨?_, ?_, hloop, ?_⟩
  · rcases instructionExec_fails h with hsame | ⟨hrest, -⟩
    · rw [hsame, show (s.access (.fetch (s.registers .ip))).bytecodeError = none from hnone] at herror
      cases herror
    · have hread : Untouched s (s.access (.fetch (s.registers .ip))) := ⟨rfl, rfl, rfl, rfl⟩
      exact hread.trans hrest
  · have haccesses := execIteration_accesses outside hip hopcode
    rw [hlast] at haccesses
    exact haccesses
  · intro s₀ n hreaches hn
    obtain ⟨k, hk⟩ : ∃ k, maxIterations - n = k + 1 := ⟨maxIterations - n - 1, by omega⟩
    rw [hreaches.exec (Nat.le_of_lt hn), hk]
    exact hloop k

/-- An `add` whose second register does not exist, where every register has been set. -/
theorem instruction_fails_addRR :
    let bytecode := Bytecode.mapped [3, 0, 12] (by decide)
    let s : State := State.started bytecode ⟨fun _ => 7, .create 0, none, 0, [], []⟩
    ∃ s', execLoop bytecode .unmapped maxIterations s = .ok false s' ∧ Untouched s s' := by
  intro bytecode s
  have hip : s.registers .ip = bytecode.base + UInt64.ofNat 0 := (UInt64.add_zero _).symm
  have hexec : (match instructionExec (Bytecode.mapped [3, 0, 12] (by decide)) .unmapped 3
      (State.access (State.started (Bytecode.mapped [3, 0, 12] (by decide)) ⟨fun _ => 7, .create 0, none, 0, [], []⟩)
        (.fetch 0x400000)) with
      | .ok _ s' => s'.bytecodeError.isSome
      | .error _ _ => false) = true := by decide +kernel
  split at hexec
  · next result s' h =>
    obtain ⟨hsame, -, hloop, -⟩ := instruction_fails hip rfl rfl h hexec
    exact ⟨s', hloop 998, hsame⟩
  · cases hexec


/-! ## Messages -/

theorem length_hex_le {width digits n : Nat} (hpos : 0 < digits) (hwidth : width ≤ digits) :
    (hex width n).length ≤ digits ↔ n < 16 ^ digits := by
  have hlength : (hex width n).length = width - (Nat.toDigits 16 n).length + (Nat.toDigits 16 n).length := by
    unfold hex
    rw [String.length_ofList, List.length_append, List.length_replicate]
  rw [hlength, ← Nat.length_toDigits_le_iff (by omega) hpos]
  omega

namespace ErrorSite

variable {site other : ErrorSite}

theorem length_message (site : ErrorSite) :
    site.message.length = site.text.length + (hex 2 site.number).length := String.length_append _ _

theorem length_text (site : ErrorSite) : site.text.length = match site with
    | .opcode _ => 18
    | .register _ => 20
    | .syscall _ => 19
    | .valueType _ => 22 := by
  cases site with
  | _ =>
    dsimp only [text]
    decide

theorem letter_message (site : ErrorSite) : site.message.toList[8]? = site.text.toList[8]? := by
  have hlength := site.length_text
  unfold message
  rw [String.toList_append]
  refine List.getElem?_append_left ?_
  rw [String.length_toList, hlength]
  cases site with
  | _ =>
    dsimp only
    decide

/-- A message says what was wrong. -/
theorem allocated_message (h : site.message = other.message) : site.allocated = other.allocated := by
  have hletter : site.text.toList[8]? = other.text.toList[8]? := by
    rw [← letter_message, h, letter_message]
  cases site with
  | _ =>
    cases other with
    | _ =>
      first
        | rfl
        | dsimp only [text] at hletter
          exact absurd hletter (by decide)

theorem fits_message (h : site.message = other.message) : site.Fits ↔ other.Fits := by
  unfold Fits
  rw [h, allocated_message h]

theorem fits_opcode (code : UInt8) : (ErrorSite.opcode code).Fits := by
  have hhex : (hex 2 code.toNat).length ≤ 2 := (length_hex_le (by omega) (Nat.le_refl 2)).mpr code.toNat_lt
  unfold Fits
  rw [length_message, length_text]
  show 18 + (hex 2 code.toNat).length + 1 ≤ 22
  omega

theorem fits_register (id : UInt8) : (ErrorSite.register id).Fits := by
  have hhex : (hex 2 id.toNat).length ≤ 2 := (length_hex_le (by omega) (Nat.le_refl 2)).mpr id.toNat_lt
  unfold Fits
  rw [length_message, length_text]
  show 20 + (hex 2 id.toNat).length + 1 ≤ 25
  omega

/-- Ten digits fit. -/
theorem fits_syscall (r0 : UInt64) : (ErrorSite.syscall r0).Fits ↔ r0.toNat < 0x10000000000 := by
  have hhex : (hex 2 r0.toNat).length ≤ 10 ↔ r0.toNat < 16 ^ 10 := length_hex_le (by omega) (by omega)
  unfold Fits
  rw [length_message, length_text]
  show 19 + (hex 2 r0.toNat).length + 1 ≤ 30 ↔ _
  omega

/-- Twelve digits fit. -/
theorem fits_valueType (r1 : UInt64) : (ErrorSite.valueType r1).Fits ↔ r1.toNat < 0x1000000000000 := by
  have hhex : (hex 2 r1.toNat).length ≤ 12 ↔ r1.toNat < 16 ^ 12 := length_hex_le (by omega) (by omega)
  unfold Fits
  rw [length_message, length_text]
  show 22 + (hex 2 r1.toNat).length + 1 ≤ 35 ↔ _
  omega

end ErrorSite

/-- An unknown system call, and one that is to print a value of an unknown type, set the error. -/
theorem syscall_overlong (h : s.Overlong) : ∃ (site : ErrorSite) (s' : State), instructionExec bytecode outside Opcode.syscall.code s =
    .ok none s' ∧ s'.bytecodeError = some site.message ∧ ¬ site.Fits := by
  have hsyscall : instructionExec bytecode outside Opcode.syscall.code s = syscall outside s := rfl
  rw [hsyscall]
  unfold syscall
  rw [bind_ok (readRegister_eq .r0 s)]
  rcases h with hr0 | ⟨hr0, hr1⟩
  · have hne : ∀ n : UInt64, n.toNat < 4 → s.registers .r0 ≠ n := by
      rintro n hn rfl
      omega
    rw [if_neg (hne 0 (by decide)), if_neg (hne 1 (by decide)), if_neg (hne 2 (by decide)), if_neg (hne 3 (by decide))]
    refine ⟨.syscall (s.registers .r0), _, rfl, rfl, ?_⟩
    rw [ErrorSite.fits_syscall]
    omega
  · have hne : ∀ n : UInt64, n.toNat < 4 → s.registers .r1 ≠ n := by
      rintro n hn rfl
      omega
    rw [hr0, if_neg (by decide), if_neg (by decide), if_neg (by decide), if_pos rfl]
    unfold sysPrint
    rw [bind_ok (readRegister_eq .r1 s), bind_ok (readRegister_eq .r2 s)]
    rw [if_neg (hne 0 (by decide)), if_neg (hne 1 (by decide)), if_neg (hne 2 (by decide)), if_neg (hne 3 (by decide))]
    refine ⟨.valueType (s.registers .r1), _, rfl, rfl, ?_⟩
    rw [ErrorSite.fits_valueType]
    omega

/-- The message fits its buffer, except for those of system calls with large arguments. -/
theorem messages_fit (hnone : s.bytecodeError = none) :
    (∀ result s' message, instructionExec bytecode outside opcode s = .ok result s' →
      s'.bytecodeError = some message → ∃ site : ErrorSite, message = site.message ∧ site.Fits) ↔
      ¬ (opcode = Opcode.syscall.code ∧ s.Overlong) := by
  constructor
  · rintro hfit ⟨rfl, hlong⟩
    obtain ⟨site, s', hexec, herror, hnot⟩ := syscall_overlong hlong
    obtain ⟨other, hmessage, hother⟩ := hfit _ _ _ hexec herror
    exact hnot ((ErrorSite.fits_message hmessage).mpr hother)
  · intro hshort result s' message hexec herror
    rcases instructionExec_fails hexec with hsame | ⟨-, site, hsite, hmessage⟩
    · rw [hsame, hnone] at herror
      cases herror
    refine ⟨site, Option.some.inj (herror.symm.trans hmessage), ?_⟩
    cases site with
    | opcode code => exact ErrorSite.fits_opcode code
    | register id => exact ErrorSite.fits_register id
    | syscall r0 =>
      obtain ⟨hopcode, rfl⟩ := hsite
      rw [ErrorSite.fits_syscall]
      by_contra hlong
      exact hshort ⟨hopcode, .inl (by omega)⟩
    | valueType r1 =>
      obtain ⟨hopcode, hr0, rfl⟩ := hsite
      rw [ErrorSite.fits_valueType]
      by_contra hlong
      exact hshort ⟨hopcode, .inr ⟨hr0, by omega⟩⟩


/-- The instruction is not a system call. -/
theorem messages_fit_addRR :
    ∃ site : ErrorSite, "Invalid register: 0x0c" = site.message ∧ site.Fits := by
  have hexec : (match instructionExec (Bytecode.mapped [3, 0, 12] (by decide)) .unmapped 3
      (State.started (Bytecode.mapped [3, 0, 12] (by decide)) ⟨fun _ => 7, .create 0, none, 0, [], []⟩) with
      | .ok _ s' => s'.bytecodeError == some "Invalid register: 0x0c"
      | .error _ _ => false) = true := by decide +kernel
  split at hexec
  · next result s' h =>
    refine (messages_fit rfl).mpr ?_ result s' _ h (eq_of_beq hexec)
    rintro ⟨hopcode, -⟩
    exact absurd hopcode (by decide)
  · cases hexec

/-- A value whose type is a large number is to be printed. -/
theorem messages_overflow :
    let s : State := ⟨fun reg => if reg = .r0 then 3 else 0x1000000000000, .create 0, none, 0, [], []⟩
    ¬ ∀ result s' message, instructionExec (Bytecode.mapped [4] (by decide)) .unmapped 4 s = .ok result s' →
      s'.bytecodeError = some message → ∃ site : ErrorSite, message = site.message ∧ site.Fits := by
  intro s hfit
  have hlong : s.Overlong := .inr ⟨rfl, by decide⟩
  obtain ⟨site, s', hexec, herror, hnot⟩ := syscall_overlong hlong
  obtain ⟨other, hmessage, hother⟩ := hfit _ _ _ hexec herror
  exact hnot ((ErrorSite.fits_message hmessage).mpr hother)

end Blaze.Vm
