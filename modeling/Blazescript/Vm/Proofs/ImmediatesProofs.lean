import Blazescript.Vm.Proofs.BoundariesProofs

/-!
# Proofs: immediates

A `mov` reads its immediate from the program when `%is` is the address of the program, and from
elsewhere when an earlier instruction has changed `%is`.
-/

namespace Blaze.Vm

open Running

variable {bytecode : Bytecode} {outside : Outside} {s s' s₀ : State} {off n : Nat} {i : Instr}
  {is : List Instr}

/-! ## Reachable states of a program of instructions -/

/-- The instructions before the one to come have been executed, one in each iteration. -/
theorem Reaches.split (hcode : bytecode.bytes = encodeAll is) (h : Reaches bytecode outside s₀ n s) :
    ∃ pre post, is = pre ++ post ∧ pre.length = n ∧ (encodeAll pre).length ≤ bytecode.size ∧
      s.registers .ip = bytecode.base + UInt64.ofNat (encodeAll pre).length := by
  induction h with
  | start => exact ⟨[], is, rfl, rfl, Nat.zero_le _, (UInt64.add_zero _).symm⟩
  | @next n s s' h hi ih =>
    obtain ⟨pre, post, rfl, hlen, hle, hip⟩ := ih
    have hpost := encodeAll_drop hcode
    cases post with
    | nil =>
      have hend := size_le_of_encodeAll_nil hpost
      rw [execIteration_end hip hend (by omega)] at hi
      cases hi
    | cons i post =>
      obtain ⟨hhead, -⟩ := drop_of_encodeAll hpost
      have hsize := length_of_code hhead (List.cons_ne_nil _ _)
      obtain ⟨-, hnext, -⟩ := execIteration_none hip (byte_of_encodeAll hpost) hi
      have henc : (encodeAll (pre ++ [i])).length = (encodeAll pre).length + i.size := by
        rw [encodeAll_append, encodeAll_cons, List.length_append, List.length_append]
        rfl
      refine ⟨pre ++ [i], post, by simp, by simp [hlen], ?_, ?_⟩
      · rw [henc]
        exact hsize
      · rw [henc, hnext, Instr.opcode_size]

/-- The instruction to come is one of the program, unless it has come to its end. -/
theorem Reaches.at_or_end (hcode : bytecode.bytes = encodeAll is)
    (h : Reaches bytecode outside s₀ n s) :
    (∃ off, ∃ i ∈ is, At bytecode s off i) ∨
      s.registers .ip = bytecode.base + UInt64.ofNat bytecode.size := by
  obtain ⟨pre, post, rfl, -, -, hip⟩ := h.split hcode
  have hpost := encodeAll_drop hcode
  cases post with
  | nil =>
    right
    rw [hip, Bytecode.size, hcode, List.append_nil]
  | cons i post =>
    left
    exact ⟨_, i, by simp, hip, (drop_of_encodeAll hpost).1⟩

/-! ## Registers that keep their values -/

theorem validateRegister_some {id : UInt8} {reg : RegisterType} (h : RegisterType.ofId id = some reg)
    (s : State) : validateRegister id s = .ok (some reg) s := by
  unfold validateRegister
  rw [h]
  rfl

theorem setRegister_ne {reg r : RegisterType} (h : r ≠ reg) (value : UInt64) (s : State) :
    (s.setRegister reg value).registers r = s.registers r := if_neg h

theorem setRegister_self (reg : RegisterType) (value : UInt64) (s : State) :
    (s.setRegister reg value).registers reg = value := if_pos rfl

/-- A valid instruction writes no register but its destination. -/
theorem Instr.act_registers {addr : UInt64} {result : Option UInt64} (hv : i.Valid)
    (h : i.act outside addr s = .ok result s') {reg : RegisterType} (hd : i.dest ≠ some reg) :
    s'.registers reg = s.registers reg := by
  have hvalid : ∀ id ∈ i.registers, ∃ r, RegisterType.ofId id = some r := by
    intro id hid
    exact Option.isSome_iff_exists.mp (hv id hid)
  cases i with
  | noOp | hlt | regdump | stackDmp =>
    cases h
    rfl
  | syscall => rw [(syscall_ok h).2]
  | movIR id imm =>
    obtain ⟨r, hr⟩ := hvalid id (List.mem_cons_self ..)
    have hne : r ≠ reg := fun heq => hd (hr.trans (congrArg some heq))
    rw [Instr.act, bind_ok (validateRegister_some hr s)] at h
    cases h
    exact setRegister_ne hne.symm _ _
  | addRR id1 id2 =>
    obtain ⟨reg1, hr1⟩ := hvalid id1 (by simp [Instr.registers])
    obtain ⟨reg2, hr2⟩ := hvalid id2 (by simp [Instr.registers])
    have hne : reg1 ≠ reg := fun heq => hd (hr1.trans (congrArg some heq))
    rw [Instr.act, bind_ok (validateRegister_some hr1 s)] at h
    simp only at h
    rw [bind_ok (validateRegister_some hr2 s)] at h
    cases h
    exact setRegister_ne hne.symm _ _
  | pushRB id =>
    obtain ⟨r, hr⟩ := hvalid id (List.mem_cons_self ..)
    rw [Instr.act, bind_ok (validateRegister_some hr s)] at h
    cases h
    rfl
  | popRB id =>
    obtain ⟨r, hr⟩ := hvalid id (List.mem_cons_self ..)
    have hne : r ≠ reg := fun heq => hd (hr.trans (congrArg some heq))
    rw [Instr.act, bind_ok (validateRegister_some hr s)] at h
    obtain ⟨byte, t, hpop, h⟩ := bind_eq_ok h
    cases h
    obtain ⟨t', t'', hget, hpop⟩ := bind_eq_ok hpop
    cases hget
    cases hst : s.stack.popByte with
    | none =>
      simp only [hst] at hpop
      cases hpop
    | some r =>
      simp only [hst] at hpop
      cases hpop
      exact setRegister_ne hne.symm _ _

/-- An instruction that is performed to its end has acted, and the next one follows. -/
theorem Instr.perform_none {addr : UInt64} (h : i.perform outside addr s = .ok none s') :
    i ≠ .hlt ∧ ∃ result t, i.act outside addr s = .ok result t ∧ t.bytecodeError = none ∧
      s' = t.setRegister .ip (result.getD (t.registers .ip + 1)) := by
  unfold Instr.perform at h
  by_cases hi : i = .hlt
  · rw [if_pos hi] at h
    cases h
  rw [if_neg hi] at h
  obtain ⟨result, t, hact, hfin⟩ := bind_eq_ok h
  rcases finish_ok hfin with ⟨hr, -⟩ | ⟨-, he, hs'⟩
  · cases hr
  · exact ⟨hi, result, t, hact, he, hs'⟩

/-- An instruction that acts without an error is performed to its end. -/
theorem Instr.perform_eq {addr : UInt64} {result : Option UInt64} (hi : i ≠ .hlt)
    (hact : i.act outside addr s = .ok result s') (he : s'.bytecodeError = none) :
    i.perform outside addr s =
      .ok none (s'.setRegister .ip (result.getD (s'.registers .ip + 1))) := by
  have hnot : ¬ s'.bytecodeError.isSome := by simp [he]
  unfold Instr.perform
  rw [if_neg hi, bind_ok hact]
  have hget : (get : Action State) s' = .ok s' s' := rfl
  rw [Instr.finish, bind_ok hget, if_neg hnot]
  rfl

/-- As long as no instruction of the program writes `%is`, it is the address of the program. -/
theorem Reaches.is_eq (hcode : bytecode.bytes = encodeAll is) (hvalid : ∀ i ∈ is, i.Valid)
    (hdest : ∀ i ∈ is, i.dest ≠ some .is) (h : Reaches bytecode outside s₀ n s) :
    s.registers .is = bytecode.base := by
  induction h with
  | start => exact setRegister_self .is bytecode.base _
  | @next n s s' h hi ih =>
    rcases h.at_or_end hcode with ⟨off, i, hmem, hat⟩ | hend
    · rw [execIteration_eq hat fun _ _ _ _ => ih] at hi
      obtain ⟨-, result, t, hact, -, rfl⟩ := Instr.perform_none hi
      rw [setRegister_ne (by decide), Instr.act_registers (hvalid i hmem) hact (hdest i hmem)]
      exact ih
    · rw [execIteration_end hend (Nat.le_refl _) (by omega)] at hi
      cases hi

/-! ## What a `mov` reads -/

theorem loadAs_ok {kind : UInt64 → Access} {addr : UInt64} {b : UInt8}
    (h : loadAs bytecode outside kind addr s = .ok b s') : s' = s.accessAll [kind addr] := by
  unfold loadAs at h
  cases hb : bytecode.bytes[bytecode.offset addr]?.or (outside.byte s addr) with
  | none =>
    simp only [hb] at h
    cases h
  | some b' =>
    simp only [hb] at h
    cases h
    rfl

theorem loadLittleEndian_ok (n : Nat) : ∀ (addr : UInt64) (s s' : State) (value : UInt64),
    loadLittleEndian bytecode outside n addr s = .ok value s' →
      s' = s.accessAll ((List.range n).map fun j => .load (addr + UInt64.ofNat j)) := by
  induction n with
  | zero =>
    intro addr s s' value h
    cases h
    exact congrArg (fun as => { s with accesses := as }) (List.append_nil _).symm
  | succ n ih =>
    intro addr s s' value h
    obtain ⟨b, t, hb, h⟩ := bind_eq_ok h
    obtain ⟨rest, t', hrest, h⟩ := bind_eq_ok h
    cases h
    rw [ih _ _ _ _ hrest, loadAs_ok hb, accessAll_accessAll, List.range_succ_eq_map, List.map_cons,
      List.map_map]
    have hfun : (fun j => Access.load (addr + 1 + UInt64.ofNat j)) =
        (fun j => .load (addr + UInt64.ofNat j)) ∘ Nat.succ := by
      funext j
      show Access.load (addr + UInt64.ofNat 1 + UInt64.ofNat j) = .load (addr + UInt64.ofNat (j + 1))
      rw [add_ofNat, Nat.add_comm 1 j]
    have hzero : addr + UInt64.ofNat 0 = addr := UInt64.add_zero addr
    rw [hfun, hzero]
    rfl

/-- An iteration on a `mov` with a valid destination. -/
theorem execIteration_movIR {reg : UInt8} {imm : UInt64} {d : RegisterType}
    (hat : At bytecode s off (.movIR reg imm)) (hreg : RegisterType.ofId reg = some d) :
    execIteration bytecode outside s =
      (do
        let value ← bytecodeGetQword bytecode outside (s.registers .ip + 1 + 1 - s.registers .is)
        writeRegister d value
        Instr.finish (some (s.registers .ip + 1 + 9)) : Action (Option Bool))
        (s.accessAll [.fetch (s.registers .ip), .load (s.registers .ip + 1)]) := by
  have hbyte : bytecode.bytes[off]? = some Opcode.movIR.code := by
    have := byte_of_code hat.code (j := 0) (by simp [Instr.encode])
    rwa [Nat.add_zero] at this
  have hload := load_of_code outside hat.code (j := 1) rfl .load
    (s.accessAll [.fetch (s.registers .ip)])
  have haddr : bytecode.base + UInt64.ofNat (off + 1) = s.registers .ip + 1 := by
    rw [hat.ip, ← add_ofNat]
    rfl
  rw [haddr, accessAll_accessAll] at hload
  have hmov : movIR bytecode outside (s.registers .ip) (s.accessAll [.fetch (s.registers .ip)]) =
      (do
        let value ← bytecodeGetQword bytecode outside (s.registers .ip + 1 + 1 - s.registers .is)
        writeRegister d value
        pure (some (s.registers .ip + 1 + 9)) : Action (Option UInt64))
        (s.accessAll [.fetch (s.registers .ip), .load (s.registers .ip + 1)]) := by
    rw [movIR, bind_ok hload, bind_ok (validateRegister_some hreg _)]
    rfl
  rw [execIteration_byte hat.ip hbyte, if_neg (by decide)]
  show (movIR bytecode outside (s.registers .ip) >>= Instr.finish) _ = _
  rw [bind_of_eq Instr.finish hmov]
  simp only [bind_assoc, pure_bind]

/-- A `mov` that is performed to its end has read eight bytes from the place to which `%is` leads. -/
theorem movIR_accesses {reg : UInt8} {imm : UInt64} {d : RegisterType}
    (hat : At bytecode s off (.movIR reg imm)) (hreg : RegisterType.ofId reg = some d)
    (h : execIteration bytecode outside s = .ok none s') :
    s'.accesses = s.accesses ++ (.fetch (s.registers .ip) :: .load (s.registers .ip + 1) ::
      (List.range 8).map fun j => .load
        (bytecode.base + (s.registers .ip + 1 + 1 - s.registers .is) + UInt64.ofNat j)) := by
  rw [execIteration_movIR hat hreg] at h
  obtain ⟨value, t, hvalue, h⟩ := bind_eq_ok h
  obtain ⟨u, t', hwrite, h⟩ := bind_eq_ok h
  cases hwrite
  rcases finish_ok h with ⟨hr, -⟩ | ⟨-, -, rfl⟩
  · cases hr
  show t.accesses = _
  rw [loadLittleEndian_ok 8 _ _ _ _ hvalue]
  exact List.append_assoc ..

/-- Where `%is` leads the eight reads of a `mov`. -/
theorem immediate_addr {ip is base : UInt64} :
    base + (ip + 1 + 1 - is) + UInt64.ofNat 0 = ip + 2 + UInt64.ofNat 0 ↔ is = base := by
  have hzero : UInt64.ofNat 0 = 0 := rfl
  have htwo : ip + 1 + 1 = ip + 2 := by
    rw [UInt64.add_assoc]
    rfl
  rw [hzero, UInt64.add_zero, UInt64.add_zero, htwo]
  constructor
  · intro h
    grind
  · rintro rfl
    rw [UInt64.add_comm, UInt64.sub_add_cancel]

/-- The value of the eight bytes after the register byte of a `mov`. -/
theorem immediate_value {reg : UInt8} {imm : UInt64} (hat : At bytecode s off (.movIR reg imm)) :
    leValue ((bytecode.bytes.drop (off + 2)).take 8) = imm := by
  have himm : leBytes 8 imm <+: bytecode.bytes.drop (off + 2) :=
    prefix_drop hat.code (j := 2) (by simp [Instr.encode, Instr.operands])
  have htake := List.prefix_iff_eq_take.mp himm
  rw [length_leBytes] at htake
  rw [← htake, leValue_leBytes 8 imm imm.toNat_lt]

theorem moves_accesses {reg : UInt8} {imm : UInt64} {d : RegisterType}
    (hat : At bytecode s off (.movIR reg imm)) (hreg : RegisterType.ofId reg = some d) :
    ownAccesses bytecode off = (Instr.movIR reg imm).accesses (s.registers .ip) := by
  have haddr : ∀ j, bytecode.base + UInt64.ofNat (off + j) = s.registers .ip + UInt64.ofNat j := by
    intro j
    rw [hat.ip, add_ofNat]
  have hassoc : ∀ j, s.registers .ip + 2 + UInt64.ofNat j = s.registers .ip + UInt64.ofNat (2 + j) :=
    fun j => add_ofNat _ 2 j
  have hzero : s.registers .ip + UInt64.ofNat 0 = s.registers .ip := UInt64.add_zero _
  simp only [ownAccesses, Instr.accesses, hreg, Option.isSome_some, if_true, haddr, hassoc]
  simp [List.range_succ]

/-- With the address of the program in `%is`, a `mov` does as it should. -/
theorem moves_of_is {reg : UInt8} {imm : UInt64} {d : RegisterType} (he : s.bytecodeError = none)
    (hat : At bytecode s off (.movIR reg imm)) (hreg : RegisterType.ofId reg = some d) (hne : d ≠ .ip)
    (his : s.registers .is = bytecode.base) : Moves bytecode outside s off d := by
  have hact : (Instr.movIR reg imm).act outside (s.registers .ip)
      (s.accessAll ((Instr.movIR reg imm).accesses (s.registers .ip))) =
        .ok (some (s.registers .ip + 10))
          ((s.accessAll ((Instr.movIR reg imm).accesses (s.registers .ip))).setRegister d imm) := by
    rw [Instr.act, bind_ok (validateRegister_some hreg _)]
    rfl
  have hexec := @execIteration_eq _ outside _ _ _ hat fun _ _ _ _ => his
  rw [Instr.perform_eq (by simp) hact he] at hexec
  refine ⟨_, hexec, ?_, ?_⟩
  · rw [setRegister_ne hne, setRegister_self, immediate_value hat]
  · rw [moves_accesses hat hreg]
    rfl

/-- With any other value in `%is`, a `mov` reads elsewhere. -/
theorem is_of_accesses {reg : UInt8} {imm : UInt64} {d : RegisterType}
    (hat : At bytecode s off (.movIR reg imm)) (hreg : RegisterType.ofId reg = some d)
    (h : execIteration bytecode outside s = .ok none s')
    (hacc : s'.accesses = s.accesses ++ ownAccesses bytecode off) :
    s.registers .is = bytecode.base := by
  rw [moves_accesses hat hreg, movIR_accesses hat hreg h, Instr.accesses, hreg] at hacc
  have hlist := List.append_cancel_left hacc
  simp only [List.cons.injEq, true_and, Option.isSome_some, if_true] at hlist
  have hfirst := congrArg (fun l : List Access => l[0]?) hlist
  simp only [List.getElem?_map, List.getElem?_range, Option.map_some, Option.some.injEq,
    Access.load.injEq, Nat.zero_lt_succ] at hfirst
  exact immediate_addr.mp hfirst

/-- In every state that a program of complete valid instructions reaches, a `mov` takes its immediate
from the program if and only if `%is` is the address of the program. As long as no instruction writes
`%is`, it is. -/
theorem mov_immediate (outside : Outside) (bytecode : Bytecode) (is : List Instr)
    (hcode : bytecode.bytes = encodeAll is) (hvalid : ∀ i ∈ is, i.Valid) (s₀ : State)
    (he : s₀.bytecodeError = none) (n : Nat) (s : State) (h : Reaches bytecode outside s₀ n s)
    (off : Nat) (reg : UInt8) (imm : UInt64) (hat : At bytecode s off (.movIR reg imm))
    (dest : RegisterType) (hreg : RegisterType.ofId reg = some dest) (hne : dest ≠ .ip) :
    (Moves bytecode outside s off dest ↔ s.registers .is = bytecode.base) ∧
      ((∀ i ∈ is, i.dest ≠ some .is) → Moves bytecode outside s off dest) := by
  have hmoves : s.registers .is = bytecode.base → Moves bytecode outside s off dest :=
    fun his => moves_of_is (h.error he) hat hreg hne his
  refine ⟨⟨fun hm => ?_, hmoves⟩, fun hdest => hmoves (h.is_eq hcode hvalid hdest)⟩
  obtain ⟨s', hexec, -, hacc⟩ := hm
  exact is_of_accesses hat hreg hexec hacc

theorem eq_of_goesOn {r : EStateM.Result Stop State (Option Bool)} (h : goesOn r) :
    r = .ok none (finalState r) := by
  cases r with
  | error e s => cases h
  | ok ret s =>
    cases ret with
    | some b => cases h
    | none => rfl

/-- A `mov` whose destination is `%is` itself finds its immediate. -/
theorem mov_immediate_is :
    let bytecode := Bytecode.mapped (encodeAll [.movIR 11 4096, .hlt]) (by decide)
    Moves bytecode .unmapped (initialState.started bytecode) 0 .is := by
  intro bytecode
  have hat : At bytecode (initialState.started bytecode) 0 (.movIR 11 4096) := ⟨rfl, by decide⟩
  exact (mov_immediate .unmapped bytecode [.movIR 11 4096, .hlt] rfl (by decide) initialState rfl 0 _
    .start 0 11 4096 hat .is rfl (by decide)).1.mpr rfl

/-- The next `mov` does not. -/
theorem mov_immediate_lost :
    let bytecode := Bytecode.mapped (encodeAll [.movIR 11 4096, .movIR 0 5, .hlt]) (by decide)
    ∃ s, Reaches bytecode .unmapped initialState 1 s ∧ At bytecode s 10 (.movIR 0 5) ∧
      ¬ Moves bytecode .unmapped s 10 .r0 := by
  intro bytecode
  let s := finalState (execIteration bytecode .unmapped (initialState.started bytecode))
  have hat : At bytecode s 10 (.movIR 0 5) := ⟨by decide +kernel, by decide⟩
  have hgoes : goesOn (execIteration bytecode .unmapped (initialState.started bytecode)) := by
    decide +kernel
  refine ⟨s, .next .start (eq_of_goesOn hgoes), hat, fun hm => ?_⟩
  obtain ⟨s', hexec, -, hacc⟩ := hm
  have his : s.registers .is = bytecode.base := is_of_accesses hat rfl hexec hacc
  have hother : s.registers .is ≠ bytecode.base := by decide +kernel
  exact hother his

end Blaze.Vm
