import Blazescript.Running.Proofs.ComputationProofs
import Blazescript.Vm.Proofs.ProgramProofs

/-!
# Proofs: instructions

An iteration of the loop on the code of an instruction reads that code and performs the instruction,
as long as `%is` is the address of the program when an immediate is read.
-/

namespace Blaze.Vm

open Running

variable {bytecode : Bytecode} {outside : Outside} {s : State} {off : Nat} {i : Instr}

theorem readRegister_eq (reg : RegisterType) (s : State) :
    readRegister reg s = .ok (s.registers reg) s := rfl

theorem accessAll_accessAll (as bs : List Access) (s : State) :
    (s.accessAll as).accessAll bs = s.accessAll (as ++ bs) := by
  unfold State.accessAll
  simp only [List.append_assoc]

theorem access_eq (a : Access) (s : State) : s.access a = s.accessAll [a] := rfl

/-! ## The code of an instruction -/

theorem Instr.size_pos (i : Instr) : 0 < i.size := Nat.succ_pos _

theorem Instr.size_le (i : Instr) : i.size ≤ 10 := by
  cases i <;> simp [Instr.size, Instr.encode, Instr.operands, length_leBytes]

/-- The bytes of the program from an offset on. -/
theorem byte_of_code {bs : List UInt8} (h : bs <+: bytecode.bytes.drop off) {j : Nat}
    (hj : j < bs.length) : bytecode.bytes[off + j]? = bs[j]? := by
  obtain ⟨rest, hrest⟩ := h
  have hdrop : (bytecode.bytes.drop off)[j]? = bytecode.bytes[off + j]? := List.getElem?_drop
  rw [← hdrop, ← hrest, List.getElem?_append_left hj]

theorem length_of_code {bs : List UInt8} (h : bs <+: bytecode.bytes.drop off) (hne : bs ≠ []) :
    off + bs.length ≤ bytecode.size := by
  have hle := h.length_le
  rw [List.length_drop] at hle
  have hpos := List.length_pos_of_ne_nil hne
  have hsize : bytecode.bytes.length = bytecode.size := rfl
  omega

theorem prefix_drop {bs : List UInt8} (h : bs <+: bytecode.bytes.drop off) {j : Nat}
    (hj : j ≤ bs.length) : bs.drop j <+: bytecode.bytes.drop (off + j) := by
  obtain ⟨t, ht⟩ := h
  have hdrop : bytecode.bytes.drop (off + j) = (bytecode.bytes.drop off).drop j := List.drop_drop.symm
  refine ⟨t, ?_⟩
  rw [hdrop, ← ht, List.drop_append_of_le_length hj]

theorem At.size_le (h : At bytecode s off i) : off + i.size ≤ bytecode.size :=
  length_of_code h.code (List.cons_ne_nil _ _)

theorem Bytecode.size_lt (bytecode : Bytecode) : bytecode.base.toNat + bytecode.size < 0x8000000000000000 :=
  bytecode.fits

variable (outside) in
/-- Reading a byte of the program. -/
theorem load_of_code {bs : List UInt8} (h : bs <+: bytecode.bytes.drop off) {j : Nat} {b : UInt8}
    (hb : bs[j]? = some b) (kind : UInt64 → Access) (s : State) :
    loadAs bytecode outside kind (bytecode.base + UInt64.ofNat (off + j)) s =
      .ok b (s.accessAll [kind (bytecode.base + UInt64.ofNat (off + j))]) := by
  have hj : j < bs.length := (List.getElem?_eq_some_iff.mp hb).1
  have hle := length_of_code h (List.ne_nil_of_length_pos (by omega))
  have hsize := bytecode.size_lt
  refine loadAs_eq s ?_
  rw [Bytecode.offset_base_add _ (by omega), byte_of_code h hj, hb]

variable (outside) in
/-- Reading some bytes of the program. -/
theorem loadLittleEndian_of_code (bs : List UInt8) :
    ∀ (off : Nat) (s : State), bs <+: bytecode.bytes.drop off →
      loadLittleEndian bytecode outside bs.length (bytecode.base + UInt64.ofNat off) s =
        .ok (leValue bs) (s.accessAll ((List.range bs.length).map fun j =>
          .load (bytecode.base + UInt64.ofNat (off + j)))) := by
  induction bs with
  | nil =>
    intro off s _
    show EStateM.Result.ok _ s = _
    simp [leValue, State.accessAll]
  | cons b bs ih =>
    intro off s h
    have hrest : bs <+: bytecode.bytes.drop (off + 1) := prefix_drop h (j := 1) (by simp)
    have hbyte := load_of_code outside h (j := 0) rfl .load s
    rw [Nat.add_zero] at hbyte
    have haddr : bytecode.base + UInt64.ofNat off + 1 = bytecode.base + UInt64.ofNat (off + 1) :=
      add_ofNat _ off 1
    rw [List.length_cons, loadLittleEndian, bind_ok hbyte, haddr, bind_ok (ih (off + 1) _ hrest)]
    show EStateM.Result.ok (leValue (b :: bs)) _ = _
    have hfun : (fun j => Access.load (bytecode.base + UInt64.ofNat (off + 1 + j))) =
        (fun j => .load (bytecode.base + UInt64.ofNat (off + j))) ∘ Nat.succ := by
      funext j
      show _ = Access.load (bytecode.base + UInt64.ofNat (off + (j + 1)))
      rw [Nat.add_assoc, Nat.add_comm 1 j]
    rw [accessAll_accessAll, List.range_succ_eq_map, List.map_cons, List.map_map, hfun]
    rfl

/-! ## One iteration -/

/-- The handler of an instruction reads its operands and does what the instruction does. -/
theorem handler_eq (h : At bytecode s off i)
    (his : ∀ reg imm, i = .movIR reg imm → (RegisterType.ofId reg).isSome →
      s.registers .is = bytecode.base) :
    handler bytecode outside i.opcode (s.registers .ip) (s.accessAll [.fetch (s.registers .ip)]) =
      i.act outside (s.registers .ip) (s.accessAll (i.accesses (s.registers .ip))) := by
  have hip := h.ip
  have hop : ∀ (j : Nat) (b : UInt8) (t : State), i.encode[j]? = some b →
      loadAs bytecode outside .load (s.registers .ip + UInt64.ofNat j) t =
        .ok b (t.accessAll [.load (s.registers .ip + UInt64.ofNat j)]) := by
    intro j b t hb
    rw [hip, add_ofNat]
    exact load_of_code outside h.code hb .load t
  cases i with
  | noOp | hlt | syscall | regdump | stackDmp => rfl
  | pushRB reg =>
    have h1 := hop 1 reg (s.accessAll [.fetch (s.registers .ip)]) rfl
    show pushRB bytecode outside _ _ = _
    unfold pushRB
    exact (bind_ok h1).trans (by rw [accessAll_accessAll]; rfl)
  | popRB reg =>
    have h1 := hop 1 reg (s.accessAll [.fetch (s.registers .ip)]) rfl
    show popRB bytecode outside _ _ = _
    unfold popRB
    exact (bind_ok h1).trans (by rw [accessAll_accessAll]; rfl)
  | addRR reg1 reg2 =>
    have h1 := hop 1 reg1 (s.accessAll [.fetch (s.registers .ip)]) rfl
    have h2 := hop 2 reg2 (s.accessAll
      ([.fetch (s.registers .ip)] ++ [.load (s.registers .ip + UInt64.ofNat 1)])) rfl
    show addRR bytecode outside _ _ = _
    unfold addRR
    refine (bind_ok h1).trans ?_
    rw [accessAll_accessAll]
    exact (bind_ok h2).trans (by rw [accessAll_accessAll]; rfl)
  | movIR reg imm =>
    have h1 := hop 1 reg (s.accessAll [.fetch (s.registers .ip)]) rfl
    have himm : leBytes 8 imm <+: bytecode.bytes.drop (off + 2) :=
      prefix_drop h.code (j := 2) (by simp [Instr.encode, Instr.operands])
    show movIR bytecode outside _ _ = _
    unfold movIR
    refine (bind_ok h1).trans ?_
    rw [accessAll_accessAll]
    cases hreg : RegisterType.ofId reg with
    | none =>
      have hv : validateRegister reg = (do
          setError ("Invalid register: 0x" ++ hex 2 reg.toNat)
          pure none) := by unfold validateRegister; rw [hreg]
      simp only [Instr.act, Instr.accesses, hv, hreg]
      rfl
    | some r =>
      have his' := his reg imm rfl (by rw [hreg]; rfl)
      have hv : ∀ t : State, validateRegister reg t = .ok (some r) t := by
        intro t
        unfold validateRegister
        rw [hreg]
        rfl
      have haddr : bytecode.base + (s.registers .ip + 1 + 1 - bytecode.base) =
          bytecode.base + UInt64.ofNat (off + 2) := by
        rw [UInt64.add_comm, UInt64.sub_add_cancel, hip]
        exact (congrArg (· + 1) (add_ofNat _ off 1)).trans (add_ofNat _ (off + 1) 1)
      have hload := loadLittleEndian_of_code outside (leBytes 8 imm) (off + 2)
        (s.accessAll [.fetch (s.registers .ip), .load (s.registers .ip + 1)]) himm
      rw [length_leBytes, leValue_leBytes 8 imm imm.toNat_lt, accessAll_accessAll, ← haddr] at hload
      refine (bind_ok (hv _)).trans ((bind_ok (readRegister_eq .is _)).trans ?_)
      show (bytecodeGetQword bytecode outside (s.registers .ip + 1 + 1 - s.registers .is) >>= _) _ = _
      rw [his']
      refine (bind_ok hload).trans ?_
      simp only [Instr.act, Instr.accesses, hreg, Option.isSome_some, if_true]
      refine Eq.trans ?_ (bind_ok (hv _)).symm
      have hacc : ∀ j, bytecode.base + UInt64.ofNat (off + 2 + j) =
          s.registers .ip + 2 + UInt64.ofNat j := by
        intro j
        rw [hip, ← add_ofNat, ← add_ofNat]
        rfl
      simp only [hacc]
      have hten : s.registers .ip + 1 + 9 = s.registers .ip + 10 := by
        rw [UInt64.add_assoc]
        rfl
      rw [hten]
      rfl

/-- An iteration reads the code of an instruction and performs it. -/
theorem execIteration_eq (h : At bytecode s off i)
    (his : ∀ reg imm, i = .movIR reg imm → (RegisterType.ofId reg).isSome →
      s.registers .is = bytecode.base) :
    execIteration bytecode outside s =
      i.perform outside (s.registers .ip) (s.accessAll (i.accesses (s.registers .ip))) := by
  have hsize := bytecode.size_lt
  have hle := h.size_le
  have hpos := i.size_pos
  have hlt : ¬ (s.registers .ip).toNat ≥ bytecode.base.toNat + bytecode.size := by
    rw [h.ip, toNat_add_ofNat (by omega)]
    omega
  have hload := load_of_code outside h.code (j := 0) (b := i.opcode.code) rfl .fetch s
  rw [Nat.add_zero, ← h.ip] at hload
  have hcode : i.opcode.code = Opcode.hlt.code ↔ i = .hlt := by
    cases i <;> simp [Instr.opcode, Opcode.code]
  rw [execIteration, bind_ok (readRegister_eq .ip s), if_neg hlt, bind_ok hload, Instr.perform]
  by_cases hi : i = .hlt
  · rw [if_pos hi, if_pos (hcode.mpr hi)]
    subst hi
    rfl
  · rw [if_neg hi, if_neg (mt hcode.mp hi)]
    have hexec : instructionExec bytecode outside i.opcode.code (s.accessAll [.fetch (s.registers .ip)])
        = i.act outside (s.registers .ip) (s.accessAll (i.accesses (s.registers .ip))) := by
      rw [← handler_eq h his, instructionExec, Opcode.ofCode_code]
      rfl
    show EStateM.bind _ _ _ = EStateM.bind _ _ _
    unfold EStateM.bind
    rw [hexec]
    rfl

end Blaze.Vm
