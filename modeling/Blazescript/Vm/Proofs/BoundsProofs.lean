import Blazescript.Vm.Proofs.ExitProofs
import Blazescript.Vm.Bounds

/-!
# Proofs: bounds

The disassembler checks nothing before it reads an instruction, so it stays in the program only if that
is a sequence of complete instructions. The machine then stays in it as long as `%is` leads each `mov`
to a place in the program.
-/

namespace Blaze.Vm

open Running

variable {bytecode : Bytecode} {outside : Outside} {s s' s₀ : State} {off n : Nat} {i : Instr}
  {is : List Instr}

/-! ## The reads of the disassembler, whatever the bytes -/

section Disassemble

variable {A : Access → Prop} {E : Stop → Prop}

theorem reads_tableEntry_any {α : Type} (opcode : UInt8) (table : Opcode → α)
    (hA : ∀ index, A (.table index)) (hE : E .undefined) :
    Reads A E (tableEntry opcode table) fun _ => True := by
  intro s
  refine ⟨[.table opcode.toNat], ?_, by simpa using hA _, ?_⟩ <;> unfold tableEntry <;>
    cases Opcode.ofCode opcode
  · rfl
  · rfl
  · exact hE
  · trivial

theorem reads_dumpBytes_any (hA : ∀ addr, A (.load addr)) (hE : E .killed) (n : Nat) :
    ∀ addr, Reads A E (dumpBytes bytecode outside n addr) fun _ => True := by
  induction n with
  | zero => exact fun addr => reads_pure trivial
  | succ n ih =>
    intro addr
    refine (reads_loadAs (hA addr) hE).bind fun byte _ => (reads_print _).bind fun _ _ => ?_
    exact ih (addr + 1)

theorem reads_disassembleOperand_any (hA : ∀ addr, A (.load addr)) (hE : E .killed)
    (info : OperandInfo) (i : UInt64) :
    Reads A E (disassembleOperand bytecode outside info i) fun _ => True := by
  have hget : ∀ n addr, Reads A E (loadLittleEndian bytecode outside n addr) fun _ => True :=
    fun n addr => reads_loadLittleEndian hA hE n addr
  unfold disassembleOperand
  refine reads_ite (fun _ => ?_) fun _ => ?_
  · refine (hget 1 _).bind fun id _ => Reads.bind (Q := fun _ => True) ?_ fun name _ => reads_print _
    unfold registerIdToStr
    cases RegisterType.ofId id.toUInt8 with
    | some reg => exact reads_pure trivial
    | none =>
      cases outside.registerName id.toUInt8 with
      | some name => exact reads_pure trivial
      | none => exact reads_throw hE
  · split
    · exact (hget 1 _).bind fun _ _ => reads_print _
    · exact (hget 2 _).bind fun _ _ => reads_print _
    · exact (hget 4 _).bind fun _ _ => reads_print _
    · exact (hget 8 _).bind fun _ _ => reads_print _
    · exact reads_pure trivial

theorem reads_disassembleOperands_any (hA : ∀ addr, A (.load addr)) (hE : E .killed)
    (info : OperandInfo × OperandInfo) (i : UInt64) :
    Reads A E (disassembleOperands bytecode outside info i) fun _ => True := by
  have hsecond : Reads A E (if info.2.size > 0 then do
      print (.text ", ")
      disassembleOperand bytecode outside info.2 (i + UInt64.ofNat info.1.size)
      else pure () : Action Unit) fun _ => True := by
    refine reads_ite (fun _ => ?_) fun _ => reads_pure trivial
    exact (reads_print _).bind fun _ _ => reads_disassembleOperand_any hA hE _ _
  exact reads_ite (fun _ => (reads_disassembleOperand_any hA hE _ _).bind fun _ _ => hsecond)
    fun _ => hsecond

theorem reads_disassembleRest_any (hA : ∀ addr, A (.load addr)) (hT : ∀ index, A (.table index))
    (hk : E .killed) (hu : E .undefined) (i : Nat) (opcode : UInt8) :
    Reads A E (disassembleRest bytecode outside i opcode) fun _ => True := by
  have hentry : ∀ {α : Type} (table : Opcode → α), Reads A E (tableEntry opcode table) fun _ => True :=
    fun table => reads_tableEntry_any opcode table hT hu
  unfold disassembleRest
  refine Reads.bind (Q := fun _ => True) ?_ fun info _ => (hentry _).bind fun str _ => ?_
  · exact (hentry _).bind fun _ _ => (hentry _).bind fun _ _ => reads_pure trivial
  refine (reads_print _).bind fun _ _ => (reads_dumpBytes_any hA hk _ _).bind fun _ _ => ?_
  refine (reads_print _).bind fun _ _ => reads_ite (fun _ => ?_) fun _ => ?_
  · exact (reads_print _).bind fun _ _ => reads_pure trivial
  · refine (reads_print _).bind fun _ _ => Reads.bind (Q := fun _ => True) ?_ fun _ _ => ?_
    · exact reads_disassembleOperands_any hA hk info _
    · exact (reads_print _).bind fun _ _ => reads_pure trivial

end Disassemble

variable (bytecode outside) in
/-- The disassembler reports nothing. -/
theorem reads_disassembleLoop (n : Nat) : ∀ i,
    Reads (fun _ => True) (fun e => ∀ msg, e ≠ .fatal msg) (disassembleLoop bytecode outside n i)
      fun _ => True := by
  induction n with
  | zero => exact fun i => reads_pure trivial
  | succ n ih =>
    intro i
    refine reads_ite (fun _ => ?_) fun _ => reads_pure trivial
    refine Reads.bind (Q := fun _ => True) ?_ fun size _ => ih (i + size)
    refine (reads_loadAs trivial fun msg => by simp).bind fun opcode _ => ?_
    exact reads_disassembleRest_any (fun _ => trivial) (fun _ => trivial) (fun msg => by simp)
      (fun msg => by simp) i opcode

/-! ## A program that has been disassembled -/

/-- The record of the reads grows. -/
theorem Reads.grows {α : Type} {A : Access → Prop} {E : Stop → Prop} {Q : α → Prop} {x : Action α}
    (hx : Reads A E x Q) {a : α} (h : x s = .ok a s') : ∃ as, s'.accesses = s.accesses ++ as := by
  obtain ⟨as, has, -⟩ := hx s
  rw [h] at has
  exact ⟨as, has⟩

/-- An opcode and as many bytes as its operands have are an instruction. -/
theorem exists_instr (op : Opcode) {bs : List UInt8}
    (h : bs.length = op.operandSizes.1 + op.operandSizes.2) : ∃ i : Instr, i.encode = op.code :: bs := by
  cases op with
  | noOp =>
    obtain rfl := List.eq_nil_of_length_eq_zero h
    exact ⟨.noOp, rfl⟩
  | hlt =>
    obtain rfl := List.eq_nil_of_length_eq_zero h
    exact ⟨.hlt, rfl⟩
  | syscall =>
    obtain rfl := List.eq_nil_of_length_eq_zero h
    exact ⟨.syscall, rfl⟩
  | regdump =>
    obtain rfl := List.eq_nil_of_length_eq_zero h
    exact ⟨.regdump, rfl⟩
  | stackDmp =>
    obtain rfl := List.eq_nil_of_length_eq_zero h
    exact ⟨.stackDmp, rfl⟩
  | pushRB =>
    obtain ⟨reg, rfl⟩ := List.length_eq_one_iff.mp h
    exact ⟨.pushRB reg, rfl⟩
  | popRB =>
    obtain ⟨reg, rfl⟩ := List.length_eq_one_iff.mp h
    exact ⟨.popRB reg, rfl⟩
  | addRR =>
    obtain ⟨reg1, reg2, rfl⟩ := List.length_eq_two.mp h
    exact ⟨.addRR reg1 reg2, rfl⟩
  | movIR =>
    cases bs with
    | nil => cases h
    | cons reg bs =>
      have hlen : bs.length = 8 := Nat.succ.inj h
      obtain ⟨hbytes, -⟩ := leBytes_leValue bs (by omega)
      rw [hlen] at hbytes
      refine ⟨.movIR reg (leValue bs), ?_⟩
      rw [Instr.encode, Instr.operands, hbytes]
      rfl

theorem tableEntry_ok {α : Type} {opcode : UInt8} {table : Opcode → α} {a : α}
    (h : tableEntry opcode table s = .ok a s') : ∃ op, Opcode.ofCode opcode = some op := by
  unfold tableEntry at h
  cases hop : Opcode.ofCode opcode with
  | none =>
    rw [hop] at h
    cases h
  | some op => exact ⟨op, rfl⟩

/-- The bytes of an instruction are read one after the other. -/
theorem dumpBytes_ok (n : Nat) : ∀ (addr : UInt64) (s s' : State),
    dumpBytes bytecode outside n addr s = .ok () s' →
      ∀ j < n, Access.load (addr + UInt64.ofNat j) ∈ s'.accesses := by
  induction n with
  | zero =>
    intro addr s s' _ j hj
    omega
  | succ n ih =>
    intro addr s s' h j hj
    obtain ⟨b, t, hb, h⟩ := bind_eq_ok h
    obtain ⟨u, t', hp, h⟩ := bind_eq_ok h
    have hrest := ih _ _ _ h
    have hgrows := (reads_dumpBytes_any (A := fun _ => True) (E := fun _ => True) (fun _ => trivial)
      trivial n (addr + 1)).grows h
    cases j with
    | zero =>
      obtain ⟨as, has⟩ := hgrows
      cases hp
      rw [has, loadAs_ok hb]
      have hzero : addr + UInt64.ofNat 0 = addr := UInt64.add_zero addr
      rw [hzero]
      simp [State.accessAll]
    | succ j =>
      have := hrest j (by omega)
      rwa [add_one_ofNat] at this

/-- A disassembled instruction has a known opcode, and its bytes have been read. -/
theorem disassembleRest_ok {opcode : UInt8} {size : Nat}
    (h : disassembleRest bytecode outside off opcode s = .ok size s') :
    (∃ op, Opcode.ofCode opcode = some op) ∧ ∀ j < opcodeGetSize opcode,
      Access.load (bytecode.base + UInt64.ofNat off + UInt64.ofNat j) ∈ s'.accesses := by
  obtain ⟨info, t, hinfo, h⟩ := bind_eq_ok h
  obtain ⟨str, t', -, h⟩ := bind_eq_ok h
  obtain ⟨u, t'', -, h⟩ := bind_eq_ok h
  obtain ⟨u', d, hdump, h⟩ := bind_eq_ok h
  obtain ⟨sizes, t₁, hsizes, -⟩ := bind_eq_ok hinfo
  refine ⟨tableEntry_ok hsizes, fun j hj => ?_⟩
  have hmem := dumpBytes_ok _ _ _ _ hdump j hj
  obtain ⟨u'', p, hp, h⟩ := bind_eq_ok h
  cases hp
  by_cases hlt : opcodeGetSize opcode < 2
  · rw [if_pos hlt] at h
    cases h
    exact hmem
  · rw [if_neg hlt] at h
    obtain ⟨u'', p, hp, h⟩ := bind_eq_ok h
    cases hp
    obtain ⟨u'', r, hoperands, h⟩ := bind_eq_ok h
    cases h
    obtain ⟨as, has⟩ := (reads_disassembleOperands_any (A := fun _ => True) (E := fun _ => True)
      (fun _ => trivial) trivial info _).grows hoperands
    show _ ∈ r.accesses
    rw [has]
    exact List.mem_append_left _ hmem

/-- An instruction that has been disassembled within the program is complete. -/
theorem exists_instr_of_drop {opcode : UInt8} {op : Opcode} (hop : Opcode.ofCode opcode = some op)
    (hbyte : bytecode.bytes[off]? = some opcode) (hle : off + opcodeGetSize opcode ≤ bytecode.size) :
    ∃ i : Instr, i.encode <+: bytecode.bytes.drop off ∧ i.opcode.code = opcode := by
  have hsize : opcodeGetSize opcode = op.operandSizes.1 + op.operandSizes.2 + 1 := by
    unfold opcodeGetSize
    rw [hop]
  have hcode := Opcode.code_of_ofCode hop
  have hlt : off < bytecode.bytes.length := (List.getElem?_eq_some_iff.mp hbyte).1
  have hget : bytecode.bytes[off] = opcode := (List.getElem?_eq_some_iff.mp hbyte).2
  have hlen : ((bytecode.bytes.drop (off + 1)).take (op.operandSizes.1 + op.operandSizes.2)).length =
      op.operandSizes.1 + op.operandSizes.2 := by
    rw [List.length_take, List.length_drop]
    have hbytes : bytecode.bytes.length = bytecode.size := rfl
    omega
  obtain ⟨i, hi⟩ := exists_instr op hlen
  refine ⟨i, ?_, ?_⟩
  · rw [hi, List.drop_eq_getElem_cons hlt, hget, hcode]
    exact List.cons_prefix_cons.mpr ⟨rfl, List.take_prefix ..⟩
  · have hhead := congrArg List.head? hi
    rw [Instr.encode, List.head?_cons, List.head?_cons, Option.some.injEq] at hhead
    rw [hhead, hcode]

/-- A program that the disassembler gets through without leaving it is complete. -/
theorem complete_of_disassembleLoop (n : Nat) : ∀ (off : Nat) (s s' : State),
    off ≤ bytecode.size → bytecode.size ≤ off + n →
      disassembleLoop bytecode outside n off s = .ok () s' →
        (∀ a ∈ s'.accesses, a.InRange bytecode) → ∃ is, encodeAll is = bytecode.bytes.drop off := by
  have hsize := bytecode.size_lt
  induction n with
  | zero =>
    intro off s s' hle hn _ _
    refine ⟨[], ?_⟩
    rw [List.drop_eq_nil_of_le (by exact hn)]
    rfl
  | succ n ih =>
    intro off s s' hle hn h hrange
    by_cases hlt : off < bytecode.size
    · have hbyte : bytecode.bytes[off]? = some bytecode.bytes[off] := List.getElem?_eq_getElem hlt
      rw [disassembleLoop, if_pos hlt] at h
      obtain ⟨size, t, hdis, h⟩ := bind_eq_ok h
      obtain ⟨opcode, t', hload, hrest⟩ := bind_eq_ok hdis
      have hfetch : loadAs bytecode outside .fetch (bytecode.base + UInt64.ofNat off) s =
          .ok bytecode.bytes[off] (s.access (.fetch (bytecode.base + UInt64.ofNat off))) := by
        refine loadAs_eq s ?_
        rw [Bytecode.offset_base_add _ (by omega)]
        exact hbyte
      rw [hfetch] at hload
      cases hload
      obtain ⟨⟨op, hop⟩, hbytes⟩ := disassembleRest_ok hrest
      obtain ⟨as, has⟩ := (reads_disassembleLoop bytecode outside n (off + size)).grows h
      -- the last byte of the instruction has been read
      have hpos := opcodeGetSize_pos bytecode.bytes[off]
      have hten := opcodeGetSize_le bytecode.bytes[off]
      have hlast := hbytes (opcodeGetSize bytecode.bytes[off] - 1) (by omega)
      have hin : (Access.load (bytecode.base + UInt64.ofNat off +
          UInt64.ofNat (opcodeGetSize bytecode.bytes[off] - 1))).InRange bytecode := by
        apply hrange
        rw [has]
        exact List.mem_append_left _ hlast
      simp only [Access.InRange] at hin
      rw [add_ofNat, Bytecode.offset_base_add _ (by omega)] at hin
      obtain ⟨i, hi, hcode⟩ := exists_instr_of_drop hop hbyte (by omega)
      have hisize : opcodeGetSize bytecode.bytes[off] = i.size := by
        rw [← hcode, Instr.opcode_size]
      have hreads : Reads (fun _ => True) (fun _ => True)
          (disassembleRest bytecode outside off i.opcode.code) (· = i.size) :=
        disassembleRest_reads outside hi (fun _ _ => trivial) trivial fun _ => trivial
      obtain ⟨-, -, -, hr⟩ := hreads (s.access (.fetch (bytecode.base + UInt64.ofNat off)))
      rw [hcode, hrest] at hr
      have hr : size = i.size := hr
      rw [hr] at h
      obtain ⟨is, his⟩ := ih (off + i.size) t s' (by omega) (by have := i.size_pos; omega) h hrange
      refine ⟨i :: is, ?_⟩
      obtain ⟨rest, hrest'⟩ := hi
      rw [encodeAll_cons, his, ← List.drop_drop, ← hrest', Instr.size, List.drop_left]
    · refine ⟨[], ?_⟩
      rw [List.drop_eq_nil_of_le (by have hb : bytecode.bytes.length = bytecode.size := rfl; omega)]
      rfl

variable (outside) in
/-- The disassembler stays in a program of complete instructions. -/
theorem disassembleLoop_inRange (is : List Instr) :
    ∀ n off : Nat, encodeAll is = bytecode.bytes.drop off →
      Reads (Access.InRange bytecode) (fun _ => True) (disassembleLoop bytecode outside n off)
        fun _ => True := by
  have hsize := bytecode.size_lt
  have hbytes : bytecode.bytes.length = bytecode.size := rfl
  induction is with
  | nil =>
    intro n off h
    have hend := size_le_of_encodeAll_nil h
    cases n with
    | zero => exact reads_pure trivial
    | succ n => exact reads_ite (fun hlt => by omega) fun _ => reads_pure trivial
  | cons i is ih =>
    intro n off h
    cases n with
    | zero => exact reads_pure trivial
    | succ n =>
      obtain ⟨hcode, hrest⟩ := drop_of_encodeAll h
      have hle : off + i.size ≤ bytecode.size := length_of_code hcode (List.cons_ne_nil _ _)
      have hin : ∀ j < i.size, bytecode.offset (bytecode.base + UInt64.ofNat (off + j)) <
          bytecode.size := by
        intro j hj
        rw [Bytecode.offset_base_add _ (by omega)]
        omega
      have htable : (Access.table i.opcode.code.toNat).InRange bytecode := by
        show i.opcode.code.toNat < Opcode.all.length
        cases i.opcode <;> decide
      refine reads_ite (fun hlt => ?_) fun _ => reads_pure trivial
      refine Reads.bind (Q := (· = i.size)) ?_ fun size hi => ?_
      · refine (reads_loadAs_of_code hcode (j := 0) rfl rfl ?_).bind fun opcode ho => ?_
        · exact hin 0 i.size_pos
        · rw [ho]
          exact disassembleRest_reads outside hcode hin htable fun _ => trivial
      · rw [hi]
        exact ih n (off + i.size) hrest

/-! ## The reads of the machine -/

/-- The reads of a sequence of computations. -/
theorem finalState_bind {α β : Type} {A : Access → Prop} {E : Stop → Prop} {R : β → Prop}
    (x : Action α) {f : α → Action β} (hf : ∀ a, Reads A E (f a) R) (s : State) :
    ∃ as, (finalState ((x >>= f) s)).accesses = (finalState (x s)).accesses ++ as ∧
      ∀ a ∈ as, A a := by
  cases hx : x s with
  | ok a t =>
    obtain ⟨as, has, hA, -⟩ := hf a t
    rw [bind_ok hx]
    exact ⟨as, has, hA⟩
  | error e t =>
    rw [bind_error hx]
    exact ⟨[], (List.append_nil _).symm, by simp⟩

variable (bytecode outside) in
/-- What the loop reads from a state on begins with the reads of the iteration there. -/
theorem execLoop_first (hne : s.registers .ip ≠ 0) (n : Nat) :
    ∃ as, (finalState (execLoop bytecode outside (n + 1) s)).accesses =
      (finalState (execIteration bytecode outside s)).accesses ++ as := by
  rw [execLoop_succ hne]
  refine (finalState_bind (execIteration bytecode outside)
    (fun r => (?_ : Reads (fun _ => True) (fun _ => True) _ fun _ => True)) s).imp fun as has => has.1
  cases r with
  | some ret => exact reads_pure trivial
  | none => exact reads_execLoop bytecode outside n

/-- If all that is read is in the program, then the bytes of the number are. -/
theorem offset_of_loadLittleEndian (n : Nat) : ∀ (addr : UInt64) (s : State),
    (∀ a ∈ (finalState (loadLittleEndian bytecode outside n addr s)).accesses, a.InRange bytecode) →
      ∀ j < n, bytecode.offset (addr + UInt64.ofNat j) < bytecode.size := by
  induction n with
  | zero =>
    intro addr s _ j hj
    omega
  | succ n ih =>
    intro addr s h j hj
    -- the first byte has been read, and so it is one of the program
    have hrest : ∀ byte : UInt8, Reads (fun _ => True) (fun _ => True)
        (do
          let rest ← loadLittleEndian bytecode outside n (addr + 1)
          pure (byte.toUInt64 + rest <<< 8) : Action UInt64) fun _ => True := by
      intro byte
      refine (reads_loadLittleEndian (fun _ => trivial) trivial n _).bind fun rest _ => ?_
      exact reads_pure trivial
    have hload : ∃ bs, (finalState (loadAs bytecode outside .load addr s)).accesses =
        s.accesses ++ .load addr :: bs := by
      refine ⟨[], ?_⟩
      unfold loadAs
      cases bytecode.bytes[bytecode.offset addr]?.or (outside.byte s addr) <;> rfl
    obtain ⟨as, has, -⟩ := finalState_bind (loadAs bytecode outside .load addr) hrest s
    have hfirst : (Access.load addr).InRange bytecode := by
      obtain ⟨bs, hbs⟩ := hload
      apply h
      show _ ∈ (finalState ((loadAs bytecode outside .load addr >>= _) s)).accesses
      rw [has, hbs]
      simp
    have hlt : bytecode.offset addr < bytecode.size := hfirst
    cases j with
    | zero =>
      have hzero : addr + UInt64.ofNat 0 = addr := UInt64.add_zero addr
      rw [hzero]
      exact hlt
    | succ j =>
      have hbyte : bytecode.bytes[bytecode.offset addr]? = some bytecode.bytes[bytecode.offset addr] :=
        List.getElem?_eq_getElem hlt
      rw [loadLittleEndian, bind_ok (loadAs_eq s hbyte)] at h
      obtain ⟨bs, hbs, -⟩ := finalState_bind (loadLittleEndian bytecode outside n (addr + 1))
        (f := fun rest => pure (bytecode.bytes[bytecode.offset addr].toUInt64 + rest <<< 8))
        (fun rest => reads_pure (A := fun _ => True) (E := fun _ => True) (Q := fun _ => True) trivial)
        (s.access (.load addr))
      have hj' := ih (addr + 1) (s.access (.load addr)) (fun a ha => h a (by
        rw [hbs]
        exact List.mem_append_left _ ha)) j (by omega)
      rwa [add_one_ofNat] at hj'

/-- A number that lies in the program is read there. -/
theorem reads_loadLittleEndian_inRange (n : Nat) : ∀ addr : UInt64,
    (∀ j < n, bytecode.offset (addr + UInt64.ofNat j) < bytecode.size) →
      Reads (Access.InRange bytecode) (fun _ => True) (loadLittleEndian bytecode outside n addr)
        fun _ => True := by
  induction n with
  | zero => exact fun addr _ => reads_pure trivial
  | succ n ih =>
    intro addr h
    have hzero : addr + UInt64.ofNat 0 = addr := UInt64.add_zero addr
    have hfirst := h 0 (Nat.succ_pos n)
    rw [hzero] at hfirst
    have hrest : ∀ j < n, bytecode.offset (addr + 1 + UInt64.ofNat j) < bytecode.size := by
      intro j hj
      rw [add_one_ofNat]
      exact h (j + 1) (by omega)
    refine (reads_loadAs hfirst trivial).bind fun byte _ => ?_
    exact (ih (addr + 1) hrest).bind fun rest _ => reads_pure trivial

theorem reads_finish {A : Access → Prop} {E : Stop → Prop} (result : Option UInt64) :
    Reads A E (Instr.finish result) fun _ => True := by
  refine reads_get.bind fun t _ => reads_ite (fun _ => reads_pure trivial) fun _ => ?_
  refine (reads_readRegister .ip).bind fun ip _ => ?_
  exact (reads_writeRegister _ _).bind fun _ _ => reads_pure trivial

/-- An instruction that has been read reads nothing more. -/
theorem reads_perform {A : Access → Prop} {E : Stop → Prop} (hE : ∀ e, E e) (addr : UInt64)
    (i : Instr) : Reads A E (i.perform outside addr) fun _ => True := by
  unfold Instr.perform
  refine reads_ite (fun _ => ?_) fun _ => ?_
  · exact (reads_print _).bind fun _ _ => reads_pure trivial
  refine Reads.bind (Q := fun _ => True) ?_ fun result _ => reads_finish result
  cases i with
  | noOp | hlt => exact reads_pure trivial
  | regdump | stackDmp => exact Reads.bind (reads_modify fun _ => rfl) fun _ _ => reads_pure trivial
  | syscall => exact reads_syscall (hE _)
  | movIR reg imm =>
    refine (reads_validateRegister reg).bind fun r _ => ?_
    cases r with
    | none => exact reads_pure trivial
    | some d => exact (reads_writeRegister _ _).bind fun _ _ => reads_pure trivial
  | pushRB reg =>
    refine (reads_validateRegister reg).bind fun r _ => ?_
    cases r with
    | none => exact reads_pure trivial
    | some d =>
      refine (reads_readRegister d).bind fun value _ => ?_
      exact Reads.bind (reads_modify fun _ => rfl) fun _ _ => reads_pure trivial
  | popRB reg =>
    refine (reads_validateRegister reg).bind fun r _ => ?_
    cases r with
    | none => exact reads_pure trivial
    | some d =>
      refine (reads_stackPop (hE _)).bind fun byte _ => ?_
      exact (reads_writeRegister _ _).bind fun _ _ => reads_pure trivial
  | addRR reg1 reg2 =>
    refine (reads_validateRegister reg1).bind fun r1 _ => ?_
    cases r1 with
    | none => exact reads_pure trivial
    | some d1 =>
      refine (reads_validateRegister reg2).bind fun r2 _ => ?_
      cases r2 with
      | none => exact reads_pure trivial
      | some d2 =>
        refine (reads_readRegister _).bind fun _ _ => (reads_readRegister _).bind fun _ _ => ?_
        exact (reads_writeRegister _ _).bind fun _ _ => reads_pure trivial

variable (outside) in
/-- An iteration stays in the program, if a `mov` finds its immediate there. -/
theorem execIteration_inRange (hat : At bytecode s off i)
    (hfind : ∀ reg imm, i = .movIR reg imm → (RegisterType.ofId reg).isSome →
      ∀ j < 8, bytecode.offset (s.immediate bytecode j) < bytecode.size) :
    ∃ as, (finalState (execIteration bytecode outside s)).accesses = s.accesses ++ as ∧
      ∀ a ∈ as, a.InRange bytecode := by
  have hsize := bytecode.size_lt
  have hle := hat.size_le
  have hin : ∀ j < i.size, bytecode.offset (s.registers .ip + UInt64.ofNat j) < bytecode.size := by
    intro j hj
    rw [hat.ip, add_ofNat, Bytecode.offset_base_add _ (by omega)]
    omega
  have hzero : s.registers .ip + UInt64.ofNat 0 = s.registers .ip := UInt64.add_zero _
  have hfetch := hin 0 i.size_pos
  rw [hzero] at hfetch
  by_cases hmov : ∃ reg imm d, i = .movIR reg imm ∧ RegisterType.ofId reg = some d
  · obtain ⟨reg, imm, d, rfl, hreg⟩ := hmov
    have hreads : Reads (Access.InRange bytecode) (fun _ => True) (do
        let value ← bytecodeGetQword bytecode outside (s.registers .ip + 1 + 1 - s.registers .is)
        writeRegister d value
        Instr.finish (some (s.registers .ip + 1 + 9)) : Action (Option Bool)) fun _ => True := by
      refine Reads.bind (Q := fun _ => True) ?_ fun value _ => ?_
      · exact reads_loadLittleEndian_inRange 8 _ (hfind reg imm rfl (by rw [hreg]; rfl))
      · exact (reads_writeRegister _ _).bind fun _ _ => reads_finish _
    obtain ⟨as, has, hA, -⟩ :=
      hreads (s.accessAll [.fetch (s.registers .ip), .load (s.registers .ip + 1)])
    rw [execIteration_movIR hat hreg]
    refine ⟨.fetch (s.registers .ip) :: .load (s.registers .ip + 1) :: as, ?_, ?_⟩
    · rw [has]
      exact List.append_assoc ..
    · intro a ha
      rcases List.mem_cons.mp ha with rfl | ha
      · exact hfetch
      rcases List.mem_cons.mp ha with rfl | ha
      · exact hin 1 (by simp [Instr.size, Instr.encode, Instr.operands])
      · exact hA a ha
  · have his : ∀ reg imm, i = .movIR reg imm → (RegisterType.ofId reg).isSome →
        s.registers .is = bytecode.base := by
      intro reg imm hi hsome
      obtain ⟨d, hd⟩ := Option.isSome_iff_exists.mp hsome
      exact absurd ⟨reg, imm, d, hi, hd⟩ hmov
    have hreads : Reads (Access.InRange bytecode) (fun _ => True)
        (i.perform outside (s.registers .ip)) fun _ => True := reads_perform (fun _ => trivial) _ i
    obtain ⟨as, has, hA, -⟩ := hreads (s.accessAll (i.accesses (s.registers .ip)))
    rw [execIteration_eq hat his]
    refine ⟨i.accesses (s.registers .ip) ++ as, ?_, ?_⟩
    · rw [has]
      exact List.append_assoc ..
    · intro a ha
      rcases List.mem_append.mp ha with ha | ha
      · cases i with
        | noOp | hlt | syscall | regdump | stackDmp =>
          obtain rfl := List.mem_singleton.mp ha
          exact hfetch
        | pushRB | popRB =>
          rcases List.mem_cons.mp ha with rfl | ha
          · exact hfetch
          obtain rfl := List.mem_singleton.mp ha
          exact hin 1 (Nat.lt_succ_self 1)
        | addRR =>
          rcases List.mem_cons.mp ha with rfl | ha
          · exact hfetch
          rcases List.mem_cons.mp ha with rfl | ha
          · exact hin 1 (Nat.lt_succ_of_lt (Nat.lt_succ_self 1))
          obtain rfl := List.mem_singleton.mp ha
          exact hin 2 (Nat.lt_succ_self 2)
        | movIR reg imm =>
          have hnone : ¬ (RegisterType.ofId reg).isSome := by
            intro hsome
            obtain ⟨d, hd⟩ := Option.isSome_iff_exists.mp hsome
            exact hmov ⟨reg, imm, d, rfl, hd⟩
          rw [Instr.accesses, if_neg hnone] at ha
          rcases List.mem_cons.mp ha with rfl | ha
          · exact hfetch
          obtain rfl := List.mem_singleton.mp ha
          exact hin 1 (by simp [Instr.size, Instr.encode, Instr.operands])
      · exact hA a ha

/-- The loop stays in the program, if each `mov` finds its immediate there. -/
theorem execLoop_inRange (hcode : bytecode.bytes = encodeAll is)
    (hfind : FindsImmediates bytecode outside s₀) (m : Nat) : ∀ (n : Nat) (s : State),
      Reaches bytecode outside s₀ n s → n + m ≤ maxIterations →
        ∃ as, (finalState (execLoop bytecode outside m s)).accesses = s.accesses ++ as ∧
          ∀ a ∈ as, a.InRange bytecode := by
  induction m with
  | zero =>
    intro n s h _
    obtain ⟨off, hle, hip⟩ := h.ip
    rw [execLoop_zero (ip_ne_zero hip hle)]
    exact ⟨[], (List.append_nil _).symm, by simp⟩
  | succ m ih =>
    intro n s h hn
    obtain ⟨off, hle, hip⟩ := h.ip
    have hne := ip_ne_zero hip hle
    rcases h.at_or_end hcode with ⟨off', i, -, hat⟩ | hend
    · obtain ⟨as, has, hA⟩ := execIteration_inRange outside hat
        fun reg imm hi => by
          rintro hsome
          subst hi
          exact hfind n s h (by omega) off' reg imm hat hsome
      cases hi : execIteration bytecode outside s with
      | error e t =>
        rw [hi] at has
        rw [execLoop_error hne hi]
        exact ⟨as, has, hA⟩
      | ok r t =>
        rw [hi] at has
        cases r with
        | some ret =>
          rw [execLoop_done hne hi]
          exact ⟨as, has, hA⟩
        | none =>
          have has : t.accesses = s.accesses ++ as := has
          obtain ⟨bs, hbs, hB⟩ := ih (n + 1) t (h.next hi) (by omega)
          rw [execLoop_next hne hi, hbs, has, List.append_assoc]
          refine ⟨as ++ bs, rfl, fun a ha => ?_⟩
          rcases List.mem_append.mp ha with ha | ha
          · exact hA a ha
          · exact hB a ha
    · rw [execLoop_done hne (execIteration_end hend (Nat.le_refl _) (by omega))]
      exact ⟨[], (List.append_nil _).symm, by simp⟩

/-- If all that the loop reads is in the program, then a `mov` finds its immediate there. -/
theorem finds_of_inRange {reg : UInt8} {imm : UInt64} (h : Reaches bytecode outside s₀ n s)
    (hn : n < maxIterations) (hat : At bytecode s off (.movIR reg imm))
    (hsome : (RegisterType.ofId reg).isSome)
    (hrange : ∀ a ∈ (finalState (bytecodeExec bytecode outside s₀)).accesses, a.InRange bytecode) :
    ∀ j < 8, bytecode.offset (s.immediate bytecode j) < bytecode.size := by
  obtain ⟨d, hreg⟩ := Option.isSome_iff_exists.mp hsome
  obtain ⟨off', hle, hip⟩ := h.ip
  obtain ⟨k, hk⟩ : ∃ k, maxIterations - n = k + 1 := ⟨maxIterations - n - 1, by omega⟩
  obtain ⟨as, has⟩ := execLoop_first bytecode outside (ip_ne_zero hip hle) k
  rw [h.exec (by omega), hk, has, execIteration_movIR hat hreg] at hrange
  have htail : ∀ value, Reads (fun _ => True) (fun _ => True) (do
      writeRegister d value
      Instr.finish (some (s.registers .ip + 1 + 9)) : Action (Option Bool)) fun _ => True :=
    fun value => (reads_writeRegister _ _).bind fun _ _ => reads_finish _
  obtain ⟨bs, hbs, -⟩ := finalState_bind
    (bytecodeGetQword bytecode outside (s.registers .ip + 1 + 1 - s.registers .is)) htail
    (s.accessAll [.fetch (s.registers .ip), .load (s.registers .ip + 1)])
  rw [hbs] at hrange
  have hload : ∀ a ∈ (finalState (loadLittleEndian bytecode outside 8
      (bytecode.base + (s.registers .ip + 1 + 1 - s.registers .is))
      (s.accessAll [.fetch (s.registers .ip), .load (s.registers .ip + 1)]))).accesses,
        a.InRange bytecode := by
    intro a ha
    exact hrange a (List.mem_append_left _ (List.mem_append_left _ ha))
  exact offset_of_loadLittleEndian 8 _ _ hload

/-! ## The process -/

/-- What is read once the disassembler is through. -/
theorem processFile_accesses (hd : disassemble bytecode outside s = .ok () s') :
    (finalState (processFile bytecode outside s)).accesses =
      (finalState (bytecodeExec bytecode outside { s' with stack := .create stackSize })).accesses := by
  have htail : ∀ ok : Bool, Reads (fun _ => False) (fun _ => True)
      (if ok then do return (← get).bytecodeExitCode
        else do throw (.fatal ((← get).bytecodeError.getD "")) : Action UInt8) fun _ => True := by
    intro ok
    refine reads_ite (fun _ => reads_get.bind fun t _ => reads_pure trivial) fun _ => ?_
    exact reads_get.bind fun t _ => reads_throw trivial
  have hmod : (modify fun t => { t with stack := .create stackSize } : Action Unit) s' =
      .ok () { s' with stack := .create stackSize } := rfl
  obtain ⟨as, has, hno⟩ := finalState_bind (bytecodeExec bytecode outside) htail
    { s' with stack := .create stackSize }
  have hnil : as = [] := List.eq_nil_iff_forall_not_mem.mpr hno
  rw [hnil, List.append_nil] at has
  rw [processFile, bind_ok hd, bind_ok hmod]
  exact has

/-- The process reads nothing but its program, and reports a program that is no sequence of complete
instructions, if and only if the program is such a sequence and `%is` leads each `mov` of the run to a
place in it. -/
theorem reads_bounded (outside : Outside) (bytecode : Bytecode) :
    Bounded bytecode outside ↔
      bytecode.Complete ∧ ∀ s, disassemble bytecode outside initialState = .ok () s →
        FindsImmediates bytecode outside { s with stack := .create stackSize } := by
  constructor
  · intro hb
    have hcomplete : bytecode.Complete := by
      by_contra hnot
      obtain ⟨msg, t, ht⟩ := hb.reported hnot
      cases hd : disassemble bytecode outside initialState with
      | ok u s =>
        obtain ⟨as, has⟩ : ∃ as, (finalState (processFile bytecode outside initialState)).accesses =
            s.accesses ++ as := by
          rw [processFile_accesses hd]
          have hexec := reads_execLoop bytecode outside maxIterations
          obtain ⟨as, has, -⟩ :=
            hexec (State.started bytecode { s with stack := .create stackSize })
          exact ⟨as, has⟩
        obtain ⟨is, his⟩ := complete_of_disassembleLoop bytecode.size 0 initialState s (Nat.zero_le _)
          (Nat.le_of_eq (Nat.zero_add _).symm) hd fun a ha => hb.inRange a (by
            rw [has]
            exact List.mem_append_left _ ha)
        exact hnot ⟨is, his.symm⟩
      | error e s =>
        -- the disassembler has been killed
        have hprocess : processFile bytecode outside initialState = .error e s := bind_error hd
        rw [hprocess] at ht
        cases ht
        obtain ⟨-, -, -, hr⟩ := reads_disassembleLoop bytecode outside
          bytecode.size 0 initialState
        have hd' : disassembleLoop bytecode outside bytecode.size 0 initialState =
          .error (.fatal msg) t := hd
        rw [hd'] at hr
        exact hr msg rfl
    refine ⟨hcomplete, fun s hd n t hreach hn off reg imm hat hsome => ?_⟩
    refine finds_of_inRange hreach hn hat hsome ?_
    rw [← processFile_accesses hd]
    exact hb.inRange
  · rintro ⟨⟨is, hcode⟩, hfind⟩
    have hdis := disassembleLoop_inRange outside is bytecode.size 0 hcode.symm initialState
    refine ⟨?_, fun hnot => absurd ⟨is, hcode⟩ hnot⟩
    obtain ⟨as, has, hA, -⟩ := hdis
    cases hd : disassemble bytecode outside initialState with
    | error e s =>
      have hd' : disassembleLoop bytecode outside bytecode.size 0 initialState = .error e s := hd
      have hprocess : processFile bytecode outside initialState = .error e s := bind_error hd
      rw [hd'] at has
      rw [hprocess]
      intro a ha
      have hs : s.accesses = initialState.accesses ++ as := has
      have ha : a ∈ s.accesses := ha
      rw [hs] at ha
      exact hA a ha
    | ok u s =>
      have hd' : disassembleLoop bytecode outside bytecode.size 0 initialState = .ok u s := hd
      rw [hd'] at has
      rw [processFile_accesses hd]
      obtain ⟨bs, hbs, hB⟩ := execLoop_inRange hcode (hfind s hd) maxIterations 0 _ .start (by omega)
      intro a ha
      have hfinal : (finalState (bytecodeExec bytecode outside
          { s with stack := .create stackSize })).accesses = s.accesses ++ bs := hbs
      rw [hfinal] at ha
      rcases List.mem_append.mp ha with ha | ha
      · rw [show s.accesses = [] ++ as from has] at ha
        exact hA a ha
      · exact hB a ha

/-- An instruction that is cut off is read past its end. -/
theorem reads_unbounded : ¬ Bounded (.mapped [2] (by decide)) .unmapped := by
  intro h
  have hout : (finalState (processFile (.mapped [2] (by decide)) .unmapped initialState)).accesses.all
      (fun a => decide (a.InRange (.mapped [2] (by decide)))) = false := by
    decide +kernel
  have hall := List.all_eq_true.mpr fun a ha => decide_eq_true (h.inRange a ha)
  rw [hall] at hout
  cases hout

end Blaze.Vm
