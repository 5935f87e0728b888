import Blazescript.Vm.Proofs.ExecProofs

/-!
# Proofs: the boundaries of instructions

The disassembler starts at the boundaries of a program of complete instructions, one after the other.
The loop of the machine fetches its opcodes there as well, as far as it gets.
-/

namespace Blaze.Vm

open Running

variable {bytecode : Bytecode} {outside : Outside} {s s' : State} {off n : Nat}

/-! ## Sequences of instructions -/

theorem encodeAll_cons (i : Instr) (is : List Instr) :
    encodeAll (i :: is) = i.encode ++ encodeAll is := List.flatMap_cons

theorem encodeAll_append (is js : List Instr) :
    encodeAll (is ++ js) = encodeAll is ++ encodeAll js := List.flatMap_append

/-- The code of the instructions after some others. -/
theorem encodeAll_drop {is js : List Instr} (h : bytecode.bytes = encodeAll (is ++ js)) :
    encodeAll js = bytecode.bytes.drop (encodeAll is).length := by
  rw [h, encodeAll_append, List.drop_left]

theorem drop_of_encodeAll {i : Instr} {is : List Instr}
    (h : encodeAll (i :: is) = bytecode.bytes.drop off) :
    i.encode <+: bytecode.bytes.drop off ∧ encodeAll is = bytecode.bytes.drop (off + i.size) := by
  rw [encodeAll_cons] at h
  refine ⟨⟨_, h⟩, ?_⟩
  rw [← List.drop_drop, ← h, Instr.size, List.drop_left]

/-- The opcode of the instruction at an offset. -/
theorem byte_of_encodeAll {i : Instr} {is : List Instr}
    (h : encodeAll (i :: is) = bytecode.bytes.drop off) :
    bytecode.bytes[off]? = some i.opcode.code :=
  byte_of_code (drop_of_encodeAll h).1 (j := 0) i.size_pos

/-- At the end of a program that stops at a boundary. -/
theorem size_le_of_encodeAll_nil (h : encodeAll [] = bytecode.bytes.drop off) :
    bytecode.size ≤ off := List.drop_eq_nil_iff.mp h.symm

/-! ## What has been fetched -/

theorem fetched_eq {as bs : List Access} (hs : s'.accesses = as ++ bs) (hb : ∀ a ∈ bs, a.NoFetch) :
    s'.fetched bytecode = as.filterMap (Access.fetched bytecode) := by
  have hnil : bs.filterMap (Access.fetched bytecode) = [] := by
    rw [List.filterMap_eq_nil_iff]
    intro a ha
    cases a with
    | fetch addr => exact (hb _ ha).elim
    | load | table => rfl
  rw [State.fetched, hs, List.filterMap_append, hnil, List.append_nil]

/-- One opcode has been fetched. -/
theorem fetched_fetch {addr : UInt64} {bs : List Access}
    (hs : s'.accesses = s.accesses ++ .fetch addr :: bs) (hb : ∀ a ∈ bs, a.NoFetch)
    (haddr : addr = bytecode.base + UInt64.ofNat off) (hoff : off ≤ bytecode.size) :
    s'.fetched bytecode = s.fetched bytecode ++ [off] := by
  have hsize := bytecode.size_lt
  have happ : s'.accesses = (s.accesses ++ [.fetch addr]) ++ bs := by
    rw [hs, List.append_assoc]
    rfl
  rw [fetched_eq happ hb, List.filterMap_append]
  show _ ++ [bytecode.offset addr] = _
  rw [haddr, Bytecode.offset_base_add _ (by omega)]
  rfl

/-! ## The disassembler -/

section Disassemble

variable {A : Access → Prop} {E : Stop → Prop} {i : Instr}

theorem reads_tableEntry {α : Type} (op : Opcode) (table : Opcode → α)
    (hA : A (.table op.code.toNat)) : Reads A E (tableEntry op.code table) (· = table op) := by
  intro s
  have heq : tableEntry op.code table s = .ok (table op) (s.access (.table op.code.toNat)) := by
    unfold tableEntry
    rw [Opcode.ofCode_code]
  rw [heq]
  exact ⟨[.table op.code.toNat], rfl, by simpa using hA, rfl⟩

theorem reads_dumpBytes (bs : List UInt8) :
    ∀ off : Nat, bs <+: bytecode.bytes.drop off →
      (∀ j < bs.length, A (.load (bytecode.base + UInt64.ofNat (off + j)))) →
      Reads A E (dumpBytes bytecode outside bs.length (bytecode.base + UInt64.ofNat off))
        fun _ => True := by
  induction bs with
  | nil => exact fun off _ _ => reads_pure trivial
  | cons b bs ih =>
    intro off h hA
    have hrest : bs <+: bytecode.bytes.drop (off + 1) := prefix_drop h (j := 1) (by simp)
    have hnext := ih (off + 1) hrest fun j hj => by
      have := hA (j + 1) (by simpa using hj)
      rwa [Nat.add_assoc, Nat.add_comm 1 j]
    have haddr : bytecode.base + UInt64.ofNat off + 1 = bytecode.base + UInt64.ofNat (off + 1) :=
      add_ofNat _ off 1
    rw [List.length_cons, dumpBytes, haddr]
    refine (reads_loadAs_of_code h (j := 0) rfl rfl (hA 0 (by simp))).bind fun byte _ => ?_
    exact (reads_print _).bind fun _ _ => hnext

/-- A register is shown by its name; there may be none for an invalid one. -/
theorem reads_operand_register (reg : UInt8) (j : Nat)
    (hcode : i.encode <+: bytecode.bytes.drop off) (hj : i.encode[j]? = some reg)
    (hA : A (.load (bytecode.base + UInt64.ofNat (off + j))))
    (hE : RegisterType.ofId reg = none → E .killed) :
    Reads A E (disassembleOperand bytecode outside ⟨1, .register⟩ (UInt64.ofNat (off + j)))
      fun _ => True := by
  have hlt : j < i.encode.length := (List.getElem?_eq_some_iff.mp hj).1
  have hbyte : [reg] <+: bytecode.bytes.drop (off + j) := by
    have hget : i.encode[j] = reg := (List.getElem?_eq_some_iff.mp hj).2
    have hdrop := prefix_drop hcode (j := j) (by omega)
    rw [List.drop_eq_getElem_cons hlt, hget] at hdrop
    exact List.IsPrefix.trans ⟨_, rfl⟩ hdrop
  unfold disassembleOperand
  rw [if_pos rfl]
  refine (reads_loadLittleEndian_of_code outside hbyte rfl fun k hk => ?_).bind fun id hid => ?_
  · obtain rfl : k = 0 := by simpa using hk
    exact hA
  have hreg : id.toUInt8 = reg := by
    rw [hid]
    simp [leValue]
  rw [hreg]
  refine Reads.bind (Q := fun _ => True) ?_ fun name _ => reads_print _
  unfold registerIdToStr
  cases hr : RegisterType.ofId reg with
  | some r => exact reads_pure trivial
  | none =>
    cases outside.registerName reg with
    | some name => exact reads_pure trivial
    | none => exact reads_throw (hE hr)

variable (outside) in
/-- An instruction is disassembled from its own bytes. -/
theorem disassembleRest_reads (hcode : i.encode <+: bytecode.bytes.drop off)
    (hA : ∀ j < i.size, A (.load (bytecode.base + UInt64.ofNat (off + j))))
    (hT : A (.table i.opcode.code.toNat)) (hE : ¬ i.Valid → E .killed) :
    Reads A E (disassembleRest bytecode outside off i.opcode.code) (· = i.size) := by
  unfold disassembleRest
  refine Reads.bind (Q := fun info => info =
      (⟨i.opcode.operandSizes.1, i.opcode.operandAddrmodes.1⟩,
        ⟨i.opcode.operandSizes.2, i.opcode.operandAddrmodes.2⟩)) ?_ fun info hinfo => ?_
  · refine (reads_tableEntry _ _ hT).bind fun sizes hs => (reads_tableEntry _ _ hT).bind fun modes hm => ?_
    exact reads_pure (by rw [hs, hm])
  refine (reads_tableEntry i.opcode Opcode.str hT).bind fun str _ => (reads_print _).bind fun _ _ => ?_
  rw [Instr.opcode_size]
  refine (reads_dumpBytes i.encode off hcode hA).bind fun _ _ => (reads_print _).bind fun _ _ => ?_
  rw [hinfo]
  have hreg : ∀ (reg : UInt8) (j : Nat), i.encode[j]? = some reg → reg ∈ i.registers →
      Reads A E (disassembleOperand bytecode outside ⟨1, .register⟩ (UInt64.ofNat (off + j)))
        fun _ => True := by
    intro reg j hj hmem
    refine reads_operand_register reg j hcode hj (hA j (List.getElem?_eq_some_iff.mp hj).1) fun hn => ?_
    exact hE fun hv => by simpa [hn] using hv reg hmem
  cases i with
  | noOp | hlt | syscall | regdump | stackDmp =>
    exact (reads_print _).bind fun _ _ => reads_pure rfl
  | pushRB reg =>
    refine (reads_print _).bind fun _ _ => Reads.bind (Q := fun _ => True) ?_ fun _ _ => ?_
    · exact (hreg reg 1 rfl (List.mem_cons_self ..)).bind fun _ _ => reads_pure trivial
    · exact (reads_print _).bind fun _ _ => reads_pure rfl
  | popRB reg =>
    refine (reads_print _).bind fun _ _ => Reads.bind (Q := fun _ => True) ?_ fun _ _ => ?_
    · exact (hreg reg 1 rfl (List.mem_cons_self ..)).bind fun _ _ => reads_pure trivial
    · exact (reads_print _).bind fun _ _ => reads_pure rfl
  | addRR reg1 reg2 =>
    refine (reads_print _).bind fun _ _ => Reads.bind (Q := fun _ => True) ?_ fun _ _ => ?_
    · refine (hreg reg1 1 rfl (by simp [Instr.registers])).bind fun _ _ =>
        (reads_print _).bind fun _ _ => ?_
      have h2 := hreg reg2 2 rfl (by simp [Instr.registers])
      have heq : UInt64.ofNat (off + 1) + UInt64.ofNat 1 = UInt64.ofNat (off + 2) := by
        rw [← UInt64.ofNat_add]
      show Reads A E (disassembleOperand bytecode outside _ (UInt64.ofNat (off + 1) + UInt64.ofNat 1)) _
      rw [heq]
      exact h2
    · exact (reads_print _).bind fun _ _ => reads_pure rfl
  | movIR reg imm =>
    have himm : leBytes 8 imm <+: bytecode.bytes.drop (off + 2) :=
      prefix_drop hcode (j := 2) (by simp [Instr.encode, Instr.operands])
    refine (reads_print _).bind fun _ _ => Reads.bind (Q := fun _ => True) ?_ fun _ _ => ?_
    · refine (hreg reg 1 rfl (List.mem_cons_self ..)).bind fun _ _ => (reads_print _).bind fun _ _ => ?_
      have heq : bytecode.base + (UInt64.ofNat (off + 1) + UInt64.ofNat 1) =
          bytecode.base + UInt64.ofNat (off + 2) := by
        rw [← UInt64.ofNat_add]
      have hlen := length_leBytes 8 imm
      have hload := reads_loadLittleEndian_of_code outside (A := A) (E := E) himm heq
        fun j hj => by
          have hsize : (Instr.movIR reg imm).size = 2 + 8 := by
            simp [Instr.size, Instr.encode, Instr.operands, length_leBytes]
          have := hA (2 + j) (by omega)
          rwa [← Nat.add_assoc] at this
      rw [hlen] at hload
      exact hload.bind fun value _ => reads_print _
    · exact (reads_print _).bind fun _ _ => reads_pure rfl

/-- The opcode is read first. -/
theorem disassembleInstruction_eq (hcode : i.encode <+: bytecode.bytes.drop off) (s : State) :
    disassembleInstruction bytecode outside off s =
      disassembleRest bytecode outside off i.opcode.code
        (s.accessAll [.fetch (bytecode.base + UInt64.ofNat off)]) :=
  bind_ok (load_of_code outside hcode (j := 0) rfl .fetch s)

end Disassemble

theorem length_le_encodeAll (is : List Instr) : is.length ≤ (encodeAll is).length := by
  induction is with
  | nil => exact Nat.le_refl _
  | cons i is ih =>
    have hpos := i.size_pos
    rw [encodeAll_cons, List.length_append, List.length_cons]
    show _ ≤ i.size + _
    omega

variable (outside) in
/-- The disassembler starts at the boundaries of the instructions. -/
theorem disassembleLoop_fetched (is : List Instr) :
    ∀ (n off : Nat) (s : State), encodeAll is = bytecode.bytes.drop off →
      (∀ i ∈ is, i.Valid) → is.length ≤ n → ∃ s', disassembleLoop bytecode outside n off s = .ok () s' ∧
        s'.fetched bytecode = s.fetched bytecode ++ boundaries off is := by
  induction is with
  | nil =>
    intro n off s h _ _
    refine ⟨s, ?_, (List.append_nil _).symm⟩
    have hend : ¬ off < bytecode.size := by
      have := size_le_of_encodeAll_nil h
      omega
    cases n with
    | zero => rfl
    | succ n =>
      rw [disassembleLoop, if_neg hend]
      rfl
  | cons i is ih =>
    intro n off s h hv hn
    obtain ⟨hcode, hrest⟩ := drop_of_encodeAll h
    have hle : off + i.size ≤ bytecode.size := length_of_code hcode (List.cons_ne_nil _ _)
    have hpos := i.size_pos
    obtain ⟨n, rfl⟩ : ∃ k, n = k + 1 := ⟨n - 1, by rw [List.length_cons] at hn; omega⟩
    rw [List.length_cons] at hn
    have hreads := disassembleRest_reads outside (A := Access.NoFetch)
      (E := fun _ => False) hcode (fun _ _ => trivial) trivial
      fun hnot => hnot (hv i (List.mem_cons_self ..))
    obtain ⟨as, has, hA, hr⟩ := hreads (s.accessAll [.fetch (bytecode.base + UInt64.ofNat off)])
    rw [← disassembleInstruction_eq hcode] at has hr
    cases hd : disassembleInstruction bytecode outside off s with
    | error e t =>
      rw [hd] at hr
      exact hr.elim
    | ok size t =>
      rw [hd] at has hr
      have hsize : size = i.size := hr
      have ht : t.accesses = s.accesses ++ .fetch (bytecode.base + UInt64.ofNat off) :: as := by
        have happ : t.accesses = (s.accesses ++ [_]) ++ as := has
        rw [happ, List.append_assoc]
        rfl
      obtain ⟨s', hs', hf⟩ := ih n (off + i.size) t hrest
        (fun j hj => hv j (List.mem_cons_of_mem _ hj)) (by omega)
      refine ⟨s', ?_, ?_⟩
      · rw [disassembleLoop, if_pos (by omega), bind_ok hd, hsize]
        exact hs'
      · rw [hf, fetched_fetch ht hA rfl (by omega), List.append_assoc]
        rfl

/-! ## The loop of the machine -/

variable (outside) in
/-- The loop fetches at the boundaries of the instructions, until it ends. -/
theorem execLoop_fetched (n : Nat) :
    ∀ (is : List Instr) (off : Nat) (s : State), encodeAll is = bytecode.bytes.drop off →
      off ≤ bytecode.size → s.registers .ip = bytecode.base + UInt64.ofNat off →
      ∃ l, (finalState (execLoop bytecode outside n s)).fetched bytecode =
        s.fetched bytecode ++ l ∧ l <+: boundaries off is := by
  induction n with
  | zero =>
    intro is off s h hoff hip
    rw [execLoop_zero (ip_ne_zero hip (by omega))]
    exact ⟨[], (List.append_nil _).symm, List.nil_prefix⟩
  | succ n ih =>
    intro is off s h hoff hip
    have hne := ip_ne_zero hip (by omega)
    cases is with
    | nil =>
      have hend := size_le_of_encodeAll_nil h
      rw [execLoop_done hne (execIteration_end hip hend (by omega))]
      exact ⟨[], (List.append_nil _).symm, List.nil_prefix⟩
    | cons i is =>
      obtain ⟨hcode, hrest⟩ := drop_of_encodeAll h
      have hb := byte_of_encodeAll h
      have hle : off + i.size ≤ bytecode.size := length_of_code hcode (List.cons_ne_nil _ _)
      obtain ⟨as, has, hA⟩ := execIteration_accesses outside hip hb
      have hf := fetched_fetch has hA hip hoff
      have hone : [off] <+: boundaries off (i :: is) := List.prefix_append [off] _
      cases hi : execIteration bytecode outside s with
      | error e t =>
        rw [hi] at hf
        rw [execLoop_error hne hi]
        exact ⟨[off], hf, hone⟩
      | ok r t =>
        rw [hi] at hf
        cases r with
        | some ret =>
          rw [execLoop_done hne hi]
          exact ⟨[off], hf, hone⟩
        | none =>
          obtain ⟨-, hnext, -⟩ := execIteration_none hip hb hi
          rw [Instr.opcode_size] at hnext
          obtain ⟨l, hl, hpre⟩ := ih is (off + i.size) t hrest hle hnext
          rw [execLoop_next hne hi, hl, show t.fetched bytecode = _ from hf, List.append_assoc]
          exact ⟨off :: l, rfl, List.cons_prefix_cons.mpr ⟨rfl, hpre⟩⟩

/-! ## The boundaries -/

/-- `b` is where the instruction after the one at `a` starts. -/
def Follows (bytecode : Bytecode) (a b : Nat) : Prop :=
  ∃ opcode, bytecode.bytes[a]? = some opcode ∧ b = a + opcodeGetSize opcode

theorem boundaries_chain (is : List Instr) :
    ∀ off : Nat, encodeAll is = bytecode.bytes.drop off →
      List.IsChain (Follows bytecode) (boundaries off is) := by
  induction is with
  | nil => exact fun _ _ => .nil
  | cons i is ih =>
    intro off h
    have hrest := ih _ (drop_of_encodeAll h).2
    cases is with
    | nil => exact .singleton _
    | cons j is =>
      refine .cons_cons ⟨i.opcode.code, byte_of_encodeAll h, ?_⟩ hrest
      rw [Instr.opcode_size]

/-- The opcodes that a computation fetches from a program. -/
def fetchedBy {α : Type} (bytecode : Bytecode) (x : Action α) (s : State) : List Nat :=
  (finalState (x { s with accesses := [] })).fetched bytecode

/-- On a program of complete valid instructions, the loop of the machine fetches its opcodes at the
first of the offsets at which the disassembler starts, each the size of an instruction after the one
before, from whatever state each of them is run. -/
theorem exec_boundaries (outside : Outside) (bytecode : Bytecode) (is : List Instr)
    (hcode : bytecode.bytes = encodeAll is) (hvalid : ∀ i ∈ is, i.Valid) (s s' : State) :
    fetchedBy bytecode (bytecodeExec bytecode outside) s <+:
        fetchedBy bytecode (disassemble bytecode outside) s' ∧
      fetchedBy bytecode (disassemble bytecode outside) s' = boundaries 0 is ∧
      List.IsChain (Follows bytecode) (fetchedBy bytecode (bytecodeExec bytecode outside) s) := by
  have hdrop : encodeAll is = bytecode.bytes.drop 0 := hcode.symm
  have hlen : is.length ≤ bytecode.size := by
    rw [Bytecode.size, hcode]
    exact length_le_encodeAll is
  obtain ⟨t, ht, hft⟩ := disassembleLoop_fetched outside is bytecode.size 0
    { s' with accesses := [] } hdrop hvalid hlen
  have hdis : fetchedBy bytecode (disassemble bytecode outside) s' = boundaries 0 is := by
    unfold fetchedBy disassemble
    rw [ht]
    exact hft
  obtain ⟨l, hl, hpre⟩ := execLoop_fetched outside maxIterations is 0
    (State.started bytecode { s with accesses := [] }) hdrop (Nat.zero_le _)
    (UInt64.add_zero _).symm
  have hexec : fetchedBy bytecode (bytecodeExec bytecode outside) s = l := hl
  rw [hexec, hdis]
  exact ⟨hpre, rfl, List.IsChain.prefix (boundaries_chain is 0 hdrop) hpre⟩

/-- A program that writes `%ip` and stops before its last instruction. -/
theorem exec_boundaries_movIR :
    let bytecode := Bytecode.mapped (encodeAll [.movIR 10 0, .hlt, .noOp]) (by decide)
    fetchedBy bytecode (bytecodeExec bytecode .unmapped) initialState <+: [0, 10, 11] := by
  intro bytecode
  obtain ⟨hpre, hdis, -⟩ := exec_boundaries .unmapped bytecode [.movIR 10 0, .hlt, .noOp] rfl
    (by decide) initialState initialState
  rw [hdis] at hpre
  exact hpre

end Blaze.Vm
