import Blazescript.Scanning.Proofs.FieldsProofs
import Blazescript.Vm.Listing
import Blazescript.Vm.Proofs.BoundariesProofs

/-!
# Proofs: disassemblies are read back
-/

namespace Blaze.Vm

open Running Scanning

variable {α β : Type} {bytecode : Bytecode} {outside : Outside} {off : Nat} {i : Instr} {x : Action α} {f : α → Action β}
  {out out' : List Output} {a : α} {b : β}

/-! ## What is printed -/

theorem shows_pure (a : α) : Shows (pure a : Action α) [] a := by
  intro s
  refine ⟨[], ?_⟩
  unfold State.accessAll
  rw [List.append_nil, List.append_nil]
  rfl

theorem Shows.bind (hx : Shows x out a) (hf : Shows (f a) out' b) : Shows (x >>= f) (out ++ out') b := by
  intro s
  obtain ⟨as, has⟩ := hx s
  obtain ⟨bs, hbs⟩ := hf { s.accessAll as with stdout := s.stdout ++ out }
  refine ⟨as ++ bs, ?_⟩
  rw [bind_ok has, hbs]
  unfold State.accessAll
  simp only [List.append_assoc]

/-- A step that prints nothing. -/
theorem Shows.after (hx : Shows x [] a) (hf : Shows (f a) out b) : Shows (x >>= f) out b := hx.bind hf

/-- The last step prints nothing. -/
theorem Shows.last (hx : Shows x out a) (hf : Shows (f a) [] b) : Shows (x >>= f) out b := by
  have hbind := hx.bind hf
  rwa [List.append_nil] at hbind

theorem shows_print (o : Output) : Shows (print o) [o] () := by
  intro s
  refine ⟨[], ?_⟩
  unfold State.accessAll
  rw [List.append_nil]
  rfl

/-- Nothing is printed by what only reads. -/
theorem shows_reads (h : ∀ s, ∃ as, x s = .ok a (s.accessAll as)) : Shows x [] a := by
  intro s
  obtain ⟨as, has⟩ := h s
  refine ⟨as, ?_⟩
  rw [has, List.append_nil]
  rfl

theorem shows_tableEntry (op : Opcode) (table : Opcode → α) : Shows (tableEntry op.code table) [] (table op) := by
  refine shows_reads fun s => ⟨[.table op.code.toNat], ?_⟩
  unfold tableEntry
  rw [Opcode.ofCode_code]
  rfl

variable (outside) in
/-- The bytes of an instruction. -/
theorem shows_dumpBytes (bs : List UInt8) : ∀ off : Nat, bs <+: bytecode.bytes.drop off →
    Shows (dumpBytes bytecode outside bs.length (bytecode.base + UInt64.ofNat off))
      (bs.map fun byte => .text (hex 2 byte.toNat ++ " ")) () := by
  induction bs with
  | nil => exact fun off _ => shows_pure ()
  | cons b bs ih =>
    intro off h
    have hrest : bs <+: bytecode.bytes.drop (off + 1) := prefix_drop h (j := 1) (by simp)
    have haddr : bytecode.base + UInt64.ofNat off + 1 = bytecode.base + UInt64.ofNat (off + 1) :=
      add_ofNat _ off 1
    rw [List.length_cons, dumpBytes, haddr]
    refine Shows.after (a := b) (shows_reads fun s => ⟨_, load_of_code outside h (j := 0) rfl .load s⟩) ?_
    exact (shows_print _).bind (ih (off + 1) hrest)

variable (outside) in
/-- A valid register is shown by its name. -/
theorem shows_register {reg : UInt8} {j : Nat} (hcode : i.encode <+: bytecode.bytes.drop off)
    (hj : i.encode[j]? = some reg) (hvalid : (RegisterType.ofId reg).isSome) :
    Shows (disassembleOperand bytecode outside ⟨1, .register⟩ (UInt64.ofNat (off + j))) [.text (registerText reg)] () := by
  have hlt : j < i.encode.length := (List.getElem?_eq_some_iff.mp hj).1
  have hbyte : [reg] <+: bytecode.bytes.drop (off + j) := by
    have hget : i.encode[j] = reg := (List.getElem?_eq_some_iff.mp hj).2
    have hdrop := prefix_drop hcode (j := j) (by omega)
    rw [List.drop_eq_getElem_cons hlt, hget] at hdrop
    exact List.IsPrefix.trans ⟨_, rfl⟩ hdrop
  obtain ⟨r, hr⟩ := Option.isSome_iff_exists.mp hvalid
  unfold disassembleOperand
  rw [if_pos rfl]
  refine Shows.after (a := leValue [reg])
    (shows_reads fun s => ⟨_, loadLittleEndian_of_code outside [reg] (off + j) s hbyte⟩) ?_
  have hreg : (leValue [reg]).toUInt8 = reg := by simp [leValue]
  rw [hreg]
  have hname : Shows (registerIdToStr outside reg) [] r.str := by
    unfold registerIdToStr
    rw [hr]
    exact shows_pure _
  have htext : registerText reg = "%" ++ r.str := by
    unfold registerText
    rw [hr]
    rfl
  rw [htext]
  exact hname.after (shows_print _)

variable (outside) in
theorem shows_immediate {reg : UInt8} {imm : UInt64} (hcode : (Instr.movIR reg imm).encode <+: bytecode.bytes.drop off) :
    Shows (disassembleOperand bytecode outside ⟨8, .immediate⟩ (UInt64.ofNat (off + 2)))
      [.text ("0x" ++ hex 16 imm.toNat)] () := by
  have himm : leBytes 8 imm <+: bytecode.bytes.drop (off + 2) :=
    prefix_drop hcode (j := 2) (by simp [Instr.encode, Instr.operands])
  have hvalue : leValue (leBytes 8 imm) = imm := leValue_leBytes 8 imm imm.toNat_lt
  have hload : Shows (bytecodeGetQword bytecode outside (UInt64.ofNat (off + 2))) [] imm := by
    refine shows_reads fun s => ?_
    have h := loadLittleEndian_of_code outside (leBytes 8 imm) (off + 2) s himm
    rw [length_leBytes, hvalue] at h
    exact ⟨_, h⟩
  unfold disassembleOperand
  rw [if_neg (by decide)]
  exact hload.after (shows_print _)

variable (outside) in
/-- The operands of an instruction. -/
theorem shows_operands (hcode : i.encode <+: bytecode.bytes.drop off) (hvalid : i.Valid) :
    Shows (disassembleOperands bytecode outside
      (⟨i.opcode.operandSizes.1, i.opcode.operandAddrmodes.1⟩, ⟨i.opcode.operandSizes.2, i.opcode.operandAddrmodes.2⟩)
        (UInt64.ofNat (off + 1))) i.operandsText () := by
  have hnext : UInt64.ofNat (off + 1) + UInt64.ofNat 1 = UInt64.ofNat (off + 2) := by
    rw [← UInt64.ofNat_add]
  cases i with
  | noOp | hlt | syscall | regdump | stackDmp => exact shows_pure ()
  | pushRB reg | popRB reg =>
    exact (shows_register outside hcode (j := 1) rfl (hvalid reg (List.mem_singleton_self reg))).last (shows_pure ())
  | addRR reg1 reg2 =>
    have h1 := shows_register outside hcode (j := 1) rfl (hvalid reg1 (by simp [Instr.registers]))
    have h2 := shows_register outside hcode (j := 2) rfl (hvalid reg2 (by simp [Instr.registers]))
    rw [← hnext] at h2
    exact h1.bind ((shows_print _).bind h2)
  | movIR reg imm =>
    have h1 := shows_register outside hcode (j := 1) rfl (hvalid reg (List.mem_singleton_self reg))
    have h2 := shows_immediate outside hcode
    rw [← hnext] at h2
    exact h1.bind ((shows_print _).bind h2)

variable (outside) in
/-- The line of an instruction. -/
theorem shows_instruction (hcode : i.encode <+: bytecode.bytes.drop off) (hvalid : i.Valid) :
    Shows (disassembleInstruction bytecode outside off) (i.lineText (bytecode.base + UInt64.ofNat off)) i.size := by
  refine Shows.after (a := i.opcode.code)
    (shows_reads fun s => ⟨_, load_of_code outside hcode (j := 0) rfl .fetch s⟩) ?_
  have hinfo : Shows (opcodeGetOperandInfo i.opcode.code) []
      (⟨i.opcode.operandSizes.1, i.opcode.operandAddrmodes.1⟩,
        ⟨i.opcode.operandSizes.2, i.opcode.operandAddrmodes.2⟩) :=
    (shows_tableEntry _ _).after ((shows_tableEntry _ _).after (shows_pure _))
  refine hinfo.after ((shows_tableEntry i.opcode Opcode.str).after ?_)
  refine (shows_print _).bind ?_
  rw [Instr.opcode_size]
  refine (shows_dumpBytes outside i.encode off hcode).bind ((shows_print _).bind ?_)
  by_cases hsize : i.size < 2
  · rw [if_pos hsize, if_pos hsize]
    exact (shows_print _).last (shows_pure _)
  · rw [if_neg hsize, if_neg hsize]
    have hopcode : 1 + i.opcode.operandSizes.1 + i.opcode.operandSizes.2 = i.size := by
      cases i <;> simp [Instr.opcode, Opcode.operandSizes, Instr.size, Instr.encode, Instr.operands, length_leBytes]
    refine (shows_print _).bind ((shows_operands outside hcode hvalid).bind ((shows_print _).last ?_))
    rw [hopcode]
    exact shows_pure _

variable (outside) in
/-- The lines of a program. -/
theorem shows_disassembleLoop (is : List Instr) : ∀ n off : Nat, encodeAll is = bytecode.bytes.drop off →
    (∀ i ∈ is, i.Valid) → is.length ≤ n →
      Shows (disassembleLoop bytecode outside n off) (listingText (bytecode.base + UInt64.ofNat off) is) () := by
  induction is with
  | nil =>
    intro n off h _ _
    have hend := size_le_of_encodeAll_nil h
    cases n with
    | zero => exact shows_pure ()
    | succ n =>
      rw [disassembleLoop, if_neg (by omega)]
      exact shows_pure ()
  | cons i is ih =>
    intro n off h hv hn
    obtain ⟨hcode, hrest⟩ := drop_of_encodeAll h
    have hle : off + i.size ≤ bytecode.size := length_of_code hcode (List.cons_ne_nil _ _)
    have hpos := i.size_pos
    rw [List.length_cons] at hn
    obtain ⟨n, rfl⟩ : ∃ k, n = k + 1 := ⟨n - 1, by omega⟩
    obtain ⟨hi, his⟩ := List.forall_mem_cons.mp hv
    rw [disassembleLoop, if_pos (by omega)]
    refine (shows_instruction outside hcode hi).bind ?_
    have haddr : bytecode.base + UInt64.ofNat off + UInt64.ofNat i.size = bytecode.base + UInt64.ofNat (off + i.size) :=
      add_ofNat _ off i.size
    rw [haddr]
    exact ih n (off + i.size) hrest his (by omega)

/-! ## Numbers -/

theorem hex_toList (width n : Nat) :
    (hex width n).toList =
      List.replicate (width - (Nat.toDigits 16 n).length) '0' ++ Nat.toDigits 16 n := String.toList_ofList

theorem readNumeral_hex (width n : Nat) : readNumeral 16 (hex width n).toList = some n := by
  rw [hex_toList]
  exact readNumeral_padded (by decide) (by decide) _ n

theorem hex_toList_ne_nil (width n : Nat) : (hex width n).toList ≠ [] := by
  intro h
  rw [hex_toList, List.append_eq_nil_iff] at h
  exact Nat.toDigits_ne_nil h.2

/-- A character that is no digit is none of a number. -/
theorem not_mem_hex {c : Char} (h : ∀ d < 16, c ≠ Nat.digitChar d) (width n : Nat) : c ∉ (hex width n).toList := by
  rw [hex_toList, List.mem_append, not_or]
  refine ⟨?_, not_mem_toDigits (by decide) (by decide) h n⟩
  intro hc
  exact h 0 (by decide) (List.eq_of_mem_replicate hc)

theorem space_not_mem_hex (width n : Nat) : ' ' ∉ (hex width n).toList := not_mem_hex (by decide) width n

theorem newline_not_mem_hex (width n : Nat) : '\n' ∉ (hex width n).toList := not_mem_hex (by decide) width n

theorem colon_not_mem_hex (width n : Nat) : ':' ∉ (hex width n).toList := not_mem_hex (by decide) width n

/-- A byte has two digits. -/
theorem length_hex_byte (byte : UInt8) : (hex 2 byte.toNat).toList.length = 2 := by
  have hlt : byte.toNat < 256 := byte.toNat_lt
  have hdigits : (Nat.toDigits 16 byte.toNat).length ≤ 2 := (Nat.length_toDigits_le_iff (by decide) (by decide)).mpr hlt
  rw [hex_toList, List.length_append, List.length_replicate]
  omega

theorem byteOf_hex (byte : UInt8) : byteOf (hex 2 byte.toNat).toList = some byte := by
  unfold byteOf
  rw [if_pos (length_hex_byte byte), readNumeral_hex, Option.map_some, UInt8.ofNat_toNat]

/-! ## Operands -/

theorem RegisterType.id_of_ofId {id : UInt8} {reg : RegisterType} (h : RegisterType.ofId id = some reg) :
    reg.id = id := by
  have hall : ∀ k < RegisterType.all.length, (RegisterType.all[k]?.map RegisterType.id) = some (UInt8.ofNat k) := by
    decide
  have hlt : id.toNat < RegisterType.all.length := (List.getElem?_eq_some_iff.mp h).1
  have hid := hall id.toNat hlt
  rw [show RegisterType.all[id.toNat]? = some reg from h, Option.map_some, UInt8.ofNat_toNat] at hid
  exact Option.some.inj hid

/-- The name of a valid register. -/
theorem registerText_toList {id : UInt8} {reg : RegisterType} (h : RegisterType.ofId id = some reg) :
    (registerText id).toList = '%' :: reg.str.toList := by
  unfold registerText
  rw [h, String.toList_append]
  rfl

theorem registerNamed_text {id : UInt8} (h : (RegisterType.ofId id).isSome) :
    registerNamed (registerText id).toList = some id := by
  obtain ⟨reg, hreg⟩ := Option.isSome_iff_exists.mp h
  have hfind : (RegisterType.all.find? fun r => r.str.toList = reg.str.toList) = some reg := by
    cases reg <;> rfl
  rw [registerText_toList hreg, registerNamed, hfind, Option.map_some, RegisterType.id_of_ofId hreg]

/-- Characters that stand in the name of no register. -/
theorem not_mem_registerText {id : UInt8} {c : Char} (h : (RegisterType.ofId id).isSome) (hc : c ≠ '%')
    (hall : ∀ reg : RegisterType, c ∉ reg.str.toList) : c ∉ (registerText id).toList := by
  obtain ⟨reg, hreg⟩ := Option.isSome_iff_exists.mp h
  rw [registerText_toList hreg, List.mem_cons, not_or]
  exact ⟨hc, hall reg⟩

theorem immediateOf_text (imm : UInt64) : immediateOf ("0x" ++ hex 16 imm.toNat).toList = some imm := by
  rw [String.toList_append]
  show (readNumeral 16 (hex 16 imm.toNat).toList).map UInt64.ofNat = some imm
  rw [readNumeral_hex, Option.map_some, UInt64.ofNat_toNat]

/-! ## Words -/

/-- The characters of a text that is part of the output. -/
theorem chars_text (s : String) (out : List Output) :
    (Output.text s :: out).flatMap Output.chars = s.toList ++ out.flatMap Output.chars := List.flatMap_cons

/-- A word, and what follows the spaces after it. -/
theorem fields_column {w : List Char} (hne : w ≠ []) (h : ' ' ∉ w) {n : Nat} (hn : 0 < n) (xs : List Char) :
    fields ' ' (w ++ (List.replicate n ' ' ++ xs)) = w :: fields ' ' xs := by
  obtain ⟨n, rfl⟩ : ∃ k, n = k + 1 := ⟨n - 1, by omega⟩
  rw [List.replicate_succ, List.cons_append, fields_cons hne h, fields_replicate]

/-- Two operands, and the comma at the first of them. -/
theorem fields_two {w1 w2 : List Char} (h1 : ' ' ∉ w1) (h2 : ' ' ∉ w2) (hne : w2 ≠ []) :
    fields ' ' (w1 ++ (", ".toList ++ w2)) = [w1 ++ [','], w2] := by
  have hcomma : ' ' ∉ w1 ++ [','] := by
    rw [List.mem_append, not_or]
    exact ⟨h1, by decide⟩
  have hassoc : w1 ++ (", ".toList ++ w2) = (w1 ++ [',']) ++ ' ' :: w2 := by
    rw [List.append_assoc]
    rfl
  rw [hassoc, fields_cons (by simp) hcomma, fields_last hne h2]

theorem registerText_ne_nil (id : UInt8) : (registerText id).toList ≠ [] := by
  unfold registerText
  rw [String.toList_append]
  exact List.cons_ne_nil _ _

theorem space_not_mem_registerText {id : UInt8} (h : (RegisterType.ofId id).isSome) :
    ' ' ∉ (registerText id).toList :=
  not_mem_registerText h (by decide) fun reg => by cases reg <;> decide

theorem newline_not_mem_registerText {id : UInt8} (h : (RegisterType.ofId id).isSome) :
    '\n' ∉ (registerText id).toList :=
  not_mem_registerText h (by decide) fun reg => by cases reg <;> decide

theorem comma_not_mem_registerText {id : UInt8} (h : (RegisterType.ofId id).isSome) :
    ',' ∉ (registerText id).toList :=
  not_mem_registerText h (by decide) fun reg => by cases reg <;> decide

theorem not_mem_immediate {c : Char} (h : ∀ d < 16, c ≠ Nat.digitChar d) (hx : c ≠ 'x') (imm : UInt64) :
    c ∉ ("0x" ++ hex 16 imm.toNat).toList := by
  rw [String.toList_append, List.mem_append, not_or]
  refine ⟨?_, not_mem_hex h 16 _⟩
  show c ∉ ['0', 'x']
  simp only [List.mem_cons, List.not_mem_nil, or_false, not_or]
  exact ⟨h 0 (by decide), hx⟩

/-- The operands are the words between the spaces. -/
theorem fields_operands (hvalid : i.Valid) :
    fields ' ' (i.operandsText.flatMap Output.chars) = i.operandWords := by
  cases i with
  | noOp | hlt | syscall | regdump | stackDmp => rfl
  | pushRB reg | popRB reg =>
    have hreg := hvalid reg (List.mem_singleton_self reg)
    show fields ' ' ((registerText reg).toList ++ []) = _
    rw [List.append_nil]
    exact fields_last (registerText_ne_nil reg) (space_not_mem_registerText hreg)
  | addRR reg1 reg2 =>
    have hreg1 := hvalid reg1 (by simp [Instr.registers])
    have hreg2 := hvalid reg2 (by simp [Instr.registers])
    show fields ' ' ((registerText reg1).toList ++ (", ".toList ++ ((registerText reg2).toList ++ []))) = _
    rw [List.append_nil]
    exact fields_two (space_not_mem_registerText hreg1) (space_not_mem_registerText hreg2) (registerText_ne_nil reg2)
  | movIR reg imm =>
    have hreg := hvalid reg (List.mem_singleton_self reg)
    show fields ' ' ((registerText reg).toList ++ (", ".toList ++ (("0x" ++ hex 16 imm.toNat).toList ++ []))) = _
    rw [List.append_nil]
    refine fields_two (space_not_mem_registerText hreg) (not_mem_immediate (by decide) (by decide) imm) ?_
    rw [String.toList_append]
    exact List.cons_ne_nil _ _

theorem newline_not_mem_operands (hvalid : i.Valid) : '\n' ∉ i.operandsText.flatMap Output.chars := by
  cases i with
  | noOp | hlt | syscall | regdump | stackDmp => exact List.not_mem_nil
  | pushRB reg | popRB reg =>
    have hreg := hvalid reg (List.mem_singleton_self reg)
    show '\n' ∉ (registerText reg).toList ++ []
    rw [List.append_nil]
    exact newline_not_mem_registerText hreg
  | addRR reg1 reg2 =>
    have hreg1 := hvalid reg1 (by simp [Instr.registers])
    have hreg2 := hvalid reg2 (by simp [Instr.registers])
    show '\n' ∉ (registerText reg1).toList ++ (", ".toList ++ ((registerText reg2).toList ++ []))
    rw [List.append_nil, List.mem_append, List.mem_append, not_or, not_or]
    exact ⟨newline_not_mem_registerText hreg1, by decide, newline_not_mem_registerText hreg2⟩
  | movIR reg imm =>
    have hreg := hvalid reg (List.mem_singleton_self reg)
    show '\n' ∉ (registerText reg).toList ++ (", ".toList ++ (("0x" ++ hex 16 imm.toNat).toList ++ []))
    rw [List.append_nil, List.mem_append, List.mem_append, not_or, not_or]
    exact ⟨newline_not_mem_registerText hreg, by decide, not_mem_immediate (by decide) (by decide) imm⟩

/-- The name of an instruction has letters only, more than two and fewer than ten. -/
theorem Opcode.str_plain (op : Opcode) :
    ' ' ∉ op.str.toList ∧ '\n' ∉ op.str.toList ∧ 2 < op.str.toList.length ∧ op.str.length < 10 := by
  cases op <;> decide

/-- The words of an instruction name it. -/
theorem instrOf_words (hvalid : i.Valid) : instrOf (i.opcode.str.toList :: i.operandWords) = some i := by
  have hbefore : ∀ {id : UInt8}, (RegisterType.ofId id).isSome →
      ((registerText id).toList ++ [',']).takeWhile (· ≠ ',') = (registerText id).toList :=
    fun hid => takeWhile_sep (comma_not_mem_registerText hid)
  cases i with
  | noOp | hlt | syscall | regdump | stackDmp => rfl
  | pushRB reg =>
    rw [Instr.operandWords, instrOf, registerNamed_text (hvalid reg (List.mem_singleton_self reg)), Option.bind_some]
    exact if_pos rfl
  | popRB reg =>
    rw [Instr.operandWords, instrOf, registerNamed_text (hvalid reg (List.mem_singleton_self reg)), Option.bind_some]
    have hne : Opcode.popRB.str.toList ≠ Opcode.pushRB.str.toList := by decide
    exact (if_neg hne).trans (if_pos rfl)
  | addRR reg1 reg2 =>
    have hreg1 := hvalid reg1 (by simp [Instr.registers])
    have hreg2 := hvalid reg2 (by simp [Instr.registers])
    rw [Instr.operandWords, instrOf, hbefore hreg1, registerNamed_text hreg1, Option.bind_some,
      registerNamed_text hreg2]
    have hne : Opcode.addRR.str.toList ≠ Opcode.movIR.str.toList := by decide
    exact (if_neg hne).trans (if_pos rfl)
  | movIR reg imm =>
    have hreg := hvalid reg (List.mem_singleton_self reg)
    rw [Instr.operandWords, instrOf, hbefore hreg, registerNamed_text hreg, Option.bind_some, immediateOf_text]
    exact if_pos rfl

/-! ## Lines -/

/-- The end of a line, from the name of the instruction on. -/
theorem exists_tail (hvalid : i.Valid) : ∃ tail, i.opcode.str.toList ++ i.restText.flatMap Output.chars = tail ++ ['\n'] ∧
    '\n' ∉ tail ∧ fields ' ' tail = i.opcode.str.toList :: i.operandWords := by
  obtain ⟨hspace, hnewline, hlen, hshort⟩ := i.opcode.str_plain
  have hne : i.opcode.str.toList ≠ [] := List.ne_nil_of_length_pos (by omega)
  unfold Instr.restText
  by_cases hsize : i.size < 2
  · have hwords : i.operandWords = [] := by
      cases i <;> first | rfl | exact absurd hsize (by simp [Instr.size, Instr.encode, Instr.operands])
    rw [if_pos hsize, hwords]
    exact ⟨_, rfl, hnewline, fields_last hne hspace⟩
  · rw [if_neg hsize, chars_text, List.flatMap_append, String.toList_ofList]
    refine ⟨i.opcode.str.toList ++ (List.replicate (10 - i.opcode.str.length) ' ' ++ i.operandsText.flatMap Output.chars),
      by simp only [List.append_assoc]; rfl, ?_, ?_⟩
    · rw [List.mem_append, List.mem_append, not_or, not_or]
      refine ⟨hnewline, ?_, newline_not_mem_operands hvalid⟩
      intro hmem
      exact absurd (List.eq_of_mem_replicate hmem) (by decide)
    · rw [fields_column hne hspace (by omega), fields_operands hvalid]

/-- The bytes are the fields before the name. -/
theorem fields_bytes (bs : List UInt8) (xs : List Char) :
    fields ' ' ((bs.map fun byte => Output.text (hex 2 byte.toNat ++ " ")).flatMap Output.chars ++ xs) =
      bs.map (fun byte => (hex 2 byte.toNat).toList) ++ fields ' ' xs := by
  induction bs with
  | nil => rfl
  | cons byte bs ih =>
    have hbyte : (hex 2 byte.toNat ++ " ").toList = (hex 2 byte.toNat).toList ++ [' '] := String.toList_append
    rw [List.map_cons, List.map_cons, chars_text, List.append_assoc, hbyte, List.append_assoc, List.singleton_append,
      fields_cons (hex_toList_ne_nil _ _) (space_not_mem_hex _ _), ih]
    rfl

theorem newline_not_mem_bytes (bs : List UInt8) :
    '\n' ∉ (bs.map fun byte => Output.text (hex 2 byte.toNat ++ " ")).flatMap Output.chars := by
  intro hmem
  obtain ⟨out, hout, hchar⟩ := List.mem_flatMap.mp hmem
  obtain ⟨byte, -, rfl⟩ := List.mem_map.mp hout
  have hbyte : (hex 2 byte.toNat ++ " ").toList = (hex 2 byte.toNat).toList ++ [' '] := String.toList_append
  rw [Output.chars, hbyte, List.mem_append] at hchar
  rcases hchar with hchar | hchar
  · exact newline_not_mem_hex _ _ hchar
  · exact absurd hchar (by decide)

/-- The line of an instruction, without its newline, has its address, its bytes and its words. -/
theorem exists_line (hvalid : i.Valid) (addr : UInt64) : ∃ line, (i.lineText addr).flatMap Output.chars = line ++ ['\n'] ∧
    '\n' ∉ line ∧ fields ' ' line = ((hex 8 addr.toNat).toList ++ [':']) ::
      (i.encode.map (fun byte => (hex 2 byte.toNat).toList) ++ i.opcode.str.toList :: i.operandWords) := by
  obtain ⟨tail, htail, hnewline, hfields⟩ := exists_tail hvalid
  have hcolon : ' ' ∉ (hex 8 addr.toNat).toList ++ [':'] := by
    rw [List.mem_append, not_or]
    exact ⟨space_not_mem_hex _ _, by decide⟩
  have hcolon' : '\n' ∉ (hex 8 addr.toNat).toList ++ [':'] := by
    rw [List.mem_append, not_or]
    exact ⟨newline_not_mem_hex _ _, by decide⟩
  have haddr : (" " ++ hex 8 addr.toNat ++ ":  ").toList =
      ' ' :: (((hex 8 addr.toNat).toList ++ [':']) ++ [' ', ' ']) := by
    rw [String.toList_append, String.toList_append, List.append_assoc, List.append_assoc]
    rfl
  refine ⟨' ' :: (((hex 8 addr.toNat).toList ++ [':']) ++ ' ' :: ' ' ::
    ((i.encode.map fun byte => Output.text (hex 2 byte.toNat ++ " ")).flatMap Output.chars ++
      (List.replicate (35 - (i.size * 3 - 1)) ' ' ++ tail))), ?_, ?_, ?_⟩
  · unfold Instr.lineText
    rw [chars_text, List.flatMap_append, chars_text, haddr, String.toList_append, String.toList_ofList]
    simp only [List.append_assoc, List.cons_append, List.nil_append, htail]
  · simp only [List.mem_cons, List.mem_append, not_or]
    rw [List.mem_append, not_or] at hcolon'
    refine ⟨by decide, ⟨hcolon'.1, by decide⟩, by decide, by decide, newline_not_mem_bytes _, ?_, hnewline⟩
    intro hmem
    exact absurd (List.eq_of_mem_replicate hmem) (by decide)
  · rw [fields_sep, fields_cons (by simp) hcolon, fields_sep, fields_bytes, fields_replicate, hfields]

theorem filterMap_byteOf (bs : List UInt8) :
    (bs.map fun byte => (hex 2 byte.toNat).toList).filterMap byteOf = bs := by
  induction bs with
  | nil => rfl
  | cons byte bs ih => rw [List.map_cons, List.filterMap_cons_some (byteOf_hex byte), ih]

/-- A line is read. -/
theorem readLine_of_fields {line : List Char} {addr : UInt64} (hvalid : i.Valid)
    (h : fields ' ' line = ((hex 8 addr.toNat).toList ++ [':']) ::
      (i.encode.map (fun byte => (hex 2 byte.toNat).toList) ++ i.opcode.str.toList :: i.operandWords)) :
    readLine line = some ⟨addr.toNat, i.encode, i⟩ := by
  have hbefore : ((hex 8 addr.toNat).toList ++ [':']).takeWhile (· ≠ ':') = (hex 8 addr.toNat).toList :=
    takeWhile_sep (colon_not_mem_hex _ _)
  have hbytes : ∀ field ∈ i.encode.map (fun byte => (hex 2 byte.toNat).toList), (byteOf field).isSome := by
    intro field hfield
    obtain ⟨byte, -, rfl⟩ := List.mem_map.mp hfield
    rw [byteOf_hex]
    rfl
  have hname : byteOf i.opcode.str.toList = none := by
    obtain ⟨-, -, hlen, -⟩ := i.opcode.str_plain
    unfold byteOf
    rw [if_neg (by omega)]
  unfold readLine
  rw [h]
  show (readNumeral 16 _).bind _ = _
  rw [hbefore, readNumeral_hex, Option.bind_some, List.dropWhile_append_of_pos hbytes,
    List.takeWhile_append_of_pos hbytes, List.dropWhile_cons_of_neg (by rw [hname]; exact Bool.false_ne_true),
    List.takeWhile_cons_of_neg (by rw [hname]; exact Bool.false_ne_true), instrOf_words hvalid, List.append_nil,
    filterMap_byteOf]
  rfl

/-- The listing is read back, line by line. -/
theorem readListing_listingText (is : List Instr) : ∀ addr : UInt64, (∀ i ∈ is, i.Valid) →
    addr.toNat + (encodeAll is).length < 0x8000000000000000 →
      readListing ((listingText addr is).flatMap Output.chars) = some (listed addr.toNat is) := by
  induction is with
  | nil => exact fun _ _ _ => rfl
  | cons i is ih =>
    intro addr hvalid hfits
    obtain ⟨hi, his⟩ := List.forall_mem_cons.mp hvalid
    obtain ⟨line, hline, hnewline, hfields⟩ := exists_line hi addr
    have hne : line ≠ [] := by
      rintro rfl
      cases hfields
    have hlen : (encodeAll (i :: is)).length = i.size + (encodeAll is).length := List.length_append
    have hnext : (addr + UInt64.ofNat i.size).toNat = addr.toNat + i.size := by
      rw [UInt64.toNat_add, UInt64.toNat_ofNat_of_lt' (by show _ < 18446744073709551616; omega), Nat.mod_eq_of_lt]
      omega
    have hrest := ih (addr + UInt64.ofNat i.size) his (by omega)
    unfold readListing at hrest ⊢
    rw [listingText, List.flatMap_append, hline, List.append_assoc, List.singleton_append, fields_cons hne hnewline,
      List.mapM_cons, readLine_of_fields hi hfields, hrest, hnext]
    rfl

variable (outside) in
/-- The disassembly of a program is its listing. -/
theorem shows_disassemble (is : List Instr) (hcode : bytecode.bytes = encodeAll is) (hvalid : ∀ i ∈ is, i.Valid) :
    Shows (disassemble bytecode outside) (listingText bytecode.base is) () := by
  have hlen : is.length ≤ bytecode.size := by
    unfold Bytecode.size
    rw [hcode]
    exact length_le_encodeAll is
  have h := shows_disassembleLoop outside is bytecode.size 0 hcode.symm hvalid hlen
  have hbase : bytecode.base + UInt64.ofNat 0 = bytecode.base := UInt64.add_zero _
  rw [hbase] at h
  exact h

theorem readListing_of_code (is : List Instr) (hcode : bytecode.bytes = encodeAll is) (hvalid : ∀ i ∈ is, i.Valid) :
    readListing ((listingText bytecode.base is).flatMap Output.chars) = some (listed bytecode.base.toNat is) := by
  have hfits := bytecode.fits
  rw [hcode] at hfits
  exact readListing_listingText is bytecode.base hvalid hfits

/-- The disassembly of a program says which instructions the program has, with their addresses and their bytes. -/
theorem disassembly_reads_back (outside : Outside) (bytecode : Bytecode) (is : List Instr)
    (hcode : bytecode.bytes = encodeAll is) (hvalid : ∀ i ∈ is, i.Valid) (s : State) : ∃ out as,
      disassemble bytecode outside s = .ok () { s.accessAll as with stdout := s.stdout ++ out } ∧
        readListing (out.flatMap Output.chars) = some (listed bytecode.base.toNat is) := by
  obtain ⟨as, has⟩ := shows_disassemble outside is hcode hvalid s
  exact ⟨_, as, has, readListing_of_code is hcode hvalid⟩

/-- A program with operands of every kind. -/
theorem disassembly_reads_back_addRR :
    let is := [Instr.movIR 0 0xFF, .addRR 0 11, .pushRB 3, .hlt]
    let bytecode := Bytecode.mapped (encodeAll is) (by decide)
    ∃ out as, disassemble bytecode .unmapped initialState = .ok ()
        { initialState.accessAll as with stdout := initialState.stdout ++ out } ∧
      readListing (out.flatMap Output.chars) = some (listed bytecode.base.toNat is) := by
  intro is bytecode
  exact disassembly_reads_back .unmapped bytecode is rfl (by decide) initialState

end Blaze.Vm
