import Blazescript.Vm.Instr
import Mathlib.Tactic

/-!
# Proofs: the program in memory

Addresses and offsets, and what the reads of the machine give at the address of a byte of the program.
-/

namespace Blaze.Vm

variable {bytecode : Bytecode} {outside : Outside}

/-! ## Numbers of registers and opcodes -/

@[simp] theorem RegisterType.ofId_id (reg : RegisterType) : ofId reg.id = some reg := by
  cases reg <;> rfl

@[simp] theorem Opcode.ofCode_code (op : Opcode) : ofCode op.code = some op := by
  cases op <;> rfl

theorem Opcode.code_of_ofCode {code : UInt8} {op : Opcode} (h : ofCode code = some op) :
    op.code = code := by
  have hlt : code.toNat < all.length := by
    by_contra hge
    rw [ofCode, List.getElem?_eq_none (by omega)] at h
    cases h
  have hall : ∀ n : Fin 9, all[n.1]? = some op → op.code = UInt8.ofNat n.1 := by
    intro n hn
    fin_cases n <;> (cases hn; rfl)
  have := hall ⟨code.toNat, hlt⟩ h
  rw [this]
  exact UInt8.ofNat_toNat

theorem Instr.opcode_size (i : Instr) : opcodeGetSize i.opcode.code = i.size := by
  cases i <;> rfl

/-! ## Numbers and their bytes -/

theorem length_leBytes (n : Nat) (x : UInt64) : (leBytes n x).length = n := by
  induction n generalizing x with
  | zero => rfl
  | succ n ih => simp [leBytes, ih]

theorem toUInt8_add_shift (x : UInt64) : x.toUInt8.toUInt64 + (x >>> 8) <<< 8 = x := by
  apply UInt64.toNat_inj.mp
  simp only [UInt64.toNat_add, UInt64.toNat_shiftLeft, UInt64.toNat_shiftRight,
    UInt8.toNat_toUInt64, UInt64.toNat_toUInt8]
  have := x.toNat_lt
  simp [Nat.shiftLeft_eq, Nat.shiftRight_eq_div_pow]
  omega

/-- The bytes of a number have its value, if there are enough of them. -/
theorem leValue_leBytes (n : Nat) (x : UInt64) (h : x.toNat < 2 ^ (8 * n)) :
    leValue (leBytes n x) = x := by
  induction n generalizing x with
  | zero =>
    apply UInt64.toNat_inj.mp
    simp only [Nat.mul_zero, pow_zero, Nat.lt_one_iff] at h
    simp [leBytes, leValue, h]
  | succ n ih =>
    have hshift : (x >>> 8).toNat < 2 ^ (8 * n) := by
      have hpow : 2 ^ (8 * (n + 1)) = 2 ^ (8 * n) * 256 := by rw [Nat.mul_add, pow_add]; norm_num
      rw [UInt64.toNat_shiftRight]
      simp [Nat.shiftRight_eq_div_pow]
      omega
    simp only [leBytes, leValue, ih _ hshift]
    exact toUInt8_add_shift x

/-- At most eight bytes are those of their value. -/
theorem leBytes_leValue (bs : List UInt8) (h : bs.length ≤ 8) :
    leBytes bs.length (leValue bs) = bs ∧ (leValue bs).toNat < 2 ^ (8 * bs.length) := by
  induction bs with
  | nil => exact ⟨rfl, by simp [leValue]⟩
  | cons b bs ih =>
    rw [List.length_cons] at h
    obtain ⟨hbytes, hlt⟩ := ih (by omega)
    have hpow : 2 ^ (8 * (bs.length + 1)) = 2 ^ (8 * bs.length) * 256 := by
      rw [Nat.mul_add, pow_add]
      norm_num
    have hle : 2 ^ (8 * bs.length) ≤ 2 ^ 56 := Nat.pow_le_pow_right (by norm_num) (by omega)
    have hb := b.toNat_lt
    -- no bit is lost
    have hshift : (leValue bs <<< 8).toNat = (leValue bs).toNat * 256 := by
      rw [UInt64.toNat_shiftLeft]
      simp only [Nat.shiftLeft_eq]
      have h8 : (8 : UInt64).toNat % 64 = 8 := rfl
      rw [h8]
      omega
    have hnat : (leValue (b :: bs)).toNat = b.toNat + (leValue bs).toNat * 256 := by
      rw [leValue, UInt64.toNat_add, hshift, UInt8.toNat_toUInt64]
      omega
    have hlow : (leValue (b :: bs)).toUInt8 = b := by
      apply UInt8.toNat_inj.mp
      rw [UInt64.toNat_toUInt8, hnat]
      omega
    have hhigh : leValue (b :: bs) >>> 8 = leValue bs := by
      apply UInt64.toNat_inj.mp
      rw [UInt64.toNat_shiftRight, hnat, Nat.shiftRight_eq_div_pow]
      have h8 : (8 : UInt64).toNat % 64 = 8 := rfl
      rw [h8]
      omega
    refine ⟨?_, ?_⟩
    · rw [List.length_cons, leBytes, hlow, hhigh, hbytes]
    · rw [List.length_cons, hnat, hpow]
      omega

/-! ## Addresses -/

theorem toNat_add_ofNat {a : UInt64} {n : Nat} (h : a.toNat + n < 2 ^ 64) :
    (a + UInt64.ofNat n).toNat = a.toNat + n := by
  simp only [UInt64.toNat_add, UInt64.toNat_ofNat']
  omega

theorem Bytecode.offset_base_add (n : Nat) (h : n < 2 ^ 64) :
    bytecode.offset (bytecode.base + UInt64.ofNat n) = n := by
  have : bytecode.base + UInt64.ofNat n - bytecode.base = UInt64.ofNat n := by
    rw [UInt64.add_comm, UInt64.add_sub_cancel]
  rw [Bytecode.offset, this, UInt64.toNat_ofNat']
  omega

/-- An address in the program. -/
theorem loadAs_eq {kind : UInt64 → Access} {addr : UInt64} {b : UInt8} (s : State)
    (h : bytecode.bytes[bytecode.offset addr]? = some b) :
    loadAs bytecode outside kind addr s = .ok b (s.access (kind addr)) := by
  rw [loadAs, h]
  rfl

theorem add_ofNat (a : UInt64) (m n : Nat) :
    a + UInt64.ofNat m + UInt64.ofNat n = a + UInt64.ofNat (m + n) := by
  rw [UInt64.add_assoc, ← UInt64.ofNat_add]

theorem add_one_ofNat (a : UInt64) (n : Nat) :
    a + 1 + UInt64.ofNat n = a + UInt64.ofNat (n + 1) := by
  have h := add_ofNat a 1 n
  rw [Nat.add_comm 1 n] at h
  exact h

end Blaze.Vm
