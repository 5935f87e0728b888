import Blazescript.Stdio.Machine
import Blazescript.Vm.Proofs.ProgramProofs

/-!
# Proofs: words in the memory

A word that has been written is read again, until something is written to one of its bytes.
-/

namespace Blaze.Stdio

open Vm (leBytes leValue length_leBytes leValue_leBytes)

variable {mem : UInt64 → UInt8} {a b v : UInt64} {byte : UInt8}

theorem toNat_ofNat_of_lt {i : Nat} (h : i < 8) : (UInt64.ofNat i).toNat = i := by
  rw [UInt64.toNat_ofNat']
  omega

theorem loadBytes_congr {mem' : UInt64 → UInt8} {n : Nat}
    (h : ∀ i < n, mem' (b + UInt64.ofNat i) = mem (b + UInt64.ofNat i)) : loadBytes mem' b n = loadBytes mem b n :=
  List.map_congr_left fun i hi => h i (List.mem_range.mp hi)

theorem loadWord_storeWord_self (mem : UInt64 → UInt8) (a v : UInt64) : loadWord (storeWord mem a v) a = v := by
  have hbytes : loadBytes (storeWord mem a v) a 8 = leBytes 8 v := by
    have hget : ∀ i ∈ List.range 8, storeWord mem a v (a + UInt64.ofNat i) = (leBytes 8 v)[i]?.getD 0 := by
      intro i hi
      have hlt : i < 8 := List.mem_range.mp hi
      have hoffset : a + UInt64.ofNat i - a = UInt64.ofNat i := by grind
      have hlength : i < (leBytes 8 v).length := by
        rw [length_leBytes]
        exact hlt
      unfold storeWord
      rw [hoffset, toNat_ofNat_of_lt hlt, List.getElem?_eq_getElem hlength]
      rfl
    exact (List.map_congr_left hget).trans rfl
  rw [loadWord, hbytes]
  exact leValue_leBytes 8 v v.toNat_lt

/-- The bytes of a word start with the low one. -/
theorem storeWord_low (mem : UInt64 → UInt8) (a v : UInt64) : storeWord mem a v a = v.toUInt8 := by
  have hoffset : (a - a).toNat = 0 := by
    rw [UInt64.sub_self]
    rfl
  unfold storeWord
  rw [hoffset]
  rfl

theorem storeWord_of_le (h : 8 ≤ (b - a).toNat) : storeWord mem a v b = mem b := by
  unfold storeWord
  rw [List.getElem?_eq_none (by rw [length_leBytes]; exact h)]
  rfl

/-- A word that does not overlap with the one that is written. -/
theorem loadWord_storeWord_of_le (h : 8 ≤ (b - a).toNat) (h' : 8 ≤ (a - b).toNat) :
    loadWord (storeWord mem a v) b = loadWord mem b := by
  refine congrArg leValue (loadBytes_congr fun i hi => storeWord_of_le ?_)
  have hneg : (b - a).toNat + (a - b).toNat = 2 ^ 64 := by
    have hsub : a - b = -(b - a) := by grind
    have hsize : UInt64.size = 2 ^ 64 := rfl
    have hlt := (b - a).toNat_lt
    rw [hsub, UInt64.toNat_neg, hsize] at h' ⊢
    omega
  have hadd : b + UInt64.ofNat i - a = (b - a) + UInt64.ofNat i := by grind
  rw [hadd, UInt64.toNat_add, toNat_ofNat_of_lt hi]
  omega

/-- The word at one distance below an address, and one that is written at a greater distance. -/
theorem loadWord_storeWord_below {r i j : UInt64} (h : 8 ≤ (j - i).toNat) (h' : 8 ≤ (i - j).toNat) :
    loadWord (storeWord mem (r - j) v) (r - i) = loadWord mem (r - i) := by
  have hsub : r - i - (r - j) = j - i := by grind
  have hsub' : r - j - (r - i) = i - j := by grind
  exact loadWord_storeWord_of_le (by rw [hsub]; exact h) (by rw [hsub']; exact h')

theorem storeWord_below {r i j : UInt64} (h : 8 ≤ (j - i).toNat) :
    storeWord mem (r - j) v (r - i) = mem (r - i) := by
  have hsub : r - i - (r - j) = j - i := by grind
  exact storeWord_of_le (by rw [hsub]; exact h)

/-- A byte outside the words below an address keeps its value when one of these words is written. -/
theorem storeWord_of_far {r d j : UInt64} (hb : d.toNat ≤ (b - (r - d)).toNat) (hj : (d - j).toNat + 8 ≤ d.toNat) :
    storeWord mem (r - j) v b = mem b := by
  have hsub : b - (r - j) = b - (r - d) - (d - j) := by grind
  refine storeWord_of_le ?_
  rw [hsub, UInt64.toNat_sub_of_le _ _ (UInt64.le_iff_toNat_le.mpr (by omega))]
  omega

@[simp] theorem toUInt8_setLow (v : UInt64) (byte : UInt8) : (setLow v byte).toUInt8 = byte := by
  have hlow : ((v >>> 8) <<< 8).toNat % 256 = 0 := by
    simp only [UInt64.toNat_shiftLeft, UInt64.toNat_shiftRight]
    simp [Nat.shiftLeft_eq, Nat.shiftRight_eq_div_pow]
  have hbyte := byte.toNat_lt
  refine UInt8.toNat_inj.mp ?_
  unfold setLow
  rw [UInt64.toNat_toUInt8, UInt64.toNat_add, UInt8.toNat_toUInt64]
  omega

end Blaze.Stdio
