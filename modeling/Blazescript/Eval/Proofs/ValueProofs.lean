import Blazescript.Eval.Value
import Mathlib.Tactic

/-!
# Proofs: the value table

Where a slot comes from: the head of the free list, or the end of the table.
-/

namespace Blaze

namespace ValAllocTbl

/-- `val_alloc` pops the free list, or adds a slot when the list is empty. -/
theorem alloc_cases (tbl : ValAllocTbl) :
    (∃ index next, tbl.head = index :: next ∧ tbl.alloc.1 = index ∧ tbl.alloc.2.head = next ∧
      tbl.alloc.2.values = tbl.values) ∨
    (tbl.head = [] ∧ tbl.alloc.1 = tbl.values.length ∧ tbl.alloc.2.head = [] ∧
      ∃ v, tbl.alloc.2.values = tbl.values ++ [v]) := by
  rcases hh : tbl.head with _ | ⟨index, next⟩
  · refine .inr ⟨rfl, ?_⟩
    have hv : tbl.resize.values = tbl.values ∧ tbl.resize.head = tbl.head := by
      unfold resize
      split_ifs <;> exact ⟨rfl, rfl⟩
    simp only [alloc, hh, hv.1, hv.2]
    exact ⟨trivial, trivial, _, rfl⟩
  · exact .inl ⟨index, next, rfl, by simp [alloc, hh], by simp [alloc, hh], by simp [alloc, hh]⟩

/-- The slot a value is created in. -/
theorem create_fst (tbl : ValAllocTbl) (data : ValData) :
    (tbl.create data).1 = ⟨data, false, some tbl.alloc.1⟩ := rfl

/-- Creating a value takes its slot off the free list and leaves the other slots alone. -/
theorem create_spec (tbl : ValAllocTbl) (data : ValData) :
    (tbl.create data).2.head = tbl.head.tail ∧
      (tbl.alloc.1 ∈ tbl.head.head? ∨ tbl.head = [] ∧ tbl.alloc.1 = tbl.values.length) ∧
      tbl.values.length ≤ (tbl.create data).2.values.length ∧
      (tbl.alloc.1 < tbl.values.length ∨ tbl.head = [] →
        (tbl.create data).2.values[tbl.alloc.1]? = some (tbl.create data).1) ∧
      ∀ i, i ≠ tbl.alloc.1 → (tbl.create data).2.values[i]? = tbl.values[i]? ∨
        tbl.values.length ≤ i := by
  have hval : (tbl.create data).2.values = tbl.alloc.2.values.set tbl.alloc.1 (tbl.create data).1 :=
    rfl
  have hhead : (tbl.create data).2.head = tbl.alloc.2.head := rfl
  rcases tbl.alloc_cases with ⟨index, next, h1, h2, h3, h4⟩ | ⟨h1, h2, h3, v, h4⟩
  · refine ⟨by rw [hhead, h3, h1, List.tail_cons], .inl (by simp [h1, h2]), ?_, fun hi => ?_,
      fun i hi => .inl ?_⟩
    · rw [hval, h4, List.length_set]
    · have hlt : tbl.alloc.1 < tbl.values.length := by
        rcases hi with hi | hi
        · exact hi
        · simp [h1] at hi
      rw [hval, h4, List.getElem?_set_self hlt]
    · rw [hval, h4, List.getElem?_set_ne (Ne.symm hi)]
  · refine ⟨by rw [hhead, h3, h1, List.tail_nil], .inr ⟨h1, h2⟩, ?_, fun _ => ?_, fun i hi => ?_⟩
    · rw [hval, h4, List.length_set, List.length_append]
      omega
    · rw [hval, h4, h2, List.getElem?_set_self (by simp)]
    · rw [hval, h4, List.getElem?_set_ne (Ne.symm hi)]
      by_cases hlt : i < tbl.values.length
      · exact .inl (List.getElem?_append_left hlt)
      · exact .inr (by omega)

/-- A slot holds what it held, or is the one that gets the new value. -/
theorem create_values {tbl : ValAllocTbl} {data : ValData} {i : Nat} {v : Val}
    (h : (tbl.create data).2.values[i]? = some v) : tbl.values[i]? = some v ∨ i = tbl.alloc.1 ∧ v = (tbl.create data).1 := by
  have hval : (tbl.create data).2.values = tbl.alloc.2.values.set tbl.alloc.1 (tbl.create data).1 := rfl
  rw [hval] at h
  by_cases hi : tbl.alloc.1 = i
  · rw [hi, List.getElem?_set] at h
    rw [if_pos rfl] at h
    by_cases hlt : i < tbl.alloc.2.values.length
    · rw [if_pos hlt] at h
      exact .inr ⟨hi.symm, (Option.some.inj h).symm⟩
    · rw [if_neg hlt] at h
      cases h
  · rw [List.getElem?_set_ne hi] at h
    rcases tbl.alloc_cases with ⟨index, next, -, -, -, hvalues⟩ | ⟨-, hindex, -, u, hvalues⟩
    · rw [hvalues] at h
      exact .inl h
    · rw [hvalues] at h
      have hlt : i < tbl.values.length := by
        have hlt := (List.getElem?_eq_some_iff.mp h).1
        rw [List.length_append, List.length_singleton] at hlt
        omega
      rw [List.getElem?_append_left hlt] at h
      exact .inl h

end ValAllocTbl

end Blaze
