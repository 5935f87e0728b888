import Blazescript.Running.Pushed

/-!
# Proofs: stacks in a memory

What a push, a pop and a change of the memory below the top make of a stack.
-/

namespace Running

variable {α : Type} {size : Int} {mem mem' : Int → α} {base top : Int} {vs : List α} {v : α}

theorem Pushed.nil (size : Int) (mem : Int → α) (base : Int) : Pushed size mem base base [] := by
  refine ⟨?_, ?_⟩
  · simp
  · intro i v h
    cases h

/-- The addresses of the stack are at or above its top. -/
theorem Pushed.top_le (h : Pushed size mem base top vs) (hsize : 0 < size) {i : Nat} (hi : i < vs.length) :
    top ≤ base - size * (i + 1) := by
  have hle : size * (i + 1) ≤ size * vs.length := by
    apply Int.mul_le_mul_of_nonneg_left
    · exact_mod_cast hi
    · exact Int.le_of_lt hsize
  have htop := h.top
  omega

/-- What is below the top does not matter. -/
theorem Pushed.congr (h : Pushed size mem base top vs) (hsize : 0 < size) (hmem : ∀ a, top ≤ a → mem' a = mem a) :
    Pushed size mem' base top vs := by
  refine ⟨h.top, ?_⟩
  intro i v hv
  have hi : i < vs.length := (List.getElem?_eq_some_iff.mp hv).1
  rw [hmem _ (h.top_le hsize hi)]
  exact h.get i v hv

theorem Pushed.push (h : Pushed size mem base top vs) (hsize : 0 < size) (v : α) :
    Pushed size (Function.update mem (top - size) v) base (top - size) (vs ++ [v]) := by
  have htop : top - size = base - size * (vs.length + 1) := by
    rw [h.top, Int.mul_add, Int.mul_one]
    omega
  refine ⟨?_, ?_⟩
  · rw [htop, List.length_append, List.length_singleton]
    push_cast
    rfl
  · intro i w hw
    by_cases hi : i < vs.length
    · rw [List.getElem?_append_left hi] at hw
      have hle := h.top_le hsize hi
      rw [Function.update_of_ne (by omega)]
      exact h.get i w hw
    · have hlast : i = vs.length := by
        have hlt := (List.getElem?_eq_some_iff.mp hw).1
        rw [List.length_append, List.length_singleton] at hlt
        omega
      rw [hlast, List.getElem?_concat_length] at hw
      cases hw
      rw [hlast, htop, Function.update_self]

theorem Pushed.pop (h : Pushed size mem base top (vs ++ [v])) :
    mem top = v ∧ Pushed size mem base (top + size) vs := by
  have htop := h.top
  rw [List.length_append, List.length_singleton] at htop
  push_cast at htop
  refine ⟨?_, ?_, ?_⟩
  · rw [htop]
    exact h.get vs.length v List.getElem?_concat_length
  · rw [htop, Int.mul_add, Int.mul_one]
    omega
  · intro i w hw
    refine h.get i w ?_
    rw [List.getElem?_append_left (List.getElem?_eq_some_iff.mp hw).1]
    exact hw

end Running
