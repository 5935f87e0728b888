import Mathlib.Tactic
import Blazescript.Arena.Heap

/-!
# Proofs: heaps and chains

What each heap operation does to each way of looking at an object, and the recursion of `chain`.
-/

namespace Arena

variable {α : Type}

namespace Heap

variable (h : Heap α) (a : α) (i j : Nat)

@[simp] theorem size_alloc : (h.alloc a).size = h.size + 1 := by simp [size, alloc]

@[simp] theorem size_write : (h.write i a).size = h.size := by simp [size, write]

@[simp] theorem size_free : (h.free i).size = h.size := by simp [size, free]

theorem peek_alloc : (h.alloc a).peek i = if i = h.size then some a else h.peek i := by
  unfold peek alloc size
  split_ifs with hi
  · simp [hi]
  · rcases Nat.lt_or_ge i h.cells.length with hlt | hge
    · rw [List.getElem?_append_left hlt]
    · have h1 : h.cells.length < i := by omega
      rw [List.getElem?_eq_none (by simp; omega), List.getElem?_eq_none (by omega)]

theorem isLive_alloc : (h.alloc a).isLive i = (decide (i = h.size) || h.isLive i) := by
  unfold isLive alloc size
  rcases Nat.lt_trichotomy i h.cells.length with hlt | rfl | hgt
  · rw [List.getElem?_append_left hlt]
    simp [Nat.ne_of_lt hlt]
  · simp
  · rw [List.getElem?_eq_none (by simp; omega), List.getElem?_eq_none (by omega)]
    simp [Nat.ne_of_gt hgt]

theorem peek_write : (h.write i a).peek j = if j = i then (h.peek i).map fun _ => a else h.peek j := by
  unfold peek write
  simp only [List.getElem?_modify]
  split_ifs with h1 h2 h2
  · subst h1
    cases h.cells[i]? <;> rfl
  · exact absurd h1.symm h2
  · exact absurd h2.symm h1
  · cases h.cells[j]? <;> rfl

@[simp] theorem isLive_write : (h.write i a).isLive j = h.isLive j := by
  unfold isLive write
  simp only [List.getElem?_modify]
  split_ifs
  · cases h.cells[j]? <;> rfl
  · cases h.cells[j]? <;> rfl

@[simp] theorem peek_free : (h.free i).peek j = h.peek j := by
  unfold peek free
  simp only [List.getElem?_modify]
  split_ifs
  · cases h.cells[j]? <;> rfl
  · cases h.cells[j]? <;> rfl

theorem isLive_free : (h.free i).isLive j = (h.isLive j && decide (j ≠ i)) := by
  unfold isLive free
  simp only [List.getElem?_modify]
  split_ifs with h1
  · subst h1
    cases h.cells[i]? <;> simp
  · have : j ≠ i := fun e => h1 e.symm
    cases h.cells[j]? <;> simp [this]

variable {h a i j}

theorem lt_of_isLive (hl : h.isLive i = true) : i < h.size := by
  unfold isLive at hl
  by_contra hlt
  rw [List.getElem?_eq_none (by simpa [size] using hlt)] at hl
  simp at hl

theorem peek_isSome : (h.peek i).isSome ↔ i < h.size := by
  simp [peek, size]

theorem peek_of_lt (hi : i < h.size) : ∃ x, h.peek i = some x :=
  Option.isSome_iff_exists.mp (peek_isSome.mpr hi)

theorem lt_of_peek (hp : h.peek i = some a) : i < h.size :=
  peek_isSome.mp (Option.isSome_iff_exists.mpr ⟨a, hp⟩)

theorem read_eq_some : h.read i = some a ↔ h.isLive i = true ∧ h.peek i = some a := by
  unfold read
  split_ifs with hl
  · simp [hl]
  · simp [hl]

theorem read_alloc : (h.alloc a).read i = if i = h.size then some a else h.read i := by
  unfold read
  rw [isLive_alloc, peek_alloc]
  by_cases hi : i = h.size
  · rw [if_pos hi, if_pos hi, hi, decide_eq_true rfl, Bool.true_or, if_pos rfl]
  · rw [if_neg hi, if_neg hi, decide_eq_false hi, Bool.false_or]

/-- What could be read still can be. -/
theorem read_alloc_of_read {b : α} (hr : h.read i = some b) : (h.alloc a).read i = some b := by
  have hlt := lt_of_isLive (read_eq_some.mp hr).1
  rw [read_alloc, if_neg (Nat.ne_of_lt hlt)]
  exact hr

theorem read_free : (h.free i).read j = if j = i then none else h.read j := by
  unfold read
  rw [isLive_free, peek_free]
  by_cases hj : j = i
  · rw [if_pos hj, decide_eq_false (not_not_intro hj), Bool.and_false, if_neg Bool.false_ne_true]
  · rw [if_neg hj, decide_eq_true hj, Bool.and_true]

theorem read_write : (h.write i a).read j = if j = i then (h.read i).map fun _ => a else h.read j := by
  unfold read
  rw [isLive_write, peek_write]
  by_cases hj : j = i
  · subst hj
    rw [if_pos rfl, if_pos rfl]
    by_cases hl : h.isLive j = true
    · rw [if_pos hl, if_pos hl]
    · rw [if_neg hl, if_neg hl]
      rfl
  · rw [if_neg hj, if_neg hj]

theorem exists_read (hl : h.isLive i = true) : ∃ x, h.read i = some x ∧ h.peek i = some x := by
  obtain ⟨x, hx⟩ := peek_of_lt (lt_of_isLive hl)
  exact ⟨x, read_eq_some.mpr ⟨hl, hx⟩, hx⟩

end Heap

/-! ## Chains -/

variable {parent parent' : Nat → Option Nat}

/-- More fuel than the identity does not lengthen the chain. -/
theorem ancestors_eq_chain (hr : Rooted parent) :
    ∀ fuel i, i < fuel → ancestors parent fuel i = chain parent i := by
  intro fuel
  induction fuel using Nat.strong_induction_on with
  | _ fuel ih =>
    intro i hi
    obtain ⟨f, rfl⟩ : ∃ f, fuel = f + 1 := ⟨fuel - 1, by omega⟩
    simp only [ancestors, chain]
    cases hp : parent i with
    | none => rfl
    | some p =>
      have hlt := hr i p hp
      have h1 := ih f (by omega) p (by omega)
      have h2 := ih i (by omega) p hlt
      simp only [h1, h2]

theorem chain_root {i : Nat} (hp : parent i = none) : chain parent i = [i] := by
  simp [chain, ancestors, hp]

theorem chain_parent (hr : Rooted parent) {i p : Nat} (hp : parent i = some p) :
    chain parent i = i :: chain parent p := by
  have h := ancestors_eq_chain hr i p (hr i p hp)
  simp [chain, ancestors, hp] at h ⊢
  exact h

theorem mem_chain_self {i : Nat} : i ∈ chain parent i := by simp [chain, ancestors]

theorem chain_cons (i : Nat) : ∃ l, chain parent i = i :: l := ⟨_, rfl⟩

/-- Induction along a chain, from its root. -/
theorem chain_induction (hr : Rooted parent) {P : Nat → Prop}
    (root : ∀ i, parent i = none → P i) (step : ∀ i p, parent i = some p → P p → P i) (i : Nat) :
    P i := by
  induction i using Nat.strong_induction_on with
  | _ i ih =>
    cases hp : parent i with
    | none => exact root i hp
    | some p => exact step i p hp (ih p (hr i p hp))

theorem le_of_mem_chain (hr : Rooted parent) {i j : Nat} (h : j ∈ chain parent i) : j ≤ i := by
  induction i using chain_induction hr with
  | root i hp => rw [chain_root hp] at h; simpa using (List.mem_singleton.mp h).le
  | step i p hp ih =>
    rw [chain_parent hr hp] at h
    rcases List.mem_cons.mp h with rfl | h
    · exact le_rfl
    · exact (ih h).trans (hr i p hp).le

theorem chain_nodup (hr : Rooted parent) (i : Nat) : (chain parent i).Nodup := by
  induction i using chain_induction hr with
  | root i hp =>
    rw [chain_root hp]
    exact List.nodup_singleton i
  | step i p hp ih =>
    rw [chain_parent hr hp]
    refine List.nodup_cons.mpr ⟨fun hmem => ?_, ih⟩
    have hle := le_of_mem_chain hr hmem
    have hlt := hr i p hp
    omega

/-- The chain depends only on the parents of older objects. -/
theorem chain_congr (hr : Rooted parent) {i : Nat} (h : ∀ j ≤ i, parent' j = parent j) :
    chain parent' i = chain parent i := by
  have key : ∀ fuel k, k ≤ i → ancestors parent' fuel k = ancestors parent fuel k := by
    intro fuel
    induction fuel with
    | zero => intro k _; rfl
    | succ fuel ih =>
      intro k hk
      simp only [ancestors, h k hk]
      cases hp : parent k with
      | none => rfl
      | some p => simp only [ih p ((hr k p hp).le.trans hk)]
  exact key (i + 1) i le_rfl

end Arena
