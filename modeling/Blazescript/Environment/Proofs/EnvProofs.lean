import Blazescript.Arena.Proofs.HeapProofs
import Blazescript.Environment.Env

/-!
# Proofs: looking names up

The recursion of a lookup along the parents, and what binding a name changes.
-/

namespace Environment

open Arena

variable {κ β : Type}

namespace Env

variable {env : Env κ β} {i p : Nat} {k : κ}

/-- A frame that binds the name is its innermost binder. -/
theorem binder_own {b : β × Bool} (h : env.vars i k = some b) : env.binder i k = some i := by
  obtain ⟨l, hl⟩ := @chain_cons env.parent i
  simp [binder, hl, h]

/-- A frame that does not bind the name leaves it to its parent. -/
theorem binder_parent (hr : Rooted env.parent) (h : env.vars i k = none)
    (hp : env.parent i = some p) : env.binder i k = env.binder p k := by
  simp [binder, chain_parent hr hp, h]

theorem binder_root (h : env.vars i k = none) (hp : env.parent i = none) :
    env.binder i k = none := by
  simp [binder, chain_root hp, h]

theorem binder_eq_none : env.binder i k = none ↔ ∀ j ∈ chain env.parent i, env.vars j k = none := by
  simp [binder, List.find?_eq_none]

theorem mem_chain_of_binder {j : Nat} (h : env.binder i k = some j) :
    j ∈ chain env.parent i := List.mem_of_find?_eq_some h

theorem exists_of_binder {j : Nat} (h : env.binder i k = some j) : ∃ b, env.vars j k = some b := by
  have := List.find?_some h
  exact Option.isSome_iff_exists.mp this

theorem find_of_binder {j : Nat} (h : env.binder i k = some j) : env.find i k = env.vars j k := by
  simp [find, h]

theorem find_own {b : β × Bool} (h : env.vars i k = some b) : env.find i k = some b := by
  rw [find_of_binder (binder_own h), h]

theorem find_parent (hr : Rooted env.parent) (h : env.vars i k = none)
    (hp : env.parent i = some p) : env.find i k = env.find p k := by
  simp only [find, binder_parent hr h hp]

theorem find_eq_none : env.find i k = none ↔ ∀ j ∈ chain env.parent i, env.vars j k = none := by
  rw [← binder_eq_none]
  constructor
  · intro h
    cases hb : env.binder i k with
    | none => rfl
    | some j =>
      obtain ⟨b, hv⟩ := exists_of_binder hb
      rw [find_of_binder hb, hv] at h
      cases h
  · intro h
    simp [find, h]

theorem KeepsConstants.refl (env : Env κ β) : env.KeepsConstants env := fun _ _ _ h => h

theorem KeepsConstants.trans {env₁ env₂ env₃ : Env κ β} (h₁ : env₁.KeepsConstants env₂)
    (h₂ : env₂.KeepsConstants env₃) : env₁.KeepsConstants env₃ :=
  fun i k v h => h₂ i k v (h₁ i k v h)

section Retained

variable {frames : List Nat} {assigned : κ → Prop}

theorem RetainedIn.refl (env : Env κ β) : env.RetainedIn env frames assigned :=
  ⟨fun _ _ _ h => h, fun _ _ _ _ h => h, fun _ _ _ v h => ⟨v, h, .inl rfl⟩⟩

theorem RetainedIn.trans {env₁ env₂ env₃ : Env κ β} (h₁ : env₁.RetainedIn env₂ frames assigned)
    (h₂ : env₂.RetainedIn env₃ frames assigned) : env₁.RetainedIn env₃ frames assigned := by
  refine ⟨fun i hi k h => h₂.unbound i hi k (h₁.unbound i hi k h),
    fun i hi k v h => h₂.const i hi k v (h₁.const i hi k v h), fun i hi k v h => ?_⟩
  obtain ⟨v', hv', hc'⟩ := h₁.var i hi k v h
  obtain ⟨v'', hv'', hc''⟩ := h₂.var i hi k v' hv'
  refine ⟨v'', hv'', ?_⟩
  rcases hc'' with rfl | hc''
  · exact hc'
  · exact .inr hc''

/-- The frames bind what they bound, but for variables with such names. -/
theorem retainedIn_of {env' : Env κ β} (h : ∀ i ∈ frames, ∀ k, env'.vars i k = env.vars i k ∨
    assigned k ∧ ∃ v v', env.vars i k = some (v, false) ∧ env'.vars i k = some (v', false)) :
    env.RetainedIn env' frames assigned := by
  refine ⟨fun i hi k hv => ?_, fun i hi k v hv => ?_, fun i hi k v hv => ?_⟩
  · rcases h i hi k with he | ⟨-, w, w', hw, -⟩
    · exact he.trans hv
    · rw [hv] at hw
      cases hw
  · rcases h i hi k with he | ⟨-, w, w', hw, -⟩
    · exact he.trans hv
    · rw [hv] at hw
      cases hw
  · rcases h i hi k with he | ⟨hk, w, w', hw, hw'⟩
    · exact ⟨v, he.trans hv, .inl rfl⟩
    · exact ⟨w', hw', .inr hk⟩

end Retained

variable [DecidableEq κ]

@[simp] theorem parent_bind (b : β × Bool) : (env.bind i k b).parent = env.parent := rfl

theorem vars_bind (b : β × Bool) (j : Nat) (k' : κ) :
    (env.bind i k b).vars j k' = if j = i ∧ k' = k then some b else env.vars j k' := rfl

/-- Binding a name that is not a constant of the frame. -/
theorem keepsConstants_bind (b : β × Bool) (h : ∀ v, env.vars i k ≠ some (v, true)) :
    env.KeepsConstants (env.bind i k b) := by
  intro j k' v hv
  rw [vars_bind]
  split_ifs with hc
  · obtain ⟨rfl, rfl⟩ := hc
    exact absurd hv (h v)
  · exact hv

end Env

end Environment
