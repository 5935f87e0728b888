import Blazescript.Running.Kept
import Blazescript.Running.Proofs.ComputationProofs
import Mathlib.Tactic

/-!
# Proofs: what computations keep

The rules of `Keeps`, one for each way to build a computation.
-/

namespace Running

variable {ε σ α β : Type} {I J : σ → Prop} {x y : EStateM ε σ α} {Q Q' : α → Prop} {R : β → Prop}

theorem keeps_pure {a : α} (h : Q a) : Keeps I (pure a : EStateM ε σ α) Q := by
  intro s b t hs hx
  cases hx
  exact ⟨hs, h⟩

theorem keeps_throw {e : ε} : Keeps I (throw e : EStateM ε σ α) Q := by
  intro s a t hs hx
  cases hx

theorem Keeps.bind {f : α → EStateM ε σ β} (hx : Keeps I x Q) (hf : ∀ a, Q a → Keeps I (f a) R) :
    Keeps I (x >>= f) R := by
  intro s b u hs h
  obtain ⟨a, t, hxs, hft⟩ := bind_eq_ok h
  obtain ⟨ht, ha⟩ := hx s a t hs hxs
  exact hf a ha t b u ht hft

theorem Keeps.post (hx : Keeps I x Q) (hQ : ∀ a, Q a → Q' a) : Keeps I x Q' := by
  intro s a t hs h
  obtain ⟨ht, ha⟩ := hx s a t hs h
  exact ⟨ht, hQ a ha⟩

theorem keeps_ite {c : Prop} [Decidable c] (hx : c → Keeps I x Q) (hy : ¬ c → Keeps I y Q) :
    Keeps I (if c then x else y) Q := by
  by_cases h : c
  · rw [if_pos h]
    exact hx h
  · rw [if_neg h]
    exact hy h

end Running
