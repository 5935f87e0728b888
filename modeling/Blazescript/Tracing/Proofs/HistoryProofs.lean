import Blazescript.Tracing.History

/-!
# Proofs: what holds from one state of a path to any later one
-/

namespace Tracing

variable {σ ε : Type} {T : σ → ε → σ → Prop} {R : σ → σ → Prop} {I : σ → Prop} {s s' : σ} {t : List (Step σ ε)}

/-- A preorder that every step respects holds between any two states, and an invariant helps with the steps. -/
theorem Path.ordered (h : Path T s t s') (hinit : I s) (hinv : ∀ a e b, I a → T a e b → I b)
    (hrefl : ∀ a, R a a) (htrans : ∀ a b c, R a b → R b c → R a c) (hstep : ∀ a e b, I a → T a e b → R a b) :
    Ordered R s t ∧ I s' ∧ ∀ a ∈ history s t, R a s' := by
  induction h with
  | nil =>
    refine ⟨List.pairwise_singleton _ _, hinit, fun a ha => ?_⟩
    rw [List.mem_singleton.mp ha]
    exact hrefl s
  | @cons s' s'' t event h ht ih =>
    obtain ⟨hordered, hi, hlast⟩ := ih
    have hnew := hstep s' event s'' hi ht
    have hbefore : ∀ a ∈ history s t, R a s'' := fun a ha => htrans a s' s'' (hlast a ha) hnew
    refine ⟨List.pairwise_cons.mpr ⟨hbefore, hordered⟩, hinv s' event s'' hi ht, fun a ha => ?_⟩
    rcases List.mem_cons.mp ha with rfl | ha
    · exact hrefl _
    · exact hbefore a ha

end Tracing
