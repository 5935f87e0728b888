import Blazescript.Running.Refines
import Blazescript.Running.Proofs.ComputationProofs
import Mathlib.Tactic

/-!
# Proofs: refinement of computations

The rules of `Refines`: one for each way to build both computations, and for steps that only one of them takes.
-/

namespace Running

variable {ε δ σ τ α β α' β' : Type} {U : δ → Prop} {R R' : σ → τ → Prop} {x : EStateM ε σ α} {y : EStateM δ τ β}
  {Q Q' : α → σ → β → τ → Prop} {S : α' → σ → β' → τ → Prop} {E E' : ε → σ → δ → τ → Prop}

theorem Agrees.mono {r : EStateM.Result ε σ α} {q : EStateM.Result δ τ β} (h : Agrees U Q E r q)
    (hQ : ∀ a s b t, Q a s b t → Q' a s b t) (hE : ∀ e s d t, E e s d t → E' e s d t) : Agrees U Q' E' r q := by
  cases h with
  | ok h => exact .ok (hQ _ _ _ _ h)
  | error h => exact .error (hE _ _ _ _ h)
  | unspecified h => exact .unspecified h

theorem Refines.post (h : Refines U R x y Q E) (hQ : ∀ a s b t, Q a s b t → Q' a s b t) : Refines U R x y Q' E :=
  fun s t hst => (h s t hst).mono hQ fun _ _ _ _ he => he

theorem refines_pure {a : α} {b : β} (h : ∀ s t, R s t → Q a s b t) :
    Refines U R (pure a : EStateM ε σ α) (pure b : EStateM δ τ β) Q E :=
  fun s t hst => .ok (h s t hst)

theorem refines_throw {e : ε} {d : δ} (h : ∀ s t, R s t → E e s d t) :
    Refines U R (throw e : EStateM ε σ α) (throw d : EStateM δ τ β) Q E :=
  fun s t hst => .error (h s t hst)

theorem refines_unspecified {d : δ} (h : U d) : Refines U R x (throw d : EStateM δ τ β) Q E :=
  fun _ _ _ => .unspecified h

theorem Refines.bind {f : α → EStateM ε σ α'} {g : β → EStateM δ τ β'} (h : Refines U R x y Q E)
    (hfg : ∀ a b, Refines U (fun s t => Q a s b t) (f a) (g b) S E) : Refines U R (x >>= f) (y >>= g) S E := by
  intro s t hst
  have hxy := h s t hst
  cases hx : x s with
  | ok a s' =>
    cases hy : y t with
    | ok b t' =>
      rw [hx, hy] at hxy
      rw [bind_ok hx, bind_ok hy]
      cases hxy with
      | ok hq => exact hfg a b s' t' hq
    | error d t' =>
      rw [hx, hy] at hxy
      rw [bind_error hy]
      cases hxy with
      | unspecified hu => exact .unspecified hu
  | error e s' =>
    cases hy : y t with
    | ok b t' =>
      rw [hx, hy] at hxy
      cases hxy
    | error d t' =>
      rw [hx, hy] at hxy
      rw [bind_error hx, bind_error hy]
      cases hxy with
      | error he => exact .error he
      | unspecified hu => exact .unspecified hu

/-- A step of the computation that the specification does not have. -/
theorem Refines.step_left {x : EStateM ε σ α'} {f : α' → EStateM ε σ α} {P : α' → σ → τ → Prop}
    (hx : ∀ s t, R s t → ∃ a s', x s = .ok a s' ∧ P a s' t)
    (h : ∀ a, Refines U (fun s t => P a s t) (f a) y Q E) : Refines U R (x >>= f) y Q E := by
  intro s t hst
  obtain ⟨a, s', hs', hp⟩ := hx s t hst
  rw [bind_ok hs']
  exact h a s' t hp

/-- What the computation does after it has done what is specified. -/
theorem Refines.then_left {f : α → EStateM ε σ α'} {Q' : α' → σ → β → τ → Prop} (h : Refines U R x y Q E)
    (hf : ∀ a b s t, Q a s b t → ∃ a' s', f a s = .ok a' s' ∧ Q' a' s' b t) : Refines U R (x >>= f) y Q' E := by
  intro s t hst
  have hxy := h s t hst
  generalize y t = q at hxy ⊢
  cases hx : x s with
  | ok a s' =>
    rw [hx] at hxy
    rw [bind_ok hx]
    cases hxy with
    | @ok _ _ b t' hq =>
      obtain ⟨a', s'', hs'', hq'⟩ := hf a b s' t' hq
      rw [hs'']
      exact .ok hq'
    | unspecified hu => exact .unspecified hu
  | error e s' =>
    rw [hx] at hxy
    rw [bind_error hx]
    cases hxy with
    | error he => exact .error he
    | unspecified hu => exact .unspecified hu

/-- What is specified after the computation has returned. -/
theorem Refines.map_right {g : β → β'} {Q' : α → σ → β' → τ → Prop} (h : Refines U R x y Q E)
    (hg : ∀ a s b t, Q a s b t → Q' a s (g b) t) :
    Refines U R x (y >>= fun b => (pure (g b) : EStateM δ τ β')) Q' E := by
  intro s t hst
  have hxy := h s t hst
  generalize x s = r at hxy ⊢
  cases hy : y t with
  | ok b t' =>
    rw [hy] at hxy
    rw [bind_ok hy]
    cases hxy with
    | ok hq => exact .ok (hg _ _ _ _ hq)
  | error d t' =>
    rw [hy] at hxy
    rw [bind_error hy]
    cases hxy with
    | error he => exact .error he
    | unspecified hu => exact .unspecified hu

/-- Both computations take one step and return. -/
theorem refines_of_ok (h : ∀ s t, R s t → ∃ a s' b t', x s = .ok a s' ∧ y t = .ok b t' ∧ Q a s' b t') :
    Refines U R x y Q E := by
  intro s t hst
  obtain ⟨a, s', b, t', hx, hy, hq⟩ := h s t hst
  rw [hx, hy]
  exact .ok hq

theorem refines_ite {c d : Prop} [Decidable c] [Decidable d] {x' : EStateM ε σ α} {y' : EStateM δ τ β}
    (hcd : c ↔ d) (h : c → Refines U R x y Q E) (h' : ¬ c → Refines U R x' y' Q E) :
    Refines U R (if c then x else x') (if d then y else y') Q E := by
  by_cases hc : c
  · rw [if_pos hc, if_pos (hcd.mp hc)]
    exact h hc
  · rw [if_neg hc, if_neg (hcd.not.mp hc)]
    exact h' hc

theorem Refines.of_exists {ι : Type} {R : ι → σ → τ → Prop} (h : ∀ i, Refines U (R i) x y Q E) :
    Refines U (fun s t => ∃ i, R i s t) x y Q E := by
  intro s t hst
  obtain ⟨i, hi⟩ := hst
  exact h i s t hi

/-- A fact that does not depend on the states. -/
theorem Refines.of_fact {p : Prop} (h : p → Refines U R x y Q E) : Refines U (fun s t => p ∧ R s t) x y Q E :=
  fun s t hst => h hst.1 s t hst.2

end Running
