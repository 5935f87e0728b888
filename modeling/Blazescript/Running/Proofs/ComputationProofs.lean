/-!
# Proofs: computations one after the other

The rules of `>>=` for computations with a state and errors.
-/

namespace Running

variable {ε σ α β : Type} {x y : EStateM ε σ α} {f : α → EStateM ε σ β} {s t u : σ} {a : α} {b : β} {e : ε}

theorem bind_ok (h : x s = .ok a t) : (x >>= f) s = f a t := by
  show EStateM.bind x f s = f a t
  unfold EStateM.bind
  rw [h]

theorem bind_error (h : x s = .error e t) : (x >>= f) s = .error e t := by
  show EStateM.bind x f s = .error e t
  unfold EStateM.bind
  rw [h]

theorem bind_of_eq (f : α → EStateM ε σ β) (h : x s = y t) : (x >>= f) s = (y >>= f) t := by
  show EStateM.bind x f s = EStateM.bind y f t
  unfold EStateM.bind
  rw [h]

/-- Both parts return. -/
theorem bind_eq_ok (h : (x >>= f) s = .ok b u) : ∃ a t, x s = .ok a t ∧ f a t = .ok b u := by
  cases hx : x s with
  | ok a t =>
    rw [bind_ok hx] at h
    exact ⟨a, t, rfl, h⟩
  | error e t =>
    rw [bind_error hx] at h
    cases h

/-- One of the parts fails. -/
theorem bind_eq_error (h : (x >>= f) s = .error e u) :
    x s = .error e u ∨ ∃ a t, x s = .ok a t ∧ f a t = .error e u := by
  cases hx : x s with
  | ok a t =>
    rw [bind_ok hx] at h
    exact .inr ⟨a, t, rfl, h⟩
  | error e' t =>
    rw [bind_error hx] at h
    cases h
    exact .inl rfl

end Running
