import Blazescript.Tracing.Recorder
import Mathlib.Tactic

/-!
# Proofs: programs that record their steps

The rules of `Follows`, one for each way to build a program, and what a path keeps.
-/

namespace Tracing

variable {σ ε err α β : Type} {T T' : σ → ε → σ → Prop} {P P' : σ → Prop}

/-! ## Paths -/

theorem Path.append {s s' s'' : σ} {t t' : List (Step σ ε)} (h : Path T s t s')
    (h' : Path T s' t' s'') : Path T s (t' ++ t) s'' := by
  induction h' with
  | nil => exact h
  | cons _ ht ih => exact .cons ih ht

theorem Path.mono (hT : ∀ s e s', T s e s' → T' s e s') {s s' : σ} {t : List (Step σ ε)}
    (h : Path T s t s') : Path T' s t s' := by
  induction h with
  | nil => exact .nil _
  | cons _ ht ih => exact .cons ih (hT _ _ _ ht)

theorem Path.split {s s'' : σ} {t t' : List (Step σ ε)} (h : Path T s (t' ++ t) s'') :
    ∃ s', Path T s t s' ∧ Path T s' t' s'' := by
  induction t' generalizing s'' with
  | nil => exact ⟨s'', h, .nil _⟩
  | cons step t' ih =>
    cases h with
    | cons h ht =>
      obtain ⟨s', h1, h2⟩ := ih h
      exact ⟨s', h1, .cons h2 ht⟩

/-- What holds at the start of a path and is kept by each of its steps holds at its end, and at both
ends of each of its steps; the invariant may speak of the steps so far. -/
theorem Path.invariant {I : List (Step σ ε) → σ → Prop} {s₀ s : σ} {t : List (Step σ ε)}
    (h : Path T s₀ t s) (h0 : I [] s₀)
    (hstep : ∀ t' step, step :: t' <:+ t → T step.pre step.event step.post → I t' step.pre →
      I (step :: t') step.post) :
    I t s ∧ ∀ t' step, step :: t' <:+ t →
      T step.pre step.event step.post ∧ I t' step.pre ∧ I (step :: t') step.post := by
  induction h with
  | nil => exact ⟨h0, fun t' step hs => by simp at hs⟩
  | @cons s' s'' t event h ht ih =>
    obtain ⟨hI, hall⟩ := ih fun t' step hs => hstep t' step (hs.trans (List.suffix_cons _ _))
    have hnew := hstep t ⟨event, s', s''⟩ (List.suffix_refl _) ht hI
    refine ⟨hnew, fun t' step hs => ?_⟩
    rcases List.suffix_cons_iff.mp hs with heq | hs
    · obtain ⟨rfl, rfl⟩ := List.cons.inj heq
      exact ⟨ht, hI, hnew⟩
    · exact hall t' step hs

/-- `Path.invariant` for the steps of a path and an invariant of the state alone; what a step needs
may be a property of all steps of the path. -/
theorem Path.invariant_mem {I : σ → Prop} {C : Step σ ε → Prop} {s₀ s : σ} {t : List (Step σ ε)}
    (h : Path T s₀ t s) (h0 : I s₀) (hC : ∀ step ∈ t, C step)
    (hstep : ∀ step, C step → T step.pre step.event step.post → I step.pre → I step.post) :
    I s ∧ ∀ step ∈ t, T step.pre step.event step.post ∧ I step.pre ∧ I step.post := by
  have hmem : ∀ {t' : List (Step σ ε)} {step}, step :: t' <:+ t → step ∈ t :=
    fun hs => hs.subset (List.mem_cons_self ..)
  obtain ⟨hI, hall⟩ := h.invariant (I := fun _ s => I s) h0 fun t' step hs ht hI =>
    hstep step (hC step (hmem hs)) ht hI
  refine ⟨hI, fun step hs => ?_⟩
  obtain ⟨l, t', rfl⟩ := List.append_of_mem hs
  exact hall t' step (List.suffix_append l _)

/-! ## The rules of `Follows` -/

theorem Follows.conseq {Q Q' : α → σ → Prop} {x : Recorder σ ε err α} (h : Follows T P x Q)
    (hT : ∀ s e s', T s e s' → T' s e s') (hP : ∀ s, P' s → P s) (hQ : ∀ a s, Q a s → Q' a s) :
    Follows T' P' x Q' := by
  intro w hw
  have h0 := h w (hP _ hw)
  rcases hx : x w with ⟨a, w'⟩ | ⟨e, w'⟩
  · rw [hx] at h0
    obtain ⟨⟨t, ht, hp⟩, hq⟩ := h0
    exact ⟨⟨t, ht, hp.mono hT⟩, hQ _ _ hq⟩
  · rw [hx] at h0
    obtain ⟨t, ht, hp⟩ := h0
    exact ⟨t, ht, hp.mono hT⟩

theorem Follows.post {Q Q' : α → σ → Prop} {x : Recorder σ ε err α} (h : Follows T P x Q)
    (hQ : ∀ a s, Q a s → Q' a s) : Follows T P x Q' :=
  h.conseq (fun _ _ _ h => h) (fun _ h => h) hQ

theorem Follows.pre {Q : α → σ → Prop} {x : Recorder σ ε err α} (h : Follows T P x Q)
    (hP : ∀ s, P' s → P s) : Follows T P' x Q :=
  h.conseq (fun _ _ _ h => h) hP fun _ _ h => h

/-- A precondition that pins down a fact independent of the state. -/
theorem Follows.of_fact {p : Prop} {Q : α → σ → Prop} {x : Recorder σ ε err α}
    (h : p → Follows T P x Q) : Follows T (fun s => p ∧ P s) x Q :=
  fun w hw => h hw.1 w hw.2

theorem Follows.of_exists {ι : Sort*} {P : ι → σ → Prop} {Q : α → σ → Prop}
    {x : Recorder σ ε err α} (h : ∀ i, Follows T (P i) x Q) : Follows T (fun s => ∃ i, P i s) x Q :=
  fun w ⟨i, hw⟩ => h i w hw

theorem follows_pure {Q : α → σ → Prop} {a : α} (h : ∀ s, P s → Q a s) :
    Follows T P (pure a : Recorder σ ε err α) Q :=
  fun _ hw => ⟨⟨[], rfl, .nil _⟩, h _ hw⟩

theorem follows_throw {Q : α → σ → Prop} {e : err} :
    Follows T P (throw e : Recorder σ ε err α) Q :=
  fun w _ => ⟨[], rfl, .nil w.state⟩

theorem Follows.bind {Q : α → σ → Prop} {R : β → σ → Prop} {x : Recorder σ ε err α}
    {f : α → Recorder σ ε err β} (hx : Follows T P x Q) (hf : ∀ a, Follows T (Q a) (f a) R) :
    Follows T P (x >>= f) R := by
  intro w hw
  have h0 := hx w hw
  have hbind : (x >>= f) w = EStateM.bind x f w := rfl
  rw [hbind]
  unfold EStateM.bind
  rcases hxw : x w with ⟨a, w'⟩ | ⟨e, w'⟩
  · rw [hxw] at h0
    obtain ⟨⟨t, ht, hp⟩, hq⟩ := h0
    have h1 := hf a w' hq
    simp only
    rcases hfw : f a w' with ⟨b, w''⟩ | ⟨e, w''⟩
    · rw [hfw] at h1
      obtain ⟨⟨t', ht', hp'⟩, hr⟩ := h1
      exact ⟨⟨t' ++ t, by rw [ht', ht, List.append_assoc], hp.append hp'⟩, hr⟩
    · rw [hfw] at h1
      obtain ⟨t', ht', hp'⟩ := h1
      exact ⟨t' ++ t, by rw [ht', ht, List.append_assoc], hp.append hp'⟩
  · rw [hxw] at h0
    exact h0

theorem follows_readOrThrow {Q : α → σ → Prop} {e : err} {f : σ → Option α}
    (h : ∀ s a, P s → f s = some a → Q a s) :
    Follows T P (Recorder.readOrThrow e f : Recorder σ ε err α) Q := by
  intro w hw
  unfold Recorder.readOrThrow
  cases hf : f w.state with
  | some a => exact ⟨⟨[], rfl, .nil _⟩, h _ _ hw hf⟩
  | none => exact ⟨[], rfl, .nil _⟩

theorem follows_perform {Q : α → σ → Prop} {e : err} {f : σ → Option (α × ε × σ)}
    (h : ∀ s a event s', P s → f s = some (a, event, s') → T s event s' ∧ Q a s') :
    Follows T P (Recorder.perform e f) Q := by
  intro w hw
  unfold Recorder.perform
  cases hf : f w.state with
  | some r =>
    obtain ⟨a, event, s'⟩ := r
    obtain ⟨ht, hq⟩ := h _ _ _ _ hw hf
    exact ⟨⟨[⟨event, w.state, s'⟩], rfl, .cons (.nil _) ht⟩, hq⟩
  | none => exact ⟨[], rfl, .nil _⟩

theorem follows_ite {Q : α → σ → Prop} {c : Prop} [Decidable c] {x y : Recorder σ ε err α}
    (hx : c → Follows T P x Q) (hy : ¬ c → Follows T P y Q) :
    Follows T P (if c then x else y) Q := by
  split_ifs with h
  · exact hx h
  · exact hy h

/-! ## What programs return -/

theorem readOrThrow_eq_ok {e : err} {f : σ → Option α} {a : α} {w w' : World σ ε}
    (h : (Recorder.readOrThrow e f : Recorder σ ε err α) w = .ok a w') : f w.state = some a ∧ w' = w := by
  unfold Recorder.readOrThrow at h
  cases hf : f w.state with
  | none =>
    rw [hf] at h
    cases h
  | some b =>
    rw [hf] at h
    cases h
    exact ⟨rfl, rfl⟩

theorem perform_eq_ok {e : err} {f : σ → Option (α × ε × σ)} {a : α} {w w' : World σ ε}
    (h : Recorder.perform e f w = .ok a w') : ∃ event, f w.state = some (a, event, w'.state) := by
  unfold Recorder.perform at h
  cases hf : f w.state with
  | none =>
    rw [hf] at h
    cases h
  | some r =>
    rw [hf] at h
    cases h
    exact ⟨r.2.1, rfl⟩

theorem readOrThrow_ok {e : err} {f : σ → Option α} {a : α} {w : World σ ε} (hf : f w.state = some a) :
    (Recorder.readOrThrow e f : Recorder σ ε err α) w = .ok a w := by
  unfold Recorder.readOrThrow
  rw [hf]

theorem perform_ok {e : err} {f : σ → Option (α × ε × σ)} {a : α} {event : ε} {s : σ} {w : World σ ε}
    (hf : f w.state = some (a, event, s)) :
    Recorder.perform e f w = .ok a ⟨s, ⟨event, w.state, s⟩ :: w.trace⟩ := by
  unfold Recorder.perform
  rw [hf]

/-! ## The rules of `Returns` -/

variable {Q : α → σ → Prop} {R : β → σ → Prop} {s : σ}

theorem Returns.post {Q' : α → σ → Prop} {x : Recorder σ ε err α} (h : Returns x s Q)
    (hQ : ∀ a s, Q a s → Q' a s) : Returns x s Q' := by
  intro trace
  obtain ⟨a, w, hx, hq⟩ := h trace
  exact ⟨a, w, hx, hQ a w.state hq⟩

theorem returns_pure {a : α} (h : Q a s) : Returns (pure a : Recorder σ ε err α) s Q :=
  fun trace => ⟨a, ⟨s, trace⟩, rfl, h⟩

theorem Returns.bind {x : Recorder σ ε err α} {f : α → Recorder σ ε err β} (hx : Returns x s Q)
    (hf : ∀ a s', Q a s' → Returns (f a) s' R) : Returns (x >>= f) s R := by
  intro trace
  obtain ⟨a, w, hxw, hq⟩ := hx trace
  obtain ⟨b, w', hfw, hr⟩ := hf a w.state hq w.trace
  refine ⟨b, w', ?_, hr⟩
  show EStateM.bind x f ⟨s, trace⟩ = .ok b w'
  unfold EStateM.bind
  rw [hxw]
  exact hfw

theorem returns_readOrThrow {e : err} {f : σ → Option α} {a : α} (hf : f s = some a) (h : Q a s) :
    Returns (Recorder.readOrThrow e f : Recorder σ ε err α) s Q := by
  intro trace
  refine ⟨a, ⟨s, trace⟩, ?_, h⟩
  unfold Recorder.readOrThrow
  rw [hf]

theorem returns_perform {e : err} {f : σ → Option (α × ε × σ)} {a : α} {event : ε} {s' : σ}
    (hf : f s = some (a, event, s')) (h : Q a s') : Returns (Recorder.perform e f) s Q := by
  intro trace
  refine ⟨a, ⟨s', ⟨event, s, s'⟩ :: trace⟩, ?_, h⟩
  unfold Recorder.perform
  rw [hf]

end Tracing
