import Blazescript.Arena.Alike
import Blazescript.Arena.Proofs.HeapProofs

/-!
# Proofs: heaps that differ in names

Each operation, done to both objects of a pair, leaves heaps that hold the same.
-/

namespace Arena

variable {α β : Type} {r : Nat → Nat → Prop} {R R' : α → β → Prop} {h : Heap α} {h' : Heap β} {a : α} {b : β}
  {i j : Nat}

/-! ## Results that may be missing -/

section Rel

variable {γ δ : Type} {S : γ → δ → Prop} {o : Option α} {o' : Option β}

theorem rel_cases (h : Option.Rel R o o') : o = none ∧ o' = none ∨ ∃ a b, o = some a ∧ o' = some b ∧ R a b := by
  cases h with
  | none => exact .inl ⟨rfl, rfl⟩
  | some h => exact .inr ⟨_, _, rfl, rfl, h⟩

theorem rel_mono (h : Option.Rel R o o') (hR : ∀ a b, R a b → R' a b) : Option.Rel R' o o' := by
  cases h with
  | none => exact .none
  | some h => exact .some (hR _ _ h)

theorem rel_bind {f : α → Option γ} {g : β → Option δ} (h : Option.Rel R o o')
    (hfg : ∀ a b, R a b → Option.Rel S (f a) (g b)) : Option.Rel S (o.bind f) (o'.bind g) := by
  cases h with
  | none => exact .none
  | some h => exact hfg _ _ h

theorem rel_map {f : α → γ} {g : β → δ} (h : Option.Rel R o o') (hfg : ∀ a b, R a b → S (f a) (g b)) :
    Option.Rel S (o.map f) (o'.map g) := by
  cases h with
  | none => exact .none
  | some h => exact .some (hfg _ _ h)

/-- What two lists have in the same place. -/
theorem rel_get {l : List α} {l' : List β} (h : List.Forall₂ R l l') (i : Nat) : Option.Rel R l[i]? l'[i]? := by
  induction h generalizing i with
  | nil => exact .none
  | cons hx _ ih =>
    cases i with
    | zero => exact .some hx
    | succ i => exact ih i

end Rel

/-! ## Pairs -/

theorem addPair_eq (hr : r i j) : addPair r i j = r := by
  funext a b
  refine propext ⟨fun h => ?_, .inl⟩
  rcases h with h | ⟨rfl, rfl⟩
  · exact h
  · exact hr

theorem addPair_self (r : Nat → Nat → Prop) (i j : Nat) : addPair r i j i j := .inr ⟨rfl, rfl⟩

/-- Two names that are in no pair make a new one. -/
theorem Pairing.add (hp : Pairing r) (hi : ∀ b, ¬ r i b) (hj : ∀ a, ¬ r a j) : Pairing (addPair r i j) where
  right := by
    rintro x y y' (hxy | ⟨rfl, rfl⟩) (hxy' | ⟨hx, rfl⟩)
    · exact hp.right hxy hxy'
    · exact absurd (hx ▸ hxy) (hi _)
    · exact absurd hxy' (hi _)
    · rfl
  left := by
    rintro x x' y (hxy | ⟨rfl, rfl⟩) (hxy' | ⟨rfl, hy⟩)
    · exact hp.left hxy hxy'
    · exact absurd (hy ▸ hxy) (hj _)
    · exact absurd hxy' (hj _)
    · rfl

/-! ## Heaps -/

namespace Heap

theorem Alike.mono (hh : Heap.Alike r R h h') (hR : ∀ a b, R a b → R' a b) : Heap.Alike r R' h h' :=
  ⟨hh.pairing, hh.live, fun hr => by
    obtain ⟨a, b, ha, hb, hab⟩ := hh.content hr
    exact ⟨a, b, ha, hb, hR a b hab⟩⟩

theorem Alike.lt (hh : Heap.Alike r R h h') (hr : r i j) : i < h.size ∧ j < h'.size := by
  obtain ⟨a, b, ha, hb, -⟩ := hh.content hr
  exact ⟨lt_of_peek ha, lt_of_peek hb⟩

theorem Alike.read (hh : Heap.Alike r R h h') (hr : r i j) : Option.Rel R (h.read i) (h'.read j) := by
  obtain ⟨a, b, ha, hb, hab⟩ := hh.content hr
  have hlive := hh.live hr
  unfold Heap.read
  rw [hlive, ha, hb]
  by_cases hl : h'.isLive j = true
  · rw [if_pos hl, if_pos hl]
    exact .some hab
  · rw [if_neg hl, if_neg hl]
    exact .none

theorem Alike.alloc (hh : Heap.Alike r R h h') (hab : R a b) :
    Heap.Alike (addPair r h.size h'.size) R (h.alloc a) (h'.alloc b) := by
  refine ⟨hh.pairing.add (fun b hr => ?_) (fun a hr => ?_), ?_, ?_⟩
  · exact Nat.lt_irrefl _ (hh.lt hr).1
  · exact Nat.lt_irrefl _ (hh.lt hr).2
  · rintro i j (hr | ⟨rfl, rfl⟩)
    · obtain ⟨hi, hj⟩ := hh.lt hr
      rw [isLive_alloc, isLive_alloc, hh.live hr, decide_eq_false (Nat.ne_of_lt hi), decide_eq_false (Nat.ne_of_lt hj)]
    · rw [isLive_alloc, isLive_alloc, decide_eq_true rfl, decide_eq_true rfl]
      rfl
  · rintro i j (hr | ⟨rfl, rfl⟩)
    · obtain ⟨hi, hj⟩ := hh.lt hr
      rw [peek_alloc, peek_alloc, if_neg (Nat.ne_of_lt hi), if_neg (Nat.ne_of_lt hj)]
      exact hh.content hr
    · rw [peek_alloc, peek_alloc, if_pos rfl, if_pos rfl]
      exact ⟨a, b, rfl, rfl, hab⟩

theorem Alike.write (hh : Heap.Alike r R h h') (hr : r i j) (hab : R a b) :
    Heap.Alike r R (h.write i a) (h'.write j b) := by
  refine ⟨hh.pairing, fun hr' => ?_, fun {k l} hr' => ?_⟩
  · rw [isLive_write, isLive_write]
    exact hh.live hr'
  · obtain ⟨c, d, hc, hd, hcd⟩ := hh.content hr'
    rw [peek_write, peek_write]
    by_cases hk : k = i
    · subst hk
      obtain rfl := hh.pairing.right hr hr'
      rw [if_pos rfl, if_pos rfl, hc, hd]
      exact ⟨a, b, rfl, rfl, hab⟩
    · have hl : l ≠ j := by
        rintro rfl
        exact hk (hh.pairing.left hr' hr)
      rw [if_neg hk, if_neg hl]
      exact ⟨c, d, hc, hd, hcd⟩

theorem Alike.free (hh : Heap.Alike r R h h') (hr : r i j) : Heap.Alike r R (h.free i) (h'.free j) := by
  refine ⟨hh.pairing, fun {k l} hr' => ?_, fun hr' => ?_⟩
  · have hiff : k ≠ i ↔ l ≠ j := by
      constructor
      · rintro hk rfl
        exact hk (hh.pairing.left hr' hr)
      · rintro hl rfl
        exact hl (hh.pairing.right hr' hr)
    rw [isLive_free, isLive_free, hh.live hr', decide_eq_decide.mpr hiff]
  · rw [peek_free, peek_free]
    exact hh.content hr'

end Heap

end Arena
