import Blazescript.Running.Proofs.ComputationProofs
import Blazescript.Syntax.Yields

/-!
# Proofs: what a computation of the parser does

The rules of `Yields`, and what the functions do from which the parser is built.
-/

namespace Blaze

open Running

variable {p p' p'' : Parser} {u v : List LexToken} {t : LexToken} {safe : Prop} {filename : Option String}
  {k n : Nat}

/-! ## Moving over tokens -/

namespace Parser

theorem Advances.refl (p : Parser) : p.Advances p [] where
  rest := rfl
  tokens := rfl
  filename := rfl
  index := rfl
  consumed := (List.append_nil _).symm
  noEof := by simp

theorem Advances.trans (h : p.Advances p' u) (h' : p'.Advances p'' v) : p.Advances p'' (u ++ v) where
  rest := by rw [h.rest, h'.rest, List.append_assoc]
  tokens := h'.tokens.trans h.tokens
  filename := h'.filename.trans h.filename
  index := by rw [h'.index, h.index, List.length_append, Nat.add_assoc]
  consumed := by rw [h'.consumed, h.consumed, List.append_assoc]
  noEof := by
    intro t ht
    rcases List.mem_append.mp ht with ht | ht
    · exact h.noEof t ht
    · exact h'.noEof t ht

theorem Advances.eq (h : p.Advances p' []) : p' = p := by
  obtain ⟨-, ht, hf, hi, hc, -⟩ := h
  rw [List.append_nil] at hc
  cases p
  cases p'
  simp_all

theorem rest_cons (h : p.rest = t :: u) : p.tokens[p.index]? = some t := by
  have hget : p.rest[0]? = p.tokens[p.index + 0]? := List.getElem?_drop
  rw [h] at hget
  exact hget.symm

theorem rest_nil (h : p.rest = []) : p.tokens[p.index]? = none :=
  List.getElem?_eq_none (List.drop_eq_nil_iff.mp h)

/-- The parser after the token it is at. -/
def next (p : Parser) (t : LexToken) : Parser :=
  { p with index := p.index + 1, consumed := p.consumed ++ [t] }

theorem advances_next (h : p.rest = t :: u) (ht : t.type ≠ .tEof) : p.Advances (p.next t) [t] where
  rest := by
    have hdrop : (p.next t).rest = p.rest.drop 1 := List.drop_drop.symm
    rw [hdrop, h]
    rfl
  tokens := rfl
  filename := rfl
  index := rfl
  consumed := rfl
  noEof := by simpa using ht

/-! ## The end of the file -/

theorem Within.mono (h : p.Within k) (hk : k ≤ n) : p.Within n := by
  obtain ⟨i, hi, ht⟩ := h
  exact ⟨i, by omega, ht⟩

/-- Moving over tokens does not pass the end of the file. -/
theorem Within.advance (h : p.Within k) (ha : p.Advances p' u) :
    u.length < k ∧ p'.Within (k - u.length) := by
  obtain ⟨i, hi, t, ht, heof⟩ := h
  rw [ha.rest] at ht
  have hle : u.length ≤ i := by
    by_contra hlt
    have hlt : i < u.length := by omega
    rw [List.getElem?_append_left hlt] at ht
    exact ha.noEof t (List.mem_of_getElem? ht) heof
  rw [List.getElem?_append_right hle] at ht
  exact ⟨by omega, i - u.length, by omega, t, ht, heof⟩

theorem Within.later (h : p.Within k) (ha : p.Advances p' u) : p'.Within k :=
  (h.advance ha).2.mono (Nat.sub_le ..)

theorem Within.pred (h : p.Within (k + 1)) (ha : p.Advances p' u) (hu : u ≠ []) : p'.Within k := by
  obtain ⟨-, h'⟩ := h.advance ha
  have hpos := List.length_pos_of_ne_nil hu
  exact h'.mono (by omega)

theorem Within.ne_nil (h : p.Within k) : ∃ t u, p.rest = t :: u := by
  obtain ⟨i, -, t, ht, -⟩ := h
  cases hr : p.rest with
  | nil =>
    rw [hr] at ht
    cases ht
  | cons t u => exact ⟨t, u, rfl⟩

theorem Ready.mono (h : p.Ready safe filename k) (hk : k ≤ n) : p.Ready safe filename n :=
  ⟨h.filename, fun hsafe => (h.within hsafe).mono hk⟩

theorem Ready.later (h : p.Ready safe filename k) (ha : p.Advances p' u) : p'.Ready safe filename k :=
  ⟨ha.filename.trans h.filename, fun hsafe => (h.within hsafe).later ha⟩

theorem Ready.pred (h : p.Ready safe filename (k + 1)) (ha : p.Advances p' u) (hu : u ≠ []) :
    p'.Ready safe filename k :=
  ⟨ha.filename.trans h.filename, fun hsafe => (h.within hsafe).pred ha hu⟩

end Parser

open Blaze.Parser

/-! ## The rules -/

section Rules

variable {α β : Type} {x : ParserM α} {f : α → ParserM β} {Q : List LexToken → α → Prop}
  {R : List LexToken → β → Prop}

theorem yields_pure {a : α} (h : Q [] a) : Yields safe (pure a) p Q := ⟨[], .refl p, h⟩

theorem Yields.post {Q' : List LexToken → α → Prop} (h : Yields safe x p Q)
    (hq : ∀ u a, Q u a → Q' u a) : Yields safe x p Q' := by
  unfold Yields at h ⊢
  cases hx : x p with
  | ok a p' =>
    rw [hx] at h
    obtain ⟨u, ha, h⟩ := h
    exact ⟨u, ha, hq u a h⟩
  | error e p' =>
    rw [hx] at h
    exact h

theorem Yields.bind (hx : Yields safe x p Q)
    (hf : ∀ a u p', p.Advances p' u → Q u a → Yields safe (f a) p' fun v b => R (u ++ v) b) :
    Yields safe (x >>= f) p R := by
  unfold Yields at hx
  have hbind : (x >>= f) p = EStateM.bind x f p := rfl
  unfold Yields
  rw [hbind]
  unfold EStateM.bind
  cases hxp : x p with
  | ok a p' =>
    rw [hxp] at hx
    obtain ⟨u, ha, hq⟩ := hx
    have h := hf a u p' ha hq
    unfold Yields at h
    simp only
    cases hfp : f a p' with
    | ok b p'' =>
      rw [hfp] at h
      obtain ⟨v, ha', hr⟩ := h
      exact ⟨u ++ v, ha.trans ha', hr⟩
    | error e p'' =>
      rw [hfp] at h
      obtain ⟨⟨v, ha'⟩, he⟩ := h
      exact ⟨⟨u ++ v, ha.trans ha'⟩, he⟩
  | error e p' =>
    rw [hxp] at hx
    exact hx

/-- A computation that only looks ahead. -/
theorem Yields.peek (hx : Yields safe x p fun u a => u = [] ∧ Q u a)
    (hf : ∀ a, Q [] a → Yields safe (f a) p R) : Yields safe (x >>= f) p R := by
  refine hx.bind fun a u p' ha hq => ?_
  obtain ⟨rfl, hq⟩ := hq
  obtain rfl := ha.eq
  exact hf a hq

end Rules

/-! ## The primitives -/

theorem yields_get : Yields safe (get : ParserM Parser) p fun u a => u = [] ∧ a = p :=
  ⟨[], .refl p, rfl, rfl⟩

theorem parserAt_eq (h : p.rest = t :: u) : parserAt p = .ok t p := by
  unfold parserAt
  rw [rest_cons h]

theorem yields_parserAt (hs : p.Ready safe filename k) :
    Yields safe parserAt p fun u t => u = [] ∧ ∃ r, p.rest = t :: r := by
  cases hr : p.rest with
  | nil =>
    have hsafe : ¬ safe := by
      intro h
      obtain ⟨t, u, hne⟩ := (hs.within h).ne_nil
      rw [hr] at hne
      cases hne
    unfold Yields parserAt
    rw [rest_nil hr]
    exact ⟨⟨[], .refl p⟩, fun h => absurd h hsafe⟩
  | cons t u =>
    unfold Yields
    rw [parserAt_eq hr]
    exact ⟨[], .refl p, rfl, u, rfl⟩

theorem parserRetForward_eq (h : p.rest = t :: u) : parserRetForward p = .ok t (p.next t) := by
  unfold parserRetForward
  rw [rest_cons h]
  rfl

theorem yields_parserRetForward (h : p.rest = t :: v) (ht : t.type ≠ .tEof) :
    Yields safe parserRetForward p fun u a => u = [t] ∧ a = t := by
  unfold Yields
  rw [parserRetForward_eq h]
  exact ⟨[t], advances_next h ht, rfl, rfl⟩

/-- The parser is at the end of the file, or past the last token. -/
def Parser.Eof (p : Parser) : Prop := ∀ t u, p.rest = t :: u → t.type = .tEof

theorem parserIsEof_eq (p : Parser) : ∃ b, parserIsEof p = .ok b p ∧
    (b = false → ∃ t u, p.rest = t :: u ∧ t.type ≠ .tEof) ∧ (b = true → p.Eof) := by
  cases hr : p.rest with
  | nil =>
    refine ⟨true, ?_, by simp, fun _ t u h => ?_⟩
    · unfold parserIsEof
      rw [rest_nil hr]
    · rw [hr] at h
      cases h
  | cons t u =>
    refine ⟨t.type == .tEof, ?_, ?_, ?_⟩
    · unfold parserIsEof
      rw [rest_cons hr]
    · intro hb
      exact ⟨t, u, rfl, by simpa using hb⟩
    · intro hb t' u' h
      rw [hr] at h
      cases h
      simpa using hb

theorem yields_parserIsEof :
    Yields safe parserIsEof p fun u b => u = [] ∧
      (b = false → ∃ t r, p.rest = t :: r ∧ t.type ≠ .tEof) ∧ (b = true → p.Eof) := by
  obtain ⟨b, hb, h⟩ := parserIsEof_eq p
  unfold Yields
  rw [hb]
  exact ⟨[], .refl p, rfl, h⟩

theorem yields_parserError {α : Type} {Q : List LexToken → α → Prop} (hs : p.Ready safe filename k)
    (msg : String) : Yields safe (parserError msg : ParserM α) p Q := by
  refine (yields_parserAt hs).bind fun t u p' ha _ => ?_
  exact ⟨⟨[], .refl p'⟩, fun _ => trivial⟩

theorem yields_ite {α : Type} {c : Prop} [Decidable c] {x y : ParserM α}
    {Q : List LexToken → α → Prop} (hx : c → Yields safe x p Q) (hy : ¬ c → Yields safe y p Q) :
    Yields safe (if c then x else y) p Q := by
  by_cases h : c
  · rw [if_pos h]
    exact hx h
  · rw [if_neg h]
    exact hy h

/-- A token that is expected is consumed. -/
theorem yields_parserExpect (hs : p.Ready safe filename k) (type : LexTokenType) :
    Yields safe (parserExpect type) p fun u t => u = [t] ∧ t.type = type := by
  unfold parserExpect
  refine yields_parserIsEof.peek fun b hb => yields_ite (fun _ => yields_parserError hs _) fun hne => ?_
  obtain ⟨t, r, hr, ht⟩ := hb.1 (by simpa using hne)
  refine (yields_parserAt hs).peek fun t' ht' => ?_
  obtain ⟨r', hr'⟩ := ht'
  obtain rfl : t = t' := by
    rw [hr] at hr'
    exact (List.cons.inj hr').1
  refine yields_ite (fun _ => yields_parserError hs _) fun htype => ?_
  refine (yields_parserRetForward hr ht).post fun u a hu => ?_
  obtain ⟨rfl, rfl⟩ := hu
  exact ⟨rfl, by simpa using htype⟩

/-! ## Loops -/

section Loops

variable {α : Type} {cond : ParserM Bool} {body : α → ParserM (α × Bool)} {C : Parser → Prop}
  {B : α → List LexToken → α × Bool → Prop}

/-- A loop iterates its body, which moves over at least one token each time. -/
theorem yields_while
    (hcond : ∀ p', (p'.Ready safe filename k) →
      Yields safe cond p' fun u b => u = [] ∧ (b = true → C p'))
    (hbody : ∀ a p', (p'.Ready safe filename k) → C p' →
      Yields safe (body a) p' fun u r => u ≠ [] ∧ B a u r)
    (n : Nat) : ∀ (a : α) (p : Parser), (p.Ready safe filename k) → (p.Ready safe filename n) →
      Yields safe (parserWhile cond body n a) p fun u b => Iterates B a u b := by
  induction n with
  | zero =>
    intro a p _ hn
    refine ⟨⟨[], .refl p⟩, fun h => ?_⟩
    obtain ⟨i, hi, -⟩ := hn.within h
    omega
  | succ n ih =>
    intro a p hk hn
    rw [parserWhile]
    refine (hcond p hk).peek fun b hb => yields_ite (fun hbt => ?_) fun _ => yields_pure (.done a)
    refine (hbody a p hk (hb hbt)).bind fun r u p' ha hu => ?_
    obtain ⟨hne, hB⟩ := hu
    obtain ⟨a', again⟩ := r
    cases again with
    | false =>
      refine yields_pure ?_
      rw [List.append_nil]
      exact .stop hB
    | true =>
      refine (ih a' p' (hk.later ha) (hn.pred ha hne)).post fun v b hv => ?_
      exact .again hB hv

/-- When a loop that is never left from its body ends, its condition is false. -/
theorem parserWhile_end (hbody : ∀ a p r p', body a p = .ok r p' → r.2 = true) (n : Nat) :
    ∀ (a b : α) (p p' : Parser), parserWhile cond body n a p = .ok b p' →
      ∃ p'', cond p'' = .ok false p' := by
  induction n with
  | zero =>
    intro a b p p' h
    cases h
  | succ n ih =>
    intro a b p p' h
    obtain ⟨goesOn, q, hc, h⟩ := bind_eq_ok h
    cases goesOn with
    | false =>
      cases h
      exact ⟨p, hc⟩
    | true =>
      obtain ⟨⟨a', again⟩, q', hb, h⟩ := bind_eq_ok h
      obtain rfl : again = true := hbody a q _ q' hb
      exact ih a' b q' p' h

end Loops

end Blaze
