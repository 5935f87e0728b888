import Blazescript.Running.Proofs.ComputationProofs
import Blazescript.Syntax.Alike
import Blazescript.Syntax.Proofs.CompletenessProofs

/-!
# Proofs: what the parser does with a piece of the tokens

The rules of `Alike`, and that the functions of the parser follow it.
-/

namespace Blaze

open Blaze.Parser Running

variable {α β : Type} {x x' : ParserM α} {f f' : α → ParserM β} {u v w r : List LexToken} {t t' : LexToken}
  {R : α → α → Prop} {S : β → β → Prop} {a a' : α} {n : Nat} {p p' q q' : Parser} {inside : Prop}
  {stop : LexTokenType → Prop}

/-! ## The tokens ahead -/

theorem Parser.after_cancel (h : p.after u = p.after v) : u = v :=
  List.append_cancel_left (congrArg Parser.consumed h)

theorem Parser.Advances.after (h : p.Advances q u) : q = p.after u := by
  obtain ⟨-, htokens, hfilename, hindex, hconsumed, -⟩ := h
  cases q
  subst htokens hfilename hindex hconsumed
  rfl

theorem Parser.after_eq_self (h : p = p.after u) : u = [] := by
  have hindex : p.index = p.index + u.length := congrArg Parser.index h
  exact List.length_eq_zero_iff.mp (by omega)

theorem Ahead.after (h : Ahead stop p p' (u ++ w)) : Ahead stop (p.after u) (p'.after u) w := by
  obtain ⟨⟨t, r, hp, ht⟩, t', r', hp', ht'⟩ := h
  rw [List.append_assoc] at hp hp'
  exact ⟨⟨t, r, rest_after hp, ht⟩, t', r', rest_after hp', ht'⟩

/-- The tokens that the parsers are at. -/
theorem Ahead.sees (h : Ahead stop p p' u) :
    ∃ t t' r r', p.rest = t :: r ∧ p'.rest = t' :: r' ∧ Sees stop t t' ∧ (u ≠ [] → t = t') := by
  obtain ⟨⟨t, r, hp, ht⟩, t', r', hp', ht'⟩ := h
  cases u with
  | nil => exact ⟨t, t', r, r', hp, hp', .inr ⟨ht, ht'⟩, fun hne => absurd rfl hne⟩
  | cons b u => exact ⟨b, b, _, _, hp, hp', .inl rfl, fun _ => rfl⟩

theorem Sees.type_iff (h : Sees stop t t') {type : LexTokenType} (heof : type ≠ .tEof) (hstop : ¬ stop type) :
    t.type = type ↔ t'.type = type := by
  rcases h with rfl | ⟨ht, ht'⟩
  · exact Iff.rfl
  · constructor
    · intro h
      exact absurd (ht.symm.trans h).symm heof
    · intro h
      rw [h] at ht'
      exact absurd ht' hstop

/-! ## The rules -/

namespace Alike

theorem pure (h : R a a') : Alike stop inside (Pure.pure a) (Pure.pure a') R := by
  constructor
  · intro p b q hx
    obtain ⟨-, rfl⟩ := EStateM.Result.ok.inj hx
    exact ⟨[], p.rest, rfl, (after_nil p).symm⟩
  · intro p p' u w b _ _ hx
    obtain ⟨rfl, hp⟩ := EStateM.Result.ok.inj hx
    rw [after_eq_self hp, after_nil]
    exact ⟨a', rfl, h⟩

/-- A computation that never succeeds. -/
theorem fails (h : ∀ p a q, x p ≠ .ok a q) : Alike stop inside x x' R :=
  ⟨fun p a q hx => absurd hx (h p a q), fun p _ _ _ a _ _ hx => absurd hx (h p a _)⟩

theorem throw (e : ParserError) : Alike stop inside (MonadExcept.throw e) x' R :=
  fails fun _ _ _ hx => nomatch hx

theorem error (msg : String) : Alike stop inside (parserError msg) x' R := by
  refine fails fun p a q hx => ?_
  have hx : EStateM.bind parserAt _ p = .ok a q := hx
  unfold EStateM.bind at hx
  cases hat : parserAt p with
  | ok t p₁ =>
    rw [hat] at hx
    cases hx
  | error e p₁ =>
    rw [hat] at hx
    cases hx

theorem bind (hx : Alike stop inside x x' R) (hR : ∀ a, R a a)
    (hf : ∀ a a', R a a' → Alike stop inside (f a) (f' a') S) :
    Alike stop inside (x >>= f) (x' >>= f') S := by
  constructor
  · intro p b q h
    obtain ⟨a, p₁, hxp, hfp⟩ := bind_eq_ok h
    obtain ⟨u, r, hp, rfl⟩ := hx.forward p a p₁ hxp
    obtain ⟨v, r', hp₁, rfl⟩ := (hf a a (hR a)).forward _ b q hfp
    rw [rest_after hp] at hp₁
    refine ⟨u ++ v, r', ?_, after_after p⟩
    rw [hp, hp₁, List.append_assoc]
  · intro p p' u w b hahead hin h
    obtain ⟨a, p₁, hxp, hfp⟩ := bind_eq_ok h
    obtain ⟨u₁, -, -, rfl⟩ := hx.forward p a p₁ hxp
    obtain ⟨u₂, -, -, hq⟩ := (hf a a (hR a)).forward _ b _ hfp
    rw [after_after] at hq
    obtain rfl := after_cancel hq
    rw [List.append_assoc] at hahead
    obtain ⟨a', hxp', ha⟩ := hx.same p p' u₁ (u₂ ++ w) a hahead (fun h hnil => hin h (List.append_eq_nil_iff.mp hnil).2)
      hxp
    rw [← after_after] at hfp
    obtain ⟨b', hfp', hb⟩ := (hf a a' ha).same _ _ u₂ w b hahead.after hin hfp
    refine ⟨b', ?_, hb⟩
    rw [bind_ok hxp', hfp', after_after]

theorem weaken (h : Alike stop False x x' R) : Alike stop inside x x' R :=
  ⟨h.forward, fun p p' u w a hahead _ hx => h.same p p' u w a hahead (fun h => h.elim) hx⟩

theorem post {R' : α → α → Prop} (h : Alike stop inside x x' R) (hR : ∀ a a', R a a' → R' a a') :
    Alike stop inside x x' R' := by
  refine ⟨h.forward, fun p p' u w a hahead hin hx => ?_⟩
  obtain ⟨a', hx', ha⟩ := h.same p p' u w a hahead hin hx
  exact ⟨a', hx', hR a a' ha⟩

theorem ite {c c' : Prop} [Decidable c] [Decidable c'] {y y' : ParserM α} (hc : c ↔ c')
    (hx : Alike stop inside x x' R) (hy : Alike stop inside y y' R) :
    Alike stop inside (if c then x else y) (if c' then x' else y') R := by
  by_cases h : c
  · rw [if_pos h, if_pos (hc.mp h)]
    exact hx
  · rw [if_neg h, if_neg fun h' => h (hc.mpr h')]
    exact hy

/-- The state may be read where it does not matter. -/
theorem get {g g' : Parser → ParserM β} (hg : ∀ q q', Alike stop inside (g q) (g' q') S) :
    Alike stop inside (MonadState.get >>= g) (MonadState.get >>= g') S :=
  ⟨fun p b q h => (hg p p).forward p b q h, fun p p' u w b hahead hin h => (hg p p').same p p' u w b hahead hin h⟩

/-- A lookahead which is the same for both parsers. -/
theorem getIte {c : Parser → Bool} {y y' : ParserM α} (hc : ∀ q q' u, Ahead stop q q' u → c q = c q')
    (hx : Alike stop inside x x' R) (hy : Alike stop inside y y' R) :
    Alike stop inside (do if c (← MonadState.get) then x else y) (do if c (← MonadState.get) then x' else y') R := by
  constructor
  · intro p b q h
    have h : (if c p = true then x else y) p = .ok b q := h
    by_cases hp : c p = true
    · rw [if_pos hp] at h
      exact hx.forward p b q h
    · rw [if_neg hp] at h
      exact hy.forward p b q h
  · intro p p' u w b hahead hin h
    have hsame : Alike stop inside (if c p = true then x else y) (if c p' = true then x' else y') R :=
      ite (by rw [hc p p' _ hahead]) hx hy
    exact hsame.same p p' u w b hahead hin h

/-! ## The primitives -/

theorem parserIsEof_of_rest (h : p.rest = t :: r) : Blaze.parserIsEof p = .ok (t.type == .tEof) p := by
  unfold Blaze.parserIsEof
  rw [rest_cons h]

theorem parserAt : Alike stop inside Blaze.parserAt Blaze.parserAt (Sees stop) := by
  constructor
  · intro p t q h
    unfold Blaze.parserAt at h
    split at h
    · obtain ⟨-, rfl⟩ := EStateM.Result.ok.inj h
      exact ⟨[], p.rest, rfl, (after_nil p).symm⟩
    · cases h
  · intro p p' u w t hahead hin h
    obtain ⟨b, b', r, r', hp, hp', hsees, -⟩ := hahead.sees
    rw [parserAt_eq hp] at h
    obtain ⟨rfl, hq⟩ := EStateM.Result.ok.inj h
    rw [after_eq_self hq, after_nil]
    exact ⟨b', parserAt_eq hp', hsees⟩

theorem parserRetForward : Alike stop inside Blaze.parserRetForward Blaze.parserRetForward Eq := by
  constructor
  · intro p t q h
    obtain ⟨b, r, hp⟩ : ∃ b r, p.rest = b :: r := by
      cases hp : p.rest with
      | nil =>
        unfold Blaze.parserRetForward at h
        rw [rest_nil hp] at h
        cases h
      | cons b r => exact ⟨b, r, rfl⟩
    rw [parserRetForward_eq hp] at h
    obtain ⟨rfl, rfl⟩ := EStateM.Result.ok.inj h
    exact ⟨[b], r, hp, rfl⟩
  · intro p p' u w t hahead hin h
    obtain ⟨b, b', r, r', hp, hp', -, hsame⟩ := hahead.sees
    rw [parserRetForward_eq hp] at h
    obtain ⟨rfl, hq⟩ := EStateM.Result.ok.inj h
    have hu : [b] = u := after_cancel hq
    obtain rfl := hsame (by rw [← hu]; exact List.cons_ne_nil _ _)
    rw [← hu]
    exact ⟨b, parserRetForward_eq hp', rfl⟩

theorem parserExpect_ok {type : LexTokenType} (h : Blaze.parserExpect type p = .ok t q) :
    ∃ r, p.rest = t :: r ∧ t.type = type ∧ q = p.after [t] := by
  have hyields : Yields False (Blaze.parserExpect type) p fun u t => u = [t] ∧ t.type = type :=
    yields_parserExpect (⟨rfl, fun h => h.elim⟩ : p.Ready False p.filename 0) type
  unfold Yields at hyields
  rw [h] at hyields
  obtain ⟨u, hadvances, rfl, htype⟩ := hyields
  exact ⟨q.rest, hadvances.rest, htype, hadvances.after⟩

theorem parserExpect {type : LexTokenType} (hne : type ≠ .tEof) :
    Alike stop inside (Blaze.parserExpect type) (Blaze.parserExpect type) Eq := by
  constructor
  · intro p t q h
    obtain ⟨r, hp, -, rfl⟩ := parserExpect_ok h
    exact ⟨[t], r, hp, rfl⟩
  · intro p p' u w t hahead hin h
    obtain ⟨r, hp, htype, hq⟩ := parserExpect_ok h
    obtain rfl := after_cancel hq
    obtain ⟨-, t', r', hp', -⟩ := hahead
    rw [List.append_assoc] at hp'
    obtain ⟨a, ha, rfl⟩ := consumes_parserExpect htype hne p' hp'
    exact ⟨a, ha, rfl⟩

/-- A computation that stays inside the tokens since a token is expected after it. -/
theorem bindExpect {type : LexTokenType} {g g' : α → LexToken → ParserM β} (hne : type ≠ .tEof)
    (hx : Alike stop True x x' R) (hR : ∀ a, R a a)
    (hg : ∀ a a' t, R a a' → Alike stop inside (g a t) (g' a' t) S) :
    Alike stop inside (x >>= fun a => Blaze.parserExpect type >>= g a)
      (x' >>= fun a => Blaze.parserExpect type >>= g' a) S := by
  have hrest : ∀ a a', R a a' → Alike stop inside (Blaze.parserExpect type >>= g a)
      (Blaze.parserExpect type >>= g' a') S := by
    intro a a' ha
    refine (parserExpect hne).bind (fun _ => rfl) ?_
    rintro t _ rfl
    exact hg a a' t ha
  constructor
  · intro p b q h
    obtain ⟨a, p₁, hxp, hfp⟩ := bind_eq_ok h
    obtain ⟨u, r, hp, rfl⟩ := hx.forward p a p₁ hxp
    obtain ⟨v, r', hp₁, rfl⟩ := (hrest a a (hR a)).forward _ b q hfp
    rw [rest_after hp] at hp₁
    refine ⟨u ++ v, r', ?_, after_after p⟩
    rw [hp, hp₁, List.append_assoc]
  · intro p p' u w b hahead hin h
    obtain ⟨a, p₁, hxp, hfp⟩ := bind_eq_ok h
    obtain ⟨u₁, -, -, rfl⟩ := hx.forward p a p₁ hxp
    obtain ⟨t, p₂, htp, hgp⟩ := bind_eq_ok hfp
    obtain ⟨-, -, -, rfl⟩ := parserExpect_ok htp
    obtain ⟨u₂, -, -, hq⟩ := (hg a a t (hR a)).forward _ b _ hgp
    rw [after_after, after_after] at hq
    obtain rfl := after_cancel hq
    rw [List.append_assoc, List.append_assoc] at hahead
    obtain ⟨a', hxp', ha⟩ := hx.same p p' u₁ _ a hahead (fun _ => List.cons_ne_nil _ _) hxp
    have hahead' : Ahead stop (p.after u₁) (p'.after u₁) ([t] ++ u₂ ++ w) := by
      rw [List.append_assoc]
      exact hahead.after
    rw [← after_after] at hfp
    obtain ⟨b', hfp', hb⟩ := (hrest a a' ha).same _ _ _ w b hahead' hin hfp
    refine ⟨b', ?_, hb⟩
    rw [bind_ok hxp', hfp', after_after]

/-! ## Loops -/

theorem loop {cond cond' : ParserM Bool} {body body' : α → ParserM (α × Bool)}
    (hcond : Alike stop inside cond cond' Eq) (hR : ∀ a, R a a)
    (hbody : ∀ a a', R a a' →
      Alike stop inside (body a) (body' a') fun r r' => R r.1 r'.1 ∧ r.2 = r'.2) (n : Nat) :
    ∀ a a', R a a' → Alike stop inside (parserWhile cond body n a) (parserWhile cond' body' n a') R := by
  induction n with
  | zero => exact fun a a' _ => throw _
  | succ n ih =>
    intro a a' ha
    refine hcond.bind (fun _ => rfl) ?_
    rintro b _ rfl
    refine ite Iff.rfl ?_ (pure ha)
    refine (hbody a a' ha).bind (fun r => ⟨hR r.1, rfl⟩) ?_
    rintro r r' ⟨hr, hagain⟩
    refine ite (by rw [hagain]) ?_ (pure hr)
    exact ih r.1 r'.1 hr

theorem parserIsEof : Alike stop True Blaze.parserIsEof Blaze.parserIsEof Eq := by
  constructor
  · intro p b q h
    obtain ⟨b', hb', -⟩ := parserIsEof_eq p
    rw [hb'] at h
    obtain ⟨-, rfl⟩ := EStateM.Result.ok.inj h
    exact ⟨[], p.rest, rfl, (after_nil p).symm⟩
  · intro p p' u w b hahead hin h
    obtain ⟨t, t', r, r', hp, hp', -, hsame⟩ := hahead.sees
    have hw : u ++ w ≠ [] := fun hnil => hin trivial (List.append_eq_nil_iff.mp hnil).2
    obtain rfl := hsame hw
    rw [parserIsEof_of_rest hp] at h
    obtain ⟨rfl, hq⟩ := EStateM.Result.ok.inj h
    rw [after_eq_self hq, after_nil]
    exact ⟨_, parserIsEof_of_rest hp', rfl⟩

theorem parserAt_inside : Alike stop True Blaze.parserAt Blaze.parserAt Eq := by
  have hat : Alike stop True Blaze.parserAt Blaze.parserAt (Sees stop) := parserAt
  refine ⟨hat.forward, fun p p' u w t hahead hin h => ?_⟩
  obtain ⟨b, b', r, r', hp, hp', -, hsame⟩ := hahead.sees
  have hw : u ++ w ≠ [] := fun hnil => hin trivial (List.append_eq_nil_iff.mp hnil).2
  obtain rfl := hsame hw
  rw [parserAt_eq hp] at h
  obtain ⟨rfl, hq⟩ := EStateM.Result.ok.inj h
  rw [after_eq_self hq, after_nil]
  exact ⟨b, parserAt_eq hp', rfl⟩

theorem parserBefore (type : LexTokenType) :
    Alike stop True (Blaze.parserBefore type) (Blaze.parserBefore type) Eq := by
  refine parserIsEof.bind (fun _ => rfl) ?_
  rintro b _ rfl
  refine ite Iff.rfl (pure rfl) ?_
  refine parserAt_inside.bind (fun _ => rfl) ?_
  rintro t _ rfl
  exact pure rfl

/-- The condition of the loops over operators is the same where an expression ends. -/
theorem parserAtOperator (hstop : ∀ type, stop type → type.stops = true) (isOperator : String → Bool) :
    Alike stop inside (Blaze.parserAtOperator isOperator) (Blaze.parserAtOperator isOperator) Eq := by
  have hat : ∀ (q : Parser) (t : LexToken) (r : List LexToken), q.rest = t :: r →
      Blaze.parserAtOperator isOperator q = .ok (t.type == .tBinaryOperator && isOperator t.value) q := by
    intro q t r hq
    unfold Blaze.parserAtOperator
    rw [bind_ok (parserIsEof_of_rest hq)]
    by_cases ht : t.type = .tEof
    · rw [ht]
      rfl
    · rw [if_neg (by simpa using ht), bind_ok (parserAt_eq hq)]
      rfl
  constructor
  · intro p b q h
    cases hp : p.rest with
    | nil =>
      have heof : Blaze.parserIsEof p = .ok true p := by
        unfold Blaze.parserIsEof
        rw [rest_nil hp]
      unfold Blaze.parserAtOperator at h
      rw [bind_ok heof] at h
      obtain ⟨-, rfl⟩ := EStateM.Result.ok.inj h
      exact ⟨[], [], rfl, (after_nil p).symm⟩
    | cons t r =>
      rw [hat p t r hp] at h
      obtain ⟨-, rfl⟩ := EStateM.Result.ok.inj h
      exact ⟨[], t :: r, rfl, (after_nil p).symm⟩
  · intro p p' u w b hahead hin h
    obtain ⟨t, t', r, r', hp, hp', hsees, -⟩ := hahead.sees
    rw [hat p t r hp] at h
    obtain ⟨rfl, hq⟩ := EStateM.Result.ok.inj h
    rw [after_eq_self hq, after_nil]
    refine ⟨_, hat p' t' r' hp', ?_⟩
    rcases hsees with rfl | ⟨ht, ht'⟩
    · rfl
    · have hne : t'.type ≠ .tBinaryOperator := by
        intro htype
        have hstops := hstop _ ht'
        rw [htype] at hstops
        cases hstops
      rw [ht, beq_eq_false_iff_ne.mpr hne]
      rfl

/-- A choice that looks ahead once it is not at the end. -/
theorem guarded (c : Parser → Bool) {y y' : ParserM α} (hx : Alike stop False x x' R)
    (hy : Alike stop False y y' R)
    (hmoves : ∀ p q a, (do
      let eof ← Blaze.parserIsEof
      if !eof && c (← MonadState.get) then x else y : ParserM α) p = .ok a q →
        ∃ t r, p.rest = t :: r ∧ t.type ≠ .tEof)
    (hc : ∀ q q' u, Ahead stop q q' u → u ≠ [] → c q = c q') :
    Alike stop False
      (do
        let eof ← Blaze.parserIsEof
        if !eof && c (← MonadState.get) then x else y)
      (do
        let eof ← Blaze.parserIsEof
        if !eof && c (← MonadState.get) then x' else y') R := by
  have heval : ∀ (x y : ParserM α) (q : Parser) (t : LexToken) (r : List LexToken), q.rest = t :: r →
      t.type ≠ .tEof → (do
        let eof ← Blaze.parserIsEof
        if !eof && c (← MonadState.get) then x else y : ParserM α) q = (if c q = true then x else y) q := by
    intro x y q t r hq ht
    rw [bind_ok (parserIsEof_of_rest hq), beq_eq_false_iff_ne.mpr ht]
    rfl
  constructor
  · intro p b q h
    obtain ⟨t, r, hp, ht⟩ := hmoves p q b h
    rw [heval x y p t r hp ht] at h
    exact (ite (c := c p = true) Iff.rfl hx hy).forward p b q h
  · intro p p' u w b hahead hin h
    obtain ⟨t, r, hp, ht⟩ := hmoves p _ b h
    have hne : u ++ w ≠ [] := by
      intro hnil
      obtain ⟨⟨t', r', hp', ht'⟩, -⟩ := hahead
      rw [hnil, hp] at hp'
      rw [(List.cons.inj hp').1] at ht
      exact ht ht'
    obtain ⟨b₁, b₂, r₁, r₂, hb₁, hb₂, -, hsame⟩ := hahead.sees
    obtain rfl := hsame hne
    rw [hp] at hb₁
    obtain ⟨rfl, -⟩ := List.cons.inj hb₁
    rw [heval x y p t r hp ht] at h
    rw [heval x' y' p' t r₂ hb₂ ht]
    have hiff : c p = true ↔ c p' = true := by
      rw [hc p p' _ hahead hne]
    exact (ite hiff hx hy).same p p' u w b hahead hin h

end Alike

/-! ## Expressions -/

theorem erase_ifStmt (pos : Pos) (condition ifBlock : AstNode) (elseBlock : Option AstNode) :
    (AstNode.ifStmt pos condition ifBlock elseBlock).erase =
      .ifStmt .unknown condition.erase ifBlock.erase (elseBlock.map AstNode.erase) := by
  cases elseBlock with
  | none => rfl
  | some elseBlock => rfl

theorem erase_loopStmt (pos : Pos) (iterCount : Option AstNode) (iterVarname : Option String) (body : AstNode) :
    (AstNode.loopStmt pos iterCount iterVarname body).erase =
      .loopStmt .unknown (iterCount.map AstNode.erase) iterVarname body.erase := by
  cases iterCount with
  | none => rfl
  | some iterCount => rfl

theorem SameTree.refl (e : AstNode) : SameTree e e := rfl

/-- Trees that differ in positions only. -/
def SameTrees (es es' : List AstNode) : Prop := eraseAll es = eraseAll es'

theorem SameTrees.refl (es : List AstNode) : SameTrees es es := rfl

theorem SameTrees.append {es es' : List AstNode} {e e' : AstNode} (h : SameTrees es es') (he : SameTree e e') :
    SameTrees (es ++ [e]) (es' ++ [e']) := by
  unfold SameTrees
  rw [eraseAll_append, eraseAll_append, h]
  show _ ++ [e.erase] = _ ++ [e'.erase]
  rw [he]

section Expressions

variable {parseExpr operand : ParserM AstNode} (hexpr : Alike stop False parseExpr parseExpr SameTree)
  (hstop : ∀ type, stop type → type.stops = true)

/-- A lookahead of a call sees the same tokens, or none that it looks for. -/
theorem isCall_ahead (hstop : ∀ type, stop type → type.stops = true) (h : Ahead stop q q' u) :
    q.isCall = q'.isCall := by
  obtain ⟨⟨t, r, hq, ht⟩, t', r', hq', ht'⟩ := h
  have hstops := hstop _ ht'
  rw [Bool.eq_iff_iff, isCall_iff, isCall_iff, hq, hq']
  match u with
  | [] =>
    constructor
    · rintro ⟨a, b, c, s, heq, ha, -⟩
      rw [← (List.cons.inj heq).1, ht] at ha
      cases ha
    · rintro ⟨a, b, c, s, heq, ha, -⟩
      rw [(List.cons.inj heq).1, ha] at hstops
      cases hstops
  | [a] =>
    constructor
    · rintro ⟨a, b, c, s, heq, -, hb⟩
      rw [← (List.cons.inj (List.cons.inj heq).2).1, ht] at hb
      cases hb
    · rintro ⟨a, b, c, s, heq, -, hb⟩
      rw [(List.cons.inj (List.cons.inj heq).2).1, hb] at hstops
      cases hstops
  | [a, b] =>
    constructor
    · rintro ⟨_, _, _, _, heq, ha, hb⟩
      cases heq
      exact ⟨a, b, t', r', rfl, ha, hb⟩
    · rintro ⟨_, _, _, _, heq, ha, hb⟩
      cases heq
      exact ⟨a, b, t, r, rfl, ha, hb⟩
  | a :: b :: c :: u =>
    constructor
    · rintro ⟨_, _, _, _, heq, ha, hb⟩
      cases heq
      exact ⟨a, b, c, _, rfl, ha, hb⟩
    · rintro ⟨_, _, _, _, heq, ha, hb⟩
      cases heq
      exact ⟨a, b, c, _, rfl, ha, hb⟩

/-- What ends an expression is none of the tokens that the parser looks for. -/
theorem not_stop (hstop : ∀ type, stop type → type.stops = true) {type : LexTokenType}
    (h : type.stops = false) : ¬ stop type := by
  intro hs
  rw [hstop type hs] at h
  cases h

section Primary

include hexpr

theorem alike_primary :
    Alike stop False (parserParsePrimaryExpr parseExpr) (parserParsePrimaryExpr parseExpr) SameTree := by
  refine Alike.parserAt.bind (fun _ => .inl rfl) ?_
  intro t t' ht
  refine Alike.get fun q q' => ?_
  rcases ht with rfl | ⟨ht, -⟩
  · split
    · exact Alike.parserRetForward.bind (fun _ => rfl) fun _ _ _ => .pure rfl
    · exact Alike.parserRetForward.bind (fun _ => rfl) fun _ _ _ => .pure rfl
    · exact Alike.parserRetForward.bind (fun _ => rfl) fun _ _ _ => .pure rfl
    · refine Alike.parserRetForward.bind (fun _ => rfl) fun _ _ _ => hexpr.bind .refl fun e e' he => ?_
      exact (Alike.parserExpect (by decide)).bind (fun _ => rfl) fun _ _ _ => .pure he
    · exact .error _
  · rw [ht]
    exact .error _

include hstop

theorem alike_arg {args args' : List AstNode} (hargs : SameTrees args args') :
    Alike stop False (parserParseArg parseExpr args) (parserParseArg parseExpr args')
      fun r r' => SameTrees r.1 r'.1 ∧ r.2 = r'.2 := by
  refine hexpr.bind .refl fun e e' he => ?_
  refine Alike.parserAt.bind (fun _ => .inl rfl) fun t t' ht => ?_
  refine Alike.ite (ht.type_iff (by decide) (not_stop hstop rfl)) ?_ (.pure ⟨hargs.append he, rfl⟩)
  exact (Alike.parserExpect (by decide)).bind (fun _ => rfl) fun _ _ _ => .pure ⟨hargs.append he, rfl⟩

theorem alike_call (n : Nat) :
    Alike stop False (parserParseCallExpr parseExpr n) (parserParseCallExpr parseExpr n) SameTree := by
  refine Alike.getIte (fun q q' u h => isCall_ahead hstop h) ?_ (alike_primary hexpr)
  refine Alike.get fun q q' => ?_
  refine (Alike.parserExpect (by decide)).bind (fun _ => rfl) ?_
  rintro identifier _ rfl
  refine (Alike.parserExpect (by decide)).bind (fun _ => rfl) fun _ _ _ => ?_
  have hargs : Alike stop True (parserWhile (parserBefore .tParenClose) (parserParseArg parseExpr) n [])
      (parserWhile (parserBefore .tParenClose) (parserParseArg parseExpr) n []) SameTrees :=
    Alike.loop (.parserBefore _) .refl (fun _ _ h => (alike_arg hexpr hstop h).weaken) n [] [] rfl
  refine Alike.bindExpect (by decide) hargs (fun _ => rfl) fun args args' _ h => ?_
  refine Alike.parserAt.bind (fun _ => .inl rfl) fun t t' _ => .pure ?_
  show AstNode.exprCall _ _ (eraseAll args) = AstNode.exprCall _ _ (eraseAll args')
  rw [h]

end Primary

theorem alike_binexpOperator :
    Alike stop False parserParseBinexpOperator parserParseBinexpOperator Eq := by
  refine (Alike.parserExpect (by decide)).bind (fun _ => rfl) ?_
  rintro token _ rfl
  split
  · exact .pure rfl
  · exact .throw _

theorem alike_binexpInner (operator : BinOperator) {left left' right right' : AstNode} (hl : SameTree left left')
    (hr : SameTree right right') : Alike stop False (parserParseBinexpInner operator left right)
      (parserParseBinexpInner operator left' right') SameTree := by
  refine Alike.get fun q q' => ?_
  rw [ofCode_code]
  refine .pure ?_
  show AstNode.binaryExpr _ _ left.erase right.erase = AstNode.binaryExpr _ _ left'.erase right'.erase
  rw [hl, hr]

theorem alike_binexp (hstop : ∀ type, stop type → type.stops = true) (isOperator : String → Bool)
    (hoperand : Alike stop False operand operand SameTree) (n : Nat) :
    Alike stop False (parserParseBinexp isOperator operand n) (parserParseBinexp isOperator operand n) SameTree := by
  refine hoperand.bind .refl fun left left' hleft => ?_
  refine Alike.loop (.parserAtOperator hstop isOperator) .refl (fun a a' ha => ?_) n left left' hleft
  refine alike_binexpOperator.bind (fun _ => rfl) ?_
  rintro operator _ rfl
  refine hoperand.bind .refl fun right right' hright => ?_
  exact (alike_binexpInner operator ha hright).bind .refl fun node node' hnode => .pure ⟨hnode, rfl⟩

include hexpr hstop

theorem alike_element {elements elements' : List AstNode} (h : SameTrees elements elements') :
    Alike stop False (parserParseElement parseExpr elements) (parserParseElement parseExpr elements')
      fun r r' => SameTrees r.1 r'.1 ∧ r.2 = r'.2 := by
  refine hexpr.bind .refl fun e e' he => ?_
  refine Alike.parserAt.bind (fun _ => .inl rfl) fun t t' ht => ?_
  refine Alike.ite (ht.type_iff (by decide) (not_stop hstop rfl)) (.pure ⟨h.append he, rfl⟩) ?_
  exact (Alike.parserExpect (by decide)).bind (fun _ => rfl) fun _ _ _ => .pure ⟨h.append he, rfl⟩

theorem alike_arrayLit (n : Nat) :
    Alike stop False (parserParseArrayLit parseExpr n) (parserParseArrayLit parseExpr n) SameTree := by
  refine Alike.parserAt.bind (fun _ => .inl rfl) fun t t' ht => ?_
  refine Alike.ite (not_congr (ht.type_iff (by decide) (not_stop hstop rfl))) ?_ ?_
  · exact alike_binexp hstop _ (alike_binexp hstop _ (alike_binexp hstop _ (alike_call hexpr hstop n) n) n) n
  · refine (Alike.parserExpect (by decide)).bind (fun _ => rfl) fun _ _ _ => ?_
    refine (Alike.parserExpect (by decide)).bind (fun _ => rfl) fun _ _ _ => ?_
    have helements : Alike stop True
        (parserWhile (parserBefore .tSquareBraceClose) (parserParseElement parseExpr) n [])
        (parserWhile (parserBefore .tSquareBraceClose) (parserParseElement parseExpr) n []) SameTrees :=
      Alike.loop (.parserBefore _) .refl (fun _ _ h => (alike_element hexpr hstop h).weaken) n [] [] rfl
    refine Alike.bindExpect (by decide) helements (fun _ => rfl) fun es es' _ h => .pure ?_
    show AstNode.arrayLit _ (eraseAll es) = AstNode.arrayLit _ (eraseAll es')
    rw [h]

end Expressions

/-- An expression moves over a token. -/
theorem assignment_moves {e : AstNode} (h : parserParseAssignmentExpr (parserParseExpr n) n p = .ok e q) :
    ∃ t r, p.rest = t :: r ∧ t.type ≠ .tEof := by
  have hyields : Yields False (parserParseAssignmentExpr (parserParseExpr n) n) p (StandsFor p.filename .expr) :=
    yields_assignment (fun q hq => yields_parserParseExpr n q hq) ⟨rfl, fun h => h.elim⟩
  unfold Yields at hyields
  rw [h] at hyields
  obtain ⟨u, hadvances, hstands⟩ := hyields
  cases u with
  | nil => exact absurd rfl (StandsFor.ne_nil hstands (by simp))
  | cons t u => exact ⟨t, u ++ q.rest, hadvances.rest, hadvances.noEof t List.mem_cons_self⟩

/-- A lookahead of an assignment sees the same tokens. -/
theorem isAssignment_ahead (hstop : ∀ type, stop type → type.stops = true) (h : Ahead stop q q' u)
    (hu : u ≠ []) : q.isAssignment = q'.isAssignment := by
  obtain ⟨⟨t, r, hq, ht⟩, t', r', hq', ht'⟩ := h
  have hstops := hstop _ ht'
  rw [Bool.eq_iff_iff, isAssignment_iff, isAssignment_iff, hq, hq']
  match u, hu with
  | [a], _ =>
    constructor
    · rintro ⟨_, _, _, heq, hb⟩
      cases heq
      rw [ht] at hb
      cases hb
    · rintro ⟨_, _, _, heq, hb⟩
      cases heq
      rw [hb] at hstops
      cases hstops
  | a :: b :: u, _ =>
    constructor
    · rintro ⟨_, _, _, heq, hb⟩
      cases heq
      exact ⟨a, b, _, rfl, hb⟩
    · rintro ⟨_, _, _, heq, hb⟩
      cases heq
      exact ⟨a, b, _, rfl, hb⟩

theorem alike_assignment (hexpr : Alike stop False (parserParseExpr n) (parserParseExpr n) SameTree)
    (hstop : ∀ type, stop type → type.stops = true) :
    Alike stop False (parserParseAssignmentExpr (parserParseExpr n) n)
      (parserParseAssignmentExpr (parserParseExpr n) n) SameTree := by
  refine Alike.guarded Parser.isAssignment ?_ (alike_arrayLit hexpr hstop n) (fun p q e h => assignment_moves h)
    fun q q' u h hu => isAssignment_ahead hstop h hu
  refine (Alike.parserExpect (by decide)).bind (fun _ => rfl) ?_
  rintro start _ rfl
  refine (Alike.parserExpect (by decide)).bind (fun _ => rfl) fun _ _ _ => ?_
  refine hexpr.bind .refl fun value value' hvalue => Alike.get fun q q' => ?_
  refine Alike.parserAt.bind (fun _ => .inl rfl) fun t t' _ => .pure ?_
  show AstNode.assignment _ _ value.erase = AstNode.assignment _ _ value'.erase
  rw [hvalue]

theorem alike_parserParseExpr (hstop : ∀ type, stop type → type.stops = true) (n : Nat) :
    Alike stop False (parserParseExpr n) (parserParseExpr n) SameTree := by
  induction n with
  | zero => exact .throw _
  | succ n ih => exact alike_assignment ih hstop


/-! ## Statements -/

section Statements

variable {parseExpr parseStmt : ParserM AstNode}

/-- What an expression is that ends at the end of the file. -/
theorem stops_of_eof (type : LexTokenType) (h : type = .tEof) : type.stops = true := by
  rw [h]
  rfl

theorem Sees.type_eq (h : Sees (· = .tEof) t t') : t.type = t'.type := by
  rcases h with rfl | ⟨ht, ht'⟩
  · rfl
  · rw [ht, ht']

section

variable (hexpr : Alike (· = .tEof) False parseExpr parseExpr SameTree)

include hexpr

theorem alike_varDecl :
    Alike (· = .tEof) False (parserParseVarDecl parseExpr) (parserParseVarDecl parseExpr) SameTree := by
  refine Alike.parserRetForward.bind (fun _ => rfl) ?_
  rintro start _ rfl
  refine (Alike.parserExpect (by decide)).bind (fun _ => rfl) ?_
  rintro identifier _ rfl
  refine Alike.get fun q q' => ?_
  refine Alike.parserAt.bind (fun _ => .inl rfl) fun t t' ht => ?_
  refine Alike.ite (by rw [ht.type_eq]) ?_ ?_
  · exact Alike.ite Iff.rfl (.error _) (.pure rfl)
  · refine (Alike.parserExpect (by decide)).bind (fun _ => rfl) fun _ _ _ => ?_
    refine hexpr.bind .refl fun value value' hvalue => ?_
    refine Alike.parserAt.bind (fun _ => .inl rfl) fun _ _ _ => .pure ?_
    show AstNode.varDecl _ _ _ (some value.erase) = AstNode.varDecl _ _ _ (some value'.erase)
    rw [hvalue]

/-- The count and the name in the header of a loop, positions apart. -/
def SameHeader (header header' : Option AstNode × Option String) : Prop :=
  header.1.map AstNode.erase = header'.1.map AstNode.erase ∧ header.2 = header'.2

omit hexpr in
theorem alike_loopAs : Alike (· = .tEof) False parserParseLoopAs parserParseLoopAs Eq := by
  refine Alike.parserAt.bind (fun _ => .inl rfl) fun t t' ht => ?_
  refine Alike.ite (by rw [ht.type_eq]) ?_ (.pure rfl)
  refine (Alike.parserExpect (by decide)).bind (fun _ => rfl) fun _ _ _ => ?_
  refine (Alike.parserExpect (by decide)).bind (fun _ => rfl) ?_
  rintro varname _ rfl
  exact .pure rfl

theorem alike_loopHeader :
    Alike (· = .tEof) False (parserParseLoopHeader parseExpr) (parserParseLoopHeader parseExpr) SameHeader := by
  refine Alike.parserAt.bind (fun _ => .inl rfl) fun t t' ht => ?_
  refine Alike.ite (by rw [ht.type_eq]) ?_ (.pure ⟨rfl, rfl⟩)
  refine (Alike.parserExpect (by decide)).bind (fun _ => rfl) fun _ _ _ => ?_
  refine hexpr.bind .refl fun count count' hcount => ?_
  refine alike_loopAs.bind (fun _ => rfl) ?_
  rintro varname _ rfl
  refine (Alike.parserExpect (by decide)).bind (fun _ => rfl) fun _ _ _ => .pure ⟨?_, rfl⟩
  exact congrArg some hcount

end

theorem alike_loopVarname (iterVarname : Option String) :
    Alike (· = .tEof) False (parserParseLoopVarname iterVarname) (parserParseLoopVarname iterVarname) Eq := by
  refine Alike.parserAt.bind (fun _ => .inl rfl) fun t t' ht => ?_
  refine Alike.ite (by rw [ht.type_eq]) ?_ (.pure rfl)
  refine (Alike.parserExpect (by decide)).bind (fun _ => rfl) ?_
  rintro varname _ rfl
  exact .pure rfl

theorem alike_param (names : List String) :
    Alike (· = .tEof) False (parserParseParam names) (parserParseParam names) Eq := by
  refine (Alike.parserExpect (by decide)).bind (fun _ => rfl) ?_
  rintro identifier _ rfl
  refine Alike.parserAt.bind (fun _ => .inl rfl) fun t t' ht => ?_
  refine Alike.ite (by rw [ht.type_eq]) (.pure rfl) ?_
  exact (Alike.parserExpect (by decide)).bind (fun _ => rfl) fun _ _ _ => .pure rfl

theorem alike_expectSemicolon (semicolonIsExpected : Bool) :
    Alike (· = .tEof) False (parserExpectSemicolon semicolonIsExpected)
      (parserExpectSemicolon semicolonIsExpected) Eq := by
  refine Alike.ite Iff.rfl ?_ (.pure rfl)
  exact (Alike.parserExpect (by decide)).bind (fun _ => rfl) fun _ _ _ => .pure rfl

theorem alike_skipSemicolons (n : Nat) :
    Alike (· = .tEof) False (parserSkipSemicolons n) (parserSkipSemicolons n) Eq := by
  refine Alike.loop ?_ (fun _ => rfl) (fun _ _ _ => ?_) n () () rfl
  · refine Alike.parserAt.bind (fun _ => .inl rfl) fun t t' ht => .pure ?_
    rw [ht.type_eq]
  · exact Alike.parserRetForward.bind (fun _ => rfl) fun _ _ _ => .pure ⟨rfl, rfl⟩

variable (hexpr : Alike (· = .tEof) False parseExpr parseExpr SameTree)
  (hstmt : Alike (· = .tEof) False parseStmt parseStmt SameTree)

include hstmt

theorem alike_children (type : LexTokenType) (n : Nat) :
    Alike (· = .tEof) True (parserWhile (parserBefore type) (parserParseChild parseStmt) n [])
      (parserWhile (parserBefore type) (parserParseChild parseStmt) n []) SameTrees := by
  refine Alike.loop (.parserBefore _) .refl (fun children children' h => ?_) n [] [] rfl
  exact hstmt.weaken.bind .refl fun child child' hchild => .pure ⟨h.append hchild, rfl⟩

theorem alike_block (n : Nat) :
    Alike (· = .tEof) False (parserParseBlock parseStmt n) (parserParseBlock parseStmt n) SameTree := by
  refine (Alike.parserExpect (by decide)).bind (fun _ => rfl) fun _ _ _ => ?_
  refine Alike.bindExpect (by decide) (alike_children hstmt _ n) .refl fun children children' _ h => .pure ?_
  show AstNode.block _ (eraseAll children) = AstNode.block _ (eraseAll children')
  rw [h]

theorem alike_fnDecl (n : Nat) :
    Alike (· = .tEof) False (parserParseFnDecl parseStmt n) (parserParseFnDecl parseStmt n) SameTree := by
  refine (Alike.parserExpect (by decide)).bind (fun _ => rfl) ?_
  rintro first _ rfl
  refine (Alike.parserExpect (by decide)).bind (fun _ => rfl) ?_
  rintro name _ rfl
  refine (Alike.parserExpect (by decide)).bind (fun _ => rfl) fun _ _ _ => Alike.get fun q q' => ?_
  have hparams : Alike (· = .tEof) True (parserWhile (parserBefore .tParenClose) parserParseParam n [])
      (parserWhile (parserBefore .tParenClose) parserParseParam n []) Eq := by
    refine Alike.loop (.parserBefore _) (fun _ => rfl) ?_ n [] [] rfl
    rintro names _ rfl
    refine (alike_param names).weaken.post ?_
    rintro r _ rfl
    exact ⟨rfl, rfl⟩
  refine Alike.bindExpect (by decide) hparams (fun _ => rfl) ?_
  rintro names _ _ rfl
  refine (Alike.parserExpect (by decide)).bind (fun _ => rfl) fun _ _ _ => ?_
  refine Alike.bindExpect (by decide) (alike_children hstmt _ n) .refl fun body body' _ h => .pure ?_
  show AstNode.fnDecl _ _ _ (eraseAll body) = AstNode.fnDecl _ _ _ (eraseAll body')
  rw [h]

theorem alike_else :
    Alike (· = .tEof) False (parserParseElse parseStmt) (parserParseElse parseStmt)
      fun e e' => e.map AstNode.erase = e'.map AstNode.erase := by
  refine Alike.parserAt.bind (fun _ => .inl rfl) fun t t' ht => ?_
  refine Alike.ite (by rw [ht.type_eq]) ?_ (.pure rfl)
  refine (Alike.parserExpect (by decide)).bind (fun _ => rfl) fun _ _ _ => ?_
  exact hstmt.bind .refl fun s s' hs => .pure (congrArg some hs)

include hexpr

theorem alike_if :
    Alike (· = .tEof) False (parserParseIf parseExpr parseStmt) (parserParseIf parseExpr parseStmt) SameTree := by
  refine (Alike.parserExpect (by decide)).bind (fun _ => rfl) fun _ _ _ => ?_
  refine (Alike.parserExpect (by decide)).bind (fun _ => rfl) fun _ _ _ => ?_
  refine hexpr.bind .refl fun condition condition' hcondition => ?_
  refine (Alike.parserExpect (by decide)).bind (fun _ => rfl) fun _ _ _ => ?_
  refine hstmt.bind .refl fun ifBody ifBody' hif => ?_
  refine (alike_else hstmt).bind (fun _ => rfl) fun elseBody elseBody' helse => .pure ?_
  unfold SameTree
  rw [erase_ifStmt, erase_ifStmt, hcondition, hif, helse]

theorem alike_loop :
    Alike (· = .tEof) False (parserParseLoopStmt parseExpr parseStmt) (parserParseLoopStmt parseExpr parseStmt)
      SameTree := by
  refine Alike.parserAt.bind (fun _ => .inl rfl) fun start start' _ => Alike.get fun q q' => ?_
  refine (Alike.parserExpect (by decide)).bind (fun _ => rfl) fun _ _ _ => ?_
  refine (alike_loopHeader hexpr).bind (fun _ => ⟨rfl, rfl⟩) fun header header' hheader => ?_
  rw [hheader.2]
  refine (alike_loopVarname header'.2).bind (fun _ => rfl) ?_
  rintro varname _ rfl
  refine hstmt.bind .refl fun body body' hbody => ?_
  refine Alike.parserAt.bind (fun _ => .inl rfl) fun _ _ _ => .pure ?_
  unfold SameTree
  rw [erase_loopStmt, erase_loopStmt, hheader.1, hbody]

theorem alike_stmtKind (n : Nat) (type : LexTokenType) :
    Alike (· = .tEof) False (parserParseStmtKind parseExpr parseStmt n type)
      (parserParseStmtKind parseExpr parseStmt n type) fun r r' => SameTree r.1 r'.1 ∧ r.2 = r'.2 := by
  have hpair : ∀ (x : ParserM AstNode) (b : Bool), Alike (· = .tEof) False x x SameTree →
      Alike (· = .tEof) False (do let stmt ← x; pure (stmt, b) : ParserM (AstNode × Bool))
        (do let stmt ← x; pure (stmt, b)) fun r r' => SameTree r.1 r'.1 ∧ r.2 = r'.2 :=
    fun x b hx => hx.bind .refl fun stmt stmt' h => .pure ⟨h, rfl⟩
  unfold parserParseStmtKind
  split
  · exact hpair _ _ (alike_varDecl hexpr)
  · exact hpair _ _ (alike_varDecl hexpr)
  · exact hpair _ _ (alike_fnDecl hstmt n)
  · exact hpair _ _ (alike_block hstmt n)
  · exact hpair _ _ (alike_if hexpr hstmt)
  · exact hpair _ _ (alike_loop hexpr hstmt)
  · exact hpair _ _ hexpr

theorem alike_stmtBody (n : Nat) :
    Alike (· = .tEof) False (parserParseStmtBody parseExpr parseStmt n) (parserParseStmtBody parseExpr parseStmt n)
      SameTree := by
  refine Alike.parserAt.bind (fun _ => .inl rfl) fun t t' ht => ?_
  rw [ht.type_eq]
  refine (alike_stmtKind hexpr hstmt n _).bind (fun r => ⟨rfl, rfl⟩) fun r r' hr => ?_
  rw [hr.2]
  refine (alike_expectSemicolon _).bind (fun _ => rfl) fun _ _ _ => ?_
  exact (alike_skipSemicolons n).bind (fun _ => rfl) fun _ _ _ => .pure hr.1

end Statements

theorem alike_parserParseStmt (n : Nat) :
    Alike (· = .tEof) False (parserParseStmt n) (parserParseStmt n) SameTree := by
  induction n with
  | zero => exact .throw _
  | succ n ih => exact alike_stmtBody (alike_parserParseExpr stops_of_eof _) ih n

end Blaze
