import Blazescript.Syntax.Consumes
import Blazescript.Syntax.Proofs.YieldsProofs

/-!
# Proofs: what the parser does with given tokens

The rules of `Consumes`.
-/

namespace Blaze

open Blaze.Parser

variable {α β : Type} {x : ParserM α} {f : α → ParserM β} {u v rest : List LexToken} {t : LexToken}
  {P : α → Prop} {Q : β → Prop} {a : α} {n : Nat}

theorem Parser.after_nil (p : Parser) : p.after [] = p := by
  unfold Parser.after
  rw [List.append_nil]
  rfl

theorem Parser.after_after (p : Parser) : (p.after u).after v = p.after (u ++ v) := by
  unfold Parser.after
  rw [List.append_assoc, List.length_append, Nat.add_assoc]

theorem Parser.rest_after {p : Parser} (h : p.rest = u ++ rest) : (p.after u).rest = rest := by
  have hdrop : (p.after u).rest = p.rest.drop u.length := List.drop_drop.symm
  rw [hdrop, h, List.drop_left]

theorem Consumes.post {P' : α → Prop} (h : Consumes x u rest P) (hp : ∀ a, P a → P' a) :
    Consumes x u rest P' := by
  intro p hr
  obtain ⟨a, hx, ha⟩ := h p hr
  exact ⟨a, hx, hp a ha⟩

theorem consumes_pure (h : P a) : Consumes (pure a) [] rest P := by
  intro p _
  rw [after_nil]
  exact ⟨a, rfl, h⟩

theorem Consumes.bind (hx : Consumes x u (v ++ rest) P)
    (hf : ∀ a, P a → Consumes (f a) v rest Q) : Consumes (x >>= f) (u ++ v) rest Q := by
  intro p hr
  rw [List.append_assoc] at hr
  obtain ⟨a, hxp, ha⟩ := hx p hr
  obtain ⟨b, hfp, hb⟩ := hf a ha (p.after u) (rest_after hr)
  refine ⟨b, ?_, hb⟩
  show EStateM.bind x f p = _
  unfold EStateM.bind
  rw [hxp, ← after_after]
  exact hfp

/-- A computation that only looks ahead. -/
theorem Consumes.peek (hx : Consumes x [] (v ++ rest) P) (hf : ∀ a, P a → Consumes (f a) v rest Q) :
    Consumes (x >>= f) v rest Q := hx.bind hf

/-- A computation that moves over the last of the tokens. -/
theorem Consumes.last (hx : Consumes x u rest P) (hf : ∀ a, P a → Consumes (f a) [] rest Q) :
    Consumes (x >>= f) u rest Q := by
  have hbind := Consumes.bind (v := []) hx hf
  rwa [List.append_nil] at hbind

theorem consumes_ite {c : Prop} [Decidable c] {y : ParserM α} (hx : c → Consumes x u rest P)
    (hy : ¬ c → Consumes y u rest P) : Consumes (if c then x else y) u rest P := by
  by_cases h : c
  · rw [if_pos h]
    exact hx h
  · rw [if_neg h]
    exact hy h

/-- The state may be read. -/
theorem consumes_get {f : Parser → ParserM β}
    (hf : ∀ q : Parser, q.rest = u ++ rest → Consumes (f q) u rest Q) :
    Consumes (get >>= f) u rest Q := fun p hr => hf p hr p hr

/-! ## The primitives -/

theorem consumes_parserAt : Consumes parserAt [] (t :: rest) fun a => a = t := by
  intro p hr
  rw [after_nil]
  exact ⟨t, parserAt_eq hr, rfl⟩

theorem consumes_parserIsEof (ht : t.type ≠ .tEof) :
    Consumes parserIsEof [] (t :: rest) fun b => b = false := by
  intro p hr
  rw [after_nil]
  obtain ⟨b, hb, -, heof⟩ := parserIsEof_eq p
  refine ⟨b, hb, ?_⟩
  cases b with
  | false => rfl
  | true => exact absurd (heof rfl t rest hr) ht

theorem consumes_parserRetForward : Consumes parserRetForward [t] rest fun a => a = t := by
  intro p hr
  exact ⟨t, parserRetForward_eq hr, rfl⟩

theorem consumes_parserExpect {type : LexTokenType} (ht : t.type = type) (hne : type ≠ .tEof) :
    Consumes (parserExpect type) [t] rest fun a => a = t := by
  refine (consumes_parserIsEof (by rwa [ht])).peek fun b hb => consumes_ite (fun h => ?_) fun _ => ?_
  · rw [hb] at h
    cases h
  · refine consumes_parserAt.peek fun a ha => consumes_ite (fun h => ?_) fun _ => consumes_parserRetForward
    rw [ha] at h
    exact absurd ht h

/-! ## Loops -/

section Loops

variable {cond : ParserM Bool} {body : α → ParserM (α × Bool)} {R : α → Prop}

theorem consumes_while_done (hcond : Consumes cond [] rest fun b => b = false) :
    Consumes (parserWhile cond body (n + 1) a) [] rest fun b => b = a := by
  refine hcond.peek fun b hb => consumes_ite (fun h => ?_) fun _ => consumes_pure rfl
  rw [hb] at h
  cases h

/-- The last iteration, when the body leaves the loop. -/
theorem consumes_while_stop (hcond : Consumes cond [] (u ++ rest) fun b => b = true)
    (hbody : Consumes (body a) u rest fun r => r.2 = false ∧ R r.1) :
    Consumes (parserWhile cond body (n + 1) a) u rest R := by
  refine hcond.peek fun b hb => consumes_ite (fun _ => ?_) fun h => absurd hb h
  refine hbody.last fun r hr => consumes_ite (fun h => ?_) fun _ => consumes_pure hr.2
  rw [hr.1] at h
  cases h

theorem consumes_while_again (hcond : Consumes cond [] (u ++ (v ++ rest)) fun b => b = true)
    (hbody : Consumes (body a) u (v ++ rest) fun r => r.2 = true ∧ P r.1)
    (hrest : ∀ b, P b → Consumes (parserWhile cond body n b) v rest R) :
    Consumes (parserWhile cond body (n + 1) a) (u ++ v) rest R := by
  rw [← List.append_assoc] at hcond
  refine hcond.peek fun b hb => consumes_ite (fun _ => ?_) fun h => absurd hb h
  refine hbody.bind fun r hr => consumes_ite (fun _ => hrest r.1 hr.2) fun h => absurd hr.1 h

/-- An iteration after which the condition ends the loop. -/
theorem consumes_while_last (hcond : Consumes cond [] (u ++ rest) fun b => b = true)
    (hbody : Consumes (body a) u rest fun r => r.2 = true ∧ P r.1)
    (hend : ∀ b, P b → Consumes (parserWhile cond body n b) [] rest R) :
    Consumes (parserWhile cond body (n + 1) a) u rest R := by
  have hloop := consumes_while_again (v := []) hcond hbody hend
  rwa [List.append_nil] at hloop

end Loops

theorem consumes_parserBefore {type : LexTokenType} (ht : t.type ≠ .tEof) :
    Consumes (parserBefore type) [] (t :: rest) fun b => b = (t.type != type) := by
  refine (consumes_parserIsEof ht).peek fun b hb => consumes_ite (fun h => ?_) fun _ => ?_
  · rw [hb] at h
    cases h
  · refine consumes_parserAt.peek fun a ha => consumes_pure ?_
    rw [ha]

end Blaze
