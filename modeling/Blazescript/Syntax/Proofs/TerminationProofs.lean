import Blazescript.Syntax.Proofs.FuelProofs
import Blazescript.Syntax.Proofs.SoundnessProofs

/-!
# Proofs: the parser ends

Every statement moves over at least one token, and none moves over the end of the file.
-/

namespace Blaze

open Blaze.Parser Running

variable {tokens : List LexToken} {eof : LexToken} {filename : Option String} {n : Nat}
  {p p' : Parser} {safe : Prop}

theorem yields_notEof : Yields safe (do return !(← parserIsEof) : ParserM Bool) p fun u b =>
    u = [] ∧ (b = true → ∃ t r, p.rest = t :: r) := by
  refine yields_parserIsEof.peek fun b hb => yields_pure ⟨rfl, fun hnot => ?_⟩
  obtain ⟨t, r, hr, -⟩ := hb.1 (by simpa using hnot)
  exact ⟨t, r, hr⟩

/-- The loop over the statements of a file. -/
theorem yields_stmts (hs : p.Ready safe filename n) :
    Yields safe (parserWhile (do return !(← parserIsEof)) (parserParseChild (parserParseStmt n)) n []) p
      (Builds filename .stmts) := by
  have hloop := yields_while (fun q _ => yields_notEof)
    (fun children q hq _ => yields_child (yields_parserParseStmt n) children hq) n [] p hs hs
  refine hloop.post fun u es hes => ?_
  obtain ⟨es, rfl, hes⟩ := derives_children hes
  exact hes

theorem yields_parserCreateAstNode (hs : p.Ready safe filename n) :
    Yields safe (parserCreateAstNode n) p fun u node =>
      ∃ pos es, node = .root pos es ∧ Builds filename .stmts u es := by
  refine (yields_stmts hs).bind fun es u p₁ _ hes => yields_get.peek fun q _ => yields_pure ?_
  rw [List.append_nil]
  exact ⟨_, es, rfl, hes⟩

/-- A tree is returned only at the end of the file. -/
theorem parserCreateAstNode_eof {node : AstNode} (h : parserCreateAstNode n p = .ok node p') :
    p'.Eof := by
  obtain ⟨es, q, hloop, h⟩ := bind_eq_ok h
  cases h
  have hbody : ∀ (children : List AstNode) (q : Parser) (r : List AstNode × Bool) (q' : Parser),
      parserParseChild (parserParseStmt n) children q = .ok r q' → r.2 = true := by
    intro children q r q' hr
    obtain ⟨child, q₁, -, hr⟩ := bind_eq_ok hr
    cases hr
    rfl
  obtain ⟨q, hq⟩ := parserWhile_end hbody n [] es p p' hloop
  obtain ⟨b, hb, -, heof⟩ := parserIsEof_eq q
  obtain ⟨b', q₁, hb', hnot⟩ := bind_eq_ok hq
  rw [hb] at hb'
  cases hb'
  cases b with
  | false => cases hnot
  | true =>
    cases hnot
    exact heof rfl

/-! ## Lists of tokens with their end -/

section Lists

variable (hfront : ∀ t ∈ tokens, t.type ≠ .tEof) (heof : eof.type = .tEof)

include heof in
theorem within_init (hn : tokens.length < n) : (Parser.init (tokens ++ [eof]) filename).Within n :=
  ⟨tokens.length, hn, eof, by simp [Parser.init, Parser.rest], heof⟩

include heof

/-- What has been moved over is the tokens up to the index. -/
theorem advances_init {u : List LexToken}
    (ha : (Parser.init (tokens ++ [eof]) filename).Advances p' u) :
    p'.index ≤ tokens.length ∧ p'.consumed = tokens.take p'.index := by
  obtain ⟨hlen, -⟩ := (within_init heof (Nat.lt_succ_self _)).advance ha
  have hrest : tokens ++ [eof] = u ++ p'.rest := ha.rest
  have hindex : p'.index = u.length := by
    rw [ha.index]
    exact Nat.zero_add _
  have hconsumed : p'.consumed = u := ha.consumed
  have hle : u.length ≤ tokens.length := Nat.le_of_lt_succ hlen
  have htake : tokens.take u.length = u := by
    have h := congrArg (List.take u.length) hrest
    rw [List.take_append_of_le_length hle, List.take_left'] at h
    · exact h
    · rfl
  rw [hindex, hconsumed]
  exact ⟨hle, htake.symm⟩

include hfront

/-- At the end of the file all the tokens before it have been moved over. -/
theorem index_of_eof {u : List LexToken}
    (ha : (Parser.init (tokens ++ [eof]) filename).Advances p' u) (he : p'.Eof) :
    p'.index = tokens.length := by
  obtain ⟨hle, -⟩ := advances_init heof ha
  by_contra hne
  have hlt : p'.index < tokens.length := by omega
  have htokens : p'.tokens = tokens ++ [eof] := ha.tokens
  have hrest : p'.rest = tokens[p'.index] :: (tokens ++ [eof]).drop (p'.index + 1) := by
    unfold Parser.rest
    rw [htokens, List.drop_eq_getElem_cons (by simp; omega), List.getElem_append_left hlt]
  exact hfront _ (List.getElem_mem hlt) (he _ _ hrest)

end Lists

/-- On a list of tokens that ends in its only end of the file the parser ends, with a tree or with a
syntax error. It moves over each token at most once, from the first on, and never over the end of the
file; if it returns a tree it has moved over all the tokens before that. -/
theorem parserCreateAstNode_ends (tokens : List LexToken) (eof : LexToken) (filename : Option String)
    (hfront : ∀ t ∈ tokens, t.type ≠ .tEof) (heof : eof.type = .tEof) :
    ∃ result,
      (∀ n, tokens.length < n →
        parserCreateAstNode n (Parser.init (tokens ++ [eof]) filename) = result) ∧
      match result with
      | .ok _ p => p.index = tokens.length ∧ p.consumed = tokens
      | .error e p => e.IsSyntax ∧ p.index ≤ tokens.length ∧ p.consumed = tokens.take p.index := by
  have hwithin : (Parser.init (tokens ++ [eof]) filename).Within (tokens.length + 1) :=
    within_init heof (Nat.lt_succ_self tokens.length)
  have hyields := yields_parserCreateAstNode (⟨rfl, fun _ => hwithin⟩ : Parser.Ready True filename _ _)
  refine ⟨parserCreateAstNode (tokens.length + 1) (Parser.init (tokens ++ [eof]) filename), ?_, ?_⟩
  · intro n hn
    rcases approximates_parserCreateAstNode hn (Parser.init (tokens ++ [eof]) filename)
      with ⟨p', hfuel⟩ | heq
    · unfold Yields at hyields
      rw [hfuel] at hyields
      exact absurd (hyields.2 trivial) id
    · exact heq.symm
  · unfold Yields at hyields
    cases hr : parserCreateAstNode (tokens.length + 1) (Parser.init (tokens ++ [eof]) filename) with
    | ok node p' =>
      rw [hr] at hyields
      obtain ⟨u, ha, -⟩ := hyields
      have hindex := index_of_eof hfront heof ha (parserCreateAstNode_eof hr)
      obtain ⟨-, hconsumed⟩ := advances_init heof ha
      rw [hindex, List.take_length] at hconsumed
      exact ⟨hindex, hconsumed⟩
    | error e p' =>
      rw [hr] at hyields
      obtain ⟨⟨u, ha⟩, herror⟩ := hyields
      exact ⟨herror trivial, advances_init heof ha⟩

theorem parserCreateAstNode_ends_var : ∃ result,
    (∀ n, 4 < n → parserCreateAstNode n
      (Parser.init ([⟨.tVar, "var", 1, 1, 1, 3⟩, ⟨.tIdentifier, "x", 1, 1, 5, 5⟩,
        ⟨.tSemicolon, ";", 1, 1, 6, 6⟩, ⟨.tSemicolon, ";", 1, 1, 7, 7⟩] ++
        [⟨.tEof, "[EOF]", 1, 1, 8, 8⟩]) none) = result) ∧
    match result with
    | .ok _ p => p.index = 4 ∧ p.consumed.length = 4
    | .error e p => e.IsSyntax ∧ p.index ≤ 4 ∧ p.consumed.length = p.index := by
  obtain ⟨result, hall, hresult⟩ := parserCreateAstNode_ends
    [⟨.tVar, "var", 1, 1, 1, 3⟩, ⟨.tIdentifier, "x", 1, 1, 5, 5⟩, ⟨.tSemicolon, ";", 1, 1, 6, 6⟩,
      ⟨.tSemicolon, ";", 1, 1, 7, 7⟩] ⟨.tEof, "[EOF]", 1, 1, 8, 8⟩ none (by decide) rfl
  refine ⟨result, hall, ?_⟩
  cases result with
  | ok node p => exact ⟨hresult.1, by rw [hresult.2]; rfl⟩
  | error e p =>
    refine ⟨hresult.1, hresult.2.1, ?_⟩
    rw [hresult.2.2, List.length_take]
    exact Nat.min_eq_left hresult.2.1

end Blaze
