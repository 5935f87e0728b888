import Blazescript.Eval.Literals
import Blazescript.Syntax.Proofs.LexingProofs
import Blazescript.Syntax.Proofs.YieldsProofs
import Blazescript.Syntax.Proofs.ConsumesProofs

/-!
# Proofs: integer literals

The lexer and the parser keep the digits, but `atoll` saturates.
-/

namespace Blaze

open Blaze.Lex

variable {digits rest : List Char} {c : Char} {i : Int} {lex : Lex} {n : Nat} {t : LexToken}

/-! ## The digits -/

theorem digitsValue_eq (digits : List Char) : digitsValue digits = decimalValue digits := by
  induction digits using List.reverseRecOn with
  | nil => rfl
  | append_singleton digits c ih =>
    have hstep : digitsValue (digits ++ [c]) = 10 * digitsValue digits + (c.toNat - 48) := List.foldl_append
    rw [hstep, ih]
    unfold decimalValue
    rw [List.reverse_append, List.reverse_singleton, List.singleton_append, List.map_cons, Nat.ofDigits_cons]
    exact Nat.add_comm _ _

/-- `atoll` saturates. -/
theorem atoll_digits (hne : digits ≠ []) (hdigits : ∀ c ∈ digits, c.isDigit = true) :
    atoll (String.ofList digits) = min 0x7FFFFFFFFFFFFFFF (decimalValue digits : Int) := by
  obtain ⟨c, cs, rfl⟩ := List.exists_cons_of_ne_nil hne
  have hc := isDigit_iff.mp (hdigits c List.mem_cons_self)
  have htake : (c :: cs).takeWhile Char.isDigit = c :: cs := List.takeWhile_eq_self_iff.mpr hdigits
  have hdrop : (c :: cs).dropWhile (fun c => decide (c = ' ' ∨ 9 ≤ c.toNat ∧ c.toNat ≤ 13)) = c :: cs := by
    have hspace : c ≠ ' ' := by
      rintro rfl
      exact absurd hc.1 (by decide)
    rw [List.dropWhile_cons, if_neg]
    simp only [decide_eq_true_eq]
    rintro (h | ⟨-, h⟩)
    · exact hspace h
    · omega
  unfold atoll
  rw [String.toList_ofList, hdrop]
  split
  next cs' hminus =>
    rw [(List.cons.inj hminus).1] at hc
    exact absurd hc.1 (by decide)
  next cs' hplus =>
    rw [(List.cons.inj hplus).1] at hc
    exact absurd hc.1 (by decide)
  next => rw [htake, digitsValue_eq]

/-! ## The lexer -/

theorem nextPiece_digits (hne : digits ≠ []) (hdigits : ∀ c ∈ digits, c.isDigit = true)
    (hrest : ∀ c ∈ rest.head?, c.isDigit = false) :
    nextPiece (digits ++ rest) = .token .tIntLit (String.ofList digits) digits rest := by
  obtain ⟨c, cs, rfl⟩ := List.exists_cons_of_ne_nil hne
  have htake : (c :: cs ++ rest).takeWhile Char.isDigit = c :: cs ∧ (c :: cs ++ rest).dropWhile Char.isDigit = rest := by
    rw [List.takeWhile_append_of_pos hdigits, List.dropWhile_append_of_pos hdigits]
    cases rest with
    | nil => exact ⟨List.append_nil _, rfl⟩
    | cons d rest =>
      have hd : ¬ d.isDigit = true := by
        rw [hrest d rfl]
        exact Bool.false_ne_true
      rw [List.takeWhile_cons_of_neg hd, List.dropWhile_cons_of_neg hd]
      exact ⟨List.append_nil _, rfl⟩
  show nextPiece (c :: (cs ++ rest)) = _
  rw [nextPiece_digit (hdigits c List.mem_cons_self)]
  show nextNumber (c :: cs ++ rest) = _
  unfold nextNumber
  rw [htake.1, htake.2]

/-! ## The parser -/

/-- The parser makes a node of the token. -/
theorem consumes_intLit (parseExpr : ParserM AstNode) (ht : t.type = .tIntLit) (r : List LexToken) :
    Consumes (parserParsePrimaryExpr parseExpr) [t] r fun node => ∃ pos, node = .intLit pos (atoll t.value) := by
  refine Consumes.peek consumes_parserAt fun t' ht' => consumes_get fun q _ => ?_
  rw [ht', ht]
  exact Consumes.last consumes_parserRetForward fun _ _ => consumes_pure ⟨_, rfl⟩

theorem meansAnywhere_atoll (hne : digits ≠ []) (hdigits : ∀ c ∈ digits, c.isDigit = true) :
    MeansAnywhere digits (atoll (String.ofList digits)) := by
  intro n lex rest hdrop hrest hn
  have hahead : lex.rest = digits ++ rest := hdrop
  have hlen : lex.rest.length < n := by
    rw [length_rest]
    omega
  have hnil : lex.rest ≠ [] := by
    rw [hahead]
    exact List.append_ne_nil_of_left_ne_nil hne rest
  have hsteps := lexStep_stepsOver hnil hlen
  rw [hahead, nextPiece_digits hne hdigits hrest] at hsteps
  refine ⟨lex.tokenOver .tIntLit (String.ofList digits) digits, _, hsteps, advance_index, ?_, rfl, ?_⟩
  · exact congrArg (· ++ [lex.tokenOver .tIntLit (String.ofList digits) digits]) advance_tokens
  · intro parseExpr p r hp
    obtain ⟨node, hnode, pos, rfl⟩ := consumes_intLit parseExpr rfl r p hp
    exact ⟨_, hnode, fun fuel scope w => ⟨_, _, rfl, rfl⟩⟩

theorem meansAlone_atoll (hne : digits ≠ []) (hdigits : ∀ c ∈ digits, c.isDigit = true) :
    MeansAlone digits (atoll (String.ofList digits)) := by
  intro filename stdin strerror
  have hsemicolon : Pieces [';'] [(.tSemicolon, ";")] [] := .token rfl (.nil [])
  have hpieces : Pieces (digits ++ [';']) [(.tIntLit, String.ofList digits), (.tSemicolon, ";")] [] := by
    refine .token (nextPiece_digits hne hdigits ?_) hsemicolon
    rintro c ⟨⟩
    rfl
  obtain ⟨lex, ts, eof, hlex, htokens, hkeys, heof, -⟩ := lexAnalyze_pieces filename hpieces (Nat.lt_succ_self _)
  obtain ⟨⟨_, _, a, b, c, d⟩, ts, rfl, hfirst, hkeys⟩ := List.map_eq_cons_iff.mp hkeys
  obtain ⟨⟨_, _, a', b', c', d'⟩, ts, rfl, hsecond, hkeys⟩ := List.map_eq_cons_iff.mp hkeys
  obtain rfl := List.map_eq_nil_iff.mp hkeys
  obtain ⟨_, _, a'', b'', c'', d''⟩ := eof
  obtain ⟨rfl, rfl⟩ := Prod.mk.inj hfirst
  obtain ⟨rfl, rfl⟩ := Prod.mk.inj hsecond
  obtain ⟨rfl, rfl⟩ := Prod.mk.inj heof
  rw [List.cons_append, List.singleton_append] at htokens
  have hparse : ∃ pos pos' p, parserCreateAstNode 5 (.init lex.tokens (some filename)) =
      .ok (.root pos [.intLit pos' (atoll (String.ofList digits))]) p := by
    rw [htokens]
    exact ⟨_, _, _, rfl⟩
  obtain ⟨pos, pos', p, hparse⟩ := hparse
  exact ⟨_, lex, 5, _, p, 3, _, _, hlex, hparse, rfl, rfl⟩

/-- The value of a literal is that of `atoll`. -/
theorem means_unique (hne : digits ≠ []) (hdigits : ∀ c ∈ digits, c.isDigit = true) (h : MeansAnywhere digits i) :
    i = atoll (String.ofList digits) := by
  have hlex : (lexInit "" digits).buf.drop (lexInit "" digits).index = digits ++ [] := (List.append_nil _).symm
  obtain ⟨t, lex', hstep, -, htokens, -, hvalue⟩ := h _ _ [] hlex (fun c hc => nomatch hc) (Nat.lt_succ_self _)
  obtain ⟨t', lex'', hstep', -, htokens', -, hvalue'⟩ :=
    meansAnywhere_atoll hne hdigits _ _ [] hlex (fun c hc => nomatch hc) (Nat.lt_succ_self _)
  cases hstep.symm.trans hstep'
  obtain rfl : t = t' := List.singleton_inj.mp (List.append_cancel_left (htokens.symm.trans htokens'))
  let p : Parser := .init [t] none
  obtain ⟨node, hnode, hvalue⟩ := hvalue (parserParseExpr 0) p [] rfl
  obtain ⟨node', hnode', hvalue'⟩ := hvalue' (parserParseExpr 0) p [] rfl
  cases hnode.symm.trans hnode'
  obtain ⟨v, w, hv, hi⟩ := hvalue 0 0 ⟨.initial node [] "", []⟩
  obtain ⟨v', w', hv', hi'⟩ := hvalue' 0 0 ⟨.initial node [] "", []⟩
  cases hv.symm.trans hv'
  exact ValData.integer.inj (hi.symm.trans hi')

/-- The digits mean what they say if and only if the integer type has room for them. -/
theorem literal_means (hne : digits ≠ []) (hdigits : ∀ c ∈ digits, c.isDigit = true) :
    MeansAnywhere digits (decimalValue digits) ∧ MeansAlone digits (decimalValue digits) ↔
      decimalValue digits < 0x8000000000000000 := by
  have hatoll := atoll_digits hne hdigits
  constructor
  · rintro ⟨hanywhere, -⟩
    have heq := means_unique hne hdigits hanywhere
    rw [hatoll] at heq
    omega
  · intro hlt
    have heq : atoll (String.ofList digits) = decimalValue digits := by
      rw [hatoll]
      omega
    rw [← heq]
    exact ⟨meansAnywhere_atoll hne hdigits, meansAlone_atoll hne hdigits⟩

theorem literal_means_zeros :
    MeansAnywhere ['0', '0', '7'] (decimalValue ['0', '0', '7']) ∧
      MeansAlone ['0', '0', '7'] (decimalValue ['0', '0', '7']) ↔
    decimalValue ['0', '0', '7'] < 0x8000000000000000 :=
  literal_means (by decide) (List.all_eq_true.mp (by decide))

/-- Two to the power of 63 becomes the integer before it. -/
theorem literal_saturates :
    decimalValue "9223372036854775808".toList = 0x8000000000000000 ∧
    MeansAlone "9223372036854775808".toList 0x7FFFFFFFFFFFFFFF ∧
    ¬ MeansAnywhere "9223372036854775808".toList 0x8000000000000000 := by
  have hne : "9223372036854775808".toList ≠ [] := by decide
  have hdigits : ∀ c ∈ "9223372036854775808".toList, c.isDigit = true := List.all_eq_true.mp (by decide)
  have hatoll : atoll (String.ofList "9223372036854775808".toList) = 0x7FFFFFFFFFFFFFFF := by decide +kernel
  refine ⟨by decide, ?_, ?_⟩
  · rw [← hatoll]
    exact meansAlone_atoll hne hdigits
  · intro h
    have heq := means_unique hne hdigits h
    rw [hatoll] at heq
    exact absurd heq (by decide)

end Blaze
