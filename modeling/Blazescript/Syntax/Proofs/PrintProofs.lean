import Mathlib.Data.List.TakeWhile
import Blazescript.Syntax.Proofs.CompletenessProofs

/-!
# Proofs: parsing inverts printing
-/

namespace Blaze

variable {k m : Nat} {u : List LexToken} {e : AstNode}

/-! ## Numbers -/

/-- The digits of a number are read back. -/
theorem atoll_repr {v : Nat} (hv : v < 0x8000000000000000) : atoll v.repr = v := by
  have hdigits : ∀ c ∈ Nat.toDigits 10 v, c.isDigit = true :=
    fun c hc => Nat.isDigit_of_mem_toDigits (by omega) (by omega) hc
  have hvalue : digitsValue (Nat.toDigits 10 v) = v := Nat.ofDigitChars_ten_toDigits
  have hall : (Nat.toDigits 10 v).takeWhile Char.isDigit = Nat.toDigits 10 v :=
    List.takeWhile_eq_self_iff.mpr hdigits
  unfold atoll
  rw [Nat.toList_repr]
  cases hl : Nat.toDigits 10 v with
  | nil => exact absurd hl Nat.toDigits_ne_nil
  | cons c cs =>
    rw [hl] at hdigits hvalue hall
    have hc : c.isDigit = true := hdigits c List.mem_cons_self
    rw [List.dropWhile_cons_of_neg]
    · split
      · rename_i heq
        obtain rfl := (List.cons.inj heq).1
        exact absurd hc (by decide)
      · rename_i heq
        obtain rfl := (List.cons.inj heq).1
        exact absurd hc (by decide)
      · rw [hall, hvalue]
        omega
    · have hrange := hc
      simp only [Char.isDigit, Bool.and_eq_true, decide_eq_true_eq] at hrange
      have hge : 48 ≤ c.toNat := UInt32.le_iff_toNat_le.mp hrange.1
      rw [decide_eq_true_eq]
      rintro (rfl | ⟨-, hle⟩)
      · exact absurd hc (by decide)
      · omega

/-! ## Precedence -/

theorem rankNonterminal_level (level : Level) : rankNonterminal level.rank = .binary level := by
  cases level <;> rfl

theorem rankNonterminal_operand (level : Level) : rankNonterminal (level.rank + 1) = level.operand := by
  cases level <;> rfl

theorem derives_looser (h : Derives language (rankNonterminal m) u [e]) (hk : k ≤ m) :
    Derives language (rankNonterminal k) u [e] := by
  induction hk with
  | refl => exact h
  | @step m _ ih =>
    refine ih ?_
    match m with
    | 0 => exact .operand (.comparison h)
    | 1 => exact .single h
    | 2 => exact .single h
    | 3 => exact .single h
    | m + 4 => exact h

theorem derives_primary (h : Derives language .primary u [e]) :
    Derives language (rankNonterminal k) u [e] :=
  derives_looser (m := k + 4) (.primary h) (Nat.le_add_right ..)

/-- Where they are needed, parentheses make an expression a primary one. -/
theorem derives_parenthesise {w : List Key}
    (h : ∀ v : List LexToken, v.map LexToken.key = w → Derives language (rankNonterminal m) v [e])
    (hu : u.map LexToken.key = parenthesise (m < k) w) : Derives language (rankNonterminal k) u [e] := by
  unfold parenthesise at hu
  split at hu
  · obtain ⟨o, u, rfl, ho, hu⟩ := List.map_eq_cons_iff.mp hu
    obtain ⟨v, u, rfl, hv, hu⟩ := List.map_eq_append_iff.mp hu
    obtain ⟨c, u, rfl, hc, hu⟩ := List.map_eq_cons_iff.mp hu
    obtain rfl := List.map_eq_nil_iff.mp hu
    have hexpr : Derives language .expr v [e] := derives_looser (h v hv) (Nat.zero_le m)
    exact derives_primary (.paren (Prod.mk.inj ho).1 (Prod.mk.inj hc).1 hexpr)
  · rename_i hle
    exact derives_looser (h u hu) (by simpa using hle)

theorem mem_operators (operator : BinOperator) :
    (operator.text, operator) ∈ operator.level.operators := by
  cases operator <;> decide

/-! ## Printed expressions -/

theorem key_eq {t : LexToken} {type : LexTokenType} {text : String} (h : t.key = (type, text)) :
    t.type = type ∧ t.value = text := Prod.mk.inj h

mutual

/-- The tokens that an expression is printed to stand for it. -/
theorem derives_print : ∀ (e : Expr) (k : Nat) (u : List LexToken), u.map LexToken.key = e.print k →
    Derives language (rankNonterminal k) u [e.toNode]
  | .intLit intval, k, u, hu => by
    rw [Expr.print] at hu
    obtain ⟨t, u, rfl, ht, hu⟩ := List.map_eq_cons_iff.mp hu
    obtain rfl := List.map_eq_nil_iff.mp hu
    obtain ⟨htype, htext⟩ := key_eq ht
    rw [Expr.toNode, ← atoll_repr intval.isLt, ← htext]
    exact derives_primary (.intLit htype)
  | .string strval, k, u, hu => by
    rw [Expr.print] at hu
    obtain ⟨t, u, rfl, ht, hu⟩ := List.map_eq_cons_iff.mp hu
    obtain rfl := List.map_eq_nil_iff.mp hu
    obtain ⟨htype, rfl⟩ := key_eq ht
    exact derives_primary (.string htype)
  | .identifier symbol, k, u, hu => by
    rw [Expr.print] at hu
    obtain ⟨t, u, rfl, ht, hu⟩ := List.map_eq_cons_iff.mp hu
    obtain rfl := List.map_eq_nil_iff.mp hu
    obtain ⟨htype, rfl⟩ := key_eq ht
    exact derives_primary (.identifier htype)
  | .call identifier args, k, u, hu => by
    rw [Expr.print] at hu
    obtain ⟨f, u, rfl, hf, hu⟩ := List.map_eq_cons_iff.mp hu
    obtain ⟨o, u, rfl, ho, hu⟩ := List.map_eq_cons_iff.mp hu
    obtain ⟨v, u, rfl, hv, hu⟩ := List.map_eq_append_iff.mp hu
    obtain ⟨c, u, rfl, hc, hu⟩ := List.map_eq_cons_iff.mp hu
    obtain rfl := List.map_eq_nil_iff.mp hu
    obtain ⟨hftype, rfl⟩ := key_eq hf
    have hcall := Derives.call hftype (key_eq ho).1 (key_eq hc).1 (derives_printAll args v hv).1
    exact derives_looser (m := k + 4) hcall (Nat.le_add_right ..)
  | .assignment assignee value, k, u, hu => by
    rw [Expr.print] at hu
    refine derives_parenthesise (m := 0) (fun w hw => ?_) hu
    obtain ⟨x, w, rfl, hx, hw⟩ := List.map_eq_cons_iff.mp hw
    obtain ⟨o, v, rfl, ho, hv⟩ := List.map_eq_cons_iff.mp hw
    obtain ⟨hxtype, rfl⟩ := key_eq hx
    exact Derives.assignment hxtype (key_eq ho).1 (derives_print value 0 v hv)
  | .arrayLit elements, k, u, hu => by
    rw [Expr.print] at hu
    refine derives_parenthesise (m := 0) (fun v hv => ?_) hu
    obtain ⟨a, v, rfl, ha, hv⟩ := List.map_eq_cons_iff.mp hv
    obtain ⟨o, v, rfl, ho, hv⟩ := List.map_eq_cons_iff.mp hv
    obtain ⟨w, v, rfl, hw, hv⟩ := List.map_eq_append_iff.mp hv
    obtain ⟨c, v, rfl, hc, hv⟩ := List.map_eq_cons_iff.mp hv
    obtain rfl := List.map_eq_nil_iff.mp hv
    have harray := Derives.arrayLit (key_eq ha).1 (key_eq ho).1 (key_eq hc).1
      (derives_printAll elements w hw).2
    exact .operand harray
  | .binary operator left right, k, u, hu => by
    rw [Expr.print] at hu
    refine derives_parenthesise (m := operator.level.rank) (fun x hx => ?_) hu
    obtain ⟨v, w, rfl, hv, hw⟩ := List.map_eq_append_iff.mp hx
    obtain ⟨o, w, rfl, ho, hw⟩ := List.map_eq_cons_iff.mp hw
    obtain ⟨hotype, hotext⟩ := key_eq ho
    have hleft := derives_print left operator.level.rank v hv
    have hright := derives_print right (operator.level.rank + 1) w hw
    rw [rankNonterminal_level] at hleft ⊢
    rw [rankNonterminal_operand] at hright
    refine .binary hleft hotype ?_ hright
    rw [hotext]
    exact mem_operators operator

theorem derives_printAll : ∀ (es : List Expr) (u : List LexToken), u.map LexToken.key = printAll es →
    Derives language .args u (toNodes es) ∧ Derives language .elements u (toNodes es)
  | [], u, hu => by
    rw [printAll] at hu
    obtain rfl := List.map_eq_nil_iff.mp hu
    exact ⟨.argsNil, .elementsNil⟩
  | [e], u, hu => by
    rw [printAll] at hu
    have he := derives_print e 0 u hu
    exact ⟨.argsLast he, .elementsLast he⟩
  | e :: e' :: es, u, hu => by
    rw [printAll] at hu
    · obtain ⟨v, w, rfl, hv, hw⟩ := List.map_eq_append_iff.mp hu
      obtain ⟨c, w, rfl, hc, hw⟩ := List.map_eq_cons_iff.mp hw
      have he := derives_print e 0 v hv
      obtain ⟨hargs, helements⟩ := derives_printAll (e' :: es) w hw
      exact ⟨.argsCons he ⟨c, rfl, (key_eq hc).1⟩ hargs, .elementsCons he (key_eq hc).1 helements⟩
    · simp

end

/-- On the tokens that an expression is printed to, before a semicolon, `parser_parse_expr` moves over
exactly these and returns the syntax tree of the expression. -/
theorem parse_print (e : Expr) (tokens : List LexToken) (semicolon : LexToken) (later : List LexToken)
    (p : Parser) (n : Nat) (hprint : tokens.map LexToken.key = e.print 0)
    (hsemicolon : semicolon.type = .tSemicolon) (hrest : p.rest = tokens ++ semicolon :: later)
    (hn : tokens.length < n) :
    ∃ node, parserParseExpr n p = .ok node (p.after tokens) ∧ node.erase = e.toNode := by
  have hderives : Derives language .expr tokens [e.toNode] := derives_print e 0 tokens hprint
  have hcloses : semicolon.type.closes = true := by
    rw [hsemicolon]
    rfl
  exact consumes_expr n tokens e.toNode semicolon later hderives hn hcloses p hrest

/-- `(a + b) * c;` -/
def printedProduct : List LexToken :=
  [⟨.tParenOpen, "(", 1, 1, 1, 1⟩, ⟨.tIdentifier, "a", 1, 1, 2, 2⟩, ⟨.tBinaryOperator, "+", 1, 1, 4, 4⟩,
    ⟨.tIdentifier, "b", 1, 1, 6, 6⟩, ⟨.tParenClose, ")", 1, 1, 7, 7⟩, ⟨.tBinaryOperator, "*", 1, 1, 9, 9⟩,
    ⟨.tIdentifier, "c", 1, 1, 11, 11⟩]

theorem parse_print_product : ∃ node,
    parserParseExpr 8 (Parser.init (printedProduct ++ [⟨.tSemicolon, ";", 1, 1, 12, 12⟩]) none) =
      .ok node ((Parser.init (printedProduct ++ [⟨.tSemicolon, ";", 1, 1, 12, 12⟩]) none).after
        printedProduct) ∧
    node.erase = .binaryExpr .unknown .opTimes (.binaryExpr .unknown .opPlus (.identifier .unknown "a")
      (.identifier .unknown "b")) (.identifier .unknown "c") :=
  parse_print (.binary .opTimes (.binary .opPlus (.identifier "a") (.identifier "b")) (.identifier "c"))
    printedProduct ⟨.tSemicolon, ";", 1, 1, 12, 12⟩ [] _ 8 rfl rfl rfl (by decide)

end Blaze
