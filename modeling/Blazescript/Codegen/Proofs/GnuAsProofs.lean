import Mathlib.Data.List.Basic
import Blazescript.Codegen.GnuAs
import Blazescript.Codegen.CompileX8664

/-!
# Proofs: string operands

A string comes back from its operand if it has no backslash. A backslash and what follows it come back as
one byte, so that the bytes are too few.
-/

namespace Blaze

variable {v d rest : List Char} {n : Nat} {c : Char}

/-- A string with a backslash before every double quote. -/
def escapeQuotes (v : List Char) : List Char := v.flatMap fun c => if c = '"' then ['\\', c] else [c]

@[simp] theorem escapeQuotes_nil : escapeQuotes [] = [] := rfl

theorem escapeQuotes_quote (v : List Char) : escapeQuotes ('"' :: v) = '\\' :: '"' :: escapeQuotes v := rfl

theorem escapeQuotes_cons (hc : c ≠ '"') (v : List Char) : escapeQuotes (c :: v) = c :: escapeQuotes v := by
  unfold escapeQuotes
  rw [List.flatMap_cons, if_neg hc]
  rfl

theorem quoteString_eq (string v : List Char) : quoteString string v = string ++ escapeQuotes v := by
  induction v generalizing string with
  | nil => rw [quoteString, escapeQuotes_nil, List.append_nil]
  | cons c v ih =>
    rw [quoteString]
    by_cases hc : c = '"'
    · rw [if_pos hc, ih, hc, escapeQuotes_quote, List.append_assoc]
      rfl
    · rw [if_neg hc, ih, escapeQuotes_cons hc, List.append_assoc]
      rfl

theorem stringOperand_eq (v : List Char) : stringOperand v = '"' :: (escapeQuotes v ++ ['"']) := by
  unfold stringOperand
  rw [quoteString_eq]
  rfl

/-! ## What an escape reads -/

theorem octalEscape_escaped (n number : Nat) (v : List Char) : ∃ w, w.length ≤ v.length ∧
    (octalEscape n number (escapeQuotes v ++ ['"'])).2 = escapeQuotes w ++ ['"'] := by
  induction n generalizing number v with
  | zero => exact ⟨v, Nat.le_refl _, by rw [octalEscape]; simp⟩
  | succ n ih =>
    cases v with
    | nil => exact ⟨[], Nat.le_refl _, rfl⟩
    | cons c v =>
      by_cases hc : c.isDigit = true
      · have hquote : c ≠ '"' := by
          rintro rfl
          cases hc
        obtain ⟨w, hw, hrest⟩ := ih (number * 8 + (c.toNat - 48)) v
        refine ⟨w, Nat.le_succ_of_le hw, ?_⟩
        rw [escapeQuotes_cons hquote, List.cons_append, octalEscape, if_pos hc]
        exact hrest
      · refine ⟨c :: v, Nat.le_refl _, ?_⟩
        by_cases hquote : c = '"'
        · rw [hquote]
          rfl
        · rw [escapeQuotes_cons hquote, List.cons_append, octalEscape, if_neg hc]

theorem hexEscape_escaped (number : Nat) (v : List Char) : ∃ w, w.length ≤ v.length ∧
    (hexEscape number (escapeQuotes v ++ ['"'])).2 = escapeQuotes w ++ ['"'] := by
  induction v generalizing number with
  | nil => exact ⟨[], Nat.le_refl _, rfl⟩
  | cons c v ih =>
    by_cases hquote : c = '"'
    · rw [hquote]
      exact ⟨'"' :: v, Nat.le_refl _, rfl⟩
    · rw [escapeQuotes_cons hquote, List.cons_append, hexEscape]
      cases hexDigit c with
      | some digit =>
        obtain ⟨w, hw, hrest⟩ := ih (number * 16 + digit)
        exact ⟨w, Nat.le_succ_of_le hw, hrest⟩
      | none => exact ⟨c :: v, Nat.le_refl _, by rw [escapeQuotes_cons hquote]; rfl⟩

/-- An escape ends before a character of the string, or at its end. -/
theorem decodeEscape_escaped (v : List Char) : ∃ w, w.length ≤ v.length ∧
    (decodeEscape c (escapeQuotes v ++ ['"'])).2 = escapeQuotes w ++ ['"'] := by
  unfold decodeEscape
  by_cases hdigit : c.isDigit = true
  · rw [if_pos hdigit, octalEscape, if_pos hdigit]
    exact octalEscape_escaped 2 (0 * 8 + (c.toNat - 48)) v
  · rw [if_neg hdigit]
    by_cases hx : c = 'x' ∨ c = 'X'
    · rw [if_pos hx]
      exact hexEscape_escaped 0 v
    · rw [if_neg hx]
      exact ⟨v, Nat.le_refl _, rfl⟩

/-! ## Decoding -/

theorem decodeChars_cons (hquote : c ≠ '"') (hslash : c ≠ '\\') (cs : List Char) :
    decodeChars (n + 1) (c :: cs) = (decodeChars n cs).map fun p => (c :: p.1, p.2) := by
  rw [decodeChars]
  · exact hquote
  · exact fun h _ => hslash h
  · exact fun _ _ h _ => hslash h

theorem decodeChars_escape (cs : List Char) : decodeChars (n + 1) ('\\' :: c :: cs) =
    (decodeChars n (decodeEscape c cs).2).map fun p => ((decodeEscape c cs).1 :: p.1, p.2) := by
  rw [decodeChars]

theorem decodeChars_no_backslash (h : '\\' ∉ v) (hn : (escapeQuotes v).length < n) :
    decodeChars n (escapeQuotes v ++ ['"']) = some (v, []) := by
  induction v generalizing n with
  | nil =>
    obtain ⟨n, rfl⟩ : ∃ k, n = k + 1 := ⟨n - 1, by omega⟩
    rfl
  | cons c v ih =>
    obtain ⟨n, rfl⟩ : ∃ k, n = k + 1 := ⟨n - 1, by omega⟩
    rw [List.mem_cons, not_or] at h
    by_cases hquote : c = '"'
    · rw [hquote] at hn ⊢
      rw [escapeQuotes_quote, List.length_cons, List.length_cons] at hn
      rw [escapeQuotes_quote, List.cons_append, List.cons_append, decodeChars_escape]
      show (decodeChars n (escapeQuotes v ++ ['"'])).map _ = _
      rw [ih h.2 (by omega)]
      rfl
    · rw [escapeQuotes_cons hquote, List.length_cons] at hn
      rw [escapeQuotes_cons hquote, List.cons_append, decodeChars_cons hquote (Ne.symm h.1),
        ih h.2 (by omega)]
      rfl

/-- There are no more bytes than the string has characters, and fewer if it has a backslash. -/
theorem decodeChars_length (h : decodeChars n (escapeQuotes v ++ ['"']) = some (d, rest)) :
    d.length ≤ v.length ∧ ('\\' ∈ v → d.length < v.length) := by
  induction n generalizing v d rest with
  | zero => cases h
  | succ n ih =>
    cases v with
    | nil =>
      cases h
      exact ⟨Nat.le_refl _, fun hmem => absurd hmem List.not_mem_nil⟩
    | cons c v =>
      by_cases hquote : c = '"'
      · subst hquote
        rw [escapeQuotes_quote, List.cons_append, List.cons_append, decodeChars_escape] at h
        obtain ⟨⟨d', rest'⟩, hd, heq⟩ := Option.map_eq_some_iff.mp h
        obtain ⟨hle, hlt⟩ := ih hd
        cases heq
        refine ⟨Nat.succ_le_succ hle, fun hmem => Nat.succ_lt_succ (hlt ?_)⟩
        exact (List.mem_cons.mp hmem).resolve_left (by decide)
      · rw [escapeQuotes_cons hquote, List.cons_append] at h
        by_cases hslash : c = '\\'
        · subst hslash
          cases v with
          | nil =>
            have hnone : ∀ k, decodeChars k [] = none := by
              intro k
              cases k <;> rfl
            rw [escapeQuotes_nil, List.nil_append, decodeChars_escape] at h
            obtain ⟨p, hp, -⟩ := Option.map_eq_some_iff.mp h
            cases (hnone n).symm.trans hp
          | cons e w =>
            by_cases he : e = '"'
            · -- the backslash takes that of the quote, and the quote ends the string
              subst he
              rw [escapeQuotes_quote, List.cons_append, List.cons_append, decodeChars_escape] at h
              obtain ⟨⟨d', rest'⟩, hd, heq⟩ := Option.map_eq_some_iff.mp h
              cases heq
              cases n with
              | zero => cases hd
              | succ n =>
                cases hd
                simp only [List.length_cons, List.length_nil]
                omega
            · rw [escapeQuotes_cons he, List.cons_append, decodeChars_escape] at h
              obtain ⟨w', hw', hrest⟩ := decodeEscape_escaped (c := e) w
              rw [hrest] at h
              obtain ⟨⟨d', rest'⟩, hd, heq⟩ := Option.map_eq_some_iff.mp h
              have hle := (ih hd).1
              cases heq
              simp only [List.length_cons]
              omega
        · rw [decodeChars_cons hquote hslash] at h
          obtain ⟨⟨d', rest'⟩, hd, heq⟩ := Option.map_eq_some_iff.mp h
          obtain ⟨hle, hlt⟩ := ih hd
          cases heq
          refine ⟨Nat.succ_le_succ hle, fun hmem => Nat.succ_lt_succ (hlt ?_)⟩
          exact (List.mem_cons.mp hmem).resolve_left (Ne.symm hslash)

theorem decodeOperand_iff (v : List Char) : decodeOperand (stringOperand v) = some (v, []) ↔ '\\' ∉ v := by
  rw [stringOperand_eq]
  constructor
  · intro h hmem
    have hlt := (decodeChars_length h).2 hmem
    exact Nat.lt_irrefl _ hlt
  · intro h
    refine decodeChars_no_backslash h ?_
    rw [List.length_append]
    exact Nat.lt_succ_self _

/-- The assembler reads a string from its directive as it is if and only if it has no backslash. -/
theorem x8664CompileExpr_string (pos : Pos) (strval : String) (context : CompilationContext) :
    ∃ node label param, x8664CompileExpr (.string pos strval) context =
        .ok node ⟨context.asmData ++ [⟨label, "string", param⟩], context.lblCount + 1⟩ ∧
      (decodeOperand param = some (strval.toList, []) ↔ '\\' ∉ strval.toList) :=
  ⟨_, _, _, rfl, decodeOperand_iff strval.toList⟩

/-- A backslash and a letter become one byte. -/
theorem x8664CompileExpr_backslash : ∃ node label param,
    x8664CompileExpr (.string .unknown "a\\nb") compilationContextCreate =
        .ok node ⟨[⟨label, "string", param⟩], 1⟩ ∧
      decodeOperand param = some (['a', '\n', 'b'], []) ∧
      decodeOperand param ≠ some ("a\\nb".toList, []) :=
  ⟨_, _, _, rfl, by decide, by decide⟩

end Blaze
