import Blazescript.Syntax.Positions
import Blazescript.Syntax.Proofs.LexingProofs

/-!
# Proofs: where the tokens stand

The counters of the lexer are the line and the column after the text it has moved over. A token gets the
line after its lexeme for its start too, which is the line of its first character unless there is a line
break in it.
-/

namespace Blaze

open Running

open Blaze.Lex

variable {before text u r lexeme : List Char} {c : Char} {lex : Lex} {type : LexTokenType} {value : String}
  {spans : List Span} {span : Span} {keys : List Key} {n m : Nat}

/-! ## Lines and columns of a text -/

theorem lineAfter_append (before u : List Char) :
    lineAfter (before ++ u) = lineAfter before + u.countP isLineBreak := by
  unfold lineAfter
  rw [List.countP_append, Nat.add_assoc]

theorem lastLine_concat (before : List Char) (c : Char) :
    lastLine (before ++ [c]) = if isLineBreak c then [] else lastLine before ++ [c] := by
  unfold lastLine
  rw [List.reverse_concat, List.takeWhile_cons]
  by_cases hc : isLineBreak c = true
  · rw [if_pos hc, hc]
    rfl
  · have hfalse : isLineBreak c = false := Bool.eq_false_iff.mpr hc
    rw [if_neg hc, hfalse]
    exact List.reverse_cons

/-- What the counters are after a text. -/
structure Lex.At (lex : Lex) (before : List Char) : Prop where
  line : lex.currentLine = lineAfter before
  column : lex.currentColumn = columnAfter before

theorem isLineBreak_iff : isLineBreak c = true ↔ c = '\r' ∨ c = '\n' := by
  unfold isLineBreak
  rw [Bool.or_eq_true, decide_eq_true_iff, decide_eq_true_iff]

theorem Lex.At.forward (h : lex.At before) (c : Char) : (lex.forward c).At (before ++ [c]) := by
  have hline := h.line
  have hcolumn := h.column
  unfold Lex.forward
  by_cases hc : c = '\r' ∨ c = '\n'
  · have hbreak : isLineBreak c = true := isLineBreak_iff.mpr hc
    rw [if_pos hc]
    refine ⟨?_, ?_⟩
    · show lex.currentLine + 1 = _
      rw [hline, lineAfter_append, List.countP_singleton, hbreak, if_pos rfl]
    · show 1 = _
      unfold columnAfter
      rw [lastLine_concat, if_pos hbreak]
      rfl
  · have hbreak : isLineBreak c = false := Bool.eq_false_iff.mpr fun htrue => hc (isLineBreak_iff.mp htrue)
    rw [if_neg hc]
    refine ⟨?_, ?_⟩
    · show lex.currentLine = _
      rw [hline, lineAfter_append, List.countP_singleton, hbreak]
      rfl
    · show lex.currentColumn + 1 = _
      unfold columnAfter at hcolumn ⊢
      rw [hcolumn, lastLine_concat, hbreak, if_neg Bool.false_ne_true, List.length_append, List.length_singleton,
        Nat.add_assoc]

theorem Lex.At.advance (h : lex.At before) (u : List Char) : (lex.advance u).At (before ++ u) := by
  induction u generalizing lex before with
  | nil =>
    rw [List.append_nil]
    exact h
  | cons c u ih =>
    rw [advance_cons, List.append_cons]
    exact ih (h.forward c)

theorem at_lexInit (filename : String) (buf : List Char) : (lexInit filename buf).At [] := ⟨rfl, rfl⟩

/-! ## Line breaks in lexemes -/

theorem not_lineBreak_of_le (h : 14 ≤ c.toNat) : isLineBreak c = false := by
  refine Bool.eq_false_iff.mpr fun htrue => ?_
  rcases isLineBreak_iff.mp htrue with rfl | rfl
  · exact absurd h (by decide)
  · exact absurd h (by decide)

theorem not_lineBreak_of_isWordChar (h : isWordChar c = true) : isLineBreak c = false := by
  refine Bool.eq_false_iff.mpr fun htrue => ?_
  rcases isLineBreak_iff.mp htrue with rfl | rfl
  · cases h
  · cases h

/-- Only strings have line breaks in them, and those stand between the quotes. -/
theorem IsLexeme.lineBreaks (h : IsLexeme type value lexeme) :
    (∀ c ∈ lexeme, isLineBreak c = false) ∨ type = .tString ∧
      ∃ quote v, lexeme = quote :: (v ++ [quote]) ∧ isLineBreak quote = false := by
  cases h with
  | operator h =>
    have hall : (multicharOperators.all fun l => l.all fun c => !isLineBreak c) = true := by decide
    have hl := List.all_eq_true.mp (List.all_eq_true.mp hall _ h)
    exact .inl fun c hc => by simpa using hl c hc
  | @char c _ h =>
    have hall : (chartokens.all fun p => !isLineBreak p.1) = true := by decide
    have hc := List.all_eq_true.mp hall _ h
    exact .inl (List.forall_mem_singleton.mpr (by simpa using hc))
  | number hne h =>
    refine .inl fun c hc => not_lineBreak_of_le ?_
    have hcode := isDigit_iff.mp (h c hc)
    omega
  | keyword h =>
    obtain ⟨c, cs, hcs, -, hword⟩ := keywords_chars h
    rw [hcs]
    exact .inl fun d hd => not_lineBreak_of_isWordChar (hword d hd)
  | @identifier c cs hc hcs hk =>
    refine .inl (List.forall_mem_cons.mpr ⟨?_, fun d hd => not_lineBreak_of_isWordChar (hcs d hd)⟩)
    exact not_lineBreak_of_isWordChar (isWordChar_letter hc)
  | @string quote v hq hv =>
    refine .inr ⟨rfl, quote, v, rfl, ?_⟩
    rcases hq with rfl | rfl
    · rfl
    · rfl

/-- A lexeme ends with a character that is no line break. -/
theorem IsLexeme.last (h : IsLexeme type value lexeme) :
    ∃ c, lexeme = lexeme.dropLast ++ [c] ∧ isLineBreak c = false := by
  have hlast : lexeme = lexeme.dropLast ++ [lexeme.getLast h.ne_nil] := (List.dropLast_append_getLast h.ne_nil).symm
  refine ⟨_, hlast, ?_⟩
  rcases h.lineBreaks with hall | ⟨-, quote, v, rfl, hquote⟩
  · exact hall _ (List.getLast_mem _)
  · have hgetLast : (quote :: (v ++ [quote])).getLast (List.cons_ne_nil _ _) = quote :=
      List.getLast_append_singleton (quote :: v)
    exact (congrArg isLineBreak hgetLast).trans hquote

/-- The places that the lexer records are right exactly if there is no line break in the lexeme. -/
theorem Span.Recorded.isTrue_iff (h : span.Recorded) :
    span.IsTrue ↔ ∀ c ∈ span.lexeme, isLineBreak c = false := by
  have hcount : span.lexeme.countP isLineBreak = 0 ↔ ∀ c ∈ span.lexeme, isLineBreak c = false := by
    rw [List.countP_eq_zero]
    exact forall₂_congr fun c _ => Bool.eq_false_iff.symm
  have hstart := h.lineStart
  rw [lineAfter_append] at hstart
  rw [← hcount]
  constructor
  · intro htrue
    have hline := htrue.lineStart
    omega
  · intro hzero
    obtain ⟨c, hlexeme, hc⟩ := h.isLexeme.last
    refine ⟨by omega, h.columnStart, ?_, ?_⟩
    · rw [h.lineEnd, hlexeme, ← List.append_assoc, lineAfter_append, List.countP_singleton, hc,
        ← hlexeme]
      rfl
    · rw [h.columnEnd, hlexeme, ← List.append_assoc, ← hlexeme]
      unfold columnAfter
      rw [lastLine_concat, hc, if_neg Bool.false_ne_true, List.length_append, List.length_singleton, Nat.add_assoc]

/-! ## The analysis -/

/-- A gap before a text that is gaps and lexemes. -/
theorem Spans.gap (hnext : nextPiece text = .gap u r) (h : Spans (before ++ u) r spans) : Spans before text spans := by
  rw [(nextPiece_gap hnext).1]
  cases h with
  | done hg => exact .done (gap_append (hnext.trans (by rw [List.append_nil])) hg)
  | unclosed hg hrest =>
    rw [← List.append_assoc]
    exact .unclosed (gap_append hnext hg) hrest
  | @token _ gap lexeme rest t spans hg ht hl h =>
    have hassoc : before ++ u ++ gap = before ++ (u ++ gap) := List.append_assoc before u gap
    rw [hassoc] at h ⊢
    rw [← List.append_assoc u]
    exact .token (gap_append hnext hg) ht hl h

/-- Where the pieces of a text end: at its end, or before a comment that never ends. -/
def IsEnd (r : List Char) : Prop := r = [] ∨ nextPiece r = .unclosed

/-- There is no string at such an end. -/
theorem IsEnd.not_breaksString (hr : IsEnd r) : ¬ BreaksString r := by
  rintro ⟨keys, rest, value, lexeme, after, hp, hnext, -⟩
  rcases hr with rfl | hr
  · cases hp with
    | nil => cases hnext
    | gap h => cases h
    | token h => cases h
  · cases hp with
    | nil => cases hr.symm.trans hnext
    | gap h => cases hr.symm.trans h
    | token h => cases hr.symm.trans h

theorem IsEnd.spans_nil (hr : IsEnd r) (before : List Char) : Spans before r [] := by
  rcases hr with rfl | hr
  · exact .done (.nil [])
  · obtain ⟨cs, rfl, hs⟩ := nextPiece_unclosed hr
    exact .unclosed (.nil _) (splitComment_no_end hs)

/-- The rest of the loop pushes no token. -/
theorem IsEnd.lexLoop_tokens {lex' : Lex} (hr : IsEnd r) (hrest : lex.rest = r) (hn : r.length < n) (hm : r.length < m)
    (h : lexLoop n m lex = .ok () lex') : lex'.tokens = lex.tokens := by
  rcases hr with rfl | hr
  · cases (lexLoop_done hrest (by omega)).symm.trans h
    rfl
  · obtain ⟨cs, hcs, -⟩ := nextPiece_unclosed hr
    have hne : lex.rest ≠ [] := by
      rw [hrest, hcs]
      exact List.cons_ne_nil _ _
    have hsteps : StepsOver (lexStep n) lex (nextPiece lex.rest) := lexStep_stepsOver hne (by rw [hrest]; exact hn)
    rw [hrest, hr] at hsteps
    obtain ⟨mid, -, hstep⟩ := hsteps
    rw [hcs, List.length_cons, List.length_cons] at hm
    obtain ⟨k, rfl⟩ : ∃ k, m = k + 1 := ⟨m - 1, by omega⟩
    rw [lexLoop_succ hne] at h
    rcases hstep with hstep | ⟨hstep, hbuf, htokens, hindex⟩
    · cases (bind_error hstep).symm.trans h
    · have hafter : mid.rest = [] := by
        unfold Lex.rest
        rw [hbuf, hindex]
        exact List.drop_eq_nil_of_le (Nat.le_succ _)
      rw [bind_ok hstep, lexLoop_done hafter (by omega)] at h
      cases h
      exact htokens

theorem breaksString_gap (hnext : nextPiece text = .gap u r) : BreaksString text ↔ BreaksString r := by
  constructor
  · rintro ⟨keys, rest, value, lexeme, after, hp, hstring, hbreak⟩
    cases hp with
    | nil => cases hnext.symm.trans hstring
    | gap h hrest =>
      cases hnext.symm.trans h
      exact ⟨_, rest, value, lexeme, after, hrest, hstring, hbreak⟩
    | token h => cases hnext.symm.trans h
  · rintro ⟨keys, rest, value, lexeme, after, hp, hstring, hbreak⟩
    exact ⟨keys, rest, value, lexeme, after, .gap hnext hp, hstring, hbreak⟩

theorem breaksString_token (hnext : nextPiece text = .token type value lexeme r) :
    BreaksString text ↔ (∃ c ∈ lexeme, isLineBreak c = true) ∨ BreaksString r := by
  constructor
  · rintro ⟨keys, rest, value', lexeme', after, hp, hstring, hbreak⟩
    cases hp with
    | nil =>
      cases hnext.symm.trans hstring
      exact .inl hbreak
    | gap h => cases hnext.symm.trans h
    | token h hrest =>
      cases hnext.symm.trans h
      exact .inr ⟨_, rest, value', lexeme', after, hrest, hstring, hbreak⟩
  · rintro (hbreak | ⟨keys, rest, value', lexeme', after, hp, hstring, hbreak⟩)
    · have htype : type = .tString := by
        rcases (nextPiece_token hnext).1.lineBreaks with hall | ⟨htype, -⟩
        · obtain ⟨c, hc, htrue⟩ := hbreak
          cases (hall c hc).symm.trans htrue
        · exact htype
      subst htype
      exact ⟨[], text, value, lexeme, r, .nil text, hnext, hbreak⟩
    · exact ⟨_, rest, value', lexeme', after, .token hnext hp, hstring, hbreak⟩

/-- The loop pushes a token for each lexeme, with the place it records. -/
theorem lexLoop_spans (hp : Pieces text keys r) (hr : IsEnd r) (hrest : lex.rest = text) (hat : lex.At before)
    (hn : text.length < n) (hm : text.length < m) : ∃ spans, Spans before text spans ∧
      (∀ lex', lexLoop n m lex = .ok () lex' → lex'.tokens = lex.tokens ++ spans.map Span.token) ∧
      (∀ span ∈ spans, span.Recorded) ∧
      ((∃ span ∈ spans, ∃ c ∈ span.lexeme, isLineBreak c = true) ↔ BreaksString text) := by
  induction hp generalizing lex m before with
  | nil rest =>
    refine ⟨[], hr.spans_nil before, fun lex' hok => ?_, fun span hspan => absurd hspan List.not_mem_nil, ?_⟩
    · rw [List.map_nil, List.append_nil]
      exact hr.lexLoop_tokens hrest hn hm hok
    · exact iff_of_false (fun ⟨span, hspan, _⟩ => absurd hspan List.not_mem_nil) hr.not_breaksString
  | @gap text u r rest keys hnext hpieces ih =>
    have htext := (nextPiece_gap hnext).1
    have hne := nextPiece_gap_ne_nil hnext
    have hsteps : StepsOver (lexStep n) lex (nextPiece lex.rest) :=
      lexStep_stepsOver (by rw [hrest, htext]; simp [hne]) (by rw [hrest]; exact hn)
    rw [hrest, hnext] at hsteps
    rw [htext] at hrest hn hm
    obtain ⟨k, hk, hloop⟩ := lexLoop_step hne hrest hm hsteps
    rw [List.length_append] at hn
    obtain ⟨spans, hspans, htokens, hrecorded, hbreaks⟩ :=
      ih hr (rest_advance hrest) (hat.advance u) (by omega) hk
    rw [advance_tokens] at htokens
    exact ⟨spans, hspans.gap hnext, fun lex' hok => htokens lex' (hloop.symm.trans hok), hrecorded,
      hbreaks.trans (breaksString_gap hnext).symm⟩
  | @token text lexeme r rest type value keys hnext hpieces ih =>
    obtain ⟨hlexeme, htext⟩ := nextPiece_token hnext
    have hne := hlexeme.ne_nil
    have hsteps : StepsOver (lexStep n) lex (nextPiece lex.rest) :=
      lexStep_stepsOver (by rw [hrest, htext]; simp [hne]) (by rw [hrest]; exact hn)
    rw [hrest, hnext] at hsteps
    have hlong := nextPiece_longest hnext
    rw [htext] at hrest hn hm hlong
    obtain ⟨k, hk, hloop⟩ := lexLoop_step hne hrest hm hsteps
    rw [List.length_append] at hn
    have hafter : (lex.advance lexeme).At (before ++ lexeme) := hat.advance lexeme
    have hmid : ((lex.advance lexeme).push (lex.tokenOver type value lexeme)).rest = r := rest_advance hrest
    have hmidAt : ((lex.advance lexeme).push (lex.tokenOver type value lexeme)).At (before ++ lexeme) :=
      ⟨hafter.line, hafter.column⟩
    obtain ⟨spans, hspans, htokens, hrecorded, hbreaks⟩ := ih hr hmid hmidAt (by omega) hk
    refine ⟨⟨lex.tokenOver type value lexeme, before, lexeme⟩ :: spans, ?_, fun lex' hok => ?_, ?_, ?_⟩
    · have hnil : before ++ [] ++ lexeme = before ++ lexeme := by rw [List.append_nil]
      rw [← hnil] at hspans
      have hspan : Spans before ([] ++ (lexeme ++ r))
          (⟨lex.tokenOver type value lexeme, before ++ [], lexeme⟩ :: spans) :=
        .token (.nil _) hlexeme hlong hspans
      rw [List.append_nil] at hspan
      rw [htext]
      exact hspan
    · rw [htokens lex' (hloop.symm.trans hok)]
      show (lex.advance lexeme).tokens ++ [lex.tokenOver type value lexeme] ++ spans.map Span.token = _
      rw [advance_tokens, List.append_assoc]
      rfl
    · exact List.forall_mem_cons.mpr ⟨⟨hafter.line, hafter.line, hat.column, hafter.column, hlexeme⟩, hrecorded⟩
    · rw [breaksString_token hnext, ← hbreaks]
      simp only [List.mem_cons, exists_eq_or_imp]

/-- The tokens of an accepted text, and the places of them that the lexer records. -/
theorem lexAnalyze_spans (filename : String) {buf : List Char} (hn : buf.length < n)
    (h : lexAnalyze n (lexInit filename buf) = .ok () lex) :
    ∃ spans eof, lex.tokens = spans.map Span.token ++ [eof] ∧ eof.type = .tEof ∧ Spans [] buf spans ∧
      (∀ span ∈ spans, span.Recorded) ∧
      ((∃ span ∈ spans, ∃ c ∈ span.lexeme, isLineBreak c = true) ↔ BreaksString buf) := by
  obtain ⟨keys, r, hp, hr⟩ : ∃ keys r, Pieces buf keys r ∧ IsEnd r := by
    obtain ⟨keys, r, hp, hnil | hunclosed | ⟨hne, hinvalid⟩⟩ := pieces_total buf
    · exact ⟨keys, r, hp, .inl hnil⟩
    · exact ⟨keys, r, hp, .inr hunclosed⟩
    · obtain ⟨e, lex', herror, -⟩ := lexAnalyze_invalid filename hp hinvalid hne hn
      cases herror.symm.trans h
  obtain ⟨spans, hspans, htokens, hrecorded, hbreaks⟩ :=
    lexLoop_spans hp hr (lexInit_rest filename buf) (at_lexInit filename buf) hn hn
  cases hloop : lexLoop n n (lexInit filename buf) with
  | error e lex' => cases (lexAnalyze_error hloop).symm.trans h
  | ok a lex' =>
    obtain ⟨eof, heof, hok⟩ := lexAnalyze_ok hloop
    cases hok.symm.trans h
    exact ⟨spans, eof, congrArg (· ++ [eof]) (htokens lex' hloop), congrArg Prod.fst heof, hspans, hrecorded, hbreaks⟩

/-- The places of the tokens are those of their lexemes if and only if no string of the text has a line break
in it. -/
theorem token_positions (filename : String) (buf : List Char) (n : Nat) (lex : Lex) (hn : buf.length < n)
    (h : lexAnalyze n (lexInit filename buf) = .ok () lex) :
    ∃ spans eof, lex.tokens = spans.map Span.token ++ [eof] ∧ eof.type = .tEof ∧ Spans [] buf spans ∧
      ((∀ span ∈ spans, span.IsTrue) ↔ ¬ BreaksString buf) := by
  obtain ⟨spans, eof, htokens, heof, hspans, hrecorded, hbreaks⟩ := lexAnalyze_spans filename hn h
  refine ⟨spans, eof, htokens, heof, hspans, ?_⟩
  rw [← hbreaks]
  push Not
  refine forall₂_congr fun span hspan => ((hrecorded span hspan).isTrue_iff).trans ?_
  exact forall₂_congr fun c _ => Bool.eq_false_iff

theorem token_positions_lines : ∃ lex, lexAnalyze 20 (lexInit "main.bl" "var a;\n/*\n*/ a = 1;".toList) = .ok () lex ∧
    ∃ spans eof, lex.tokens = spans.map Span.token ++ [eof] ∧ eof.type = .tEof ∧
      Spans [] "var a;\n/*\n*/ a = 1;".toList spans ∧
      ((∀ span ∈ spans, span.IsTrue) ↔ ¬ BreaksString "var a;\n/*\n*/ a = 1;".toList) :=
  let ⟨lex, hok, _⟩ := exists_ok (p := fun _ => true) (by decide +kernel)
  ⟨lex, hok, token_positions "main.bl" "var a;\n/*\n*/ a = 1;".toList 20 lex (by decide) hok⟩

/-- A string that begins on the first line and ends on the second one is said to begin on the second one. -/
theorem token_positions_string : ∃ lex t eof,
    lexAnalyze 6 (lexInit "main.bl" "'a\nb'".toList) = .ok () lex ∧ commentsClosed "'a\nb'".toList = true ∧
      lex.tokens = [t, eof] ∧ t.lineStart = 2 ∧ Spans [] "'a\nb'".toList [⟨t, [], "'a\nb'".toList⟩] ∧
      ¬ Span.IsTrue ⟨t, [], "'a\nb'".toList⟩ := by
  have hnext : nextPiece "'a\nb'".toList = .token .tString "a\nb" "'a\nb'".toList [] := rfl
  have hspans : Spans [] ([] ++ ("'a\nb'".toList ++ [])) [⟨⟨.tString, "a\nb", 2, 2, 1, 3⟩, [] ++ [], "'a\nb'".toList⟩] :=
    .token (.nil _) (nextPiece_token hnext).1 (nextPiece_longest hnext) (.done (.nil []))
  refine ⟨_, ⟨.tString, "a\nb", 2, 2, 1, 3⟩, ⟨.tEof, "[EOF]", 2, 2, 3, 3⟩, rfl, by decide, rfl, rfl, hspans, ?_⟩
  intro htrue
  have hline : 2 = lineAfter [] := htrue.lineStart
  cases hline

end Blaze
