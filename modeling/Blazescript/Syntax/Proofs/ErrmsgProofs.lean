import Blazescript.Syntax.Errmsg
import Blazescript.Syntax.Proofs.PositionsProofs
import Mathlib.Data.List.Induction

/-!
# Proofs: the line of a token and the carets under it

The loop of the printer passes the lines before that of the token, prints this one, and moves on behind the
character that ends it. It prints the carets when it comes to another character, and has none to come to at the
end of the buffer.
-/

namespace Blaze

variable {before lexeme after pre rest printed : List Char} {span : Span} {c : Char} {line lineStart lineEnd : Nat}

/-! ## The line of a text -/

/-- The lines before the last one of a text. -/
theorem exists_lines_before (before : List Char) : ∃ pre, before = pre ++ lastLine before ∧ lastLine pre = [] := by
  induction before using List.reverseRecOn with
  | nil => exact ⟨[], rfl, rfl⟩
  | append_singleton before c ih =>
    rw [lastLine_concat]
    by_cases hc : isLineBreak c = true
    · refine ⟨before ++ [c], ?_, ?_⟩
      · rw [if_pos hc, List.append_nil]
      · rw [lastLine_concat, if_pos hc]
    · obtain ⟨pre, hpre, hlast⟩ := ih
      refine ⟨pre, ?_, hlast⟩
      rw [if_neg hc, ← List.append_assoc, ← hpre]

theorem lastLine_no_break (before : List Char) : ∀ c ∈ lastLine before, isLineBreak c = false := by
  induction before using List.reverseRecOn with
  | nil => exact fun c hc => absurd hc List.not_mem_nil
  | append_singleton before c ih =>
    rw [lastLine_concat]
    by_cases hc : isLineBreak c = true
    · rw [if_pos hc]
      exact fun d hd => absurd hd List.not_mem_nil
    · rw [if_neg hc]
      exact List.forall_mem_append.mpr ⟨ih, List.forall_mem_singleton.mpr (Bool.eq_false_iff.mpr hc)⟩

theorem lastLine_append (h : ∀ c ∈ rest, isLineBreak c = false) (before : List Char) :
    lastLine (before ++ rest) = lastLine before ++ rest := by
  induction rest using List.reverseRecOn with
  | nil => rw [List.append_nil, List.append_nil]
  | append_singleton rest c ih =>
    obtain ⟨hrest, hc⟩ := List.forall_mem_append.mp h
    rw [← List.append_assoc, lastLine_concat, List.forall_mem_singleton.mp hc, if_neg Bool.false_ne_true, ih hrest,
      List.append_assoc]

/-- A text with nothing after its last line break has a line break in it, or is empty. -/
theorem countP_pos_of_lastLine (hlast : lastLine pre = []) (hne : pre ≠ []) : 0 < pre.countP isLineBreak := by
  by_contra hzero
  have hall : ∀ c ∈ pre, isLineBreak c = false := fun c hc =>
    Bool.eq_false_iff.mpr (List.countP_eq_zero.mp (Nat.eq_zero_of_not_pos hzero) c hc)
  have hwhole : lastLine ([] ++ pre) = [] ++ pre := lastLine_append hall []
  exact hne (hwhole.symm.trans hlast)

theorem lastLine_of_cons (h : lastLine (c :: pre) = []) : lastLine pre = [] := by
  obtain ⟨lines, hlines, -⟩ := exists_lines_before pre
  have hlast : lastLine (c :: lines ++ lastLine pre) = lastLine (c :: lines) ++ lastLine pre :=
    lastLine_append (lastLine_no_break pre) (c :: lines)
  rw [List.cons_append, ← hlines, h] at hlast
  exact (List.append_eq_nil_iff.mp hlast.symm).2

/-! ## The loop of the printer -/

section Loop

variable {colStart colEnd maxSpaces : Nat}

/-- A character on a line before the one that is printed. -/
theorem printSrcLinesFrom_skip (hend : line ≠ lineEnd) (hstart : line ≠ lineStart) (c : Char) (cs : List Char) :
    printSrcLinesFrom lineStart lineEnd colStart colEnd maxSpaces line true (c :: cs) =
      printSrcLinesFrom lineStart lineEnd colStart colEnd maxSpaces (if isLineBreak c then line + 1 else line) true cs := by
  rw [printSrcLinesFrom, if_neg hend]
  dsimp only
  rw [decide_eq_false hstart]
  rfl

/-- The lines before the one that is printed. -/
theorem printSrcLinesFrom_lines (hlast : lastLine pre = []) (hline : line + pre.countP isLineBreak = lineStart)
    (rest : List Char) : printSrcLinesFrom lineStart (lineStart + 1) colStart colEnd maxSpaces line true (pre ++ rest) =
      printSrcLinesFrom lineStart (lineStart + 1) colStart colEnd maxSpaces lineStart true rest := by
  induction pre generalizing line with
  | nil =>
    rw [List.countP_nil, Nat.add_zero] at hline
    rw [hline]
    rfl
  | cons c pre ih =>
    have hpos := countP_pos_of_lastLine hlast (List.cons_ne_nil c pre)
    rw [List.cons_append, printSrcLinesFrom_skip (by omega) (by omega)]
    apply ih (lastLine_of_cons hlast)
    rw [List.countP_cons] at hline
    by_cases hc : isLineBreak c = true
    · rw [if_pos hc] at hline ⊢
      omega
    · rw [if_neg hc] at hline ⊢
      omega

/-- The line that is printed, and then the carets if the loop goes on. -/
theorem printSrcLinesFrom_line (c : Char) (cs : List Char) :
    printSrcLinesFrom line (line + 1) colStart colEnd maxSpaces line true (c :: cs) =
      printSrcLine maxSpaces line (c :: cs) ++
        if 2 ≤ ((c :: cs).dropWhile fun c => !isLineBreak c).length then printCarets maxSpaces colStart colEnd
        else [] := by
  rw [printSrcLinesFrom, if_neg (Nat.ne_of_lt (Nat.lt_succ_self line))]
  dsimp only
  rw [decide_eq_true rfl, Bool.or_true, if_pos rfl]
  congr 1
  show printSrcLinesFrom _ _ _ _ _ (if (((c :: cs).dropWhile fun c => !isLineBreak c).head?.any isLineBreak) = true
    then line + 1 else line) false (((c :: cs).dropWhile fun c => !isLineBreak c).tail) = _
  cases hdrop : (c :: cs).dropWhile fun c => !isLineBreak c with
  | nil => rw [List.tail_nil, printSrcLinesFrom, if_neg (by simp)]
  | cons b rest =>
    have hb : isLineBreak b = true := by
      have hhead := List.head?_dropWhile_not (fun c => !isLineBreak c) (c :: cs)
      rw [hdrop] at hhead
      simpa using hhead
    rw [List.head?_cons, Option.any_some, if_pos hb, List.tail_cons]
    cases rest with
    | nil => rw [printSrcLinesFrom, if_neg (by simp)]
    | cons d rest => rw [printSrcLinesFrom, if_pos rfl, if_pos (by simp)]

end Loop

/-! ## What is printed -/

theorem printedText_append (out out' : List Printed) :
    printedText (out ++ out') = printedText out ++ printedText out' := List.filterMap_append

theorem printedText_escape (code : String) (out : List Printed) :
    printedText (.escape code :: out) = printedText out := rfl

theorem printedText_char (c : Char) (out : List Printed) : printedText (.char c :: out) = c :: printedText out := rfl

theorem printedText_nil : printedText [] = [] := rfl

theorem printedText_chars (cs : List Char) : printedText (printChars cs) = cs := by
  induction cs with
  | nil => rfl
  | cons c cs ih => exact congrArg (c :: ·) ih

theorem printedText_string (s : String) : printedText (printString s) = s.toList := printedText_chars s.toList

theorem printedText_spaces (n : Nat) : printedText (printSpaces n) = List.replicate n ' ' := printedText_chars _

theorem printedText_srcLine (maxSpaces line : Nat) (rest : List Char) :
    printedText (printSrcLine maxSpaces line rest) = lineMargin (maxSpaces - Nat.log 10 line) line ++
      (rest.takeWhile fun c => !isLineBreak c) ++ ['\n'] := by
  unfold printSrcLine
  rw [printedText_append, printedText_append, printedText_append, printedText_spaces, printedText_string,
    printedText_chars]
  rfl

/-- The columns up to an end, with spaces before the start. -/
theorem map_caret (start length : Nat) : ((List.range (start + length)).map fun i => if i ≥ start then '^' else ' ') =
    List.replicate start ' ' ++ List.replicate length '^' := by
  induction length with
  | zero =>
    rw [Nat.add_zero, List.replicate_zero, List.append_nil, List.eq_replicate_iff]
    refine ⟨by rw [List.length_map, List.length_range], fun c hc => ?_⟩
    obtain ⟨i, hi, rfl⟩ := List.mem_map.mp hc
    exact if_neg (Nat.not_le_of_lt (List.mem_range.mp hi))
  | succ length ih =>
    rw [← Nat.add_assoc, List.range_succ, List.map_append, ih, List.replicate_succ', List.append_assoc,
      List.map_singleton, if_pos (Nat.le_add_right start length)]

theorem printedText_carets (maxSpaces start length : Nat) :
    printedText (printCarets maxSpaces start (start + length)) =
      List.replicate (maxSpaces + 3 + start) ' ' ++ List.replicate length '^' ++ ['\n'] := by
  unfold printCarets
  rw [printedText_append, printedText_spaces, printedText_escape, printedText_append, printedText_chars, map_caret,
    printedText_escape, printedText_char, printedText_nil, List.replicate_add (maxSpaces + 3) start]
  simp only [List.append_assoc]

/-- A number has one more digit than its decimal logarithm says. -/
theorem length_toString_nat (hline : 0 < line) : (toString line).toList.length = Nat.log 10 line + 1 := by
  have hdigits (k : Nat) (hk : 0 < k) : (toString line).toList.length ≤ k ↔ line < 10 ^ k := by
    rw [String.length_toList]
    exact Nat.length_repr_le_iff hk
  apply Nat.le_antisymm
  · exact (hdigits _ (Nat.succ_pos _)).mpr (Nat.lt_pow_succ_log_self (by omega) line)
  · by_contra hlt
    have hpos : 0 < (toString line).toList.length := by
      rw [String.length_toList]
      exact Nat.length_repr_pos
    have hle := (hdigits (Nat.log 10 line) (by omega)).mp (by omega)
    exact absurd hle (Nat.not_lt_of_le (Nat.pow_log_le_self 10 (Nat.ne_of_gt hline)))

/-! ## The places of the tokens -/

theorem Spans.exists_after {text : List Char} {spans : List Span} (h : Spans before text spans) :
    ∀ span ∈ spans, ∃ after, before ++ text = span.before ++ (span.lexeme ++ after) := by
  induction h with
  | done => exact fun span hspan => absurd hspan List.not_mem_nil
  | unclosed => exact fun span hspan => absurd hspan List.not_mem_nil
  | @token before gap lexeme rest t spans hg ht hl h ih =>
    refine List.forall_mem_cons.mpr ⟨⟨rest, (List.append_assoc before gap (lexeme ++ rest)).symm⟩, fun span hspan => ?_⟩
    obtain ⟨after, hafter⟩ := ih span hspan
    refine ⟨after, ?_⟩
    rw [← hafter, List.append_assoc, List.append_assoc]

theorem lineAfter_pos (before : List Char) : 0 < lineAfter before := Nat.lt_add_right _ Nat.one_pos

/-- The source lines that are printed for a lexeme in a line. -/
theorem printedText_srcLines (hlexeme : ∀ c ∈ lexeme, isLineBreak c = false) (hne : lexeme ≠ []) (after : List Char) :
    printedText (errmsgPrintFormattedSrcLines (lineAfter before) (lineAfter before + 1) (columnAfter before)
        (columnAfter (before ++ lexeme)) (before ++ (lexeme ++ after))) =
      lineMargin (3 + Nat.log 10 (lineAfter before + 1) - Nat.log 10 (lineAfter before)) (lineAfter before) ++
          (lastLine before ++ (lexeme ++ after.takeWhile fun c => !isLineBreak c)) ++ ['\n'] ++
        if 2 ≤ (after.dropWhile fun c => !isLineBreak c).length then
          List.replicate (3 + Nat.log 10 (lineAfter before + 1) + 3 + columnAfter before) ' ' ++
            List.replicate lexeme.length '^' ++ ['\n']
        else [] := by
  obtain ⟨pre, hpre, hlast⟩ := exists_lines_before before
  have hcount : 1 + pre.countP isLineBreak = lineAfter before := by
    unfold lineAfter
    have hzero : (lastLine before).countP isLineBreak = 0 :=
      List.countP_eq_zero.mpr fun c hc => Bool.eq_false_iff.mp (lastLine_no_break before c hc)
    rw [congrArg (List.countP isLineBreak) hpre, List.countP_append, hzero, Nat.add_zero]
  have hpass : ∀ c ∈ lastLine before ++ lexeme, (!isLineBreak c) = true := by
    intro c hc
    rcases List.mem_append.mp hc with hc | hc
    · rw [lastLine_no_break before c hc]
      rfl
    · rw [hlexeme c hc]
      rfl
  have hcolumn : columnAfter (before ++ lexeme) = columnAfter before + lexeme.length := by
    unfold columnAfter
    rw [lastLine_append hlexeme, List.length_append, Nat.add_assoc]
  obtain ⟨c, cs, hcs⟩ : ∃ c cs, lastLine before ++ (lexeme ++ after) = c :: cs := by
    apply List.exists_cons_of_ne_nil
    exact List.append_ne_nil_of_right_ne_nil _ (List.append_ne_nil_of_left_ne_nil hne _)
  have hdrop : (c :: cs).dropWhile (fun c => !isLineBreak c) = after.dropWhile fun c => !isLineBreak c := by
    rw [← hcs, ← List.append_assoc, List.dropWhile_append_of_pos hpass]
  have htake : (c :: cs).takeWhile (fun c => !isLineBreak c) =
      lastLine before ++ (lexeme ++ after.takeWhile fun c => !isLineBreak c) := by
    rw [← hcs, ← List.append_assoc, List.takeWhile_append_of_pos hpass, List.append_assoc]
  have hbuf : before ++ (lexeme ++ after) = pre ++ (c :: cs) := by
    rw [← hcs, ← List.append_assoc pre, ← hpre]
  unfold errmsgPrintFormattedSrcLines
  rw [hbuf, printSrcLinesFrom_lines hlast hcount, printSrcLinesFrom_line, printedText_append, printedText_srcLine, htake,
    hdrop, hcolumn]
  by_cases hlong : 2 ≤ (after.dropWhile fun c => !isLineBreak c).length
  · rw [if_pos hlong, if_pos hlong, printedText_carets]
  · rw [if_neg hlong, if_neg hlong, printedText_nil]

/-- The width of the margin. -/
theorem length_lineMargin (hline : 0 < line) (indent : Nat) :
    (lineMargin indent line).length = indent + Nat.log 10 line + 4 := by
  unfold lineMargin
  rw [List.length_append, List.length_replicate, String.toList_append, List.length_append, length_toString_nat hline]
  exact (Nat.add_assoc indent _ 4).symm

/-- A margin has as many line feeds as the number of its line. -/
theorem count_lineMargin (indent : Nat) : (lineMargin indent line).count '\n' = (lineMargin 0 line).count '\n' := by
  unfold lineMargin
  rw [List.count_append, List.count_append, List.count_replicate, List.count_replicate]
  rfl

/-- The carets are printed exactly if something comes after the line break that ends the line. -/
theorem isPointedAt_iff {buf : List Char} (hrecorded : span.Recorded) (hbuf : buf = span.before ++ (span.lexeme ++ after))
    (hlexeme : ∀ c ∈ span.lexeme, isLineBreak c = false) (filename msg : String) :
    span.IsPointedAt filename buf msg after ↔ 2 ≤ (after.dropWhile fun c => !isLineBreak c).length := by
  have hne := hrecorded.isLexeme.ne_nil
  have htrue := hrecorded.isTrue_iff.mpr hlexeme
  have hlineEnd : span.token.lineEnd = lineAfter span.before :=
    (hrecorded.lineEnd.trans hrecorded.lineStart.symm).trans htrue.lineStart
  unfold Span.IsPointedAt printSyntaxError errmsgPrintFormatted
  rw [printedText_append, hbuf, htrue.lineStart, hlineEnd, hrecorded.columnStart, hrecorded.columnEnd,
    printedText_srcLines hlexeme hne after]
  constructor
  · rintro ⟨printed, hprinted, indent, hunderlined⟩
    by_contra hshort
    have hsame := (List.append_cancel_left hprinted).trans hunderlined
    have hcount := congrArg (List.count '\n') hsame
    rw [if_neg hshort] at hcount
    simp only [List.count_append, count_lineMargin (3 + _ - _), count_lineMargin indent, List.count_nil,
      List.count_singleton_self] at hcount
    omega
  · intro hlong
    refine ⟨_, rfl, 3 + Nat.log 10 (lineAfter span.before + 1) - Nat.log 10 (lineAfter span.before), ?_⟩
    have hlog : Nat.log 10 (lineAfter span.before) ≤ Nat.log 10 (lineAfter span.before + 1) :=
      Nat.log_mono_right (Nat.le_succ _)
    have hwidth : 3 + Nat.log 10 (lineAfter span.before + 1) + 3 + columnAfter span.before =
        (lineMargin (3 + Nat.log 10 (lineAfter span.before + 1) - Nat.log 10 (lineAfter span.before))
          (lineAfter span.before)).length + (lastLine span.before).length := by
      rw [length_lineMargin (lineAfter_pos span.before)]
      unfold columnAfter
      omega
    rw [if_pos hlong, hwidth]

/-- An error at a token that lies on one line is printed with the line of the token and carets under the token,
if and only if the buffer goes on behind the line break that ends the line. -/
theorem caret_points (filename : String) (buf : List Char) (n : Nat) (lex : Lex) (hn : buf.length < n)
    (h : lexAnalyze n (lexInit filename buf) = .ok () lex) :
    ∃ spans eof, lex.tokens = spans.map Span.token ++ [eof] ∧ eof.type = .tEof ∧ Spans [] buf spans ∧
      ∀ span ∈ spans, (∀ c ∈ span.lexeme, isLineBreak c = false) →
        ∃ after, buf = span.before ++ (span.lexeme ++ after) ∧
          ∀ msg, span.IsPointedAt filename buf msg after ↔ 2 ≤ (after.dropWhile fun c => !isLineBreak c).length := by
  obtain ⟨spans, eof, htokens, heof, hspans, hrecorded, -⟩ := lexAnalyze_spans filename hn h
  refine ⟨spans, eof, htokens, heof, hspans, fun span hspan hlexeme => ?_⟩
  obtain ⟨after, hafter⟩ := hspans.exists_after span hspan
  exact ⟨after, hafter, isPointedAt_iff (hrecorded span hspan) hafter hlexeme filename⟩

theorem caret_points_lines : ∃ lex, lexAnalyze 20 (lexInit "main.bl" "var a;\n1 2;\n\n".toList) = .ok () lex ∧
    ∃ spans eof, lex.tokens = spans.map Span.token ++ [eof] ∧ eof.type = .tEof ∧
      Spans [] "var a;\n1 2;\n\n".toList spans ∧
      ∀ span ∈ spans, (∀ c ∈ span.lexeme, isLineBreak c = false) →
        ∃ after, "var a;\n1 2;\n\n".toList = span.before ++ (span.lexeme ++ after) ∧
          ∀ msg, span.IsPointedAt "main.bl" "var a;\n1 2;\n\n".toList msg after ↔
            2 ≤ (after.dropWhile fun c => !isLineBreak c).length :=
  let ⟨lex, hok, _⟩ := exists_ok (p := fun _ => true) (by decide +kernel)
  ⟨lex, hok, caret_points "main.bl" "var a;\n1 2;\n\n".toList 20 lex (by decide) hok⟩

/-- The error at a parenthesis on the last line of the buffer is printed without carets. -/
theorem caret_points_end : ∃ lex t eof, lexAnalyze 2 (lexInit "main.bl" ")".toList) = .ok () lex ∧
    lex.tokens = [t, eof] ∧ Spans [] ")".toList [⟨t, [], ")".toList⟩] ∧ (∀ c ∈ ")".toList, isLineBreak c = false) ∧
      ¬ Span.IsPointedAt ⟨t, [], ")".toList⟩ "main.bl" ")".toList
        ("unexpected token ')' (" ++ lexTokenToStr .tParenClose ++ ")") [] := by
  have hnext : nextPiece ")".toList = .token .tParenClose ")" ")".toList [] := rfl
  have hlexeme : ∀ c ∈ ")".toList, isLineBreak c = false := List.forall_mem_singleton.mpr rfl
  have hspans : Spans [] ([] ++ (")".toList ++ [])) [⟨⟨.tParenClose, ")", 1, 1, 1, 2⟩, [] ++ [], ")".toList⟩] :=
    .token (.nil _) (nextPiece_token hnext).1 (nextPiece_longest hnext) (.done (.nil []))
  have hrecorded : Span.Recorded ⟨⟨.tParenClose, ")", 1, 1, 1, 2⟩, [], ")".toList⟩ :=
    ⟨rfl, rfl, rfl, rfl, (nextPiece_token hnext).1⟩
  refine ⟨_, ⟨.tParenClose, ")", 1, 1, 1, 2⟩, ⟨.tEof, "[EOF]", 1, 1, 2, 2⟩, rfl, rfl, hspans, hlexeme, ?_⟩
  intro hpointed
  have hlong := (isPointedAt_iff hrecorded (show ")".toList = [] ++ (")".toList ++ []) from rfl) hlexeme "main.bl" _).mp hpointed
  exact absurd hlong (Nat.not_succ_le_zero 1)

end Blaze
