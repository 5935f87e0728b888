import Blazescript.Syntax.Proofs.LexerProofs

/-!
# Proofs: lexing

The loop goes from piece to piece. So the tokens are the lexemes of the text, printed tokens come back, and
only a comment without an end takes the lexer out of its buffer.
-/

namespace Blaze

open Running

open Blaze.Lex

variable {lex lex' : Lex} {text u r : List Char} {keys : List Key} {filename : String} {buf : List Char}
  {n m : Nat}

/-! ## The loop -/

/-- From one lex to another tokens of these keys have been pushed. -/
structure Scans (lex lex' : Lex) (keys : List Key) : Prop where
  buf : lex'.buf = lex.buf
  pastEnd : lex'.pastEnd = lex.pastEnd
  index : lex'.index + lex'.rest.length = lex.index + lex.rest.length
  tokens : ∃ ts, lex'.tokens = lex.tokens ++ ts ∧ ts.map LexToken.key = keys

theorem Scans.refl (lex : Lex) : Scans lex lex [] := ⟨rfl, rfl, rfl, [], by simp, rfl⟩

theorem Scans.trans {mid : Lex} {keys' : List Key} (h : Scans lex mid keys) (h' : Scans mid lex' keys') :
    Scans lex lex' (keys ++ keys') := by
  obtain ⟨ts, htokens, hkeys⟩ := h.tokens
  obtain ⟨ts', htokens', hkeys'⟩ := h'.tokens
  refine ⟨h'.buf.trans h.buf, h'.pastEnd.trans h.pastEnd, h'.index.trans h.index, ts ++ ts', ?_, ?_⟩
  · rw [htokens', htokens, List.append_assoc]
  · rw [List.map_append, hkeys, hkeys']

theorem scans_advance (h : lex.rest = u ++ r) : Scans lex (lex.advance u) [] := by
  refine ⟨advance_buf, advance_pastEnd, ?_, [], by rw [advance_tokens, List.append_nil], rfl⟩
  rw [rest_advance h, advance_index, h, List.length_append]
  omega

theorem scans_push (lex : Lex) (t : LexToken) : Scans lex (lex.push t) [t.key] :=
  ⟨rfl, rfl, rfl, [t], rfl, rfl⟩

theorem lexLoop_succ (hne : lex.rest ≠ []) :
    lexLoop n (m + 1) lex = (do lexStep n; lexLoop n m : LexM Unit) lex := by
  have hvalue : lex.hasValue = true := by
    rw [hasValue_eq, List.isEmpty_eq_false_iff.mpr hne]
    rfl
  rw [lexLoop, bind_ok lexM_get, hvalue, if_pos rfl]

/-- An iteration that succeeds, with the bound for the text after it. -/
theorem lexLoop_step {mid : Lex} (hne : u ≠ []) (hrest : lex.rest = u ++ r) (hm : (u ++ r).length < m)
    (hstep : lexStep n lex = .ok () mid) :
    ∃ k, r.length < k ∧ lexLoop n m lex = lexLoop n k mid := by
  have hpos := List.length_pos_of_ne_nil hne
  rw [List.length_append] at hm
  obtain ⟨k, rfl⟩ : ∃ k, m = k + 1 := ⟨m - 1, by omega⟩
  refine ⟨k, by omega, ?_⟩
  rw [lexLoop_succ (by rw [hrest]; exact List.append_ne_nil_of_left_ne_nil hne r)]
  exact bind_ok hstep

/-- The loop goes over the pieces of the text ahead. -/
theorem lexLoop_pieces (hp : Pieces text keys r) (hrest : lex.rest = text) (hn : text.length < n)
    (hm : text.length < m) : ∃ lex' m', Scans lex lex' keys ∧ lex'.rest = r ∧ r.length < n ∧ r.length < m' ∧
      lexLoop n m lex = lexLoop n m' lex' := by
  induction hp generalizing lex m with
  | nil rest => exact ⟨lex, m, .refl lex, hrest, hn, hm, rfl⟩
  | @gap text u r rest keys hnext hpieces ih =>
    have htext := (nextPiece_gap hnext).1
    have hne := nextPiece_gap_ne_nil hnext
    have hsteps : StepsOver (lexStep n) lex (nextPiece lex.rest) :=
      lexStep_stepsOver (by rw [hrest, htext]; simp [hne]) (by rw [hrest]; exact hn)
    rw [hrest, hnext] at hsteps
    rw [htext] at hrest hn hm
    obtain ⟨k, hk, hloop⟩ := lexLoop_step hne hrest hm hsteps
    rw [List.length_append] at hn
    obtain ⟨lex', m', hscans, hend, hn', hm', hrun⟩ := ih (rest_advance hrest) (by omega) hk
    exact ⟨lex', m', (scans_advance hrest).trans hscans, hend, hn', hm', hloop.trans hrun⟩
  | @token text lexeme r rest type value keys hnext hpieces ih =>
    obtain ⟨hlexeme, htext⟩ := nextPiece_token hnext
    have hne := hlexeme.ne_nil
    have hsteps : StepsOver (lexStep n) lex (nextPiece lex.rest) :=
      lexStep_stepsOver (by rw [hrest, htext]; simp [hne]) (by rw [hrest]; exact hn)
    rw [hrest, hnext] at hsteps
    rw [htext] at hrest hn hm
    obtain ⟨k, hk, hloop⟩ := lexLoop_step hne hrest hm hsteps
    rw [List.length_append] at hn
    have hmid : ((lex.advance lexeme).push (lex.tokenOver type value lexeme)).rest = r := rest_advance hrest
    obtain ⟨lex', m', hscans, hend, hn', hm', hrun⟩ := ih hmid (by omega) hk
    have hfirst := (scans_advance hrest).trans (scans_push _ (lex.tokenOver type value lexeme))
    exact ⟨lex', m', hfirst.trans hscans, hend, hn', hm', hloop.trans hrun⟩

/-- What the loop comes to: the end of the text, or the first thing that is no gap and no lexeme. -/
theorem pieces_total (text : List Char) : ∃ keys r, Pieces text keys r ∧
    (r = [] ∨ nextPiece r = .unclosed ∨ r ≠ [] ∧ nextPiece r = .invalid) := by
  induction hlen : text.length using Nat.strong_induction_on generalizing text with
  | _ len ih =>
    subst hlen
    cases hnext : nextPiece text with
    | gap u r =>
      have hpos := List.length_pos_of_ne_nil (nextPiece_gap_ne_nil hnext)
      have hlen := congrArg List.length (nextPiece_gap hnext).1
      rw [List.length_append] at hlen
      obtain ⟨keys, rest, hpieces, hend⟩ := ih r.length (by omega) r rfl
      exact ⟨keys, rest, .gap hnext hpieces, hend⟩
    | token type value lexeme r =>
      obtain ⟨hlexeme, htext⟩ := nextPiece_token hnext
      have hpos := List.length_pos_of_ne_nil hlexeme.ne_nil
      have hlen := congrArg List.length htext
      rw [List.length_append] at hlen
      obtain ⟨keys, rest, hpieces, hend⟩ := ih r.length (by omega) r rfl
      exact ⟨_, rest, .token hnext hpieces, hend⟩
    | unclosed => exact ⟨[], text, .nil text, .inr (.inl hnext)⟩
    | invalid =>
      by_cases hne : text = []
      · exact ⟨[], text, .nil text, .inl hne⟩
      · exact ⟨[], text, .nil text, .inr (.inr ⟨hne, hnext⟩)⟩

/-! ## The analysis -/

theorem lexLoop_done (h : lex.rest = []) (hm : 0 < m) : lexLoop n m lex = .ok () lex := by
  obtain ⟨m, rfl⟩ : ∃ k, m = k + 1 := ⟨m - 1, by omega⟩
  have hvalue : lex.hasValue = false := by
    rw [hasValue_eq, h]
    rfl
  rw [lexLoop, bind_ok lexM_get, hvalue]
  rfl

theorem lexAnalyze_ok (hloop : lexLoop n n (lexInit filename buf) = .ok () lex) : ∃ eof : LexToken,
    eof.key = (.tEof, "[EOF]") ∧ lexAnalyze n (lexInit filename buf) = .ok () (lex.push eof) := by
  have hend : lexAnalyze n (lexInit filename buf) =
      lexTokensArrayPush .tEof "[EOF]" lex.currentColumn lex := by
    unfold lexAnalyze
    rw [bind_ok hloop]
    exact bind_ok lexM_get
  rw [lexTokensArrayPush_eq] at hend
  exact ⟨_, rfl, hend⟩

theorem lexAnalyze_error {e : LexError} (hloop : lexLoop n n (lexInit filename buf) = .error e lex) :
    lexAnalyze n (lexInit filename buf) = .error e lex := by
  unfold lexAnalyze
  exact bind_error hloop

theorem lexInit_rest (filename : String) (buf : List Char) : (lexInit filename buf).rest = buf := rfl

/-- Where the pieces come to the end of the text the analysis succeeds. -/
theorem lexAnalyze_pieces (filename : String) (hp : Pieces buf keys []) (hn : buf.length < n) : ∃ lex ts eof,
    lexAnalyze n (lexInit filename buf) = .ok () lex ∧ lex.tokens = ts ++ [eof] ∧
      ts.map LexToken.key = keys ∧ eof.key = (.tEof, "[EOF]") ∧ lex.index = buf.length ∧
      lex.pastEnd = false := by
  obtain ⟨lex, m, hscans, hend, -, hm, hrun⟩ := lexLoop_pieces hp (lexInit_rest filename buf) hn hn
  rw [lexLoop_done hend hm] at hrun
  obtain ⟨eof, heof, hanalyze⟩ := lexAnalyze_ok hrun
  obtain ⟨ts, htokens, hkeys⟩ := hscans.tokens
  refine ⟨lex.push eof, ts, eof, hanalyze, ?_, hkeys, heof, ?_, hscans.pastEnd⟩
  · show lex.tokens ++ [eof] = _
    rw [htokens]
    rfl
  · have hindex := hscans.index
    rw [hend, lexInit_rest, List.length_nil] at hindex
    exact hindex.trans (Nat.zero_add _)

/-- A comment without an end takes the analysis behind the buffer. -/
theorem lexAnalyze_unclosed (filename : String) (hp : Pieces buf keys r) (hr : nextPiece r = .unclosed) (hn : buf.length < n) :
    ∃ lex, lex.pastEnd = true ∧ (lexAnalyze n (lexInit filename buf) = .error .undefined lex ∨
      lexAnalyze n (lexInit filename buf) = .ok () lex ∧ lex.index = buf.length + 1) := by
  obtain ⟨lex, m, hscans, hend, hn', hm, hrun⟩ := lexLoop_pieces hp (lexInit_rest filename buf) hn hn
  obtain ⟨cs, hcs, -⟩ := nextPiece_unclosed hr
  have hne : lex.rest ≠ [] := by
    rw [hend, hcs]
    exact List.cons_ne_nil _ _
  have hsteps : StepsOver (lexStep n) lex (nextPiece lex.rest) :=
    lexStep_stepsOver hne (by rw [hend]; exact hn')
  rw [hend, hr] at hsteps
  obtain ⟨lex', hpast, hstep⟩ := hsteps
  rw [hcs, List.length_cons, List.length_cons] at hm
  obtain ⟨k, rfl⟩ : ∃ k, m = k + 1 := ⟨m - 1, by omega⟩
  rw [lexLoop_succ hne] at hrun
  rcases hstep with hstep | ⟨hstep, hbuf, -, hindex⟩
  · rw [bind_error hstep] at hrun
    exact ⟨lex', hpast, .inl (lexAnalyze_error hrun)⟩
  · have hafter : lex'.rest = [] := by
      unfold Lex.rest
      rw [hbuf, hindex]
      exact List.drop_eq_nil_of_le (Nat.le_succ _)
    rw [bind_ok hstep, lexLoop_done hafter (by omega)] at hrun
    obtain ⟨eof, -, hanalyze⟩ := lexAnalyze_ok hrun
    refine ⟨lex'.push eof, hpast, .inr ⟨hanalyze, ?_⟩⟩
    rw [show (lex'.push eof).index = lex'.index from rfl, hindex, hscans.buf]
    rfl

/-- A place that begins no piece ends the analysis with an error in the text. -/
theorem lexAnalyze_invalid (filename : String) (hp : Pieces buf keys r) (hr : nextPiece r = .invalid) (hne : r ≠ [])
    (hn : buf.length < n) : ∃ e lex, lexAnalyze n (lexInit filename buf) = .error e lex ∧ e.isSyntax ∧
      lex.index ≤ buf.length ∧ lex.pastEnd = false := by
  obtain ⟨lex, m, hscans, hend, hn', hm, hrun⟩ := lexLoop_pieces hp (lexInit_rest filename buf) hn hn
  have hsteps : StepsOver (lexStep n) lex (nextPiece lex.rest) :=
    lexStep_stepsOver (by rw [hend]; exact hne) (by rw [hend]; exact hn')
  rw [hend, hr] at hsteps
  obtain ⟨e, lex', hstep, hsyn, hbuf, hpast, hindex⟩ := hsteps
  obtain ⟨k, rfl⟩ : ∃ k, m = k + 1 := ⟨m - 1, by omega⟩
  rw [lexLoop_succ (by rw [hend]; exact hne), bind_error hstep] at hrun
  refine ⟨e, lex', lexAnalyze_error hrun, hsyn, ?_, hpast.trans hscans.pastEnd⟩
  rw [hscans.buf] at hindex
  exact hindex

theorem Pieces.closed (hp : Pieces text keys r) : closedFrom .code text = closedFrom .code r := by
  induction hp with
  | nil rest => rfl
  | gap hnext hpieces ih => exact (closedFrom_gap hnext).trans ih
  | token hnext hpieces ih => exact (closedFrom_token hnext).trans ih

/-- A text that is accepted with its comments closed is all pieces. -/
theorem pieces_of_ok (hn : buf.length < n) (h : lexAnalyze n (lexInit filename buf) = .ok () lex)
    (hc : commentsClosed buf = true) : ∃ keys, Pieces buf keys [] := by
  obtain ⟨keys, r, hp, rfl | hr | ⟨hne, hr⟩⟩ := pieces_total buf
  · exact ⟨keys, hp⟩
  · have hfalse := hp.closed.trans (closedFrom_unclosed hr)
    cases hfalse.symm.trans hc
  · obtain ⟨e, lex', herror, -⟩ := lexAnalyze_invalid filename hp hr hne hn
    cases herror.symm.trans h

/-- What holds of the lex in which an analysis has been found to succeed. -/
theorem exists_ok {x : EStateM.Result LexError Lex Unit} {p : Lex → Bool}
    (h : (match x with | .ok _ lex => p lex | .error _ _ => false) = true) :
    ∃ lex, x = .ok () lex ∧ p lex = true := by
  cases x with
  | ok a lex => exact ⟨lex, rfl, h⟩
  | error e lex => cases h

/-- An accepted text with its comments closed is the lexemes of its tokens, each the longest at its place,
with gaps between them. -/
theorem lexAnalyze_lossless (filename : String) (buf : List Char) (n : Nat) (lex : Lex) (hn : buf.length < n)
    (h : lexAnalyze n (lexInit filename buf) = .ok () lex) (hc : commentsClosed buf = true) :
    ∃ ts eof, lex.tokens = ts ++ [eof] ∧ eof.type = .tEof ∧ Lexes buf ts := by
  obtain ⟨keys, hp⟩ := pieces_of_ok hn h hc
  obtain ⟨lex', ts, eof, hok, htokens, hkeys, heof, -⟩ := lexAnalyze_pieces filename hp hn
  cases hok.symm.trans h
  exact ⟨ts, eof, htokens, congrArg Prod.fst heof, hp.lexes hkeys⟩

/-- An operator of three characters, before one of one. -/
theorem lexAnalyze_lossless_operators : ∃ lex,
    lexAnalyze 10 (lexInit "main.bl" "a====b//c".toList) = .ok () lex ∧
      ∃ ts eof, lex.tokens = ts ++ [eof] ∧ eof.type = .tEof ∧ Lexes "a====b//c".toList ts :=
  let ⟨lex, hok, _⟩ := exists_ok (p := fun _ => true) (by decide +kernel)
  ⟨lex, hok, lexAnalyze_lossless "main.bl" "a====b//c".toList 10 lex (by decide) hok (by decide)⟩

/-- The tokens of an accepted text with its comments closed come back when they have been printed. -/
theorem lexAnalyze_print (filename : String) (buf : List Char) (n : Nat) (lex : Lex) (hn : buf.length < n)
    (h : lexAnalyze n (lexInit filename buf) = .ok () lex) (hc : commentsClosed buf = true)
    (filename' : String) (m : Nat)
    (hm : (printTokens ((lex.tokens.filter (·.type ≠ .tEof)).map LexToken.key)).length < m) :
    ∃ lex', lexAnalyze m (lexInit filename'
        (printTokens ((lex.tokens.filter (·.type ≠ .tEof)).map LexToken.key))) = .ok () lex' ∧
      lex'.tokens.map LexToken.key = lex.tokens.map LexToken.key := by
  obtain ⟨keys, hp⟩ := pieces_of_ok hn h hc
  obtain ⟨lex₁, ts, eof, hok, htokens, hkeys, heof, -⟩ := lexAnalyze_pieces filename hp hn
  cases hok.symm.trans h
  have hlexemes := (hp.lexes hkeys).isLexeme
  have hfilter : (lex.tokens.filter (·.type ≠ .tEof)).map LexToken.key = keys := by
    have heof' : eof.type = .tEof := congrArg Prod.fst heof
    have hts : ts.filter (·.type ≠ .tEof) = ts := by
      rw [List.filter_eq_self]
      intro t ht
      obtain ⟨lexeme, hlexeme⟩ := hlexemes t ht
      exact decide_eq_true hlexeme.ne_eof
    rw [htokens, List.filter_append, hts, List.filter_cons, if_neg (by simp [heof']), List.filter_nil,
      List.append_nil, hkeys]
  rw [hfilter] at hm ⊢
  have hprinted : Pieces (printTokens keys) keys [] := by
    apply pieces_printTokens
    rintro key hkey
    obtain ⟨t, ht, rfl⟩ := List.mem_map.mp (hkeys ▸ hkey)
    exact hlexemes t ht
  obtain ⟨lex', ts', eof', hok', htokens', hkeys', heof', -⟩ := lexAnalyze_pieces filename' hprinted hm
  refine ⟨lex', hok', ?_⟩
  rw [htokens', htokens, List.map_append, List.map_append, hkeys', hkeys, List.map_singleton,
    List.map_singleton, heof, heof']

/-- A string with a double quote, and a division after a comment. -/
theorem lexAnalyze_print_string : ∃ lex m,
    lexAnalyze 13 (lexInit "main.bl" "'\"'+7/*a*//8".toList) = .ok () lex ∧
      ∃ lex', lexAnalyze m (lexInit "main.bl"
          (printTokens ((lex.tokens.filter (·.type ≠ .tEof)).map LexToken.key))) = .ok () lex' ∧
        lex'.tokens.map LexToken.key = lex.tokens.map LexToken.key :=
  let ⟨lex, hok, _⟩ := exists_ok (p := fun _ => true) (by decide +kernel)
  ⟨lex, _, hok, lexAnalyze_print "main.bl" "'\"'+7/*a*//8".toList 13 lex (by decide) hok (by decide)
    "main.bl" _ (Nat.lt_succ_self _)⟩

/-- The analysis is safe unless it comes to a comment without an end. -/
theorem lexAnalyze_safe (filename : String) (buf : List Char) (n : Nat) (hn : buf.length < n) :
    AnalyzesSafely n filename buf ↔ ¬ ReachesUnclosed buf := by
  unfold AnalyzesSafely
  constructor
  · rintro hsafe ⟨keys, r, hp, hr⟩
    obtain ⟨lex, hpast, herror | ⟨hok, -⟩⟩ := lexAnalyze_unclosed filename hp hr hn
    · rw [herror] at hsafe
      exact hsafe.2.2
    · rw [hok] at hsafe
      cases hpast.symm.trans hsafe.2.1
  · intro hnot
    obtain ⟨keys, r, hp, rfl | hr | ⟨hne, hr⟩⟩ := pieces_total buf
    · obtain ⟨lex, ts, eof, hok, -, -, -, hindex, hpast⟩ := lexAnalyze_pieces filename hp hn
      rw [hok]
      exact ⟨Nat.le_of_eq hindex, hpast, hp.closed⟩
    · exact absurd ⟨keys, r, hp, hr⟩ hnot
    · obtain ⟨e, lex, herror, hsyn, hindex, hpast⟩ := lexAnalyze_invalid filename hp hr hne hn
      rw [herror]
      exact ⟨hindex, hpast, hsyn⟩

theorem lexAnalyze_safe_comment : AnalyzesSafely 8 "main.bl" "1/*a*/;".toList ↔
    ¬ ReachesUnclosed "1/*a*/;".toList :=
  lexAnalyze_safe "main.bl" "1/*a*/;".toList 8 (by decide)

/-- A comment without an end is accepted, with the index behind the buffer. -/
theorem lexAnalyze_unsafe : commentsClosed "/* abc".toList = false ∧
    (∃ lex, lexAnalyze 7 (lexInit "main.bl" "/* abc".toList) = .ok () lex ∧
      lex.index = "/* abc".toList.length + 1 ∧ lex.pastEnd = true) ∧
    ¬ AnalyzesSafely 7 "main.bl" "/* abc".toList := by
  obtain ⟨lex, hok, hlex⟩ := exists_ok (x := lexAnalyze 7 (lexInit "main.bl" "/* abc".toList))
    (p := fun lex => decide (lex.index = 7) && lex.pastEnd) (by decide +kernel)
  rw [Bool.and_eq_true, decide_eq_true_iff] at hlex
  refine ⟨by decide, ⟨lex, hok, hlex⟩, ?_⟩
  unfold AnalyzesSafely
  rw [hok]
  rintro ⟨hindex, -⟩
  rw [hlex.1] at hindex
  exact absurd hindex (by decide)

end Blaze
