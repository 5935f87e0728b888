import Blazescript.Running.Proofs.ComputationProofs
import Blazescript.Syntax.Proofs.LexemesProofs

/-!
# Proofs: what an iteration of the lexer does

It moves over the next piece of the text, and pushes a token if that is a lexeme.
-/

namespace Blaze

open Running

variable {lex lex' : Lex} {c : Char} {u r cs : List Char} {n : Nat}

/-! ## The text ahead -/

/-- The characters from the index on. -/
def Lex.rest (lex : Lex) : List Char := lex.buf.drop lex.index

/-- The lex after some characters. -/
def Lex.advance (lex : Lex) (u : List Char) : Lex := u.foldl Lex.forward lex

namespace Lex

@[simp] theorem forward_index : (lex.forward c).index = lex.index + 1 := by
  unfold forward
  split <;> rfl

@[simp] theorem forward_buf : (lex.forward c).buf = lex.buf := by
  unfold forward
  split <;> rfl

@[simp] theorem forward_tokens : (lex.forward c).tokens = lex.tokens := by
  unfold forward
  split <;> rfl

@[simp] theorem forward_pastEnd : (lex.forward c).pastEnd = lex.pastEnd := by
  unfold forward
  split <;> rfl

@[simp] theorem advance_nil : lex.advance [] = lex := rfl

@[simp] theorem advance_cons : lex.advance (c :: u) = (lex.forward c).advance u := rfl

theorem advance_append {v : List Char} : lex.advance (u ++ v) = (lex.advance u).advance v :=
  List.foldl_append

@[simp] theorem advance_buf : (lex.advance u).buf = lex.buf := by
  induction u generalizing lex with
  | nil => rfl
  | cons c u ih => rw [advance_cons, ih, forward_buf]

@[simp] theorem advance_tokens : (lex.advance u).tokens = lex.tokens := by
  induction u generalizing lex with
  | nil => rfl
  | cons c u ih => rw [advance_cons, ih, forward_tokens]

@[simp] theorem advance_pastEnd : (lex.advance u).pastEnd = lex.pastEnd := by
  induction u generalizing lex with
  | nil => rfl
  | cons c u ih => rw [advance_cons, ih, forward_pastEnd]

@[simp] theorem advance_index : (lex.advance u).index = lex.index + u.length := by
  induction u generalizing lex with
  | nil => rfl
  | cons c u ih =>
    rw [advance_cons, ih, forward_index, List.length_cons]
    omega

theorem getElem_rest (lex : Lex) (i : Nat) : lex.buf[lex.index + i]? = lex.rest[i]? :=
  List.getElem?_drop.symm

theorem rest_forward (h : lex.rest = c :: r) : (lex.forward c).rest = r := by
  have hdrop : (lex.forward c).rest = lex.rest.drop 1 := by
    unfold rest
    rw [forward_buf, forward_index, List.drop_drop]
  rw [hdrop, h]
  rfl

theorem rest_advance (h : lex.rest = u ++ r) : (lex.advance u).rest = r := by
  induction u generalizing lex with
  | nil => exact h
  | cons c u ih => exact ih (rest_forward h)

theorem getElem_index (h : lex.rest = c :: r) : lex.buf[lex.index]? = some c := by
  have hget := getElem_rest lex 0
  rw [h] at hget
  exact hget

theorem length_rest (lex : Lex) : lex.rest.length = lex.buf.length - lex.index := List.length_drop

theorem hasValue_eq (lex : Lex) : lex.hasValue = !lex.rest.isEmpty := by
  have hlen := length_rest lex
  unfold hasValue
  cases h : lex.rest with
  | nil =>
    rw [h, List.length_nil] at hlen
    rw [decide_eq_false_iff_not.mpr (by omega)]
    rfl
  | cons c r =>
    rw [h, List.length_cons] at hlen
    rw [decide_eq_true (by omega)]
    rfl

theorem hasChar_eq (lex : Lex) (p : Char → Bool) : lex.hasChar p = lex.rest.head?.any p := by
  unfold hasChar
  rw [hasValue_eq]
  have hget : lex.buf[lex.index]? = lex.rest[0]? := getElem_rest lex 0
  rw [hget]
  cases lex.rest <;> rfl

theorem isAt_eq (lex : Lex) (i : Nat) (c : Char) : lex.isAt i c = (lex.rest[i]? == some c) := by
  unfold isAt
  rw [getElem_rest]

theorem isAt2_eq (lex : Lex) (c d : Char) : lex.isAt2 c d = [c, d].isPrefixOf lex.rest := by
  have hlen := length_rest lex
  unfold isAt2
  rw [isAt_eq, isAt_eq]
  match h : lex.rest with
  | [] => simp
  | [a] => simp [List.isPrefixOf]
  | a :: b :: r =>
    rw [h] at hlen
    simp only [List.length_cons] at hlen
    rw [decide_eq_true (by omega)]
    simp [List.isPrefixOf, Bool.beq_eq_decide_eq, eq_comm]

theorem isAt3_eq (lex : Lex) (c d e : Char) : lex.isAt3 c d e = [c, d, e].isPrefixOf lex.rest := by
  have hlen := length_rest lex
  unfold isAt3
  rw [isAt_eq, isAt_eq, isAt_eq]
  match h : lex.rest with
  | [] => simp
  | [a] => simp [List.isPrefixOf]
  | [a, b] => simp [List.isPrefixOf]
  | a :: b :: e' :: r =>
    rw [h] at hlen
    simp only [List.length_cons] at hlen
    rw [decide_eq_true (by omega)]
    simp [List.isPrefixOf, Bool.beq_eq_decide_eq, eq_comm, Bool.and_assoc]

end Lex

open Blaze.Lex

/-! ## Moving forward -/

theorem lexCharForward_eq (h : lex.rest = c :: r) : lexCharForward lex = .ok c (lex.forward c) := by
  unfold lexCharForward
  rw [getElem_index h]

theorem lexChar_eq (h : lex.rest = c :: r) : lexChar lex = .ok c lex := by
  unfold lexChar
  rw [getElem_index h]

theorem lexForwards_eq (h : lex.rest = u ++ r) : lexForwards u.length lex = .ok () (lex.advance u) := by
  induction u generalizing lex with
  | nil => rfl
  | cons c u ih =>
    rw [List.length_cons, lexForwards, bind_ok (lexCharForward_eq h)]
    exact ih (rest_forward h)

/-- A loop whose condition is one on the text ahead. -/
theorem lexWhile_eq {cond : Lex → Bool} {f : List Char → Bool} (hcond : ∀ lex, cond lex = f lex.rest)
    (hgo : ∀ v w, u = v ++ w → w ≠ [] → f (w ++ r) = true) (hstop : f r = false) :
    ∀ {n : Nat} {acc : List Char} {lex : Lex}, lex.rest = u ++ r → u.length < n →
      lexWhile cond n acc lex = .ok (acc ++ u) (lex.advance u) := by
  induction u with
  | nil =>
    intro n acc lex h hn
    obtain ⟨n, rfl⟩ : ∃ i, n = i + 1 := ⟨n - 1, by omega⟩
    have hfalse : cond lex = false := by
      rw [hcond, h]
      exact hstop
    rw [lexWhile, bind_ok (rfl : (get : LexM Lex) lex = .ok lex lex), hfalse, List.append_nil]
    rfl
  | cons c u ih =>
    intro n acc lex h hn
    obtain ⟨n, rfl⟩ : ∃ i, n = i + 1 := ⟨n - 1, by omega⟩
    have htrue : cond lex = true := by
      rw [hcond, h]
      exact hgo [] (c :: u) rfl (by simp)
    rw [lexWhile, bind_ok (rfl : (get : LexM Lex) lex = .ok lex lex), htrue, if_pos rfl,
      bind_ok (lexCharForward_eq h)]
    have hrest : lexWhile cond n (acc ++ [c]) (lex.forward c) =
        .ok (acc ++ [c] ++ u) ((lex.forward c).advance u) := by
      refine ih ?_ (rest_forward h) (Nat.lt_of_succ_lt_succ hn)
      intro v w huv hw
      exact hgo (c :: v) w (by rw [huv]; rfl) hw
    rwa [List.append_assoc] at hrest

/-- The loop over the characters that satisfy a condition. -/
theorem lexWhile_hasChar {p : Char → Bool} {acc : List Char} (hn : lex.rest.length < n) :
    lexWhile (fun lex => lex.hasChar p) n acc lex =
      .ok (acc ++ lex.rest.takeWhile p) (lex.advance (lex.rest.takeWhile p)) := by
  refine lexWhile_eq (f := fun s => s.head?.any p) (r := lex.rest.dropWhile p) (fun lex => hasChar_eq lex p)
    ?_ ?_ List.takeWhile_append_dropWhile.symm (Nat.lt_of_le_of_lt ?_ hn)
  · intro v w hv hw
    obtain ⟨c, w, rfl⟩ := List.exists_cons_of_ne_nil hw
    have hc : c ∈ lex.rest.takeWhile p := by
      rw [hv]
      simp
    show p c = true
    exact List.mem_takeWhile_imp hc
  · cases hd : lex.rest.dropWhile p with
    | nil => rfl
    | cons c r =>
      have hnot := List.head?_dropWhile_not p lex.rest
      rw [hd] at hnot
      simpa using hnot
  · exact (List.takeWhile_prefix p).length_le

/-! ## The pieces -/

/-- What the pushing of a token makes of a lex. -/
def Lex.push (lex : Lex) (t : LexToken) : Lex := { lex with tokens := lex.tokens ++ [t] }

/-- The token that is pushed for a lexeme: the column is the one before it, the rest of the place the one
after it. -/
def Lex.tokenOver (lex : Lex) (type : LexTokenType) (value : String) (lexeme : List Char) : LexToken :=
  ⟨type, value, (lex.advance lexeme).currentLine, (lex.advance lexeme).currentLine, lex.currentColumn,
    (lex.advance lexeme).currentColumn⟩

/-- The computation moves over a lexeme and pushes its token. -/
def Pushes (x : LexM Unit) (lex : Lex) (type : LexTokenType) (value : String) (lexeme : List Char) : Prop :=
  x lex = .ok () ((lex.advance lexeme).push (lex.tokenOver type value lexeme))

theorem lexTokensArrayPush_eq (type : LexTokenType) (value : String) (columnStart : Nat) (lex : Lex) :
    lexTokensArrayPush type value columnStart lex =
      .ok () (lex.push ⟨type, value, lex.currentLine, lex.currentLine, columnStart, lex.currentColumn⟩) := rfl

theorem lexM_get : (get : LexM Lex) lex = .ok lex lex := rfl

theorem lexPushCharToken_pushes (h : lex.rest = c :: r) (type : LexTokenType) :
    Pushes (lexPushCharToken type) lex type c.toString [c] := by
  unfold Pushes lexPushCharToken
  rw [bind_ok lexM_get, bind_ok (lexCharForward_eq h)]
  rfl

theorem lexNumber_pushes (hn : lex.rest.length < n) :
    Pushes (lexNumber n) lex .tIntLit (String.ofList (lex.rest.takeWhile Char.isDigit))
      (lex.rest.takeWhile Char.isDigit) := by
  have hend : lexNumber n lex = lexTokensArrayPush .tIntLit (String.ofList (lex.rest.takeWhile Char.isDigit))
      lex.currentColumn (lex.advance (lex.rest.takeWhile Char.isDigit)) := by
    unfold lexNumber
    rw [bind_ok lexM_get, bind_ok (lexWhile_hasChar hn), List.nil_append]
  rw [lexTokensArrayPush_eq] at hend
  exact hend

theorem keywords_type {word : String} {type : LexTokenType} (h : keywords.lookup word = some type) :
    type ≠ .tUnknown := by
  have hmem : (word, type) ∈ keywords := by
    obtain ⟨l₁, l₂, hl, -⟩ := List.lookup_eq_some_iff.mp h
    rw [hl]
    simp
  have hall : ∀ p ∈ keywords, p.2 ≠ .tUnknown := by decide
  exact hall _ hmem

theorem lexIdentifierOrKeyword_pushes (hn : lex.rest.length < n) :
    Pushes (lexIdentifierOrKeyword n) lex
      ((keywords.lookup (String.ofList (lex.rest.takeWhile isWordChar))).getD .tIdentifier)
      (String.ofList (lex.rest.takeWhile isWordChar)) (lex.rest.takeWhile isWordChar) := by
  have htype : ∀ word, (if convertStrToToken word = .tUnknown then .tIdentifier
      else convertStrToToken word) = (keywords.lookup word).getD .tIdentifier := by
    intro word
    unfold convertStrToToken
    cases h : keywords.lookup word with
    | none => rfl
    | some type => exact if_neg (keywords_type h)
  have hend : lexIdentifierOrKeyword n lex = lexTokensArrayPush
      ((keywords.lookup (String.ofList (lex.rest.takeWhile isWordChar))).getD .tIdentifier)
      (String.ofList (lex.rest.takeWhile isWordChar)) lex.currentColumn
      (lex.advance (lex.rest.takeWhile isWordChar)) := by
    unfold lexIdentifierOrKeyword
    rw [bind_ok lexM_get, bind_ok (lexWhile_hasChar hn), List.nil_append, htype]
  rw [lexTokensArrayPush_eq] at hend
  exact hend

/-- The lex at the next quote, and what is left to do there. -/
theorem lexString_body {quote : Char} (h : lex.rest = quote :: cs) (hn : lex.rest.length < n) :
    ∃ mid, mid = lex.advance (quote :: cs.takeWhile (· != quote)) ∧ mid.rest = cs.dropWhile (· != quote) ∧
      lexString n lex = (do
        let isUnterminated ← if mid.hasValue then (· != quote) <$> lexChar else pure true
        if isUnterminated then
          throw (.syntaxErrorLine mid.filename mid.currentLine mid.currentColumn
            ("unterminated string: expected '" ++ quote.toString ++ "'"))
        else do
          let _ ← lexCharForward
          lexTokensArrayPush .tString (String.ofList (cs.takeWhile (· != quote))) lex.currentColumn :
            LexM Unit) mid := by
  have hrest : (lex.forward quote).rest = cs := rest_forward h
  have hlen : (lex.forward quote).rest.length < n := by
    rw [h, List.length_cons] at hn
    rw [hrest]
    omega
  refine ⟨_, rfl, ?_, ?_⟩
  · apply rest_advance
    rw [h, List.cons_append, List.takeWhile_append_dropWhile]
  · unfold lexString
    rw [bind_ok lexM_get, bind_ok (lexCharForward_eq h), bind_ok (lexWhile_hasChar hlen),
      List.nil_append, hrest, bind_ok lexM_get]
    rfl

theorem lexString_pushes {quote : Char} (h : lex.rest = quote :: cs) (hn : lex.rest.length < n)
    (hd : cs.dropWhile (· != quote) = c :: r) :
    Pushes (lexString n) lex .tString (String.ofList (cs.takeWhile (· != quote)))
      (quote :: (cs.takeWhile (· != quote) ++ [quote])) := by
  obtain ⟨mid, hmid, hrest, hbody⟩ := lexString_body h hn
  have hc : c = quote := by
    have hnot := List.head?_dropWhile_not (· != quote) cs
    rw [hd] at hnot
    simpa using hnot
  rw [hd, hc] at hrest
  have hvalue : mid.hasValue = true := by
    rw [hasValue_eq, hrest]
    rfl
  have hread : ((· != quote) <$> lexChar : LexM Bool) mid = .ok false mid := by
    show EStateM.map _ lexChar mid = _
    unfold EStateM.map
    rw [lexChar_eq hrest]
    show EStateM.Result.ok (quote != quote) mid = _
    rw [bne_self_eq_false]
  have hto : (lex.advance (quote :: (cs.takeWhile (· != quote) ++ [quote]))) = mid.forward quote := by
    rw [← List.cons_append, advance_append, ← hmid]
    rfl
  have hend : lexString n lex = lexTokensArrayPush .tString (String.ofList (cs.takeWhile (· != quote)))
      lex.currentColumn (mid.forward quote) := by
    rw [hbody, hvalue, if_pos rfl, bind_ok hread]
    exact bind_ok (lexCharForward_eq hrest)
  rw [lexTokensArrayPush_eq] at hend
  rw [← hto] at hend
  exact hend

/-- The computation ends with an error in the text, within the buffer. -/
def Rejects (x : LexM Unit) (lex : Lex) : Prop :=
  ∃ e lex', x lex = .error e lex' ∧ e.isSyntax ∧ lex'.buf = lex.buf ∧ lex'.pastEnd = lex.pastEnd ∧
    lex'.index ≤ lex.buf.length

theorem lexString_rejects {quote : Char} (h : lex.rest = quote :: cs) (hn : lex.rest.length < n)
    (hd : cs.dropWhile (· != quote) = []) : Rejects (lexString n) lex := by
  obtain ⟨mid, hmid, hrest, hbody⟩ := lexString_body h hn
  have hvalue : mid.hasValue = false := by
    rw [hasValue_eq, hrest, hd]
    rfl
  rw [hvalue, if_neg Bool.false_ne_true,
    bind_ok (rfl : (pure true : LexM Bool) mid = .ok true mid)] at hbody
  have hlen := length_rest lex
  have htake := (List.takeWhile_prefix (l := cs) (· != quote)).length_le
  refine ⟨_, _, hbody, trivial, ?_, ?_, ?_⟩
  · rw [hmid, advance_buf]
  · rw [hmid, advance_pastEnd]
  · rw [h, List.length_cons] at hlen
    rw [hmid, advance_index, List.length_cons]
    omega

/-! ## Comments -/

/-- The loop over a comment goes on before a text that has two characters and does not begin with the
mark of the end. -/
def goesOn : List Char → Bool
  | a :: b :: _ => a != '*' || b != '/'
  | _ => false

theorem goesOn_eq (lex : Lex) :
    (decide (lex.index + 1 < lex.buf.length) && (!lex.isAt 0 '*' || !lex.isAt 1 '/')) = goesOn lex.rest := by
  have hlen := length_rest lex
  rw [isAt_eq, isAt_eq]
  match h : lex.rest with
  | [] =>
    rw [h, List.length_nil] at hlen
    rw [decide_eq_false (by omega)]
    rfl
  | [a] =>
    rw [h, List.length_singleton] at hlen
    rw [decide_eq_false (by omega)]
    rfl
  | a :: b :: r =>
    rw [h] at hlen
    simp only [List.length_cons] at hlen
    rw [decide_eq_true (by omega)]
    rfl

/-- The text of a comment without an end, up to its last character. -/
theorem splitComment_none (h : splitComment cs = none) :
    ∃ u r, cs = u ++ r ∧ r.length ≤ 1 ∧ ∀ v w, u = v ++ w → w ≠ [] → goesOn (w ++ r) = true := by
  fun_induction splitComment cs with
  | case1 => exact ⟨[], [], rfl, Nat.zero_le 1, fun v w h hw => absurd (List.append_eq_nil_iff.mp h.symm).2 hw⟩
  | case2 => cases h
  | case3 c cs hne ih =>
    obtain ⟨u, r, hcs, hr, hgo⟩ := ih (Option.map_eq_none_iff.mp h)
    by_cases hnil : cs = []
    · exact ⟨[], [c], by rw [hnil]; rfl, Nat.le_refl 1,
        fun v w h hw => absurd (List.append_eq_nil_iff.mp h.symm).2 hw⟩
    · refine ⟨c :: u, r, by rw [hcs]; rfl, hr, ?_⟩
      intro v w hvw hw
      cases v with
      | nil =>
        obtain ⟨b, cs', hb⟩ := List.exists_cons_of_ne_nil hnil
        rw [← show c :: u = w from hvw, List.cons_append, ← hcs, hb]
        show (c != '*' || b != '/') = true
        by_cases hc : c = '*'
        · have hbs : b ≠ '/' := fun hbs => hne cs' hc (by rw [hb, hbs])
          rw [bne_iff_ne.mpr hbs, Bool.or_true]
        · rw [bne_iff_ne.mpr hc, Bool.true_or]
      | cons d v =>
        injection hvw with _ hvw
        exact hgo v w hvw hw

/-- The lex after a read behind the characters of the buffer. -/
def Lex.readEnd (lex : Lex) : Lex := { lex with pastEnd := true }

theorem lexCharForward_end (h : lex.index = lex.buf.length) :
    lexCharForward lex = .ok '\x00' (lex.readEnd.forward '\x00') := by
  unfold lexCharForward
  rw [List.getElem?_eq_none (Nat.le_of_eq h.symm)]
  exact if_pos h

theorem lexCharForward_behind (h : lex.buf.length < lex.index) :
    lexCharForward lex = .error .undefined lex.readEnd := by
  unfold lexCharForward
  rw [List.getElem?_eq_none (Nat.le_of_lt h)]
  exact if_neg (Nat.ne_of_gt h)

/-- The computation leaves the buffer: it reads behind its end, and succeeds at most there. -/
def Overruns (x : LexM Unit) (lex : Lex) : Prop :=
  ∃ lex', lex'.pastEnd = true ∧ (x lex = .error .undefined lex' ∨
    x lex = .ok () lex' ∧ lex'.buf = lex.buf ∧ lex'.tokens = lex.tokens ∧ lex'.index = lex.buf.length + 1)

/-- Two steps from a place with at most one character ahead. -/
theorem lexForwards_overruns (hr : lex.rest.length ≤ 1) (hi : lex.index ≤ lex.buf.length) :
    Overruns (lexForwards 2) lex := by
  have hlen := length_rest lex
  match h : lex.rest with
  | [] =>
    rw [h, List.length_nil] at hlen
    have hindex : lex.index = lex.buf.length := by omega
    have hbehind : (lex.readEnd.forward '\x00').buf.length < (lex.readEnd.forward '\x00').index := by
      rw [forward_buf, forward_index]
      exact Nat.lt_succ_of_le (Nat.le_of_eq hindex.symm)
    have hrun : lexForwards 2 lex = .error .undefined (lex.readEnd.forward '\x00').readEnd := by
      rw [lexForwards, bind_ok (lexCharForward_end hindex), lexForwards,
        bind_error (lexCharForward_behind hbehind)]
    exact ⟨_, rfl, .inl hrun⟩
  | [c] =>
    rw [h, List.length_singleton] at hlen
    have hend : (lex.forward c).index = (lex.forward c).buf.length := by
      rw [forward_buf, forward_index]
      omega
    have hrun : lexForwards 2 lex = .ok () ((lex.forward c).readEnd.forward '\x00') := by
      rw [lexForwards, bind_ok (lexCharForward_eq h), lexForwards, bind_ok (lexCharForward_end hend)]
      rfl
    refine ⟨(lex.forward c).readEnd.forward '\x00', ?_, .inr ⟨hrun, ?_, ?_, ?_⟩⟩
    · rw [forward_pastEnd]
      rfl
    · rw [forward_buf]
      exact forward_buf
    · rw [forward_tokens]
      exact forward_tokens
    · rw [forward_index]
      exact congrArg (· + 1) (hend.trans (congrArg List.length forward_buf))
  | _ :: _ :: _ =>
    rw [h] at hr
    simp at hr

/-- The check for a comment that is not terminated fails wherever the loop stops. -/
theorem unterminated_eq_false (h : goesOn lex.rest = false) :
    (decide (lex.index + 1 < lex.buf.length) && !lex.isAt 0 '*' && !lex.isAt 1 '/') = false := by
  rw [← goesOn_eq, Bool.and_eq_false_iff] at h
  rcases h with h | h
  · rw [h, Bool.false_and, Bool.false_and]
  · rw [(Bool.or_eq_false_iff.mp h).1, Bool.and_false, Bool.false_and]

/-- The comment up to where the loop over it stops. -/
theorem lexBlockComment_body (h : lex.rest = '/' :: '*' :: (u ++ r)) (hn : lex.rest.length < n)
    (hgo : ∀ v w, u = v ++ w → w ≠ [] → goesOn (w ++ r) = true) (hstop : goesOn r = false) :
    lexBlockComment n lex = lexForwards 2 (lex.advance ('/' :: '*' :: u)) := by
  have hstart : lexForwards 2 lex = .ok () (lex.advance ['/', '*']) :=
    lexForwards_eq (u := ['/', '*']) h
  have hrest : (lex.advance ['/', '*']).rest = u ++ r := rest_advance (u := ['/', '*']) h
  have hlen : u.length < n := by
    rw [h] at hn
    simp only [List.length_cons, List.length_append] at hn
    omega
  have hcheck : goesOn (lex.advance ('/' :: '*' :: u)).rest = false := by
    rw [rest_advance (u := '/' :: '*' :: u) h]
    exact hstop
  unfold lexBlockComment
  rw [bind_ok hstart, bind_ok (lexWhile_eq goesOn_eq hgo hstop hrest hlen), bind_ok lexM_get]
  rw [← show lex.advance ('/' :: '*' :: u) = (lex.advance ['/', '*']).advance u from rfl,
    unterminated_eq_false hcheck]
  rfl

theorem lexBlockComment_eq {body : List Char} (h : lex.rest = '/' :: '*' :: cs) (hn : lex.rest.length < n)
    (hs : splitComment cs = some (body, r)) :
    lexBlockComment n lex = .ok () (lex.advance ('/' :: '*' :: (body ++ ['*', '/']))) := by
  obtain ⟨rfl, hends⟩ := splitComment_eq hs
  rw [lexBlockComment_body h hn ?_ rfl]
  · have hrest := rest_advance (u := '/' :: '*' :: body) h
    rw [show '/' :: '*' :: (body ++ ['*', '/']) = ('/' :: '*' :: body) ++ ['*', '/'] from rfl, advance_append]
    exact lexForwards_eq (u := ['*', '/']) hrest
  · intro v w hvw hw
    obtain ⟨a, w, rfl⟩ := List.exists_cons_of_ne_nil hw
    have hnot : ¬ ['*', '/'] <+: a :: (w ++ ['*', '/']) := by
      have hdrop := hends v.length (by rw [hvw, List.length_append, List.length_cons]; omega)
      rwa [hvw, List.append_assoc, List.drop_left] at hdrop
    obtain ⟨b, t, hb, ht⟩ : ∃ b t, w ++ '*' :: '/' :: r = b :: t ∧
        (b = '/' → a = '*' → ['*', '/'] <+: a :: (w ++ ['*', '/'])) := by
      cases w with
      | nil => exact ⟨'*', '/' :: r, rfl, fun hb => absurd hb (by decide)⟩
      | cons b w =>
        refine ⟨b, w ++ '*' :: '/' :: r, rfl, ?_⟩
        rintro rfl rfl
        exact ⟨w ++ ['*', '/'], rfl⟩
    rw [List.cons_append, hb]
    show (a != '*' || b != '/') = true
    by_cases ha : a = '*'
    · rw [bne_iff_ne.mpr fun hb => hnot (ht hb ha), Bool.or_true]
    · rw [bne_iff_ne.mpr ha, Bool.true_or]

theorem lexBlockComment_overruns (h : lex.rest = '/' :: '*' :: cs) (hn : lex.rest.length < n)
    (hi : lex.index ≤ lex.buf.length) (hs : splitComment cs = none) : Overruns (lexBlockComment n) lex := by
  obtain ⟨u, r, rfl, hr, hgo⟩ := splitComment_none hs
  have hrest := rest_advance (u := '/' :: '*' :: u) h
  have hstop : goesOn r = false := by
    match r with
    | [] => rfl
    | [_] => rfl
    | _ :: _ :: _ => simp at hr
  have hlen := congrArg List.length h
  rw [length_rest] at hlen
  simp only [List.length_cons, List.length_append] at hlen
  have hindex : (lex.advance ('/' :: '*' :: u)).index ≤ (lex.advance ('/' :: '*' :: u)).buf.length := by
    rw [advance_index, advance_buf]
    simp only [List.length_cons]
    omega
  obtain ⟨lex', hpast, hrun⟩ := lexForwards_overruns (hrest ▸ hr) hindex
  rw [← lexBlockComment_body h hn hgo hstop, advance_buf, advance_tokens] at hrun
  exact ⟨lex', hpast, hrun⟩

/-! ## An iteration -/

/-- Where there are two characters the chain of tests tries the operators in their order. -/
theorem multicharOperator_eq (lex : Lex) :
    lex.multicharOperator = (multicharOperators.find? (·.isPrefixOf lex.rest)).map String.ofList := by
  have hlen := length_rest lex
  unfold Lex.multicharOperator
  rw [hasValue_eq]
  match h : lex.rest with
  | [] => rfl
  | [a] =>
    rw [h, List.length_singleton] at hlen
    rw [decide_eq_false (by omega)]
    simp [multicharOperators]
  | a :: b :: r =>
    have hguard : decide (lex.index + 1 < lex.buf.length) = true := by
      rw [h] at hlen
      simp only [List.length_cons] at hlen
      exact decide_eq_true (by omega)
    have hpair : ∀ c d, (lex.isAt 0 c && lex.isAt 1 d) = [c, d].isPrefixOf (a :: b :: r) := by
      intro c d
      rw [← h, ← isAt2_eq, Lex.isAt2, hguard, Bool.true_and]
    rw [hguard, isAt3_eq, isAt3_eq, hpair, hpair, hpair, hpair, h]
    unfold multicharOperators
    simp only [List.find?_cons, List.find?_nil]
    cases ['=', '=', '='].isPrefixOf (a :: b :: r)
    · cases ['!', '=', '='].isPrefixOf (a :: b :: r)
      · cases ['=', '='].isPrefixOf (a :: b :: r)
        · cases ['!', '='].isPrefixOf (a :: b :: r)
          · cases ['>', '='].isPrefixOf (a :: b :: r)
            · cases ['<', '='].isPrefixOf (a :: b :: r) <;> rfl
            · rfl
          · rfl
        · rfl
      · rfl
    · rfl

theorem lexMulticharOperators_some {lexeme : List Char}
    (h : multicharOperators.find? (·.isPrefixOf lex.rest) = some lexeme) :
    lexMulticharOperators lex =
      .ok true ((lex.advance lexeme).push (lex.tokenOver .tBinaryOperator (String.ofList lexeme) lexeme)) := by
  obtain ⟨r, hr⟩ : lexeme <+: lex.rest := by
    have hfound := List.find?_some h
    exact List.isPrefixOf_iff_prefix.mp hfound
  have hmove : lexForwards (String.ofList lexeme).length lex = .ok () (lex.advance lexeme) := by
    rw [String.length_ofList]
    exact lexForwards_eq hr.symm
  have hop : lex.multicharOperator = some (String.ofList lexeme) := by
    rw [multicharOperator_eq, h]
    rfl
  have hend : lexMulticharOperators lex = (do
      lexTokensArrayPush .tBinaryOperator (String.ofList lexeme) lex.currentColumn
      pure true : LexM Bool) (lex.advance lexeme) := by
    unfold lexMulticharOperators
    rw [bind_ok lexM_get, bind_ok lexM_get, hop]
    exact bind_ok hmove
  rw [bind_ok (lexTokensArrayPush_eq _ _ _ _)] at hend
  exact hend

theorem lexMulticharOperators_none (h : multicharOperators.find? (·.isPrefixOf lex.rest) = none) :
    lexMulticharOperators lex = .ok false lex := by
  have hop : lex.multicharOperator = none := by
    rw [multicharOperator_eq, h]
    rfl
  unfold lexMulticharOperators
  rw [bind_ok lexM_get, bind_ok lexM_get, hop]
  rfl

/-- What the computation does where the text begins with a piece. -/
def StepsOver (x : LexM Unit) (lex : Lex) : Piece → Prop
  | .gap text _ => x lex = .ok () (lex.advance text)
  | .token type value lexeme _ => Pushes x lex type value lexeme
  | .unclosed => Overruns x lex
  | .invalid => Rejects x lex

theorem StepsOver.congr {x y : LexM Unit} {p : Piece} (hxy : x lex = y lex) (h : StepsOver y lex p) :
    StepsOver x lex p := by
  cases p with
  | gap text rest => exact hxy.trans h
  | token type value lexeme rest => exact hxy.trans h
  | unclosed =>
    obtain ⟨lex', hpast, hrun⟩ := h
    exact ⟨lex', hpast, hxy ▸ hrun⟩
  | invalid =>
    obtain ⟨e, lex', hrun, hrest⟩ := h
    exact ⟨e, lex', hxy.trans hrun, hrest⟩

theorem lexOther_stepsOver (h : lex.rest = c :: cs) (hn : lex.rest.length < n) :
    StepsOver (lexOther n c) lex (nextOther c cs) := by
  have hindex : lex.index ≤ lex.buf.length := by
    have hlen := congrArg List.length h
    rw [length_rest, List.length_cons] at hlen
    omega
  unfold nextOther lexOther
  cases chartokens.lookup c with
  | some type => exact lexPushCharToken_pushes h type
  | none =>
    dsimp only
    by_cases hquote : c = '"' ∨ c = '\''
    · rw [if_pos hquote, if_pos hquote]
      unfold nextString
      cases hd : cs.dropWhile (· != c) with
      | nil => exact lexString_rejects h hn hd
      | cons d r => exact lexString_pushes h hn hd
    · rw [if_neg hquote, if_neg hquote]
      by_cases hdigit : c.isDigit
      · rw [if_pos hdigit, if_pos hdigit, ← h]
        exact lexNumber_pushes hn
      · rw [if_neg hdigit, if_neg hdigit]
        by_cases halpha : c.isAlpha ∨ c = '_'
        · rw [if_pos halpha, if_pos halpha, ← h]
          exact lexIdentifierOrKeyword_pushes hn
        · rw [if_neg halpha, if_neg halpha]
          exact ⟨_, lex, rfl, trivial, rfl, rfl, hindex⟩

/-- An iteration of the loop moves over the piece with which the text ahead begins. -/
theorem lexStep_stepsOver (hne : lex.rest ≠ []) (hn : lex.rest.length < n) :
    StepsOver (lexStep n) lex (nextPiece lex.rest) := by
  obtain ⟨c, cs, h⟩ := List.exists_cons_of_ne_nil hne
  have hindex : lex.index ≤ lex.buf.length := by
    have hlen := congrArg List.length h
    rw [length_rest, List.length_cons] at hlen
    omega
  have hstep : lexStep n lex = (if ['/', '/'].isPrefixOf lex.rest then lexLineComment n
      else if ['/', '*'].isPrefixOf lex.rest then lexBlockComment n
      else if isSpace c then do
        let _ ← lexCharForward
      else do
        if ← lexMulticharOperators then pure () else lexOther n c : LexM Unit) lex := by
    unfold lexStep
    rw [bind_ok (lexChar_eq h), bind_ok lexM_get, isAt2_eq, isAt2_eq]
  unfold nextPiece
  split
  · rename_i hnil
    exact absurd hnil hne
  · rename_i r hrest
    rw [if_pos (by rw [hrest]; rfl)] at hstep
    show lexStep n lex = _
    rw [hstep]
    unfold lexLineComment
    rw [bind_ok (lexWhile_hasChar hn), hrest]
    rfl
  · rename_i r hrest
    rw [if_neg (by rw [hrest]; exact Bool.false_ne_true), if_pos (by rw [hrest]; rfl)] at hstep
    refine .congr hstep ?_
    cases hs : splitComment r with
    | some p => exact lexBlockComment_eq hrest hn hs
    | none => exact lexBlockComment_overruns hrest hn hindex hs
  · rename_i d ds hline hblock hrest
    rw [h] at hrest
    cases hrest
    have hmark : ∀ e, (∀ r, '/' :: e :: r ≠ lex.rest) → ¬ ['/', e].isPrefixOf lex.rest := by
      intro e hno hpre
      obtain ⟨r, hr⟩ := List.isPrefixOf_iff_prefix.mp hpre
      exact hno r hr
    rw [if_neg (hmark '/' fun r hr => ?_), if_neg (hmark '*' fun r hr => ?_)] at hstep
    · by_cases hspace : isSpace c
      · rw [if_pos hspace, bind_ok (lexCharForward_eq h)] at hstep
        rw [if_pos hspace]
        exact hstep
      · rw [if_neg hspace] at hstep
        rw [if_neg hspace]
        cases hop : multicharOperators.find? (·.isPrefixOf lex.rest) with
        | some lexeme =>
          rw [bind_ok (lexMulticharOperators_some hop)] at hstep
          exact hstep
        | none =>
          rw [bind_ok (lexMulticharOperators_none hop), if_neg Bool.false_ne_true] at hstep
          exact .congr hstep (lexOther_stepsOver h hn)
    · rw [h] at hr
      cases hr
      exact hblock r rfl rfl
    · rw [h] at hr
      cases hr
      exact hline r rfl rfl

end Blaze
