import Mathlib.Data.List.TakeWhile
import Blazescript.Syntax.Lexemes

/-!
# Proofs: the next piece of a text

A lexeme is the longest one with which the text begins, and before a space it is found as it is.
-/

namespace Blaze

variable {text lexeme u r cs : List Char} {type : LexTokenType} {value : String} {c quote : Char}

/-! ## The classes of characters -/

/-- The characters with which operators of more than one character begin. -/
theorem operators_find_none (h : c ∉ ['=', '!', '>', '<']) :
    multicharOperators.find? (·.isPrefixOf (c :: cs)) = none := by
  rw [List.find?_eq_none]
  intro l hl hpre
  have hhead : ∀ l ∈ multicharOperators, l ≠ [] ∧ l.headI ∈ ['=', '!', '>', '<'] := by decide
  obtain ⟨hne, hmem⟩ := hhead l hl
  obtain ⟨d, r, rfl⟩ := List.exists_cons_of_ne_nil hne
  have hcd : d = c := (List.cons_prefix_cons.mp (List.isPrefixOf_iff_prefix.mp hpre)).1
  exact h (hcd ▸ hmem)

/-- A character with which no gap and no operator of more than one character begins. -/
theorem nextPiece_other (hslash : c ≠ '/') (hspace : isSpace c = false) (hop : c ∉ ['=', '!', '>', '<']) :
    nextPiece (c :: cs) = nextOther c cs := by
  unfold nextPiece
  split
  · contradiction
  · rename_i heq
    cases heq
    exact absurd rfl hslash
  · rename_i heq
    cases heq
    exact absurd rfl hslash
  · rename_i heq
    cases heq
    rw [hspace, if_neg Bool.false_ne_true, operators_find_none hop]

/-- The characters that have a meaning of their own. -/
def specials : List Char := chartokens.map Prod.fst ++ ['!', '"', '\'']

theorem nextPiece_plain (hspecial : c ∉ specials) (hspace : isSpace c = false) :
    nextPiece (c :: cs) = if c.isDigit then nextNumber (c :: cs)
      else if c.isAlpha ∨ c = '_' then nextWord (c :: cs) else .invalid := by
  have hnot : ∀ {d}, d ∈ specials → c ≠ d := fun hd hcd => hspecial (hcd ▸ hd)
  have hlookup : chartokens.lookup c = none := by
    rw [List.lookup_eq_none_iff]
    intro p hp
    exact bne_iff_ne.mpr (hnot (List.mem_append_left _ (List.mem_map_of_mem hp)))
  have hop : c ∉ ['=', '!', '>', '<'] := by
    have hsub : ['=', '!', '>', '<'] ⊆ specials := by decide
    exact fun hc => hspecial (hsub hc)
  have hquote : ¬ (c = '"' ∨ c = '\'') := by
    rintro (rfl | rfl)
    · exact hspecial (by decide)
    · exact hspecial (by decide)
  rw [nextPiece_other (hnot (by decide)) hspace hop]
  unfold nextOther
  rw [hlookup]
  exact if_neg hquote

theorem isSpace_iff : isSpace c = true ↔ c = ' ' ∨ 9 ≤ c.toNat ∧ c.toNat ≤ 13 := by
  unfold isSpace
  rw [Bool.or_eq_true, Bool.and_eq_true, decide_eq_true_iff, decide_eq_true_iff, decide_eq_true_iff]

theorem isSpace_false (h : 14 ≤ c.toNat) (hc : c ≠ ' ') : isSpace c = false := by
  rw [Bool.eq_false_iff, Ne, isSpace_iff]
  rintro (rfl | ⟨-, hle⟩)
  · exact hc rfl
  · omega

theorem isDigit_iff : c.isDigit = true ↔ 48 ≤ c.toNat ∧ c.toNat ≤ 57 := by
  unfold Char.isDigit
  rw [Bool.and_eq_true, decide_eq_true_iff, decide_eq_true_iff]
  exact Iff.rfl

theorem isAlpha_iff : c.isAlpha = true ↔ 65 ≤ c.toNat ∧ c.toNat ≤ 90 ∨ 97 ≤ c.toNat ∧ c.toNat ≤ 122 := by
  unfold Char.isAlpha Char.isUpper Char.isLower
  rw [Bool.or_eq_true, Bool.and_eq_true, decide_eq_true_iff, decide_eq_true_iff, decide_eq_true_iff]
  exact Iff.rfl

/-- A character of a class that has no special one. -/
theorem not_special {p : Char → Bool} (hp : specials.any p = false) (hc : p c = true) : c ∉ specials := by
  intro hmem
  have htrue := List.any_eq_true.mpr ⟨c, hmem, hc⟩
  rw [hp] at htrue
  cases htrue

theorem nextPiece_digit (h : c.isDigit = true) : nextPiece (c :: cs) = nextNumber (c :: cs) := by
  have hspace : isSpace c = false := by
    have hcode := isDigit_iff.mp h
    refine isSpace_false (by omega) ?_
    rintro rfl
    cases h
  rw [nextPiece_plain (not_special (by decide) h) hspace, if_pos h]

theorem nextPiece_letter (h : c.isAlpha = true ∨ c = '_') : nextPiece (c :: cs) = nextWord (c :: cs) := by
  have hspecial : c ∉ specials := by
    refine not_special (p := fun d => d.isAlpha || d == '_') (by decide) ?_
    rw [Bool.or_eq_true, beq_iff_eq]
    exact h
  have hcode : 65 ≤ c.toNat := by
    rcases h with h | rfl
    · have hcode := isAlpha_iff.mp h
      omega
    · decide
  have hspace : isSpace c = false := by
    refine isSpace_false (by omega) ?_
    rintro rfl
    exact absurd hcode (by decide)
  have hdigit : ¬ c.isDigit = true := by
    rw [isDigit_iff]
    rcases h with h | rfl
    · have hcode := isAlpha_iff.mp h
      omega
    · decide
  rw [nextPiece_plain hspecial hspace, if_neg hdigit, if_pos h]

theorem nextPiece_quote (h : quote = '"' ∨ quote = '\'') : nextPiece (quote :: cs) = nextString quote cs := by
  rcases h with rfl | rfl
  · rw [nextPiece_other (by decide) (by decide) (by decide)]
    rfl
  · rw [nextPiece_other (by decide) (by decide) (by decide)]
    rfl

/-! ## The next token is a lexeme -/

theorem nextWord_token (hc : c.isAlpha = true ∨ c = '_') (h : nextWord (c :: cs) = .token type value lexeme r) :
    IsLexeme type value lexeme ∧ c :: cs = lexeme ++ r := by
  have hword : isWordChar c = true := by
    unfold isWordChar
    rw [Bool.or_eq_true, decide_eq_true_iff]
    rcases hc with hc | hc
    · left
      unfold Char.isAlphanum
      rw [hc, Bool.true_or]
    · right
      exact hc
  have htake : (c :: cs).takeWhile isWordChar = c :: cs.takeWhile isWordChar := by
    rw [List.takeWhile_cons, if_pos hword]
  unfold nextWord at h
  cases h
  refine ⟨?_, List.takeWhile_append_dropWhile.symm⟩
  cases hk : keywords.lookup (String.ofList ((c :: cs).takeWhile isWordChar)) with
  | some type =>
    obtain ⟨l₁, l₂, hl, -⟩ := List.lookup_eq_some_iff.mp hk
    have hmem : (String.ofList ((c :: cs).takeWhile isWordChar), type) ∈ keywords := by
      rw [hl]
      simp
    have hlexeme := IsLexeme.keyword hmem
    rw [String.toList_ofList] at hlexeme
    exact hlexeme
  | none =>
    rw [htake] at hk ⊢
    refine .identifier hc (fun d hd => List.mem_takeWhile_imp hd) ?_
    intro type hmem
    have hne := List.lookup_eq_none_iff.mp hk _ hmem
    simp at hne

theorem nextNumber_token (hc : c.isDigit = true) (h : nextNumber (c :: cs) = .token type value lexeme r) :
    IsLexeme type value lexeme ∧ c :: cs = lexeme ++ r := by
  unfold nextNumber at h
  cases h
  refine ⟨.number ?_ fun d hd => List.mem_takeWhile_imp hd, List.takeWhile_append_dropWhile.symm⟩
  rw [List.takeWhile_cons, if_pos hc]
  exact List.cons_ne_nil _ _

theorem nextString_token (hq : quote = '"' ∨ quote = '\'')
    (h : nextString quote cs = .token type value lexeme r) :
    IsLexeme type value lexeme ∧ quote :: cs = lexeme ++ r := by
  unfold nextString at h
  cases hd : cs.dropWhile (· != quote) with
  | nil =>
    rw [hd] at h
    cases h
  | cons d rest =>
    have hdq : d = quote := by
      have hnot := List.head?_dropWhile_not (· != quote) cs
      rw [hd] at hnot
      simpa using hnot
    rw [hd] at h
    cases h
    refine ⟨.string hq ?_, ?_⟩
    · intro hmem
      have hne := List.mem_takeWhile_imp hmem
      simp at hne
    · rw [List.cons_append, List.append_assoc]
      congr 1
      calc cs = cs.takeWhile (· != quote) ++ cs.dropWhile (· != quote) := List.takeWhile_append_dropWhile.symm
        _ = _ := by rw [hd, hdq]; rfl

theorem nextOther_token (h : nextOther c cs = .token type value lexeme r) :
    IsLexeme type value lexeme ∧ c :: cs = lexeme ++ r := by
  unfold nextOther at h
  cases hl : chartokens.lookup c with
  | some type' =>
    rw [hl] at h
    cases h
    obtain ⟨l₁, l₂, hl, -⟩ := List.lookup_eq_some_iff.mp hl
    refine ⟨.char ?_, rfl⟩
    rw [hl]
    simp
  | none =>
    rw [hl] at h
    dsimp only at h
    by_cases hquote : c = '"' ∨ c = '\''
    · rw [if_pos hquote] at h
      exact nextString_token hquote h
    · rw [if_neg hquote] at h
      by_cases hdigit : c.isDigit = true
      · rw [if_pos hdigit] at h
        exact nextNumber_token hdigit h
      · rw [if_neg hdigit] at h
        by_cases halpha : c.isAlpha = true ∨ c = '_'
        · rw [if_pos halpha] at h
          exact nextWord_token halpha h
        · rw [if_neg halpha] at h
          cases h

theorem nextPiece_token (h : nextPiece text = .token type value lexeme r) :
    IsLexeme type value lexeme ∧ text = lexeme ++ r := by
  unfold nextPiece at h
  split at h
  · cases h
  · cases h
  · split at h <;> cases h
  · rename_i c cs _ _
    by_cases hspace : isSpace c = true
    · rw [if_pos hspace] at h
      cases h
    · rw [if_neg hspace] at h
      cases hop : multicharOperators.find? (·.isPrefixOf (c :: cs)) with
      | some l =>
        rw [hop] at h
        cases h
        have hpre := List.find?_some hop
        obtain ⟨v, hv⟩ : lexeme <+: c :: cs := List.isPrefixOf_iff_prefix.mp hpre
        refine ⟨.operator (List.mem_of_find?_eq_some hop), ?_⟩
        rw [← hv, List.drop_left]
      | none =>
        rw [hop] at h
        exact nextOther_token h

theorem IsLexeme.ne_nil (h : IsLexeme type value lexeme) : lexeme ≠ [] := by
  cases h with
  | operator h =>
    have hall : ∀ l ∈ multicharOperators, l ≠ [] := by decide
    exact hall _ h
  | char h => exact List.cons_ne_nil _ _
  | number hne h => exact hne
  | keyword h =>
    have hall : ∀ p ∈ keywords, p.1.toList ≠ [] := by decide
    exact hall _ h
  | identifier => exact List.cons_ne_nil _ _
  | string => exact List.cons_ne_nil _ _

/-! ## The next token is the longest lexeme -/

theorem nextPiece_operator (h : multicharOperators.find? (·.isPrefixOf text) = some lexeme) :
    nextPiece text = .token .tBinaryOperator (String.ofList lexeme) lexeme (text.drop lexeme.length) := by
  have hall : ∀ l ∈ multicharOperators, l ≠ [] ∧ l.headI ≠ '/' ∧ isSpace l.headI = false := by decide
  obtain ⟨hne, hslash, hspace⟩ := hall lexeme (List.mem_of_find?_eq_some h)
  obtain ⟨c, l, rfl⟩ := List.exists_cons_of_ne_nil hne
  have hpre := List.find?_some h
  obtain ⟨v, rfl⟩ : c :: l <+: text := List.isPrefixOf_iff_prefix.mp hpre
  rw [List.cons_append] at h ⊢
  unfold nextPiece
  split
  · contradiction
  · rename_i heq
    injection heq with hc _
    exact absurd hc hslash
  · rename_i heq
    injection heq with hc _
    exact absurd hc hslash
  · rename_i heq
    cases heq
    rw [if_neg (by rw [show isSpace c = false from hspace]; exact Bool.false_ne_true), h]

/-- In a list whose longer members stand first, the first one with a property is the longest. -/
theorem find_longest {l : List (List Char)} {p : List Char → Bool} {u v : List Char}
    (hl : l.Pairwise fun a b => b.length ≤ a.length) (h : l.find? p = some v) (hu : u ∈ l) (hp : p u = true) :
    u.length ≤ v.length := by
  obtain ⟨-, l₁, l₂, rfl, hbefore⟩ := List.find?_eq_some_iff_append.mp h
  rcases List.mem_append.mp hu with hu | hu
  · have hnot := hbefore u hu
    rw [hp] at hnot
    cases hnot
  · rcases List.mem_cons.mp hu with rfl | hu
    · exact Nat.le_refl _
    · exact (List.pairwise_cons.mp (List.pairwise_append.mp hl).2.1).1 u hu

theorem takeWhile_length {p : Char → Bool} (hu : ∀ c ∈ u, p c = true) (v : List Char) :
    u.length ≤ ((u ++ v).takeWhile p).length := by
  rw [List.takeWhile_append_of_pos hu, List.length_append]
  exact Nat.le_add_right _ _

theorem nextString_eq (h : quote ∉ u) (v : List Char) :
    nextString quote (u ++ quote :: v) = .token .tString (String.ofList u) (quote :: (u ++ [quote])) v := by
  have hu : ∀ c ∈ u, (c != quote) = true := fun c hc => bne_iff_ne.mpr fun hcq => h (hcq ▸ hc)
  have htake : (u ++ quote :: v).takeWhile (· != quote) = u := by
    rw [List.takeWhile_append_of_pos hu, List.takeWhile_cons, bne_self_eq_false, if_neg Bool.false_ne_true,
      List.append_nil]
  have hdrop : (u ++ quote :: v).dropWhile (· != quote) = quote :: v := by
    rw [List.dropWhile_append_of_pos hu, List.dropWhile_cons, bne_self_eq_false, if_neg Bool.false_ne_true]
  unfold nextString
  rw [hdrop, htake]

/-- The letters and the characters of a word. -/
theorem keywords_chars {word : String} (h : (word, type) ∈ keywords) :
    ∃ c cs, word.toList = c :: cs ∧ (c.isAlpha = true ∨ c = '_') ∧ ∀ d ∈ c :: cs, isWordChar d = true := by
  have hall : (keywords.all fun p =>
      p.1.toList != [] && (p.1.toList.headI.isAlpha && p.1.toList.all isWordChar)) = true := by decide
  have hchars := List.all_eq_true.mp hall _ h
  rw [Bool.and_eq_true, Bool.and_eq_true, bne_iff_ne, List.all_eq_true] at hchars
  obtain ⟨hne, halpha, hword⟩ := hchars
  obtain ⟨c, cs, hcs⟩ := List.exists_cons_of_ne_nil hne
  rw [hcs] at halpha hword
  exact ⟨c, cs, hcs, .inl halpha, hword⟩

theorem isWordChar_letter (h : c.isAlpha = true ∨ c = '_') : isWordChar c = true := by
  unfold isWordChar Char.isAlphanum
  rw [Bool.or_eq_true, Bool.or_eq_true, decide_eq_true_iff]
  rcases h with h | h
  · exact .inl (.inl h)
  · exact .inr h

/-- A word with which the text begins is not longer than the token. -/
theorem nextWord_longest {lexeme' v : List Char} (hc : c.isAlpha = true ∨ c = '_')
    (hword : ∀ d ∈ c :: cs, isWordChar d = true)
    (h : nextPiece (c :: cs ++ v) = .token type value lexeme' r) : (c :: cs).length ≤ lexeme'.length := by
  rw [List.cons_append, nextPiece_letter hc] at h
  unfold nextWord at h
  injection h with _ _ h _
  rw [← h]
  exact takeWhile_length hword v

theorem nextPiece_longest (h : nextPiece text = .token type value lexeme r) : Longest lexeme text := by
  intro type' value' lexeme' hlexeme hpre
  obtain ⟨v, rfl⟩ := hpre
  have hpos : 0 < lexeme.length := List.length_pos_of_ne_nil (nextPiece_token h).1.ne_nil
  cases hlexeme with
  | operator hmem =>
    have hpre : lexeme'.isPrefixOf (lexeme' ++ v) = true := List.isPrefixOf_iff_prefix.mpr ⟨v, rfl⟩
    cases hop : multicharOperators.find? (·.isPrefixOf (lexeme' ++ v)) with
    | none =>
      have hnot := List.find?_eq_none.mp hop _ hmem
      exact absurd hpre hnot
    | some l =>
      rw [nextPiece_operator hop] at h
      injection h with _ _ h _
      rw [← h]
      exact find_longest (by decide) hop hmem hpre
  | char => exact hpos
  | number hne hdigits =>
    obtain ⟨c, cs, rfl⟩ := List.exists_cons_of_ne_nil hne
    rw [List.cons_append, nextPiece_digit (hdigits c List.mem_cons_self)] at h
    unfold nextNumber at h
    injection h with _ _ h _
    rw [← h]
    exact takeWhile_length hdigits v
  | keyword hmem =>
    obtain ⟨c, cs, hcs, hc, hword⟩ := keywords_chars hmem
    rw [hcs] at h ⊢
    exact nextWord_longest hc hword h
  | identifier hc hcs _ => exact nextWord_longest hc (List.forall_mem_cons.mpr ⟨isWordChar_letter hc, hcs⟩) h
  | string hq hv =>
    rename_i quote value'
    rw [List.cons_append, List.append_assoc, nextPiece_quote hq, List.singleton_append, nextString_eq hv] at h
    injection h with _ _ h _
    rw [h]

theorem IsLexeme.ne_eof (h : IsLexeme type value lexeme) : type ≠ .tEof := by
  cases h with
  | operator => decide
  | char h =>
    have hall : ∀ p ∈ chartokens, p.2 ≠ .tEof := by decide
    exact hall _ h
  | number => decide
  | keyword h =>
    have hall : ∀ p ∈ keywords, p.2 ≠ .tEof := by decide
    exact hall _ h
  | identifier => decide
  | string => decide

/-! ## Gaps -/

theorem splitComment_eq {body rest : List Char} (h : splitComment cs = some (body, rest)) :
    cs = body ++ '*' :: '/' :: rest ∧ EndsComment body := by
  fun_induction splitComment cs generalizing body with
  | case1 => cases h
  | case2 cs =>
    cases h
    exact ⟨rfl, fun i hi => absurd hi (Nat.not_lt_zero i)⟩
  | case3 c cs hne ih =>
    obtain ⟨⟨body', rest'⟩, hsplit, heq⟩ := Option.map_eq_some_iff.mp h
    cases heq
    obtain ⟨hcs, hends⟩ := ih hsplit
    refine ⟨by rw [hcs]; rfl, ?_⟩
    intro i hi hpre
    cases i with
    | zero =>
      obtain ⟨v, hv⟩ := hpre
      rw [List.drop_zero] at hv
      injection hv with hc hv
      have htail : cs = '/' :: (v ++ rest) := by
        calc cs = (body' ++ ['*', '/']) ++ rest := by rw [hcs, List.append_assoc]; rfl
          _ = '/' :: (v ++ rest) := congrArg (· ++ rest) hv.symm
      exact hne (v ++ rest) hc.symm htail
    | succ i => exact hends i (Nat.lt_of_succ_lt_succ hi) hpre

/-- There is no mark of an end in a comment without one. -/
theorem splitComment_no_end (h : splitComment cs = none) : ¬ ['*', '/'] <:+: cs := by
  fun_induction splitComment cs with
  | case1 => exact fun hend => absurd (List.infix_nil.mp hend) (List.cons_ne_nil _ _)
  | case2 => cases h
  | case3 c cs hne ih =>
    intro hend
    rcases List.infix_cons_iff.mp hend with ⟨r, hr⟩ | htail
    · injection hr with hc hcs
      exact hne r hc.symm hcs.symm
    · exact ih (Option.map_eq_none_iff.mp h) htail

/-- What is no gap is no comment without an end either. -/
theorem nextOther_cases (c : Char) (cs : List Char) :
    (∃ type value lexeme r, nextOther c cs = .token type value lexeme r) ∨ nextOther c cs = .invalid := by
  unfold nextOther
  cases chartokens.lookup c with
  | some type => exact .inl ⟨type, _, _, _, rfl⟩
  | none =>
    dsimp only
    split
    · unfold nextString
      cases cs.dropWhile (· != c) with
      | nil => exact .inr rfl
      | cons d r => exact .inl ⟨_, _, _, _, rfl⟩
    · split
      · exact .inl ⟨_, _, _, _, rfl⟩
      · split
        · exact .inl ⟨_, _, _, _, rfl⟩
        · exact .inr rfl

/-- The kinds of a gap: a comment up to the end of its line, one between marks, and a space. -/
theorem nextPiece_gap (h : nextPiece text = .gap u r) :
    text = u ++ r ∧ ((∃ body, u = '/' :: '/' :: body ∧ '\n' ∉ body ∧ ∀ c ∈ r.head?, c = '\n') ∨
      (∃ body, u = '/' :: '*' :: (body ++ ['*', '/']) ∧ splitComment (body ++ '*' :: '/' :: r) = some (body, r)) ∨
      ∃ c, isSpace c = true ∧ u = [c]) := by
  unfold nextPiece at h
  split at h
  · cases h
  · rename_i cs
    have htake : ('/' :: '/' :: cs).takeWhile (· != '\n') = '/' :: '/' :: cs.takeWhile (· != '\n') := by
      rw [List.takeWhile_cons, if_pos (by decide), List.takeWhile_cons, if_pos (by decide)]
    injection h with hu hr
    refine ⟨by rw [← hu, ← hr, List.takeWhile_append_dropWhile], .inl ⟨_, hu.symm.trans htake, ?_, ?_⟩⟩
    · intro hmem
      have hne := List.mem_takeWhile_imp hmem
      simp at hne
    · intro c hc
      have hnot := List.head?_dropWhile_not (· != '\n') ('/' :: '/' :: cs)
      rw [hr, Option.mem_def.mp hc] at hnot
      simpa using hnot
  · rename_i cs
    cases hs : splitComment cs with
    | none =>
      rw [hs] at h
      cases h
    | some p =>
      obtain ⟨body, rest⟩ := p
      rw [hs] at h
      cases h
      have hcs := (splitComment_eq hs).1
      refine ⟨?_, .inr (.inl ⟨body, rfl, hcs ▸ hs⟩)⟩
      rw [hcs]
      simp
  · rename_i c cs _ _
    by_cases hspace : isSpace c = true
    · rw [if_pos hspace] at h
      cases h
      exact ⟨rfl, .inr (.inr ⟨c, hspace, rfl⟩)⟩
    · rw [if_neg hspace] at h
      cases hop : multicharOperators.find? (·.isPrefixOf (c :: cs)) with
      | some l =>
        rw [hop] at h
        cases h
      | none =>
        rw [hop] at h
        rcases nextOther_cases c cs with ⟨_, _, _, _, hother⟩ | hother
        · cases hother.symm.trans h
        · cases hother.symm.trans h

theorem nextPiece_gap_ne_nil (h : nextPiece text = .gap u r) : u ≠ [] := by
  rcases (nextPiece_gap h).2 with ⟨body, rfl, -⟩ | ⟨body, rfl, -⟩ | ⟨c, -, rfl⟩ <;> exact List.cons_ne_nil _ _

/-- The next gap goes before another one. -/
theorem gap_append {v rest : List Char} (h : nextPiece text = .gap u (v ++ rest)) (hv : Gap v rest) :
    Gap (u ++ v) rest := by
  obtain ⟨-, ⟨body, rfl, hbody, hend⟩ | ⟨body, rfl, hs⟩ | ⟨c, hspace, rfl⟩⟩ := nextPiece_gap h
  · exact .line hbody hend hv
  · have hgap := Gap.block (splitComment_eq hs).2 hv
    rwa [List.cons_append, List.cons_append, List.append_assoc]
  · exact .space hspace hv

/-- A comment without an end begins with its mark. -/
theorem nextPiece_unclosed (h : nextPiece text = .unclosed) :
    ∃ cs, text = '/' :: '*' :: cs ∧ splitComment cs = none := by
  unfold nextPiece at h
  split at h
  · cases h
  · cases h
  · rename_i cs
    cases hs : splitComment cs with
    | none => exact ⟨cs, rfl, hs⟩
    | some p =>
      rw [hs] at h
      cases h
  · rename_i c cs _ _
    by_cases hspace : isSpace c = true
    · rw [if_pos hspace] at h
      cases h
    · rw [if_neg hspace] at h
      cases hop : multicharOperators.find? (·.isPrefixOf (c :: cs)) with
      | some l =>
        rw [hop] at h
        cases h
      | none =>
        rw [hop] at h
        rcases nextOther_cases c cs with ⟨_, _, _, _, hother⟩ | hother
        · cases hother.symm.trans h
        · cases hother.symm.trans h

/-- Pieces up to the end of a text are gaps and lexemes. -/
theorem Pieces.lexes {keys : List Key} {ts : List LexToken} (h : Pieces text keys [])
    (hts : ts.map LexToken.key = keys) : Lexes text ts := by
  generalize hrest : ([] : List Char) = rest at h
  induction h generalizing ts with
  | nil rest =>
    obtain rfl := List.map_eq_nil_iff.mp hts
    rw [← hrest]
    exact .done (.nil [])
  | gap hnext hpieces ih =>
    have htext := (nextPiece_gap hnext).1
    cases ih hts hrest with
    | done hg =>
      have hgap := gap_append (v := _) (hnext.trans (by rw [List.append_nil])) hg
      rw [htext]
      exact .done hgap
    | token hg ht hl hlexes =>
      rw [htext, ← List.append_assoc]
      exact .token (gap_append hnext hg) ht hl hlexes
  | token hnext hpieces ih =>
    obtain ⟨t, ts, rfl, ht, hkeys⟩ := List.map_eq_cons_iff.mp hts
    cases ht
    obtain ⟨hlexeme, htext⟩ := nextPiece_token hnext
    rw [htext]
    have hlong := nextPiece_longest hnext
    rw [htext] at hlong
    exact .token (.nil _) hlexeme hlong (ih hkeys hrest)

/-! ## Closed comments -/

theorem closedFrom_code_cons (h : c ∉ ['/', '"', '\'']) : closedFrom .code (c :: cs) = closedFrom .code cs := by
  have hquote : ¬ (c = '"' ∨ c = '\'') := by
    rintro (rfl | rfl)
    · exact h (by decide)
    · exact h (by decide)
  rw [closedFrom, if_neg hquote]
  · rintro r rfl
    exact absurd List.mem_cons_self h
  · rintro r rfl
    exact absurd List.mem_cons_self h

theorem closedFrom_code_append (h : ∀ c ∈ u, c ∉ ['/', '"', '\'']) :
    closedFrom .code (u ++ r) = closedFrom .code r := by
  induction u with
  | nil => rfl
  | cons c u ih =>
    rw [List.cons_append, closedFrom_code_cons (h c List.mem_cons_self)]
    exact ih fun d hd => h d (List.mem_cons_of_mem _ hd)

theorem closedFrom_string (hu : quote ∉ u) :
    closedFrom (.string quote) (u ++ quote :: r) = closedFrom .code r := by
  induction u with
  | nil => rw [List.nil_append, closedFrom, if_pos rfl]
  | cons c u ih =>
    rw [List.mem_cons, not_or] at hu
    rw [List.cons_append, closedFrom, if_neg (fun hc => hu.1 hc.symm)]
    exact ih hu.2

theorem closedFrom_line (hu : '\n' ∉ u) (hr : ∀ c ∈ r.head?, c = '\n') :
    closedFrom .line (u ++ r) = closedFrom .code r := by
  induction u with
  | nil =>
    cases r with
    | nil => rfl
    | cons c r =>
      obtain rfl : c = '\n' := hr c rfl
      exact (closedFrom_code_cons (by decide)).symm
  | cons c u ih =>
    rw [List.mem_cons, not_or] at hu
    rw [List.cons_append, closedFrom, if_neg (fun hc => hu.1 hc.symm)]
    exact ih hu.2

theorem closedFrom_block (cs : List Char) :
    closedFrom .block cs = ((splitComment cs).map fun p => closedFrom .code p.2).getD false := by
  fun_induction splitComment cs with
  | case1 => rfl
  | case2 cs => rw [closedFrom]; rfl
  | case3 c cs hne ih =>
    rw [closedFrom, ih]
    · cases splitComment cs <;> rfl
    · exact hne

theorem closedFrom_gap (h : nextPiece text = .gap u r) : closedFrom .code text = closedFrom .code r := by
  obtain ⟨rfl, ⟨body, rfl, hbody, hend⟩ | ⟨body, rfl, hs⟩ | ⟨c, hspace, rfl⟩⟩ := nextPiece_gap h
  · exact closedFrom_line hbody hend
  · rw [List.cons_append, List.cons_append, List.append_assoc]
    show closedFrom .block (body ++ '*' :: '/' :: r) = _
    rw [closedFrom_block, hs]
    rfl
  · refine closedFrom_code_cons fun hmem => ?_
    have hnone : ['/', '"', '\''].any isSpace = false := by decide
    have hsome := List.any_eq_true.mpr ⟨c, hmem, hspace⟩
    rw [hnone] at hsome
    cases hsome

theorem closedFrom_unclosed (h : nextPiece text = .unclosed) : closedFrom .code text = false := by
  obtain ⟨cs, rfl, hs⟩ := nextPiece_unclosed h
  show closedFrom .block cs = false
  rw [closedFrom_block, hs]
  rfl

theorem closedFrom_token (h : nextPiece text = .token type value lexeme r) :
    closedFrom .code text = closedFrom .code r := by
  obtain ⟨hlexeme, rfl⟩ := nextPiece_token h
  have hclass : ∀ p : Char → Bool, ['/', '"', '\''].any p = false →
      (∀ c ∈ lexeme, p c = true) → closedFrom .code (lexeme ++ r) = closedFrom .code r := by
    intro p hp hall
    apply closedFrom_code_append
    intro c hc hmem
    have htrue := List.any_eq_true.mpr ⟨c, hmem, hall c hc⟩
    rw [hp] at htrue
    cases htrue
  cases hlexeme with
  | operator hmem =>
    have hall : (multicharOperators.all fun l => l.all fun c => c ∉ ['/', '"', '\'']) = true := by decide
    have hchars := List.all_eq_true.mp (List.all_eq_true.mp hall _ hmem)
    exact closedFrom_code_append fun c hc => of_decide_eq_true (hchars c hc)
  | char hmem =>
    rename_i c
    have hall : ∀ p ∈ chartokens, p.1 ∉ ['"', '\''] := by decide
    by_cases hslash : c = '/'
    · subst hslash
      have hmark : ∀ e ∈ ['/', '*'], ∀ s, r ≠ e :: s := by
        rintro e he s rfl
        rcases List.mem_pair.mp he with rfl | rfl
        · cases h
        · rw [List.singleton_append] at h
          unfold nextPiece at h
          cases hsplit : splitComment s with
          | none =>
            simp only [hsplit] at h
            cases h
          | some split =>
            simp only [hsplit] at h
            cases h
      show closedFrom .code ('/' :: r) = _
      rw [closedFrom, if_neg (by decide)]
      · exact fun s _ hr => hmark '/' (by decide) s hr
      · exact fun s _ hr => hmark '*' (by decide) s hr
    · refine closedFrom_code_cons fun hmem' => ?_
      rcases List.mem_cons.mp hmem' with hc | hc
      · exact hslash hc
      · exact hall _ hmem hc
  | number hne hdigits => exact hclass _ (by decide) hdigits
  | keyword hmem =>
    obtain ⟨c, cs, hcs, hc, hword⟩ := keywords_chars hmem
    exact hclass isWordChar (by decide) (hcs ▸ hword)
  | identifier hc hcs _ =>
    exact hclass isWordChar (by decide) (List.forall_mem_cons.mpr ⟨isWordChar_letter hc, hcs⟩)
  | string hq hv =>
    rename_i quote value
    have hbody : closedFrom .code (quote :: (value ++ quote :: r)) =
        closedFrom (.string quote) (value ++ quote :: r) := by
      rcases hq with rfl | rfl <;> rfl
    rw [List.cons_append, List.append_assoc, List.singleton_append, hbody, closedFrom_string hv]

/-! ## Printed tokens -/

/-- The text ends or goes on with a space. -/
def Apart (r : List Char) : Prop := r = [] ∨ ∃ s, r = ' ' :: s

theorem takeWhile_apart {p : Char → Bool} (hu : ∀ c ∈ u, p c = true) (hp : p ' ' = false) (hr : Apart r) :
    (u ++ r).takeWhile p = u ∧ (u ++ r).dropWhile p = r := by
  have hstop : r.takeWhile p = [] ∧ r.dropWhile p = r := by
    rcases hr with rfl | ⟨s, rfl⟩
    · exact ⟨rfl, rfl⟩
    · have hno : ¬ p ' ' = true := Bool.eq_false_iff.mp hp
      exact ⟨by rw [List.takeWhile_cons, if_neg hno], by rw [List.dropWhile_cons, if_neg hno]⟩
  rw [List.takeWhile_append_of_pos hu, List.dropWhile_append_of_pos hu, hstop.1, hstop.2, List.append_nil]
  exact ⟨rfl, rfl⟩

theorem nextPiece_word (hc : c.isAlpha = true ∨ c = '_') (hword : ∀ d ∈ c :: cs, isWordChar d = true)
    (hr : Apart r) : nextPiece (c :: cs ++ r) = .token
      ((keywords.lookup (String.ofList (c :: cs))).getD .tIdentifier) (String.ofList (c :: cs)) (c :: cs) r := by
  obtain ⟨htake, hdrop⟩ := takeWhile_apart hword (by decide) hr
  rw [List.cons_append] at htake hdrop ⊢
  rw [nextPiece_letter hc]
  unfold nextWord
  rw [htake, hdrop]

/-- A lexeme apart from what follows is found as it is. -/
theorem nextPiece_lexeme (h : IsLexeme type value lexeme) (hr : Apart r) :
    nextPiece (lexeme ++ r) = .token type value lexeme r := by
  cases h with
  | operator hmem =>
    have hfind : multicharOperators.find? (·.isPrefixOf (lexeme ++ r)) = some lexeme := by
      unfold multicharOperators at hmem
      simp only [List.mem_cons, List.not_mem_nil, or_false] at hmem
      rcases hr with rfl | ⟨s, rfl⟩
      · rcases hmem with rfl | rfl | rfl | rfl | rfl | rfl <;> rfl
      · rcases hmem with rfl | rfl | rfl | rfl | rfl | rfl <;> rfl
    rw [nextPiece_operator hfind, List.drop_left]
  | char hmem =>
    rename_i c
    have hall : ∀ p ∈ chartokens, nextPiece (p.1 :: r) = .token p.2 p.1.toString [p.1] r := by
      unfold chartokens
      simp only [List.forall_mem_cons]
      have hnil : ∀ p ∈ ([] : List (Char × LexTokenType)),
          nextPiece (p.1 :: r) = .token p.2 p.1.toString [p.1] r := fun p hp => absurd hp List.not_mem_nil
      rcases hr with rfl | ⟨s, rfl⟩
      · exact ⟨rfl, rfl, rfl, rfl, rfl, rfl, rfl, rfl, rfl, rfl, rfl, rfl, rfl, rfl, rfl, rfl, rfl, hnil⟩
      · exact ⟨rfl, rfl, rfl, rfl, rfl, rfl, rfl, rfl, rfl, rfl, rfl, rfl, rfl, rfl, rfl, rfl, rfl, hnil⟩
    exact hall _ hmem
  | number hne hdigits =>
    obtain ⟨htake, hdrop⟩ := takeWhile_apart hdigits (by decide) hr
    obtain ⟨c, cs, rfl⟩ := List.exists_cons_of_ne_nil hne
    rw [List.cons_append] at htake hdrop ⊢
    rw [nextPiece_digit (hdigits c List.mem_cons_self)]
    unfold nextNumber
    rw [htake, hdrop]
  | keyword hmem =>
    obtain ⟨c, cs, hcs, hc, hword⟩ := keywords_chars hmem
    have hlookup : ∀ p ∈ keywords, keywords.lookup p.1 = some p.2 := by decide
    rw [hcs, nextPiece_word hc hword hr, ← hcs, String.ofList_toList, hlookup _ hmem]
    rfl
  | identifier hc hcs hk =>
    rename_i c cs
    have hlookup : keywords.lookup (String.ofList (c :: cs)) = none := by
      rw [List.lookup_eq_none_iff]
      intro p hp
      refine bne_iff_ne.mpr fun heq => ?_
      exact hk p.2 (heq ▸ hp)
    rw [nextPiece_word hc (List.forall_mem_cons.mpr ⟨isWordChar_letter hc, hcs⟩) hr, hlookup]
    rfl
  | string hq hv =>
    rw [List.cons_append, List.append_assoc, List.singleton_append, nextPiece_quote hq, nextString_eq hv]

theorem isLexeme_printToken (h : IsLexeme type value lexeme) : IsLexeme type value (printToken (type, value)) := by
  have hother : type ≠ .tString → value.toList = lexeme → IsLexeme type value (printToken (type, value)) := by
    intro htype hvalue
    unfold printToken
    rwa [if_neg htype, hvalue]
  cases h with
  | operator hmem => exact hother (by decide) String.toList_ofList
  | char hmem =>
    have hall : ∀ p ∈ chartokens, p.2 ≠ .tString := by decide
    exact hother (hall _ hmem) (by simp)
  | number hne hdigits => exact hother (by decide) String.toList_ofList
  | keyword hmem =>
    have hall : ∀ p ∈ keywords, p.2 ≠ .tString := by decide
    exact hother (hall _ hmem) rfl
  | identifier hc hcs hk => exact hother (by decide) String.toList_ofList
  | string hq hv =>
    rename_i quote value
    unfold printToken
    rw [if_pos rfl, String.toList_ofList]
    by_cases hdouble : '"' ∈ value
    · rw [if_pos hdouble]
      refine .string (.inr rfl) ?_
      rcases hq with rfl | rfl
      · exact absurd hdouble hv
      · exact hv
    · rw [if_neg hdouble]
      exact .string (.inl rfl) hdouble

theorem printTokens_cons (t : Key) {ts : List Key} (hts : ts ≠ []) :
    printTokens (t :: ts) = printToken t ++ ' ' :: printTokens ts := by
  obtain ⟨t', ts, rfl⟩ := List.exists_cons_of_ne_nil hts
  unfold printTokens
  rw [List.map_cons, List.map_cons, List.intercalate_cons_cons]
  simp

/-- The text of printed tokens is made up of their lexemes. -/
theorem pieces_printTokens {ts : List Key} (h : ∀ t ∈ ts, ∃ lexeme, IsLexeme t.1 t.2 lexeme) :
    Pieces (printTokens ts) ts [] := by
  induction ts with
  | nil => exact .nil []
  | cons t ts ih =>
    obtain ⟨⟨lexeme, hlexeme⟩, hts⟩ := List.forall_mem_cons.mp h
    have hprint := isLexeme_printToken hlexeme
    by_cases hne : ts = []
    · subst hne
      have hlast : printTokens [t] = printToken t ++ [] := by simp [printTokens]
      rw [hlast]
      exact .token (nextPiece_lexeme hprint (.inl rfl)) (.nil [])
    · rw [printTokens_cons t hne]
      have hspace : nextPiece (' ' :: printTokens ts) = .gap [' '] (printTokens ts) := rfl
      exact .token (nextPiece_lexeme hprint (.inr ⟨_, rfl⟩)) (.gap hspace (ih hts))

/-- What a text is made up of has a kind and a value. -/
theorem Lexes.isLexeme {ts : List LexToken} (h : Lexes text ts) :
    ∀ t ∈ ts, ∃ lexeme, IsLexeme t.type t.value lexeme := by
  induction h with
  | done hg => exact fun t ht => absurd ht List.not_mem_nil
  | token hg ht hl h ih => exact List.forall_mem_cons.mpr ⟨⟨_, ht⟩, ih⟩

end Blaze
