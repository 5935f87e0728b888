import Blazescript.Syntax.Proofs.LexingProofs
import Blazescript.Syntax.Proofs.StmtProofs

/-!
# Proofs: programs from their text

What a program is printed to can be written as lexemes, so the lexer finds its tokens, and the parser its tree.
-/

namespace Blaze

variable {n m : Nat} {e : Expr} {s : Stmt} {key : Key} {type : LexTokenType} {text : String} {ks : List Key}

/-! ## Lexemes -/

theorem hasLexeme_char {c : Char} (h : (c, type) ∈ chartokens) (ht : text = c.toString) : HasLexeme (type, text) := by
  intro _
  rw [ht]
  exact ⟨_, .char h⟩

theorem hasLexeme_keyword (h : (text, type) ∈ keywords) : HasLexeme (type, text) := fun _ => ⟨_, .keyword h⟩

theorem hasLexeme_number (v : Nat) : HasLexeme (.tIntLit, v.repr) := by
  intro _
  have hrepr : v.repr = String.ofList (Nat.toDigits 10 v) := by rw [← Nat.toList_repr, String.ofList_toList]
  rw [hrepr]
  refine ⟨_, .number Nat.toDigits_ne_nil fun c hc => ?_⟩
  exact Nat.isDigit_of_mem_toDigits (by omega) (by omega) hc

theorem hasLexeme_identifier (name : String) : HasLexeme (.tIdentifier, name) := by
  intro h
  have h : isName name = true := h
  unfold isName at h
  cases hname : name.toList with
  | nil =>
    rw [hname] at h
    cases h
  | cons c cs =>
    rw [hname] at h
    simp only [Bool.and_eq_true, Bool.or_eq_true, decide_eq_true_eq, List.all_eq_true, Bool.not_eq_true',
      List.contains_eq_mem, decide_eq_false_iff_not] at h
    obtain ⟨⟨hc, hcs⟩, hk⟩ := h
    have hlist : name = String.ofList (c :: cs) := by rw [← hname, String.ofList_toList]
    rw [hlist] at hk ⊢
    refine ⟨_, .identifier hc hcs fun type hmem => hk ?_⟩
    exact List.mem_map_of_mem (f := Prod.fst) hmem

theorem hasLexeme_string (value : String) : HasLexeme (.tString, value) := by
  intro h
  have h : isQuotable value = true := h
  unfold isQuotable at h
  simp only [Bool.and_eq_true, Bool.or_eq_true, Bool.not_eq_true', List.contains_eq_mem,
    decide_eq_false_iff_not] at h
  have hvalue : value = String.ofList value.toList := (String.ofList_toList).symm
  rcases h.2 with hdouble | hsingle
  · rw [hvalue]
    exact ⟨_, .string (.inl rfl) hdouble⟩
  · rw [hvalue]
    exact ⟨_, .string (.inr rfl) hsingle⟩

theorem hasLexeme_multichar {m : List Char} (h : m ∈ multicharOperators) :
    HasLexeme (.tBinaryOperator, String.ofList m) := fun _ => ⟨_, .operator h⟩

theorem hasLexeme_operator (operator : BinOperator) : HasLexeme (.tBinaryOperator, operator.text) := by
  cases operator with
  | opPlus => exact hasLexeme_char (c := '+') (by decide) rfl
  | opMinus => exact hasLexeme_char (c := '-') (by decide) rfl
  | opDivide => exact hasLexeme_char (c := '/') (by decide) rfl
  | opTimes => exact hasLexeme_char (c := '*') (by decide) rfl
  | opModulus => exact hasLexeme_char (c := '%') (by decide) rfl
  | opCmpLt => exact hasLexeme_char (c := '<') (by decide) rfl
  | opCmpGt => exact hasLexeme_char (c := '>') (by decide) rfl
  | opCmpGe => exact hasLexeme_multichar (m := ['>', '=']) (by decide)
  | opCmpLe => exact hasLexeme_multichar (m := ['<', '=']) (by decide)
  | opCmpEq => exact hasLexeme_multichar (m := ['=', '=']) (by decide)
  | opCmpEqS => exact hasLexeme_multichar (m := ['=', '=', '=']) (by decide)
  | opCmpNe => exact hasLexeme_multichar (m := ['!', '=']) (by decide)
  | opCmpNeS => exact hasLexeme_multichar (m := ['!', '=', '=']) (by decide)

theorem hasLexeme_parenOpen : HasLexeme (.tParenOpen, "(") := hasLexeme_char (c := '(') (by decide) rfl

theorem hasLexeme_parenClose : HasLexeme (.tParenClose, ")") := hasLexeme_char (c := ')') (by decide) rfl

theorem hasLexeme_comma : HasLexeme (.tComma, ",") := hasLexeme_char (c := ',') (by decide) rfl

theorem hasLexeme_assignment : HasLexeme (.tAssignment, "=") := hasLexeme_char (c := '=') (by decide) rfl

theorem hasLexeme_semicolon : HasLexeme (.tSemicolon, ";") := hasLexeme_char (c := ';') (by decide) rfl

theorem hasLexeme_braces : HasLexeme (.tBlockBraceOpen, "\x7b") ∧ HasLexeme (.tBlockBraceClose, "\x7d") :=
  ⟨hasLexeme_char (c := '\x7b') (by decide) rfl, hasLexeme_char (c := '\x7d') (by decide) rfl⟩

theorem hasLexeme_squareBraces : HasLexeme (.tSquareBraceOpen, "[") ∧ HasLexeme (.tSquareBraceClose, "]") :=
  ⟨hasLexeme_char (c := '[') (by decide) rfl, hasLexeme_char (c := ']') (by decide) rfl⟩

/-- Parentheses are lexemes. -/
theorem hasLexeme_parenthesise {needed : Bool} (h : ∀ key ∈ ks, HasLexeme key) :
    ∀ key ∈ parenthesise needed ks, HasLexeme key := by
  unfold parenthesise
  cases needed with
  | false => exact h
  | true =>
    rw [if_pos rfl, List.forall_mem_cons, List.forall_mem_append, List.forall_mem_singleton]
    exact ⟨hasLexeme_parenOpen, h, hasLexeme_parenClose⟩

mutual

theorem Expr.hasLexeme : ∀ (e : Expr) (k : Nat), ∀ key ∈ e.print k, HasLexeme key
  | .intLit intval, k => by
    rw [Expr.print, List.forall_mem_singleton]
    exact hasLexeme_number intval.val
  | .string strval, k => by
    rw [Expr.print, List.forall_mem_singleton]
    exact hasLexeme_string strval
  | .identifier symbol, k => by
    rw [Expr.print, List.forall_mem_singleton]
    exact hasLexeme_identifier symbol
  | .call identifier args, k => by
    rw [Expr.print, List.forall_mem_cons, List.forall_mem_cons, List.forall_mem_append, List.forall_mem_singleton]
    exact ⟨hasLexeme_identifier identifier, hasLexeme_parenOpen, hasLexeme_all args, hasLexeme_parenClose⟩
  | .assignment assignee value, k => by
    rw [Expr.print]
    refine hasLexeme_parenthesise ?_
    rw [List.forall_mem_cons, List.forall_mem_cons]
    exact ⟨hasLexeme_identifier assignee, hasLexeme_assignment, value.hasLexeme 0⟩
  | .arrayLit elements, k => by
    rw [Expr.print]
    refine hasLexeme_parenthesise ?_
    rw [List.forall_mem_cons, List.forall_mem_cons, List.forall_mem_append, List.forall_mem_singleton]
    exact ⟨hasLexeme_keyword (by decide), hasLexeme_squareBraces.1, hasLexeme_all elements, hasLexeme_squareBraces.2⟩
  | .binary operator left right, k => by
    rw [Expr.print]
    refine hasLexeme_parenthesise ?_
    rw [List.forall_mem_append, List.forall_mem_cons]
    exact ⟨left.hasLexeme _, hasLexeme_operator operator, right.hasLexeme _⟩

theorem hasLexeme_all : ∀ es : List Expr, ∀ key ∈ printAll es, HasLexeme key
  | [] => by
    rw [printAll]
    exact List.forall_mem_nil _
  | [e] => by
    rw [printAll]
    exact e.hasLexeme 0
  | e :: e' :: es => by
    rw [printAll]
    · rw [List.forall_mem_append, List.forall_mem_cons]
      exact ⟨e.hasLexeme 0, hasLexeme_comma, hasLexeme_all (e' :: es)⟩
    · simp

end

theorem hasLexeme_params : ∀ names : List String, ∀ key ∈ printParams names, HasLexeme key
  | [] => List.forall_mem_nil _
  | [name] => by
    rw [printParams, List.forall_mem_singleton]
    exact hasLexeme_identifier name
  | name :: name' :: names => by
    rw [printParams]
    · rw [List.forall_mem_cons, List.forall_mem_cons]
      exact ⟨hasLexeme_identifier name, hasLexeme_comma, hasLexeme_params (name' :: names)⟩
    · simp

theorem hasLexeme_name (name : Option String) : ∀ key ∈ printName name, HasLexeme key := by
  cases name with
  | none => exact List.forall_mem_nil _
  | some name => exact List.forall_mem_singleton.mpr (hasLexeme_identifier name)

theorem hasLexeme_header (e : Expr) : ∀ key ∈ printHeader e, HasLexeme key := by
  unfold printHeader
  rw [List.forall_mem_cons, List.forall_mem_append, List.forall_mem_singleton]
  exact ⟨hasLexeme_parenOpen, e.hasLexeme 0, hasLexeme_parenClose⟩

mutual

theorem Stmt.hasLexeme : ∀ s : Stmt, ∀ key ∈ s.print, HasLexeme key
  | .varDecl name => by
    rw [Stmt.print, List.forall_mem_cons, List.forall_mem_cons, List.forall_mem_singleton]
    exact ⟨hasLexeme_keyword (by decide), hasLexeme_identifier name, hasLexeme_semicolon⟩
  | .varInit isConst name value => by
    have hkeyword : HasLexeme (declKeyword isConst) := by
      cases isConst with
      | false => exact hasLexeme_keyword (by decide)
      | true => exact hasLexeme_keyword (by decide)
    rw [Stmt.print, List.forall_mem_cons, List.forall_mem_cons, List.forall_mem_cons, List.forall_mem_append,
      List.forall_mem_singleton]
    exact ⟨hkeyword, hasLexeme_identifier name, hasLexeme_assignment, value.hasLexeme 0, hasLexeme_semicolon⟩
  | .exprStmt value => by
    rw [Stmt.print, List.forall_mem_append, List.forall_mem_singleton]
    exact ⟨value.hasLexeme 0, hasLexeme_semicolon⟩
  | .fnDecl identifier names body => by
    rw [Stmt.print, List.forall_mem_cons, List.forall_mem_cons, List.forall_mem_cons, List.forall_mem_append,
      List.forall_mem_cons, List.forall_mem_cons, List.forall_mem_append, List.forall_mem_singleton]
    exact ⟨hasLexeme_keyword (by decide), hasLexeme_identifier identifier, hasLexeme_parenOpen, hasLexeme_params names,
      hasLexeme_parenClose, hasLexeme_braces.1, hasLexeme_stmts body, hasLexeme_braces.2⟩
  | .block children => by
    rw [Stmt.print, List.forall_mem_cons, List.forall_mem_append, List.forall_mem_singleton]
    exact ⟨hasLexeme_braces.1, hasLexeme_stmts children, hasLexeme_braces.2⟩
  | .ifStmt condition ifBlock => by
    rw [Stmt.print, List.forall_mem_cons, List.forall_mem_append]
    exact ⟨hasLexeme_keyword (by decide), hasLexeme_header condition, ifBlock.hasLexeme⟩
  | .ifElse condition ifBlock elseBlock => by
    rw [Stmt.print, List.forall_mem_cons, List.forall_mem_append, List.forall_mem_append, List.forall_mem_cons]
    exact ⟨hasLexeme_keyword (by decide), hasLexeme_header condition, ifBlock.hasLexeme, hasLexeme_keyword (by decide),
      elseBlock.hasLexeme⟩
  | .loop name body => by
    rw [Stmt.print, List.forall_mem_cons, List.forall_mem_append]
    exact ⟨hasLexeme_keyword (by decide), hasLexeme_name name, body.hasLexeme⟩
  | .loopCount count name body => by
    rw [Stmt.print, List.forall_mem_cons, List.forall_mem_append, List.forall_mem_append]
    exact ⟨hasLexeme_keyword (by decide), hasLexeme_header count, hasLexeme_name name, body.hasLexeme⟩

theorem hasLexeme_stmts : ∀ ss : List Stmt, ∀ key ∈ printStmts ss, HasLexeme key
  | [] => List.forall_mem_nil _
  | s :: ss => by
    rw [printStmts, List.forall_mem_append]
    exact ⟨s.hasLexeme, hasLexeme_stmts ss⟩

end

/-! ## Programs -/

/-- The text of a program is read as its tokens. -/
theorem lexAnalyze_text (program : Program) (filename : String) (hn : program.text.length < n) :
    ∃ lex ts eof, lexAnalyze n (lexInit filename program.text) = .ok () lex ∧ lex.tokens = ts ++ [eof] ∧
      ts.map LexToken.key = program.print ∧ eof.type = .tEof := by
  have hlexemes : ∀ key ∈ program.print, ∃ lexeme, IsLexeme key.1 key.2 lexeme := by
    intro key hkey
    exact hasLexeme_stmts program.stmts key hkey (List.all_eq_true.mp program.writable key hkey)
  obtain ⟨lex, ts, eof, hok, htokens, hkeys, heof, -⟩ := lexAnalyze_pieces filename (pieces_printTokens hlexemes) hn
  exact ⟨lex, ts, eof, hok, htokens, hkeys, congrArg Prod.fst heof⟩

/-- A program is read back from its text: the lexer accepts the text, and the parser the tokens, for the tree of the
program. -/
theorem parse_text (program : Program) (filename : String) (n m : Nat) (hn : program.text.length < n)
    (hm : program.print.length < m) :
    ∃ lex node p, lexAnalyze n (lexInit filename program.text) = .ok () lex ∧
      parserCreateAstNode m (.init lex.tokens (some filename)) = .ok node p ∧ node.erase = program.toNode := by
  obtain ⟨lex, ts, eof, hok, htokens, hkeys, heof⟩ := lexAnalyze_text program filename hn
  have hlen : ts.length < m := by
    rw [← hkeys, List.length_map] at hm
    exact hm
  obtain ⟨node, hnode, herase⟩ := consumes_program program hkeys heof hlen (.init (ts ++ [eof]) (some filename)) rfl
  rw [← htokens] at hnode
  exact ⟨lex, node, _, hok, hnode, herase⟩

/-- A function with a branch that has a loop, and a call of it. -/
def printsInside : Program where
  stmts := [.fnDecl "f" ["a", "b"] [.ifElse (.binary .opCmpLt (.identifier "a") (.identifier "b"))
      (.block [.exprStmt (.call "println" [.string "it's", .identifier "a"])])
      (.loopCount (.identifier "b") (some "i") (.exprStmt (.call "f" [.binary .opPlus (.identifier "a") (.intLit 1),
        .identifier "i"])))],
    .exprStmt (.call "f" [.intLit 1, .binary .opTimes (.intLit 2) (.binary .opPlus (.intLit 3) (.intLit 4))])]
  plain := by decide
  writable := by decide +kernel

theorem parse_text_printsInside : ∃ lex node p,
    lexAnalyze 200 (lexInit "main.bl" printsInside.text) = .ok () lex ∧
      parserCreateAstNode 100 (.init lex.tokens (some "main.bl")) = .ok node p ∧ node.erase = printsInside.toNode :=
  parse_text printsInside "main.bl" 200 100 (by decide +kernel) (by decide +kernel)

end Blaze
