import Blazescript.Syntax.Parser

/-!
# Proofs: the bound of the parser

Once the bound is large enough for the parser to end, a larger one changes nothing.
-/

namespace Blaze

/-- Where the first computation has fuel enough, the second does the same. -/
def Approximates {α : Type} (x y : ParserM α) : Prop :=
  ∀ p, (∃ p', x p = .error .outOfFuel p') ∨ x p = y p

namespace Approximates

variable {α β : Type}

theorem refl (x : ParserM α) : Approximates x x := fun _ => .inr rfl

theorem outOfFuel (x : ParserM α) : Approximates (throw .outOfFuel) x := fun p => .inl ⟨p, rfl⟩

theorem bind {x y : ParserM α} {f g : α → ParserM β} (hx : Approximates x y)
    (hf : ∀ a, Approximates (f a) (g a)) : Approximates (x >>= f) (y >>= g) := by
  intro p
  show (∃ p', EStateM.bind x f p = _) ∨ EStateM.bind x f p = EStateM.bind y g p
  unfold EStateM.bind
  rcases hx p with ⟨p', h⟩ | h
  · rw [h]
    exact .inl ⟨p', rfl⟩
  · rw [← h]
    cases x p with
    | error e p' => exact .inr rfl
    | ok a p' => exact hf a p'

/-- Two computations that begin alike. -/
theorem after {x : ParserM α} {f g : α → ParserM β} (hf : ∀ a, Approximates (f a) (g a)) :
    Approximates (x >>= f) (x >>= g) := bind (refl x) hf

theorem ite {c : Prop} [Decidable c] {x x' y y' : ParserM α} (hx : Approximates x x')
    (hy : Approximates y y') : Approximates (if c then x else y) (if c then x' else y') := by
  by_cases h : c
  · rw [if_pos h, if_pos h]
    exact hx
  · rw [if_neg h, if_neg h]
    exact hy

theorem loop {cond : ParserM Bool} {body body' : α → ParserM (α × Bool)}
    (hbody : ∀ a, Approximates (body a) (body' a)) {n m : Nat} (h : n ≤ m) :
    ∀ a, Approximates (parserWhile cond body n a) (parserWhile cond body' m a) := by
  induction n generalizing m with
  | zero => exact fun _ => outOfFuel _
  | succ n ih =>
    obtain ⟨m, rfl⟩ : ∃ k, m = k + 1 := ⟨m - 1, by omega⟩
    intro a
    refine after fun b => ite (bind (hbody a) fun r => ?_) (refl _)
    exact ite (ih (Nat.le_of_succ_le_succ h) r.1) (refl _)

end Approximates

/-! ## Expressions -/

section Expressions

variable {parseExpr parseExpr' : ParserM AstNode} (hexpr : Approximates parseExpr parseExpr') {n m : Nat}

include hexpr

theorem approximates_primary :
    Approximates (parserParsePrimaryExpr parseExpr) (parserParsePrimaryExpr parseExpr') := by
  refine .after fun token => .after fun _ => ?_
  split
  · exact .refl _
  · exact .refl _
  · exact .refl _
  · exact .after fun _ => .bind hexpr fun _ => .refl _
  · exact .refl _

theorem approximates_call (h : n ≤ m) :
    Approximates (parserParseCallExpr parseExpr n) (parserParseCallExpr parseExpr' m) := by
  refine .after fun _ => .ite ?_ (approximates_primary hexpr)
  refine .after fun _ => .after fun _ => .after fun _ => ?_
  exact .bind (.loop (fun _ => .bind hexpr fun _ => .refl _) h _) fun _ => .refl _

omit hexpr in
theorem approximates_binexp (isOperator : String → Bool) {operand operand' : ParserM AstNode}
    (hoperand : Approximates operand operand') (h : n ≤ m) :
    Approximates (parserParseBinexp isOperator operand n) (parserParseBinexp isOperator operand' m) := by
  refine .bind hoperand fun left => .loop (fun a => ?_) h left
  exact .after fun _ => .bind hoperand fun _ => .refl _

theorem approximates_arrayLit (h : n ≤ m) :
    Approximates (parserParseArrayLit parseExpr n) (parserParseArrayLit parseExpr' m) := by
  refine .after fun token => .ite ?_ ?_
  · refine approximates_binexp _ (approximates_binexp _ (approximates_binexp _ ?_ h) h) h
    exact approximates_call hexpr h
  · refine .after fun _ => .after fun _ => ?_
    exact .bind (.loop (fun _ => .bind hexpr fun _ => .refl _) h _) fun _ => .refl _

theorem approximates_assignment (h : n ≤ m) :
    Approximates (parserParseAssignmentExpr parseExpr n) (parserParseAssignmentExpr parseExpr' m) := by
  refine .after fun _ => .after fun _ => .ite ?_ (approximates_arrayLit hexpr h)
  exact .after fun _ => .after fun _ => .bind hexpr fun _ => .refl _

end Expressions

theorem approximates_parserParseExpr {n m : Nat} (h : n ≤ m) :
    Approximates (parserParseExpr n) (parserParseExpr m) := by
  induction n generalizing m with
  | zero => exact .outOfFuel _
  | succ n ih =>
    obtain ⟨m, rfl⟩ : ∃ k, m = k + 1 := ⟨m - 1, by omega⟩
    have h := Nat.le_of_succ_le_succ h
    exact approximates_assignment (ih h) h

/-! ## Statements -/

section Statements

variable {parseExpr parseExpr' parseStmt parseStmt' : ParserM AstNode}
  (hexpr : Approximates parseExpr parseExpr') (hstmt : Approximates parseStmt parseStmt') {n m : Nat}

include hstmt

theorem approximates_children (h : n ≤ m) (type : LexTokenType) : Approximates
    (parserWhile (parserBefore type) (parserParseChild parseStmt) n [])
    (parserWhile (parserBefore type) (parserParseChild parseStmt') m []) :=
  .loop (fun _ => .bind hstmt fun _ => .refl _) h _

theorem approximates_fnDecl (h : n ≤ m) :
    Approximates (parserParseFnDecl parseStmt n) (parserParseFnDecl parseStmt' m) := by
  refine .after fun _ => .after fun _ => .after fun _ => .after fun _ => ?_
  refine .bind (.loop (fun _ => .refl _) h _) fun _ => .after fun _ => .after fun _ => ?_
  exact .bind (approximates_children hstmt h _) fun _ => .refl _

include hexpr

theorem approximates_if :
    Approximates (parserParseIf parseExpr parseStmt) (parserParseIf parseExpr' parseStmt') := by
  refine .after fun _ => .after fun _ => .bind hexpr fun _ => .after fun _ => ?_
  refine .bind hstmt fun _ => .bind ?_ fun _ => .refl _
  exact .after fun _ => .ite (.after fun _ => .bind hstmt fun _ => .refl _) (.refl _)

theorem approximates_loop :
    Approximates (parserParseLoopStmt parseExpr parseStmt)
      (parserParseLoopStmt parseExpr' parseStmt') := by
  refine .after fun _ => .after fun _ => .after fun _ => .bind ?_ fun _ => ?_
  · exact .after fun _ => .ite (.after fun _ => .bind hexpr fun _ => .refl _) (.refl _)
  · exact .after fun _ => .bind hstmt fun _ => .refl _

omit hstmt in
theorem approximates_varDecl :
    Approximates (parserParseVarDecl parseExpr) (parserParseVarDecl parseExpr') := by
  refine .after fun _ => .after fun _ => .after fun _ => .after fun _ => ?_
  exact .ite (.refl _) (.after fun _ => .bind hexpr fun _ => .refl _)

theorem approximates_stmtKind (h : n ≤ m) (type : LexTokenType) : Approximates
    (parserParseStmtKind parseExpr parseStmt n type)
    (parserParseStmtKind parseExpr' parseStmt' m type) := by
  unfold parserParseStmtKind
  split
  · exact .bind (approximates_varDecl hexpr) fun _ => .refl _
  · exact .bind (approximates_varDecl hexpr) fun _ => .refl _
  · exact .bind (approximates_fnDecl hstmt h) fun _ => .refl _
  · refine .bind (.after fun _ => ?_) fun _ => .refl _
    exact .bind (approximates_children hstmt h _) fun _ => .refl _
  · exact .bind (approximates_if hexpr hstmt) fun _ => .refl _
  · exact .bind (approximates_loop hexpr hstmt) fun _ => .refl _
  · exact .bind hexpr fun _ => .refl _

theorem approximates_stmtBody (h : n ≤ m) :
    Approximates (parserParseStmtBody parseExpr parseStmt n)
      (parserParseStmtBody parseExpr' parseStmt' m) := by
  refine .after fun token => .bind (approximates_stmtKind hexpr hstmt h token.type) fun _ => ?_
  exact .after fun _ => .bind (.loop (fun _ => .refl _) h _) fun _ => .refl _

end Statements

theorem approximates_parserParseStmt {n m : Nat} (h : n ≤ m) :
    Approximates (parserParseStmt n) (parserParseStmt m) := by
  induction n generalizing m with
  | zero => exact .outOfFuel _
  | succ n ih =>
    obtain ⟨m, rfl⟩ : ∃ k, m = k + 1 := ⟨m - 1, by omega⟩
    have h' := Nat.le_of_succ_le_succ h
    exact approximates_stmtBody (approximates_parserParseExpr h) (ih h') h'

theorem approximates_parserCreateAstNode {n m : Nat} (h : n ≤ m) :
    Approximates (parserCreateAstNode n) (parserCreateAstNode m) :=
  .bind (.loop (fun _ => .bind (approximates_parserParseStmt h) fun _ => .refl _) h _) fun _ => .refl _

end Blaze
