import Blazescript.Syntax.Separated
import Blazescript.Syntax.Proofs.TerminationProofs

/-!
# Proofs: where the parser and the language agree

The language is what the parser accepts in which no operands stand side by side.
-/

namespace Blaze

variable {d : Nat} {t : LexToken} {u v : List LexToken} {r : Rules} {g : Nonterminal}
  {ns : List AstNode} {level : Level}

/-! ## Nesting -/

@[simp] theorem nesting_nil : nesting d [] = d := rfl

@[simp] theorem nesting_cons : nesting d (t :: u) = nesting (t.type.nest d) u := rfl

@[simp] theorem nesting_append : nesting d (u ++ v) = nesting (nesting d u) v := List.foldl_append

/-- What separates the arguments of a call is a comma or nothing. -/
theorem nesting_sep {s : List LexToken} (h : parserRules.sep s) : nesting d s = d := by
  rcases h with rfl | ⟨comma, rfl, hc⟩
  · rfl
  · simp [hc, LexTokenType.nest]

theorem nesting_params {names : List String} (h : Params u names) : nesting d u = d := by
  induction h with
  | nil => rfl
  | last hx => simp [hx, LexTokenType.nest]
  | cons hx hc _ ih => simpa [hx, hc, LexTokenType.nest] using ih

theorem nesting_loopVarname {name : Option String} (h : LoopVarname u name) : nesting d u = d := by
  cases h with
  | none => rfl
  | some hx => simp [hx, LexTokenType.nest]

theorem nesting_loopAs {name : Option String} (h : LoopAs u name) : nesting d u = d := by
  cases h with
  | none => rfl
  | some ha hx => simp [ha, hx, LexTokenType.nest]

theorem nesting_semicolons (h : ∀ t ∈ u, t.type = .tSemicolon) : nesting d u = d := by
  induction u with
  | nil => rfl
  | cons t u ih =>
    rw [nesting_cons, h t List.mem_cons_self]
    exact ih fun t ht => h t (List.mem_cons_of_mem _ ht)

/-- What is derived closes the parentheses and brackets that it opens. -/
theorem nesting_derives (h : Derives parserRules g u ns) : ∀ d, nesting d u = d := by
  induction h with
  | identifier ht | intLit ht | string ht => simp [ht, LexTokenType.nest]
  | paren ho hc _ ih => simp [ho, hc, ih, LexTokenType.nest]
  | call hf ho hc _ ih => simp [hf, ho, hc, ih, LexTokenType.nest]
  | primary _ ih | single _ ih | comparison _ ih | operand _ ih | argsLast _ ih | elementsLast _ ih =>
    exact ih
  | binary _ ho _ _ ihl ihr => simp [ho, ihl, ihr, LexTokenType.nest]
  | arrayLit ha ho hc _ ih => simp [ha, ho, hc, ih, LexTokenType.nest]
  | assignment hx ho _ ih => simp [hx, ho, ih, LexTokenType.nest]
  | argsNil | elementsNil | stmtsNil => simp
  | argsCons _ hs _ ih iht => simp [nesting_sep hs, ih, iht]
  | elementsCons _ hc _ ih iht => simp [hc, ih, iht, LexTokenType.nest]
  | varDecl hk hx hs => simp [hk, hx, hs, LexTokenType.nest]
  | varInit hk hx ho _ hs ih =>
    rcases hk with hk | hk <;> simp [hk, hx, ho, hs, ih, LexTokenType.nest]
  | exprStmt _ hs ih => simp [hs, ih, LexTokenType.nest]
  | fnDecl hk hf ho hp hc hb _ hd ih =>
    simp [hk, hf, ho, hc, hb, hd, nesting_params hp, ih, LexTokenType.nest]
  | block hb _ hd ih => simp [hb, hd, ih, LexTokenType.nest]
  | ifStmt hk ho _ hc _ ih ihn => simp [hk, ho, hc, ih, ihn, LexTokenType.nest]
  | ifElse hk ho _ hc _ hl _ ih ihn ihm => simp [hk, ho, hc, hl, ih, ihn, ihm, LexTokenType.nest]
  | loop hk hx _ ih => simp [hk, nesting_loopVarname hx, ih, LexTokenType.nest]
  | loopCount hk ho _ ha hc hx _ ih ihn =>
    simp [hk, ho, hc, nesting_loopAs ha, nesting_loopVarname hx, ih, ihn, LexTokenType.nest]
  | stmt _ hs ih => simp [nesting_semicolons hs, ih]
  | stmtsCons _ _ ih iht => simp [ih, iht]

/-! ## Separated operands -/

theorem separated_append : Separated d (u ++ v) ↔ Separated d u ∧ Separated (nesting d u) v ∧
    ∀ a ∈ u.getLast?, ∀ b ∈ v.head?, Fits (nesting d u) a.type b.type := by
  induction u generalizing d with
  | nil => simp [Separated]
  | cons a u ih =>
    rw [List.cons_append, Separated, Separated, ih, nesting_cons]
    cases u with
    | nil => simp [Separated, and_comm]
    | cons b u =>
      rw [List.cons_append, List.head?_cons, List.head?_cons, List.getLast?_cons_cons]
      tauto

/-- A word before a token with which no operand begins, and after one in which none ends. -/
theorem Separated.append (hu : Separated d u) (hbal : nesting d u = d) (hv : Separated d v)
    (hjoin : d = 0 ∨ ∀ b ∈ v.head?, b.type.startsOperand = false) : Separated d (u ++ v) := by
  refine separated_append.mpr ⟨hu, by rwa [hbal], ?_⟩
  rw [hbal]
  intro a _ b hb hd _ hstarts
  rcases hjoin with hzero | hno
  · omega
  · rw [hno b hb] at hstarts
    cases hstarts

theorem Separated.cons (ht : t.type.endsOperand = false) (hu : Separated (t.type.nest d) u) :
    Separated d (t :: u) := by
  refine ⟨?_, hu⟩
  intro b _ _ hends
  rw [ht] at hends
  cases hends

/-- Outside parentheses and brackets any two tokens fit. -/
theorem Separated.cons_zero (ht : t.type.nest d = 0) (hu : Separated 0 u) : Separated d (t :: u) := by
  refine ⟨?_, by rwa [ht]⟩
  intro b _ hd
  omega

/-! ## The language -/

theorem isOperator_of_mem {text : String} {operator : BinOperator}
    (h : (text, operator) ∈ level.operators) :
    level.isOperator text = true ∧ BinOperator.ofText text = some operator := by
  cases level <;> simp only [Level.operators, List.mem_cons, Prod.mk.injEq, List.not_mem_nil, or_false] at h
  · rcases h with ⟨rfl, rfl⟩ | ⟨rfl, rfl⟩ | ⟨rfl, rfl⟩ | ⟨rfl, rfl⟩ | ⟨rfl, rfl⟩ | ⟨rfl, rfl⟩ |
      ⟨rfl, rfl⟩ | ⟨rfl, rfl⟩ <;> exact ⟨rfl, rfl⟩
  · rcases h with ⟨rfl, rfl⟩ | ⟨rfl, rfl⟩ <;> exact ⟨rfl, rfl⟩
  · rcases h with ⟨rfl, rfl⟩ | ⟨rfl, rfl⟩ | ⟨rfl, rfl⟩ <;> exact ⟨rfl, rfl⟩

/-- The parser takes the whole language. -/
theorem Derives.lax (h : Derives language g u ns) : Derives parserRules g u ns := by
  induction h with
  | identifier ht => exact .identifier ht
  | intLit ht => exact .intLit ht
  | string ht => exact .string ht
  | paren ho hc _ ih => exact .paren ho hc ih
  | call hf ho hc _ ih => exact .call hf ho hc ih
  | primary _ ih => exact .primary ih
  | single _ ih => exact .single ih
  | binary _ ho hop _ ihl ihr => exact .binary ihl ho (isOperator_of_mem hop) ihr
  | arrayLit ha ho hc _ ih => exact .arrayLit ha ho hc ih
  | comparison _ ih => exact .comparison ih
  | assignment hx ho _ ih => exact .assignment hx ho ih
  | operand _ ih => exact .operand ih
  | argsNil => exact .argsNil
  | argsLast _ ih => exact .argsLast ih
  | argsCons _ hs _ ih iht => exact .argsCons ih (.inr hs) iht
  | elementsNil => exact .elementsNil
  | elementsLast _ ih => exact .elementsLast ih
  | elementsCons _ hc _ ih iht => exact .elementsCons ih hc iht
  | varDecl hk hx hs => exact .varDecl hk hx hs
  | varInit hk hx ho _ hs ih => exact .varInit hk hx ho ih hs
  | exprStmt _ hs ih => exact .exprStmt ih hs
  | fnDecl hk hf ho hp hc hb _ hd ih => exact .fnDecl hk hf ho hp hc hb ih hd
  | block hb _ hd ih => exact .block hb ih hd
  | ifStmt hk ho _ hc _ ih ihn => exact .ifStmt hk ho ih hc ihn
  | ifElse hk ho _ hc _ hl _ ih ihn ihm => exact .ifElse hk ho ih hc ihn hl ihm
  | loop hk hx _ ih => exact .loop hk hx ih
  | loopCount hk ho _ ha hc hx _ ih ihn => exact .loopCount hk ho ih ha hc hx ihn
  | stmt _ hs ih => exact .stmt ih hs
  | stmtsNil => exact .stmtsNil
  | stmtsCons _ _ ih iht => exact .stmtsCons ih iht

/-- The nonterminals of what stands outside parentheses and brackets. -/
def Nonterminal.isStatement : Nonterminal → Bool
  | .core | .stmt | .stmts => true
  | _ => false

theorem separated_params {names : List String} (h : Params u names) : Separated d u := by
  induction h with
  | nil => trivial
  | last hx => exact ⟨by simp, trivial⟩
  | cons hx hc _ ih =>
    refine ⟨?_, .cons (by simp [hc, LexTokenType.endsOperand]) ?_⟩
    · intro b hb _ _ hstarts
      obtain rfl : _ = b := by simpa using hb
      rw [hc] at hstarts
      cases hstarts
    · simpa [hx, hc, LexTokenType.nest] using ih

theorem separated_singleton : Separated d [t] := ⟨by simp, trivial⟩

/-- A word in parentheses or brackets. -/
theorem Separated.enclosed {o c : LexToken} (hu : Separated (d + 1) u)
    (hbal : nesting (d + 1) u = d + 1) (ho : o.type.endsOperand = false) (hopen : o.type.nest d = d + 1)
    (hc : c.type.startsOperand = false) : Separated d (o :: (u ++ [c])) := by
  refine .cons ho ?_
  rw [hopen]
  refine hu.append hbal separated_singleton (.inr ?_)
  intro b hb
  obtain rfl : c = b := by simpa using hb
  exact hc

/-- A name before an opening parenthesis. -/
theorem Separated.name {f o : LexToken} (hf : f.type = .tIdentifier) (ho : o.type = .tParenOpen)
    (hu : Separated d (o :: u)) : Separated d (f :: o :: u) := by
  refine ⟨?_, by rwa [hf]⟩
  intro b hb _ _ _
  obtain rfl : o = b := by simpa using hb
  exact ⟨hf, ho⟩

/-- A word that begins with a token between operands. -/
theorem Separated.before (hu : Separated d u) (hbal : nesting d u = d) (hv : Separated d (t :: v))
    (ht : t.type.startsOperand = false) : Separated d (u ++ t :: v) := by
  refine hu.append hbal hv (.inr ?_)
  intro b hb
  obtain rfl : t = b := by simpa using hb
  exact ht

theorem separated_semicolons (h : ∀ t ∈ u, t.type = .tSemicolon) : Separated d u := by
  induction u generalizing d with
  | nil => trivial
  | cons t u ih =>
    refine .cons (by simp [h t List.mem_cons_self, LexTokenType.endsOperand]) ?_
    exact ih fun t ht => h t (List.mem_cons_of_mem _ ht)

theorem operand_isStatement (level : Level) : level.operand.isStatement = false := by
  cases level <;> rfl

theorem nesting_language (h : Derives language g u ns) (d : Nat) : nesting d u = d :=
  nesting_derives h.lax d

/-- In the expressions of the language operands do not stand side by side. -/
theorem separated_expression (h : Derives language g u ns) (hg : g.isStatement = false) :
    ∀ d, Separated d u := by
  induction h with
  | identifier | intLit | string => exact fun _ => separated_singleton
  | paren ho hc h ih =>
    intro d
    refine (ih rfl (d + 1)).enclosed (nesting_language h _) ?_ ?_ ?_
    all_goals simp [ho, hc, LexTokenType.endsOperand, LexTokenType.startsOperand, LexTokenType.nest]
  | call hf ho hc h ih =>
    intro d
    refine .name hf ho ((ih rfl (d + 1)).enclosed (nesting_language h _) ?_ ?_ ?_)
    all_goals simp [ho, hc, LexTokenType.endsOperand, LexTokenType.startsOperand, LexTokenType.nest]
  | primary _ ih | comparison _ ih | operand _ ih | argsLast _ ih | elementsLast _ ih => exact ih rfl
  | single _ ih => exact ih (operand_isStatement _)
  | binary hl ho _ _ ihl ihr =>
    intro d
    refine (ihl rfl d).before (nesting_language hl d) (.cons ?_ ?_) ?_
    · simp [ho, LexTokenType.endsOperand]
    · rw [ho]
      exact ihr (operand_isStatement _) d
    · simp [ho, LexTokenType.startsOperand]
  | arrayLit ha ho hc h ih =>
    intro d
    refine .cons (by simp [ha, LexTokenType.endsOperand]) ?_
    rw [ha]
    refine (ih rfl (d + 1)).enclosed (nesting_language h _) ?_ ?_ ?_
    all_goals simp [ho, hc, LexTokenType.endsOperand, LexTokenType.startsOperand, LexTokenType.nest]
  | @assignment x _ _ _ hx ho _ ih =>
    intro d
    refine Separated.before (u := [x]) separated_singleton ?_ (.cons ?_ ?_) ?_
    · simp [hx, LexTokenType.nest]
    · simp [ho, LexTokenType.endsOperand]
    · rw [ho]
      exact ih rfl d
    · simp [ho, LexTokenType.startsOperand]
  | argsNil | elementsNil => exact fun _ => trivial
  | argsCons h hs _ ih iht =>
    obtain ⟨c, rfl, hc⟩ := hs
    intro d
    refine (ih rfl d).before (nesting_language h d) (.cons ?_ ?_) ?_
    · simp [hc, LexTokenType.endsOperand]
    · rw [hc]
      exact iht rfl d
    · simp [hc, LexTokenType.startsOperand]
  | elementsCons h hc _ ih iht =>
    intro d
    refine (ih rfl d).before (nesting_language h d) (.cons ?_ ?_) ?_
    · simp [hc, LexTokenType.endsOperand]
    · rw [hc]
      exact iht rfl d
    · simp [hc, LexTokenType.startsOperand]
  | _ => cases hg

/-- A word outside parentheses and brackets, before any other. -/
theorem Separated.append_zero (hu : Separated 0 u) (hbal : nesting 0 u = 0) (hv : Separated 0 v) :
    Separated 0 (u ++ v) := hu.append hbal hv (.inl rfl)

/-- An expression or parameters in parentheses, before what comes outside. -/
theorem Separated.parenthesised {o c : LexToken} (ho : o.type = .tParenOpen) (hu : Separated 1 u)
    (hbal : nesting 1 u = 1) (hc : c.type = .tParenClose) (hv : Separated 0 v) :
    Separated 0 (o :: (u ++ c :: v)) := by
  refine .cons (by simp [ho, LexTokenType.endsOperand]) ?_
  rw [ho]
  refine hu.before hbal (.cons_zero ?_ hv) ?_
  all_goals simp [hc, LexTokenType.startsOperand, LexTokenType.nest]

/-- In the statements of the language operands do not stand side by side in parentheses. -/
theorem separated_statement (h : Derives language g u ns) (hg : g.isStatement = true) :
    Separated 0 u := by
  induction h with
  | varDecl hk hx hs =>
    refine .cons_zero (by simp [hk, LexTokenType.nest]) ?_
    exact .cons_zero (by simp [hx, LexTokenType.nest]) separated_singleton
  | varInit hk hx ho h hs _ =>
    refine .cons_zero (by rcases hk with hk | hk <;> simp [hk, LexTokenType.nest]) ?_
    refine .cons_zero (by simp [hx, LexTokenType.nest]) ?_
    refine .cons_zero (by simp [ho, LexTokenType.nest]) ?_
    exact (separated_expression h rfl 0).append_zero (nesting_language h 0) separated_singleton
  | exprStmt h hs _ =>
    exact (separated_expression h rfl 0).append_zero (nesting_language h 0) separated_singleton
  | fnDecl hk hf ho hp hc hb h hd ih =>
    refine .cons_zero (by simp [hk, LexTokenType.nest]) ?_
    refine .cons_zero (by simp [hf, LexTokenType.nest]) ?_
    refine .parenthesised ho (separated_params hp) (nesting_params hp) hc ?_
    refine .cons_zero (by simp [hb, LexTokenType.nest]) ?_
    exact (ih rfl).append_zero (nesting_language h 0) separated_singleton
  | block hb h hd ih =>
    refine .cons_zero (by simp [hb, LexTokenType.nest]) ?_
    exact (ih rfl).append_zero (nesting_language h 0) separated_singleton
  | ifStmt hk ho h hc _ _ ihn =>
    refine .cons_zero (by simp [hk, LexTokenType.nest]) ?_
    exact .parenthesised ho (separated_expression h rfl 1) (nesting_language h 1) hc (ihn rfl)
  | ifElse hk ho h hc hn hl _ _ ihn ihm =>
    refine .cons_zero (by simp [hk, LexTokenType.nest]) ?_
    refine .parenthesised ho (separated_expression h rfl 1) (nesting_language h 1) hc ?_
    refine (ihn rfl).append_zero (nesting_language hn 0) ?_
    exact .cons_zero (by simp [hl, LexTokenType.nest]) (ihm rfl)
  | loop hk hx h ih =>
    refine .cons_zero (by simp [hk, LexTokenType.nest]) ?_
    refine .append_zero ?_ (nesting_loopVarname hx) (ih rfl)
    cases hx with
    | none => trivial
    | some => exact separated_singleton
  | @loopCount k o c u w x v as name e n hk ho h ha hc hx _ _ ihn =>
    refine .cons_zero (by simp [hk, LexTokenType.nest]) ?_
    rw [← List.append_assoc]
    refine .parenthesised ho ?_ (by simp [nesting_language h, nesting_loopAs ha]) hc ?_
    · cases ha with
      | none =>
        rw [List.append_nil]
        exact separated_expression h rfl 1
      | some ha hx =>
        refine (separated_expression h rfl 1).before (nesting_language h 1) (.cons ?_ separated_singleton) ?_
        all_goals simp [ha, LexTokenType.endsOperand, LexTokenType.startsOperand]
    · refine .append_zero ?_ (nesting_loopVarname hx) (ihn rfl)
      cases hx with
      | none => trivial
      | some => exact separated_singleton
  | stmt h hs ih => exact (ih rfl).append_zero (nesting_language h 0) (separated_semicolons hs)
  | stmtsNil => trivial
  | stmtsCons h _ ih iht => exact (ih rfl).append_zero (nesting_language h 0) (iht rfl)
  | _ => cases hg

/-! ## A name and a parenthesis -/

/-- What comes first in an expression. -/
theorem startsOperand_of_derives (h : Derives parserRules g u ns) (hg : g.isStatement = false) :
    ∀ b ∈ u.head?, b.type.startsOperand = true := by
  have hhead : ∀ {u v : List LexToken} {b : LexToken}, u ≠ [] → b ∈ (u ++ v).head? → b ∈ u.head? := by
    intro u v b hu hb
    cases u with
    | nil => exact absurd rfl hu
    | cons => exact hb
  induction h with
  | identifier ht | intLit ht | string ht =>
    intro b hb
    obtain rfl : _ = b := by simpa using hb
    simp [ht, LexTokenType.startsOperand]
  | paren ho _ _ _ =>
    intro b hb
    obtain rfl : _ = b := by simpa using hb
    simp [ho, LexTokenType.startsOperand]
  | call hf _ _ _ _ =>
    intro b hb
    obtain rfl : _ = b := by simpa using hb
    simp [hf, LexTokenType.startsOperand]
  | primary _ ih | comparison _ ih | operand _ ih | argsLast _ ih | elementsLast _ ih => exact ih rfl
  | single _ ih => exact ih (operand_isStatement _)
  | binary hl _ _ _ ihl _ => exact fun b hb => ihl rfl b (hhead (hl.ne_nil (by simp)) hb)
  | arrayLit ha _ _ _ _ =>
    intro b hb
    obtain rfl : _ = b := by simpa using hb
    simp [ha, LexTokenType.startsOperand]
  | assignment hx _ _ _ =>
    intro b hb
    obtain rfl : _ = b := by simpa using hb
    simp [hx, LexTokenType.startsOperand]
  | argsNil | elementsNil => simp
  | argsCons h _ _ ih _ => exact fun b hb => ih rfl b (hhead (h.ne_nil (by simp)) hb)
  | elementsCons h _ _ ih _ => exact fun b hb => ih rfl b (hhead (h.ne_nil (by simp)) hb)
  | _ => cases hg

/-- The nonterminals of a single expression. -/
def Nonterminal.isExpression : Nonterminal → Bool
  | .primary | .call | .binary _ | .operand | .expr => true
  | _ => false

theorem operand_isExpression (level : Level) : level.operand.isExpression = true := by
  cases level <;> rfl

/-- What comes last in an expression. -/
theorem endsOperand_of_derives (h : Derives parserRules g u ns) (hg : g.isExpression = true) :
    ∀ a ∈ u.getLast?, a.type.endsOperand = true := by
  have hlast : ∀ {o c a : LexToken} {u : List LexToken}, a ∈ (o :: (u ++ [c])).getLast? → c = a := by
    intro o c a u ha
    rw [← List.cons_append, List.getLast?_concat] at ha
    exact Option.some.inj ha
  induction h with
  | identifier ht | intLit ht | string ht =>
    intro a ha
    obtain rfl : _ = a := by simpa using ha
    simp [ht, LexTokenType.endsOperand]
  | paren _ hc _ _ =>
    intro a ha
    simp [← hlast ha, hc, LexTokenType.endsOperand]
  | call _ _ hc _ _ | arrayLit _ _ hc _ _ =>
    intro a ha
    rw [List.getLast?_cons_cons] at ha
    simp [← hlast ha, hc, LexTokenType.endsOperand]
  | primary _ ih | comparison _ ih | operand _ ih => exact ih rfl
  | single _ ih => exact ih (operand_isExpression _)
  | @binary level o u v _ _ _ _ _ _ hr _ ihr =>
    intro a ha
    refine ihr (operand_isExpression _) a ?_
    have hne : v ≠ [] := hr.ne_nil (by cases level <;> simp [Level.operand])
    rwa [List.getLast?_append_of_ne_nil _ (by simp), List.getLast?_cons_of_ne_nil hne] at ha
  | @assignment x o u _ _ _ h ih =>
    intro a ha
    refine ih rfl a ?_
    have hne : u ≠ [] := h.ne_nil (by simp)
    rwa [List.getLast?_cons_of_ne_nil (by simp), List.getLast?_cons_of_ne_nil hne] at ha
  | _ => cases hg

theorem split_last {x y v : List LexToken} {f : LexToken} (hv : v ≠ []) (h : y ++ v = x ++ [f]) :
    ∃ v', v = v' ++ [f] ∧ x = y ++ v' := by
  obtain ⟨v', f', rfl⟩ := List.eq_nil_or_concat v |>.resolve_left hv
  rw [List.concat_eq_append, ← List.append_assoc] at h
  obtain ⟨rfl, hf⟩ := List.append_inj' h rfl
  obtain rfl : f' = f := List.singleton_inj.mp hf
  exact ⟨v', List.concat_eq_append .., rfl⟩

theorem last_of_enclosed {x y : List LexToken} {c f : LexToken} (h : y ++ [c] = x ++ [f]) : c = f :=
  List.singleton_inj.mp (List.append_inj' h rfl).2

section Names

variable {x w : List LexToken} {f o c : LexToken} {es : List AstNode}

/-- A name at the end of an expression may be a call instead. -/
theorem call_of_name (h : Derives language g u ns) (hg : g.isExpression = true) (hne : g ≠ .primary)
    (hf : f.type = .tIdentifier) (ho : o.type = .tParenOpen) (hc : c.type = .tParenClose)
    (hw : Derives language .args w es) :
    ∀ x, u = x ++ [f] → ∃ e, Derives language g (x ++ f :: o :: (w ++ [c])) [e] := by
  have hlast : ∀ {x y : List LexToken} {c : LexToken}, y ++ [c] = x ++ [f] → c.type = .tIdentifier := by
    intro x y c h
    rw [last_of_enclosed h]
    exact hf
  induction h with
  | identifier | intLit | string | paren => exact absurd rfl hne
  | @call f' o' c' u' _ _ _ hc' =>
    intro x hx
    have hid := hlast (y := f' :: o' :: u') hx
    rw [hc'] at hid
    cases hid
  | primary h =>
    intro x hx
    cases h with
    | @identifier t _ =>
      have hx : [] ++ [t] = x ++ [f] := hx
      obtain ⟨rfl, hx⟩ := List.append_inj' hx rfl
      obtain rfl := List.singleton_inj.mp hx
      exact ⟨_, .call hf ho hc hw⟩
    | @intLit t ht | @string t ht =>
      have hid := hlast (y := []) hx
      rw [ht] at hid
      cases hid
    | @paren o' c' u' _ _ hc' =>
      have hid := hlast (y := o' :: u') hx
      rw [hc'] at hid
      cases hid
  | @single level _ _ _ ih =>
    intro x hx
    obtain ⟨e, he⟩ := ih (operand_isExpression _) (by cases level <;> simp [Level.operand]) x hx
    exact ⟨e, .single he⟩
  | @binary level o' u' v' _ _ _ hl ho' hop hr _ ihr =>
    intro x hx
    have hne' : v' ≠ [] := hr.ne_nil (by cases level <;> simp [Level.operand])
    rw [List.append_cons] at hx
    obtain ⟨y, rfl, rfl⟩ := split_last hne' hx
    obtain ⟨e, he⟩ := ihr (operand_isExpression _) (by cases level <;> simp [Level.operand]) y rfl
    rw [List.append_assoc, List.append_assoc]
    exact ⟨_, .binary hl ho' hop he⟩
  | @arrayLit a' o' c' u' _ _ _ hc' =>
    intro x hx
    have hid := hlast (y := a' :: o' :: u') hx
    rw [hc'] at hid
    cases hid
  | comparison _ ih =>
    intro x hx
    obtain ⟨e, he⟩ := ih rfl (by simp) x hx
    exact ⟨e, .comparison he⟩
  | @assignment x' o' u' _ hx' ho' h ih =>
    intro x hx
    obtain ⟨y, rfl, rfl⟩ := split_last (y := [x', o']) (h.ne_nil (by simp)) hx
    obtain ⟨e, he⟩ := ih rfl (by simp) y rfl
    exact ⟨_, .assignment hx' ho' he⟩
  | operand _ ih =>
    intro x hx
    obtain ⟨e, he⟩ := ih rfl (by simp) x hx
    exact ⟨e, .operand he⟩
  | _ => cases hg

/-- What extends the operands of a level extends the last operand of an expression of the level. -/
theorem extend_last (hop : ∀ x e, Derives language level.operand x [e] →
    ∃ e', Derives language level.operand (x ++ w) [e']) :
    ∀ x e, Derives language (.binary level) x [e] →
      ∃ e', Derives language (.binary level) (x ++ w) [e'] := by
  intro x e h
  cases h with
  | single h =>
    obtain ⟨e', he⟩ := hop x e h
    exact ⟨e', .single he⟩
  | binary hl ho hrule hr =>
    obtain ⟨e', he⟩ := hop _ _ hr
    rw [List.append_assoc]
    exact ⟨_, .binary hl ho hrule he⟩

/-- An operator of any level and its right operand may follow a comparison. -/
theorem extend_comparison {operator : BinOperator} {right : AstNode} (ho : o.type = .tBinaryOperator)
    (hop : language.operator level o.value operator) (hr : Derives language level.operand v [right]) :
    ∀ x e, Derives language (.binary .comparison) x [e] →
      ∃ e', Derives language (.binary .comparison) (x ++ o :: v) [e'] := by
  have hlevel : ∀ x e, Derives language (.binary level) x [e] →
      ∃ e', Derives language (.binary level) (x ++ o :: v) [e'] :=
    fun x e h => ⟨_, .binary h ho hop hr⟩
  cases level with
  | comparison => exact hlevel
  | additive => exact extend_last hlevel
  | multiplicative => exact extend_last (extend_last hlevel)

/-- An expression that ends in a name and one that begins with a parenthesis make up one. -/
theorem join_comparison (hx : Derives language (.binary .comparison) (x ++ [f]) ns)
    (hf : f.type = .tIdentifier) (hw : Derives language g w es)
    (hg : g = .call ∨ ∃ level, g = .binary level) (hb : ∀ b ∈ w.head?, b.type = .tParenOpen) :
    ∃ e, Derives language (.binary .comparison) (x ++ f :: w) [e] := by
  induction hw with
  | call hf' _ _ _ _ =>
    have hid := hb _ rfl
    rw [hf'] at hid
    cases hid
  | primary h =>
    cases h with
    | identifier ht | intLit ht | string ht =>
      have hid := hb _ rfl
      rw [ht] at hid
      cases hid
    | paren ho hc h => exact call_of_name hx rfl (by simp) hf ho hc (.argsLast h) x rfl
  | @single level _ _ _ ih =>
    refine ih ?_ hb
    cases level with
    | comparison => exact .inr ⟨_, rfl⟩
    | additive => exact .inr ⟨_, rfl⟩
    | multiplicative => exact .inl rfl
  | @binary level o u v _ _ _ hl ho hop hr ihl _ =>
    obtain ⟨b, u, rfl⟩ := List.exists_cons_of_ne_nil (hl.ne_nil (by simp))
    obtain ⟨e, he⟩ := ihl (.inr ⟨_, rfl⟩) hb
    have hext := extend_comparison ho hop hr _ e he
    rwa [List.append_assoc] at hext
  | _ => rcases hg with hg | ⟨level, hg⟩ <;> cases hg

theorem join_expr (hx : Derives language g u ns) (hg : g = .expr ∨ g = .operand)
    (hf : f.type = .tIdentifier) (hw : Derives language (.binary .comparison) w es)
    (hb : ∀ b ∈ w.head?, b.type = .tParenOpen) :
    ∀ x, u = x ++ [f] → ∃ e, Derives language .expr (x ++ f :: w) [e] := by
  induction hx with
  | @arrayLit a o c u _ _ _ hc _ _ =>
    intro x hx
    have hid := last_of_enclosed (y := a :: o :: u) hx
    rw [hid, hf] at hc
    cases hc
  | comparison h _ =>
    intro x hx
    rw [hx] at h
    obtain ⟨e, he⟩ := join_comparison h hf hw (.inr ⟨_, rfl⟩) hb
    exact ⟨e, .operand (.comparison he)⟩
  | @assignment x' o u _ hx' ho h ih =>
    intro x hx
    obtain ⟨y, rfl, rfl⟩ := split_last (y := [x', o]) (h.ne_nil (by simp)) hx
    obtain ⟨e, he⟩ := ih (.inl rfl) y rfl
    exact ⟨_, .assignment hx' ho he⟩
  | operand _ ih => exact ih (.inr rfl)
  | _ => rcases hg with hg | hg <;> cases hg

/-- An expression that begins with a parenthesis is a comparison. -/
theorem comparison_of_paren (h : Derives language .expr w ns)
    (hb : ∀ b ∈ w.head?, b.type = .tParenOpen) : Derives language (.binary .comparison) w ns := by
  cases h with
  | assignment hx _ _ =>
    have hid := hb _ rfl
    rw [hx] at hid
    cases hid
  | operand h =>
    cases h with
    | arrayLit ha _ _ _ =>
      have hid := hb _ rfl
      rw [ha] at hid
      cases hid
    | comparison h => exact h

theorem join_args (hx : Derives language .expr (x ++ [f]) ns) (hf : f.type = .tIdentifier)
    (hw : Derives language .args w es) (hne : w ≠ []) (hb : ∀ b ∈ w.head?, b.type = .tParenOpen) :
    ∃ es', Derives language .args (x ++ f :: w) es' := by
  cases hw with
  | argsNil => exact absurd rfl hne
  | argsLast h =>
    obtain ⟨e, he⟩ := join_expr hx (.inl rfl) hf (comparison_of_paren h hb) hb x rfl
    exact ⟨_, .argsLast he⟩
  | @argsCons u s v _ _ h hs ht =>
    obtain ⟨b, u, rfl⟩ := List.exists_cons_of_ne_nil (h.ne_nil (by simp))
    obtain ⟨e, he⟩ := join_expr hx (.inl rfl) hf (comparison_of_paren h hb) hb x rfl
    have hargs := Derives.argsCons he hs ht
    rw [List.append_assoc] at hargs
    exact ⟨_, hargs⟩

end Names

/-! ## From the parser's language to the language -/

/-- The nonterminals of lists. -/
def Nonterminal.isList : Nonterminal → Bool
  | .args | .elements | .stmts => true
  | _ => false

theorem operand_isList (level : Level) : level.operand.isList = false := by
  cases level <;> rfl

theorem exists_single (h : ∃ ns, Derives r g u ns) (hg : g.isList = false) :
    ∃ e, Derives r g u [e] := by
  obtain ⟨ns, h⟩ := h
  have hsingle : ∃ e, ns = [e] := by
    cases h <;> first | exact ⟨_, rfl⟩ | cases hg
  obtain ⟨e, rfl⟩ := hsingle
  exact ⟨e, h⟩

theorem operatorTexts_append :
    OperatorTexts (u ++ v) ↔ OperatorTexts u ∧ OperatorTexts v := by
  constructor
  · intro h
    constructor
    · exact fun t ht => h t (List.mem_append_left _ ht)
    · exact fun t ht => h t (List.mem_append_right _ ht)
  · rintro ⟨hu, hv⟩ t ht
    rcases List.mem_append.mp ht with ht | ht
    · exact hu t ht
    · exact hv t ht

theorem operatorTexts_cons : OperatorTexts (t :: u) ↔ OperatorTexts [t] ∧ OperatorTexts u :=
  operatorTexts_append (u := [t])

/-- A token with the text of an operator is one of that level only. -/
theorem level_of_isOperator {level' : Level} {text : String} {operator : BinOperator}
    (hmem : (text, operator) ∈ level'.operators) (h : level.isOperator text = true) : level' = level := by
  revert h
  cases level' <;>
    simp only [Level.operators, List.mem_cons, Prod.mk.injEq, List.not_mem_nil, or_false] at hmem
  · rcases hmem with ⟨rfl, -⟩ | ⟨rfl, -⟩ | ⟨rfl, -⟩ | ⟨rfl, -⟩ | ⟨rfl, -⟩ | ⟨rfl, -⟩ | ⟨rfl, -⟩ |
      ⟨rfl, -⟩ <;> cases level <;> simp [Level.isOperator] <;> rfl
  · rcases hmem with ⟨rfl, -⟩ | ⟨rfl, -⟩ <;> cases level <;> simp [Level.isOperator] <;> rfl
  · rcases hmem with ⟨rfl, -⟩ | ⟨rfl, -⟩ | ⟨rfl, -⟩ <;> cases level <;> simp [Level.isOperator] <;> rfl

/-- Among the operators of the language, the parser tells the levels apart. -/
theorem mem_of_isOperator {text : String} (h : ∃ level operator, (text, operator) ∈ Level.operators level)
    (hop : level.isOperator text = true) : ∃ operator, (text, operator) ∈ level.operators := by
  obtain ⟨level', operator, hmem⟩ := h
  obtain rfl := level_of_isOperator hmem hop
  exact ⟨operator, hmem⟩

/-- The arguments of a call that nothing separates are those of a call to a name, or none follow. -/
theorem args_of_adjacent {e : AstNode} {es : List AstNode} (hd : 0 < d)
    (hu : Derives language .expr u [e]) (hv : Derives language .args v es)
    (hsep : Separated d (u ++ v)) : ∃ es', Derives language .args (u ++ v) es' := by
  cases v with
  | nil =>
    rw [List.append_nil]
    exact ⟨_, .argsLast hu⟩
  | cons b v =>
    obtain ⟨-, -, hjoin⟩ := separated_append.mp hsep
    obtain ⟨u, a, rfl⟩ := List.eq_nil_or_concat u |>.resolve_left (hu.ne_nil (by simp))
    rw [List.concat_eq_append] at hu hjoin ⊢
    have hends := endsOperand_of_derives hu.lax rfl a (by simp)
    have hstarts := startsOperand_of_derives hv.lax rfl b rfl
    have hfits := hjoin a (by simp) b rfl
    rw [nesting_language hu] at hfits
    obtain ⟨ha, hb⟩ := hfits hd hends hstarts
    obtain ⟨es', hes⟩ := join_args hu ha hv (by simp) (by simpa using hb)
    rw [List.append_assoc]
    exact ⟨es', hes⟩

/-- Where operands are separated and the operators have their texts, the expressions of the parser are
those of the language. -/
theorem language_expression (h : Derives parserRules g u ns) (hg : g.isStatement = false)
    (htexts : OperatorTexts u) :
    ∀ d, Separated d u → (g = .args → 0 < d) → ∃ ns', Derives language g u ns' := by
  induction h with
  | identifier ht => exact fun _ _ _ => ⟨_, .identifier ht⟩
  | intLit ht => exact fun _ _ _ => ⟨_, .intLit ht⟩
  | string ht => exact fun _ _ _ => ⟨_, .string ht⟩
  | paren ho hc _ ih =>
    intro d hsep _
    obtain ⟨-, htexts⟩ := operatorTexts_cons.mp htexts
    obtain ⟨hsep, -⟩ := separated_append.mp hsep.2
    obtain ⟨e, he⟩ := exists_single (ih rfl (operatorTexts_append.mp htexts).1 _ hsep (by simp)) rfl
    exact ⟨_, .paren ho hc he⟩
  | @call f o c _ _ hf ho hc _ ih =>
    intro d hsep _
    obtain ⟨-, htexts⟩ := operatorTexts_cons.mp htexts
    obtain ⟨-, htexts⟩ := operatorTexts_cons.mp htexts
    obtain ⟨hsep, -⟩ := separated_append.mp hsep.2.2
    have hpos : ∀ d, 0 < o.type.nest d := by simp [ho, LexTokenType.nest]
    obtain ⟨es, hes⟩ := ih rfl (operatorTexts_append.mp htexts).1 _ hsep fun _ => hpos _
    exact ⟨_, .call hf ho hc hes⟩
  | primary _ ih =>
    intro d hsep _
    obtain ⟨e, he⟩ := exists_single (ih rfl htexts d hsep (by simp)) rfl
    exact ⟨_, .primary he⟩
  | @single level _ _ _ ih =>
    intro d hsep _
    have hargs : level.operand = .args → 0 < d := by cases level <;> simp [Level.operand]
    obtain ⟨e, he⟩ := exists_single (ih (operand_isStatement _) htexts d hsep hargs) (operand_isList _)
    exact ⟨_, .single he⟩
  | @binary level o _ _ _ _ _ _ ho hop _ ihl ihr =>
    intro d hsep _
    obtain ⟨hu, htexts⟩ := operatorTexts_append.mp htexts
    obtain ⟨htext, hv⟩ := operatorTexts_cons.mp htexts
    obtain ⟨hsepu, hsepv, -⟩ := separated_append.mp hsep
    obtain ⟨e, he⟩ := exists_single (ihl rfl hu d hsepu (by simp)) rfl
    have hargs : ∀ d, level.operand = .args → 0 < d := by cases level <;> simp [Level.operand]
    obtain ⟨e', he'⟩ :=
      exists_single (ihr (operand_isStatement _) hv _ hsepv.2 (hargs _)) (operand_isList _)
    obtain ⟨operator, hmem⟩ := mem_of_isOperator (htext o (by simp) ho) hop.1
    exact ⟨_, .binary he ho hmem he'⟩
  | arrayLit ha ho hc _ ih =>
    intro d hsep _
    obtain ⟨-, htexts⟩ := operatorTexts_cons.mp htexts
    obtain ⟨-, htexts⟩ := operatorTexts_cons.mp htexts
    obtain ⟨hsep, -⟩ := separated_append.mp hsep.2.2
    obtain ⟨es, hes⟩ := ih rfl (operatorTexts_append.mp htexts).1 _ hsep (by simp)
    exact ⟨_, .arrayLit ha ho hc hes⟩
  | comparison _ ih =>
    intro d hsep _
    obtain ⟨e, he⟩ := exists_single (ih rfl htexts d hsep (by simp)) rfl
    exact ⟨_, .comparison he⟩
  | assignment hx ho _ ih =>
    intro d hsep _
    obtain ⟨-, htexts⟩ := operatorTexts_cons.mp htexts
    obtain ⟨-, htexts⟩ := operatorTexts_cons.mp htexts
    obtain ⟨e, he⟩ := exists_single (ih rfl htexts _ hsep.2.2 (by simp)) rfl
    exact ⟨_, .assignment hx ho he⟩
  | operand _ ih =>
    intro d hsep _
    obtain ⟨e, he⟩ := exists_single (ih rfl htexts d hsep (by simp)) rfl
    exact ⟨_, .operand he⟩
  | argsNil => exact fun _ _ _ => ⟨_, .argsNil⟩
  | argsLast _ ih =>
    intro d hsep _
    obtain ⟨e, he⟩ := exists_single (ih rfl htexts d hsep (by simp)) rfl
    exact ⟨_, .argsLast he⟩
  | argsCons h hs _ ih iht =>
    intro d hsep hd
    obtain ⟨hu, htexts⟩ := operatorTexts_append.mp htexts
    obtain ⟨-, hv⟩ := operatorTexts_append.mp htexts
    obtain ⟨hsepu, hsepv, -⟩ := separated_append.mp hsep
    obtain ⟨-, hsepv, -⟩ := separated_append.mp hsepv
    rw [nesting_derives h, nesting_sep hs] at hsepv
    obtain ⟨e, he⟩ := exists_single (ih rfl hu d hsepu (by simp)) rfl
    obtain ⟨es, hes⟩ := iht rfl hv d hsepv hd
    rcases hs with rfl | hs
    · exact args_of_adjacent (hd rfl) he hes hsep
    · exact ⟨_, .argsCons he hs hes⟩
  | elementsNil => exact fun _ _ _ => ⟨_, .elementsNil⟩
  | elementsLast _ ih =>
    intro d hsep _
    obtain ⟨e, he⟩ := exists_single (ih rfl htexts d hsep (by simp)) rfl
    exact ⟨_, .elementsLast he⟩
  | elementsCons _ hc _ ih iht =>
    intro d hsep _
    obtain ⟨hu, htexts⟩ := operatorTexts_append.mp htexts
    obtain ⟨-, hv⟩ := operatorTexts_cons.mp htexts
    obtain ⟨hsepu, hsepv, -⟩ := separated_append.mp hsep
    obtain ⟨e, he⟩ := exists_single (ih rfl hu d hsepu (by simp)) rfl
    obtain ⟨es, hes⟩ := iht rfl hv _ hsepv.2 (by simp)
    exact ⟨_, .elementsCons he hc hes⟩
  | _ => cases hg

/-- Where operands are separated and the operators have their texts, the statements of the parser are
those of the language. -/
theorem language_statement (h : Derives parserRules g u ns) (hg : g.isStatement = true)
    (htexts : OperatorTexts u) : ∀ d, Separated d u → ∃ ns', Derives language g u ns' := by
  have hexpr : ∀ {u ns}, Derives parserRules .expr u ns → OperatorTexts u → ∀ {d}, Separated d u →
      ∃ e, Derives language .expr u [e] := by
    intro u ns h htexts d hsep
    exact exists_single (language_expression h rfl htexts d hsep (by simp)) rfl
  induction h with
  | varDecl hk hx hs => exact fun _ _ => ⟨_, .varDecl hk hx hs⟩
  | varInit hk hx ho h hs _ =>
    intro d hsep
    obtain ⟨hsep, -⟩ := separated_append.mp hsep.2.2.2
    obtain ⟨e, he⟩ := hexpr h (fun t ht => htexts t (by simp [ht])) hsep
    exact ⟨_, .varInit hk hx ho he hs⟩
  | exprStmt h hs _ =>
    intro d hsep
    obtain ⟨hsep, -⟩ := separated_append.mp hsep
    obtain ⟨e, he⟩ := hexpr h (fun t ht => htexts t (by simp [ht])) hsep
    exact ⟨_, .exprStmt he hs⟩
  | fnDecl hk hf ho hp hc hb _ hd ih =>
    intro d hsep
    obtain ⟨-, hsep, -⟩ := separated_append.mp hsep.2.2.2
    obtain ⟨hsep, -⟩ := separated_append.mp hsep.2.2
    obtain ⟨ns, hns⟩ := ih rfl (fun t ht => htexts t (by simp [ht])) _ hsep
    exact ⟨_, .fnDecl hk hf ho hp hc hb hns hd⟩
  | block hb _ hd ih =>
    intro d hsep
    obtain ⟨hsep, -⟩ := separated_append.mp hsep.2
    obtain ⟨ns, hns⟩ := ih rfl (fun t ht => htexts t (by simp [ht])) _ hsep
    exact ⟨_, .block hb hns hd⟩
  | ifStmt hk ho h hc _ _ ihn =>
    intro d hsep
    obtain ⟨hsepu, hsepv, -⟩ := separated_append.mp hsep.2.2
    obtain ⟨e, he⟩ := hexpr h (fun t ht => htexts t (by simp [ht])) hsepu
    obtain ⟨n, hn⟩ := exists_single (ihn rfl (fun t ht => htexts t (by simp [ht])) _ hsepv.2) rfl
    exact ⟨_, .ifStmt hk ho he hc hn⟩
  | ifElse hk ho h hc _ hl _ _ ihn ihm =>
    intro d hsep
    obtain ⟨hsepu, hsepv, -⟩ := separated_append.mp hsep.2.2
    obtain ⟨hsepv, hsepw, -⟩ := separated_append.mp hsepv.2
    obtain ⟨e, he⟩ := hexpr h (fun t ht => htexts t (by simp [ht])) hsepu
    obtain ⟨n, hn⟩ := exists_single (ihn rfl (fun t ht => htexts t (by simp [ht])) _ hsepv) rfl
    obtain ⟨m, hm⟩ := exists_single (ihm rfl (fun t ht => htexts t (by simp [ht])) _ hsepw.2) rfl
    exact ⟨_, .ifElse hk ho he hc hn hl hm⟩
  | loop hk hx _ ih =>
    intro d hsep
    obtain ⟨-, hsep, -⟩ := separated_append.mp hsep.2
    obtain ⟨n, hn⟩ := exists_single (ih rfl (fun t ht => htexts t (by simp [ht])) _ hsep) rfl
    exact ⟨_, .loop hk hx hn⟩
  | loopCount hk ho h ha hc hx _ _ ihn =>
    intro d hsep
    obtain ⟨hsepu, hsepv, -⟩ := separated_append.mp hsep.2.2
    obtain ⟨-, hsepv, -⟩ := separated_append.mp hsepv
    obtain ⟨-, hsepv, -⟩ := separated_append.mp hsepv.2
    obtain ⟨e, he⟩ := hexpr h (fun t ht => htexts t (by simp [ht])) hsepu
    obtain ⟨n, hn⟩ := exists_single (ihn rfl (fun t ht => htexts t (by simp [ht])) _ hsepv) rfl
    exact ⟨_, .loopCount hk ho he ha hc hx hn⟩
  | stmt _ hs ih =>
    intro d hsep
    obtain ⟨hsep, -⟩ := separated_append.mp hsep
    obtain ⟨n, hn⟩ := exists_single (ih rfl (fun t ht => htexts t (by simp [ht])) _ hsep) rfl
    exact ⟨_, .stmt hn hs⟩
  | stmtsNil => exact fun _ _ => ⟨_, .stmtsNil⟩
  | stmtsCons _ _ ih iht =>
    intro d hsep
    obtain ⟨hsepu, hsepv, -⟩ := separated_append.mp hsep
    obtain ⟨n, hn⟩ := exists_single (ih rfl (fun t ht => htexts t (by simp [ht])) _ hsepu) rfl
    obtain ⟨ns, hns⟩ := iht rfl (fun t ht => htexts t (by simp [ht])) _ hsepv
    exact ⟨_, .stmtsCons hn hns⟩
  | _ => cases hg

/-! ## The texts of operators -/

theorem operatorTexts_nil : OperatorTexts [] := by
  intro t ht
  cases ht

theorem operatorTexts_other (ht : t.type ≠ .tBinaryOperator) :
    OperatorTexts (t :: u) ↔ OperatorTexts u := by
  rw [operatorTexts_cons, and_iff_right]
  intro t' ht' hop
  rw [List.mem_singleton.mp ht'] at hop
  exact absurd hop ht

theorem operatorTexts_operator {operator : BinOperator} (hop : (t.value, operator) ∈ level.operators) :
    OperatorTexts (t :: u) ↔ OperatorTexts u := by
  rw [operatorTexts_cons, and_iff_right]
  intro t' ht' _
  rw [List.mem_singleton.mp ht']
  exact ⟨level, operator, hop⟩

theorem operatorTexts_semicolons (h : ∀ t ∈ u, t.type = .tSemicolon) : OperatorTexts u := by
  intro t ht hop
  rw [h t ht] at hop
  cases hop

theorem operatorTexts_params {names : List String} (h : Params u names) : OperatorTexts u := by
  induction h with
  | nil => exact operatorTexts_nil
  | last hx => exact (operatorTexts_other (by simp [hx])).mpr operatorTexts_nil
  | cons hx hc _ ih =>
    exact (operatorTexts_other (by simp [hx])).mpr ((operatorTexts_other (by simp [hc])).mpr ih)

theorem operatorTexts_loopVarname {name : Option String} (h : LoopVarname u name) :
    OperatorTexts u := by
  cases h with
  | none => exact operatorTexts_nil
  | some hx => exact (operatorTexts_other (by simp [hx])).mpr operatorTexts_nil

theorem operatorTexts_loopAs {name : Option String} (h : LoopAs u name) : OperatorTexts u := by
  cases h with
  | none => exact operatorTexts_nil
  | some ha hx =>
    exact (operatorTexts_other (by simp [ha])).mpr
      ((operatorTexts_other (by simp [hx])).mpr operatorTexts_nil)

/-- The operators of the language have their texts. -/
theorem operatorTexts_language (h : Derives language g u ns) : OperatorTexts u := by
  induction h with
  | identifier ht | intLit ht | string ht => simp [operatorTexts_other, operatorTexts_nil, ht]
  | paren ho hc _ ih =>
    simp [operatorTexts_other, operatorTexts_append, operatorTexts_nil, ho, hc, ih]
  | call hf ho hc _ ih =>
    simp [operatorTexts_other, operatorTexts_append, operatorTexts_nil, hf, ho, hc, ih]
  | primary _ ih | single _ ih | comparison _ ih | operand _ ih | argsLast _ ih | elementsLast _ ih =>
    exact ih
  | binary _ _ hop _ ihl ihr =>
    exact operatorTexts_append.mpr ⟨ihl, (operatorTexts_operator hop).mpr ihr⟩
  | arrayLit ha ho hc _ ih =>
    simp [operatorTexts_other, operatorTexts_append, operatorTexts_nil, ha, ho, hc, ih]
  | assignment hx ho _ ih => simp [operatorTexts_other, hx, ho, ih]
  | argsNil | elementsNil | stmtsNil => exact operatorTexts_nil
  | argsCons _ hs _ ih iht =>
    obtain ⟨c, rfl, hc⟩ := hs
    simp [operatorTexts_other, operatorTexts_append, hc, ih, iht]
  | elementsCons _ hc _ ih iht => simp [operatorTexts_other, operatorTexts_append, hc, ih, iht]
  | varDecl hk hx hs => simp [operatorTexts_other, operatorTexts_nil, hk, hx, hs]
  | varInit hk hx ho _ hs ih =>
    rcases hk with hk | hk <;>
      simp [operatorTexts_other, operatorTexts_append, operatorTexts_nil, hk, hx, ho, hs, ih]
  | exprStmt _ hs ih => simp [operatorTexts_other, operatorTexts_append, operatorTexts_nil, hs, ih]
  | fnDecl hk hf ho hp hc hb _ hd ih =>
    simp [operatorTexts_other, operatorTexts_append, operatorTexts_nil, operatorTexts_params hp, hk, hf,
      ho, hc, hb, hd, ih]
  | block hb _ hd ih =>
    simp [operatorTexts_other, operatorTexts_append, operatorTexts_nil, hb, hd, ih]
  | ifStmt hk ho _ hc _ ih ihn =>
    simp [operatorTexts_other, operatorTexts_append, hk, ho, hc, ih, ihn]
  | ifElse hk ho _ hc _ hl _ ih ihn ihm =>
    simp [operatorTexts_other, operatorTexts_append, hk, ho, hc, hl, ih, ihn, ihm]
  | loop hk hx _ ih =>
    simp [operatorTexts_other, operatorTexts_append, operatorTexts_loopVarname hx, hk, ih]
  | loopCount hk ho _ ha hc hx _ ih ihn =>
    simp [operatorTexts_other, operatorTexts_append, operatorTexts_loopVarname hx,
      operatorTexts_loopAs ha, hk, ho, hc, ih, ihn]
  | stmt _ hs ih => exact operatorTexts_append.mpr ⟨ih, operatorTexts_semicolons hs⟩
  | stmtsCons _ _ ih iht => exact operatorTexts_append.mpr ⟨ih, iht⟩

/-! ## What is accepted -/

/-- What a file that is accepted begins with, up to its end. -/
theorem builds_of_accepted {tokens : List LexToken} {filename : Option String} {n : Nat}
    {node : AstNode} {p : Parser} (h : parserCreateAstNode n (Parser.init tokens filename) = .ok node p) :
    ∃ pos es, node = .root pos es ∧ Builds filename .stmts (beforeEof tokens) es := by
  have hyields : Yields False (parserCreateAstNode n) (Parser.init tokens filename) _ :=
    yields_parserCreateAstNode ⟨rfl, False.elim⟩
  unfold Yields at hyields
  rw [h] at hyields
  obtain ⟨u, ha, pos, es, he, hes⟩ := hyields
  refine ⟨pos, es, he, ?_⟩
  have hrest : tokens = u ++ p.rest := ha.rest
  have hbefore : beforeEof tokens = u := by
    unfold beforeEof
    rw [hrest, List.takeWhile_append_of_pos (by simpa using ha.noEof)]
    cases hp : p.rest with
    | nil => simp
    | cons t r =>
      have heof := parserCreateAstNode_eof h t r hp
      simp [heof]
  rw [hbefore]
  exact hes

theorem derives_of_accepted {tokens : List LexToken} {filename : Option String} {n : Nat}
    {node : AstNode} {p : Parser} (h : parserCreateAstNode n (Parser.init tokens filename) = .ok node p) :
    ∃ es, node.erase = .root .unknown es ∧ Derives parserRules .stmts (beforeEof tokens) es := by
  obtain ⟨pos, es, rfl, hes⟩ := builds_of_accepted h
  exact ⟨eraseAll es, rfl, hes.derives⟩

/-- What the parser accepts is in the language exactly if between parentheses or brackets no operands
stand side by side, and the operators have the texts of the language. -/
theorem accepted_language (tokens : List LexToken) (filename : Option String) (n : Nat) (node : AstNode)
    (p : Parser) (h : parserCreateAstNode n (Parser.init tokens filename) = .ok node p) :
    (∃ ns, Derives language .stmts (beforeEof tokens) ns) ↔
      Separated 0 (beforeEof tokens) ∧ OperatorTexts (beforeEof tokens) := by
  constructor
  · rintro ⟨ns, hns⟩
    exact ⟨separated_statement hns rfl, operatorTexts_language hns⟩
  · rintro ⟨hsep, htexts⟩
    obtain ⟨es, -, hes⟩ := derives_of_accepted h
    exact language_statement hes rfl htexts 0 hsep

/-- `f(1 2);` -/
def missingComma : List LexToken :=
  [⟨.tIdentifier, "f", 1, 1, 1, 1⟩, ⟨.tParenOpen, "(", 1, 1, 2, 2⟩, ⟨.tIntLit, "1", 1, 1, 3, 3⟩,
    ⟨.tIntLit, "2", 1, 1, 5, 5⟩, ⟨.tParenClose, ")", 1, 1, 6, 6⟩, ⟨.tSemicolon, ";", 1, 1, 7, 7⟩,
    ⟨.tEof, "[EOF]", 1, 1, 8, 8⟩]

theorem missingComma_accepted :
    ∃ node p, parserCreateAstNode 8 (Parser.init missingComma none) = .ok node p := ⟨_, _, rfl⟩

/-- The parser accepts a call with a missing comma. -/
theorem accepted_not_language : ¬ ∀ (tokens : List LexToken) (filename : Option String) (n : Nat)
    (node : AstNode) (p : Parser), parserCreateAstNode n (Parser.init tokens filename) = .ok node p →
      ∃ ns, Derives language .stmts (beforeEof tokens) ns := by
  intro hall
  obtain ⟨node, p, h⟩ := missingComma_accepted
  obtain ⟨ns, hns⟩ := hall _ _ _ _ _ h
  have hsep := separated_statement hns rfl
  -- the two numbers, within the parentheses
  have hfits := hsep.2.2.1 ⟨.tIntLit, "2", 1, 1, 5, 5⟩ rfl (by decide) rfl rfl
  cases hfits.1

theorem accepted_language_call : ∃ ns, Derives language .stmts
    (beforeEof [⟨.tIdentifier, "f", 1, 1, 1, 1⟩, ⟨.tParenOpen, "(", 1, 1, 2, 2⟩,
      ⟨.tIntLit, "1", 1, 1, 3, 3⟩, ⟨.tComma, ",", 1, 1, 4, 4⟩, ⟨.tIntLit, "2", 1, 1, 6, 6⟩,
      ⟨.tParenClose, ")", 1, 1, 7, 7⟩, ⟨.tSemicolon, ";", 1, 1, 8, 8⟩,
      ⟨.tEof, "[EOF]", 1, 1, 9, 9⟩]) ns := by
  refine (accepted_language _ none 9 _ _ rfl).mpr ⟨?_, ?_⟩
  · simp [beforeEof, Separated, Fits, LexTokenType.endsOperand, LexTokenType.startsOperand]
  · simp [beforeEof, OperatorTexts]
end Blaze
