import Blazescript.Syntax.Stmt
import Blazescript.Syntax.Proofs.LoopHeaderProofs
import Blazescript.Syntax.Proofs.PrintProofs

/-!
# Proofs: parsing inverts printing, for statements
-/

namespace Blaze

open Blaze.Parser

variable {n m : Nat} {u v r : List LexToken} {t c : LexToken} {type : LexTokenType} {text : String} {ks : List Key}
  {e : Expr} {s : Stmt} {ss : List Stmt} {node : AstNode}

/-! ## Printed tokens -/

theorem exists_token (h : u.map LexToken.key = (type, text) :: ks) :
    ∃ t v, u = t :: v ∧ t.type = type ∧ t.value = text ∧ v.map LexToken.key = ks := by
  obtain ⟨t, v, rfl, ht, hv⟩ := List.map_eq_cons_iff.mp h
  exact ⟨t, v, rfl, (key_eq ht).1, (key_eq ht).2, hv⟩

theorem exists_split {ks' : List Key} (h : u.map LexToken.key = ks ++ ks') :
    ∃ v w, u = v ++ w ∧ v.map LexToken.key = ks ∧ w.map LexToken.key = ks' := List.map_eq_append_iff.mp h

theorem exists_last (h : u.map LexToken.key = ks ++ [(type, text)]) :
    ∃ v t, u = v ++ [t] ∧ v.map LexToken.key = ks ∧ t.type = type := by
  obtain ⟨v, w, rfl, hv, hw⟩ := exists_split h
  obtain ⟨t, w, rfl, ht, -, hw⟩ := exists_token hw
  obtain rfl := List.map_eq_nil_iff.mp hw
  exact ⟨v, t, rfl, hv, ht⟩

theorem parenthesise_starts {needed : Bool} (h : ∃ k ks', ks = k :: ks' ∧ k.1.startsOperand = true) :
    ∃ k ks', parenthesise needed ks = k :: ks' ∧ k.1.startsOperand = true := by
  cases needed with
  | false => exact h
  | true => exact ⟨_, _, rfl, rfl⟩

/-- An expression begins with an operand. -/
theorem Expr.print_starts (e : Expr) (k : Nat) : ∃ key ks, e.print k = key :: ks ∧ key.1.startsOperand = true := by
  cases e with
  | intLit | string | identifier | call => exact ⟨_, _, by rw [Expr.print], rfl⟩
  | assignment | arrayLit =>
    rw [Expr.print]
    exact parenthesise_starts ⟨_, _, rfl, rfl⟩
  | binary operator left right =>
    rw [Expr.print]
    obtain ⟨key, ks, hleft, hkey⟩ := left.print_starts operator.level.rank
    exact parenthesise_starts ⟨key, _, by rw [hleft, List.cons_append], hkey⟩

theorem startsStmt_of_startsOperand (h : type.startsOperand = true) : type.startsStmt = true := by
  unfold LexTokenType.startsStmt
  rw [h, Bool.true_or]

theorem Stmt.print_starts (s : Stmt) : ∃ key ks, s.print = key :: ks ∧ key.1.startsStmt = true := by
  cases s with
  | exprStmt value =>
    obtain ⟨key, ks, hvalue, hkey⟩ := value.print_starts 0
    exact ⟨key, _, by rw [Stmt.print, hvalue, List.cons_append], startsStmt_of_startsOperand hkey⟩
  | varInit isConst name value =>
    refine ⟨_, _, by rw [Stmt.print], ?_⟩
    cases isConst with
    | false => rfl
    | true => rfl
  | varDecl | fnDecl | block | ifStmt | ifElse | loop | loopCount => exact ⟨_, _, by rw [Stmt.print], rfl⟩

/-- No statement begins with a semicolon, with what closes a block or belongs to an `if`, or with the end of the
file. -/
theorem startsStmt_ne (h : type.startsStmt = true) :
    type ≠ .tSemicolon ∧ type ≠ .tElse ∧ type ≠ .tBlockBraceClose ∧ type ≠ .tEof := by
  refine ⟨?_, ?_, ?_, ?_⟩
  all_goals
    rintro rfl
    cases h

mutual

theorem Expr.erase_toNode : ∀ e : Expr, e.toNode.erase = e.toNode
  | .intLit _ | .string _ | .identifier _ => by simp only [Expr.toNode, AstNode.erase]
  | .call _ args => by simp only [Expr.toNode, AstNode.erase, eraseAll_toNodes args]
  | .assignment _ value => by simp only [Expr.toNode, AstNode.erase, value.erase_toNode]
  | .arrayLit elements => by simp only [Expr.toNode, AstNode.erase, eraseAll_toNodes elements]
  | .binary _ left right => by simp only [Expr.toNode, AstNode.erase, left.erase_toNode, right.erase_toNode]

theorem eraseAll_toNodes : ∀ es : List Expr, eraseAll (toNodes es) = toNodes es
  | [] => rfl
  | e :: es => by rw [toNodes, eraseAll, e.erase_toNode, eraseAll_toNodes es]

end

/-! ## Pieces of statements -/

/-- An expression before what ends it. -/
theorem consumes_print (hu : u.map LexToken.key = e.print 0) (hlen : u.length < n) (ht : t.type.closes = true) :
    Consumes (parserParseExpr n) u (t :: r) fun node => node.erase = e.toNode :=
  consumes_expr n u e.toNode t r (derives_print e 0 u hu) hlen ht

/-- An expression in parentheses. -/
theorem exists_header (hu : u.map LexToken.key = printHeader e) :
    ∃ o v c, u = o :: (v ++ [c]) ∧ o.type = .tParenOpen ∧ v.map LexToken.key = e.print 0 ∧ c.type = .tParenClose := by
  obtain ⟨o, w, rfl, ho, -, hw⟩ := exists_token hu
  obtain ⟨v, c, rfl, hv, hc⟩ := exists_last hw
  exact ⟨o, v, c, rfl, ho, hv, hc⟩

theorem consumes_headerPrint (hu : u.map LexToken.key = printHeader e) (hlen : u.length < n) :
    Consumes (parserParseLoopHeader (parserParseExpr n)) u r
      fun header => header.1.map AstNode.erase = some e.toNode ∧ header.2 = none := by
  obtain ⟨o, v, c, rfl, ho, hv, hc⟩ := exists_header hu
  simp only [List.length_cons, List.length_append, List.length_nil] at hlen
  have hexpr : Consumes (parserParseExpr n) v (c :: r) fun e' => SameTree e' e.toNode :=
    (consumes_print hv (by omega) (by rw [hc]; rfl)).post fun e' he' => he'.trans e.erase_toNode.symm
  rw [← e.erase_toNode]
  exact consumes_header ho hc hexpr

theorem consumes_loopHeader_none (ht : t.type ≠ .tParenOpen) :
    Consumes (parserParseLoopHeader (parserParseExpr n)) [] (t :: r) fun header => header = (none, none) := by
  refine consumes_parserAt.peek fun a ha => consumes_ite (fun h => ?_) fun _ => consumes_pure rfl
  rw [ha] at h
  exact absurd h ht

/-- The name of the variable, before what is no name unless there is one. -/
theorem consumes_namePrint {name : Option String} (hu : u.map LexToken.key = printName name)
    (ht : name = none → t.type ≠ .tIdentifier) :
    Consumes (parserParseLoopVarname none) u (t :: r) fun v => v = name := by
  cases name with
  | none =>
    obtain rfl := List.map_eq_nil_iff.mp hu
    refine consumes_parserAt.peek fun a ha => consumes_ite (fun h => ?_) fun _ => consumes_pure rfl
    rw [ha] at h
    exact absurd h (ht rfl)
  | some name =>
    obtain ⟨x, v, rfl, hx, hname, hv⟩ := exists_token hu
    obtain rfl := List.map_eq_nil_iff.mp hv
    exact (consumes_loopVarname hx).post fun v hv => hv.trans (congrArg some hname)

theorem consumes_skipSemicolons_none (ht : t.type ≠ .tSemicolon) (hn : 0 < n) :
    Consumes (parserSkipSemicolons n) [] (t :: r) fun _ => True := by
  obtain ⟨n, rfl⟩ : ∃ i, n = i + 1 := ⟨n - 1, by omega⟩
  have hcond : Consumes (do return (← parserAt).type == .tSemicolon : ParserM Bool) [] (t :: r)
      fun b => b = false := by
    refine consumes_parserAt.peek fun a ha => consumes_pure ?_
    rw [ha]
    exact beq_eq_false_iff_ne.mpr ht
  exact (consumes_while_done hcond).post fun _ _ => trivial

section Kind

variable {parseExpr parseStmt : ParserM AstNode} {k : LexToken} (ht : t.type ≠ .tSemicolon) (hn : 0 < n)

include ht hn

/-- A statement that needs no semicolon. -/
theorem consumes_stmtBody
    (h : Consumes (parserParseStmtKind parseExpr parseStmt n k.type) (k :: u) (t :: r)
      fun res => res.1.erase = node ∧ res.2 = false) :
    Consumes (parserParseStmtBody parseExpr parseStmt n) (k :: u) (t :: r) fun stmt => stmt.erase = node := by
  refine consumes_parserAt.peek fun k' hk => ?_
  rw [hk]
  refine h.last fun res hres => ?_
  rw [hres.2]
  have hnone : Consumes (parserExpectSemicolon false) [] (t :: r) fun _ => True := consumes_pure trivial
  exact hnone.peek fun _ _ => (consumes_skipSemicolons_none ht hn).peek fun _ _ => consumes_pure hres.1

/-- A statement with its semicolon. -/
theorem consumes_stmtBody_semicolon (hc : c.type = .tSemicolon)
    (h : Consumes (parserParseStmtKind parseExpr parseStmt n k.type) (k :: u) (c :: t :: r)
      fun res => res.1.erase = node ∧ res.2 = true) :
    Consumes (parserParseStmtBody parseExpr parseStmt n) (k :: (u ++ [c])) (t :: r)
      fun stmt => stmt.erase = node := by
  refine consumes_parserAt.peek fun k' hk => ?_
  rw [hk]
  refine Consumes.bind (u := k :: u) (v := [c]) h fun res hres => ?_
  rw [hres.2]
  have hexpect : Consumes (parserExpectSemicolon true) [c] (t :: r) fun _ => True :=
    (consumes_parserExpect hc (by decide)).last fun _ _ => consumes_pure trivial
  refine hexpect.last fun _ _ => ?_
  exact (consumes_skipSemicolons_none ht hn).peek fun _ _ => consumes_pure hres.1

end Kind

/-! ## Statements in a row -/

section Children

variable {cond : ParserM Bool} (hcond : ∀ t r, t.type.startsStmt = true → Consumes cond [] (t :: r) fun b => b = true)
  (hend : Consumes cond [] (c :: r) fun b => b = false) (hc : c.type ≠ .tSemicolon ∧ c.type ≠ .tElse)

include hcond hend hc

/-- The loops over statements take all of them. -/
theorem consumes_children (hss : ∀ s ∈ ss, s.Parses) : ∀ m acc u, u.map LexToken.key = printStmts ss → u.length < m →
    u.length < n → Consumes (parserWhile cond (parserParseChild (parserParseStmt n)) m acc) u (c :: r)
      fun nodes => ∃ ns, nodes = acc ++ ns ∧ eraseAll ns = stmtNodes ss := by
  induction ss with
  | nil =>
    intro m acc u hu hm _
    obtain ⟨m, rfl⟩ : ∃ i, m = i + 1 := ⟨m - 1, by omega⟩
    obtain rfl := List.map_eq_nil_iff.mp hu
    refine (consumes_while_done hend).post fun nodes hnodes => ?_
    exact ⟨[], by rw [hnodes, List.append_nil], rfl⟩
  | cons s ss ih =>
    intro m acc u hu hm hn
    obtain ⟨hs, hss⟩ := List.forall_mem_cons.mp hss
    obtain ⟨v, w, rfl, hv, hw⟩ := exists_split hu
    obtain ⟨m, rfl⟩ : ∃ i, m = i + 1 := ⟨m - 1, by omega⟩
    simp only [List.length_append] at hm hn
    obtain ⟨key, ks, hkey, hstarts⟩ := s.print_starts
    obtain ⟨k, v, rfl, hk, -⟩ := List.map_eq_cons_iff.mp (hv.trans hkey)
    have hkstarts : k.type.startsStmt = true := by
      rw [← hk] at hstarts
      exact hstarts
    simp only [List.length_cons] at hm hn
    -- what follows the first statement begins the next one, or ends the loop
    obtain ⟨t, r', hr, ht⟩ : ∃ t r', w ++ c :: r = t :: r' ∧ t.type ≠ .tSemicolon ∧ t.type ≠ .tElse := by
      cases ss with
      | nil =>
        obtain rfl := List.map_eq_nil_iff.mp hw
        exact ⟨c, r, rfl, hc⟩
      | cons s' ss =>
        obtain ⟨key', ks', hkey', hstarts'⟩ := s'.print_starts
        rw [printStmts, hkey', List.cons_append] at hw
        obtain ⟨t, w, rfl, ht, -⟩ := List.map_eq_cons_iff.mp hw
        rw [← ht] at hstarts'
        exact ⟨t, w ++ c :: r, rfl, (startsStmt_ne hstarts').1, (startsStmt_ne hstarts').2.1⟩
    refine consumes_while_again (P := fun nodes => ∃ node, nodes = acc ++ [node] ∧ node.erase = s.toNode)
      (hcond k _ hkstarts) ?_ ?_
    · rw [hr]
      refine (hs n (k :: v) t r' hv (by rw [List.length_cons]; omega) ht.1 fun _ => ht.2).last fun node hnode => ?_
      exact consumes_pure ⟨rfl, node, rfl, hnode⟩
    · rintro nodes ⟨node, rfl, hnode⟩
      refine (ih hss m (acc ++ [node]) w hw (by omega) (by omega)).post fun nodes' hnodes' => ?_
      obtain ⟨ns, rfl, hns⟩ := hnodes'
      exact ⟨node :: ns, by simp, by rw [eraseAll, hnode, hns, stmtNodes]⟩

end Children

/-! ## The statements -/

/-- The parameters of a function, before the closing parenthesis. -/
theorem consumes_params (hc : c.type = .tParenClose) (names : List String) : ∀ m acc u,
    u.map LexToken.key = printParams names → u.length < m →
      Consumes (parserWhile (parserBefore .tParenClose) parserParseParam m acc) u (c :: r)
        fun names' => names' = acc ++ names := by
  have hbefore : ∀ (x : LexToken) r, x.type = .tIdentifier →
      Consumes (parserBefore .tParenClose) [] (x :: r) fun b => b = true := by
    intro x r hx
    refine (consumes_parserBefore (by rw [hx]; decide)).post fun b hb => ?_
    rw [hb, hx]
    rfl
  induction names with
  | nil =>
    intro m acc u hu hm
    obtain rfl := List.map_eq_nil_iff.mp hu
    refine (consumes_before_end hc (by decide) (by omega) acc).post fun names' hnames => ?_
    rw [hnames, List.append_nil]
  | cons name names ih =>
    intro m acc u hu hm
    obtain ⟨m, rfl⟩ : ∃ i, m = i + 1 := ⟨m - 1, by omega⟩
    cases names with
    | nil =>
      obtain ⟨x, v, rfl, hx, hname, hv⟩ := exists_token hu
      obtain rfl := List.map_eq_nil_iff.mp hv
      refine consumes_while_stop (hbefore x _ hx) ?_
      refine Consumes.bind (u := [x]) (consumes_parserExpect hx (by decide)) fun x' hx' => ?_
      refine consumes_parserAt.peek fun a ha => consumes_ite (fun _ => ?_) fun h => ?_
      · exact consumes_pure ⟨rfl, by rw [hx', hname]⟩
      · rw [ha] at h
        exact absurd hc h
    | cons name' names =>
      rw [printParams] at hu
      · obtain ⟨x, v, rfl, hx, hname, hv⟩ := exists_token hu
        obtain ⟨comma, v, rfl, hcomma, -, hv⟩ := exists_token hv
        simp only [List.length_cons] at hm
        have hloop : Consumes (parserWhile (parserBefore .tParenClose) parserParseParam (m + 1) acc)
            ([x, comma] ++ v) (c :: r) fun names' => names' = acc ++ name :: name' :: names := by
          refine consumes_while_again (P := fun names' => names' = acc ++ [name]) (hbefore x _ hx) ?_ ?_
          · refine Consumes.bind (u := [x]) (consumes_parserExpect hx (by decide)) fun x' hx' => ?_
            refine consumes_parserAt.peek fun a ha => consumes_ite (fun h => ?_) fun _ => ?_
            · rw [ha, hcomma] at h
              cases h
            · refine (consumes_parserExpect hcomma (by decide)).last fun _ _ => consumes_pure ⟨rfl, ?_⟩
              rw [hx', hname]
          · intro acc' hacc
            refine (ih m acc' v hv (by omega)).post fun names' hnames => ?_
            rw [hnames, hacc, List.append_assoc]
            rfl
        exact hloop
      · simp

theorem consumes_before_stmt (ht : t.type.startsStmt = true) :
    Consumes (parserBefore .tBlockBraceClose) [] (t :: r) fun b => b = true := by
  obtain ⟨-, -, hclose, heof⟩ := startsStmt_ne ht
  refine (consumes_parserBefore heof).post fun b hb => ?_
  rw [hb, bne_iff_ne]
  exact hclose

/-- The statements of a block or of a function, before the closing brace. -/
theorem consumes_body (hss : ∀ s ∈ ss, s.Parses) (hu : u.map LexToken.key = printStmts ss) (hlen : u.length < n)
    (hc : c.type = .tBlockBraceClose) :
    Consumes (parserWhile (parserBefore .tBlockBraceClose) (parserParseChild (parserParseStmt n)) n []) u (c :: r)
      fun nodes => eraseAll nodes = stmtNodes ss := by
  have hend : Consumes (parserBefore .tBlockBraceClose) [] (c :: r) fun b => b = false := by
    refine (consumes_parserBefore (by rw [hc]; decide)).post fun b hb => ?_
    rw [hb, hc]
    rfl
  refine (consumes_children (fun t r ht => consumes_before_stmt ht) hend (by rw [hc]; decide) hss n [] u hu hlen
    hlen).post fun nodes hnodes => ?_
  obtain ⟨ns, rfl, hns⟩ := hnodes
  exact hns

theorem varDecl_parses (name : String) : (Stmt.varDecl name).Parses := by
  intro n u t r hu hn ht _
  obtain ⟨k, v, rfl, hk, -, hv⟩ := exists_token hu
  obtain ⟨x, v, rfl, hx, hname, hv⟩ := exists_token hv
  obtain ⟨s, v, rfl, hs, -, hv⟩ := exists_token hv
  obtain rfl := List.map_eq_nil_iff.mp hv
  simp only [List.length_cons, List.length_nil] at hn
  obtain ⟨n, rfl⟩ : ∃ i, n = i + 1 := ⟨n - 1, by omega⟩
  refine consumes_stmtBody_semicolon (u := [x]) ht (by omega) hs ?_
  rw [hk]
  have hdecl : Consumes (parserParseVarDecl (parserParseExpr (n + 1))) [k, x] (s :: t :: r)
      fun node => node.erase = (Stmt.varDecl name).toNode := by
    refine Consumes.bind (u := [k]) consumes_parserRetForward fun k' hk' => ?_
    refine Consumes.bind (u := [x]) (consumes_parserExpect hx (by decide)) fun x' hx' => ?_
    refine consumes_get fun q _ => consumes_parserAt.peek fun a ha => ?_
    rw [ha, if_pos hs, hk', hk, hx', hname]
    exact consumes_pure (by rw [Stmt.toNode]; rfl)
  exact hdecl.last fun node hnode => consumes_pure ⟨hnode, rfl⟩

theorem varInit_parses (isConst : Bool) (name : String) (value : Expr) : (Stmt.varInit isConst name value).Parses := by
  intro n u t r hu hn ht _
  obtain ⟨k, v, rfl, hk, hv⟩ := List.map_eq_cons_iff.mp hu
  obtain ⟨x, v, rfl, hx, hname, hv⟩ := exists_token hv
  obtain ⟨o, v, rfl, ho, -, hv⟩ := exists_token hv
  obtain ⟨v, s, rfl, hv, hs⟩ := exists_last hv
  simp only [List.length_cons, List.length_append, List.length_nil] at hn
  obtain ⟨n, rfl⟩ : ∃ i, n = i + 1 := ⟨n - 1, by omega⟩
  have hdecl : Consumes (parserParseVarDecl (parserParseExpr (n + 1))) (k :: x :: o :: v) (s :: t :: r)
      fun node => node.erase = (Stmt.varInit isConst name value).toNode := by
    refine Consumes.bind (u := [k]) consumes_parserRetForward fun k' hk' => ?_
    refine Consumes.bind (u := [x]) (consumes_parserExpect hx (by decide)) fun x' hx' => ?_
    refine consumes_get fun q _ => consumes_parserAt.peek fun a ha => consumes_ite (fun h => ?_) fun _ => ?_
    · rw [ha, ho] at h
      cases h
    · refine Consumes.bind (u := [o]) (consumes_parserExpect ho (by decide)) fun _ _ => ?_
      refine (consumes_print hv (by omega) (by rw [hs]; rfl)).last fun value' hvalue => ?_
      refine consumes_parserAt.peek fun _ _ => consumes_pure ?_
      have hconst : (k.type == .tConst) = isConst := by
        have hkey : k.type = (declKeyword isConst).1 := congrArg Prod.fst hk
        rw [hkey]
        cases isConst with
        | false => rfl
        | true => rfl
      rw [AstNode.erase, Stmt.toNode, hvalue, hx', hname, hk', hconst]
  have hkind : Consumes (parserParseStmtKind (parserParseExpr (n + 1)) (parserParseStmt n) n k.type)
      (k :: x :: o :: v) (s :: t :: r)
      fun res => res.1.erase = (Stmt.varInit isConst name value).toNode ∧ res.2 = true := by
    have hkey : k.type = (declKeyword isConst).1 := congrArg Prod.fst hk
    rw [hkey]
    cases isConst with
    | false => exact hdecl.last fun node hnode => consumes_pure ⟨hnode, rfl⟩
    | true => exact hdecl.last fun node hnode => consumes_pure ⟨hnode, rfl⟩
  exact consumes_stmtBody_semicolon (u := x :: o :: v) ht (by omega) hs hkind

/-- What does not begin with a keyword of a statement, or with a brace, is an expression. -/
theorem parserParseStmtKind_expr {parseExpr parseStmt : ParserM AstNode} (h : type.startsOperand = true) :
    parserParseStmtKind parseExpr parseStmt n type = (do
      let stmt ← parseExpr
      pure (stmt, true)) := by
  cases type with
  | tIdentifier | tIntLit | tString | tParenOpen | tArray => rfl
  | _ => cases h

theorem exprStmt_parses (value : Expr) : (Stmt.exprStmt value).Parses := by
  intro n u t r hu hn ht _
  obtain ⟨v, s, rfl, hv, hs⟩ := exists_last hu
  obtain ⟨key, ks, hkey, hstarts⟩ := value.print_starts 0
  obtain ⟨k, w, rfl, hk, -⟩ := List.map_eq_cons_iff.mp (hv.trans hkey)
  have hkstarts : k.type.startsOperand = true := by
    rw [← hk] at hstarts
    exact hstarts
  simp only [List.length_cons, List.length_append, List.length_nil] at hn
  obtain ⟨n, rfl⟩ : ∃ i, n = i + 1 := ⟨n - 1, by omega⟩
  refine consumes_stmtBody_semicolon ht (by omega) hs ?_
  rw [parserParseStmtKind_expr hkstarts]
  have hexpr := consumes_print (n := n + 1) (t := s) (r := t :: r) hv (by rw [List.length_cons]; omega) (by rw [hs]; rfl)
  refine hexpr.last fun node hnode => consumes_pure ⟨?_, rfl⟩
  rw [Stmt.toNode]
  exact hnode

theorem fnDecl_parses (identifier : String) (names : List String) {body : List Stmt}
    (hbody : ∀ s ∈ body, s.Parses) : (Stmt.fnDecl identifier names body).Parses := by
  intro n u t r hu hn ht _
  obtain ⟨k, v, rfl, hk, -, hv⟩ := exists_token hu
  obtain ⟨f, v, rfl, hf, hname, hv⟩ := exists_token hv
  obtain ⟨o, v, rfl, ho, -, hv⟩ := exists_token hv
  obtain ⟨ps, v, rfl, hps, hv⟩ := exists_split hv
  obtain ⟨c, v, rfl, hc, -, hv⟩ := exists_token hv
  obtain ⟨b, v, rfl, hb, -, hv⟩ := exists_token hv
  obtain ⟨v, d, rfl, hv, hd⟩ := exists_last hv
  simp only [List.length_cons, List.length_append, List.length_nil] at hn
  obtain ⟨n, rfl⟩ : ∃ i, n = i + 1 := ⟨n - 1, by omega⟩
  refine consumes_stmtBody ht (by omega) ?_
  rw [hk]
  have hdecl : Consumes (parserParseFnDecl (parserParseStmt n) n) (k :: f :: o :: (ps ++ c :: b :: (v ++ [d]))) (t :: r)
      fun node => node.erase = (Stmt.fnDecl identifier names body).toNode := by
    refine Consumes.bind (u := [k]) (consumes_parserExpect hk (by decide)) fun _ _ => ?_
    refine Consumes.bind (u := [f]) (consumes_parserExpect hf (by decide)) fun f' hf' => ?_
    refine Consumes.bind (u := [o]) (consumes_parserExpect ho (by decide)) fun _ _ => consumes_get fun q _ => ?_
    refine Consumes.bind (u := ps) (consumes_params hc names n [] ps hps (by omega)) fun names' hnames => ?_
    refine Consumes.bind (u := [c]) (consumes_parserExpect hc (by decide)) fun _ _ => ?_
    refine Consumes.bind (u := [b]) (consumes_parserExpect hb (by decide)) fun _ _ => ?_
    refine (consumes_body hbody hv (by omega) hd).bind fun nodes hnodes => ?_
    refine (consumes_parserExpect hd (by decide)).last fun _ _ => consumes_pure ?_
    rw [AstNode.erase, Stmt.toNode, hnodes, hf', hname, hnames, List.nil_append]
  exact hdecl.last fun node hnode => consumes_pure ⟨hnode, rfl⟩

theorem block_parses {children : List Stmt} (hchildren : ∀ s ∈ children, s.Parses) :
    (Stmt.block children).Parses := by
  intro n u t r hu hn ht _
  obtain ⟨b, v, rfl, hb, -, hv⟩ := exists_token hu
  obtain ⟨v, d, rfl, hv, hd⟩ := exists_last hv
  simp only [List.length_cons, List.length_append, List.length_nil] at hn
  obtain ⟨n, rfl⟩ : ∃ i, n = i + 1 := ⟨n - 1, by omega⟩
  refine consumes_stmtBody ht (by omega) ?_
  rw [hb]
  have hblock : Consumes (parserParseBlock (parserParseStmt n) n) (b :: (v ++ [d])) (t :: r)
      fun node => node.erase = (Stmt.block children).toNode := by
    refine Consumes.bind (u := [b]) (consumes_parserExpect hb (by decide)) fun _ _ => ?_
    refine (consumes_body hchildren hv (by omega) hd).bind fun nodes hnodes => ?_
    refine (consumes_parserExpect hd (by decide)).last fun _ _ => consumes_pure ?_
    rw [AstNode.erase, Stmt.toNode, hnodes]
  exact hblock.last fun node hnode => consumes_pure ⟨hnode, rfl⟩

theorem consumes_else_none {parseStmt : ParserM AstNode} (ht : t.type ≠ .tElse) :
    Consumes (parserParseElse parseStmt) [] (t :: r) fun elseBody => elseBody = none := by
  refine consumes_parserAt.peek fun a ha => consumes_ite (fun h => ?_) fun _ => consumes_pure rfl
  rw [ha] at h
  exact absurd h ht

/-- An `if`, from its parts. -/
theorem consumes_if {k : LexToken} {w x : List LexToken} {ifNode : AstNode} {elseNode : Option AstNode}
    (hk : k.type = .tIf) (hu : u.map LexToken.key = printHeader e) (hlen : u.length < n + 1)
    (hif : Consumes (parserParseStmt n) w (x ++ r) fun node => node.erase = ifNode)
    (helse : Consumes (parserParseElse (parserParseStmt n)) x r fun node => node.map AstNode.erase = elseNode) :
    Consumes (parserParseIf (parserParseExpr (n + 1)) (parserParseStmt n)) (k :: (u ++ (w ++ x))) r
      fun node => node.erase = .ifStmt .unknown e.toNode ifNode elseNode := by
  obtain ⟨o, v, c, rfl, ho, hv, hc⟩ := exists_header hu
  simp only [List.length_cons, List.length_append, List.length_nil] at hlen
  have htokens : k :: (o :: (v ++ [c]) ++ (w ++ x)) = k :: o :: (v ++ (c :: (w ++ x))) := by simp
  rw [htokens]
  refine Consumes.bind (u := [k]) (consumes_parserExpect hk (by decide)) fun _ _ => ?_
  refine Consumes.bind (u := [o]) (consumes_parserExpect ho (by decide)) fun _ _ => ?_
  have hexpr := consumes_print (n := n + 1) (t := c) (r := w ++ x ++ r) hv (by omega) (by rw [hc]; rfl)
  refine hexpr.bind fun condition hcondition => ?_
  refine Consumes.bind (u := [c]) (consumes_parserExpect hc (by decide)) fun _ _ => ?_
  refine hif.bind fun ifBlock hifBlock => helse.last fun elseBlock helseBlock => consumes_pure ?_
  cases elseBlock with
  | none => rw [AstNode.erase, hcondition, hifBlock, ← helseBlock, Option.map_none]
  | some elseBlock => rw [AstNode.erase, hcondition, hifBlock, ← helseBlock, Option.map_some]

theorem ifStmt_parses (condition : Expr) {ifBlock : Stmt} (hif : ifBlock.Parses) :
    (Stmt.ifStmt condition ifBlock).Parses := by
  intro n u t r hu hn ht hopen
  obtain ⟨k, v, rfl, hk, -, hv⟩ := exists_token hu
  obtain ⟨v, w, rfl, hv, hw⟩ := exists_split hv
  simp only [List.length_cons, List.length_append] at hn
  obtain ⟨n, rfl⟩ : ∃ i, n = i + 1 := ⟨n - 1, by omega⟩
  refine consumes_stmtBody ht (by omega) ?_
  rw [hk]
  have helse : t.type ≠ .tElse := hopen rfl
  have hnone : Consumes (parserParseElse (parserParseStmt n)) [] (t :: r)
      fun node => node.map AstNode.erase = none := (consumes_else_none helse).post fun _ h => by rw [h]; rfl
  have hstmt := consumes_if hk hv (by omega) (hif n w t r hw (by omega) ht fun _ => helse) hnone
  rw [List.append_nil] at hstmt
  exact hstmt.last fun node hnode => consumes_pure ⟨by rw [Stmt.toNode, hnode], rfl⟩

theorem ifElse_parses (condition : Expr) {ifBlock elseBlock : Stmt} (hif : ifBlock.Parses)
    (helse : elseBlock.Parses) (hclosed : ifBlock.isOpen = false) :
    (Stmt.ifElse condition ifBlock elseBlock).Parses := by
  intro n u t r hu hn ht hopen
  obtain ⟨k, v, rfl, hk, -, hv⟩ := exists_token hu
  obtain ⟨h, rest, rfl, hh, hrest⟩ := exists_split hv
  obtain ⟨w, y, rfl, hw, hy⟩ := exists_split hrest
  obtain ⟨l, x, rfl, hl, -, hx⟩ := exists_token hy
  simp only [List.length_cons, List.length_append] at hn
  obtain ⟨n, rfl⟩ : ∃ i, n = i + 1 := ⟨n - 1, by omega⟩
  refine consumes_stmtBody ht (by omega) ?_
  rw [hk]
  have hbody := hif n w l (x ++ t :: r) hw (by omega) (by rw [hl]; decide) fun h => by rw [hclosed] at h; cases h
  have hlast : Consumes (parserParseElse (parserParseStmt n)) (l :: x) (t :: r)
      fun node => node.map AstNode.erase = some elseBlock.toNode := by
    refine consumes_parserAt.peek fun a ha => consumes_ite (fun _ => ?_) fun h => ?_
    · refine Consumes.bind (u := [l]) (consumes_parserExpect hl (by decide)) fun _ _ => ?_
      refine (helse n x t r hx (by omega) ht hopen).last fun node hnode => consumes_pure ?_
      rw [Option.map_some, hnode]
    · rw [ha] at h
      exact absurd hl h
  have hstmt := consumes_if (n := n) hk hh (by omega) hbody hlast
  exact hstmt.last fun node hnode => consumes_pure ⟨by rw [Stmt.toNode, hnode], rfl⟩

/-- A loop, from its parts. -/
theorem consumes_loop {k : LexToken} {h w x : List LexToken} {name : Option String} {count : Option AstNode}
    {body : Stmt} (hk : k.type = .tLoop) (hbody : body.Parses) (hx : x.map LexToken.key = body.print)
    (hlen : x.length < n) (ht : t.type ≠ .tSemicolon) (hopen : body.isOpen = true → t.type ≠ .tElse)
    (hheader : Consumes (parserParseLoopHeader (parserParseExpr (n + 1))) h (w ++ (x ++ t :: r))
      fun header => header.1.map AstNode.erase = count ∧ header.2 = none)
    (hname : Consumes (parserParseLoopVarname none) w (x ++ t :: r) fun v => v = name) :
    Consumes (parserParseStmtBody (parserParseExpr (n + 1)) (parserParseStmt n) n) (k :: (h ++ (w ++ x))) (t :: r)
      fun node => node.erase = .loopStmt .unknown count name body.toNode := by
  refine consumes_stmtBody ht (by omega) ?_
  rw [hk]
  have hloop : Consumes (parserParseLoopStmt (parserParseExpr (n + 1)) (parserParseStmt n)) (k :: (h ++ (w ++ x)))
      (t :: r) fun node => node.erase = .loopStmt .unknown count name body.toNode := by
    refine consumes_parserAt.peek fun start _ => consumes_get fun q _ => ?_
    refine Consumes.bind (u := [k]) (consumes_parserExpect hk (by decide)) fun _ _ => ?_
    rw [← List.append_assoc] at hheader
    refine hheader.bind fun header hh => ?_
    rw [hh.2]
    refine hname.bind fun v hv => (hbody n x t r hx hlen ht hopen).last fun body' hbody' => ?_
    refine consumes_parserAt.peek fun stop _ => consumes_pure ?_
    rw [erase_loopStmt, hh.1, hv, hbody']
  exact hloop.last fun node hnode => consumes_pure ⟨hnode, rfl⟩

/-- The first token of a printed statement has the type that it should. -/
theorem first_of_print (hu : u.map LexToken.key = s.print) : ∃ t v, u = t :: v ∧ s.first = some t.type := by
  obtain ⟨key, ks, hkey, -⟩ := s.print_starts
  obtain ⟨t, v, rfl, ht, -⟩ := List.map_eq_cons_iff.mp (hu.trans hkey)
  refine ⟨t, v, rfl, ?_⟩
  unfold Stmt.first
  rw [hkey, ← ht]
  rfl

theorem loop_parses (name : Option String) {body : Stmt} (hbody : body.Parses)
    (hfirst : name = none → body.first ≠ some .tIdentifier ∧ body.first ≠ some .tParenOpen) :
    (Stmt.loop name body).Parses := by
  intro n u t r hu hn ht hopen
  obtain ⟨k, v, rfl, hk, -, hv⟩ := exists_token hu
  obtain ⟨w, x, rfl, hw, hx⟩ := exists_split hv
  obtain ⟨b, y, rfl, hb⟩ := first_of_print hx
  simp only [List.length_cons, List.length_append] at hn
  obtain ⟨n, rfl⟩ : ∃ i, n = i + 1 := ⟨n - 1, by omega⟩
  have hfirst' : name = none → b.type ≠ .tIdentifier ∧ b.type ≠ .tParenOpen := by
    intro hnone
    have h := hfirst hnone
    rw [hb, ne_eq, Option.some_inj, ne_eq, Option.some_inj] at h
    exact h
  have hheader : Consumes (parserParseLoopHeader (parserParseExpr (n + 1))) [] (w ++ (b :: y ++ t :: r))
      fun header => header.1.map AstNode.erase = none ∧ header.2 = none := by
    obtain ⟨a, z, ha, hne⟩ : ∃ a z, w ++ (b :: y ++ t :: r) = a :: z ∧ a.type ≠ .tParenOpen := by
      cases name with
      | none =>
        obtain rfl := List.map_eq_nil_iff.mp hw
        exact ⟨b, y ++ t :: r, rfl, (hfirst' rfl).2⟩
      | some name =>
        obtain ⟨a, w, rfl, ha, -, -⟩ := exists_token hw
        exact ⟨a, w ++ (b :: y ++ t :: r), rfl, by rw [ha]; decide⟩
    rw [ha]
    exact (consumes_loopHeader_none hne).post fun header hh => by rw [hh]; exact ⟨rfl, rfl⟩
  have hname := consumes_namePrint (t := b) (r := y ++ t :: r) hw fun hnone => (hfirst' hnone).1
  have hloop := consumes_loop (h := []) hk hbody hx (by rw [List.length_cons]; omega) ht hopen hheader hname
  rw [Stmt.toNode]
  exact hloop

theorem loopCount_parses (count : Expr) (name : Option String) {body : Stmt} (hbody : body.Parses)
    (hfirst : name = none → body.first ≠ some .tIdentifier) : (Stmt.loopCount count name body).Parses := by
  intro n u t r hu hn ht hopen
  obtain ⟨k, v, rfl, hk, -, hv⟩ := exists_token hu
  obtain ⟨h, v, rfl, hh, hv⟩ := exists_split hv
  obtain ⟨w, x, rfl, hw, hx⟩ := exists_split hv
  obtain ⟨b, y, rfl, hb⟩ := first_of_print hx
  simp only [List.length_cons, List.length_append] at hn
  obtain ⟨n, rfl⟩ : ∃ i, n = i + 1 := ⟨n - 1, by omega⟩
  have hname := consumes_namePrint (t := b) (r := y ++ t :: r) hw fun hnone hid => by
    have hne := hfirst hnone
    rw [hb, hid] at hne
    exact hne rfl
  have hloop := consumes_loop hk hbody hx (by rw [List.length_cons]; omega) ht hopen
    (consumes_headerPrint (n := n + 1) hh (by omega)) hname
  rw [Stmt.toNode]
  exact hloop

mutual

/-- The parser takes the tokens of a statement for it. -/
theorem stmt_parses : ∀ s : Stmt, s.plain = true → s.Parses
  | .varDecl name, _ => varDecl_parses name
  | .varInit isConst name value, _ => varInit_parses isConst name value
  | .exprStmt value, _ => exprStmt_parses value
  | .fnDecl identifier names body, h => by
    rw [Stmt.plain] at h
    exact fnDecl_parses identifier names (stmts_parse body h)
  | .block children, h => by
    rw [Stmt.plain] at h
    exact block_parses (stmts_parse children h)
  | .ifStmt condition ifBlock, h => by
    rw [Stmt.plain] at h
    exact ifStmt_parses condition (stmt_parses ifBlock h)
  | .ifElse condition ifBlock elseBlock, h => by
    rw [Stmt.plain, Bool.and_eq_true, Bool.and_eq_true, Bool.not_eq_true'] at h
    exact ifElse_parses condition (stmt_parses ifBlock h.1.1) (stmt_parses elseBlock h.2) h.1.2
  | .loop none body, h => by
    rw [Stmt.plain, Bool.and_eq_true, Bool.and_eq_true, bne_iff_ne, bne_iff_ne] at h
    exact loop_parses none (stmt_parses body h.1.1) fun _ => ⟨h.1.2, h.2⟩
  | .loop (some name) body, h => by
    rw [Stmt.plain] at h
    exact loop_parses (some name) (stmt_parses body h) fun hnone => by cases hnone
  | .loopCount count none body, h => by
    rw [Stmt.plain, Bool.and_eq_true, bne_iff_ne] at h
    exact loopCount_parses count none (stmt_parses body h.1) fun _ => h.2
  | .loopCount count (some name) body, h => by
    rw [Stmt.plain] at h
    exact loopCount_parses count (some name) (stmt_parses body h) fun hnone => by cases hnone

theorem stmts_parse : ∀ ss : List Stmt, plainAll ss = true → ∀ s ∈ ss, s.Parses
  | [], _ => by
    intro s hs
    cases hs
  | s :: ss, h => by
    rw [plainAll, Bool.and_eq_true] at h
    exact List.forall_mem_cons.mpr ⟨stmt_parses s h.1, stmts_parse ss h.2⟩

end

/-! ## Programs -/

theorem consumes_program (program : Program) {tokens : List LexToken} {eof : LexToken}
    (hprint : tokens.map LexToken.key = program.print) (heof : eof.type = .tEof) (hn : tokens.length < n) :
    Consumes (parserCreateAstNode n) tokens [eof] fun node => node.erase = program.toNode := by
  have hcond : ∀ (t : LexToken) r, t.type.startsStmt = true →
      Consumes (do return !(← parserIsEof) : ParserM Bool) [] (t :: r) fun b => b = true := by
    intro t r ht
    refine (consumes_parserIsEof (startsStmt_ne ht).2.2.2).peek fun b hb => consumes_pure ?_
    rw [hb]
    rfl
  have hend : Consumes (do return !(← parserIsEof) : ParserM Bool) [] [eof] fun b => b = false := by
    intro p hp
    obtain ⟨b, hb, hne, -⟩ := parserIsEof_eq p
    refine ⟨!b, ?_, ?_⟩
    · rw [after_nil]
      show EStateM.bind parserIsEof _ p = _
      unfold EStateM.bind
      rw [hb]
      rfl
    · cases b with
      | true => rfl
      | false =>
        obtain ⟨t, r, ht, htype⟩ := hne rfl
        rw [ht] at hp
        obtain ⟨rfl, -⟩ := List.cons.inj hp
        exact absurd heof htype
  have hloop := consumes_children (n := n) hcond hend (by rw [heof]; decide) (stmts_parse program.stmts program.plain) n []
    tokens hprint hn hn
  refine hloop.last fun nodes hnodes => consumes_get fun q _ => consumes_pure ?_
  obtain ⟨nodes, rfl, hns⟩ := hnodes
  show AstNode.root Pos.unknown (eraseAll nodes) = _
  rw [hns]
  rfl

end Blaze
