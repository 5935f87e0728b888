import Blazescript.Syntax.Expr
import Blazescript.Syntax.Proofs.ConsumesProofs
import Blazescript.Syntax.Proofs.SeparatedProofs

/-!
# Proofs: the parser takes the expressions of the language

On the tokens of an expression, and before a token that ends it, the parser returns the tree for which the
tokens stand.
-/

namespace Blaze

open Blaze.Parser

variable {n : Nat} {p : Parser} {parseExpr : ParserM AstNode} {level : Level} {u v : List LexToken}
  {t : LexToken} {r : List LexToken} {e : AstNode} {es : List AstNode} {k : Nat}

/-! ## Lookahead -/

theorem getElem_rest (p : Parser) (i : Nat) : p.tokens[p.index + i]? = p.rest[i]? :=
  List.getElem?_drop.symm

/-- The lookahead of a call sees a name and a parenthesis, and that these are not the last tokens. -/
theorem isCall_iff : p.isCall = true ↔
    ∃ a b c r, p.rest = a :: b :: c :: r ∧ a.type = .tIdentifier ∧ b.type = .tParenOpen := by
  have hlen : p.rest.length = p.tokens.length - p.index := List.length_drop
  have hzero : p.tokens[p.index]? = p.rest[0]? := getElem_rest p 0
  unfold isCall
  rw [hzero, getElem_rest]
  constructor
  · intro h
    simp only [Bool.and_eq_true, decide_eq_true_eq] at h
    obtain ⟨⟨hlt, ha⟩, hb⟩ := h
    match hr : p.rest with
    | [] | [_] | [_, _] =>
      rw [hr] at hlen
      simp only [List.length_nil, List.length_cons] at hlen
      omega
    | a :: b :: c :: r =>
      rw [hr] at ha hb
      exact ⟨a, b, c, r, rfl, by simpa using ha, by simpa using hb⟩
  · rintro ⟨a, b, c, r, hr, ha, hb⟩
    rw [hr] at hlen ⊢
    simp only [List.length_cons] at hlen
    have hlt : p.index + 2 < p.tokens.length := by omega
    simp [hlt, ha, hb]

theorem isAssignment_iff : p.isAssignment = true ↔
    ∃ a b r, p.rest = a :: b :: r ∧ b.type = .tAssignment := by
  unfold isAssignment
  rw [getElem_rest]
  match hr : p.rest with
  | [] | [_] => simp
  | a :: b :: r => simp

/-! ## What follows -/

theorem MayFollow.cases (h : MayFollow k t) : t.type.closes = true ∨ t.type = .tBinaryOperator :=
  h.imp_right And.left

theorem MayFollow.ne_paren (h : MayFollow k t) : t.type ≠ .tParenOpen := by
  intro ht
  rcases h.cases with h | h <;> rw [ht] at h <;> cases h

theorem MayFollow.ne_assignment (h : MayFollow k t) : t.type ≠ .tAssignment := by
  intro ht
  rcases h.cases with h | h <;> rw [ht] at h <;> cases h

theorem MayFollow.ne_eof (h : MayFollow k t) : t.type ≠ .tEof := by
  intro ht
  rcases h.cases with h | h <;> rw [ht] at h <;> cases h

theorem MayFollow.mono {m : Nat} (h : MayFollow k t) (hk : k ≤ m) : MayFollow m t := by
  rcases h with h | ⟨ht, level, operator, hlt, hmem⟩
  · exact .inl h
  · exact .inr ⟨ht, level, operator, Nat.lt_of_lt_of_le hlt hk, hmem⟩

/-- The loop of a level ends before what may follow. -/
theorem consumes_atOperator_end (h : MayFollow level.rank t) :
    Consumes (parserAtOperator level.isOperator) [] (t :: r) fun b => b = false := by
  refine (consumes_parserIsEof h.ne_eof).peek fun b hb => consumes_ite (fun h => ?_) fun _ => ?_
  · rw [hb] at h
    cases h
  · refine consumes_parserAt.peek fun a ha => consumes_pure ?_
    rw [ha]
    rcases h with h | ⟨-, level', operator, hlt, hmem⟩
    · rw [Bool.and_eq_false_iff]
      left
      cases ht : t.type <;> rw [ht] at h <;> first | rfl | cases h
    · rw [Bool.and_eq_false_iff]
      right
      rw [Bool.eq_false_iff]
      intro hop
      rw [level_of_isOperator hmem hop] at hlt
      omega

/-- The loop of a level goes on at an operator of the level. -/
theorem consumes_atOperator {operator : BinOperator} (ht : t.type = .tBinaryOperator)
    (hop : (t.value, operator) ∈ level.operators) :
    Consumes (parserAtOperator level.isOperator) [] (t :: r) fun b => b = true := by
  refine (consumes_parserIsEof (by simp [ht])).peek fun b hb => consumes_ite (fun h => ?_) fun _ => ?_
  · rw [hb] at h
    cases h
  · refine consumes_parserAt.peek fun a ha => consumes_pure ?_
    rw [ha, ht, (isOperator_of_mem hop).1]
    rfl

theorem consumes_binexpOperator {operator : BinOperator} (ht : t.type = .tBinaryOperator)
    (hop : (t.value, operator) ∈ level.operators) :
    Consumes parserParseBinexpOperator [t] r fun a => a = operator := by
  refine (consumes_parserExpect ht (by simp)).last fun a ha => ?_
  rw [ha, (isOperator_of_mem hop).2]
  exact consumes_pure rfl

theorem consumes_binexpInner (operator : BinOperator) (left right : AstNode) :
    Consumes (parserParseBinexpInner operator left right) [] r fun e =>
      e.erase = .binaryExpr .unknown operator left.erase right.erase := by
  refine consumes_get fun q _ => ?_
  rw [ofCode_code]
  exact consumes_pure rfl

/-! ## Chains of operands -/

/-- Operators of a level and their right operands, which an expression extends from the left. -/
inductive Chain (level : Level) : AstNode → List LexToken → AstNode → Prop
  | nil (e : AstNode) : Chain level e [] e
  | cons {o : LexToken} {v w : List LexToken} {operator : BinOperator} {left right e : AstNode}
      (ho : o.type = .tBinaryOperator) (hop : (o.value, operator) ∈ level.operators)
      (hr : Derives language level.operand v [right])
      (h : Chain level (.binaryExpr .unknown operator left right) w e) :
      Chain level left (o :: (v ++ w)) e

/-- An expression of a level is an operand with a chain. -/
theorem chain_of_derives {g : Nonterminal} {ns : List AstNode} (h : Derives language g u ns) :
    ∀ e, g = .binary level → ns = [e] → ∀ w e', Chain level e w e' →
      ∃ u₀ e₀ w', u ++ w = u₀ ++ w' ∧ Derives language level.operand u₀ [e₀] ∧ Chain level e₀ w' e' := by
  induction h with
  | @single level' u e₀ h _ =>
    rintro e hg hns w e' hw
    cases hg
    cases hns
    exact ⟨u, e₀, w, rfl, h, hw⟩
  | @binary level' o u v operator left right _ ho hop hr ihl _ =>
    rintro e hg hns w e' hw
    cases hg
    cases hns
    obtain ⟨u₀, e₀, w', heq, h₀, hchain⟩ := ihl left rfl rfl _ e' (.cons ho hop hr hw)
    refine ⟨u₀, e₀, w', ?_, h₀, hchain⟩
    rw [← heq, List.append_assoc]
    rfl
  | _ =>
    rintro e hg
    cases hg

/-! ## Expressions -/

theorem operand_mayFollow {operator : BinOperator} (ht : t.type = .tBinaryOperator)
    (hop : (t.value, operator) ∈ level.operators) : MayFollow (level.rank + 1) t :=
  .inr ⟨ht, level, operator, Nat.lt_succ_self _, hop⟩

/-- The loop of a level takes a chain. -/
theorem consumes_chain {operand : ParserM AstNode} {m : Nat}
    (hoperand : ∀ u e t r, Derives language level.operand u [e] → u.length ≤ m →
      MayFollow (level.rank + 1) t → Consumes operand u (t :: r) fun node => node.erase = e)
    {left : AstNode} {w : List LexToken} (h : Chain level left w e) (hfollow : MayFollow level.rank t) :
    ∀ n node, node.erase = left → w.length < n → w.length ≤ m →
      Consumes (parserWhile (parserAtOperator level.isOperator) (parserParseBinexpRight operand) n node) w
        (t :: r) fun node => node.erase = e := by
  induction h with
  | nil e =>
    intro n node hnode hn _
    obtain ⟨n, rfl⟩ : ∃ i, n = i + 1 := ⟨n - 1, by omega⟩
    refine (consumes_while_done (consumes_atOperator_end hfollow)).post fun node' hnode' => ?_
    rw [hnode']
    exact hnode
  | @cons o v w operator left right e ho hop hr hchain ih =>
    intro n node hnode hn hm
    obtain ⟨n, rfl⟩ : ∃ i, n = i + 1 := ⟨n - 1, by omega⟩
    simp only [List.length_cons, List.length_append] at hn hm
    have hnext : ∃ t' r', w ++ t :: r = t' :: r' ∧ MayFollow (level.rank + 1) t' := by
      cases hchain with
      | nil => exact ⟨t, r, rfl, hfollow.mono (Nat.le_succ _)⟩
      | cons ho' hop' _ _ => exact ⟨_, _, rfl, operand_mayFollow ho' hop'⟩
    obtain ⟨t', r', heq, hfollow'⟩ := hnext
    rw [← List.cons_append]
    refine consumes_while_again (P := fun node' => node'.erase = .binaryExpr .unknown operator left right)
      (consumes_atOperator ho hop) ?_ fun node' hnode' => ih n node' hnode' (by omega) (by omega)
    rw [heq]
    refine Consumes.bind (u := [o]) (consumes_binexpOperator ho hop) fun operator' hoperator => ?_
    refine (hoperand v right t' r' hr (by omega) hfollow').last fun right' hright => ?_
    refine (consumes_binexpInner operator' node right').peek fun node' hnode' => consumes_pure ⟨rfl, ?_⟩
    rw [hnode', hoperator, hnode, hright]

variable (level) in
/-- Operands of a level and the operators between them. -/
theorem consumes_binexp {operand : ParserM AstNode}
    (hoperand : ∀ u e t r, Derives language level.operand u [e] → u.length ≤ n →
      MayFollow (level.rank + 1) t → Consumes operand u (t :: r) fun node => node.erase = e)
    (h : Derives language (.binary level) u [e]) (hlen : u.length ≤ n) (hfollow : MayFollow level.rank t) :
    Consumes (parserParseBinexp level.isOperator operand n) u (t :: r) fun node => node.erase = e := by
  obtain ⟨u₀, e₀, w, heq, h₀, hchain⟩ := chain_of_derives h e rfl rfl [] e (.nil e)
  rw [List.append_nil] at heq
  subst heq
  have hpos := List.length_pos_of_ne_nil (h₀.ne_nil (by cases level <;> simp [Level.operand]))
  rw [List.length_append] at hlen
  have hnext : ∃ t' r', w ++ t :: r = t' :: r' ∧ MayFollow (level.rank + 1) t' := by
    cases hchain with
    | nil => exact ⟨t, r, rfl, hfollow.mono (Nat.le_succ _)⟩
    | cons ho hop _ _ => exact ⟨_, _, rfl, operand_mayFollow ho hop⟩
  obtain ⟨t', r', hrest, hfollow'⟩ := hnext
  have hleft := hoperand u₀ e₀ t' r' h₀ (by omega) hfollow'
  rw [← hrest] at hleft
  exact hleft.bind fun node hnode =>
    consumes_chain hoperand hchain hfollow n node hnode (by omega) (by omega)

section Expressions

variable (hexpr : ∀ u e t r, Derives language .expr u [e] → u.length < n → t.type.closes = true →
  Consumes parseExpr u (t :: r) fun node => node.erase = e)

include hexpr

theorem consumes_primary (h : Derives language .primary u [e]) (hlen : u.length ≤ n) :
    Consumes (parserParsePrimaryExpr parseExpr) u (t :: r) fun node => node.erase = e := by
  cases h with
  | @identifier a ha =>
    refine consumes_parserAt.peek fun a' ha' => consumes_get fun q _ => ?_
    rw [ha', ha]
    exact consumes_parserRetForward.last fun _ _ => consumes_pure rfl
  | @intLit a ha =>
    refine consumes_parserAt.peek fun a' ha' => consumes_get fun q _ => ?_
    rw [ha', ha]
    exact consumes_parserRetForward.last fun _ _ => consumes_pure rfl
  | @string a ha =>
    refine consumes_parserAt.peek fun a' ha' => consumes_get fun q _ => ?_
    rw [ha', ha]
    exact consumes_parserRetForward.last fun _ _ => consumes_pure rfl
  | @paren o c u _ ho hc h =>
    refine consumes_parserAt.peek fun a' ha' => consumes_get fun q _ => ?_
    rw [ha', ho]
    simp only [List.length_cons, List.length_append] at hlen
    refine Consumes.bind (u := [o]) consumes_parserRetForward fun _ _ => ?_
    have hu := hexpr u e c (t :: r) h (by omega) (by simp [hc, LexTokenType.closes])
    refine hu.bind fun node hnode => ?_
    exact (consumes_parserExpect hc (by simp)).last fun _ _ => consumes_pure hnode

omit hexpr in
/-- An expression does not begin with what ends a list. -/
theorem consumes_before {type : LexTokenType} (h : Derives language .expr u [e])
    (ht : type.startsOperand = false) :
    Consumes (parserBefore type) [] (u ++ r) fun b => b = true := by
  obtain ⟨b, u, rfl⟩ := List.exists_cons_of_ne_nil (h.ne_nil (by simp))
  have hstarts := startsOperand_of_derives h.lax rfl b rfl
  have hne : b.type ≠ .tEof := by
    intro hb
    rw [hb] at hstarts
    cases hstarts
  refine (consumes_parserBefore hne).post fun b' hb' => ?_
  rw [hb', bne_iff_ne]
  intro hb
  rw [hb, ht] at hstarts
  cases hstarts

omit hexpr in
theorem consumes_before_end {α : Type} {body : α → ParserM (α × Bool)} {type : LexTokenType}
    (ht : t.type = type) (hne : type ≠ .tEof) {m : Nat} (hm : 0 < m) (a : α) :
    Consumes (parserWhile (parserBefore type) body m a) [] (t :: r) fun b => b = a := by
  obtain ⟨m, rfl⟩ : ∃ i, m = i + 1 := ⟨m - 1, by omega⟩
  refine consumes_while_done ((consumes_parserBefore (by rwa [ht])).post fun b hb => ?_)
  rw [hb, ht]
  exact bne_self_eq_false type

/-- An argument and what follows it. -/
theorem consumes_arg (h : Derives language .expr u [e]) (hlen : u.length < n) (args : List AstNode) :
    (∀ c : LexToken, c.type = .tParenClose → Consumes (parserParseArg parseExpr args) u (c :: r)
      fun res => res.2 = true ∧ ∃ node, res.1 = args ++ [node] ∧ node.erase = e) ∧
    (∀ c : LexToken, c.type = .tComma → Consumes (parserParseArg parseExpr args) (u ++ [c]) r
      fun res => res.2 = true ∧ ∃ node, res.1 = args ++ [node] ∧ node.erase = e) := by
  constructor
  · intro c hc
    have hu := hexpr u e c r h hlen (by simp [hc, LexTokenType.closes])
    refine hu.last fun node hnode => consumes_parserAt.peek fun a ha => consumes_ite ?_ fun _ => ?_
    · intro hcomma
      rw [ha, hc] at hcomma
      cases hcomma
    · exact consumes_pure ⟨rfl, node, rfl, hnode⟩
  · intro c hc
    have hu := hexpr u e c r h hlen (by simp [hc, LexTokenType.closes])
    refine hu.bind fun node hnode => consumes_parserAt.peek fun a ha => consumes_ite (fun _ => ?_) ?_
    · refine (consumes_parserExpect hc (by simp)).last fun _ _ => ?_
      exact consumes_pure ⟨rfl, node, rfl, hnode⟩
    · intro hne
      rw [ha] at hne
      exact absurd hc hne

/-- The arguments of a call, before the closing parenthesis. -/
theorem consumes_args {g : Nonterminal} (h : Derives language g u es) (hg : g = .args) {c : LexToken}
    (hc : c.type = .tParenClose) : ∀ m acc, u.length < m → u.length < n →
      Consumes (parserWhile (parserBefore .tParenClose) (parserParseArg parseExpr) m acc) u (c :: r)
        fun nodes => ∃ ns, nodes = acc ++ ns ∧ eraseAll ns = es := by
  induction h with
  | argsNil =>
    intro m acc hm _
    refine (consumes_before_end hc (by simp) hm acc).post fun nodes hnodes => ?_
    exact ⟨[], by rw [hnodes, List.append_nil], rfl⟩
  | @argsLast u e h _ =>
    intro m acc hm hn
    obtain ⟨m, rfl⟩ : ∃ i, m = i + 1 := ⟨m - 1, by omega⟩
    have hpos := List.length_pos_of_ne_nil (h.ne_nil (by simp))
    refine consumes_while_last (P := fun nodes => ∃ node, nodes = acc ++ [node] ∧ node.erase = e)
      (consumes_before h rfl) ((consumes_arg hexpr h hn acc).1 c hc) ?_
    rintro nodes ⟨node, rfl, hnode⟩
    refine (consumes_before_end hc (by simp) (by omega) _).post fun nodes hnodes => ?_
    refine ⟨[node], hnodes, ?_⟩
    rw [eraseAll, hnode]
    rfl
  | @argsCons u s v e es h hs _ _ ih =>
    intro m acc hm hn
    obtain ⟨comma, rfl, hcomma⟩ := hs
    obtain ⟨m, rfl⟩ : ∃ i, m = i + 1 := ⟨m - 1, by omega⟩
    simp only [List.length_cons, List.length_append, List.length_nil] at hm hn
    rw [← List.append_assoc]
    refine consumes_while_again (P := fun nodes => ∃ node, nodes = acc ++ [node] ∧ node.erase = e) ?_
      ((consumes_arg hexpr h (by omega) acc).2 comma hcomma) ?_
    · rw [List.append_assoc]
      exact consumes_before h rfl
    · rintro nodes ⟨node, rfl, hnode⟩
      refine (ih rfl m (acc ++ [node]) (by omega) (by omega)).post fun nodes' hnodes' => ?_
      obtain ⟨ns, rfl, hns⟩ := hnodes'
      exact ⟨node :: ns, by simp, by rw [eraseAll, hnode, hns]⟩
  | _ => cases hg

theorem consumes_call (h : Derives language .call u [e]) (hlen : u.length ≤ n)
    (ht : t.type ≠ .tParenOpen) :
    Consumes (parserParseCallExpr parseExpr n) u (t :: r) fun node => node.erase = e := by
  cases h with
  | @call f o c u es hf ho hc h =>
    simp only [List.length_cons, List.length_append, List.length_nil] at hlen
    refine consumes_get fun q hq => consumes_ite (fun _ => ?_) fun hcall => ?_
    · refine consumes_get fun q _ => ?_
      refine Consumes.bind (u := [f]) (consumes_parserExpect hf (by simp)) fun f' hf' => ?_
      refine Consumes.bind (u := [o]) (consumes_parserExpect ho (by simp)) fun _ _ => ?_
      have hargs := consumes_args hexpr h rfl hc n [] (r := t :: r) (by omega) (by omega)
      refine hargs.bind fun nodes hnodes => (consumes_parserExpect hc (by simp)).last fun _ _ => ?_
      refine consumes_parserAt.peek fun stop _ => consumes_pure ?_
      obtain ⟨ns, rfl, hns⟩ := hnodes
      rw [AstNode.erase, hf', ← hns]
    · exfalso
      refine hcall (isCall_iff.mpr ?_)
      rw [hq]
      cases u with
      | nil => exact ⟨f, o, c, _, rfl, hf, ho⟩
      | cons a u => exact ⟨f, o, a, _, rfl, hf, ho⟩
  | primary h =>
    refine consumes_get fun q hq => consumes_ite (fun hcall => ?_) fun _ => consumes_primary hexpr h hlen
    obtain ⟨a, b, c, r', hr, ha, hb⟩ := isCall_iff.mp hcall
    rw [hq] at hr
    cases h with
    | identifier =>
      cases hr
      exact absurd hb ht
    | intLit ha' | string ha' | paren ha' =>
      rw [← (List.cons.inj hr).1, ha'] at ha
      cases ha

omit hexpr in
/-- An operand of any level does not look like an assignment. -/
theorem second_ne_assignment {g : Nonterminal} {ns : List AstNode} (h : Derives language g u ns)
    (hg : g.isExpression = true) (hne : g ≠ .expr) :
    ∀ a b r, u = a :: b :: r → b.type ≠ .tAssignment := by
  induction h with
  | identifier | intLit | string =>
    intro a b r hu
    cases hu
  | paren _ _ h _ =>
    intro a b r hu
    obtain ⟨b', w, rfl⟩ := List.exists_cons_of_ne_nil (h.ne_nil (by simp))
    cases hu
    intro hb
    have hstarts := startsOperand_of_derives h.lax rfl b rfl
    rw [hb] at hstarts
    cases hstarts
  | call _ ho _ _ _ | arrayLit _ ho _ _ _ =>
    intro a b r hu
    cases hu
    simp [ho]
  | primary _ ih | comparison _ ih => exact ih rfl (by simp)
  | @single level _ _ _ ih =>
    exact ih (operand_isExpression _) (by cases level <;> simp [Level.operand])
  | binary hl ho _ _ ihl _ =>
    intro a b r hu
    obtain ⟨a', w, rfl⟩ := List.exists_cons_of_ne_nil (hl.ne_nil (by simp))
    cases w with
    | nil =>
      cases hu
      simp [ho]
    | cons b' w =>
      cases hu
      exact ihl rfl (by simp) a b w rfl
  | assignment | operand => exact absurd rfl hne
  | _ => cases hg

/-- Three levels of operators around calls. -/
theorem consumes_comparison (h : Derives language (.binary .comparison) u [e]) (hlen : u.length ≤ n)
    (ht : t.type.closes = true) :
    Consumes (parserParseBinexpComparison parseExpr n) u (t :: r) fun node => node.erase = e := by
  refine consumes_binexp .comparison ?_ h hlen (.inl ht)
  intro u e t r h hlen ht
  refine consumes_binexp .additive ?_ h hlen ht
  intro u e t r h hlen ht
  refine consumes_binexp .multiplicative ?_ h hlen ht
  exact fun u e t r h hlen ht => consumes_call hexpr h hlen ht.ne_paren

/-- An element and what follows it. -/
theorem consumes_element (h : Derives language .expr u [e]) (hlen : u.length < n)
    (elements : List AstNode) :
    (∀ c : LexToken, c.type = .tSquareBraceClose →
      Consumes (parserParseElement parseExpr elements) u (c :: r) fun res =>
        res.2 = false ∧ ∃ node, res.1 = elements ++ [node] ∧ node.erase = e) ∧
    (∀ c : LexToken, c.type = .tComma →
      Consumes (parserParseElement parseExpr elements) (u ++ [c]) r fun res =>
        res.2 = true ∧ ∃ node, res.1 = elements ++ [node] ∧ node.erase = e) := by
  constructor
  · intro c hc
    have hu := hexpr u e c r h hlen (by simp [hc, LexTokenType.closes])
    refine hu.last fun node hnode => consumes_parserAt.peek fun a ha => consumes_ite (fun _ => ?_) ?_
    · exact consumes_pure ⟨rfl, node, rfl, hnode⟩
    · intro hne
      rw [ha] at hne
      exact absurd hc hne
  · intro c hc
    have hu := hexpr u e c r h hlen (by simp [hc, LexTokenType.closes])
    refine hu.bind fun node hnode => consumes_parserAt.peek fun a ha => consumes_ite ?_ fun _ => ?_
    · intro hclose
      rw [ha, hc] at hclose
      cases hclose
    · refine (consumes_parserExpect hc (by simp)).last fun _ _ => ?_
      exact consumes_pure ⟨rfl, node, rfl, hnode⟩

/-- The elements of an array, before the closing bracket. -/
theorem consumes_elements {g : Nonterminal} (h : Derives language g u es) (hg : g = .elements)
    {c : LexToken} (hc : c.type = .tSquareBraceClose) : ∀ m acc, u.length < m → u.length < n →
      Consumes (parserWhile (parserBefore .tSquareBraceClose) (parserParseElement parseExpr) m acc) u
        (c :: r) fun nodes => ∃ ns, nodes = acc ++ ns ∧ eraseAll ns = es := by
  induction h with
  | elementsNil =>
    intro m acc hm _
    refine (consumes_before_end hc (by simp) hm acc).post fun nodes hnodes => ?_
    exact ⟨[], by rw [hnodes, List.append_nil], rfl⟩
  | @elementsLast u e h _ =>
    intro m acc hm hn
    obtain ⟨m, rfl⟩ : ∃ i, m = i + 1 := ⟨m - 1, by omega⟩
    refine (consumes_while_stop (R := fun nodes => ∃ node, nodes = acc ++ [node] ∧ node.erase = e)
      (consumes_before h rfl) ((consumes_element hexpr h hn acc).1 c hc)).post fun nodes hnodes => ?_
    obtain ⟨node, rfl, hnode⟩ := hnodes
    refine ⟨[node], rfl, ?_⟩
    rw [eraseAll, hnode]
    rfl
  | @elementsCons comma u v e es h hcomma _ _ ih =>
    intro m acc hm hn
    obtain ⟨m, rfl⟩ : ∃ i, m = i + 1 := ⟨m - 1, by omega⟩
    simp only [List.length_cons, List.length_append] at hm hn
    rw [List.append_cons]
    refine consumes_while_again (P := fun nodes => ∃ node, nodes = acc ++ [node] ∧ node.erase = e) ?_
      ((consumes_element hexpr h (by omega) acc).2 comma hcomma) ?_
    · rw [List.append_assoc]
      exact consumes_before h rfl
    · rintro nodes ⟨node, rfl, hnode⟩
      refine (ih rfl m (acc ++ [node]) (by omega) (by omega)).post fun nodes' hnodes' => ?_
      obtain ⟨ns, rfl, hns⟩ := hnodes'
      exact ⟨node :: ns, by simp, by rw [eraseAll, hnode, hns]⟩
  | _ => cases hg

omit hexpr in
/-- A comparison does not begin like an array literal. -/
theorem first_ne_array {g : Nonterminal} {ns : List AstNode} (h : Derives language g u ns)
    (hg : g.isExpression = true) (hne : g ≠ .expr ∧ g ≠ .operand) :
    ∀ a r, u = a :: r → a.type ≠ .tArray := by
  induction h with
  | identifier ht | intLit ht | string ht | paren ht _ _ _ | call ht _ _ _ _ =>
    intro a r hu
    cases hu
    simp [ht]
  | primary _ ih => exact ih rfl (by simp)
  | @single level _ _ _ ih =>
    exact ih (operand_isExpression _) (by cases level <;> simp [Level.operand])
  | binary hl _ _ _ ihl _ =>
    intro a r hu
    obtain ⟨a', w, rfl⟩ := List.exists_cons_of_ne_nil (hl.ne_nil (by simp))
    cases hu
    exact ihl rfl (by simp) a w rfl
  | arrayLit | comparison => exact absurd rfl hne.2
  | assignment | operand => exact absurd rfl hne.1
  | _ => cases hg

theorem consumes_arrayLit (h : Derives language .operand u [e]) (hlen : u.length ≤ n)
    (ht : t.type.closes = true) :
    Consumes (parserParseArrayLit parseExpr n) u (t :: r) fun node => node.erase = e := by
  cases h with
  | @arrayLit a o c u es ha ho hc h =>
    simp only [List.length_cons, List.length_append, List.length_nil] at hlen
    refine consumes_parserAt.peek fun a' ha' => consumes_ite (fun hne => ?_) fun _ => ?_
    · rw [ha'] at hne
      exact absurd ha hne
    · refine Consumes.bind (u := [a]) (consumes_parserExpect ha (by simp)) fun _ _ => ?_
      refine Consumes.bind (u := [o]) (consumes_parserExpect ho (by simp)) fun _ _ => ?_
      have helements := consumes_elements hexpr h rfl hc n [] (r := t :: r) (by omega) (by omega)
      refine helements.bind fun nodes hnodes => (consumes_parserExpect hc (by simp)).last fun _ _ => ?_
      obtain ⟨ns, rfl, hns⟩ := hnodes
      refine consumes_pure ?_
      rw [AstNode.erase, ← hns]
  | comparison h =>
    obtain ⟨a, u, rfl⟩ := List.exists_cons_of_ne_nil (h.ne_nil (by simp))
    refine consumes_parserAt.peek fun a' ha' => consumes_ite (fun _ => ?_) fun harray => ?_
    · exact consumes_comparison hexpr h hlen ht
    · rw [ha'] at harray
      exact absurd (of_not_not harray) (first_ne_array h rfl (by simp) a u rfl)

theorem consumes_assignment (h : Derives language .expr u [e]) (hlen : u.length ≤ n)
    (ht : t.type.closes = true) :
    Consumes (parserParseAssignmentExpr parseExpr n) u (t :: r) fun node => node.erase = e := by
  cases h with
  | @assignment x o u e hx ho h =>
    simp only [List.length_cons] at hlen
    refine (consumes_parserIsEof (by simp [hx])).peek fun b hb => consumes_get fun q hq => ?_
    refine consumes_ite (fun _ => ?_) fun hno => ?_
    · refine Consumes.bind (u := [x]) (consumes_parserExpect hx (by simp)) fun x' hx' => ?_
      refine Consumes.bind (u := [o]) (consumes_parserExpect ho (by simp)) fun _ _ => ?_
      refine (hexpr u e t r h (by omega) ht).last fun value hvalue => consumes_get fun q _ => ?_
      refine consumes_parserAt.peek fun stop _ => consumes_pure ?_
      rw [AstNode.erase, AstNode.erase, hx', hvalue]
    · have hassign := isAssignment_iff.mpr ⟨x, o, _, hq, ho⟩
      rw [hb, hassign] at hno
      exact absurd rfl hno
  | operand h =>
    obtain ⟨a, u, rfl⟩ := List.exists_cons_of_ne_nil (h.ne_nil (by simp))
    have hne : a.type ≠ .tEof := by
      intro ha
      have hstarts := startsOperand_of_derives h.lax rfl a rfl
      rw [ha] at hstarts
      cases hstarts
    refine (consumes_parserIsEof hne).peek fun _ _ => consumes_get fun q hq => consumes_ite (fun hyes => ?_)
      fun _ => consumes_arrayLit hexpr h hlen ht
    obtain ⟨a', b', r', hr, hb'⟩ := isAssignment_iff.mp (Bool.and_eq_true_iff.mp hyes).2
    rw [hq] at hr
    cases u with
    | nil =>
      cases hr
      exact absurd hb' (MayFollow.ne_assignment (k := 0) (.inl ht))
    | cons b u =>
      cases hr
      exact absurd hb' (second_ne_assignment h rfl (by simp) a _ u rfl)

end Expressions

/-- On the tokens of an expression `parser_parse_expr` returns its tree. -/
theorem consumes_expr (n : Nat) : ∀ u e t r, Derives language .expr u [e] → u.length < n →
    t.type.closes = true → Consumes (parserParseExpr n) u (t :: r) fun node => node.erase = e := by
  induction n with
  | zero =>
    intro u e t r _ hlen
    omega
  | succ n ih => exact fun u e t r h hlen ht => consumes_assignment ih h (Nat.le_of_lt_succ hlen) ht

end Blaze
