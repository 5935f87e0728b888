import Blazescript.Syntax.Places
import Blazescript.Syntax.Proofs.YieldsProofs

/-!
# Proofs: the parser keeps to the grammar

Each function of the parser moves over tokens that are derived from its nonterminal and returns the tree
for which they stand.
-/

namespace Blaze

open Blaze.Parser

variable {safe : Prop} {filename : Option String} {n : Nat} {p p' : Parser} {parseExpr parseStmt : ParserM AstNode}

/-! ## Trees and operators -/

theorem eraseAll_append (xs ys : List AstNode) :
    eraseAll (xs ++ ys) = eraseAll xs ++ eraseAll ys := by
  induction xs with
  | nil => rfl
  | cons x xs ih =>
    rw [List.cons_append, eraseAll, ih]
    rfl

/-- An operator is not changed by the conversion to a `char`. -/
theorem ofCode_code (operator : BinOperator) :
    BinOperator.ofCode (operator.code % 256) = some operator := by
  cases operator <;> rfl

theorem head_of_startsWithOneOf {chars : List Char} {text : String}
    (h : startsWithOneOf chars text = true) : ∃ c ∈ chars, text.toList.head? = some c := by
  unfold startsWithOneOf at h
  cases hc : text.toList.head? with
  | none =>
    rw [hc] at h
    cases h
  | some c =>
    rw [hc] at h
    exact ⟨c, by simpa using h, rfl⟩

/-- The cast gives an operator for the first characters that the loops look for. -/
theorem ofText_of_head {text : String} {c : Char} (h : text.toList.head? = some c)
    (hc : c ∈ ['*', '/', '%', '+', '-', '>', '<']) : ∃ operator, BinOperator.ofText text = some operator := by
  have hcast : ∃ operator, (if c.toNat < 128 then BinOperator.ofCode c.toNat else none) =
      some operator := by
    have hall : (['*', '/', '%', '+', '-', '>', '<'].all fun c =>
        (if c.toNat < 128 then BinOperator.ofCode c.toNat else none).isSome) = true := by decide
    exact Option.isSome_iff_exists.mp (List.all_eq_true.mp hall c hc)
  unfold BinOperator.ofText
  rw [h]
  repeat' split
  all_goals first | exact ⟨_, rfl⟩ | exact hcast

theorem ofText_isOperator {level : Level} {text : String} (h : level.isOperator text = true) :
    ∃ operator, BinOperator.ofText text = some operator := by
  cases level with
  | multiplicative =>
    obtain ⟨c, hc, hhead⟩ := head_of_startsWithOneOf h
    refine ofText_of_head hhead ?_
    revert hc
    simp only [List.mem_cons]
    tauto
  | additive =>
    obtain ⟨c, hc, hhead⟩ := head_of_startsWithOneOf h
    refine ofText_of_head hhead ?_
    revert hc
    simp only [List.mem_cons]
    tauto
  | comparison =>
    by_cases hfirst : startsWithOneOf ['>', '<'] text = true
    · obtain ⟨c, hc, hhead⟩ := head_of_startsWithOneOf hfirst
      refine ofText_of_head hhead ?_
      revert hc
      simp only [List.mem_cons]
      tauto
    · have htext : text = ">=" ∨ text = "<=" ∨ text = "==" ∨ text = "===" ∨ text = "!=" ∨
          text = "!==" := by
        have h : isComparison text = true := h
        unfold isComparison at h
        simp only [Bool.or_eq_true, beq_iff_eq] at h
        tauto
      rcases htext with rfl | rfl | rfl | rfl | rfl | rfl <;> exact ⟨_, rfl⟩

/-- Only lists may be empty. -/
theorem Derives.ne_nil {r : Rules} {g : Nonterminal} {u : List LexToken} {ns : List AstNode}
    (h : Derives r g u ns) (hg : g ≠ .args ∧ g ≠ .elements ∧ g ≠ .stmts) : u ≠ [] := by
  induction h with
  | primary _ ih => exact ih (by simp)
  | single _ ih =>
    rename_i level _ _ _
    exact ih (by cases level <;> simp [Level.operand])
  | comparison _ ih => exact ih (by simp)
  | operand _ ih => exact ih (by simp)
  | stmt _ _ ih =>
    intro hnil
    exact ih (by simp) (List.append_eq_nil_iff.mp hnil).1
  | argsNil | argsLast | argsCons => exact absurd rfl hg.1
  | elementsNil | elementsLast | elementsCons => exact absurd rfl hg.2.1
  | stmtsNil | stmtsCons => exact absurd rfl hg.2.2
  | _ => simp

/-- Without the places, the tokens are derived from the grammar. -/
theorem Spells.derives {P A : List LexToken → AstNode → Prop} {g : Nonterminal} {u : List LexToken} {ns : List AstNode}
    (h : Spells P A g u ns) : Derives parserRules g u (eraseAll ns) := by
  induction h with
  | identifier ht => exact .identifier ht
  | intLit ht => exact .intLit ht
  | string ht => exact .string ht
  | paren ho hc _ ih => exact .paren ho hc ih
  | call hf ho hc _ _ ih => exact .call hf ho hc ih
  | primary _ ih => exact .primary ih
  | single _ ih => exact .single ih
  | binary _ ho hop _ _ ihl ihr => exact .binary ihl ho hop ihr
  | arrayLit ha ho hc _ _ ih => exact .arrayLit ha ho hc ih
  | comparison _ ih => exact .comparison ih
  | assignment hx ho _ _ _ ih => exact .assignment hx ho ih
  | operand _ ih => exact .operand ih
  | argsNil => exact .argsNil
  | argsCons _ hs _ ih iht => exact .argsCons ih hs iht
  | elementsNil => exact .elementsNil
  | elementsLast _ ih => exact .elementsLast ih
  | elementsCons _ hc _ ih iht => exact .elementsCons ih hc iht
  | varDecl hk hx hs => exact .varDecl hk hx hs
  | varInit hk hx ho _ hs _ ih => exact .varInit hk hx ho ih hs
  | exprStmt _ hs ih => exact .exprStmt ih hs
  | fnDecl hk hf ho hn hc hb _ hd _ ih => exact .fnDecl hk hf ho hn hc hb ih hd
  | block hb _ hd _ ih => exact .block hb ih hd
  | ifStmt hk ho _ hc _ _ ih ihn => exact .ifStmt hk ho ih hc ihn
  | ifElse hk ho _ hc _ hl _ _ ih ihn ihm => exact .ifElse hk ho ih hc ihn hl ihm
  | loop hk hx _ _ ihn => exact .loop hk hx ihn
  | loopCount hk ho _ ha hc hx _ _ ih ihn => exact .loopCount hk ho ih ha hc hx ihn
  | stmt _ hs ih => exact .stmt ih hs
  | stmtsNil => exact .stmtsNil
  | stmtsCons _ _ ih iht => exact .stmtsCons ih iht

/-- The tokens stand for the trees, in which the parser has stored places. -/
abbrev Builds (filename : Option String) (g : Nonterminal) (u : List LexToken) (ns : List AstNode) : Prop :=
  Spells (Marked filename) (fun _ node => ∃ pos name, node = .identifier pos name) g u ns

/-- The tokens stand for the tree. -/
def StandsFor (filename : Option String) (g : Nonterminal) (u : List LexToken) (e : AstNode) : Prop :=
  Builds filename g u [e]

theorem StandsFor.ne_nil {g : Nonterminal} {u : List LexToken} {e : AstNode} (h : StandsFor filename g u e)
    (hg : g ≠ .args ∧ g ≠ .elements ∧ g ≠ .stmts) : u ≠ [] := (Spells.derives h).ne_nil hg

/-- The first token of a node that is made of a token that is no parenthesis, and others. -/
theorem firstToken_cons {t : LexToken} (ht : t.type ≠ .tParenOpen) (u : List LexToken) : firstToken (t :: u) = some t :=
  List.find?_cons_of_pos (decide_eq_true ht)

theorem startsAt_pos (t : LexToken) : (t.pos filename).StartsAt filename t := ⟨rfl, rfl, rfl⟩

/-- A node that starts with a token that is no parenthesis. -/
theorem located_of_first {t : LexToken} {u : List LexToken} {node : AstNode} (ht : t.type ≠ .tParenOpen)
    (h : node.pos.StartsAt filename t) : Located filename (t :: u) node := ⟨t, firstToken_cons ht u, h⟩

theorem startsAt_posTo (t stop : LexToken) : (t.posTo stop filename).StartsAt filename t := ⟨rfl, rfl, rfl⟩

/-! ## Expressions -/

section Expressions

variable (hexpr : ∀ p, (p.Ready safe filename n) → Yields safe parseExpr p (StandsFor filename .expr))

include hexpr

theorem yields_primary (hs : p.Ready safe filename (n + 1)) :
    Yields safe (parserParsePrimaryExpr parseExpr) p (StandsFor filename .primary) := by
  refine (yields_parserAt hs).peek fun token ht => yields_get.peek fun q hq => ?_
  obtain ⟨r, hr⟩ := ht
  have hfile : q.filename = filename := hq ▸ hs.filename
  split
  · rename_i htype
    refine (yields_parserRetForward hr (by simp [htype])).bind fun t u p' ha hu => ?_
    obtain ⟨rfl, -⟩ := hu
    rw [hfile]
    exact yields_pure (.identifier htype (located_of_first (by simp [htype]) (startsAt_pos token)))
  · rename_i htype
    refine (yields_parserRetForward hr (by simp [htype])).bind fun t u p' ha hu => ?_
    obtain ⟨rfl, -⟩ := hu
    rw [hfile]
    exact yields_pure (.intLit htype (located_of_first (by simp [htype]) (startsAt_pos token)))
  · rename_i htype
    refine (yields_parserRetForward hr (by simp [htype])).bind fun t u p' ha hu => ?_
    obtain ⟨rfl, -⟩ := hu
    rw [hfile]
    exact yields_pure (.string htype (located_of_first (by simp [htype]) (startsAt_pos token)))
  · rename_i htype
    refine (yields_parserRetForward hr (by simp [htype])).bind fun t u p' ha hu => ?_
    obtain ⟨rfl, -⟩ := hu
    have hs' : p'.Ready safe filename n := hs.pred ha (by simp)
    refine (hexpr p' hs').bind fun e v p'' ha' he => ?_
    refine (yields_parserExpect (hs'.later ha') _).bind fun c w q _ hc => ?_
    obtain ⟨rfl, hc⟩ := hc
    refine yields_pure ?_
    rw [List.append_nil]
    exact Spells.paren htype hc he
  · exact yields_parserError hs _

/-- An argument, and a comma that may be missing. -/
def ArgStep (filename : Option String) (args : List AstNode) (u : List LexToken) (r : List AstNode × Bool) : Prop :=
  ∃ v s e, u = v ++ s ∧ StandsFor filename .expr v e ∧ parserRules.sep s ∧ r = (args ++ [e], true)

theorem yields_arg (args : List AstNode) (hs : p.Ready safe filename n) :
    Yields safe (parserParseArg parseExpr args) p fun u r => u ≠ [] ∧ ArgStep filename args u r := by
  refine (hexpr p hs).bind fun e v p' ha he => ?_
  have hs' : p'.Ready safe filename n := hs.later ha
  have hne : v ≠ [] := StandsFor.ne_nil he (by simp)
  refine (yields_parserAt hs').peek fun token _ => yields_ite (fun _ => ?_) fun _ => ?_
  · refine (yields_parserExpect hs' _).bind fun c w p'' _ hc => ?_
    obtain ⟨rfl, hc⟩ := hc
    exact yields_pure ⟨by simp, v, [c], e, by simp, he, .inr ⟨c, rfl, hc⟩, rfl⟩
  · exact yields_pure ⟨by simpa using hne, v, [], e, rfl, he, .inl rfl, rfl⟩

omit hexpr in
theorem derives_args {a b : List AstNode} {u : List LexToken} (h : Iterates (ArgStep filename) a u b) :
    ∃ es, b = a ++ es ∧ Builds filename .args u es := by
  induction h with
  | done a => exact ⟨[], by simp, .argsNil⟩
  | stop h =>
    obtain ⟨v, s, e, -, -, -, hr⟩ := h
    cases hr
  | again h _ ih =>
    obtain ⟨v, s, e, rfl, he, hsep, hr⟩ := h
    cases hr
    obtain ⟨es, rfl, hes⟩ := ih
    refine ⟨e :: es, by simp, ?_⟩
    rw [List.append_assoc]
    exact .argsCons he hsep hes

omit hexpr in
/-- The condition of the loops over what stands before a closing token. -/
theorem yields_parserBefore (hs : p.Ready safe filename n) (type : LexTokenType) :
    Yields safe (parserBefore type) p fun u b => u = [] ∧
      (b = true → ∃ t r, p.rest = t :: r ∧ t.type ≠ .tEof) := by
  refine yields_parserIsEof.peek fun b hb => yields_ite (fun _ => yields_pure ?_) fun hne => ?_
  · exact ⟨rfl, by simp⟩
  · refine (yields_parserAt hs).peek fun token _ => yields_pure ⟨rfl, fun _ => ?_⟩
    exact hb.1 (by simpa using hne)

theorem yields_call (hs : p.Ready safe filename (n + 1)) :
    Yields safe (parserParseCallExpr parseExpr n) p (StandsFor filename .call) := by
  refine yields_get.peek fun _ _ => yields_ite (fun _ => ?_) fun _ => ?_
  · refine yields_get.peek fun q hq => ?_
    have hfile : q.filename = filename := hq ▸ hs.filename
    refine (yields_parserExpect hs _).bind fun f u p₁ ha₁ hf => ?_
    obtain ⟨rfl, hf⟩ := hf
    have hs₁ : p₁.Ready safe filename n := hs.pred ha₁ (by simp)
    refine (yields_parserExpect hs₁ _).bind fun o u p₂ ha₂ ho => ?_
    obtain ⟨rfl, ho⟩ := ho
    have hs₂ : p₂.Ready safe filename n := hs₁.later ha₂
    have hloop := yields_while (fun q hq => yields_parserBefore hq .tParenClose)
      (fun args q hq _ => yields_arg hexpr args hq) n [] p₂ hs₂ hs₂
    refine hloop.bind fun args w p₃ ha₃ hargs => ?_
    obtain ⟨es, rfl, hes⟩ := derives_args hargs
    have hs₃ : p₃.Ready safe filename n := hs₂.later ha₃
    refine (yields_parserExpect hs₃ _).bind fun c u p₄ ha₄ hc => ?_
    obtain ⟨rfl, hc⟩ := hc
    refine (yields_parserAt (hs₃.later ha₄)).peek fun stop _ => yields_pure ?_
    rw [List.append_nil, hfile]
    exact Spells.call hf ho hc hes (located_of_first (by simp [hf]) (startsAt_posTo f stop))
  · exact (yields_primary hexpr hs).post fun u e he => Spells.primary he

omit hexpr in
theorem yields_binexpOperator (level : Level) (hs : p.Ready safe filename n)
    (hop : ∃ t r, p.rest = t :: r ∧ level.isOperator t.value = true) :
    Yields safe parserParseBinexpOperator p fun u operator => ∃ o, u = [o] ∧
      o.type = .tBinaryOperator ∧ parserRules.operator level o.value operator := by
  obtain ⟨t, r, hr, hop⟩ := hop
  refine (yields_parserExpect hs _).bind fun o u p' ha ho => ?_
  obtain ⟨rfl, ho⟩ := ho
  obtain rfl : t = o := by
    have hrest := ha.rest
    rw [hr] at hrest
    exact (List.cons.inj hrest).1
  obtain ⟨operator, htext⟩ := ofText_isOperator hop
  rw [htext]
  exact yields_pure ⟨t, rfl, ho, hop, htext⟩

omit hexpr in
theorem yields_binexpInner (operator : BinOperator) (left right : AstNode) (hs : p.Ready safe filename n) :
    Yields safe (parserParseBinexpInner operator left right) p fun u e => u = [] ∧ ∃ pos,
      e = .binaryExpr pos operator left right ∧ ∀ v, Marked filename v e := by
  refine yields_get.peek fun q hq => ?_
  have hfile : q.filename = filename := hq ▸ hs.filename
  rw [ofCode_code]
  exact yields_pure ⟨rfl, _, rfl, fun v => ⟨hfile, rfl, rfl⟩⟩

/-- An operator of a level and an operand. -/
def BinexpStep (filename : Option String) (level : Level) (left : AstNode) (u : List LexToken) (r : AstNode × Bool) : Prop :=
  ∃ o v operator right pos, u = o :: v ∧ o.type = .tBinaryOperator ∧
    parserRules.operator level o.value operator ∧ StandsFor filename level.operand v right ∧
      (∀ w, Marked filename w (.binaryExpr pos operator left right)) ∧ r = (.binaryExpr pos operator left right, true)

omit hexpr in
theorem derives_binexp {level : Level} {left e : AstNode} {u : List LexToken}
    (h : Iterates (BinexpStep filename level) left u e) : ∀ u₀, StandsFor filename (.binary level) u₀ left →
      StandsFor filename (.binary level) (u₀ ++ u) e := by
  induction h with
  | done a =>
    intro u₀ h₀
    rw [List.append_nil]
    exact h₀
  | stop h =>
    obtain ⟨o, v, operator, right, e, -, -, -, -, -, hr⟩ := h
    cases hr
  | again h _ ih =>
    intro u₀ h₀
    obtain ⟨o, v, operator, right, pos, rfl, ho, hop, hright, hmarked, hr⟩ := h
    cases hr
    rw [← List.append_assoc]
    exact ih _ (.binary h₀ ho hop hright (hmarked _))

omit hexpr in
/-- The operands of a level and the operators between them. -/
theorem yields_binexp (level : Level) {operand : ParserM AstNode}
    (hoperand : ∀ p, (p.Ready safe filename (n + 1)) → Yields safe operand p (StandsFor filename level.operand))
    (hs : p.Ready safe filename (n + 1)) :
    Yields safe (parserParseBinexp level.isOperator operand n) p (StandsFor filename (.binary level)) := by
  refine (hoperand p hs).bind fun left u p' ha hleft => ?_
  have hne : u ≠ [] := StandsFor.ne_nil hleft (by cases level <;> simp [Level.operand])
  have hcond : ∀ q : Parser, (q.Ready safe filename (n + 1)) →
      Yields safe (parserAtOperator level.isOperator) q fun v b => v = [] ∧
        (b = true → ∃ t r, q.rest = t :: r ∧ level.isOperator t.value = true) := by
    intro q hq
    refine yields_parserIsEof.peek fun b hb => yields_ite (fun _ => yields_pure ⟨rfl, by simp⟩) fun _ => ?_
    refine (yields_parserAt hq).peek fun token ht => yields_pure ⟨rfl, fun hop => ?_⟩
    obtain ⟨r, hr⟩ := ht
    exact ⟨token, r, hr, (Bool.and_eq_true_iff.mp hop).2⟩
  have hbody : ∀ (a : AstNode) (q : Parser), (q.Ready safe filename (n + 1)) →
      (∃ t r, q.rest = t :: r ∧ level.isOperator t.value = true) →
        Yields safe (parserParseBinexpRight operand a) q fun v r => v ≠ [] ∧ BinexpStep filename level a v r := by
    intro a q hq hop
    refine (yields_binexpOperator level hq hop).bind fun operator v q₁ ha₁ ho => ?_
    obtain ⟨o, rfl, ho, hrule⟩ := ho
    refine (hoperand q₁ (hq.later ha₁)).bind fun right w q₂ ha₂ hright => ?_
    refine (yields_binexpInner operator a right ((hq.later ha₁).later ha₂)).bind fun e x q₃ _ he => ?_
    obtain ⟨rfl, pos, rfl, hmarked⟩ := he
    exact yields_pure ⟨by simp, o, w, operator, right, pos, by simp, ho, hrule, hright, hmarked, rfl⟩
  have hloop := yields_while hcond hbody n left p' (hs.later ha)
    (hs.pred ha hne)
  exact hloop.post fun v e he => derives_binexp he u (Spells.single hleft)

theorem yields_comparison (hs : p.Ready safe filename (n + 1)) :
    Yields safe (parserParseBinexpComparison parseExpr n) p (StandsFor filename (.binary .comparison)) := by
  refine yields_binexp .comparison (fun q hq => ?_) hs
  refine yields_binexp .additive (fun q₁ hq₁ => ?_) hq
  refine yields_binexp .multiplicative (fun q₂ hq₂ => ?_) hq₁
  exact yields_call hexpr hq₂

/-- An element, and a comma unless the array ends. -/
def ElementStep (filename : Option String) (elements : List AstNode) (u : List LexToken) (r : List AstNode × Bool) : Prop :=
  (∃ e, StandsFor filename .expr u e ∧ r = (elements ++ [e], false)) ∨
    ∃ v c e, u = v ++ [c] ∧ StandsFor filename .expr v e ∧ c.type = .tComma ∧ r = (elements ++ [e], true)

theorem yields_element (elements : List AstNode) (hs : p.Ready safe filename n) :
    Yields safe (parserParseElement parseExpr elements) p fun u r =>
      u ≠ [] ∧ ElementStep filename elements u r := by
  refine (hexpr p hs).bind fun e v p' ha he => ?_
  have hs' : p'.Ready safe filename n := hs.later ha
  have hne : v ≠ [] := StandsFor.ne_nil he (by simp)
  refine (yields_parserAt hs').peek fun token _ => yields_ite (fun _ => yields_pure ?_) fun _ => ?_
  · rw [List.append_nil]
    exact ⟨hne, .inl ⟨e, he, rfl⟩⟩
  · refine (yields_parserExpect hs' _).bind fun c w p'' _ hc => ?_
    obtain ⟨rfl, hc⟩ := hc
    exact yields_pure ⟨by simp, .inr ⟨v, c, e, by simp, he, hc, rfl⟩⟩

omit hexpr in
theorem derives_elements {a b : List AstNode} {u : List LexToken} (h : Iterates (ElementStep filename) a u b) :
    ∃ es, b = a ++ es ∧ Builds filename .elements u es := by
  induction h with
  | done a => exact ⟨[], by simp, .elementsNil⟩
  | stop h =>
    rcases h with ⟨e, he, hr⟩ | ⟨v, c, e, -, -, -, hr⟩
    · cases hr
      exact ⟨[e], rfl, .elementsLast he⟩
    · cases hr
  | again h _ ih =>
    rcases h with ⟨e, -, hr⟩ | ⟨v, c, e, rfl, he, hc, hr⟩
    · cases hr
    · cases hr
      obtain ⟨es, rfl, hes⟩ := ih
      refine ⟨e :: es, by simp, ?_⟩
      rw [List.append_assoc]
      exact .elementsCons he hc hes

theorem yields_arrayLit (hs : p.Ready safe filename (n + 1)) :
    Yields safe (parserParseArrayLit parseExpr n) p (StandsFor filename .operand) := by
  refine (yields_parserAt hs).peek fun token _ => yields_ite (fun _ => ?_) fun _ => ?_
  · exact (yields_comparison hexpr hs).post fun u e he => Spells.comparison he
  · refine (yields_parserExpect hs _).bind fun a u p₁ ha₁ h₁ => ?_
    obtain ⟨rfl, harray⟩ := h₁
    have hs₁ : p₁.Ready safe filename n := hs.pred ha₁ (by simp)
    refine (yields_parserExpect hs₁ _).bind fun o u p₂ ha₂ ho => ?_
    obtain ⟨rfl, ho⟩ := ho
    have hs₂ : p₂.Ready safe filename n := hs₁.later ha₂
    have hloop := yields_while (fun q hq => yields_parserBefore hq .tSquareBraceClose)
      (fun elements q hq _ => yields_element hexpr elements hq) n [] p₂ hs₂ hs₂
    refine hloop.bind fun elements w p₃ ha₃ helements => ?_
    obtain ⟨es, rfl, hes⟩ := derives_elements helements
    refine (yields_parserExpect (hs₂.later ha₃) _).bind fun c u p₄ _ hc => ?_
    obtain ⟨rfl, hc⟩ := hc
    refine yields_pure ?_
    rw [List.append_nil]
    exact Spells.arrayLit harray ho hc hes rfl

theorem yields_assignment (hs : p.Ready safe filename (n + 1)) :
    Yields safe (parserParseAssignmentExpr parseExpr n) p (StandsFor filename .expr) := by
  refine yields_parserIsEof.peek fun b _ => yields_get.peek fun _ _ => yields_ite (fun _ => ?_) fun _ => ?_
  · refine (yields_parserExpect hs _).bind fun x u p₁ ha₁ hx => ?_
    obtain ⟨rfl, hx⟩ := hx
    have hs₁ : p₁.Ready safe filename n := hs.pred ha₁ (by simp)
    refine (yields_parserExpect hs₁ _).bind fun o u p₂ ha₂ ho => ?_
    obtain ⟨rfl, ho⟩ := ho
    have hs₂ : p₂.Ready safe filename n := hs₁.later ha₂
    refine (hexpr p₂ hs₂).bind fun e v p₃ ha₃ he => yields_get.peek fun q hq => ?_
    have hfile : q.filename = filename := hq ▸ (hs₂.later ha₃).filename
    refine (yields_parserAt (hs₂.later ha₃)).peek fun stop _ => yields_pure ?_
    rw [List.append_nil, hfile]
    have hmarked : Marked filename (x :: o :: v)
        (.assignment (x.posTo stop filename) (.identifier (x.pos none) x.value) e) :=
      ⟨⟨x, firstToken_cons (by simp [hx]) (o :: v), startsAt_posTo x stop⟩, rfl⟩
    exact Spells.assignment hx ho he ⟨_, _, rfl⟩ hmarked
  · exact (yields_arrayLit hexpr hs).post fun u e he => Spells.operand he

end Expressions

/-- `parser_parse_expr`. -/
theorem yields_parserParseExpr (n : Nat) : ∀ p, (p.Ready safe filename n) →
    Yields safe (parserParseExpr n) p (StandsFor filename .expr) := by
  induction n with
  | zero =>
    intro p hs
    refine ⟨⟨[], .refl p⟩, fun h => ?_⟩
    obtain ⟨i, hi, -⟩ := hs.within h
    omega
  | succ n ih => exact fun p hs => yields_assignment ih hs

/-! ## Statements -/

section Statements

variable (hexpr : ∀ p, (p.Ready safe filename (n + 1)) → Yields safe parseExpr p (StandsFor filename .expr))
  (hstmt : ∀ p, (p.Ready safe filename n) → Yields safe parseStmt p (StandsFor filename .stmt))

/-- A child of a block. -/
def ChildStep (filename : Option String) (children : List AstNode) (u : List LexToken) (r : List AstNode × Bool) : Prop :=
  ∃ e, StandsFor filename .stmt u e ∧ r = (children ++ [e], true)

include hstmt in
theorem yields_child (children : List AstNode) (hs : p.Ready safe filename n) :
    Yields safe (parserParseChild parseStmt children) p fun u r => u ≠ [] ∧ ChildStep filename children u r := by
  refine (hstmt p hs).bind fun e v p' _ he => yields_pure ?_
  rw [List.append_nil]
  exact ⟨StandsFor.ne_nil he (by simp), e, he, rfl⟩

theorem derives_children {a b : List AstNode} {u : List LexToken} (h : Iterates (ChildStep filename) a u b) :
    ∃ es, b = a ++ es ∧ Builds filename .stmts u es := by
  induction h with
  | done a => exact ⟨[], by simp, .stmtsNil⟩
  | stop h =>
    obtain ⟨e, -, hr⟩ := h
    cases hr
  | again h _ ih =>
    obtain ⟨e, he, hr⟩ := h
    cases hr
    obtain ⟨es, rfl, hes⟩ := ih
    exact ⟨e :: es, by simp, .stmtsCons he hes⟩

include hstmt in
/-- The statements up to a closing brace. -/
theorem yields_children (hs : p.Ready safe filename n) :
    Yields safe (parserWhile (parserBefore .tBlockBraceClose) (parserParseChild parseStmt) n []) p
      fun u es => Builds filename .stmts u es := by
  have hloop := yields_while (fun q hq => yields_parserBefore hq .tBlockBraceClose)
    (fun children q hq _ => yields_child hstmt children hq) n [] p hs hs
  refine hloop.post fun u es hes => ?_
  obtain ⟨es', rfl, hes⟩ := derives_children hes
  exact hes

include hstmt in
theorem yields_block (hs : p.Ready safe filename (n + 1)) :
    Yields safe (parserParseBlock parseStmt n) p (StandsFor filename .core) := by
  refine (yields_parserExpect hs _).bind fun b u p₁ ha₁ hb => ?_
  obtain ⟨rfl, hb⟩ := hb
  have hs₁ : p₁.Ready safe filename n := hs.pred ha₁ (by simp)
  refine (yields_children hstmt hs₁).bind fun es v p₂ ha₂ hes => ?_
  refine (yields_parserExpect (hs₁.later ha₂) _).bind fun d u p₃ _ hd => ?_
  obtain ⟨rfl, hd⟩ := hd
  refine yields_pure ?_
  rw [List.append_nil]
  exact Spells.block hb hes hd rfl

/-- A parameter, and a comma unless the parameters end. -/
def ParamStep (names : List String) (u : List LexToken) (r : List String × Bool) : Prop :=
  ∃ x, x.type = .tIdentifier ∧ (u = [x] ∧ r = (names ++ [x.value], false) ∨
    ∃ c, u = [x, c] ∧ c.type = .tComma ∧ r = (names ++ [x.value], true))

theorem yields_param (names : List String) (hs : p.Ready safe filename n) :
    Yields safe (parserParseParam names) p fun u r => u ≠ [] ∧ ParamStep names u r := by
  refine (yields_parserExpect hs _).bind fun x u p' ha hx => ?_
  obtain ⟨rfl, hx⟩ := hx
  have hs' : p'.Ready safe filename n := hs.later ha
  refine (yields_parserAt hs').peek fun token _ => yields_ite (fun _ => yields_pure ?_) fun _ => ?_
  · exact ⟨by simp, x, hx, .inl ⟨rfl, rfl⟩⟩
  · refine (yields_parserExpect hs' _).bind fun c w p'' _ hc => ?_
    obtain ⟨rfl, hc⟩ := hc
    exact yields_pure ⟨by simp, x, hx, .inr ⟨c, rfl, hc, rfl⟩⟩

theorem params_of_iterates {a b : List String} {u : List LexToken} (h : Iterates ParamStep a u b) :
    ∃ names, b = a ++ names ∧ Params u names := by
  induction h with
  | done a => exact ⟨[], by simp, .nil⟩
  | stop h =>
    obtain ⟨x, hx, ⟨rfl, hr⟩ | ⟨c, -, -, hr⟩⟩ := h
    · cases hr
      exact ⟨[x.value], rfl, .last hx⟩
    · cases hr
  | again h _ ih =>
    obtain ⟨x, hx, ⟨-, hr⟩ | ⟨c, rfl, hc, hr⟩⟩ := h
    · cases hr
    · cases hr
      obtain ⟨names, rfl, hn⟩ := ih
      exact ⟨x.value :: names, by simp, .cons hx hc hn⟩

include hstmt in
theorem yields_fnDecl (hs : p.Ready safe filename (n + 1)) :
    Yields safe (parserParseFnDecl parseStmt n) p (StandsFor filename .core) := by
  refine (yields_parserExpect hs _).bind fun k u p₁ ha₁ hk => ?_
  obtain ⟨rfl, hk⟩ := hk
  have hs₁ : p₁.Ready safe filename n := hs.pred ha₁ (by simp)
  refine (yields_parserExpect hs₁ _).bind fun f u p₂ ha₂ hf => ?_
  obtain ⟨rfl, hf⟩ := hf
  have hs₂ : p₂.Ready safe filename n := hs₁.later ha₂
  refine (yields_parserExpect hs₂ _).bind fun o u p₃ ha₃ ho => ?_
  obtain ⟨rfl, ho⟩ := ho
  have hs₃ : p₃.Ready safe filename n := hs₂.later ha₃
  refine yields_get.peek fun q hq => ?_
  have hfile : q.filename = filename := hq ▸ hs₃.filename
  have hloop := yields_while (fun q hq => yields_parserBefore hq .tParenClose)
    (fun names q hq _ => yields_param names hq) n [] p₃ hs₃ hs₃
  refine hloop.bind fun names w p₄ ha₄ hnames => ?_
  obtain ⟨names, rfl, hnames⟩ := params_of_iterates hnames
  have hs₄ : p₄.Ready safe filename n := hs₃.later ha₄
  refine (yields_parserExpect hs₄ _).bind fun c u p₅ ha₅ hc => ?_
  obtain ⟨rfl, hc⟩ := hc
  have hs₅ : p₅.Ready safe filename n := hs₄.later ha₅
  refine (yields_parserExpect hs₅ _).bind fun b u p₆ ha₆ hb => ?_
  obtain ⟨rfl, hb⟩ := hb
  have hs₆ : p₆.Ready safe filename n := hs₅.later ha₆
  refine (yields_children hstmt hs₆).bind fun es v p₇ ha₇ hes => ?_
  refine (yields_parserExpect (hs₆.later ha₇) _).bind fun d u p₈ _ hd => ?_
  obtain ⟨rfl, hd⟩ := hd
  refine yields_pure ?_
  rw [List.append_nil, hfile]
  exact Spells.fnDecl hk hf ho hnames hc hb hes hd (located_of_first (by simp [hk]) (startsAt_posTo k d))

include hexpr hstmt in
theorem yields_if (hs : p.Ready safe filename (n + 1)) :
    Yields safe (parserParseIf parseExpr parseStmt) p (StandsFor filename .core) := by
  refine (yields_parserExpect hs _).bind fun k u p₁ ha₁ hk => ?_
  obtain ⟨rfl, hk⟩ := hk
  have hs₁ : p₁.Ready safe filename n := hs.pred ha₁ (by simp)
  refine (yields_parserExpect hs₁ _).bind fun o u p₂ ha₂ ho => ?_
  obtain ⟨rfl, ho⟩ := ho
  have hs₂ : p₂.Ready safe filename n := hs₁.later ha₂
  refine (hexpr p₂ (hs₂.mono (Nat.le_succ n))).bind fun e v p₃ ha₃ he => ?_
  have hs₃ : p₃.Ready safe filename n := hs₂.later ha₃
  refine (yields_parserExpect hs₃ _).bind fun c u p₄ ha₄ hc => ?_
  obtain ⟨rfl, hc⟩ := hc
  have hs₄ : p₄.Ready safe filename n := hs₃.later ha₄
  refine (hstmt p₄ hs₄).bind fun m w p₅ ha₅ hm => ?_
  have hs₅ : p₅.Ready safe filename n := hs₄.later ha₅
  refine Yields.bind (Q := fun x other => x = [] ∧ other = none ∨
    ∃ l y q, x = l :: y ∧ l.type = .tElse ∧ StandsFor filename .stmt y q ∧ other = some q) ?_ ?_
  · refine (yields_parserAt hs₅).peek fun token _ => yields_ite (fun _ => ?_) fun _ => ?_
    · refine (yields_parserExpect hs₅ _).bind fun l u p₆ ha₆ hl => ?_
      obtain ⟨rfl, hl⟩ := hl
      refine (hstmt p₆ (hs₅.later ha₆)).bind fun q y p₇ _ hq => yields_pure ?_
      exact .inr ⟨l, y, q, by simp, hl, hq, rfl⟩
    · exact yields_pure (.inl ⟨rfl, rfl⟩)
  · rintro other x p₆ - (⟨rfl, rfl⟩ | ⟨l, y, q, rfl, hl, hq, rfl⟩)
    · refine yields_pure ?_
      rw [List.append_nil, List.append_nil]
      exact Spells.ifStmt hk ho he hc hm rfl
    · refine yields_pure ?_
      rw [List.append_nil]
      exact Spells.ifElse hk ho he hc hm hl hq rfl

theorem yields_loopVarname (hs : p.Ready safe filename n) (varname : Option String) :
    Yields safe (parserParseLoopVarname varname) p fun u name =>
      ∃ name', LoopVarname u name' ∧ name = name'.or varname := by
  refine (yields_parserAt hs).peek fun token _ => yields_ite (fun _ => ?_) fun _ => ?_
  · refine (yields_parserExpect hs _).bind fun x u p' _ hx => ?_
    obtain ⟨rfl, hx⟩ := hx
    exact yields_pure ⟨some x.value, .some hx, rfl⟩
  · exact yields_pure ⟨none, .none, rfl⟩

theorem yields_loopAs (hs : p.Ready safe filename n) :
    Yields safe parserParseLoopAs p fun u name => LoopAs u name := by
  refine (yields_parserAt hs).peek fun token _ => yields_ite (fun _ => ?_) fun _ => ?_
  · refine (yields_parserExpect hs _).bind fun a u p₁ ha₁ has => ?_
    obtain ⟨rfl, has⟩ := has
    refine (yields_parserExpect (hs.later ha₁) _).bind fun x u p₂ _ hx => ?_
    obtain ⟨rfl, hx⟩ := hx
    exact yields_pure (.some has hx)
  · exact yields_pure .none

/-- The header of a loop in parentheses, if there is one. -/
inductive LoopHeader (filename : Option String) : List LexToken → Option AstNode × Option String → Prop
  | none : LoopHeader filename [] (none, none)
  | some {o c : LexToken} {u w : List LexToken} {e : AstNode} {as : Option String}
      (ho : o.type = .tParenOpen) (he : StandsFor filename .expr u e) (ha : LoopAs w as)
      (hc : c.type = .tParenClose) : LoopHeader filename (o :: (u ++ (w ++ [c]))) (some e, as)

include hexpr in
theorem yields_loopHeader (hs : p.Ready safe filename n) :
    Yields safe (parserParseLoopHeader parseExpr) p (LoopHeader filename) := by
  refine (yields_parserAt hs).peek fun token _ => yields_ite (fun _ => ?_) fun _ => ?_
  · refine (yields_parserExpect hs _).bind fun o u p₁ ha₁ ho => ?_
    obtain ⟨rfl, ho⟩ := ho
    have hs₁ : p₁.Ready safe filename n := hs.later ha₁
    refine (hexpr p₁ (hs₁.mono (Nat.le_succ n))).bind fun e v p₂ ha₂ he => ?_
    have hs₂ : p₂.Ready safe filename n := hs₁.later ha₂
    refine (yields_loopAs hs₂).bind fun as w p₃ ha₃ has => ?_
    refine (yields_parserExpect (hs₂.later ha₃) _).bind fun c u p₄ _ hc => ?_
    obtain ⟨rfl, hc⟩ := hc
    refine yields_pure ?_
    rw [List.append_nil]
    exact .some ho he has hc
  · exact yields_pure .none

include hexpr hstmt in
theorem yields_loop (hs : p.Ready safe filename (n + 1)) :
    Yields safe (parserParseLoopStmt parseExpr parseStmt) p (StandsFor filename .core) := by
  refine (yields_parserAt hs).peek fun start hstart => yields_get.peek fun q hq => ?_
  obtain ⟨r, hr⟩ := hstart
  have hfile : q.filename = filename := hq ▸ hs.filename
  refine (yields_parserExpect hs _).bind fun k u p₁ ha₁ hk => ?_
  obtain ⟨rfl, hk⟩ := hk
  obtain rfl : start = k := by
    have hrest := ha₁.rest
    rw [hr] at hrest
    exact (List.cons.inj hrest).1
  have hlocated {v : List LexToken} {stop : LexToken} {count : Option AstNode} {name : Option String} {body : AstNode} :
      Located filename (start :: v) (.loopStmt (start.posTo stop filename) count name body) :=
    located_of_first (by simp [hk]) (startsAt_posTo start stop)
  have hs₁ : p₁.Ready safe filename n := hs.pred ha₁ (by simp)
  refine (yields_loopHeader hexpr hs₁).bind fun header v p₂ ha₂ hheader => ?_
  have hs₂ : p₂.Ready safe filename n := hs₁.later ha₂
  refine (yields_loopVarname hs₂ header.2).bind fun varname x p₃ ha₃ hname => ?_
  obtain ⟨name, hname, rfl⟩ := hname
  have hs₃ : p₃.Ready safe filename n := hs₂.later ha₃
  refine (hstmt p₃ hs₃).bind fun body w p₄ ha₄ hbody => ?_
  refine (yields_parserAt (hs₃.later ha₄)).peek fun stop _ => yields_pure ?_
  rw [List.append_nil, hfile]
  cases hheader with
  | none =>
    rw [Option.or_none, List.nil_append, List.singleton_append]
    exact Spells.loop hk hname hbody hlocated
  | @some o c u v e as ho he has hc =>
    have htokens : [start] ++ ((o :: (u ++ (v ++ [c]))) ++ (x ++ w)) =
        start :: o :: (u ++ (v ++ c :: (x ++ w))) := by
      simp only [List.cons_append, List.nil_append, List.append_assoc]
    rw [htokens]
    exact Spells.loopCount hk ho he has hc hname hbody hlocated

/-- A declaration without its semicolon. -/
inductive Declares (filename : Option String) : List LexToken → AstNode → Prop
  | varDecl {k x : LexToken} {pos : Pos} (hk : k.type = .tVar) (hx : x.type = .tIdentifier)
      (hp : pos.StartsAt filename k) : Declares filename [k, x] (.varDecl pos x.value false none)
  | varInit {k x o : LexToken} {u : List LexToken} {e : AstNode} {pos : Pos}
      (hk : k.type = .tVar ∨ k.type = .tConst) (hx : x.type = .tIdentifier)
      (ho : o.type = .tAssignment) (he : StandsFor filename .expr u e) (hp : pos.StartsAt filename k) :
      Declares filename (k :: x :: o :: u) (.varDecl pos x.value (k.type == .tConst) (some e))

include hexpr in
theorem yields_varDecl (hs : p.Ready safe filename (n + 1)) {k : LexToken} {r : List LexToken}
    (hr : p.rest = k :: r) (hk : k.type = .tVar ∨ k.type = .tConst) :
    Yields safe (parserParseVarDecl parseExpr) p (Declares filename) := by
  have hne : k.type ≠ .tEof := by
    rcases hk with hk | hk <;> simp [hk]
  refine (yields_parserRetForward hr hne).bind fun t u p₁ ha₁ ht => ?_
  obtain ⟨rfl, rfl⟩ := ht
  have hs₁ : p₁.Ready safe filename n := hs.pred ha₁ (by simp)
  refine (yields_parserExpect hs₁ _).bind fun x u p₂ ha₂ hx => yields_get.peek fun q hq => ?_
  obtain ⟨rfl, hx⟩ := hx
  have hs₂ : p₂.Ready safe filename n := hs₁.later ha₂
  have hfile : q.filename = filename := hq ▸ hs₂.filename
  refine (yields_parserAt hs₂).peek fun token _ => yields_ite (fun _ => ?_) fun _ => ?_
  · refine yields_ite (fun _ => yields_parserError hs₂ _) fun hconst => yields_pure ?_
    have hvar : t.type = .tVar := by
      rcases hk with hk | hk
      · exact hk
      · rw [hk] at hconst
        exact absurd rfl hconst
    rw [hvar]
    rw [hfile]
    exact .varDecl hvar hx (startsAt_posTo t token)
  · refine (yields_parserExpect hs₂ _).bind fun o u p₃ ha₃ ho => ?_
    obtain ⟨rfl, ho⟩ := ho
    have hs₃ : p₃.Ready safe filename n := hs₂.later ha₃
    refine (hexpr p₃ (hs₃.mono (Nat.le_succ n))).bind fun e v p₄ ha₄ he => ?_
    refine (yields_parserAt (hs₃.later ha₄)).peek fun stop _ => yields_pure ?_
    rw [List.append_nil, hfile]
    exact .varInit hk hx ho he (startsAt_posTo t stop)

/-- A statement and the semicolon that may belong to it. -/
def StmtKind (filename : Option String) (u : List LexToken) (r : AstNode × Bool) : Prop :=
  (r.2 = false → StandsFor filename .core u r.1) ∧
    (r.2 = true → ∀ s : LexToken, s.type = .tSemicolon → StandsFor filename .core (u ++ [s]) r.1)

/-- The semicolon completes a declaration. -/
theorem Declares.stmtKind {u : List LexToken} {e : AstNode} (h : Declares filename u e) :
    u ≠ [] ∧ StmtKind filename u (e, true) := by
  cases h with
  | varDecl hk hx hp =>
    refine ⟨List.cons_ne_nil _ _, by simp, fun _ s hsemi => ?_⟩
    exact Spells.varDecl hk hx hsemi (located_of_first (by simp [hk]) hp)
  | varInit hk hx ho he hp =>
    refine ⟨List.cons_ne_nil _ _, by simp, fun _ s hsemi => ?_⟩
    exact Spells.varInit hk hx ho he hsemi (located_of_first (by rcases hk with hk | hk <;> simp [hk]) hp)

include hexpr hstmt in
theorem yields_stmtKind (hs : p.Ready safe filename (n + 1)) {token : LexToken} {r : List LexToken}
    (hr : p.rest = token :: r) :
    Yields safe (parserParseStmtKind parseExpr parseStmt n token.type) p fun u r =>
      u ≠ [] ∧ StmtKind filename u r := by
  have hcore : ∀ {x : ParserM AstNode}, Yields safe x p (StandsFor filename .core) →
      Yields safe (do let stmt ← x; pure (stmt, false) : ParserM (AstNode × Bool)) p fun u r =>
        u ≠ [] ∧ StmtKind filename u r := by
    intro x hx
    refine hx.bind fun e u p' _ he => yields_pure ?_
    rw [List.append_nil]
    exact ⟨StandsFor.ne_nil he (by simp), fun _ => he, by simp⟩
  unfold parserParseStmtKind
  split
  · rename_i htype
    refine (yields_varDecl hexpr hs hr (.inl htype)).bind fun e u p' _ he => yields_pure ?_
    rw [List.append_nil]
    exact he.stmtKind
  · rename_i htype
    refine (yields_varDecl hexpr hs hr (.inr htype)).bind fun e u p' _ he => yields_pure ?_
    rw [List.append_nil]
    exact he.stmtKind
  · exact hcore (yields_fnDecl hstmt hs)
  · exact hcore (yields_block hstmt hs)
  · exact hcore (yields_if hexpr hstmt hs)
  · exact hcore (yields_loop hexpr hstmt hs)
  · refine (hexpr p hs).bind fun e u p' _ he => yields_pure ?_
    rw [List.append_nil]
    exact ⟨StandsFor.ne_nil he (by simp), by simp, fun _ s hsemi => Spells.exprStmt he hsemi⟩

/-- What holds of the tokens of each iteration holds of the tokens of the loop. -/
theorem forall_of_iterates {α : Type} {B : α → List LexToken → α × Bool → Prop} {P : LexToken → Prop}
    (hB : ∀ a u r, B a u r → ∀ t ∈ u, P t) {a b : α} {u : List LexToken} (h : Iterates B a u b) :
    ∀ t ∈ u, P t := by
  induction h with
  | done => simp
  | stop h => exact hB _ _ _ h
  | again h _ ih =>
    intro t ht
    rcases List.mem_append.mp ht with ht | ht
    · exact hB _ _ _ h t ht
    · exact ih t ht

theorem yields_skipSemicolons (hs : p.Ready safe filename n) :
    Yields safe (parserSkipSemicolons n) p fun u _ => ∀ t ∈ u, t.type = .tSemicolon := by
  have hcond : ∀ q : Parser, (q.Ready safe filename n) →
      Yields safe (do return (← parserAt).type == .tSemicolon : ParserM Bool) q fun u b =>
        u = [] ∧ (b = true → ∃ t r, q.rest = t :: r ∧ t.type = .tSemicolon) := by
    intro q hq
    refine (yields_parserAt hq).peek fun token ht => yields_pure ⟨rfl, fun hsemi => ?_⟩
    obtain ⟨r, hr⟩ := ht
    exact ⟨token, r, hr, by simpa using hsemi⟩
  have hbody : ∀ (a : Unit) (q : Parser), (q.Ready safe filename n) →
      (∃ t r, q.rest = t :: r ∧ t.type = .tSemicolon) →
      Yields safe (do let _ ← parserRetForward; pure ((), true) : ParserM (Unit × Bool)) q fun u _ =>
        u ≠ [] ∧ ∀ t ∈ u, t.type = .tSemicolon := by
    intro _ q _ hq
    obtain ⟨t, r, hr, ht⟩ := hq
    refine (yields_parserRetForward hr (by simp [ht])).bind fun a u q' _ hu => ?_
    obtain ⟨rfl, -⟩ := hu
    exact yields_pure ⟨by simp, by simpa using ht⟩
  have hloop := yields_while (B := fun _ u _ => ∀ t ∈ u, t.type = .tSemicolon) hcond hbody n () p hs hs
  exact hloop.post fun u _ hu => forall_of_iterates (fun _ _ _ h => h) hu

include hexpr hstmt in
theorem yields_stmtBody (hs : p.Ready safe filename (n + 1)) :
    Yields safe (parserParseStmtBody parseExpr parseStmt n) p (StandsFor filename .stmt) := by
  refine (yields_parserAt hs).peek fun token ht => ?_
  obtain ⟨r, hr⟩ := ht
  refine (yields_stmtKind hexpr hstmt hs hr).bind fun stmt u p₁ ha₁ hstmt₁ => ?_
  obtain ⟨hne, hkind⟩ := hstmt₁
  have hs₁ : p₁.Ready safe filename n := hs.pred ha₁ hne
  refine Yields.bind (Q := fun v _ => StandsFor filename .core (u ++ v) stmt.1) ?_ fun _ v p₂ ha₂ hcore => ?_
  · refine yields_ite (fun hsemi => ?_) fun hno => yields_pure ?_
    · refine (yields_parserExpect hs₁ _).bind fun s v p₂ _ hs₂ => ?_
      obtain ⟨rfl, hs₂⟩ := hs₂
      exact yields_pure (hkind.2 hsemi s hs₂)
    · rw [List.append_nil]
      exact hkind.1 (by simpa using hno)
  · refine (yields_skipSemicolons (hs₁.later ha₂)).bind fun _ w p₃ _ hw => yields_pure ?_
    rw [List.append_nil, ← List.append_assoc]
    exact Spells.stmt hcore hw

end Statements

/-- `parser_parse_stmt`. -/
theorem yields_parserParseStmt (n : Nat) : ∀ p, (p.Ready safe filename n) →
    Yields safe (parserParseStmt n) p (StandsFor filename .stmt) := by
  induction n with
  | zero =>
    intro p hs
    refine ⟨⟨[], .refl p⟩, fun h => ?_⟩
    obtain ⟨i, hi, -⟩ := hs.within h
    omega
  | succ n ih => exact fun p hs => yields_stmtBody (yields_parserParseExpr (n + 1)) ih hs

end Blaze
