import Blazescript.Syntax.Proofs.AlikeProofs
import Blazescript.Syntax.Proofs.FuelProofs

/-!
# Proofs: the header of a loop

A name after the header is taken for the variable of the loop, so a body that begins with one loses it.
-/

namespace Blaze

open Blaze.Parser Running

variable {α : Type} {parse : Nat → ParserM AstNode} {stop : LexTokenType → Prop} {eof k o c a x t : LexToken}
  {filename : Option String} {u v rest : List LexToken} {node e s : AstNode} {n m : Nat} {p q : Parser}

/-! ## What parses alone parses anywhere -/

theorem Approximates.ok {x y : ParserM α} {a : α} (h : Approximates x y) (hx : x p = .ok a q) : y p = .ok a q := by
  rcases h p with ⟨p', herror⟩ | heq
  · rw [hx] at herror
    cases herror
  · rw [← heq, hx]

/-- What comes after a computation over the tokens ahead, when there is a result at all. -/
theorem Consumes.step {β : Type} {y : ParserM α} {f : α → ParserM β} {P : α → Prop} {b : β} (hy : Consumes y u rest P)
    (hp : p.rest = u ++ rest) (h : (y >>= f) p = .ok b q) : ∃ a, P a ∧ f a (p.after u) = .ok b q := by
  obtain ⟨a, hyp, ha⟩ := hy p hp
  exact ⟨a, ha, (bind_ok hyp).symm.trans h⟩

theorem ParsesAs.consumes (h : ParsesAs parse eof filename u node)
    (halike : ∀ n, Alike stop False (parse n) (parse n) SameTree)
    (hfuel : ∀ n m, n ≤ m → Approximates (parse n) (parse m)) (heof : eof.type = .tEof) :
    ∃ n, ∀ m, n ≤ m → ∀ t, stop t.type → ∀ rest, Consumes (parse m) u (t :: rest) fun e => SameTree e node := by
  obtain ⟨n, e, p, hparse, hindex, hsame⟩ := h
  obtain ⟨v, r, hrest, rfl⟩ := (halike n).forward _ e p hparse
  have hlen : u.length = v.length := by
    have hindex : 0 + v.length = u.length := hindex
    omega
  have hrest : u ++ [eof] = v ++ r := hrest
  obtain rfl : u = v := (List.append_inj hrest hlen).1
  refine ⟨n, fun m hm t ht rest p' hp' => ?_⟩
  have hahead : Ahead stop (.init (u ++ [eof]) filename) p' (u ++ []) := by
    rw [List.append_nil]
    exact ⟨⟨eof, [], rfl, heof⟩, t, rest, hp', ht⟩
  have hparse' := (hfuel n m hm).ok hparse
  obtain ⟨e', he', hsame'⟩ := (halike m).same _ p' u [] e hahead (fun h => h.elim) hparse'
  exact ⟨e', he', hsame'.symm.trans hsame⟩

theorem Consumes.parsesAs (h : Consumes (parse n) u [eof] fun e => SameTree e node) :
    ParsesAs parse eof filename u node := by
  obtain ⟨e, he, hsame⟩ := h (.init (u ++ [eof]) filename) rfl
  exact ⟨n, e, _, he, Nat.zero_add _, hsame⟩

/-! ## The header -/

section Header

variable {parseExpr parseStmt : ParserM AstNode} (ho : o.type = .tParenOpen) (hc : c.type = .tParenClose)
  (ha : a.type = .tAs) (hx : x.type = .tIdentifier)

include ho hc

theorem consumes_header (hexpr : Consumes parseExpr u (c :: rest) fun e' => SameTree e' e) :
    Consumes (parserParseLoopHeader parseExpr) (o :: (u ++ [c])) rest
      fun header => header.1.map AstNode.erase = some e.erase ∧ header.2 = none := by
  refine Consumes.peek consumes_parserAt fun t ht => consumes_ite (fun _ => ?_) fun h => ?_
  · refine Consumes.bind (u := [o]) (consumes_parserExpect ho (by decide)) fun _ _ => ?_
    refine Consumes.bind hexpr fun count hcount => ?_
    have has : Consumes parserParseLoopAs [] ([c] ++ rest) fun v => v = none := by
      refine Consumes.peek consumes_parserAt fun t ht => consumes_ite (fun h => ?_) fun _ => consumes_pure rfl
      rw [ht] at h
      exact absurd hc h
    refine has.peek fun v hv => ?_
    refine Consumes.last (consumes_parserExpect hc (by decide)) fun _ _ => consumes_pure ⟨?_, hv⟩
    exact congrArg some hcount
  · rw [ht] at h
    exact absurd ho h

include ha hx

theorem consumes_header_as (hexpr : Consumes parseExpr u (a :: x :: c :: rest) fun e' => SameTree e' e) :
    Consumes (parserParseLoopHeader parseExpr) (o :: (u ++ [a, x, c])) rest
      fun header => header.1.map AstNode.erase = some e.erase ∧ header.2 = some x.value := by
  refine Consumes.peek consumes_parserAt fun t ht => consumes_ite (fun _ => ?_) fun h => ?_
  · refine Consumes.bind (u := [o]) (consumes_parserExpect ho (by decide)) fun _ _ => ?_
    refine Consumes.bind hexpr fun count hcount => ?_
    have has : Consumes parserParseLoopAs [a, x] ([c] ++ rest) fun v => v = some x.value := by
      refine Consumes.peek consumes_parserAt fun t ht => consumes_ite (fun _ => ?_) fun h => ?_
      · refine Consumes.bind (u := [a]) (consumes_parserExpect ha (by decide)) fun _ _ => ?_
        refine Consumes.last (consumes_parserExpect hx (by decide)) fun y hy => consumes_pure ?_
        rw [hy]
      · rw [ht, ha] at h
        exact absurd (by decide) h
    refine Consumes.bind (u := [a, x]) has fun v hv => ?_
    refine Consumes.last (consumes_parserExpect hc (by decide)) fun _ _ => consumes_pure ⟨?_, hv⟩
    exact congrArg some hcount
  · rw [ht] at h
    exact absurd ho h

end Header


/-! ## The statement -/

/-- The body does not begin with a name. -/
theorem consumes_loopVarname_none {iterVarname : Option String} (heof : eof.type = .tEof)
    (hname : ∀ t ∈ u.head?, t.type ≠ .tIdentifier) :
    Consumes (parserParseLoopVarname iterVarname) [] (u ++ [eof]) fun v => v = iterVarname := by
  obtain ⟨t, r, hr, ht⟩ : ∃ t r, u ++ [eof] = t :: r ∧ t.type ≠ .tIdentifier := by
    cases u with
    | nil => exact ⟨eof, [], rfl, by rw [heof]; decide⟩
    | cons t u => exact ⟨t, u ++ [eof], rfl, hname t rfl⟩
  rw [hr]
  refine Consumes.peek consumes_parserAt fun t' ht' => consumes_ite (fun h => ?_) fun _ => consumes_pure rfl
  rw [ht'] at h
  exact absurd h ht

theorem consumes_loopVarname {iterVarname : Option String} (ht : t.type = .tIdentifier) :
    Consumes (parserParseLoopVarname iterVarname) [t] rest fun v => v = some t.value := by
  refine Consumes.peek consumes_parserAt fun t' ht' => consumes_ite (fun _ => ?_) fun h => ?_
  · refine Consumes.last (consumes_parserExpect ht (by decide)) fun y hy => consumes_pure ?_
    rw [hy]
  · rw [ht'] at h
    exact absurd ht h

theorem consumes_skipSemicolons (heof : eof.type = .tEof) :
    Consumes (parserSkipSemicolons (n + 1)) [] [eof] fun _ => True := by
  have hcond : Consumes (do return (← parserAt).type == .tSemicolon : ParserM Bool) [] [eof] fun b => b = false := by
    refine Consumes.peek consumes_parserAt fun t ht => consumes_pure ?_
    rw [ht, heof]
    rfl
  exact (consumes_while_done hcond).post fun _ _ => trivial

section Loop

variable {header : List LexToken} {count : Option AstNode} {varname : Option String}

/-- A loop whose body does not begin with a name. -/
theorem consumes_loopStmt (hk : k.type = .tLoop) (heof : eof.type = .tEof)
    (hname : ∀ t ∈ u.head?, t.type ≠ .tIdentifier)
    (hheader : Consumes (parserParseLoopHeader (parserParseExpr (n + 2))) header (u ++ [eof])
      fun h => h.1.map AstNode.erase = count ∧ h.2 = varname)
    (hbody : Consumes (parserParseStmt (n + 1)) u [eof] fun s' => SameTree s' s) :
    Consumes (parserParseStmt (n + 2)) (k :: (header ++ u)) [eof]
      fun e => e.erase = .loopStmt .unknown count varname s.erase := by
  have hloop : Consumes (parserParseLoopStmt (parserParseExpr (n + 2)) (parserParseStmt (n + 1)))
      (k :: (header ++ u)) [eof] fun e => e.erase = .loopStmt .unknown count varname s.erase := by
    refine Consumes.peek consumes_parserAt fun start _ => consumes_get fun q _ => ?_
    refine Consumes.bind (u := [k]) (consumes_parserExpect hk (by decide)) fun _ _ => ?_
    refine hheader.bind fun h hh => ?_
    have hvarname : Consumes (parserParseLoopVarname h.2) [] (u ++ [eof]) fun v => v = varname :=
      (consumes_loopVarname_none heof hname).post fun v hv => hv.trans hh.2
    refine hvarname.peek fun v hv => ?_
    refine hbody.last fun s' hs' => ?_
    refine Consumes.peek consumes_parserAt fun stop _ => consumes_pure ?_
    rw [erase_loopStmt, hh.1, hv, hs']
  refine Consumes.peek consumes_parserAt fun t ht => ?_
  rw [ht, hk]
  have hkind : Consumes (parserParseStmtKind (parserParseExpr (n + 2)) (parserParseStmt (n + 1)) (n + 1) .tLoop)
      (k :: (header ++ u)) [eof]
      fun r => r.1.erase = .loopStmt .unknown count varname s.erase ∧ r.2 = false :=
    hloop.last fun e he => consumes_pure ⟨he, rfl⟩
  refine hkind.last fun r hr => ?_
  rw [hr.2]
  have hnone : Consumes (parserExpectSemicolon false) [] [eof] fun _ => True := consumes_pure trivial
  exact hnone.peek fun _ _ => (consumes_skipSemicolons heof).peek fun _ _ => consumes_pure hr.1

/-- A loop takes a name after its header for its variable. -/
theorem varname_of_parses (hk : k.type = .tLoop) (ht : t.type = .tIdentifier)
    (hheader : Consumes (parserParseLoopHeader (parserParseExpr (n + 1))) header (t :: rest)
      fun h => h.1.map AstNode.erase = count ∧ h.2 = varname)
    (h : parserParseStmt (n + 1) (.init (k :: (header ++ t :: rest)) filename) = .ok e q) :
    ∃ pos count' body, e = .loopStmt pos count' (some t.value) body := by
  have hp : (Parser.init (k :: (header ++ t :: rest)) filename).rest = k :: (header ++ t :: rest) := rfl
  obtain ⟨token, htoken, h⟩ := consumes_parserAt.step hp h
  rw [htoken, hk, after_nil] at h
  obtain ⟨r, p₂, hkind, h⟩ := bind_eq_ok h
  obtain ⟨-, p₃, -, h⟩ := bind_eq_ok h
  obtain ⟨-, p₄, -, h⟩ := bind_eq_ok h
  obtain ⟨rfl, -⟩ := EStateM.Result.ok.inj h
  obtain ⟨node, p₅, hloop, hnode⟩ := bind_eq_ok hkind
  obtain ⟨rfl, -⟩ := EStateM.Result.ok.inj hnode
  obtain ⟨start, -, hloop⟩ := consumes_parserAt.step hp hloop
  rw [after_nil] at hloop
  have hexpect : Consumes (parserExpect .tLoop) [k] (header ++ t :: rest) fun a => a = k :=
    consumes_parserExpect hk (by decide)
  obtain ⟨-, -, hloop⟩ := hexpect.step hp hloop
  obtain ⟨h', -, hloop⟩ := hheader.step (rest_after hp) hloop
  obtain ⟨name, rfl, hloop⟩ := (consumes_loopVarname ht).step (rest_after (rest_after hp)) hloop
  obtain ⟨body, p₆, -, hloop⟩ := bind_eq_ok hloop
  obtain ⟨stop, p₇, -, hloop⟩ := bind_eq_ok hloop
  obtain ⟨rfl, -⟩ := EStateM.Result.ok.inj hloop
  exact ⟨_, _, _, rfl⟩

end Loop


/-! ## The header does not take the body -/

section LoopHeader

variable (heof : eof.type = .tEof) (hk : k.type = .tLoop) (ho : o.type = .tParenOpen) (hc : c.type = .tParenClose)

include heof hk ho hc

/-- What begins with a name is not the body of the loop. -/
theorem loop_takes_name (hexpr : ParsesAs parserParseExpr eof filename u e) (ht : t.type = .tIdentifier)
    (count : Option AstNode) (body : AstNode) :
    ¬ ParsesAs parserParseStmt eof filename (k :: o :: (u ++ c :: t :: v)) (.loopStmt .unknown count none body) := by
  rintro ⟨n, e', p, hparse, -, hsame⟩
  obtain ⟨n₁, hu⟩ := hexpr.consumes (alike_parserParseExpr fun _ h => h) (fun _ _ h => approximates_parserParseExpr h)
    heof
  have hheader := consumes_header ho hc (hu (max n n₁ + 1) (by omega) c (by rw [hc]; rfl) (t :: v ++ [eof]))
  have hlarge := (approximates_parserParseStmt (show n ≤ max n n₁ + 1 by omega)).ok hparse
  have htokens : k :: o :: (u ++ c :: t :: v) ++ [eof] = k :: (o :: (u ++ [c]) ++ t :: (v ++ [eof])) := by simp
  rw [htokens] at hlarge
  obtain ⟨pos, count', body', rfl⟩ := varname_of_parses hk ht hheader hlarge
  unfold SameTree at hsame
  rw [erase_loopStmt, erase_loopStmt] at hsame
  obtain ⟨-, -, hvarname, -⟩ := AstNode.loopStmt.inj hsame
  cases hvarname

/-- The header leaves the body alone if and only if the body does not begin with a name. -/
theorem parserParseLoopStmt_header (ha : a.type = .tAs) (hx : x.type = .tIdentifier)
    (hexpr : ParsesAs parserParseExpr eof filename u e) (hstmt : ParsesAs parserParseStmt eof filename v s) :
    (ParsesAs parserParseStmt eof filename (k :: o :: (u ++ c :: v)) (.loopStmt .unknown (some e) none s) ∧
      ParsesAs parserParseStmt eof filename (k :: o :: (u ++ a :: x :: c :: v))
        (.loopStmt .unknown (some e) (some x.value) s)) ↔
    ∀ t ∈ v.head?, t.type ≠ .tIdentifier := by
  constructor
  · rintro ⟨hloop, -⟩ t ht hname
    obtain ⟨v', rfl⟩ : ∃ v', v = t :: v' := List.head?_eq_some_iff.mp ht
    exact loop_takes_name heof hk ho hc hexpr hname _ _ hloop
  · intro hname
    obtain ⟨n₁, hu⟩ := hexpr.consumes (alike_parserParseExpr fun _ h => h)
      (fun _ _ h => approximates_parserParseExpr h) heof
    obtain ⟨n₂, hv⟩ := hstmt.consumes alike_parserParseStmt (fun _ _ h => approximates_parserParseStmt h) heof
    have hbody := hv (n₁ + n₂ + 1) (by omega) eof heof []
    have hcount : ∀ t, t.type.stops = true → ∀ rest,
        Consumes (parserParseExpr (n₁ + n₂ + 2)) u (t :: rest) fun e' => SameTree e' e := hu _ (by omega)
    constructor
    · have hheader := consumes_header ho hc (hcount c (by rw [hc]; rfl) (v ++ [eof]))
      have hloop := (consumes_loopStmt hk heof hname hheader hbody).post
        fun e' he' => (he'.trans (erase_loopStmt .unknown (some e) none s).symm : SameTree e' _)
      have htokens : k :: o :: (u ++ c :: v) = k :: (o :: (u ++ [c]) ++ v) := by simp
      rw [htokens]
      exact hloop.parsesAs
    · have hheader := consumes_header_as ho hc ha hx (hcount a (by rw [ha]; rfl) (x :: c :: (v ++ [eof])))
      have hloop := (consumes_loopStmt hk heof hname hheader hbody).post
        fun e' he' => (he'.trans (erase_loopStmt .unknown (some e) (some x.value) s).symm : SameTree e' _)
      have htokens : k :: o :: (u ++ a :: x :: c :: v) = k :: (o :: (u ++ [a, x, c]) ++ v) := by simp
      rw [htokens]
      exact hloop.parsesAs

end LoopHeader

/-- A token on the first line. -/
def tokenAt (type : LexTokenType) (value : String) (column : Nat) : LexToken :=
  ⟨type, value, 1, 1, column, column + value.length⟩

/-- `loop (2) 1;` and `loop (2 as i) 1;` -/
theorem parserParseLoopStmt_header_number :
    (ParsesAs parserParseStmt (tokenAt .tEof "" 12) none
        (tokenAt .tLoop "loop" 1 :: tokenAt .tParenOpen "(" 6 :: ([tokenAt .tIntLit "2" 7] ++
          tokenAt .tParenClose ")" 8 :: [tokenAt .tIntLit "1" 10, tokenAt .tSemicolon ";" 11]))
        (.loopStmt .unknown (some (.intLit .unknown 2)) none (.intLit .unknown 1)) ∧
      ParsesAs parserParseStmt (tokenAt .tEof "" 12) none
        (tokenAt .tLoop "loop" 1 :: tokenAt .tParenOpen "(" 6 :: ([tokenAt .tIntLit "2" 7] ++
          tokenAt .tAs "as" 8 :: tokenAt .tIdentifier "i" 9 :: tokenAt .tParenClose ")" 8 ::
            [tokenAt .tIntLit "1" 10, tokenAt .tSemicolon ";" 11]))
        (.loopStmt .unknown (some (.intLit .unknown 2)) (some "i") (.intLit .unknown 1))) ↔
    ∀ t ∈ [tokenAt .tIntLit "1" 10, tokenAt .tSemicolon ";" 11].head?, t.type ≠ .tIdentifier :=
  parserParseLoopStmt_header rfl rfl rfl rfl rfl rfl ⟨5, _, _, rfl, rfl, rfl⟩ ⟨5, _, _, rfl, rfl, rfl⟩

/-- `f(1);` -/
def callTokens : List LexToken :=
  [tokenAt .tIdentifier "f" 10, tokenAt .tParenOpen "(" 11, tokenAt .tIntLit "1" 12, tokenAt .tParenClose ")" 13,
    tokenAt .tSemicolon ";" 14]

theorem callTokens_parse :
    ParsesAs parserParseStmt (tokenAt .tEof "" 15) none callTokens (.exprCall .unknown "f" [.intLit .unknown 1]) := by
  exact ⟨5, .exprCall _ "f" [.intLit _ 1], _, rfl, rfl, rfl⟩

/-- `loop (2) f(1);` is not a loop over a call. -/
theorem parserParseLoopStmt_call :
    ParsesAs parserParseExpr (tokenAt .tEof "" 15) none [tokenAt .tIntLit "2" 7] (.intLit .unknown 2) ∧
    ParsesAs parserParseStmt (tokenAt .tEof "" 15) none callTokens (.exprCall .unknown "f" [.intLit .unknown 1]) ∧
    ¬ ParsesAs parserParseStmt (tokenAt .tEof "" 15) none
      (tokenAt .tLoop "loop" 1 :: tokenAt .tParenOpen "(" 6 :: ([tokenAt .tIntLit "2" 7] ++
        tokenAt .tParenClose ")" 8 :: callTokens))
      (.loopStmt .unknown (some (.intLit .unknown 2)) none (.exprCall .unknown "f" [.intLit .unknown 1])) := by
  have htwo : ParsesAs parserParseExpr (tokenAt .tEof "" 15) none [tokenAt .tIntLit "2" 7] (.intLit .unknown 2) :=
    ⟨5, _, _, rfl, rfl, rfl⟩
  exact ⟨htwo, callTokens_parse, loop_takes_name rfl rfl rfl rfl htwo rfl _ _⟩

end Blaze
