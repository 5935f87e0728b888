import Blazescript.Syntax.Proofs.SeparatedProofs

/-!
# Proofs: where the nodes of a tree start

A list of tokens is scanned to its end exactly if no node that it stands for is stored without its place. Each
part of a derivation starts and ends the scan in the same state.
-/

namespace Blaze

variable {P A : List LexToken → AstNode → Prop} {filename : Option String} {g : Nonterminal} {u v : List LexToken}
  {ns : List AstNode} {node : AstNode} {t : LexToken} {s : ScanState}

/-! ## The scan -/

theorem scan_append (s : ScanState) (u v : List LexToken) : scan s (u ++ v) = (scan s u).bind fun s => scan s v := by
  induction u generalizing s with
  | nil => rfl
  | cons t u ih =>
    rw [List.cons_append, scan, scan]
    cases s.step t.type with
    | none => rfl
    | some s => exact ih s

/-- Tokens of a type that does not matter. -/
theorem scan_all {type : LexTokenType} (hstep : ScanState.start.step type = some .start)
    (h : ∀ t ∈ u, t.type = type) : scan .start u = some .start := by
  induction u with
  | nil => rfl
  | cons t u ih =>
    rw [scan, h t List.mem_cons_self, hstep]
    exact ih fun t ht => h t (List.mem_cons_of_mem _ ht)

theorem scan_sep (h : parserRules.sep u) : scan .start u = some .start := by
  rcases h with rfl | ⟨comma, rfl, hcomma⟩
  · rfl
  · have hall : ∀ t ∈ [comma], t.type = .tComma := List.forall_mem_singleton.mpr hcomma
    exact scan_all rfl hall

theorem scan_params {names : List String} (h : Params u names) : scan .header u = some .header := by
  induction h with
  | nil => rfl
  | last hx => simp [scan, ScanState.step, hx]
  | cons hx hc _ ih => simp [scan, ScanState.step, hx, hc, ih]

theorem scan_loopVarname {name : Option String} (h : LoopVarname u name) : scan .start u = some .start := by
  cases h with
  | none => rfl
  | some hx => simp [scan, ScanState.step, hx]

theorem scan_loopAs {name : Option String} (h : LoopAs u name) : scan .start u = some .start := by
  cases h with
  | none => rfl
  | some ha hx => simp [scan, ScanState.step, ha, hx]

/-! ## Nodes with places -/

/-- The node has a filename, and a line where it starts. -/
def HasPlace (filename : Option String) (node : AstNode) : Prop :=
  node.pos.filename = filename ∧ node.pos.lineStart ≠ none

theorem Located.hasPlace (h : Located filename u node) : HasPlace filename node := by
  obtain ⟨t, -, hfile, hline, -⟩ := h
  exact ⟨hfile, by rw [hline]; exact Option.some_ne_none _⟩

/-- What holds of a node and of all the nodes below its children. -/
theorem AstNode.forall_within {Q : AstNode → Prop} (hself : Q node)
    (hchildren : ∀ c ∈ node.children, ∀ m, AstNode.Within m c → Q m) : ∀ m, AstNode.Within m node → Q m := by
  intro m hm
  cases hm with
  | self => exact hself
  | child h hc => exact hchildren _ hc m h

/-- What holds of the nodes that are built and of those assigned to holds of all nodes. -/
theorem Spells.forall_within {Q : AstNode → Prop} (hP : ∀ u node, P u node → Q node)
    (hA : ∀ u node, A u node → Q node) (h : Spells P A g u ns) : ∀ n ∈ ns, ∀ m, AstNode.Within m n → Q m := by
  induction h with
  | identifier _ hp | intLit _ hp | string _ hp | varDecl _ _ _ hp =>
    exact List.forall_mem_singleton.mpr (AstNode.forall_within (hP _ _ hp) fun c hc => absurd hc List.not_mem_nil)
  | paren _ _ _ ih | primary _ ih | single _ ih | comparison _ ih | operand _ ih | elementsLast _ ih | exprStmt _ _ ih
    | stmt _ _ ih => exact ih
  | call _ _ _ _ hp ih | arrayLit _ _ _ _ hp ih | fnDecl _ _ _ _ _ _ _ _ hp ih | block _ _ _ hp ih =>
    exact List.forall_mem_singleton.mpr (AstNode.forall_within (hP _ _ hp) ih)
  | binary _ _ _ _ hp ihl ihr =>
    refine List.forall_mem_singleton.mpr (AstNode.forall_within (hP _ _ hp) ?_)
    exact List.forall_mem_cons.mpr ⟨ihl _ List.mem_cons_self, ihr⟩
  | assignment _ _ _ ha hp ih =>
    refine List.forall_mem_singleton.mpr (AstNode.forall_within (hP _ _ hp) (List.forall_mem_cons.mpr ⟨?_, ih⟩))
    exact AstNode.forall_within (hA _ _ ha) fun c hc => absurd hc List.not_mem_nil
  | varInit _ _ _ _ _ hp ih => exact List.forall_mem_singleton.mpr (AstNode.forall_within (hP _ _ hp) ih)
  | ifStmt _ _ _ _ _ hp ih ihn | loopCount _ _ _ _ _ _ _ hp ih ihn =>
    refine List.forall_mem_singleton.mpr (AstNode.forall_within (hP _ _ hp) ?_)
    exact List.forall_mem_cons.mpr ⟨ih _ List.mem_cons_self, ihn⟩
  | ifElse _ _ _ _ _ _ _ hp ih ihn ihm =>
    refine List.forall_mem_singleton.mpr (AstNode.forall_within (hP _ _ hp) ?_)
    exact List.forall_mem_cons.mpr ⟨ih _ List.mem_cons_self, List.forall_mem_cons.mpr ⟨ihn _ List.mem_cons_self, ihm⟩⟩
  | loop _ _ _ hp ihn => exact List.forall_mem_singleton.mpr (AstNode.forall_within (hP _ _ hp) ihn)
  | argsNil | elementsNil | stmtsNil => exact fun n hn => absurd hn List.not_mem_nil
  | argsCons _ _ _ ih iht | elementsCons _ _ _ ih iht | stmtsCons _ _ ih iht =>
    exact List.forall_mem_cons.mpr ⟨ih _ List.mem_cons_self, iht⟩

theorem Spells.hasPlace (h : Spells (Located filename) (Located filename) g u ns) :
    ∀ n ∈ ns, ∀ m, AstNode.Within m n → HasPlace filename m := by
  have hplace (u : List LexToken) (node : AstNode) (hlocated : Located filename u node) : HasPlace filename node :=
    hlocated.hasPlace
  exact h.forall_within hplace hplace

/-! ## The first token -/

theorem firstToken_append (h : firstToken u = some t) (v : List LexToken) : firstToken (u ++ v) = some t := by
  unfold firstToken at h ⊢
  rw [List.find?_append, h]
  rfl

theorem Located.append (h : Located filename u node) (v : List LexToken) : Located filename (u ++ v) node := by
  obtain ⟨t, ht, hpos⟩ := h
  exact ⟨t, firstToken_append ht v, hpos⟩

/-- A node says where the tokens start that it is derived from, parentheses around it included. -/
theorem Spells.located (h : Spells (Located filename) A g u ns) (hg : g ≠ .args ∧ g ≠ .elements ∧ g ≠ .stmts) :
    ∀ n ∈ ns, Located filename u n := by
  induction h with
  | identifier _ hp | intLit _ hp | string _ hp | varDecl _ _ _ hp | call _ _ _ _ hp | arrayLit _ _ _ _ hp
    | fnDecl _ _ _ _ _ _ _ _ hp | block _ _ _ hp | binary _ _ _ _ hp | assignment _ _ _ _ hp | varInit _ _ _ _ _ hp
    | ifStmt _ _ _ _ _ hp | loopCount _ _ _ _ _ _ _ hp | ifElse _ _ _ _ _ _ _ hp | loop _ _ _ hp =>
    exact List.forall_mem_singleton.mpr hp
  | @paren o c u e ho _ _ ih =>
    obtain ⟨t, ht, hpos⟩ := (ih (by simp) e List.mem_cons_self).append [c]
    refine List.forall_mem_singleton.mpr ⟨t, ?_, hpos⟩
    have hskip : firstToken (o :: (u ++ [c])) = firstToken (u ++ [c]) := List.find?_cons_of_neg (by simp [ho])
    rw [hskip, ht]
  | primary _ ih | comparison _ ih | operand _ ih => exact ih (by simp)
  | @single level _ _ _ ih => exact ih (by cases level <;> simp [Level.operand])
  | exprStmt _ _ ih | stmt _ _ ih => exact fun n hn => (ih (by simp) n hn).append _
  | argsNil | argsCons => exact absurd rfl hg.1
  | elementsNil | elementsLast | elementsCons => exact absurd rfl hg.2.1
  | stmtsNil | stmtsCons => exact absurd rfl hg.2.2

/-! ## The places that the parser stores -/

/-- There is a node without its place in the trees. -/
def LacksPlace (filename : Option String) (ns : List AstNode) : Prop :=
  ∃ n ∈ ns, ∃ m, AstNode.Within m n ∧ ¬ HasPlace filename m

/-- Either all places are there, and the scan goes on, or it has come to a node without its place. -/
inductive Scanned (filename : Option String) (g : Nonterminal) (u : List LexToken) (ns : List AstNode) : Prop
  | located (hscan : scan .start u = some .start) (h : Spells (Located filename) (Located filename) g u ns)
  | lacks (hscan : scan .start u = none) (h : LacksPlace filename ns)

theorem LacksPlace.mono {ns' : List AstNode} (h : LacksPlace filename ns) (hsub : ∀ n ∈ ns, n ∈ ns') :
    LacksPlace filename ns' := by
  obtain ⟨n, hn, hm⟩ := h
  exact ⟨n, hsub n hn, hm⟩

/-- A child lacks its place. -/
theorem LacksPlace.child (h : LacksPlace filename ns) (hsub : ∀ n ∈ ns, n ∈ node.children) :
    LacksPlace filename [node] := by
  obtain ⟨n, hn, m, hm, hplace⟩ := h
  exact ⟨node, List.mem_cons_self, m, .child hm (hsub n hn), hplace⟩

theorem LacksPlace.self (h : ¬ HasPlace filename node) : LacksPlace filename [node] :=
  ⟨node, List.mem_cons_self, node, .self node, h⟩

/-- A node whose place has not been set. -/
theorem LacksPlace.unset {file : String} (h : node.pos = .zero ∨ node.pos = .unknown) :
    LacksPlace (some file) [node] := by
  refine .self fun hplace => ?_
  have hfile := hplace.1
  rcases h with h | h
  · rw [h] at hfile
    cases hfile
  · rw [h] at hfile
    cases hfile

section Rules

variable {g' : Nonterminal} {u' a b v : List LexToken} {ns' ms : List AstNode} {file : String}

/-- The scan goes on over the tokens around those of a part. -/
theorem Scanned.around (h : Scanned filename g u ns) (hu : u' = a ++ (u ++ b)) (ha : scan .start a = some .start)
    (hb : scan .start b = some .start)
    (hspells : Spells (Located filename) (Located filename) g u ns →
      Spells (Located filename) (Located filename) g' u' ms)
    (hlacks : LacksPlace filename ns → LacksPlace filename ms) : Scanned filename g' u' ms := by
  have hscan' : scan .start u' = (scan .start u).bind fun s => scan s b := by
    rw [hu, scan_append, ha, Option.bind_some, scan_append]
  cases h with
  | located hscan h =>
    refine .located ?_ (hspells h)
    rw [hscan', hscan]
    exact hb
  | lacks hscan h =>
    refine .lacks ?_ (hlacks h)
    rw [hscan', hscan]
    rfl

/-- The scan goes on from one part to another, over the tokens before each of them. -/
theorem Scanned.pair (h : Scanned filename g u ns) (h' : Scanned filename g' v ns') (hu : u' = a ++ (u ++ (b ++ v)))
    (ha : scan .start a = some .start) (hb : scan .start b = some .start) {r : Nonterminal}
    (hspells : Spells (Located filename) (Located filename) g u ns →
      Spells (Located filename) (Located filename) g' v ns' → Spells (Located filename) (Located filename) r u' ms)
    (hlacks : LacksPlace filename ns → LacksPlace filename ms)
    (hlacks' : LacksPlace filename ns' → LacksPlace filename ms) : Scanned filename r u' ms := by
  have hscan' : scan .start u' = (scan .start u).bind fun s => (scan s b).bind fun s => scan s v := by
    rw [hu, scan_append, ha, Option.bind_some, scan_append]
    simp only [scan_append]
  cases h with
  | lacks hscan h =>
    refine .lacks ?_ (hlacks h)
    rw [hscan', hscan]
    rfl
  | located hscan h =>
    rw [hscan, Option.bind_some, hb, Option.bind_some] at hscan'
    cases h' with
    | lacks hscan'' h' => exact .lacks (hscan'.trans hscan'') (hlacks' h')
    | located hscan'' h' => exact .located (hscan'.trans hscan'') (hspells h h')

/-- A token that the scan goes over. -/
theorem scan_token {t : LexToken} (h : ScanState.start.step t.type = some .start) : scan .start [t] = some .start := by
  rw [scan, h]
  rfl

/-- The first node lacks its place, or one of the others. -/
theorem LacksPlace.head {n : AstNode} (h : LacksPlace filename [n]) : LacksPlace filename (n :: ns) :=
  h.mono (List.forall_mem_singleton.mpr List.mem_cons_self)

theorem LacksPlace.tail {n : AstNode} (h : LacksPlace filename ns) : LacksPlace filename (n :: ns) :=
  h.mono fun _ hn => List.mem_cons_of_mem _ hn

theorem scanned_binary {level : Level} {o : LexToken} {operator : BinOperator} {left right : AstNode} {pos : Pos}
    (hl : Scanned filename (.binary level) u [left]) (ho : o.type = .tBinaryOperator)
    (hop : parserRules.operator level o.value operator) (hr : Scanned filename level.operand v [right])
    (hp : Marked filename (u ++ o :: v) (.binaryExpr pos operator left right)) :
    Scanned filename (.binary level) (u ++ o :: v) [.binaryExpr pos operator left right] := by
  refine hl.pair (a := []) (b := [o]) hr rfl rfl (scan_token (by rw [ho]; rfl)) (fun hleft hright => ?_)
    (fun h => h.child fun n hn => ?_) fun h => h.child fun n hn => ?_
  · refine .binary hleft ho hop hright ?_
    obtain ⟨t, ht, hpos⟩ := (hleft.located (by simp) left List.mem_cons_self).append (o :: v)
    exact ⟨t, ht, hp.1, hp.2.1.trans hpos.lineStart, hp.2.2.trans hpos.columnStart⟩
  · exact List.mem_cons.mpr (.inl (List.mem_singleton.mp hn))
  · exact List.mem_cons_of_mem _ hn

theorem scanned_assignment {x o : LexToken} {e : AstNode} {pos pos' : Pos} (hx : x.type = .tIdentifier)
    (ho : o.type = .tAssignment) (hp : Marked (some file) (x :: o :: u) (.assignment pos (.identifier pos' x.value) e)) :
    Scanned (some file) .expr (x :: o :: u) [.assignment pos (.identifier pos' x.value) e] := by
  have hassignee : LacksPlace (some file) [.identifier pos' x.value] := by
    refine .self fun hplace => ?_
    cases hp.2.symm.trans hplace.1
  exact .lacks (by simp [scan, ScanState.step, hx, ho])
    (hassignee.child (List.forall_mem_singleton.mpr List.mem_cons_self))

theorem scanned_varInit {k x o s : LexToken} {e : AstNode} {pos : Pos} (hk : k.type = .tVar ∨ k.type = .tConst)
    (hx : x.type = .tIdentifier) (ho : o.type = .tAssignment) (h : Scanned filename .expr u [e])
    (hs : s.type = .tSemicolon)
    (hp : Located filename (k :: x :: o :: (u ++ [s])) (.varDecl pos x.value (k.type == .tConst) (some e))) :
    Scanned filename .core (k :: x :: o :: (u ++ [s])) [.varDecl pos x.value (k.type == .tConst) (some e)] := by
  have hdeclared : scan .start [k, x, o] = some .start := by
    rcases hk with hk | hk
    · simp [scan, ScanState.step, hk]
    · simp [scan, ScanState.step, hk]
  exact h.around (a := [k, x, o]) rfl hdeclared (scan_token (by rw [hs]; rfl)) (fun h => .varInit hk hx ho h hs hp)
    fun h => h.child fun n hn => hn

theorem scanned_fnDecl {k f o c b d : LexToken} {names : List String} {pos : Pos} (hk : k.type = .tFunction)
    (hf : f.type = .tIdentifier) (ho : o.type = .tParenOpen) (hn : Params u names) (hc : c.type = .tParenClose)
    (hb : b.type = .tBlockBraceOpen) (h : Scanned filename .stmts v ns) (hd : d.type = .tBlockBraceClose)
    (hp : Located filename (k :: f :: o :: (u ++ c :: b :: (v ++ [d]))) (.fnDecl pos f.value names ns)) :
    Scanned filename .core (k :: f :: o :: (u ++ c :: b :: (v ++ [d]))) [.fnDecl pos f.value names ns] := by
  have hheader : scan .start (k :: f :: o :: (u ++ [c, b])) = some .start := by
    simp [scan, scan_append, ScanState.step, hk, hf, ho, scan_params hn, hc, hb]
  exact h.around (a := k :: f :: o :: (u ++ [c, b])) (b := [d]) (by simp) hheader (scan_token (by rw [hd]; rfl))
    (fun h => .fnDecl hk hf ho hn hc hb h hd hp) fun h => h.child fun n hn => hn

theorem scanned_loop {k : LexToken} {name : Option String} {n : AstNode} {pos : Pos} (hk : k.type = .tLoop)
    (hx : LoopVarname u name) (h : Scanned filename .stmt v [n])
    (hp : Located filename (k :: (u ++ v)) (.loopStmt pos none name n)) :
    Scanned filename .core (k :: (u ++ v)) [.loopStmt pos none name n] := by
  have hheader : scan .start (k :: u) = some .start := by
    simp [scan, ScanState.step, hk, scan_loopVarname hx]
  exact h.around (a := k :: u) (b := []) (by simp) hheader rfl (fun h => .loop hk hx h hp)
    fun h => h.child fun n hn => hn

theorem scanned_loopCount {k o c : LexToken} {w x : List LexToken} {as name : Option String} {e n : AstNode} {pos : Pos}
    (hk : k.type = .tLoop) (ho : o.type = .tParenOpen) (h : Scanned filename .expr u [e]) (ha : LoopAs w as)
    (hc : c.type = .tParenClose) (hx : LoopVarname x name) (hn : Scanned filename .stmt v [n])
    (hp : Located filename (k :: o :: (u ++ (w ++ c :: (x ++ v)))) (.loopStmt pos (some e) (name.or as) n)) :
    Scanned filename .core (k :: o :: (u ++ (w ++ c :: (x ++ v)))) [.loopStmt pos (some e) (name.or as) n] := by
  have hopen : scan .start [k, o] = some .start := by simp [scan, ScanState.step, hk, ho]
  have hclose : scan .start (w ++ c :: x) = some .start := by
    simp [scan, scan_append, ScanState.step, scan_loopAs ha, hc, scan_loopVarname hx]
  refine h.pair (a := [k, o]) (b := w ++ c :: x) hn (by simp) hopen hclose
    (fun h hn => .loopCount hk ho h ha hc hx hn hp) (fun h => h.child fun n hn => ?_) fun h => h.child fun n hn => ?_
  · exact List.mem_cons.mpr (.inl (List.mem_singleton.mp hn))
  · exact List.mem_cons_of_mem _ hn

end Rules

/-- The scan of the tokens that the parser has taken for some nodes. -/
theorem Builds.scanned {file : String} (h : Builds (some file) g u ns) : Scanned (some file) g u ns := by
  induction h with
  | identifier ht hp => exact .located (by simp [scan, ScanState.step, ht]) (.identifier ht hp)
  | intLit ht hp => exact .located (by simp [scan, ScanState.step, ht]) (.intLit ht hp)
  | string ht hp => exact .located (by simp [scan, ScanState.step, ht]) (.string ht hp)
  | @paren o c _ _ ho hc _ ih =>
    exact ih.around (a := [o]) (b := [c]) rfl (scan_token (by rw [ho]; rfl)) (scan_token (by rw [hc]; rfl))
      (fun h => .paren ho hc h) fun h => h
  | @call f o c _ _ _ hf ho hc _ hp ih =>
    exact ih.around (a := [f, o]) (b := [c]) rfl (by simp [scan, ScanState.step, hf, ho])
      (scan_token (by rw [hc]; rfl)) (fun h => .call hf ho hc h hp) fun h => h.child fun n hn => hn
  | primary _ ih => exact ih.around (a := []) (b := []) (by simp) rfl rfl (fun h => .primary h) fun h => h
  | single _ ih => exact ih.around (a := []) (b := []) (by simp) rfl rfl (fun h => .single h) fun h => h
  | comparison _ ih => exact ih.around (a := []) (b := []) (by simp) rfl rfl (fun h => .comparison h) fun h => h
  | operand _ ih => exact ih.around (a := []) (b := []) (by simp) rfl rfl (fun h => .operand h) fun h => h
  | binary _ ho hop _ hp ihl ihr => exact scanned_binary ihl ho hop ihr hp
  | arrayLit ha _ _ _ hp => exact .lacks (by simp [scan, ScanState.step, ha]) (.unset (.inr hp))
  | assignment hx ho _ _ hp => exact scanned_assignment hx ho hp
  | argsNil => exact .located rfl .argsNil
  | elementsNil => exact .located rfl .elementsNil
  | stmtsNil => exact .located rfl .stmtsNil
  | @argsCons _ s _ _ _ _ hs _ ih iht =>
    exact ih.pair (a := []) (b := s) iht (by simp) rfl (scan_sep hs) (fun h ht => .argsCons h hs ht) .head .tail
  | elementsLast _ ih => exact ih.around (a := []) (b := []) (by simp) rfl rfl (fun h => .elementsLast h) fun h => h
  | @elementsCons c _ _ _ _ _ hc _ ih iht =>
    exact ih.pair (a := []) (b := [c]) iht rfl rfl (scan_token (by rw [hc]; rfl))
      (fun h ht => .elementsCons h hc ht) .head .tail
  | stmtsCons _ _ ih iht =>
    exact ih.pair (a := []) (b := []) iht (by simp) rfl rfl (fun h ht => .stmtsCons h ht) .head .tail
  | varDecl hk hx hs hp => exact .located (by simp [scan, ScanState.step, hk, hs]) (.varDecl hk hx hs hp)
  | varInit hk hx ho _ hs hp ih => exact scanned_varInit hk hx ho ih hs hp
  | @exprStmt s _ _ _ hs ih =>
    exact ih.around (a := []) (b := [s]) rfl rfl (scan_token (by rw [hs]; rfl)) (fun h => .exprStmt h hs) fun h => h
  | fnDecl hk hf ho hn hc hb _ hd hp ih => exact scanned_fnDecl hk hf ho hn hc hb ih hd hp
  | block hb _ _ hp => exact .lacks (by simp [scan, ScanState.step, hb]) (.unset (.inl hp))
  | ifStmt hk _ _ _ _ hp => exact .lacks (by simp [scan, ScanState.step, hk]) (.unset (.inl hp))
  | ifElse hk _ _ _ _ _ _ hp => exact .lacks (by simp [scan, ScanState.step, hk]) (.unset (.inl hp))
  | loop hk hx _ hp ihn => exact scanned_loop hk hx ihn hp
  | loopCount hk ho _ ha hc hx _ hp ih ihn => exact scanned_loopCount hk ho ih ha hc hx ihn hp
  | stmt _ hs ih => exact ih.around (a := []) rfl rfl (scan_all rfl hs) (fun h => .stmt h hs) fun h => h

theorem Builds.located_iff {file : String} (h : Builds (some file) g u ns) :
    Spells (Located (some file)) (Located (some file)) g u ns ↔ hasOnlyLocated u = true := by
  unfold hasOnlyLocated
  cases h.scanned with
  | located hscan h =>
    rw [hscan]
    exact iff_of_true h rfl
  | lacks hscan hlacks =>
    rw [hscan]
    refine iff_of_false (fun hspells => ?_) Bool.false_ne_true
    obtain ⟨n, hn, m, hm, hplace⟩ := hlacks
    exact hplace (hspells.hasPlace n hn m hm)

/-- Every node of a file that is accepted says where it starts, if and only if there is no array, `if`
statement, assignment or block in the file. -/
theorem node_places (tokens : List LexToken) (filename : String) (n : Nat) (node : AstNode) (p : Parser)
    (h : parserCreateAstNode n (Parser.init tokens (some filename)) = .ok node p) :
    ∃ pos nodes, node = .root pos nodes ∧
      (Spells (Located (some filename)) (Located (some filename)) .stmts (beforeEof tokens) nodes ↔
        hasOnlyLocated (beforeEof tokens) = true) := by
  obtain ⟨pos, nodes, rfl, hbuilds⟩ := builds_of_accepted h
  exact ⟨pos, nodes, rfl, hbuilds.located_iff⟩

/-- The tokens of `var x = (y) + 1;`. -/
def sumTokens : List LexToken :=
  [⟨.tVar, "var", 1, 1, 1, 4⟩, ⟨.tIdentifier, "x", 1, 1, 5, 6⟩, ⟨.tAssignment, "=", 1, 1, 7, 8⟩,
    ⟨.tParenOpen, "(", 1, 1, 9, 10⟩, ⟨.tIdentifier, "y", 1, 1, 10, 11⟩, ⟨.tParenClose, ")", 1, 1, 11, 12⟩,
    ⟨.tBinaryOperator, "+", 1, 1, 13, 14⟩, ⟨.tIntLit, "1", 1, 1, 15, 16⟩, ⟨.tSemicolon, ";", 1, 1, 16, 17⟩,
    ⟨.tEof, "[EOF]", 1, 1, 17, 17⟩]

theorem node_places_sum : ∃ node p, parserCreateAstNode 10 (Parser.init sumTokens (some "main.bl")) = .ok node p ∧
    ∃ pos nodes, node = .root pos nodes ∧
      (Spells (Located (some "main.bl")) (Located (some "main.bl")) .stmts (beforeEof sumTokens) nodes ↔
        hasOnlyLocated (beforeEof sumTokens) = true) :=
  ⟨_, _, rfl, node_places sumTokens "main.bl" 10 _ _ rfl⟩

/-- The tokens of `array [];`. -/
def arrayTokens : List LexToken :=
  [⟨.tArray, "array", 1, 1, 1, 6⟩, ⟨.tSquareBraceOpen, "[", 1, 1, 7, 8⟩, ⟨.tSquareBraceClose, "]", 1, 1, 8, 9⟩,
    ⟨.tSemicolon, ";", 1, 1, 9, 10⟩, ⟨.tEof, "[EOF]", 1, 1, 10, 10⟩]

/-- The place of an array is not set. -/
theorem node_places_array : ∃ pos nodes p,
    parserCreateAstNode 5 (Parser.init arrayTokens (some "main.bl")) = .ok (.root pos nodes) p ∧
      nodes = [.arrayLit .unknown []] ∧
      ¬ Spells (Located (some "main.bl")) (Located (some "main.bl")) .stmts (beforeEof arrayTokens) nodes := by
  refine ⟨⟨some "main.bl", none, none, none, none⟩, [.arrayLit .unknown []], _, rfl, rfl, fun hspells => ?_⟩
  have hplace := hspells.hasPlace (.arrayLit .unknown []) List.mem_cons_self (.arrayLit .unknown []) (.self _)
  exact hplace.2 rfl

end Blaze
