import Blazescript.Eval.Eval
import Blazescript.Running.Proofs.ComputationProofs
import Blazescript.Syntax.DeepCopy
import Blazescript.Syntax.Parser

/-!
# Proofs: which trees are copied

A tree is equal to its copy if, outside of blocks, it has none of the nodes that the copy does not know
and no constants.
-/

namespace Blaze

open AstNode Running Tracing

/-! ## Induction over trees -/

theorem sizeOf_child {c n : AstNode} (h : c ∈ n.children) : sizeOf c < sizeOf n := by
  cases n with
  | root pos nodes =>
    have hlt : sizeOf c < sizeOf nodes := List.sizeOf_lt_of_mem h
    simp only [root.sizeOf_spec]
    omega
  | exprCall pos identifier args =>
    have hlt : sizeOf c < sizeOf args := List.sizeOf_lt_of_mem h
    simp only [exprCall.sizeOf_spec]
    omega
  | fnDecl pos identifier paramNames body =>
    have hlt : sizeOf c < sizeOf body := List.sizeOf_lt_of_mem h
    simp only [fnDecl.sizeOf_spec]
    omega
  | arrayLit pos elements =>
    have hlt : sizeOf c < sizeOf elements := List.sizeOf_lt_of_mem h
    simp only [arrayLit.sizeOf_spec]
    omega
  | block pos children =>
    have hlt : sizeOf c < sizeOf children := List.sizeOf_lt_of_mem h
    simp only [block.sizeOf_spec]
    omega
  | binaryExpr pos operator left right =>
    rcases List.mem_pair.mp h with rfl | rfl <;> simp only [binaryExpr.sizeOf_spec] <;> omega
  | assignment pos assignee value =>
    rcases List.mem_pair.mp h with rfl | rfl <;> simp only [assignment.sizeOf_spec] <;> omega
  | varDecl pos name isConst value =>
    have hvalue : value = some c := by simpa [children] using h
    simp only [varDecl.sizeOf_spec, hvalue, Option.some.sizeOf_spec]
    omega
  | ifStmt pos condition ifBlock elseBlock =>
    simp only [children, List.mem_cons, Option.mem_toList] at h
    rcases h with rfl | rfl | rfl <;> simp only [ifStmt.sizeOf_spec, Option.some.sizeOf_spec] <;> omega
  | loopStmt pos iterCount iterVarname body =>
    simp only [children, List.mem_append, Option.mem_toList, List.mem_singleton] at h
    rcases h with rfl | rfl <;> simp only [loopStmt.sizeOf_spec, Option.some.sizeOf_spec] <;> omega
  | _ => cases h

/-- What holds of a node when it holds of its children holds of every tree. -/
theorem tree_induction {P : AstNode → Prop} (h : ∀ n, (∀ c ∈ n.children, P c) → P n) : ∀ n, P n := by
  intro n
  induction hs : sizeOf n using Nat.strong_induction_on generalizing n with
  | _ s ih =>
    subst hs
    exact h n fun c hc => ih (sizeOf c) (sizeOf_child hc) c rfl

/-! ## Copying -/

theorem copies_iff {n : AstNode} {P : AstNode → Prop} :
    (∀ m, n.Copies m → P m) ↔ P n ∧ ∀ c ∈ n.copiedChildren, ∀ m, c.Copies m → P m := by
  constructor
  · intro h
    exact ⟨h n (.self n), fun c hc m hm => h m (.child hc hm)⟩
  · rintro ⟨hn, hc⟩ m hm
    cases hm with
    | self => exact hn
    | child h hm => exact hc _ h m hm

theorem recognized_iff {n : AstNode} :
    n.Recognized ↔ n.isRecognized = true ∧ ∀ c ∈ n.copiedChildren, c.Recognized := copies_iff

theorem copyable_iff {n : AstNode} :
    n.Copyable ↔ (n.isRecognized = true ∧ n.isConstDecl = false) ∧ ∀ c ∈ n.copiedChildren, c.Copyable :=
  copies_iff

section Except

variable {ε α β : Type} {x : Except ε α} {b : β}

theorem map_eq_ok {f : α → β} : x.map f = .ok b ↔ ∃ a, x = .ok a ∧ f a = b := by
  cases x <;> simp [Except.map]

theorem except_bind_eq_ok {f : α → Except ε β} : (x >>= f) = .ok b ↔ ∃ a, x = .ok a ∧ f a = .ok b := by
  cases x <;> simp [Bind.bind, Except.bind]

end Except

theorem copyAll_eq {nodes : List AstNode} :
    parserAstDeepCopyAll nodes = .ok nodes ↔ ∀ c ∈ nodes, parserAstDeepCopy c = .ok c := by
  induction nodes with
  | nil => simp [parserAstDeepCopyAll]
  | cons c nodes ih => simp [parserAstDeepCopyAll, except_bind_eq_ok, ih]

theorem copyAll_ok {nodes : List AstNode} :
    (∃ copies, parserAstDeepCopyAll nodes = .ok copies) ↔
      ∀ c ∈ nodes, ∃ copy, parserAstDeepCopy c = .ok copy := by
  induction nodes with
  | nil => simp [parserAstDeepCopyAll]
  | cons c nodes ih =>
    rw [List.forall_mem_cons, ← ih]
    constructor
    · rintro ⟨copies, h⟩
      simp only [parserAstDeepCopyAll, except_bind_eq_ok] at h
      obtain ⟨copy, hcopy, copies', hcopies, -⟩ := h
      exact ⟨⟨copy, hcopy⟩, copies', hcopies⟩
    · rintro ⟨⟨copy, hcopy⟩, copies, hcopies⟩
      refine ⟨copy :: copies, ?_⟩
      simp only [parserAstDeepCopyAll, except_bind_eq_ok]
      exact ⟨copy, hcopy, copies, hcopies, rfl⟩

/-- A tree is equal to its copy if its type is known, it is no constant, and what is copied below it is
equal to its copy. -/
theorem copy_eq_children (n : AstNode) : parserAstDeepCopy n = .ok n ↔
    (n.isRecognized = true ∧ n.isConstDecl = false) ∧
      ∀ c ∈ n.copiedChildren, parserAstDeepCopy c = .ok c := by
  cases n with
  | root | exprCall | fnDecl =>
    simp [parserAstDeepCopy, map_eq_ok, copyAll_eq, copiedChildren, children, isRecognized, isConstDecl]
  | binaryExpr | assignment =>
    simp [parserAstDeepCopy, except_bind_eq_ok, copiedChildren, children, isRecognized, isConstDecl]
  | varDecl pos name isConst value =>
    cases value <;> cases isConst <;>
      simp [parserAstDeepCopy, map_eq_ok, copiedChildren, children, isRecognized, isConstDecl]
  | _ => simp [parserAstDeepCopy, copiedChildren, children, isRecognized, isConstDecl]

/-- A tree has a copy if its type is known and what is copied below it has one. -/
theorem copy_ok_children (n : AstNode) : (∃ copy, parserAstDeepCopy n = .ok copy) ↔
    n.isRecognized = true ∧ ∀ c ∈ n.copiedChildren, ∃ copy, parserAstDeepCopy c = .ok copy := by
  cases n with
  | root | exprCall | fnDecl =>
    simp [parserAstDeepCopy, map_eq_ok, ← copyAll_ok, copiedChildren, children, isRecognized]
  | binaryExpr | assignment =>
    simp [parserAstDeepCopy, except_bind_eq_ok, copiedChildren, children, isRecognized]
  | varDecl pos name isConst value =>
    cases value <;> simp [parserAstDeepCopy, map_eq_ok, copiedChildren, children, isRecognized]
  | _ => simp [parserAstDeepCopy, copiedChildren, children, isRecognized]

theorem copiedChildren_subset {c n : AstNode} (h : c ∈ n.copiedChildren) : c ∈ n.children := by
  cases n with
  | block => cases h
  | _ => exact h

theorem copy_eq_iff (n : AstNode) : parserAstDeepCopy n = .ok n ↔ n.Copyable := by
  induction n using tree_induction with
  | h n ih =>
    rw [copyable_iff, copy_eq_children]
    exact and_congr_right' (forall₂_congr fun c hc => ih c (copiedChildren_subset hc))

theorem copy_ok_iff (n : AstNode) : (∃ copy, parserAstDeepCopy n = .ok copy) ↔ n.Recognized := by
  induction n using tree_induction with
  | h n ih =>
    rw [recognized_iff, copy_ok_children]
    exact and_congr_right' (forall₂_congr fun c hc => ih c (copiedChildren_subset hc))

/-! ## Function declarations -/

/-- The program does not end with a fatal error. -/
def NeverFatal {α : Type} (x : Eval α) : Prop := ∀ w msg w', x w ≠ .error (.fatal msg) w'

theorem neverFatal_perform {α : Type} (f : Machine → Option (α × Event × Machine)) :
    NeverFatal (Recorder.perform .undefined f : Eval α) := by
  intro w msg w' h
  unfold Recorder.perform at h
  split at h <;> cases h

theorem NeverFatal.bind {α β : Type} {x : Eval α} {f : α → Eval β} (hx : NeverFatal x)
    (hf : ∀ a, NeverFatal (f a)) : NeverFatal (x >>= f) := by
  intro w msg w' h
  rcases bind_eq_error h with h | ⟨a, w₁, -, h⟩
  · exact hx w msg w' h
  · exact hf a w₁ msg w' h

/-- A function declaration is fatal exactly if something in the body is not known to the copy. -/
theorem evalFnDecl_fatal (scope : Nat) (pos : Pos) (identifier : String) (paramNames : List String)
    (body : List AstNode) (w : World Machine Event) :
    (∃ msg w', evalFnDecl scope pos identifier paramNames body w = .error (.fatal msg) w') ↔
      ¬ ∀ c ∈ body, c.Recognized := by
  have hcopy : (∀ c ∈ body, c.Recognized) ↔ ∃ copies, parserAstDeepCopyAll body = .ok copies := by
    rw [copyAll_ok]
    exact forall₂_congr fun c _ => (copy_ok_iff c).symm
  rw [hcopy]
  cases hbody : parserAstDeepCopyAll body with
  | error msg =>
    constructor
    · rintro - ⟨copies, h⟩
      cases h
    · intro _
      refine ⟨msg, w, ?_⟩
      show EStateM.bind (copyBody body) _ w = _
      unfold EStateM.bind copyBody
      rw [hbody]
      rfl
  | ok copies =>
    have hpure : copyBody body = pure copies := by
      unfold copyBody
      rw [hbody]
    have hnever : NeverFatal (evalFnDecl scope pos identifier paramNames body) := by
      unfold evalFnDecl
      rw [hpure, pure_bind]
      refine (neverFatal_perform _).bind fun fn => (neverFatal_perform _).bind fun status => ?_
      split
      · intro w msg w' h
        cases h
      · exact neverFatal_perform _
    constructor
    · rintro ⟨msg, w', h⟩
      exact absurd h (hnever w msg w')
    · intro h
      exact absurd ⟨copies, rfl⟩ h

/-- A tree is equal to its copy exactly if, outside of blocks, it has no array literal, import, `if`, loop
or constant; a function declaration is fatal exactly if its body has one of the first four. -/
theorem deep_copy_exact (node : AstNode) :
    (parserAstDeepCopy node = .ok node ↔ node.Copyable) ∧
    ((∃ copy, parserAstDeepCopy node = .ok copy) ↔ node.Recognized) ∧
    ∀ scope pos identifier paramNames body w,
      (∃ msg w', evalFnDecl scope pos identifier paramNames body w = .error (.fatal msg) w') ↔
        ¬ ∀ c ∈ body, c.Recognized :=
  ⟨copy_eq_iff node, copy_ok_iff node, evalFnDecl_fatal⟩

/-- `function f() { if (1) 2; }` -/
def ifInFunction : List LexToken :=
  [⟨.tFunction, "function", 1, 1, 1, 8⟩, ⟨.tIdentifier, "f", 1, 1, 10, 10⟩,
    ⟨.tParenOpen, "(", 1, 1, 11, 11⟩, ⟨.tParenClose, ")", 1, 1, 12, 12⟩,
    ⟨.tBlockBraceOpen, "\x7b", 1, 1, 14, 14⟩, ⟨.tIf, "if", 1, 1, 16, 17⟩,
    ⟨.tParenOpen, "(", 1, 1, 19, 19⟩, ⟨.tIntLit, "1", 1, 1, 20, 20⟩,
    ⟨.tParenClose, ")", 1, 1, 21, 21⟩, ⟨.tIntLit, "2", 1, 1, 23, 23⟩,
    ⟨.tSemicolon, ";", 1, 1, 24, 24⟩, ⟨.tBlockBraceClose, "\x7d", 1, 1, 26, 26⟩,
    ⟨.tEof, "[EOF]", 1, 1, 27, 27⟩]

/-- The parser produces a tree that is not copied. -/
theorem deep_copy_fatal : ¬ ∀ (tokens : List LexToken) (filename : Option String) (n : Nat)
    (pos : Pos) (nodes : List AstNode) (p : Parser),
    parserCreateAstNode n (Parser.init tokens filename) = .ok (.root pos nodes) p →
      ∀ node ∈ nodes, parserAstDeepCopy node = .ok node := by
  intro hall
  have hbad : (match parserCreateAstNode 14 (Parser.init ifInFunction none) with
      | .ok (.root _ nodes) _ => nodes.all fun node => (parserAstDeepCopy node).isOk
      | _ => true) = false := by
    decide +kernel
  split at hbad
  · rename_i pos nodes p hparse
    have hcopy := hall _ _ _ _ _ _ hparse
    rw [List.all_eq_false] at hbad
    obtain ⟨node, hnode, hfatal⟩ := hbad
    rw [hcopy node hnode] at hfatal
    exact hfatal rfl
  · cases hbad

end Blaze
