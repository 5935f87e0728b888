import Mathlib.Data.List.Forall2
import Mathlib.Data.List.Infix
import Blazescript.Codegen.Convention
import Blazescript.Running.Proofs.ComputationProofs

/-!
# Proofs: the emitted lines

What the back end compiles is calls of `println` with literals, and the lines it emits for each.
-/

namespace Blaze

open Running

variable {context context' : CompilationContext} {data : List AsmDataLbl} {node root : AstNode}
  {args nodes : List AstNode}

/-- The labels of the data are numbered in their order. -/
def CompilationContext.Numbered (context : CompilationContext) : Prop :=
  context.asmData.map AsmDataLbl.label = (List.range context.lblCount).map fun k => ".DL" ++ toString k

/-- The data only grows, by the next labels. -/
structure CompilationContext.Extends (context context' : CompilationContext) : Prop where
  data : context.asmData <+: context'.asmData
  numbered : context.Numbered → context'.Numbered

theorem CompilationContext.Extends.refl (context : CompilationContext) : context.Extends context :=
  ⟨List.prefix_refl _, id⟩

theorem CompilationContext.Extends.trans {context'' : CompilationContext} (h : context.Extends context')
    (h' : context'.Extends context'') : context.Extends context'' :=
  ⟨h.data.trans h'.data, fun hn => h'.numbered (h.numbered hn)⟩

theorem Creation.mono {data' : List AsmDataLbl} {operand : AsmOperand} {f : String}
    (h : Creation data node operand f) (hd : data <+: data') : Creation data' node operand f := by
  cases h with
  | intLit pos intval => exact .intLit pos intval
  | string pos strval label hmem => exact .string pos strval label (hd.subset hmem)

theorem ArgLines.mono {data' : List AsmDataLbl} {lines : List AsmLine} (h : ArgLines data args lines)
    (hd : data <+: data') : ArgLines data' args lines := by
  induction h with
  | nil => exact .nil
  | cons h hrest ih => exact .cons (h.mono hd) ih

theorem StatementLines.mono {data' : List AsmDataLbl} {lines : List AsmLine}
    (h : StatementLines data args lines) (hd : data <+: data') : StatementLines data' args lines := by
  obtain ⟨hargs⟩ := h
  exact .mk (hargs.mono hd)

theorem linesAll_append (xs ys : List AsmNode) :
    AsmNode.linesAll (xs ++ ys) = AsmNode.linesAll xs ++ AsmNode.linesAll ys := by
  induction xs with
  | nil => rfl
  | cons x xs ih =>
    rw [List.cons_append, AsmNode.linesAll, ih, AsmNode.linesAll, List.append_assoc]

/-! ## Expressions and arguments -/

theorem compileExpr_ok {r : AsmNode} (h : x8664CompileExpr node context = .ok r context') :
    node.IsLiteral ∧ context.Extends context' ∧ ∃ operand f, Creation context'.asmData node operand f ∧
      r.lines = [movLine operand .rdi, callLine f] := by
  cases node with
  | intLit pos intval =>
    cases h
    exact ⟨trivial, .refl _, _, _, .intLit pos intval, rfl⟩
  | string pos strval =>
    cases h
    refine ⟨trivial, ⟨List.prefix_append _ _, ?_⟩, _, _, .string pos strval _ ?_, rfl⟩
    · intro hn
      unfold CompilationContext.Numbered at hn ⊢
      dsimp only
      rw [List.map_append, hn, List.range_succ, List.map_append]
      rfl
    · exact List.mem_append_right _ List.mem_cons_self
  | _ => cases h

theorem compileArgs_ok {c : Nat} {r : List AsmNode × Nat} (h : compileArgs c args context = .ok r context') :
    (∀ arg ∈ args, arg.IsLiteral) ∧ context.Extends context' ∧
      ArgLines context'.asmData args (AsmNode.linesAll r.1) ∧ r.2 = args.length - (6 - c) := by
  induction args generalizing context c r with
  | nil =>
    cases h
    exact ⟨fun arg harg => absurd harg List.not_mem_nil, .refl _, .nil, by simp⟩
  | cons arg args ih =>
    rw [compileArgs] at h
    obtain ⟨x, mid, hx, h⟩ := bind_eq_ok h
    obtain ⟨⟨rest, stackArgc⟩, mid', hrest, h⟩ := bind_eq_ok h
    cases h
    obtain ⟨hlit, hext, operand, f, hcreation, hlines⟩ := compileExpr_ok hx
    obtain ⟨hlits, hext', hargs, hcount⟩ := ih hrest
    refine ⟨List.forall_mem_cons.mpr ⟨hlit, hlits⟩, hext.trans hext', ?_, ?_⟩
    · show ArgLines _ _ (x.lines ++ ([pushLine .rax] ++ AsmNode.linesAll rest))
      rw [hlines]
      exact .cons (hcreation.mono hext'.data) hargs
    · show (if c > 5 then stackArgc + 1 else stackArgc) = _
      rw [List.length_cons]
      dsimp only at hcount
      split <;> omega

theorem compileArgs_literals (h : ∀ arg ∈ args, arg.IsLiteral) (c : Nat) (context : CompilationContext) :
    ∃ r context', compileArgs c args context = .ok r context' := by
  induction args generalizing context c with
  | nil => exact ⟨_, _, rfl⟩
  | cons arg args ih =>
    obtain ⟨hlit, hlits⟩ := List.forall_mem_cons.mp h
    obtain ⟨x, mid, hx⟩ : ∃ x mid, x8664CompileExpr arg context = .ok x mid := by
      cases arg with
      | intLit pos intval => exact ⟨_, _, rfl⟩
      | string pos strval => exact ⟨_, _, rfl⟩
      | _ => cases hlit
    obtain ⟨r, context', hr⟩ := ih hlits (c + 1) mid
    exact ⟨_, _, (bind_ok hx).trans (bind_ok hr)⟩

/-! ## Statements -/

theorem loadLines_range (i n : Nat) : AsmNode.linesAll ((List.range' i n).filterMap fun (i : Nat) =>
      if i ≤ 5 then
        some (asmBinOp .mov (.registerOffset (-8 * ((i : Int) + 1)) .rbp) (.register (argRegister i)))
      else none) = loadLines i (min n (6 - i)) := by
  induction n generalizing i with
  | zero => rw [Nat.zero_min]; rfl
  | succ n ih =>
    rw [List.range'_succ, List.filterMap_cons]
    by_cases hi : i ≤ 5
    · rw [if_pos hi]
      show movLine _ _ :: AsmNode.linesAll _ = _
      rw [ih, show min (n + 1) (6 - i) = min n (6 - (i + 1)) + 1 by omega]
      rfl
    · rw [if_neg hi]
      show AsmNode.linesAll _ = _
      rw [ih, show min n (6 - (i + 1)) = 0 by omega, show min (n + 1) (6 - i) = 0 by omega]
      rfl

theorem argsLoad_lines (argc : Nat) :
    AsmNode.linesAll (x8664CompileCallExprArgsLoad argc) = loadLines 0 (min argc 6) := by
  unfold x8664CompileCallExprArgsLoad
  rw [List.range_eq_range']
  exact loadLines_range 0 argc

theorem freeValues_lines (n : Nat) : AsmNode.linesAll (freeValues n) = freeLines n := by
  induction n with
  | zero => rfl
  | succ n ih =>
    show [popLine .rdi] ++ ([callLine "libblaze_val_free"] ++ AsmNode.linesAll (freeValues n)) = _
    rw [ih]
    rfl

theorem find_builtin (identifier : String) : builtinFunctionDefs.find? (·.name == identifier) =
    if identifier = "println" then some ⟨"println", "libblaze_fn_println", true⟩ else none := by
  unfold builtinFunctionDefs
  rw [List.find?_cons, List.find?_nil]
  by_cases h : identifier = "println"
  · rw [if_pos h, h]
    rfl
  · rw [if_neg h, beq_eq_false_iff_ne.mpr (Ne.symm h)]

/-- The nodes of a statement, from those of its arguments. -/
def statementNode (argc : Nat) (argNodes : List AsmNode) (stackArgs : Nat) : AsmNode :=
  .instructionArray ([asmBinOp .mov (.imm64 argc) (.register .rdi), asmMonoOp .push (.register .rdi)] ++
    argNodes ++ x8664CompileCallExprArgsLoad (argc + 1) ++
    [asmMonoOp .call (.identifier "libblaze_fn_println")] ++
    (freeValues argc ++ [asmBinOp .add (.imm64 8) (.register .rsp)]) ++
    if stackArgs > 0 then [asmBinOp .add (.imm64 (8 * stackArgs)) (.register .rsp)] else [])

theorem statementNode_lines {argNodes : List AsmNode} {stackArgs : Nat}
    (h : ArgLines data args (AsmNode.linesAll argNodes)) (hs : stackArgs = args.length - 5) :
    StatementLines data args (statementNode args.length argNodes stackArgs).lines := by
  have hlines := StatementLines.mk h
  unfold statementNode AsmNode.lines
  simp only [linesAll_append, argsLoad_lines, freeValues_lines]
  have hlast : AsmNode.linesAll (if stackArgs > 0 then
        [asmBinOp .add (.imm64 (8 * stackArgs)) (.register .rsp)] else []) =
      if args.length > 5 then [addLine (8 * (args.length - 5 : Nat)) .rsp] else [] := by
    by_cases hmany : args.length > 5
    · rw [if_pos hmany, if_pos (by omega), hs]
      rfl
    · rw [if_neg hmany, if_neg (by omega)]
      rfl
  rw [hlast, ← List.append_assoc _ (freeLines _)]
  exact hlines

theorem compileCallExpr_println (context : CompilationContext) :
    x8664CompileCallExpr "println" args context = (do
      let (argNodes, stackArgs) ← compileArgs 1 args
      pure (statementNode args.length argNodes stackArgs) : CompileM AsmNode) context := by
  unfold x8664CompileCallExpr
  rw [find_builtin, if_pos rfl]
  cases hargs : compileArgs 1 args context with
  | ok r mid =>
    have hcall : x8664CompileCallExprArgs args true context =
        .ok ([asmBinOp .mov (.imm64 args.length) (.register .rdi), asmMonoOp .push (.register .rdi)] ++ r.1, r.2)
          mid := bind_ok hargs
    rw [bind_ok hargs]
    exact bind_ok hcall
  | error e mid =>
    have hcall : x8664CompileCallExprArgs args true context = .error e mid := bind_error hargs
    rw [bind_error hargs]
    exact bind_error hcall

theorem compileCallExpr_ok {identifier : String} {r : AsmNode} (pos : Pos)
    (h : x8664CompileCallExpr identifier args context = .ok r context') :
    IsPrintln (.exprCall pos identifier args) args ∧ context.Extends context' ∧ r ≠ .empty ∧
      StatementLines context'.asmData args r.lines := by
  by_cases hname : identifier = "println"
  · subst hname
    rw [compileCallExpr_println] at h
    obtain ⟨⟨argNodes, stackArgs⟩, mid, hargs, h⟩ := bind_eq_ok h
    obtain ⟨hlits, hext, hlines, hcount⟩ := compileArgs_ok hargs
    cases h
    refine ⟨.mk pos hlits, hext, ?_, statementNode_lines hlines hcount⟩
    intro hempty
    cases hempty
  · unfold x8664CompileCallExpr at h
    rw [find_builtin, if_neg hname] at h
    cases h

theorem compileCallExpr_literals (h : ∀ arg ∈ args, arg.IsLiteral) (context : CompilationContext) :
    ∃ r context', x8664CompileCallExpr "println" args context = .ok r context' := by
  obtain ⟨r, context', hr⟩ := compileArgs_literals h 1 context
  rw [compileCallExpr_println]
  exact ⟨_, context', bind_ok hr⟩

/-! ## Programs -/

/-- A node that compiles, and is no root, is a call of `println`. -/
theorem compile_ok {r : AsmNode} (hroot : node.type ≠ 0) (h : x8664Compile node context = .ok r context') :
    context.Extends context' ∧ r ≠ .empty ∧
      ∃ args, IsPrintln node args ∧ StatementLines context'.asmData args r.lines := by
  cases node with
  | root pos nodes => exact absurd rfl hroot
  | exprCall pos identifier args =>
    rw [x8664Compile] at h
    obtain ⟨hprint, hext, hne, hlines⟩ := compileCallExpr_ok pos h
    exact ⟨hext, hne, args, hprint, hlines⟩
  | _ =>
    rw [x8664Compile] at h
    · cases h
    all_goals simp

/-- The lines of a statement of the program. -/
def IsStatement (data : List AsmDataLbl) (node : AstNode) (lines : List AsmLine) : Prop :=
  ∃ args, IsPrintln node args ∧ StatementLines data args lines

theorem compileNodes_ok {children : List AsmNode} (hroot : ∀ node ∈ nodes, node.type ≠ 0)
    (h : x8664CompileNodes nodes context = .ok children context') :
    context.Extends context' ∧
      List.Forall₂ (fun node child => IsStatement context'.asmData node child.lines) nodes children := by
  induction nodes generalizing context children with
  | nil =>
    cases h
    exact ⟨.refl _, .nil⟩
  | cons node nodes ih =>
    obtain ⟨hnode, hnodes⟩ := List.forall_mem_cons.mp hroot
    rw [x8664CompileNodes] at h
    obtain ⟨r, mid, hr, h⟩ := bind_eq_ok h
    obtain ⟨children', mid', hchildren, h⟩ := bind_eq_ok h
    obtain ⟨hext, hne, args, hprint, hlines⟩ := compile_ok hnode hr
    obtain ⟨rfl, rfl⟩ : children = r :: children' ∧ context' = mid' := by
      cases r with
      | empty => exact absurd rfl hne
      | _ =>
        cases h
        exact ⟨rfl, rfl⟩
    obtain ⟨hext', hrest⟩ := ih hnodes hchildren
    exact ⟨hext.trans hext', .cons ⟨args, hprint, hlines.mono hext'.data⟩ hrest⟩

/-- The nodes for the entry, and those for the frame of `main`. -/
def headNodes : List AsmNode := x8664CompileRootStart ++ .label "main" :: x8664SetupFrame

def tailNodes : List AsmNode := x8664RestoreFrame ++ [.instruction .ret []]

theorem compileRoot_ok {pos : Pos} {root : AsmNode} (hroot : ∀ node ∈ nodes, node.type ≠ 0)
    (h : x8664Compile (.root pos nodes) context = .ok root context') : ∃ children,
      root = .root (headNodes ++ children ++ tailNodes) ∧ context.Extends context' ∧
      List.Forall₂ (fun node child => IsStatement context'.asmData node child.lines) nodes children := by
  rw [x8664Compile] at h
  obtain ⟨children, mid, hchildren, h⟩ := bind_eq_ok h
  cases h
  refine ⟨children, ?_, compileNodes_ok hroot hchildren⟩
  simp only [headNodes, tailNodes, List.append_assoc, List.cons_append]

theorem compileNodes_literals (h : ∀ node ∈ nodes, ∃ args, IsPrintln node args) (context : CompilationContext) :
    ∃ children context', x8664CompileNodes nodes context = .ok children context' := by
  induction nodes generalizing context with
  | nil => exact ⟨[], context, rfl⟩
  | cons node nodes ih =>
    obtain ⟨⟨args, ⟨pos, hlits⟩⟩, hnodes⟩ := List.forall_mem_cons.mp h
    obtain ⟨r, mid, hr⟩ := compileCallExpr_literals hlits context
    obtain ⟨children, context', hchildren⟩ := ih hnodes mid
    have hnode : x8664Compile (.exprCall pos "println" args) context = .ok r mid := by
      rw [x8664Compile]
      exact hr
    rw [x8664CompileNodes]
    cases r with
    | empty => exact ⟨_, _, (bind_ok hnode).trans (bind_ok hchildren)⟩
    | _ => exact ⟨_, _, (bind_ok hnode).trans (bind_ok hchildren)⟩

/-- Every program of calls of `println` with literals compiles. -/
theorem compileRoot_literals (pos : Pos) (h : ∀ node ∈ nodes, ∃ args, IsPrintln node args)
    (context : CompilationContext) : ∃ root context',
      x8664Compile (.root pos nodes) context = .ok root context' := by
  obtain ⟨children, context', hchildren⟩ := compileNodes_literals h context
  rw [x8664Compile]
  exact ⟨_, context', bind_ok hchildren⟩

end Blaze
