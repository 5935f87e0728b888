import Blazescript.Codegen.DataLabels
import Blazescript.Codegen.Proofs.LibblazeProofs

/-!
# Proofs: the labels of the data

The counter, the data and the code grow together. What has been emitted for two parts of a program is what
is emitted for the parts one after the other.
-/

namespace Blaze

open Running

variable {context context' context'' : CompilationContext} {node : AstNode} {nodes args : List AstNode}
  {strvals strvals' : List String} {lines lines' : List AsmLine}

/-! ## Data and labels of two parts -/

theorem dataFor_append (k : Nat) (strvals strvals' : List String) :
    dataFor k (strvals ++ strvals') = dataFor k strvals ++ dataFor (k + strvals.length) strvals' := by
  induction strvals generalizing k with
  | nil => rfl
  | cons strval strvals ih =>
    rw [List.cons_append, dataFor, ih, dataFor, List.length_cons, List.cons_append, Nat.add_assoc,
      Nat.add_comm 1]

theorem mem_dataFor {k : Nat} {label : String} (h : label ∈ (dataFor k strvals).map AsmDataLbl.label) :
    ∃ n, k ≤ n ∧ label = ".DL" ++ toString n := by
  induction strvals generalizing k with
  | nil => exact absurd h List.not_mem_nil
  | cons strval strvals ih =>
    rcases List.mem_cons.mp h with rfl | h
    · exact ⟨k, Nat.le_refl k, rfl⟩
    · obtain ⟨n, hn, hlabel⟩ := ih h
      exact ⟨n, by omega, hlabel⟩

theorem nodup_dataFor (k : Nat) (strvals : List String) :
    ((dataFor k strvals).map AsmDataLbl.label).Nodup := by
  induction strvals generalizing k with
  | nil => exact List.nodup_nil
  | cons strval strvals ih =>
    refine List.nodup_cons.mpr ⟨fun hmem => ?_, ih (k + 1)⟩
    obtain ⟨n, hn, hlabel⟩ := mem_dataFor hmem
    have heq := label_injective hlabel
    omega

theorem forall₂_dataFor (k : Nat) (strvals : List String) :
    List.Forall₂ (fun strval (loaded : Option String) => ∃ label, loaded = some label ∧
        (⟨label, "string", stringOperand strval.toList⟩ : AsmDataLbl) ∈ dataFor k strvals)
      strvals ((dataFor k strvals).map fun entry => some entry.label) := by
  induction strvals generalizing k with
  | nil => exact .nil
  | cons strval strvals ih =>
    refine .cons ⟨_, rfl, List.mem_cons_self⟩ ((ih (k + 1)).imp ?_)
    rintro strval' loaded ⟨label, hloaded, hmem⟩
    exact ⟨label, hloaded, List.mem_cons_of_mem _ hmem⟩

theorem strvalLabels_append (before : Option AsmLine) (lines lines' : List AsmLine) : ∃ before',
    strvalLabels before (lines ++ lines') = strvalLabels before lines ++ strvalLabels before' lines' := by
  induction lines generalizing before with
  | nil => exact ⟨before, rfl⟩
  | cons line lines ih =>
    obtain ⟨before', h⟩ := ih (some line)
    refine ⟨before', ?_⟩
    rw [List.cons_append, strvalLabels, strvalLabels, h]
    by_cases hline : line = createStrval
    · rw [if_pos hline, if_pos hline, List.cons_append]
    · rw [if_neg hline, if_neg hline]

namespace Placed

theorem append (h : Placed context context' strvals lines) (h' : Placed context' context'' strvals' lines') :
    Placed context context'' (strvals ++ strvals') (lines ++ lines') where
  data := by rw [h'.data, h.data, h.count, dataFor_append, List.append_assoc]
  count := by rw [h'.count, h.count, List.length_append, Nat.add_assoc]
  refs := by rw [List.flatMap_append, h.refs, h'.refs, h.count, dataFor_append, List.map_append]
  loads := by
    intro before
    obtain ⟨before', happend⟩ := strvalLabels_append before lines lines'
    rw [happend, h.loads, h'.loads, h.count, dataFor_append, List.map_append]

/-- Lines that refer to no label and make no value from a string. -/
theorem plain (context : CompilationContext)
    (h : ∀ line ∈ lines, line.labelRefs = [] ∧ line ≠ createStrval) : Placed context context [] lines where
  data := (List.append_nil _).symm
  count := rfl
  refs := List.flatMap_eq_nil_iff.mpr fun line hline => (h line hline).1
  loads := by
    induction lines with
    | nil => exact fun _ => rfl
    | cons line lines ih =>
      obtain ⟨hline, hlines⟩ := List.forall_mem_cons.mp h
      intro before
      rw [strvalLabels, if_neg hline.2]
      exact ih hlines (some line)

theorem append_plain (h : Placed context context' strvals lines)
    (h' : ∀ line ∈ lines', line.labelRefs = [] ∧ line ≠ createStrval) :
    Placed context context' strvals (lines ++ lines') := by
  have happend := h.append (plain context' h')
  rw [List.append_nil] at happend
  exact happend

end Placed

/-! ## Expressions and arguments -/

theorem callLine_ne {f : String} (h : f ≠ "libblaze_val_create_strval") : callLine f ≠ createStrval := by
  intro heq
  cases heq
  exact h rfl

theorem compileExpr_placed {r : AsmNode} (h : x8664CompileExpr node context = .ok r context') :
    Placed context context' node.strval.toList r.lines := by
  cases node with
  | intLit pos intval =>
    cases h
    refine Placed.plain _ (List.forall_mem_cons.mpr ⟨⟨rfl, ?_⟩, List.forall_mem_singleton.mpr ⟨rfl, ?_⟩⟩)
    · intro heq
      cases heq
    · exact callLine_ne (by decide)
  | string pos strval =>
    cases h
    exact ⟨rfl, rfl, rfl, fun before => rfl⟩
  | _ => cases h

theorem compileArgs_placed {c : Nat} {r : List AsmNode × Nat} (h : compileArgs c args context = .ok r context') :
    Placed context context' (args.filterMap AstNode.strval) (AsmNode.linesAll r.1) := by
  induction args generalizing context c r with
  | nil =>
    cases h
    exact Placed.plain _ fun line hline => absurd hline List.not_mem_nil
  | cons arg args ih =>
    rw [compileArgs] at h
    obtain ⟨x, mid, hx, h⟩ := bind_eq_ok h
    obtain ⟨⟨rest, stackArgc⟩, mid', hrest, h⟩ := bind_eq_ok h
    cases h
    have harg : Placed context mid arg.strval.toList (x.lines ++ [pushLine .rax]) := by
      refine (compileExpr_placed hx).append_plain (List.forall_mem_singleton.mpr ⟨rfl, ?_⟩)
      intro heq
      cases heq
    have hargs : (arg :: args).filterMap AstNode.strval = arg.strval.toList ++ args.filterMap AstNode.strval := by
      rw [List.filterMap_cons]
      cases arg.strval <;> rfl
    rw [hargs]
    show Placed _ _ _ (x.lines ++ ([pushLine .rax] ++ AsmNode.linesAll rest))
    rw [← List.append_assoc]
    exact harg.append (ih hrest)

/-! ## Statements and programs -/

theorem plain_freeLines (n : Nat) : ∀ line ∈ freeLines n, line.labelRefs = [] ∧ line ≠ createStrval := by
  induction n with
  | zero => exact fun line hline => absurd hline List.not_mem_nil
  | succ n ih =>
    refine List.forall_mem_cons.mpr ⟨⟨rfl, ?_⟩, List.forall_mem_cons.mpr ⟨⟨rfl, callLine_ne (by decide)⟩, ih⟩⟩
    intro heq
    cases heq

theorem plain_loadLines (i n : Nat) : ∀ line ∈ loadLines i n, line.labelRefs = [] ∧ line ≠ createStrval := by
  induction n generalizing i with
  | zero => exact fun line hline => absurd hline List.not_mem_nil
  | succ n ih =>
    refine List.forall_mem_cons.mpr ⟨⟨rfl, ?_⟩, ih (i + 1)⟩
    intro heq
    cases heq

theorem compileCallExpr_placed {pos : Pos} {identifier : String} {r : AsmNode}
    (h : x8664CompileCallExpr identifier args context = .ok r context') :
    Placed context context' (AstNode.exprCall pos identifier args).stringLiterals r.lines := by
  by_cases hname : identifier = "println"
  · subst hname
    rw [compileCallExpr_println] at h
    obtain ⟨⟨argNodes, stackArgs⟩, mid, hargs, h⟩ := bind_eq_ok h
    cases h
    have hcount : Placed context context [] [movLine (.imm64 args.length) .rdi, pushLine .rdi] := by
      refine Placed.plain context (List.forall_mem_cons.mpr ⟨⟨rfl, ?_⟩, List.forall_mem_singleton.mpr ⟨rfl, ?_⟩⟩)
      · intro heq
        cases heq
      · intro heq
        cases heq
    have hcall : ∀ line ∈ [callLine "libblaze_fn_println"], line.labelRefs = [] ∧ line ≠ createStrval :=
      List.forall_mem_singleton.mpr ⟨rfl, callLine_ne (by decide)⟩
    have hadd (n : Int) : ∀ line ∈ [addLine n .rsp], line.labelRefs = [] ∧ line ≠ createStrval := by
      refine List.forall_mem_singleton.mpr ⟨rfl, ?_⟩
      intro heq
      cases heq
    have hlast : ∀ line ∈ AsmNode.linesAll (if stackArgs > 0 then
        [asmBinOp .add (.imm64 (8 * stackArgs)) (.register .rsp)] else []),
        line.labelRefs = [] ∧ line ≠ createStrval := by
      by_cases hmany : stackArgs > 0
      · rw [if_pos hmany]
        exact hadd _
      · rw [if_neg hmany]
        exact fun line hline => absurd hline List.not_mem_nil
    unfold statementNode AsmNode.lines
    simp only [linesAll_append, argsLoad_lines, freeValues_lines]
    exact ((((hcount.append (compileArgs_placed hargs)).append_plain (plain_loadLines _ _)).append_plain
      hcall).append_plain (List.forall_mem_append.mpr ⟨plain_freeLines _, hadd 8⟩)).append_plain hlast
  · unfold x8664CompileCallExpr at h
    rw [find_builtin, if_neg hname] at h
    cases h

theorem plain_headNodes : ∀ line ∈ AsmNode.linesAll headNodes, line.labelRefs = [] ∧ line ≠ createStrval := by
  decide

theorem plain_tailNodes : ∀ line ∈ AsmNode.linesAll tailNodes, line.labelRefs = [] ∧ line ≠ createStrval := by
  decide

/-- Whatever is compiled, a call or a whole program. -/
theorem compile_placed (node : AstNode) : ∀ {context context' : CompilationContext} {r : AsmNode},
    x8664Compile node context = .ok r context' → Placed context context' node.stringLiterals r.lines := by
  refine x8664Compile.induct
    (fun node => ∀ {context context' : CompilationContext} {r : AsmNode},
      x8664Compile node context = .ok r context' → Placed context context' node.stringLiterals r.lines)
    (fun nodes => ∀ {context context' : CompilationContext} {children : List AsmNode},
      x8664CompileNodes nodes context = .ok children context' →
        Placed context context' (AstNode.stringLiteralsAll nodes) (AsmNode.linesAll children))
    ?_ ?_ ?_ ?_ ?_ node
  · intro pos nodes ih context context' r h
    rw [x8664Compile] at h
    obtain ⟨children, mid, hchildren, h⟩ := bind_eq_ok h
    cases h
    have hlines : (AsmNode.root (x8664CompileRootStart ++ .label "main" :: x8664SetupFrame ++ children ++
        x8664RestoreFrame ++ [.instruction .ret []])).lines =
          AsmNode.linesAll headNodes ++ AsmNode.linesAll children ++ AsmNode.linesAll tailNodes := by
      unfold headNodes tailNodes AsmNode.lines
      simp only [linesAll_append, List.append_assoc]
    rw [hlines]
    exact ((Placed.plain context plain_headNodes).append (ih hchildren)).append_plain plain_tailNodes
  · intro pos identifier args context context' r h
    rw [x8664Compile] at h
    exact compileCallExpr_placed h
  · intro node hroot hcall context context' r h
    rw [x8664Compile] at h
    · cases h
    · exact hroot
    · exact hcall
  · intro context context' children h
    cases h
    exact Placed.plain context fun line hline => absurd hline List.not_mem_nil
  · intro node nodes ih ihs context context' children h
    rw [x8664CompileNodes] at h
    obtain ⟨r, mid, hr, h⟩ := bind_eq_ok h
    obtain ⟨children', mid', hchildren, h⟩ := bind_eq_ok h
    have hplaced := (ih hr).append (ihs hchildren)
    cases r with
    | empty =>
      cases h
      exact hplaced
    | _ =>
      cases h
      exact hplaced

/-- The labels of the data differ, every label that the code refers to is that of one entry, and where the
value of a literal is made, the label of the entry for this literal has just been loaded. -/
theorem data_labels_resolve {node : AstNode} {k : Nat} {tree : AsmNode} {context : CompilationContext}
    (h : x8664Compile node ⟨[], k⟩ = .ok tree context) :
    (context.asmData.map AsmDataLbl.label).Nodup ∧
      (∀ line ∈ tree.lines, ∀ label ∈ line.labelRefs,
        (context.asmData.map AsmDataLbl.label).count label = 1) ∧
      List.Forall₂ (fun strval (loaded : Option String) => ∃ label, loaded = some label ∧
          ⟨label, "string", stringOperand strval.toList⟩ ∈ context.asmData)
        node.stringLiterals (strvalLabels none tree.lines) := by
  have hplaced := compile_placed node h
  have hdata : context.asmData = dataFor k node.stringLiterals := hplaced.data
  have hnodup : (context.asmData.map AsmDataLbl.label).Nodup := by
    rw [hdata]
    exact nodup_dataFor k _
  refine ⟨hnodup, fun line hline label hlabel => ?_, ?_⟩
  · refine List.count_eq_one_of_mem hnodup ?_
    rw [hdata, ← hplaced.refs]
    exact List.mem_flatMap.mpr ⟨line, hline, hlabel⟩
  · rw [hplaced.loads none, hdata]
    exact forall₂_dataFor k _

theorem data_labels_resolve_println : ∃ tree context,
    x8664Compile (.root .unknown [.exprCall .unknown "println" [.string .unknown "a", .string .unknown "b"],
        .exprCall .unknown "println" [.string .unknown "a"]]) ⟨[], 0⟩ = .ok tree context ∧
      strvalLabels none tree.lines = [some ".DL0", some ".DL1", some ".DL2"] ∧
      (context.asmData.map AsmDataLbl.label).Nodup := by
  have h : x8664Compile (.root .unknown [.exprCall .unknown "println" [.string .unknown "a", .string .unknown "b"],
      .exprCall .unknown "println" [.string .unknown "a"]]) ⟨[], 0⟩ = .ok _ _ := rfl
  exact ⟨_, _, h, rfl, (data_labels_resolve h).1⟩

end Blaze
