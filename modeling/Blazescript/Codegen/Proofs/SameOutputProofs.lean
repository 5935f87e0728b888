import Blazescript.Codegen.Proofs.InterpretedProofs
import Blazescript.Codegen.Proofs.LibblazeProofs

/-!
# Proofs: what both programs write

The library ends the line behind an integer, wherever it stands; the interpreter ends it behind the last
argument. So they agree as long as an integer is the last argument of its call.
-/

namespace Blaze

open Arena Running

variable {nodes args : List AstNode} {node arg : AstNode} {root : AsmNode} {data : List AsmDataLbl}
  {scratch : String → Cpu → Cpu} {cpu : Cpu} {bytes bytes' : List Char} {stdin : List String} {strerror : String}

/-! ## Lines -/

def AstNode.IsString : AstNode → Prop
  | .string .. => True
  | _ => False

/-- Every argument but the last is a string. -/
def EarlierStrings (node : AstNode) : Prop :=
  ∀ args, IsPrintln node args → ∀ arg ∈ args.dropLast, arg.IsString

theorem printedTexts_intLit (newline : Bool) (pos : Pos) (intval : Int) (vals : List LibVal) :
    printedTexts newline (literalVal (.intLit pos intval) :: vals) =
      literalText (.intLit pos intval) ++ ['\n'] ++ (if vals.isEmpty then [] else [' ']) ++
        printedTexts false vals := rfl

theorem printedTexts_string (newline : Bool) (pos : Pos) (strval : String) (vals : List LibVal) :
    printedTexts newline (literalVal (.string pos strval) :: vals) =
      literalText (.string pos strval) ++ (if vals.isEmpty then [] else [' ']) ++
        printedTexts newline vals := rfl

/-- The lines agree if only the last argument is an integer. -/
theorem printedTexts_eq (hargs : ∀ arg ∈ args, arg.IsLiteral) (hne : args ≠ [])
    (hstrings : ∀ arg ∈ args.dropLast, arg.IsString) :
    printedTexts true (args.map literalVal) = spacedTexts args ++ ['\n'] := by
  induction args with
  | nil => exact absurd rfl hne
  | cons arg args ih =>
    obtain ⟨harg, hrest⟩ := List.forall_mem_cons.mp hargs
    rw [List.map_cons, spacedTexts]
    by_cases hlast : args = []
    · subst hlast
      cases arg with
      | intLit pos intval =>
        rw [printedTexts_intLit]
        simp only [List.map_nil, List.isEmpty_nil, if_true, printedTexts, spacedTexts, List.append_nil]
        exact List.append_nil _
      | string pos strval =>
        rw [printedTexts_string]
        simp only [List.map_nil, List.isEmpty_nil, if_true, printedTexts, spacedTexts, List.append_nil]
      | _ => cases harg
    · rw [List.dropLast_cons_of_ne_nil hlast] at hstrings
      obtain ⟨hstring, hothers⟩ := List.forall_mem_cons.mp hstrings
      cases arg with
      | string pos strval =>
        rw [printedTexts_string, ih hrest hlast hothers, List.isEmpty_map]
        simp only [List.append_assoc]
      | _ => cases hstring

/-- Behind the first integer that is not the last argument one line has a line feed, and the other a space. -/
theorem printedTexts_ne (hargs : ∀ arg ∈ args, arg.IsLiteral) (hmixed : ¬ ∀ arg ∈ args.dropLast, arg.IsString)
    (newline : Bool) (rest rest' : List Char) :
    printedTexts newline (args.map literalVal) ++ rest ≠ spacedTexts args ++ rest' := by
  induction args generalizing newline with
  | nil => exact absurd (fun arg harg => absurd harg List.not_mem_nil) hmixed
  | cons arg args ih =>
    obtain ⟨harg, hlits⟩ := List.forall_mem_cons.mp hargs
    have hlast : args ≠ [] := by
      rintro rfl
      exact hmixed fun arg harg => absurd harg List.not_mem_nil
    rw [List.dropLast_cons_of_ne_nil hlast, List.forall_mem_cons] at hmixed
    have hempty : args.isEmpty = false := by
      cases args with
      | nil => exact absurd rfl hlast
      | cons _ _ => rfl
    rw [List.map_cons, spacedTexts, hempty]
    intro heq
    cases arg with
    | intLit pos intval =>
      rw [printedTexts_intLit, List.isEmpty_map, hempty] at heq
      simp only [List.append_assoc] at heq
      have htail := List.append_cancel_left heq
      exact absurd (List.cons.inj htail).1 (by decide)
    | string pos strval =>
      rw [printedTexts_string, List.isEmpty_map, hempty] at heq
      simp only [List.append_assoc] at heq
      have htail := List.append_cancel_left (List.append_cancel_left heq)
      refine ih hlits ?_ newline htail
      intro hstrings
      exact hmixed ⟨trivial, hstrings⟩
    | _ => cases harg

theorem lines_eq_iff (hnodes : ∀ node ∈ nodes, PrintsSome node) :
    nodes.flatMap compiledLine = nodes.flatMap interpretedLine ↔ ∀ node ∈ nodes, EarlierStrings node := by
  induction nodes with
  | nil => exact ⟨fun _ node hnode => absurd hnode List.not_mem_nil, fun _ => rfl⟩
  | cons node nodes ih =>
    obtain ⟨⟨args, ⟨pos, hlits⟩, hne⟩, hrest⟩ := List.forall_mem_cons.mp hnodes
    rw [List.flatMap_cons, List.flatMap_cons, List.forall_mem_cons]
    by_cases hstrings : ∀ arg ∈ args.dropLast, arg.IsString
    · have hline : compiledLine (.exprCall pos "println" args) = interpretedLine (.exprCall pos "println" args) :=
        printedTexts_eq hlits hne hstrings
      have hearlier : EarlierStrings (.exprCall pos "println" args) := by
        intro args' hprint
        rw [hprint.args_eq (.mk pos hlits)]
        exact hstrings
      rw [hline, List.append_cancel_left_eq, ih hrest]
      exact ⟨fun h => ⟨hearlier, h⟩, fun h => h.2⟩
    · constructor
      · intro heq
        show EarlierStrings (.exprCall pos "println" args) ∧ _
        have hline : printedTexts true (args.map literalVal) ++ nodes.flatMap compiledLine =
            spacedTexts args ++ (['\n'] ++ nodes.flatMap interpretedLine) := by
          rw [← List.append_assoc]
          exact heq
        exact absurd hline (printedTexts_ne hlits hstrings true _ _)
      · rintro ⟨hearlier, -⟩
        exact absurd (hearlier args (.mk pos hlits)) hstrings

/-! ## One output -/

theorem WritesCompiled.unique (h : WritesCompiled root data scratch cpu bytes)
    (h' : WritesCompiled root data scratch cpu bytes') : bytes = bytes' := by
  obtain ⟨p, vals, hreach, hpc, hworld⟩ := h
  obtain ⟨p', vals', hreach', hpc', hworld'⟩ := h'
  have hstuck : ∀ q : Process (Option LibWorld), q.pc = root.lines.length →
      Process.step (libblaze data scratch) root.lines q = none := by
    intro q hq
    unfold Process.step
    rw [hq, List.getElem?_eq_none (Nat.le_refl _)]
    rfl
  have heq := hreach.unique (hstuck p hpc) hreach' (hstuck p' hpc')
  rw [← heq, hworld] at hworld'
  exact congrArg LibWorld.stdout (Option.some.inj hworld')

theorem WritesInterpreted.unique {node : AstNode} (h : WritesInterpreted node stdin strerror bytes)
    (h' : WritesInterpreted node stdin strerror bytes') : bytes = bytes' := by
  obtain ⟨enough, h⟩ := h
  obtain ⟨enough', h'⟩ := h'
  obtain ⟨v, w, hrun, hbytes⟩ := h (max enough enough') (Nat.le_max_left _ _)
  obtain ⟨v', w', hrun', hbytes'⟩ := h' (max enough enough') (Nat.le_max_right _ _)
  rw [hrun] at hrun'
  cases hrun'
  exact Option.some.inj (hbytes.symm.trans hbytes')

/-! ## Both programs -/

/-- A call of `println` with some literals, no more than the registers take, that the assembler keeps as they
are. -/
def PrintsPlain (node : AstNode) : Prop :=
  ∃ args, IsPrintln node args ∧ args ≠ [] ∧ args.length ≤ 5 ∧ ∀ arg ∈ args, arg.IsPlain

/-- The compiled program and the interpreter come to their end, and write the same bytes if and only if in
every call every argument but the last is a string. -/
theorem x8664Compile_prints (pos : Pos) (nodes : List AstNode) (hnodes : ∀ node ∈ nodes, PrintsPlain node)
    (stdin : List String) (strerror : String) : ∃ root context',
      x8664Compile (.root pos nodes) compilationContextCreate = .ok root context' ∧
      ∀ scratch cpu, (∃ bytes, WritesCompiled root context'.asmData scratch cpu bytes) ∧
        (∃ bytes, WritesInterpreted (.root pos nodes) stdin strerror bytes) ∧
        ((∀ bytes, WritesCompiled root context'.asmData scratch cpu bytes ↔
            WritesInterpreted (.root pos nodes) stdin strerror bytes) ↔
          ∀ node ∈ nodes, EarlierStrings node) := by
  have hprint : ∀ node ∈ nodes, ∃ args, IsPrintln node args := by
    intro node hnode
    obtain ⟨args, hprint, -⟩ := hnodes node hnode
    exact ⟨args, hprint⟩
  have hplain : ∀ node ∈ nodes, PlainArgs node := by
    intro node hnode args' hprint'
    obtain ⟨args, hprint, -, -, hplain⟩ := hnodes node hnode
    rw [hprint'.args_eq hprint]
    exact hplain
  have hfew : ∀ node ∈ nodes, ∀ args, IsPrintln node args → args.length ≤ 5 := by
    intro node hnode args' hprint'
    obtain ⟨args, hprint, -, hfew, -⟩ := hnodes node hnode
    rw [hprint'.args_eq hprint]
    exact hfew
  have hsome : ∀ node ∈ nodes, PrintsSome node := by
    intro node hnode
    obtain ⟨args, hprint, hne, -⟩ := hnodes node hnode
    exact ⟨args, hprint, hne⟩
  obtain ⟨root, context', hcompile, hwrites⟩ := writesCompiled pos hprint hplain hfew
  have hinterpreted := writesInterpreted pos hsome stdin strerror
  refine ⟨root, context', hcompile, fun scratch cpu => ?_⟩
  have hcompiled := hwrites scratch cpu
  refine ⟨⟨_, hcompiled⟩, ⟨_, hinterpreted⟩, ?_⟩
  rw [← lines_eq_iff hsome]
  constructor
  · intro hsame
    exact ((hsame _).mp hcompiled).unique hinterpreted
  · intro heq bytes
    constructor
    · intro h
      rw [h.unique hcompiled, heq]
      exact hinterpreted
    · intro h
      rw [h.unique hinterpreted, ← heq]
      exact hcompiled

theorem printsPlain_two (arg arg' : AstNode) (harg : arg.IsLiteral ∧ arg.IsPlain)
    (harg' : arg'.IsLiteral ∧ arg'.IsPlain) :
    ∀ node ∈ [AstNode.exprCall .unknown "println" [arg, arg']], PrintsPlain node := by
  intro node hnode
  rw [List.mem_singleton.mp hnode]
  refine ⟨[arg, arg'], .mk .unknown ?_, List.cons_ne_nil _ _, by simp, ?_⟩
  · simp [harg, harg']
  · simp [harg, harg']

/-- A string and an integer. -/
theorem x8664Compile_prints_string : ∃ root context', x8664Compile (.root .unknown
      [.exprCall .unknown "println" [.string .unknown "a", .intLit .unknown 7]]) compilationContextCreate =
        .ok root context' ∧
    ((∀ bytes, WritesCompiled root context'.asmData (fun _ cpu => cpu) ⟨fun _ => 0, fun _ => 0⟩ bytes ↔
        WritesInterpreted (.root .unknown
          [.exprCall .unknown "println" [.string .unknown "a", .intLit .unknown 7]]) [] "" bytes) ↔
      ∀ node ∈ [AstNode.exprCall .unknown "println" [.string .unknown "a", .intLit .unknown 7]],
        EarlierStrings node) := by
  obtain ⟨root, context', hcompile, hwrites⟩ := x8664Compile_prints .unknown
    [.exprCall .unknown "println" [.string .unknown "a", .intLit .unknown 7]]
    (printsPlain_two _ _ ⟨trivial, by simp [AstNode.IsPlain]⟩ ⟨trivial, trivial⟩) [] ""
  exact ⟨root, context', hcompile, (hwrites _ _).2.2⟩

/-- An integer and a string: the compiled program writes a line feed between them, and none at the end. -/
theorem x8664Compile_prints_integer : ∃ root context' compiled interpreted, x8664Compile (.root .unknown
      [.exprCall .unknown "println" [.intLit .unknown 7, .string .unknown "a"]]) compilationContextCreate =
        .ok root context' ∧
    WritesCompiled root context'.asmData (fun _ cpu => cpu) ⟨fun _ => 0, fun _ => 0⟩ compiled ∧
    WritesInterpreted (.root .unknown
      [.exprCall .unknown "println" [.intLit .unknown 7, .string .unknown "a"]]) [] "" interpreted ∧
    compiled = "\x1b[1;33m7\x1b[0m\n a".toList ∧ interpreted = "\x1b[1;33m7\x1b[0m a\n".toList ∧
    compiled ≠ interpreted := by
  have hlits : ∀ arg ∈ [AstNode.intLit .unknown 7, .string .unknown "a"], arg.IsLiteral := by
    simp [AstNode.IsLiteral]
  have hprint : ∀ node ∈ [AstNode.exprCall .unknown "println" [.intLit .unknown 7, .string .unknown "a"]],
      IsPrintln node [.intLit .unknown 7, .string .unknown "a"] := by
    intro node hnode
    rw [List.mem_singleton.mp hnode]
    exact .mk .unknown hlits
  have hplain : ∀ node ∈ [AstNode.exprCall .unknown "println" [.intLit .unknown 7, .string .unknown "a"]],
      PlainArgs node := by
    intro node hnode args hargs
    rw [hargs.args_eq (hprint node hnode)]
    simp [AstNode.IsPlain]
  have hfew : ∀ node ∈ [AstNode.exprCall .unknown "println" [.intLit .unknown 7, .string .unknown "a"]],
      ∀ args, IsPrintln node args → args.length ≤ 5 := by
    intro node hnode args hargs
    rw [hargs.args_eq (hprint node hnode)]
    decide
  obtain ⟨root, context', hcompile, hwrites⟩ :=
    writesCompiled .unknown (fun node hnode => ⟨_, hprint node hnode⟩) hplain hfew
  exact ⟨root, context', _, _, hcompile, hwrites _ _,
    writesInterpreted .unknown (fun node hnode => ⟨_, hprint node hnode, List.cons_ne_nil _ _⟩) [] "",
    by rfl, by rfl, by decide⟩

end Blaze
