import Blazescript.Codegen.Proofs.CompileProofs
import Blazescript.Codegen.Proofs.StatementProofs

/-!
# Proofs: the code of a program

From the entry to the return of `main`, statement by statement. The stack is balanced as long as no statement
has arguments that stay on it.
-/

namespace Blaze

open Running

variable {σ : Type} {rt : Runtime σ} {data : List AsmDataLbl} {code lines lines' : List AsmLine}
  {p p' p'' : Process σ} {nodes : List AstNode} {children : List AsmNode} {base : Int} {f : String} {k : Nat}

/-! ## Lines of a program -/

theorem headNodes_lines : AsmNode.linesAll headNodes =
    [.directive "globl" "_start", .label "_start", callLine "main", movLine (.imm64 0) .rdi, callLine "exit",
      .label "main", pushLine .rbp, movLine (.register .rsp) .rbp] := rfl

theorem tailNodes_lines : AsmNode.linesAll tailNodes = [popLine .rbp, .instruction .ret []] := rfl

/-- The lines of a program. -/
def programLines (children : List AsmNode) : List AsmLine :=
  AsmNode.linesAll headNodes ++ AsmNode.linesAll children ++ AsmNode.linesAll tailNodes

theorem root_lines (children : List AsmNode) :
    (AsmNode.root (headNodes ++ children ++ tailNodes)).lines = programLines children := by
  rw [AsmNode.lines, linesAll_append, linesAll_append]
  rfl

/-- The line at which the `k`-th statement begins. -/
def boundaryLine (children : List AsmNode) (k : Nat) : Nat := 8 + (AsmNode.linesAll (children.take k)).length

theorem boundary_eq (hk : k ≤ children.length) :
    (AsmNode.root (headNodes ++ children ++ tailNodes)).boundary k = boundaryLine children k := by
  have htake : (headNodes ++ children ++ tailNodes).take (8 + k) = headNodes ++ children.take k := by
    rw [List.append_assoc, show 8 + k = headNodes.length + k from rfl, List.take_length_add_append,
      List.take_append_of_le_length hk]
  rw [AsmNode.boundary, htake, linesAll_append, List.length_append]
  rfl

theorem boundaryLine_mono {j : Nat} (h : j ≤ k) : boundaryLine children j ≤ boundaryLine children k := by
  have hpre : children.take j <+: children.take k := List.take_prefix_take_left h
  obtain ⟨rest, hrest⟩ := hpre
  unfold boundaryLine
  rw [← hrest, linesAll_append, List.length_append]
  omega

theorem argLines_no_label {args : List AstNode} (h : ArgLines data args lines) : .label f ∉ lines := by
  induction h with
  | nil => exact List.not_mem_nil
  | cons h hrest ih =>
    simp only [List.mem_cons, not_or]
    exact ⟨AsmLine.noConfusion, AsmLine.noConfusion, AsmLine.noConfusion, ih⟩

theorem loadLines_no_label (i n : Nat) : .label f ∉ loadLines i n := by
  induction n generalizing i with
  | zero => exact List.not_mem_nil
  | succ n ih =>
    rw [loadLines, List.mem_cons, not_or]
    exact ⟨AsmLine.noConfusion, ih (i + 1)⟩

theorem freeLines_no_label (n : Nat) : .label f ∉ freeLines n := by
  induction n with
  | zero => exact List.not_mem_nil
  | succ n ih =>
    rw [freeLines, List.mem_cons, List.mem_cons, not_or, not_or]
    exact ⟨AsmLine.noConfusion, AsmLine.noConfusion, ih⟩

theorem statement_no_label {args : List AstNode} (h : StatementLines data args lines) : .label f ∉ lines := by
  obtain ⟨hargs⟩ := h
  have hlast : .label f ∉ (if args.length > 5 then [addLine (8 * (args.length - 5 : Nat)) .rsp] else []) := by
    split <;> simp [addLine]
  simp only [List.mem_append, not_or]
  exact ⟨⟨⟨⟨⟨⟨by simp [movLine, pushLine], argLines_no_label hargs⟩, loadLines_no_label _ _⟩,
    by simp [callLine]⟩, freeLines_no_label _⟩, by simp [addLine]⟩, hlast⟩

theorem programLines_labelled
    (h : List.Forall₂ (fun node child => IsStatement data node child.lines) nodes children) :
    Labelled (programLines children) := by
  have hbody : ∀ f, .label f ∉ AsmNode.linesAll children := by
    intro f
    induction h with
    | nil => exact List.not_mem_nil
    | cons hnode hrest ih =>
      obtain ⟨args, -, hlines⟩ := hnode
      rw [AsmNode.linesAll, List.mem_append, not_or]
      exact ⟨statement_no_label hlines, ih⟩
  intro f hf
  unfold programLines at hf
  rw [headNodes_lines, tailNodes_lines] at hf
  simpa [hbody f, movLine, pushLine, popLine, callLine, addLine] using hf

/-! ## The statements of a program -/

/-- What the code of a statement does, by the convention. -/
def StatementCalls (rt : Runtime σ) (data : List AsmDataLbl) (node : AstNode) (cs : List Call) : Prop :=
  ∃ args creates println frees, IsPrintln node args ∧ cs = creates ++ println :: frees ∧
    FollowsConvention rt data args creates println frees

/-- Between two statements the stack is empty. -/
def BalancedAt (children : List AsmNode) (q : Process σ) : Prop :=
  ∀ k ≤ children.length, q.pc = boundaryLine children k → q.cpu.reg .rsp = q.cpu.reg .rbp

/-- The path over a statement meets a boundary only where it begins. -/
theorem balanced_of_over {done rest : List AsmNode} {child : AsmNode}
    (hover : Over rt code child.lines p p') (hpc : p.pc = boundaryLine (done ++ child :: rest) done.length)
    (hrsp : p.cpu.reg .rsp = p.cpu.reg .rbp) :
    Path (Process.step rt code) (BalancedAt (done ++ child :: rest)) p p' ∧
      p'.pc = boundaryLine (done ++ child :: rest) (done.length + 1) := by
  have hnext : boundaryLine (done ++ child :: rest) (done.length + 1) = p.pc + child.lines.length := by
    have htake : (done ++ child :: rest).take (done.length + 1) = done ++ [child] := by
      rw [List.take_length_add_append]
      rfl
    rw [hpc]
    unfold boundaryLine
    rw [htake, List.take_left, linesAll_append, List.length_append]
    show _ + (_ + (child.lines ++ []).length) = _
    rw [List.append_nil]
    omega
  refine ⟨hover.path.mono ?_, by rw [hnext, hover.pc]⟩
  rintro q ⟨hle, hlt, hsame⟩ j hj hq
  have hjk : boundaryLine (done ++ child :: rest) j ≤ p.pc := by
    by_cases hjle : j ≤ done.length
    · rw [hpc]
      exact boundaryLine_mono hjle
    · have hmono : boundaryLine (done ++ child :: rest) (done.length + 1) ≤ boundaryLine (done ++ child :: rest) j :=
        boundaryLine_mono (by omega)
      omega
  rw [hsame (by omega)]
  exact hrsp

theorem IsPrintln.args_eq {node : AstNode} {args args' : List AstNode} (h : IsPrintln node args)
    (h' : IsPrintln node args') : args = args' := by
  cases h
  cases h'
  rfl

/-- The next statement of a program, from an empty stack. -/
theorem statement_next (rt : Runtime σ) (hcode : Labelled code) {node : AstNode} {child : AsmNode}
    (done rest : List AsmNode) (hnode : IsStatement data node child.lines)
    (hat : At code p.pc (child.lines ++ lines')) (hpc : p.pc = boundaryLine (done ++ child :: rest) done.length)
    (hrbp : p.cpu.reg .rbp = base) (hrsp : p.cpu.reg .rsp = base) :
    ∃ p' args cs, IsPrintln node args ∧ Does rt code child.lines base p p' cs ∧
      Path (Process.step rt code) (BalancedAt (done ++ child :: rest)) p p' ∧
      p'.pc = boundaryLine (done ++ child :: rest) (done.length + 1) ∧
      p'.cpu.reg .rsp = base + 8 * (args.length - 5 : Nat) ∧
      (args.length ≤ 5 → StatementCalls rt data node cs) ∧ ∃ d ∈ cs, d.cpu.reg .rsp = base - 8 := by
  obtain ⟨args, hprint, hlines⟩ := hnode
  obtain ⟨p', creates, c, frees, hdoes, hend, hfollows, hcall⟩ := does_statement rt hcode hlines hat hrbp hrsp
  obtain ⟨hpath, hpc'⟩ := balanced_of_over hdoes.goes hpc (hrsp.trans hrbp.symm)
  exact ⟨p', args, _, hprint, hdoes, hpath, hpc', hend,
    fun hfew => ⟨args, creates, c, frees, hprint, rfl, hfollows hfew⟩, hcall⟩

/-- Statements with few arguments keep the stack balanced. -/
theorem statements_balanced (rt : Runtime σ) (hcode : Labelled code) {rest : List AsmNode}
    (hst : List.Forall₂ (fun node child => IsStatement data node child.lines) nodes rest)
    (hfew : ∀ node ∈ nodes, ∀ args, IsPrintln node args → args.length ≤ 5) (done : List AsmNode)
    (hat : At code p.pc (AsmNode.linesAll rest ++ lines'))
    (hpc : p.pc = boundaryLine (done ++ rest) done.length) (hrbp : p.cpu.reg .rbp = base)
    (hrsp : p.cpu.reg .rsp = base) : ∃ p', ∃ calls : List (List Call),
      Path (Process.step rt code) (BalancedAt (done ++ rest)) p p' ∧
      p'.pc = boundaryLine (done ++ rest) (done ++ rest).length ∧ At code p'.pc lines' ∧
      p'.cpu.reg .rbp = base ∧ p'.cpu.reg .rsp = base ∧ (∀ a, base ≤ a → p'.cpu.mem a = p.cpu.mem a) ∧
      p'.calls = p.calls ++ calls.flatten ∧ Performs rt p.world calls.flatten p'.world ∧
      List.Forall₂ (StatementCalls rt data) nodes calls := by
  induction hst generalizing p done with
  | nil =>
    refine ⟨p, [], .refl p, ?_, hat, hrbp, hrsp, fun _ _ => rfl, (List.append_nil _).symm, .nil _, .nil⟩
    rw [hpc, List.append_nil]
  | @cons node child nodes rest hnode hrest ih =>
    obtain ⟨hfirst, hothers⟩ := List.forall_mem_cons.mp hfew
    rw [AsmNode.linesAll, List.append_assoc] at hat
    obtain ⟨p₁, args, cs, hprint, hdoes, hpath, hpc₁, hend, hfollows, -⟩ :=
      statement_next rt hcode done rest hnode hat hpc hrbp hrsp
    have hargs := hfirst args hprint
    have hrsp₁ : p₁.cpu.reg .rsp = base := by
      rw [hend, show args.length - 5 = 0 by omega, Nat.cast_zero, Int.mul_zero, Int.add_zero]
    have hsplit : done ++ child :: rest = (done ++ [child]) ++ rest := by simp
    rw [hsplit] at hpath hpc₁ ⊢
    obtain ⟨p₂, calls, hpath₂, hpc₂, hat₂, hrbp₂, hrsp₂, hmem, hcalls, hperforms, hall⟩ :=
      ih hothers _ (hdoes.at hat) (hpc₁.trans (by rw [List.length_append]; rfl)) (hdoes.rbp.trans hrbp) hrsp₁
    refine ⟨p₂, cs :: calls, hpath.trans hpath₂, hpc₂, hat₂, hrbp₂, hrsp₂, ?_, ?_, ?_, ?_⟩
    · intro a ha
      rw [hmem a ha, hdoes.mem a ha]
    · rw [hcalls, hdoes.calls, List.flatten_cons, List.append_assoc]
    · exact hdoes.performs.append hperforms
    · exact .cons (hfollows hargs) hall

/-- After the first statement with more arguments the stack pointer is above the frame pointer. -/
theorem statements_unbalanced (rt : Runtime σ) (hcode : Labelled code) {rest : List AsmNode}
    (hst : List.Forall₂ (fun node child => IsStatement data node child.lines) nodes rest)
    (hmany : ∃ node ∈ nodes, ∃ args, IsPrintln node args ∧ 5 < args.length) (done : List AsmNode)
    (hat : At code p.pc (AsmNode.linesAll rest ++ lines'))
    (hpc : p.pc = boundaryLine (done ++ rest) done.length) (hrbp : p.cpu.reg .rbp = base)
    (hrsp : p.cpu.reg .rsp = base) :
    ∃ p', Reaches (Process.step rt code) p p' ∧ ¬ BalancedAt (done ++ rest) p' := by
  induction hst generalizing p done with
  | nil =>
    obtain ⟨node, hnode, -⟩ := hmany
    cases hnode
  | @cons node child nodes rest hnode hrest ih =>
    rw [AsmNode.linesAll, List.append_assoc] at hat
    obtain ⟨p₁, args, cs, hprint, hdoes, hpath, hpc₁, hend, -⟩ :=
      statement_next rt hcode done rest hnode hat hpc hrbp hrsp
    by_cases hargs : args.length ≤ 5
    · have hrsp₁ : p₁.cpu.reg .rsp = base := by
        rw [hend, show args.length - 5 = 0 by omega, Nat.cast_zero, Int.mul_zero, Int.add_zero]
      have hothers : ∃ node ∈ nodes, ∃ args, IsPrintln node args ∧ 5 < args.length := by
        obtain ⟨node', hnode', args', hprint', hlt⟩ := hmany
        rcases List.mem_cons.mp hnode' with rfl | hmem
        · rw [hprint'.args_eq hprint] at hlt
          omega
        · exact ⟨node', hmem, args', hprint', hlt⟩
      have hsplit : done ++ child :: rest = (done ++ [child]) ++ rest := by simp
      rw [hsplit] at hpath hpc₁ ⊢
      obtain ⟨p₂, hreach, hun⟩ :=
        ih hothers _ (hdoes.at hat) (hpc₁.trans (by rw [List.length_append]; rfl)) (hdoes.rbp.trans hrbp) hrsp₁
      exact ⟨p₂, hpath.reaches.trans hreach, hun⟩
    · refine ⟨p₁, hpath.reaches, fun hbal => ?_⟩
      have heq := hbal (done.length + 1) (by rw [List.length_append, List.length_cons]; omega) hpc₁
      rw [hend, hdoes.rbp, hrbp] at heq
      omega

end Blaze
