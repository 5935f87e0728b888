import Blazescript.Codegen.Libblaze
import Blazescript.Codegen.Proofs.ConventionProofs

/-!
# Proofs: the entry and the return of `main`

The run of a program from its entry to the call of `exit`.
-/

namespace Blaze

open Running

variable {σ : Type} {rt : Runtime σ} {data : List AsmDataLbl} {code : List AsmLine} {p p' q : Process σ}
  {nodes : List AstNode} {children : List AsmNode} {base : Int} {cpu : Cpu} {w : σ} {k : Nat}

theorem step_at {line : AsmLine} (h : code[p.pc]? = some line) (hexec : p.exec rt code line = some p') :
    Process.step rt code p = some p' := by
  unfold Process.step
  rw [h]
  exact hexec

/-! ## The entry -/

theorem programLines_at (children : List AsmNode) :
    At (programLines children) 0 (AsmNode.linesAll headNodes) := by
  unfold programLines
  rw [List.append_assoc]
  exact List.prefix_append _ _

/-- The call of `main` from the entry. -/
def mainCall (cpu : Cpu) : Call := ⟨"main", cpu, none⟩

/-- The process in the entry or in the frame of `main`. -/
def Entering (cpu : Cpu) (q : Process σ) : Prop := q.pc < 8 ∧ ∀ c ∈ q.calls, c = mainCall cpu

/-- The process in front of the first statement. -/
structure AtMain (cpu : Cpu) (w : σ) (p : Process σ) : Prop where
  pc : p.pc = 8
  world : p.world = w
  calls : p.calls = [mainCall cpu]
  rsp : p.cpu.reg .rsp = cpu.reg .rsp - 16
  rbp : p.cpu.reg .rbp = cpu.reg .rsp - 16
  frame : p.cpu.mem (cpu.reg .rsp - 16) = cpu.reg .rbp
  address : p.cpu.mem (cpu.reg .rsp - 8) = 3

/-- The entry calls `main`. -/
theorem start_calls (rt : Runtime σ) (children : List AsmNode) (cpu : Cpu) (w : σ) :
    Path (Process.step rt (programLines children)) (Entering cpu)
      (Process.start (programLines children) cpu w) ⟨5, cpu.push 3, w, [mainCall cpu]⟩ := by
  have hat := programLines_at children
  rw [headNodes_lines] at hat
  have hmain : (programLines children).idxOf (.label "main") = 5 := rfl
  have hlabel : AsmLine.label "main" ∈ programLines children :=
    List.mem_of_getElem? hat.tail.tail.tail.tail.tail.first
  have hstart : Process.start (programLines children) cpu w = ⟨1, cpu, w, []⟩ := rfl
  have hcall : Process.call rt (programLines children) ⟨2, cpu, w, []⟩ "main" =
      ⟨5, cpu.push 3, w, [mainCall cpu]⟩ := by
    unfold Process.call
    rw [if_pos hlabel, hmain]
    rfl
  rw [hstart]
  refine .head ⟨(by decide : 1 < 8), fun c hc => absurd hc List.not_mem_nil⟩ (step_at hat.tail.first rfl) ?_
  refine .single ⟨(by decide : 2 < 8), fun c hc => absurd hc List.not_mem_nil⟩ ?_
  exact step_at hat.tail.tail.first (congrArg some hcall)

/-- `main` sets up its frame. -/
theorem main_enters (rt : Runtime σ) (children : List AsmNode) (cpu : Cpu) (w : σ) :
    ∃ p, Path (Process.step rt (programLines children)) (Entering cpu)
      (Process.start (programLines children) cpu w) p ∧ AtMain cpu w p := by
  have hat := programLines_at children
  rw [headNodes_lines] at hat
  have hmain := hat.tail.tail.tail.tail.tail
  have hcalled : ∀ c ∈ [mainCall cpu], c = mainCall cpu := fun c hc => List.mem_singleton.mp hc
  have hrbp : (cpu.push 3).reg .rbp = cpu.reg .rbp := Cpu.push_of_ne (by decide)
  have hframe : ((cpu.push 3).push ((cpu.push 3).reg .rbp)).reg .rsp = cpu.reg .rsp - 16 := by
    rw [Cpu.push_rsp, Cpu.push_rsp]
    omega
  let p₅ : Process σ := ⟨5, cpu.push 3, w, [mainCall cpu]⟩
  let p₆ := p₅.next p₅.cpu
  let p₇ := p₆.next (p₆.cpu.push (p₆.cpu.reg .rbp))
  let p₈ := p₇.next (p₇.cpu.setReg .rbp (p₇.cpu.reg .rsp))
  have hstep₅ : Process.step rt (programLines children) p₅ = some p₆ := step_at hmain.first rfl
  have hstep₆ : Process.step rt (programLines children) p₆ = some p₇ := step_at hmain.tail.first rfl
  have hstep₇ : Process.step rt (programLines children) p₇ = some p₈ := step_at hmain.tail.tail.first rfl
  have hpath : Path (Process.step rt (programLines children)) (Entering cpu) p₅ p₈ :=
    .head ⟨(by decide : 5 < 8), hcalled⟩ hstep₅ (.head ⟨(by decide : 6 < 8), hcalled⟩ hstep₆
      (.single ⟨(by decide : 7 < 8), hcalled⟩ hstep₇))
  refine ⟨p₈, (start_calls rt children cpu w).trans hpath, ?_⟩
  constructor
  · rfl
  · rfl
  · rfl
  · exact (Cpu.setReg_of_ne (by decide)).trans hframe
  · exact Cpu.setReg_self.trans hframe
  · show Function.update (cpu.push 3).mem ((cpu.push 3).reg .rsp - 8) ((cpu.push 3).reg .rbp) _ = _
    rw [Cpu.push_rsp, hrbp, show cpu.reg .rsp - 8 - 8 = cpu.reg .rsp - 16 by omega, Function.update_self]
  · show Function.update (cpu.push 3).mem ((cpu.push 3).reg .rsp - 8) _ _ = _
    rw [Cpu.push_rsp, Function.update_of_ne (by omega), Cpu.push_mem, Function.update_self]

/-! ## The return -/

/-- `main` takes down its frame and returns behind its call. -/
theorem main_returns (rt : Runtime σ) (hat : At code p.pc [popLine .rbp, .instruction .ret []])
    (hrsp : p.cpu.reg .rsp = base) (haddress : p.cpu.mem (base + 8) = 3) :
    ∃ p', Path (Process.step rt code) (fun q => q = p ∨ q.pc = p.pc + 1 ∧ q.calls = p.calls) p p' ∧
      p'.pc = 3 ∧ p'.world = p.world ∧ p'.calls = p.calls ∧ p'.cpu.reg .rsp = base + 16 ∧
      p'.cpu.reg .rbp = p.cpu.mem base := by
  have htop : (p.cpu.pop .rbp).reg .rsp = base + 8 := by
    rw [Cpu.pop_rsp (by decide), hrsp]
  let p₁ := p.next (p.cpu.pop .rbp)
  let p₂ : Process σ := { p₁ with pc := 3, cpu := (p.cpu.pop .rbp).setReg .rsp (base + 16) }
  have hret : p₁.ret = some p₂ := by
    unfold Process.ret
    rw [show p₁.cpu = p.cpu.pop .rbp from rfl, htop, Cpu.pop_mem, haddress, Int.add_assoc]
    rfl
  have hstep : Process.step rt code p = some p₁ := step_at hat.first rfl
  have hstep₁ : Process.step rt code p₁ = some p₂ := step_at hat.tail.first hret
  refine ⟨p₂, .head (.inl rfl) hstep (.single (.inr ⟨rfl, rfl⟩) hstep₁), rfl, rfl, rfl, Cpu.setReg_self, ?_⟩
  show ((p.cpu.pop .rbp).setReg .rsp _).reg .rbp = _
  rw [Cpu.setReg_of_ne (by decide), Cpu.pop_self, hrsp]

/-- After the return of `main` the program ends. -/
theorem entry_exits (rt : Runtime σ) (hcode : Labelled (programLines children)) (hpc : p.pc = 3) :
    ∃ p' c, Path (Process.step rt (programLines children)) (fun q => (q.pc = 3 ∨ q.pc = 4) ∧ q.calls = p.calls)
        p p' ∧ Process.step rt (programLines children) p' = none ∧ p'.pc = (programLines children).length ∧
      p'.world = p.world ∧ p'.calls = p.calls ++ [c] ∧ c.cpu.reg .rsp = p.cpu.reg .rsp := by
  have hat := programLines_at children
  rw [headNodes_lines] at hat
  have hexit := hat.tail.tail.tail
  have hnone : .label "exit" ∉ programLines children := by
    intro hmem
    rcases hcode "exit" hmem with h | h
    · exact absurd h (by decide)
    · exact absurd h (by decide)
  let p₁ := p.next (p.cpu.setReg .rdi 0)
  have hpc₁ : p₁.pc = 4 := congrArg (· + 1) hpc
  have hcall : p₁.call rt (programLines children) "exit" = { p₁ with
      pc := (programLines children).length, calls := p.calls ++ [⟨"exit", p₁.cpu, none⟩] } := by
    unfold Process.call
    rw [if_neg hnone, if_pos rfl]
    rfl
  have hfirst : (programLines children)[p.pc]? = some (movLine (.imm64 0) .rdi) := by
    rw [hpc]
    exact hexit.first
  have hsecond : (programLines children)[p₁.pc]? = some (callLine "exit") := by
    rw [hpc₁]
    exact hexit.tail.first
  refine ⟨_, ⟨"exit", p₁.cpu, none⟩, .head ⟨.inl hpc, rfl⟩ (step_at hfirst rfl)
    (.single ⟨.inr hpc₁, rfl⟩ (step_at hsecond (congrArg some hcall))), ?_, rfl, rfl, rfl,
    Cpu.setReg_of_ne (by decide)⟩
  unfold Process.step
  rw [List.getElem?_eq_none (Nat.le_refl _)]
  rfl

/-! ## The whole run -/

theorem body_at (children : List AsmNode) :
    At (programLines children) 8 (AsmNode.linesAll children ++ AsmNode.linesAll tailNodes) := by
  have hall : At (programLines children) 0 (programLines children) := List.prefix_refl _
  unfold programLines at hall
  rw [List.append_assoc] at hall
  exact hall.right

theorem boundaryLine_lt (hk : k ≤ children.length) : 8 ≤ boundaryLine children k ∧
    boundaryLine children k ≤ boundaryLine children children.length ∧
    boundaryLine children children.length + 2 = (programLines children).length := by
  refine ⟨Nat.le_add_right _ _, boundaryLine_mono hk, ?_⟩
  unfold boundaryLine programLines
  rw [List.take_length, List.length_append, List.length_append, headNodes_lines, tailNodes_lines]
  rfl

theorem Entering.balanced (h : Entering cpu q) : BalancedAt children q := by
  intro k hk hq
  have hlt := h.1
  have hle := (boundaryLine_lt hk).1
  omega

/-- A run of a program: to the return of `main`, and from there to the end. -/
structure RunsThrough (rt : Runtime σ) (data : List AsmDataLbl) (nodes : List AstNode) (children : List AsmNode)
    (cpu : Cpu) (w : σ) (returned final : Process σ) (calls : List (List Call)) : Prop where
  path : Path (Process.step rt (programLines children)) (BalancedAt children)
    (Process.start (programLines children) cpu w) returned
  pc : returned.pc = 3
  rsp : returned.cpu.reg .rsp = cpu.reg .rsp
  rbp : returned.cpu.reg .rbp = cpu.reg .rbp
  called : returned.calls = mainCall cpu :: calls.flatten
  performs : Performs rt w calls.flatten returned.world
  follows : List.Forall₂ (StatementCalls rt data) nodes calls
  exits : Path (Process.step rt (programLines children)) (BalancedAt children) returned final
  stuck : Process.step rt (programLines children) final = none
  end_pc : final.pc = (programLines children).length
  world : final.world = returned.world

/-- A program of statements with few arguments completes. -/
theorem program_completes (rt : Runtime σ)
    (hst : List.Forall₂ (fun node child => IsStatement data node child.lines) nodes children)
    (hfew : ∀ node ∈ nodes, ∀ args, IsPrintln node args → args.length ≤ 5) (cpu : Cpu) (w : σ) :
    ∃ returned final calls, RunsThrough rt data nodes children cpu w returned final calls := by
  have hcode := programLines_labelled hst
  obtain ⟨p₁, hpath₁, hmain⟩ := main_enters rt children cpu w
  have hat := body_at children
  rw [← hmain.pc] at hat
  obtain ⟨p₂, calls, hpath₂, hpc₂, hat₂, hrbp₂, hrsp₂, hmem₂, hcalls₂, hperforms, hfollows⟩ :=
    statements_balanced rt hcode hst hfew [] hat hmain.pc hmain.rbp hmain.rsp
  rw [List.nil_append] at hpath₂ hpc₂
  have haddress : p₂.cpu.mem (cpu.reg .rsp - 16 + 8) = 3 := by
    rw [hmem₂ _ (by omega), show cpu.reg .rsp - 16 + 8 = cpu.reg .rsp - 8 by omega, hmain.address]
  obtain ⟨p₃, hpath₃, hpc₃, hworld₃, hcalls₃, hrsp₃, hrbp₃⟩ := main_returns rt hat₂ hrsp₂ haddress
  obtain ⟨p₄, c, hpath₄, hstuck, hpc₄, hworld₄, -, -⟩ := entry_exits rt hcode hpc₃
  refine ⟨p₃, p₄, calls, ?_⟩
  constructor
  · refine (hpath₁.mono fun q hq => hq.balanced).trans (hpath₂.trans (hpath₃.mono ?_))
    intro q hq k hk hpc
    rcases hq with rfl | ⟨hnext, -⟩
    · rw [hrsp₂, hrbp₂]
    · have hle := (boundaryLine_lt hk).2.1
      omega
  · exact hpc₃
  · rw [hrsp₃]
    omega
  · rw [hrbp₃, hmem₂ _ (Int.le_refl _), hmain.frame]
  · rw [hcalls₃, hcalls₂, hmain.calls]
    rfl
  · rw [hworld₃, ← hmain.world]
    exact hperforms
  · exact hfollows
  · refine hpath₄.mono ?_
    rintro q ⟨hq, -⟩ k hk hpc
    have hle := (boundaryLine_lt hk).1
    omega
  · exact hstuck
  · exact hpc₄
  · exact hworld₄

/-- A program of statements with few arguments keeps the convention. -/
theorem program_keeps (rt : Runtime σ)
    (hst : List.Forall₂ (fun node child => IsStatement data node child.lines) nodes children)
    (hfew : ∀ node ∈ nodes, ∀ args, IsPrintln node args → args.length ≤ 5) (cpu : Cpu) (w : σ) :
    KeepsConvention rt nodes (.root (headNodes ++ children ++ tailNodes)) data cpu w := by
  obtain ⟨returned, final, calls, h⟩ := program_completes rt hst hfew cpu w
  unfold KeepsConvention
  rw [root_lines]
  refine ⟨?_, returned, mainCall cpu, calls, h.path.reaches, h.pc, h.rsp, h.rbp, h.called, rfl, h.follows⟩
  intro q hq k hk hpc
  rw [hst.length_eq] at hk
  rw [boundary_eq hk] at hpc
  rcases (h.path.trans h.exits).split hq with hbalanced | hfinal
  · exact hbalanced k hk hpc
  · rw [Reaches.of_stuck h.stuck hfinal, h.end_pc] at hpc
    obtain ⟨-, hle, hend⟩ := boundaryLine_lt hk
    omega

/-- A statement with more arguments leaves the stack unbalanced. -/
theorem program_breaks (rt : Runtime σ)
    (hst : List.Forall₂ (fun node child => IsStatement data node child.lines) nodes children)
    (hmany : ∃ node ∈ nodes, ∃ args, IsPrintln node args ∧ 5 < args.length) (cpu : Cpu) (w : σ) :
    ¬ KeepsConvention rt nodes (.root (headNodes ++ children ++ tailNodes)) data cpu w := by
  have hcode := programLines_labelled hst
  obtain ⟨p₁, hpath₁, hmain⟩ := main_enters rt children cpu w
  have hat := body_at children
  rw [← hmain.pc] at hat
  obtain ⟨p₂, hreach, hun⟩ := statements_unbalanced rt hcode hst hmany [] hat hmain.pc hmain.rbp hmain.rsp
  rw [List.nil_append] at hun
  intro hkeeps
  have hbalanced := hkeeps.1
  rw [root_lines] at hbalanced
  refine hun fun k hk hpc => hbalanced p₂ (hpath₁.reaches.trans hreach) k ?_ ?_
  · rw [hst.length_eq]
    exact hk
  · rw [boundary_eq hk]
    exact hpc

/-- The code keeps the convention if and only if every call has at most five arguments. -/
theorem x8664Compile_convention (pos : Pos) (nodes : List AstNode)
    (h : ∀ node ∈ nodes, ∃ args, IsPrintln node args) (context : CompilationContext) :
    ∃ root context', x8664Compile (.root pos nodes) context = .ok root context' ∧
      ∀ (σ : Type) (rt : Runtime σ) (cpu : Cpu) (w : σ),
        KeepsConvention rt nodes root context'.asmData cpu w ↔
          ∀ node ∈ nodes, ∀ args, IsPrintln node args → args.length ≤ 5 := by
  have hroot : ∀ node ∈ nodes, node.type ≠ 0 := by
    intro node hnode
    obtain ⟨args, ⟨pos', hlits⟩⟩ := h node hnode
    exact Nat.succ_ne_zero _
  obtain ⟨root, context', hcompile⟩ := compileRoot_literals pos h context
  obtain ⟨children, rfl, -, hst⟩ := compileRoot_ok hroot hcompile
  refine ⟨_, context', hcompile, fun σ rt cpu w => ⟨?_, fun hfew => program_keeps rt hst hfew cpu w⟩⟩
  intro hkeeps node hnode args hprint
  by_contra hmany
  exact program_breaks rt hst ⟨node, hnode, args, hprint, by omega⟩ cpu w hkeeps

theorem compile_println (args : List AstNode) (h : ∀ arg ∈ args, arg.IsLiteral) (context : CompilationContext) :
    ∃ children context', x8664Compile (.root .unknown [.exprCall .unknown "println" args]) context =
        .ok (.root (headNodes ++ children ++ tailNodes)) context' ∧
      List.Forall₂ (fun node child => IsStatement context'.asmData node child.lines)
        [.exprCall .unknown "println" args] children := by
  have hprint : ∀ node ∈ [AstNode.exprCall .unknown "println" args], ∃ args, IsPrintln node args := by
    intro node hnode
    rw [List.mem_singleton.mp hnode]
    exact ⟨args, .mk .unknown h⟩
  have hroot : ∀ node ∈ [AstNode.exprCall .unknown "println" args], node.type ≠ 0 := by
    intro node hnode
    rw [List.mem_singleton.mp hnode]
    exact Nat.succ_ne_zero _
  obtain ⟨root, context', hcompile⟩ := compileRoot_literals .unknown hprint context
  obtain ⟨children, rfl, -, hst⟩ := compileRoot_ok hroot hcompile
  exact ⟨children, context', hcompile, hst⟩

/-- A call with two arguments. -/
theorem x8664Compile_convention_two : ∃ root context', x8664Compile (.root .unknown
      [.exprCall .unknown "println" [.string .unknown "a", .intLit .unknown 7]]) compilationContextCreate =
        .ok root context' ∧
    (KeepsConvention (libblaze context'.asmData fun _ cpu => cpu)
        [.exprCall .unknown "println" [.string .unknown "a", .intLit .unknown 7]] root context'.asmData
        ⟨fun _ => 0, fun _ => 0⟩ (some ⟨.empty, []⟩) ↔
      ∀ node ∈ [AstNode.exprCall .unknown "println" [.string .unknown "a", .intLit .unknown 7]],
        ∀ args, IsPrintln node args → args.length ≤ 5) := by
  have hprint : ∀ node ∈ [AstNode.exprCall .unknown "println" [.string .unknown "a", .intLit .unknown 7]],
      ∃ args, IsPrintln node args := by
    intro node hnode
    rw [List.mem_singleton.mp hnode]
    exact ⟨_, .mk .unknown (by simp [AstNode.IsLiteral])⟩
  obtain ⟨root, context', hcompile, hkeeps⟩ :=
    x8664Compile_convention .unknown _ hprint compilationContextCreate
  exact ⟨root, context', hcompile, hkeeps _ _ _ _⟩

/-- A call with six arguments leaves the stack pointer above the frame pointer. -/
theorem x8664Compile_convention_six : ∃ root context', x8664Compile (.root .unknown
      [.exprCall .unknown "println" (List.replicate 6 (.intLit .unknown 7))]) compilationContextCreate =
        .ok root context' ∧
    ¬ KeepsConvention (libblaze context'.asmData fun _ cpu => cpu)
      [.exprCall .unknown "println" (List.replicate 6 (.intLit .unknown 7))] root context'.asmData
      ⟨fun _ => 0, fun _ => 0⟩ (some ⟨.empty, []⟩) := by
  have hlits : ∀ arg ∈ List.replicate 6 (AstNode.intLit .unknown 7), arg.IsLiteral := by
    intro arg harg
    rw [List.eq_of_mem_replicate harg]
    exact trivial
  obtain ⟨children, context', hcompile, hst⟩ := compile_println _ hlits compilationContextCreate
  exact ⟨_, context', hcompile,
    program_breaks _ hst ⟨_, List.mem_cons_self, _, .mk .unknown hlits, by decide⟩ _ _⟩

/-! ## Alignment -/

/-- The first statement makes a call with the stack pointer three words below that of the entry. -/
theorem statement_misaligned (rt : Runtime σ) {node : AstNode}
    (hst : List.Forall₂ (fun node child => IsStatement data node child.lines) (node :: nodes) children)
    (cpu : Cpu) (w : σ) :
    ∃ p, Reaches (Process.step rt (programLines children)) (Process.start (programLines children) cpu w) p ∧
      ∃ c ∈ p.calls, c.cpu.reg .rsp = cpu.reg .rsp - 24 := by
  have hcode := programLines_labelled hst
  obtain ⟨p₁, hpath₁, hmain⟩ := main_enters rt children cpu w
  have hat := body_at children
  rw [← hmain.pc] at hat
  cases hst with
  | @cons _ child _ rest hnode hrest =>
    rw [AsmNode.linesAll, List.append_assoc] at hat
    obtain ⟨p₂, args, cs, -, hdoes, hpath₂, -, -, -, c, hc, hrsp⟩ :=
      statement_next rt hcode [] rest hnode hat hmain.pc hmain.rbp hmain.rsp
    refine ⟨p₂, hpath₁.reaches.trans hpath₂.reaches, c, ?_, ?_⟩
    · rw [hdoes.calls]
      exact List.mem_append_right _ hc
    · rw [hrsp]
      omega

/-- The empty program calls `main` and `exit` with the stack pointer of its entry. -/
theorem empty_aligned (rt : Runtime σ) (cpu : Cpu) (w : σ) (haligned : 16 ∣ cpu.reg .rsp)
    (hp : Reaches (Process.step rt (programLines [])) (Process.start (programLines []) cpu w) p) :
    ∀ c ∈ p.calls, 16 ∣ c.cpu.reg .rsp := by
  have hst : List.Forall₂ (fun node (child : AsmNode) => IsStatement [] node child.lines) [] [] := .nil
  have hcode := programLines_labelled hst
  obtain ⟨p₁, hpath₁, hmain⟩ := main_enters rt [] cpu w
  have hat := body_at []
  rw [← hmain.pc] at hat
  have haddress : p₁.cpu.mem (cpu.reg .rsp - 16 + 8) = 3 := by
    rw [show cpu.reg .rsp - 16 + 8 = cpu.reg .rsp - 8 by omega, hmain.address]
  obtain ⟨p₂, hpath₂, hpc₂, -, hcalls₂, hrsp₂, -⟩ := main_returns rt hat hmain.rsp haddress
  obtain ⟨p₃, c, hpath₃, hstuck, -, -, hcalls₃, hrsp₃⟩ := entry_exits rt hcode hpc₂
  have hentry : ∀ d ∈ [mainCall cpu], 16 ∣ d.cpu.reg .rsp := by
    intro d hd
    rw [List.mem_singleton.mp hd]
    exact haligned
  have hpath : Path (Process.step rt (programLines [])) (fun q => ∀ d ∈ q.calls, 16 ∣ d.cpu.reg .rsp)
      (Process.start (programLines []) cpu w) p₃ := by
    refine (hpath₁.mono ?_).trans ((hpath₂.mono ?_).trans (hpath₃.mono ?_))
    · rintro q ⟨-, hq⟩ d hd
      rw [hq d hd]
      exact haligned
    · rintro q (rfl | ⟨-, hq⟩)
      · rw [hmain.calls]
        exact hentry
      · rw [hq, hmain.calls]
        exact hentry
    · rintro q ⟨-, hq⟩
      rw [hq, hcalls₂, hmain.calls]
      exact hentry
  rcases hpath.split hp with h | h
  · exact h
  · rw [Reaches.of_stuck hstuck h, hcalls₃, hcalls₂, hmain.calls]
    intro d hd
    rcases List.mem_append.mp hd with hd | hd
    · exact hentry d hd
    · rw [List.mem_singleton.mp hd, hrsp₃, hrsp₂]
      omega

/-- The stack is aligned at every call if and only if the program is empty. -/
theorem x8664Compile_aligned (rt : Runtime σ) {pos : Pos} {context context' : CompilationContext} {root : AsmNode}
    (hroot : ∀ node ∈ nodes, node.type ≠ 0) (h : x8664Compile (.root pos nodes) context = .ok root context')
    (cpu : Cpu) (w : σ) (haligned : 16 ∣ cpu.reg .rsp) : AlignedAtCalls rt root cpu w ↔ nodes = [] := by
  obtain ⟨children, rfl, -, hst⟩ := compileRoot_ok hroot h
  unfold AlignedAtCalls
  rw [root_lines]
  constructor
  · intro hcalls
    cases nodes with
    | nil => rfl
    | cons node nodes =>
      obtain ⟨p, hp, c, hc, hrsp⟩ := statement_misaligned rt hst cpu w
      have hdvd := hcalls p hp c hc
      omega
  · rintro rfl p hp
    cases hst
    exact empty_aligned rt cpu w haligned hp

/-- A program of one call. -/
theorem x8664Compile_aligned_one : ∃ root context', x8664Compile (.root .unknown
      [.exprCall .unknown "println" [.intLit .unknown 7]]) compilationContextCreate = .ok root context' ∧
    (AlignedAtCalls (libblaze context'.asmData fun _ cpu => cpu) root ⟨fun _ => 0, fun _ => 0⟩
        (some ⟨.empty, []⟩) ↔ [AstNode.exprCall .unknown "println" [.intLit .unknown 7]] = []) := by
  obtain ⟨children, context', hcompile, -⟩ :=
    compile_println [.intLit .unknown 7] (by simp [AstNode.IsLiteral]) compilationContextCreate
  exact ⟨_, context', hcompile,
    x8664Compile_aligned _ (by simp [AstNode.type]) hcompile _ _ (Int.dvd_zero 16)⟩

/-- It calls a function of the library with the stack pointer 24 bytes below an aligned one. -/
theorem x8664Compile_misaligned : ∃ root context', x8664Compile (.root .unknown
      [.exprCall .unknown "println" [.intLit .unknown 7]]) compilationContextCreate = .ok root context' ∧
    ¬ AlignedAtCalls (libblaze context'.asmData fun _ cpu => cpu) root ⟨fun _ => 0, fun _ => 0⟩
        (some ⟨.empty, []⟩) := by
  obtain ⟨children, context', hcompile, hst⟩ :=
    compile_println [.intLit .unknown 7] (by simp [AstNode.IsLiteral]) compilationContextCreate
  obtain ⟨p, hp, c, hc, hrsp⟩ := statement_misaligned (libblaze context'.asmData fun _ cpu => cpu) hst
    ⟨fun _ => 0, fun _ => 0⟩ (some ⟨.empty, []⟩)
  refine ⟨_, context', hcompile, fun haligned => ?_⟩
  rw [← root_lines] at hp
  have hdvd := haligned p hp c hc
  rw [hrsp] at hdvd
  exact absurd hdvd (by decide)

end Blaze
