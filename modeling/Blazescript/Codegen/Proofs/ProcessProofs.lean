import Mathlib.Data.List.Infix
import Blazescript.Codegen.Convention
import Blazescript.Running.Proofs.PathProofs
import Blazescript.Running.Proofs.PushedProofs

/-!
# Proofs: straight runs

A line that is no call of a function of the code, and no return, leads to the next one.
-/

namespace Blaze

open Running

variable {σ : Type} {rt : Runtime σ} {code lines lines' : List AsmLine} {line : AsmLine} {p p' p'' : Process σ}
  {pc : Nat} {r : AsmRegister}

/-! ## Registers -/

namespace Cpu

variable {cpu : Cpu} {v : Int}

@[simp] theorem setReg_self : (cpu.setReg r v).reg r = v := by
  unfold setReg
  exact Function.update_self r v cpu.reg

theorem setReg_of_ne {r' : AsmRegister} (h : r' ≠ r) : (cpu.setReg r v).reg r' = cpu.reg r' := by
  unfold setReg
  exact Function.update_of_ne h v cpu.reg

@[simp] theorem setReg_mem : (cpu.setReg r v).mem = cpu.mem := rfl

@[simp] theorem push_rsp : (cpu.push v).reg .rsp = cpu.reg .rsp - 8 :=
  Function.update_self AsmRegister.rsp _ cpu.reg

theorem push_of_ne (h : r ≠ .rsp) : (cpu.push v).reg r = cpu.reg r := Function.update_of_ne h _ cpu.reg

@[simp] theorem push_mem : (cpu.push v).mem = Function.update cpu.mem (cpu.reg .rsp - 8) v := rfl

@[simp] theorem pop_self : (cpu.pop r).reg r = cpu.mem (cpu.reg .rsp) := setReg_self

theorem pop_of_ne {r' : AsmRegister} (h : r' ≠ r) (hrsp : r' ≠ .rsp) : (cpu.pop r).reg r' = cpu.reg r' := by
  unfold pop
  rw [setReg_of_ne h, setReg_of_ne hrsp]

theorem pop_rsp (h : r ≠ .rsp) : (cpu.pop r).reg .rsp = cpu.reg .rsp + 8 := by
  unfold pop
  rw [setReg_of_ne h.symm, setReg_self]

@[simp] theorem pop_mem : (cpu.pop r).mem = cpu.mem := rfl

end Cpu

/-! ## Lines in the code -/

/-- The code has some lines from a place on. -/
def At (code : List AsmLine) (pc : Nat) (lines : List AsmLine) : Prop := lines <+: code.drop pc

theorem At.first (h : At code pc (line :: lines)) : code[pc]? = some line := by
  obtain ⟨rest, hrest⟩ := h
  rw [← List.head?_drop, ← hrest]
  rfl

theorem At.tail (h : At code pc (line :: lines)) : At code (pc + 1) lines := by
  obtain ⟨rest, hrest⟩ := h
  refine ⟨rest, ?_⟩
  rw [← List.drop_drop, ← hrest]
  rfl

theorem At.right (h : At code pc (lines ++ lines')) : At code (pc + lines.length) lines' := by
  obtain ⟨rest, hrest⟩ := h
  refine ⟨rest, ?_⟩
  rw [← List.drop_drop, ← hrest, List.append_assoc, List.drop_left]

/-! ## Runs over lines -/

/-- The process goes over some lines, one after the other. -/
structure Over (rt : Runtime σ) (code lines : List AsmLine) (p p' : Process σ) : Prop where
  path : Path (Process.step rt code)
    (fun q => p.pc ≤ q.pc ∧ q.pc < p.pc + lines.length ∧ (q.pc = p.pc → q = p)) p p'
  pc : p'.pc = p.pc + lines.length
  same : lines = [] → p' = p

theorem Over.refl (p : Process σ) : Over rt code [] p p := ⟨.refl p, rfl, fun _ => rfl⟩

theorem Over.trans (h : Over rt code lines p p') (h' : Over rt code lines' p' p'') :
    Over rt code (lines ++ lines') p p'' := by
  have hpc := h.pc
  have hpc' := h'.pc
  refine ⟨(h.path.mono ?_).trans (h'.path.mono ?_), ?_, ?_⟩
  · rintro q ⟨hle, hlt, hsame⟩
    rw [List.length_append]
    exact ⟨hle, by omega, hsame⟩
  · rintro q ⟨hle, hlt, hsame⟩
    rw [List.length_append]
    refine ⟨by omega, by omega, ?_⟩
    intro hq
    have hnil : lines = [] := List.length_eq_zero_iff.mp (by omega)
    rw [← h.same hnil]
    exact hsame (by omega)
  · rw [hpc', hpc, List.length_append, Nat.add_assoc]
  · intro hnil
    rw [List.append_eq_nil_iff] at hnil
    rw [h'.same hnil.2, h.same hnil.1]

/-- A line that leads to the next one. -/
theorem Over.single (hat : At code p.pc (line :: lines)) (h : p.exec rt code line = some p')
    (hpc : p'.pc = p.pc + 1) : Over rt code [line] p p' := by
  refine ⟨.single ⟨Nat.le_refl _, Nat.lt_succ_self _, fun _ => rfl⟩ ?_, hpc, fun hnil => nomatch hnil⟩
  unfold Process.step
  rw [hat.first]
  exact h

theorem over_mov {src : AsmOperand} {v : Int} (hat : At code p.pc (movLine src r :: lines))
    (hv : Process.value rt p.cpu src = some v) :
    Over rt code [movLine src r] p (p.next (p.cpu.setReg r v)) := by
  refine Over.single hat ?_ rfl
  show (Process.value rt p.cpu src).map _ = _
  rw [hv]
  rfl

theorem over_push (hat : At code p.pc (pushLine r :: lines)) :
    Over rt code [pushLine r] p (p.next (p.cpu.push (p.cpu.reg r))) := Over.single hat rfl rfl

theorem over_pop (hat : At code p.pc (popLine r :: lines)) :
    Over rt code [popLine r] p (p.next (p.cpu.pop r)) := Over.single hat rfl rfl

theorem over_add {immediate : Int} (hat : At code p.pc (addLine immediate r :: lines)) :
    Over rt code [addLine immediate r] p (p.next (p.cpu.setReg r (p.cpu.reg r + immediate))) :=
  Over.single hat rfl rfl

/-- The process after a call of a function of the library. -/
def Process.returned (rt : Runtime σ) (p : Process σ) (f : String) : Process σ where
  pc := p.pc + 1
  cpu := (rt.call f p.cpu p.world).1
  world := (rt.call f p.cpu p.world).2
  calls := p.calls ++ [⟨f, p.cpu, some ((rt.call f p.cpu p.world).1.reg .rax)⟩]

theorem over_call {f : String} (hat : At code p.pc (callLine f :: lines)) (hf : .label f ∉ code)
    (hexit : f ≠ "exit") : Over rt code [callLine f] p (p.returned rt f) := by
  refine Over.single hat ?_ rfl
  show some (p.call rt code f) = _
  unfold Process.call
  rw [if_neg hf, if_neg hexit]
  rfl

theorem performs_returned (rt : Runtime σ) (p : Process σ) (f : String) :
    Performs rt p.world [⟨f, p.cpu, some ((rt.call f p.cpu p.world).1.reg .rax)⟩] (p.returned rt f).world :=
  .cons rfl rfl (.nil _)

theorem Performs.append {w w' w'' : σ} {cs cs' : List Call} (h : Performs rt w cs w') (h' : Performs rt w' cs' w'') :
    Performs rt w (cs ++ cs') w'' := by
  induction h with
  | nil w => exact h'
  | cons hcall hret _ ih => exact .cons hcall hret (ih h')

end Blaze
