import Mathlib.Data.List.Forall2
import Blazescript.Codegen.Proofs.ProcessProofs

/-!
# Proofs: the code of a statement

It pushes the number of the arguments and the arguments, loads the registers from the stack, calls `println`,
and frees the arguments while it pops them. What it adds to the stack pointer for arguments that stay on the
stack is too much by these.
-/

namespace Blaze

open Running

variable {σ : Type} {rt : Runtime σ} {data : List AsmDataLbl} {code lines lines' : List AsmLine} {p p' p'' : Process σ}
  {args : List AstNode} {base : Int} {vs ws : List Int} {f : String}

/-- The words on the stack. -/
abbrev Holds (p : Process σ) (base : Int) (vs : List Int) : Prop :=
  Pushed 8 p.cpu.mem base (p.cpu.reg .rsp) vs

theorem Holds.le (h : Holds p base vs) : p.cpu.reg .rsp ≤ base := by
  have htop := h.top
  omega

/-- The process goes over some lines with some calls. The frame stays, and what lies at the base of the stack
and above. -/
structure Does (rt : Runtime σ) (code lines : List AsmLine) (base : Int) (p p' : Process σ) (cs : List Call) :
    Prop where
  goes : Over rt code lines p p'
  rbp : p'.cpu.reg .rbp = p.cpu.reg .rbp
  mem : ∀ a, base ≤ a → p'.cpu.mem a = p.cpu.mem a
  calls : p'.calls = p.calls ++ cs
  performs : Performs rt p.world cs p'.world

theorem Does.refl (base : Int) (p : Process σ) : Does rt code [] base p p [] :=
  ⟨.refl p, rfl, fun _ _ => rfl, (List.append_nil _).symm, .nil _⟩

theorem Does.trans {cs cs' : List Call} (h : Does rt code lines base p p' cs)
    (h' : Does rt code lines' base p' p'' cs') : Does rt code (lines ++ lines') base p p'' (cs ++ cs') := by
  refine ⟨h.goes.trans h'.goes, h'.rbp.trans h.rbp, ?_, ?_, h.performs.append h'.performs⟩
  · intro a ha
    rw [h'.mem a ha, h.mem a ha]
  · rw [h'.calls, h.calls, List.append_assoc]

theorem Does.at {cs : List Call} (h : Does rt code lines base p p' cs) (hat : At code p.pc (lines ++ lines')) :
    At code p'.pc lines' := by
  rw [h.goes.pc]
  exact hat.right

/-! ## Single lines -/

theorem does_mov (rt : Runtime σ) {src : AsmOperand} {r : AsmRegister} {v : Int} (hat : At code p.pc (movLine src r :: lines))
    (hv : Process.value rt p.cpu src = some v) (hs : Holds p base vs) (hr : r ≠ .rsp) (hrbp : r ≠ .rbp) :
    ∃ p', Does rt code [movLine src r] base p p' [] ∧ Holds p' base vs ∧ p'.cpu = p.cpu.setReg r v := by
  refine ⟨p.next (p.cpu.setReg r v), ⟨over_mov hat hv, Cpu.setReg_of_ne hrbp.symm, fun _ _ => rfl,
    (List.append_nil _).symm, .nil _⟩, ?_, rfl⟩
  show Pushed 8 p.cpu.mem base ((p.cpu.setReg r v).reg .rsp) vs
  rw [Cpu.setReg_of_ne hr.symm]
  exact hs

theorem does_push (rt : Runtime σ) {r : AsmRegister} (hat : At code p.pc (pushLine r :: lines)) (hs : Holds p base vs) :
    ∃ p', Does rt code [pushLine r] base p p' [] ∧ Holds p' base (vs ++ [p.cpu.reg r]) := by
  have hle := hs.le
  refine ⟨p.next (p.cpu.push (p.cpu.reg r)), ⟨over_push hat, Cpu.push_of_ne (by decide), ?_,
    (List.append_nil _).symm, .nil _⟩, ?_⟩
  · intro a ha
    show (p.cpu.push (p.cpu.reg r)).mem a = _
    rw [Cpu.push_mem, Function.update_of_ne (by omega)]
  · have hpush := hs.push (by decide) (p.cpu.reg r)
    show Pushed 8 (p.cpu.push (p.cpu.reg r)).mem base ((p.cpu.push (p.cpu.reg r)).reg .rsp) _
    rw [Cpu.push_rsp, Cpu.push_mem]
    exact hpush

theorem does_pop (rt : Runtime σ) {r : AsmRegister} {v : Int} (hat : At code p.pc (popLine r :: lines))
    (hs : Holds p base (vs ++ [v])) (hr : r ≠ .rsp) (hrbp : r ≠ .rbp) :
    ∃ p', Does rt code [popLine r] base p p' [] ∧ Holds p' base vs ∧ p'.cpu.reg r = v := by
  obtain ⟨htop, hpop⟩ := hs.pop
  refine ⟨p.next (p.cpu.pop r), ⟨over_pop hat, Cpu.pop_of_ne hrbp.symm (by decide), fun _ _ => rfl,
    (List.append_nil _).symm, .nil _⟩, ?_, ?_⟩
  · show Pushed 8 (p.cpu.pop r).mem base ((p.cpu.pop r).reg .rsp) vs
    rw [Cpu.pop_rsp hr, Cpu.pop_mem]
    exact hpop
  · show (p.cpu.pop r).reg r = v
    rw [Cpu.pop_self, htop]

/-- The only functions of the code are its entry and `main`. -/
def Labelled (code : List AsmLine) : Prop := ∀ f, AsmLine.label f ∈ code → f = "_start" ∨ f = "main"

theorem does_call (rt : Runtime σ) (hcode : Labelled code) (hat : At code p.pc (callLine f :: lines)) (hs : Holds p base vs)
    (hf : f ≠ "_start" ∧ f ≠ "main" ∧ f ≠ "exit") : ∃ p' c, Does rt code [callLine f] base p p' [c] ∧
      Holds p' base vs ∧ c.name = f ∧ c.cpu = p.cpu ∧ c.ret = some (p'.cpu.reg .rax) := by
  have hlib : AsmLine.label f ∉ code := fun hmem => (hcode f hmem).elim hf.1 hf.2.1
  have hrsp : (p.returned rt f).cpu.reg .rsp = p.cpu.reg .rsp := rt.keeps f p.cpu p.world .rsp (by decide)
  have hmem : ∀ a, p.cpu.reg .rsp ≤ a → (p.returned rt f).cpu.mem a = p.cpu.mem a :=
    rt.keepsStack f p.cpu p.world
  refine ⟨p.returned rt f, _, ⟨over_call hat hlib hf.2.2, rt.keeps f p.cpu p.world .rbp (by decide), ?_, rfl,
    performs_returned rt p f⟩, ?_, rfl, rfl, rfl⟩
  · exact fun a ha => hmem a (Int.le_trans hs.le ha)
  · unfold Holds
    rw [hrsp]
    exact hs.congr (by decide) hmem

/-! ## Arguments -/

theorem value_creation (rt : Runtime σ) {operand : AsmOperand} {arg : AstNode}
    (h : Creation data arg operand f) : ∃ v, ∀ cpu, Process.value rt cpu operand = some v := by
  cases h with
  | intLit pos intval => exact ⟨_, fun _ => rfl⟩
  | string pos strval label hmem => exact ⟨_, fun _ => rfl⟩

theorem creation_name {operand : AsmOperand} {arg : AstNode} (h : Creation data arg operand f) :
    f ≠ "_start" ∧ f ≠ "main" ∧ f ≠ "exit" := by
  cases h <;> decide

/-- The value of an argument is made and pushed. -/
theorem does_arg (rt : Runtime σ) (hcode : Labelled code) {operand : AsmOperand} {arg : AstNode}
    (h : Creation data arg operand f)
    (hat : At code p.pc (movLine operand .rdi :: callLine f :: pushLine .rax :: lines)) (hs : Holds p base vs) :
    ∃ p' c v, Does rt code [movLine operand .rdi, callLine f, pushLine .rax] base p p' [c] ∧
      Holds p' base (vs ++ [v]) ∧ CreatedBy rt data arg c ∧ c.ret = some v ∧
      c.cpu.reg .rsp = p.cpu.reg .rsp := by
  obtain ⟨v, hv⟩ := value_creation rt h
  obtain ⟨p₁, hd₁, hs₁, hcpu₁⟩ := does_mov rt hat (hv p.cpu) hs (by decide) (by decide)
  have hat₁ : At code p₁.pc (callLine f :: pushLine .rax :: lines) := hd₁.at hat
  obtain ⟨p₂, c, hd₂, hs₂, hname, hcpu, hret⟩ := does_call rt hcode hat₁ hs₁ (creation_name h)
  have hat₂ : At code p₂.pc (pushLine .rax :: lines) := hd₂.at hat₁
  obtain ⟨p₃, hd₃, hs₃⟩ := does_push rt hat₂ hs₂
  refine ⟨p₃, c, p₂.cpu.reg .rax, (hd₁.trans hd₂).trans hd₃, hs₃, ⟨operand, f, h, hname, ?_⟩, hret, ?_⟩
  · rw [hv, hcpu, hcpu₁]
    exact congrArg some Cpu.setReg_self.symm
  · rw [hcpu, hcpu₁, Cpu.setReg_of_ne (by decide)]

/-- The values of the arguments are made and pushed, in their order. -/
theorem does_args (rt : Runtime σ) (hcode : Labelled code) (ha : ArgLines data args lines)
    (hat : At code p.pc (lines ++ lines')) (hs : Holds p base vs) :
    ∃ p' creates ws, Does rt code lines base p p' creates ∧ Holds p' base (vs ++ ws) ∧
      List.Forall₂ (CreatedBy rt data) args creates ∧ creates.map Call.ret = ws.map some ∧
      ∀ c ∈ creates.head?, c.cpu.reg .rsp = p.cpu.reg .rsp := by
  induction ha generalizing p vs with
  | nil =>
    refine ⟨p, [], [], .refl base p, ?_, .nil, rfl, ?_⟩
    · rwa [List.append_nil]
    · intro c hc
      cases hc
  | cons h hrest ih =>
    obtain ⟨p₁, c, v, hd₁, hs₁, hc, hret, hrsp⟩ := does_arg rt hcode h hat hs
    obtain ⟨p₂, creates, ws, hd₂, hs₂, hcreates, hrets, -⟩ := ih (hd₁.at hat) hs₁
    refine ⟨p₂, c :: creates, v :: ws, hd₁.trans hd₂, ?_, .cons hc hcreates, ?_, ?_⟩
    · rwa [List.append_assoc] at hs₂
    · rw [List.map_cons, List.map_cons, hret, hrets]
    · intro d hd
      cases hd
      exact hrsp

/-! ## Registers -/

theorem argRegister_injective : ∀ i < 6, ∀ j < 6, argRegister i = argRegister j → i = j := by decide

theorem argRegister_ne (i : Nat) : argRegister i ≠ .rsp ∧ argRegister i ≠ .rbp := by
  unfold argRegister
  split <;> decide

theorem argument_eq {i : Nat} (hi : i < 6) (cpu : Cpu) : cpu.argument i = cpu.reg (argRegister i) := by
  match i, hi with
  | 0, _ | 1, _ | 2, _ | 3, _ | 4, _ | 5, _ => rfl

/-- The first words of the stack go into the registers for the arguments. -/
theorem does_loads (rt : Runtime σ) {n i : Nat} (hat : At code p.pc (loadLines i n ++ lines)) (hs : Holds p base vs)
    (hbase : p.cpu.reg .rbp = base) (hi : i + n ≤ 6) (hn : i + n ≤ vs.length) :
    ∃ p', Does rt code (loadLines i n) base p p' [] ∧ Holds p' base vs ∧
      (∀ j, i ≤ j → j < i + n → vs[j]? = some (p'.cpu.reg (argRegister j))) ∧
      ∀ j < i, p'.cpu.reg (argRegister j) = p.cpu.reg (argRegister j) := by
  induction n generalizing i p with
  | zero => exact ⟨p, .refl base p, hs, fun j hj hlt => by omega, fun j hj => rfl⟩
  | succ n ih =>
    have hlt : i < vs.length := by omega
    have hget := hs.get i vs[i] (List.getElem?_eq_getElem hlt)
    have hv : Process.value rt p.cpu (.registerOffset (-8 * ((i : Int) + 1)) .rbp) = some vs[i] := by
      show some (p.cpu.mem (p.cpu.reg .rbp + _)) = _
      rw [hbase, ← hget]
      congr 2
    obtain ⟨hrsp, hrbp⟩ := argRegister_ne i
    obtain ⟨p₁, hd₁, hs₁, hcpu₁⟩ := does_mov rt hat hv hs hrsp hrbp
    obtain ⟨p₂, hd₂, hs₂, hload, hkeep⟩ := ih (hd₁.at hat) hs₁ (hd₁.rbp.trans hbase) (by omega) (by omega)
    have hkeep₁ : ∀ j < 6, j ≠ i → p₁.cpu.reg (argRegister j) = p.cpu.reg (argRegister j) := by
      intro j hj hne
      rw [hcpu₁, Cpu.setReg_of_ne]
      exact fun heq => hne (argRegister_injective j hj i (by omega) heq)
    refine ⟨p₂, hd₁.trans hd₂, hs₂, ?_, ?_⟩
    · intro j hj hlt'
      by_cases hji : j = i
      · subst hji
        rw [hkeep j (Nat.lt_succ_self j), hcpu₁, Cpu.setReg_self]
        exact List.getElem?_eq_getElem hlt
      · exact hload j (by omega) (by omega)
    · intro j hj
      rw [hkeep j (by omega), hkeep₁ j (by omega) (by omega)]

/-! ## The values are freed -/

theorem does_frees (rt : Runtime σ) (hcode : Labelled code) (ws : List Int)
    (hat : At code p.pc (freeLines ws.length ++ lines)) (hs : Holds p base (vs ++ ws)) :
    ∃ p' frees, Does rt code (freeLines ws.length) base p p' frees ∧ Holds p' base vs ∧
      (∀ c ∈ frees, c.name = "libblaze_val_free") ∧ frees.map (fun c => c.cpu.argument 0) = ws.reverse := by
  induction ws using List.reverseRecOn generalizing p with
  | nil =>
    rw [List.append_nil] at hs
    exact ⟨p, [], .refl base p, hs, fun c hc => absurd hc List.not_mem_nil, rfl⟩
  | append_singleton ws w ih =>
    rw [List.length_append, List.length_singleton] at hat ⊢
    rw [← List.append_assoc] at hs
    obtain ⟨p₁, hd₁, hs₁, hrdi⟩ := does_pop rt hat hs (by decide) (by decide)
    have hat₁ : At code p₁.pc (callLine "libblaze_val_free" :: (freeLines ws.length ++ lines)) := hd₁.at hat
    obtain ⟨p₂, c, hd₂, hs₂, hname, hcpu, -⟩ := does_call rt hcode hat₁ hs₁ (by decide)
    obtain ⟨p₃, frees, hd₃, hs₃, hnames, hargs⟩ := ih (hd₂.at hat₁) hs₂
    refine ⟨p₃, c :: frees, (hd₁.trans hd₂).trans hd₃, hs₃, List.forall_mem_cons.mpr ⟨hname, hnames⟩, ?_⟩
    rw [List.map_cons, hargs, List.reverse_append, hcpu]
    exact congrArg (· :: ws.reverse) hrdi

/-! ## The whole statement -/

theorem does_add (rt : Runtime σ) (base : Int) {immediate : Int} (hat : At code p.pc (addLine immediate .rsp :: lines)) :
    ∃ p', Does rt code [addLine immediate .rsp] base p p' [] ∧
      p'.cpu.reg .rsp = p.cpu.reg .rsp + immediate :=
  ⟨_, ⟨over_add hat, Cpu.setReg_of_ne (by decide), fun _ _ => rfl, (List.append_nil _).symm, .nil _⟩,
    Cpu.setReg_self⟩

/-- What the loads and the frees do with the values of the arguments makes a call as the convention has it. -/
theorem follows_of_loads {creates frees : List Call} {c : Call} {ws : List Int} (hargs : args.length ≤ 5)
    (hmade : List.Forall₂ (CreatedBy rt data) args creates) (hrets : creates.map Call.ret = ws.map some)
    (hname : c.name = "libblaze_fn_println")
    (hload : ∀ j < args.length + 1, ((args.length : Int) :: ws)[j]? = some (c.cpu.reg (argRegister j)))
    (hfreed : ∀ c ∈ frees, c.name = "libblaze_val_free")
    (hvalues : frees.map (fun c => c.cpu.argument 0) = ws.reverse) :
    FollowsConvention rt data args creates c frees := by
  refine ⟨hmade, hname, ?_, ?_, hfreed, ?_⟩
  · have hfirst := hload 0 (by omega)
    rw [argument_eq (by omega)]
    exact (Option.some.inj hfirst).symm
  · intro i hi
    have hnext := hload (i + 1) (by omega)
    rw [List.getElem?_cons_succ] at hnext
    rw [hrets, List.getElem?_map, hnext, argument_eq (by omega)]
    rfl
  · have hmap : (frees.map fun c => some (c.cpu.argument 0)) = ws.reverse.map some := by
      rw [← hvalues, List.map_map]
      rfl
    rw [hmap, hrets]
    exact (List.reverse_perm ws).map some

/-- The code of a statement that begins with an empty stack. -/
theorem does_statement (rt : Runtime σ) (hcode : Labelled code) (h : StatementLines data args lines)
    (hat : At code p.pc (lines ++ lines')) (hrbp : p.cpu.reg .rbp = base) (hrsp : p.cpu.reg .rsp = base) :
    ∃ p' creates c frees, Does rt code lines base p p' (creates ++ c :: frees) ∧
      p'.cpu.reg .rsp = base + 8 * (args.length - 5 : Nat) ∧
      (args.length ≤ 5 → FollowsConvention rt data args creates c frees) ∧
      ∃ d ∈ creates ++ c :: frees, d.cpu.reg .rsp = base - 8 := by
  obtain ⟨hargs⟩ := h
  rename_i argLines
  simp only [List.append_assoc] at hat
  have hs : Holds p base [] := by
    unfold Holds
    rw [hrsp]
    exact .nil 8 _ base
  obtain ⟨p₁, hd₁, hs₁, hcpu₁⟩ := does_mov rt hat rfl hs (by decide) (by decide)
  obtain ⟨p₂, hd₂, hs₂⟩ := does_push rt (hd₁.at hat) hs₁
  have hcount : p₁.cpu.reg .rdi = args.length := by
    rw [hcpu₁, Cpu.setReg_self]
  rw [List.nil_append, hcount] at hs₂
  have hd₁₂ := hd₁.trans hd₂
  have hat₂ := hd₁₂.at hat
  obtain ⟨p₃, creates, ws, hd₃, hs₃, hmade, hrets, hfirst⟩ := does_args rt hcode hargs hat₂ hs₂
  have hlen : ws.length = args.length := by
    have hcreates := hmade.length_eq
    have hwords := congrArg List.length hrets
    rw [List.length_map, List.length_map] at hwords
    omega
  have hat₃ := hd₃.at hat₂
  have hrbp₃ : p₃.cpu.reg .rbp = base := hd₃.rbp.trans (hd₁₂.rbp.trans hrbp)
  obtain ⟨p₄, hd₄, hs₄, hload, -⟩ := does_loads rt hat₃ hs₃ hrbp₃ (by omega)
    (by rw [List.singleton_append, List.length_cons, hlen]; omega)
  have hat₄ := hd₄.at hat₃
  obtain ⟨p₅, c, hd₅, hs₅, hname, hcpu, -⟩ := does_call rt hcode hat₄ hs₄ (by decide)
  have hat₅ := hd₅.at hat₄
  rw [← hlen] at hat₅
  obtain ⟨p₆, frees, hd₆, hs₆, hfreed, hvalues⟩ := does_frees rt hcode ws hat₅ hs₅
  have hat₆ := hd₆.at hat₅
  obtain ⟨p₇, hd₇, hrsp₇⟩ := does_add rt base hat₆
  have hat₇ := hd₇.at hat₆
  rw [hlen] at hat₇
  have hsum := (((((hd₁₂.trans hd₃).trans hd₄).trans hd₅).trans hd₆).trans hd₇)
  have hcalls : [] ++ [] ++ creates ++ [] ++ [c] ++ frees ++ [] = creates ++ c :: frees := by simp
  rw [hcalls, hlen] at hsum
  have hbalance : p₇.cpu.reg .rsp = base := by
    have htop := hs₆.top
    rw [List.length_singleton] at htop
    rw [hrsp₇, htop]
    push_cast
    omega
  have hfollows : args.length ≤ 5 → FollowsConvention rt data args creates c frees := by
    intro hfew
    refine follows_of_loads hfew hmade hrets hname ?_ hfreed hvalues
    intro j hj
    rw [hcpu]
    exact hload j (Nat.zero_le j) (by omega)
  have hcall : ∃ d ∈ creates ++ c :: frees, d.cpu.reg .rsp = base - 8 := by
    have hrsp₂ : p₂.cpu.reg .rsp = base - 8 := by
      rw [hs₂.top, List.length_singleton]
      omega
    cases creates with
    | nil =>
      have hws : ws = [] := by
        rw [← List.length_eq_zero_iff, hlen, hmade.length_eq]
        rfl
      refine ⟨c, List.mem_cons_self, ?_⟩
      rw [hcpu, hs₄.top, hws]
      show base - 8 * 1 = base - 8
      omega
    | cons d creates => exact ⟨d, List.mem_append_left _ List.mem_cons_self, (hfirst d rfl).trans hrsp₂⟩
  by_cases hmany : args.length > 5
  · rw [if_pos hmany] at hat₇ ⊢
    obtain ⟨p₈, hd₈, hrsp₈⟩ := does_add rt base hat₇
    have hall := hsum.trans hd₈
    rw [List.append_nil] at hall
    refine ⟨p₈, creates, c, frees, hall, ?_, hfollows, hcall⟩
    rw [hrsp₈, hbalance]
  · rw [if_neg hmany, List.append_nil]
    refine ⟨p₇, creates, c, frees, hsum, ?_, hfollows, hcall⟩
    rw [hbalance, show args.length - 5 = 0 by omega, Nat.cast_zero, Int.mul_zero, Int.add_zero]

end Blaze
