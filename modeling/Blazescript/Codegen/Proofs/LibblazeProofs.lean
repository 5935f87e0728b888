import Mathlib.Data.List.Nodup
import Mathlib.Data.List.Perm.Basic
import Blazescript.Arena.Proofs.HeapProofs
import Blazescript.Codegen.Proofs.GnuAsProofs
import Blazescript.Codegen.Proofs.MainProofs

/-!
# Proofs: the compiled program in the library

The code of a statement makes the values of its literals, has `libblaze_fn_println` write them, and frees them.
-/

namespace Blaze

open Arena Running

variable {data : List AsmDataLbl} {scratch : String → Cpu → Cpu} {w : LibWorld} {w' : Option LibWorld}
  {args nodes : List AstNode} {node arg : AstNode} {cs creates frees : List Call} {c : Call} {vals : List LibVal}
  {newline : Bool} {context context' : CompilationContext}

/-! ## The data -/

theorem label_injective {j k : Nat} (h : ".DL" ++ toString j = ".DL" ++ toString k) : j = k := by
  have hlist := congrArg String.toList h
  rw [String.toList_append, String.toList_append] at hlist
  have hdigits : Nat.toDigits 10 j = Nat.toDigits 10 k := by
    have hrepr : (toString j).toList = (toString k).toList := List.append_cancel_left hlist
    simpa [toString, Nat.repr] using hrepr
  have hvalue := congrArg (Nat.ofDigitChars 10 · 0) hdigits
  simpa using hvalue

theorem Numbered.nodup (h : context.Numbered) : (context.asmData.map AsmDataLbl.label).Nodup := by
  rw [h]
  exact List.nodup_range.map fun j k hjk => label_injective hjk

/-- The library finds a string of the data by the address of its label. -/
theorem stringAt_label (hnodup : (data.map AsmDataLbl.label).Nodup) {label strval : String}
    (hmem : ⟨label, "string", stringOperand strval.toList⟩ ∈ data) (hplain : '\\' ∉ strval.toList) :
    stringAt data ((data.map AsmDataLbl.label).idxOf label) = some strval.toList := by
  obtain ⟨i, hi, hget⟩ := List.mem_iff_getElem.mp hmem
  have hlen : i < (data.map AsmDataLbl.label).length := by
    rw [List.length_map]
    exact hi
  have hidx : (data.map AsmDataLbl.label).idxOf label = i := by
    have hlabel : (data.map AsmDataLbl.label)[i] = label := by
      rw [List.getElem_map, hget]
    rw [← hlabel]
    exact hnodup.idxOf_getElem i hlen
  unfold stringAt
  rw [hidx, if_pos (Int.natCast_nonneg i), Int.toNat_natCast, List.getElem?_eq_getElem hi, hget]
  show (decodeOperand (stringOperand strval.toList)).map Prod.fst = _
  rw [(decodeOperand_iff strval.toList).mpr hplain]
  rfl

/-! ## The values are made -/

/-- The value of a literal in the library. -/
def literalVal : AstNode → LibVal
  | .intLit _ intval => .integer intval
  | .string _ strval => .string strval.toList
  | _ => .integer 0

/-- The assembler keeps the literal as it is. -/
def AstNode.IsPlain : AstNode → Prop
  | .string _ strval => '\\' ∉ strval.toList
  | _ => True

/-- The world with another value. -/
def LibWorld.with (w : LibWorld) (val : LibVal) : LibWorld := { w with vals := w.vals.alloc val }

theorem LibWorld.size_with (w : LibWorld) (val : LibVal) : (w.with val).vals.size = w.vals.size + 1 :=
  Heap.size_alloc w.vals val

theorem Performs.of_cons {σ : Type} {rt : Runtime σ} {w w' : σ} (h : Performs rt w (c :: cs) w') :
    c.ret = some ((rt.call c.name c.cpu w).1.reg .rax) ∧ Performs rt (rt.call c.name c.cpu w).2 cs w' := by
  cases h with
  | cons h hret hrest =>
    rw [h]
    exact ⟨hret, hrest⟩

theorem Performs.split {σ : Type} {rt : Runtime σ} {w w' : σ} {cs cs' : List Call}
    (h : Performs rt w (cs ++ cs') w') : ∃ mid, Performs rt w cs mid ∧ Performs rt mid cs' w' := by
  induction cs generalizing w with
  | nil => exact ⟨w, .nil w, h⟩
  | cons c cs ih =>
    cases h with
    | cons hcall hret hrest =>
      obtain ⟨mid, hleft, hright⟩ := ih hrest
      exact ⟨mid, .cons hcall hret hleft, hright⟩

theorem Performs.of_nil {σ : Type} {rt : Runtime σ} {w w' : σ} (h : Performs rt w [] w') : w' = w := by
  cases h
  rfl

theorem call_eq {f : String} {cpu : Cpu} {value : Option Int} {after : LibWorld}
    (h : libblazeCall data f cpu w = some (value, after)) : (libblaze data scratch).call f cpu (some w) =
      (cpu.returnFrom (scratch f cpu) value, some after) := by
  have hbind : (some w).bind (libblazeCall data f cpu) = some (value, after) := h
  show (cpu.returnFrom (scratch f cpu) (((some w).bind (libblazeCall data f cpu)).bind Prod.fst),
    ((some w).bind (libblazeCall data f cpu)).map Prod.snd) = _
  rw [hbind]
  rfl

/-- A call that makes the value of a literal. -/
theorem call_create (hnodup : (data.map AsmDataLbl.label).Nodup) (hplain : arg.IsPlain)
    (hc : CreatedBy (libblaze data scratch) data arg c) :
    libblazeCall data c.name c.cpu w = some (some (w.vals.size : Int), w.with (literalVal arg)) := by
  obtain ⟨operand, f, hcreation, hname, hvalue⟩ := hc
  rw [hname]
  unfold libblazeCall
  cases hcreation with
  | intLit pos intval =>
    have hrdi : intval = c.cpu.argument 0 := Option.some.inj hvalue
    rw [if_pos rfl, ← hrdi]
    rfl
  | string pos strval label hmem =>
    have hrdi : ((data.map AsmDataLbl.label).idxOf label : Int) = c.cpu.argument 0 := Option.some.inj hvalue
    rw [if_neg (by decide), if_pos rfl, ← hrdi, stringAt_label hnodup hmem hplain]
    rfl

/-- Values after those of a heap. -/
def withAll (w : LibWorld) (vals : List LibVal) : LibWorld := vals.foldl LibWorld.with w

theorem withAll_stdout (w : LibWorld) (vals : List LibVal) : (withAll w vals).stdout = w.stdout := by
  induction vals generalizing w with
  | nil => rfl
  | cons val vals ih => exact ih (w.with val)

theorem withAll_old {p : Nat} (hp : p < w.vals.size) (vals : List LibVal) :
    (withAll w vals).vals.read p = w.vals.read p := by
  induction vals generalizing w with
  | nil => rfl
  | cons val vals ih =>
    show (withAll (w.with val) vals).vals.read p = _
    have hp' : p < (w.with val).vals.size := by
      rw [LibWorld.size_with]
      omega
    rw [ih hp', LibWorld.with, Heap.read_alloc, if_neg (Nat.ne_of_lt hp)]

/-- The values are where they have been allocated. -/
theorem withAll_new (w : LibWorld) (vals : List LibVal) :
    List.Forall₂ (fun val p => (withAll w vals).vals.read p = some val) vals
      (List.range' w.vals.size vals.length) := by
  induction vals generalizing w with
  | nil => exact .nil
  | cons val vals ih =>
    rw [List.length_cons, List.range'_succ]
    refine .cons ?_ ?_
    · show (withAll (w.with val) vals).vals.read _ = _
      have hp : w.vals.size < (w.with val).vals.size := by
        rw [LibWorld.size_with]
        omega
      rw [withAll_old hp, LibWorld.with, Heap.read_alloc, if_pos rfl]
    · have hrest := ih (w.with val)
      rw [LibWorld.size_with] at hrest
      exact hrest

theorem exists_read_of_mem {ps : List Nat} (h : List.Forall₂ (fun val p => w.vals.read p = some val) vals ps)
    {p : Nat} (hp : p ∈ ps) : ∃ val, w.vals.read p = some val := by
  induction h with
  | nil => cases hp
  | @cons val q vals ps hread hrest ih =>
    rcases List.mem_cons.mp hp with rfl | hp
    · exact ⟨val, hread⟩
    · exact ih hp

/-- The calls that make the values of the arguments. -/
theorem performs_creates (hnodup : (data.map AsmDataLbl.label).Nodup) (hplain : ∀ arg ∈ args, arg.IsPlain)
    (hmade : List.Forall₂ (CreatedBy (libblaze data scratch) data) args creates)
    (h : Performs (libblaze data scratch) (some w) creates w') :
    w' = some (withAll w (args.map literalVal)) ∧
      creates.map Call.ret = (List.range' w.vals.size args.length).map fun (p : Nat) => some (p : Int) := by
  induction hmade generalizing w with
  | nil => exact ⟨h.of_nil, rfl⟩
  | @cons arg c args creates hc hrest ih =>
    obtain ⟨hplain₁, hplains⟩ := List.forall_mem_cons.mp hplain
    obtain ⟨hret, hperforms⟩ := h.of_cons
    rw [call_eq (call_create hnodup hplain₁ hc)] at hret hperforms
    obtain ⟨hw, hrets⟩ := ih hplains hperforms
    rw [LibWorld.size_with] at hrets
    refine ⟨hw, ?_⟩
    rw [List.map_cons, hret, hrets, List.length_cons, List.range'_succ, List.map_cons]
    rfl

/-! ## The values are written -/

/-- What `libblaze_fn_println` writes for the rest of its arguments. -/
def printedTexts (newline : Bool) : List LibVal → List Char
  | [] => if newline then ['\n'] else []
  | .string strval :: vals => strval ++ (if vals.isEmpty then [] else [' ']) ++ printedTexts newline vals
  | val :: vals => val.print ++ (if vals.isEmpty then [] else [' ']) ++ printedTexts false vals

theorem printlnFrom_texts {ps : List Nat} {out : List Char}
    (h : List.Forall₂ (fun val p => w.vals.read p = some val) vals ps) :
    printlnFrom w newline out (ps.map fun (p : Nat) => (p : Int)) = some (out ++ printedTexts newline vals) := by
  induction h generalizing newline out with
  | nil =>
    rw [List.map_nil, printlnFrom, printedTexts]
    cases newline
    · exact congrArg some (List.append_nil out).symm
    · rfl
  | @cons val p vals ps hread hrest ih =>
    have hempty : (ps.map fun (p : Nat) => (p : Int)).isEmpty = vals.isEmpty := by
      cases hrest <;> rfl
    have hval : w.read p = some val := by
      unfold LibWorld.read
      rw [if_pos (Int.natCast_nonneg p)]
      exact hread
    rw [List.map_cons, printlnFrom, hval, hempty]
    cases val with
    | string strval =>
      dsimp only [Option.bind]
      rw [ih, printedTexts]
      simp only [List.append_assoc]
    | integer intval =>
      dsimp only [Option.bind]
      rw [ih, printedTexts]
      · simp only [List.append_assoc]
      · intro strval hstring
        cases hstring

/-- The call of `println` gets the pointers to the values. -/
theorem println_arguments {println : Call} (hfollows : FollowsConvention (libblaze data scratch) data args creates println frees)
    {ps : List Nat} (hlen : ps.length = args.length)
    (hrets : creates.map Call.ret = ps.map fun (p : Nat) => some (p : Int)) :
    ((List.range (println.cpu.argument 0).toNat).map fun i => println.cpu.argument (i + 1)) =
      ps.map fun (p : Nat) => (p : Int) := by
  rw [hfollows.argc, Int.toNat_natCast]
  apply List.ext_getElem?
  intro i
  by_cases hi : i < args.length
  · have hpassed := hfollows.passed i hi
    have hp : i < ps.length := by omega
    rw [hrets, List.getElem?_map, List.getElem?_eq_getElem hp] at hpassed
    have harg : (ps[i] : Int) = println.cpu.argument (i + 1) := Option.some.inj (Option.some.inj hpassed)
    rw [List.getElem?_map, List.getElem?_map, List.getElem?_range hi, List.getElem?_eq_getElem hp]
    exact congrArg some harg.symm
  · rw [List.getElem?_eq_none (by rw [List.length_map, List.length_range]; omega),
      List.getElem?_eq_none (by rw [List.length_map]; omega)]

theorem call_println {println : Call} {ps : List Nat} (hname : println.name = "libblaze_fn_println")
    (hargs : ((List.range (println.cpu.argument 0).toNat).map fun i => println.cpu.argument (i + 1)) =
      ps.map fun (p : Nat) => (p : Int))
    (hread : List.Forall₂ (fun val p => w.vals.read p = some val) vals ps) :
    libblazeCall data println.name println.cpu w =
      some (none, { w with stdout := w.stdout ++ printedTexts true vals }) := by
  unfold libblazeCall
  rw [hname, if_neg (by decide), if_neg (by decide), if_pos rfl]
  unfold libblazeFnPrintln
  rw [hargs, printlnFrom_texts hread, List.nil_append]
  rfl

/-! ## The values are freed -/

theorem call_free (hname : c.name = "libblaze_val_free") {val : LibVal} (h : w.read (c.cpu.argument 0) = some val) :
    libblazeCall data c.name c.cpu w =
      some (none, { w with vals := w.vals.free (c.cpu.argument 0).toNat }) := by
  unfold libblazeCall
  rw [hname, if_neg (by decide), if_neg (by decide), if_neg (by decide), if_pos rfl]
  unfold libblazeValFree
  rw [h]
  rfl

theorem LibWorld.read_free {p q : Int} (hne : q ≠ p) (hp : 0 ≤ p) :
    LibWorld.read { w with vals := w.vals.free p.toNat } q = w.read q := by
  unfold LibWorld.read
  by_cases hq : 0 ≤ q
  · rw [if_pos hq, if_pos hq, Heap.read_free, if_neg (by omega)]
  · rw [if_neg hq, if_neg hq]

/-- The calls that free values, each once. -/
theorem performs_frees (hname : ∀ c ∈ frees, c.name = "libblaze_val_free")
    (hnodup : (frees.map fun c => c.cpu.argument 0).Nodup)
    (hread : ∀ c ∈ frees, ∃ val, w.read (c.cpu.argument 0) = some val)
    (h : Performs (libblaze data scratch) (some w) frees w') :
    ∃ vals : Heap LibVal, w' = some ⟨vals, w.stdout⟩ := by
  induction frees generalizing w with
  | nil => exact ⟨w.vals, h.of_nil⟩
  | cons c frees ih =>
    obtain ⟨hname₁, hnames⟩ := List.forall_mem_cons.mp hname
    obtain ⟨⟨val, hval⟩, hreads⟩ := List.forall_mem_cons.mp hread
    rw [List.map_cons, List.nodup_cons] at hnodup
    obtain ⟨-, hperforms⟩ := h.of_cons
    rw [call_eq (call_free hname₁ hval)] at hperforms
    dsimp only at hperforms
    have hpos : 0 ≤ c.cpu.argument 0 := by
      by_contra hneg
      unfold LibWorld.read at hval
      rw [if_neg hneg] at hval
      cases hval
    have hothers : ∀ d ∈ frees, ∃ val, LibWorld.read
        { w with vals := w.vals.free (c.cpu.argument 0).toNat } (d.cpu.argument 0) = some val := by
      intro d hd
      have hne : d.cpu.argument 0 ≠ c.cpu.argument 0 :=
        fun heq => hnodup.1 (List.mem_map.mpr ⟨d, hd, heq⟩)
      rw [LibWorld.read_free hne hpos]
      exact hreads d hd
    have hrest := ih hnames hnodup.2 hothers hperforms
    exact hrest

/-! ## Programs -/

/-- What the compiled code of a statement writes. -/
def compiledLine : AstNode → List Char
  | .exprCall _ _ args => printedTexts true (args.map literalVal)
  | _ => []

/-- The arguments of a statement are as the assembler keeps them. -/
def PlainArgs (node : AstNode) : Prop := ∀ args, IsPrintln node args → ∀ arg ∈ args, arg.IsPlain

theorem performs_statement (hnodup : (data.map AsmDataLbl.label).Nodup) (hplain : PlainArgs node)
    (hcalls : StatementCalls (libblaze data scratch) data node cs)
    (h : Performs (libblaze data scratch) (some w) cs w') :
    ∃ vals : Heap LibVal, w' = some ⟨vals, w.stdout ++ compiledLine node⟩ := by
  obtain ⟨args, creates, println, frees, hprint, rfl, hfollows⟩ := hcalls
  obtain ⟨w₁, hcreates, hrest⟩ := h.split
  obtain ⟨rfl, hrets⟩ := performs_creates hnodup (hplain args hprint) hfollows.made hcreates
  have hread := withAll_new w (args.map literalVal)
  rw [List.length_map] at hread
  have hargs := println_arguments hfollows List.length_range' hrets
  obtain ⟨-, hfrees⟩ := hrest.of_cons
  rw [call_eq (call_println hfollows.called hargs hread)] at hfrees
  have honce : (frees.map fun c => some (c.cpu.argument 0)).Perm
      ((List.range' w.vals.size args.length).map fun (p : Nat) => some (p : Int)) := by
    rw [← hrets]
    exact hfollows.once
  have hdistinct : (frees.map fun c => c.cpu.argument 0).Nodup := by
    have hsome : ((frees.map fun c => c.cpu.argument 0).map some).Nodup := by
      rw [List.map_map]
      refine honce.nodup_iff.mpr ?_
      refine List.Nodup.map ?_ List.nodup_range'
      intro p q hpq
      exact Int.ofNat.inj (Option.some.inj hpq)
    exact hsome.of_map some
  have hlive : ∀ c ∈ frees, ∃ val, LibWorld.read { withAll w (args.map literalVal) with
      stdout := (withAll w (args.map literalVal)).stdout ++ printedTexts true (args.map literalVal) }
        (c.cpu.argument 0) = some val := by
    intro c hc
    have hmem := honce.subset (List.mem_map.mpr ⟨c, hc, rfl⟩)
    obtain ⟨p, hp, heq⟩ := List.mem_map.mp hmem
    obtain ⟨val, hval⟩ := exists_read_of_mem hread hp
    refine ⟨val, ?_⟩
    unfold LibWorld.read
    rw [← Option.some.inj heq, if_pos (Int.natCast_nonneg p)]
    exact hval
  obtain ⟨vals, hw'⟩ := performs_frees hfollows.freed hdistinct hlive hfrees
  refine ⟨vals, ?_⟩
  rw [hw', withAll_stdout]
  cases hprint
  rfl

theorem performs_program (hnodup : (data.map AsmDataLbl.label).Nodup) (hplain : ∀ node ∈ nodes, PlainArgs node)
    {calls : List (List Call)} (hcalls : List.Forall₂ (StatementCalls (libblaze data scratch) data) nodes calls)
    (h : Performs (libblaze data scratch) (some w) calls.flatten w') :
    ∃ vals : Heap LibVal, w' = some ⟨vals, w.stdout ++ nodes.flatMap compiledLine⟩ := by
  induction hcalls generalizing w with
  | nil =>
    refine ⟨w.vals, ?_⟩
    rw [h.of_nil, List.flatMap_nil, List.append_nil]
  | cons hnode hrest ih =>
    obtain ⟨hplain₁, hplains⟩ := List.forall_mem_cons.mp hplain
    rw [List.flatten_cons] at h
    obtain ⟨w₁, hfirst, hothers⟩ := h.split
    obtain ⟨vals₁, rfl⟩ := performs_statement hnodup hplain₁ hnode hfirst
    obtain ⟨vals, rfl⟩ := ih hplains hothers
    refine ⟨vals, ?_⟩
    rw [List.flatMap_cons, List.append_assoc]

/-- The compiled program writes what `println` of the library writes for its statements. -/
theorem writesCompiled (pos : Pos) (hprint : ∀ node ∈ nodes, ∃ args, IsPrintln node args)
    (hplain : ∀ node ∈ nodes, PlainArgs node)
    (hfew : ∀ node ∈ nodes, ∀ args, IsPrintln node args → args.length ≤ 5) :
    ∃ root context', x8664Compile (.root pos nodes) compilationContextCreate = .ok root context' ∧
      ∀ scratch cpu, WritesCompiled root context'.asmData scratch cpu (nodes.flatMap compiledLine) := by
  have hroot : ∀ node ∈ nodes, node.type ≠ 0 := by
    intro node hnode
    obtain ⟨args, ⟨pos', hlits⟩⟩ := hprint node hnode
    exact Nat.succ_ne_zero _
  obtain ⟨root, context', hcompile⟩ := compileRoot_literals pos hprint compilationContextCreate
  obtain ⟨children, rfl, hext, hst⟩ := compileRoot_ok hroot hcompile
  have hnodup := Numbered.nodup (hext.numbered rfl)
  refine ⟨_, context', hcompile, fun scratch cpu => ?_⟩
  obtain ⟨returned, final, calls, hrun⟩ :=
    program_completes (libblaze context'.asmData scratch) hst hfew cpu (some ⟨.empty, []⟩)
  obtain ⟨vals, hworld⟩ := performs_program hnodup hplain hrun.follows hrun.performs
  unfold WritesCompiled
  rw [root_lines]
  exact ⟨final, vals, hrun.path.reaches.trans hrun.exits.reaches, hrun.end_pc, hrun.world.trans hworld⟩

end Blaze
