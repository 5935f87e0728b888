import Blazescript.Arena.Proofs.HeapProofs
import Blazescript.Codegen.Libblaze
import Blazescript.Eval.Proofs.InitialProofs
import Blazescript.Eval.Proofs.ReturnsProofs

/-!
# Proofs: calls of `println` in the interpreter

The interpreter evaluates the arguments in order, and `print` writes their texts with a space between two of
them.
-/

namespace Blaze

open Arena Tracing

variable {m m' m'' m₀ : Machine} {args : List AstNode} {arg node : AstNode} {fuel scope : Nat} {v : Val}
  {vs : List Val} {ptr : EntryPtr} {frame : Frame} {stack : List Frame} {f : Nat} {fn : FnVal}
  {out out' : List Output} {bytes bytes' : List Char}

/-! ## Bytes -/

theorem outputBytes_append (h : outputBytes out = some bytes) (h' : outputBytes out' = some bytes') :
    outputBytes (out ++ out') = some (bytes ++ bytes') := by
  unfold outputBytes at h h' ⊢
  obtain ⟨texts, htexts, rfl⟩ := Option.map_eq_some_iff.mp h
  obtain ⟨texts', htexts', rfl⟩ := Option.map_eq_some_iff.mp h'
  rw [List.mapM_append, htexts, htexts']
  simp

theorem outputBytes_text (s : String) : outputBytes [.text s] = some s.toList := by
  simp [outputBytes, Output.text?]

/-- The text of a literal. -/
def literalText : AstNode → List Char
  | .intLit _ intval => "\x1b[1;33m".toList ++ (toString intval).toList ++ "\x1b[0m".toList
  | .string _ strval => strval.toList
  | _ => []

/-- The texts of some literals, with a space between two of them. -/
def spacedTexts : List AstNode → List Char
  | [] => []
  | arg :: args => literalText arg ++ (if args.isEmpty then [] else [' ']) ++ spacedTexts args

/-! ## Arguments -/

/-- What the evaluation of literals leaves as it is. -/
structure SameOutput (m m' : Machine) : Prop where
  scopes : m'.scopes = m.scopes
  fns : m'.fns = m.fns
  error : m'.store.evalFnError = m.store.evalFnError
  stdout : m'.store.stdout = m.store.stdout
  strings : ∀ s text, m.store.strings.read s = some text → m'.store.strings.read s = some text

theorem SameOutput.trans (h : SameOutput m m') (h' : SameOutput m' m'') : SameOutput m m'' :=
  ⟨h'.scopes.trans h.scopes, h'.fns.trans h.fns, h'.error.trans h.error, h'.stdout.trans h.stdout,
    fun s text hs => h'.strings s text (h.strings s text hs)⟩

/-- What differs only in the frames and the result. -/
theorem SameOutput.of_eq (hscopes : m'.scopes = m.scopes) (hfns : m'.fns = m.fns) (hstore : m'.store = m.store) :
    SameOutput m m' := by
  refine ⟨hscopes, hfns, ?_, ?_, ?_⟩
  · rw [hstore]
  · rw [hstore]
  · intro s text hs
    rw [hstore]
    exact hs

/-- The value of a literal. -/
inductive LiteralValue (strings : Heap String) : AstNode → Val → Prop
  | intLit {v : Val} (pos : Pos) (intval : Int) (h : v.data = .integer intval) :
      LiteralValue strings (.intLit pos intval) v
  | string {v : Val} {s : Nat} (pos : Pos) (strval : String) (h : v.data = .string s)
      (hs : strings.read s = some strval) : LiteralValue strings (.string pos strval) v

theorem LiteralValue.mono (h : LiteralValue m.store.strings arg v) (hsame : SameOutput m m') :
    LiteralValue m'.store.strings arg v := by
  cases h with
  | intLit pos intval h => exact .intLit pos intval h
  | string pos strval h hs => exact .string pos strval h (hsame.strings _ _ hs)

theorem returns_literal (harg : arg.IsLiteral) (fuel scope : Nat) (m : Machine) :
    Returns (eval (fuel + 1) scope arg) m
      fun v m' => SameOutput m m' ∧ m'.stack = m.stack ∧ LiteralValue m'.store.strings arg v := by
  cases arg with
  | intLit pos intval =>
    exact returns_giveValue ⟨.of_eq rfl rfl rfl, rfl, .intLit pos intval rfl⟩
  | string pos strval =>
    refine (returns_string strval).post ?_
    rintro v _ ⟨hdata, rfl⟩
    have hread : (m.store.strings.alloc strval).read m.store.strings.size = some strval := by
      rw [Heap.read_alloc, if_pos rfl]
    have hstrings : ∀ s text, m.store.strings.read s = some text → (m.store.strings.alloc strval).read s = some text :=
      fun s text hs => Heap.read_alloc_of_read hs
    exact ⟨⟨rfl, rfl, rfl, rfl, hstrings⟩, rfl, .string pos strval hdata hread⟩
  | _ => cases harg

theorem returns_argument (harg : arg.IsLiteral) (fuel scope : Nat) (m : Machine) :
    Returns (callEval (eval (fuel + 1)) none scope arg) m
      fun v m' => SameOutput m m' ∧ m'.stack = m.stack ∧ LiteralValue m'.store.strings arg v := by
  refine (returns_callEval (returns_literal harg fuel scope _)).post ?_
  rintro v _ ⟨m₁, ⟨hsame, hstack, hvalue⟩, rfl⟩
  refine ⟨⟨hsame.scopes, hsame.fns, hsame.error, hsame.stdout, hsame.strings⟩, ?_, hvalue⟩
  show m₁.stack.tail = m.stack
  rw [hstack]
  rfl

/-- The arguments are evaluated in their order, and stored. -/
theorem returns_evalArgs (hargs : ∀ arg ∈ args, arg.IsLiteral) (fuel scope : Nat)
    (hstack : m.stack = callFrame scope node ptr vs :: stack) :
    Returns (evalArgs (eval (fuel + 1)) scope args) m fun _ m' => SameOutput m m' ∧ ∃ ws,
      m'.stack = callFrame scope node ptr (vs ++ ws) :: stack ∧ List.Forall₂ (LiteralValue m'.store.strings) args ws := by
  induction args generalizing m vs with
  | nil =>
    refine returns_pure ⟨.of_eq rfl rfl rfl, [], ?_, .nil⟩
    rw [List.append_nil]
    exact hstack
  | cons arg args ih =>
    obtain ⟨harg, hrest⟩ := List.forall_mem_cons.mp hargs
    refine (returns_argument harg fuel scope m).bind ?_
    rintro v m₁ ⟨hsame₁, hstack₁, hvalue⟩
    refine (returns_storeArg (hstack₁.trans hstack) v).bind ?_
    rintro _ _ rfl
    refine (ih hrest rfl).post ?_
    rintro _ m₂ ⟨hsame₂, ws, hstack₂, hvalues⟩
    have hsame : SameOutput m₁ m₂ :=
      ⟨hsame₂.scopes, hsame₂.fns, hsame₂.error, hsame₂.stdout, hsame₂.strings⟩
    refine ⟨hsame₁.trans hsame, v :: ws, ?_, .cons (hvalue.mono hsame) hvalues⟩
    rw [hstack₂, List.append_assoc]
    rfl

/-! ## `println` -/

/-- What printing leaves as it is. -/
structure SameButOutput (m m' : Machine) : Prop where
  scopes : m'.scopes = m.scopes
  fns : m'.fns = m.fns
  stack : m'.stack = m.stack
  error : m'.store.evalFnError = m.store.evalFnError

theorem SameButOutput.refl (m : Machine) : SameButOutput m m := ⟨rfl, rfl, rfl, rfl⟩

theorem SameButOutput.trans (h : SameButOutput m m') (h' : SameButOutput m' m'') : SameButOutput m m'' :=
  ⟨h'.scopes.trans h.scopes, h'.fns.trans h.fns, h'.stack.trans h.stack, h'.error.trans h.error⟩

theorem printValInternal_integer {intval : Int} (h : v.data = .integer intval) (m : Machine) (fuel : Nat)
    (quoteStrings : Bool) : printValInternal m (fuel + 1) quoteStrings v =
      some [.text ("\x1b[1;33m" ++ toString intval ++ "\x1b[0m")] := by
  rw [printValInternal, h]

/-- The output of one argument. -/
theorem returns_printed (h : LiteralValue m.store.strings arg v) :
    Returns (Recorder.readOrThrow .undefined fun m =>
        match v.data with
        | .string s => (m.store.strings.read s).map fun text => [.text text]
        | _ => printValInternal m (m.store.vectors.size + 1) false v : Eval (List Output)) m
      fun out m' => m = m' ∧ outputBytes out = some (literalText arg) := by
  cases h with
  | intLit pos intval h =>
    have hout : outputBytes [.text ("\x1b[1;33m" ++ toString intval ++ "\x1b[0m")] =
        some (literalText (.intLit pos intval)) := by
      rw [outputBytes_text, String.toList_append, String.toList_append]
      rfl
    refine returns_readOrThrow ?_ ⟨rfl, hout⟩
    rw [h]
    exact printValInternal_integer h m _ false
  | string pos strval h hs =>
    refine returns_readOrThrow ?_ ⟨rfl, outputBytes_text strval⟩
    rw [h]
    exact congrArg (Option.map fun text => [Output.text text]) hs

theorem returns_writeOut (out : List Output) :
    Returns (writeOut out) m fun _ m' => SameButOutput m m' ∧
      m'.store.stdout = m.store.stdout ++ out ∧ m'.store.strings = m.store.strings := by
  unfold writeOut updateStore
  exact returns_act rfl ⟨⟨rfl, rfl, rfl, rfl⟩, rfl, rfl⟩

/-- `print` writes the texts of its arguments, with a space between two of them. -/
theorem returns_printArgs (h : List.Forall₂ (LiteralValue m.store.strings) args vs)
    (hbytes : outputBytes m.store.stdout = some bytes) :
    Returns (printArgs vs) m fun _ m' => SameButOutput m m' ∧
      outputBytes m'.store.stdout = some (bytes ++ spacedTexts args) := by
  induction args generalizing m vs bytes with
  | nil =>
    cases h
    refine returns_pure ⟨.refl m, ?_⟩
    rw [spacedTexts, List.append_nil]
    exact hbytes
  | cons arg args ih =>
    cases h with
    | @cons _ v _ vs hvalue hrest =>
      refine (returns_printed hvalue).bind ?_
      rintro out _ ⟨rfl, hout⟩
      refine (returns_writeOut _).bind ?_
      rintro _ m₁ ⟨hsame₁, hstdout₁, hstrings₁⟩
      have hempty : vs.isEmpty = args.isEmpty := by
        cases hrest <;> rfl
      have hspace : outputBytes (if vs.isEmpty then out else out ++ [.text " "]) =
          some (literalText arg ++ if args.isEmpty then [] else [' ']) := by
        rw [hempty]
        by_cases hlast : args.isEmpty = true
        · rw [if_pos hlast, if_pos hlast, List.append_nil]
          exact hout
        · rw [if_neg hlast, if_neg hlast]
          exact outputBytes_append hout (outputBytes_text " ")
      have hbytes₁ := outputBytes_append hbytes hspace
      rw [← hstdout₁] at hbytes₁
      rw [← hstrings₁] at hrest
      refine (ih hrest hbytes₁).post ?_
      rintro _ m₂ ⟨hsame₂, hbytes₂⟩
      refine ⟨hsame₁.trans hsame₂, ?_⟩
      rw [hbytes₂, spacedTexts]
      simp only [List.append_assoc]

theorem returns_builtinPrintln (h : List.Forall₂ (LiteralValue m.store.strings) args vs) (hne : args ≠ [])
    (hbytes : outputBytes m.store.stdout = some bytes) :
    Returns (builtinPrintln vs) m fun _ m' => SameButOutput m m' ∧
      outputBytes m'.store.stdout = some (bytes ++ (spacedTexts args ++ ['\n'])) := by
  have hprint : Returns (builtinPrint vs) m fun _ m' => SameButOutput m m' ∧
      outputBytes m'.store.stdout = some (bytes ++ spacedTexts args) := by
    have hvs : ¬ vs.isEmpty = true := by
      cases h with
      | nil => exact absurd rfl hne
      | cons _ _ => exact Bool.false_ne_true
    unfold builtinPrint
    rw [if_neg hvs]
    refine (returns_printArgs h hbytes).bind ?_
    rintro _ m₁ ⟨hsame, hbytes₁⟩
    exact returns_giveValue ⟨hsame.trans ⟨rfl, rfl, rfl, rfl⟩, hbytes₁⟩
  refine hprint.bind ?_
  rintro ret m₁ ⟨hsame₁, hbytes₁⟩
  refine (returns_writeOut [.text "\n"]).bind ?_
  rintro _ m₂ ⟨hsame₂, hstdout₂, -⟩
  refine returns_pure ⟨hsame₁.trans hsame₂, ?_⟩
  rw [hstdout₂, outputBytes_append hbytes₁ (outputBytes_text "\n"), List.append_assoc]
  rfl

/-! ## Statements -/

/-- The interpreter has come to the next statement, having written some bytes. -/
structure Between (m₀ : Machine) (bytes : List Char) (m : Machine) : Prop where
  scopes : m.scopes = m₀.scopes
  fns : m.fns = m₀.fns
  error : m.store.evalFnError = none
  written : outputBytes m.store.stdout = some bytes

theorem returns_derefVal (hres : Resolves m "println" .println ptr f fn) :
    Returns (derefVal ptr) m fun v m' => v.data = .function f ∧ m = m' := by
  obtain ⟨b, hb, hdata⟩ := Option.map_eq_some_iff.mp hres.entry
  have huse : Returns (act (.use ptr) some) m fun _ m' => m = m' := returns_act rfl rfl
  refine huse.bind ?_
  rintro _ _ rfl
  have hentry : (readEntry m.scopes ptr).map Prod.fst = some b.1 := by
    rw [hb]
    rfl
  exact returns_readOrThrow hentry ⟨hdata, rfl⟩

theorem returns_callee (hres : Resolves m "println" .println ptr f fn) :
    Returns (callee ptr) m fun r m' => r = (f, fn) ∧ m = m' := by
  obtain ⟨b, hb, hdata⟩ := Option.map_eq_some_iff.mp hres.entry
  have huse : Returns (act (.use ptr) some) m fun _ m' => m = m' := returns_act rfl rfl
  refine huse.bind ?_
  rintro _ _ rfl
  have hfn : ((readEntry m.scopes ptr).bind fun b => m.fnOf b.1) = some (f, fn) := by
    rw [hb]
    show m.fnOf b.1 = some (f, fn)
    unfold Machine.fnOf
    rw [hdata]
    dsimp only
    rw [hres.read]
    rfl
  exact returns_readOrThrow hfn ⟨rfl, rfl⟩

theorem Resolves.congr {name : String} {callback : BuiltinFn} (h : Resolves m name callback ptr f fn)
    (hscopes : m'.scopes = m.scopes) (hfns : m'.fns = m.fns) : Resolves m' name callback ptr f fn := by
  obtain ⟨hfound, hentry, hread, hcallback⟩ := h
  rw [← hscopes] at hfound hentry
  rw [← hfns] at hread
  exact ⟨hfound, hentry, hread, hcallback⟩

/-- The interpreter evaluates a call of `println`. -/
theorem returns_println (hres : Resolves m₀ "println" .println ptr f fn) (hm : Between m₀ bytes m)
    (hargs : ∀ arg ∈ args, arg.IsLiteral) (hne : args ≠ []) (pos : Pos) (fuel : Nat)
    (hstack : m.stack = ⟨0, node, .none⟩ :: stack) :
    Returns (eval (fuel + 2) 0 (.exprCall pos "println" args)) m fun _ m' =>
      Between m₀ (bytes ++ (spacedTexts args ++ ['\n'])) m' := by
  have hres' := hres.congr hm.scopes hm.fns
  show Returns (evalExprCall (eval (fuel + 1)) (fuel + 1) 0 pos "println" args) m _
  unfold evalExprCall
  have hresolve : Returns (resolveIdentifier 0 "println") m fun r m' => r = some ptr ∧ m = m' :=
    returns_readOrThrow hres'.found ⟨rfl, rfl⟩
  refine hresolve.bind ?_
  rintro _ _ ⟨rfl, rfl⟩
  have hbegin : Returns (beginCall ptr) m fun _ m' =>
      m' = { m with stack := callFrame 0 node ptr [] :: stack } := by
    refine returns_act ?_ rfl
    unfold Machine.withLocals
    rw [hstack]
    rfl
  refine hbegin.bind ?_
  rintro _ m₁ rfl
  have hres₁ : Resolves { m with stack := callFrame 0 node ptr [] :: stack } "println" .println ptr f fn :=
    ⟨hres'.found, hres'.entry, hres'.read, hres'.callback⟩
  refine (returns_derefVal hres₁).bind ?_
  rintro v _ ⟨hdata, rfl⟩
  rw [hdata]
  refine (returns_evalArgs hargs fuel 0 rfl).bind ?_
  rintro _ m₂ ⟨hsame₂, ws, hstack₂, hvalues⟩
  refine (returns_callee (hres'.congr hsame₂.scopes hsame₂.fns)).bind ?_
  rintro _ _ ⟨rfl, rfl⟩
  dsimp only
  rw [hres.callback]
  refine (returns_beginBuiltin hstack₂).bind ?_
  rintro given m₂' ⟨hgiven, hm₂'⟩
  rw [hgiven, List.nil_append]
  have hbytes : outputBytes m₂.store.stdout = some bytes := by
    rw [hsame₂.stdout]
    exact hm.written
  have hprinted : Returns (builtinPrintln ws) m₂' fun _ m' => SameButOutput m₂' m' ∧
      outputBytes m'.store.stdout = some (bytes ++ (spacedTexts args ++ ['\n'])) := by
    refine returns_builtinPrintln ?_ hne ?_
    · rw [hm₂']
      exact hvalues
    · rw [hm₂']
      exact hbytes
  refine hprinted.bind ?_
  rintro ret m₃ ⟨hsame₃, hwritten⟩
  rw [hm₂'] at hsame₃
  have herror : m₃.store.evalFnError = none := hsame₃.error.trans (hsame₂.error.trans hm.error)
  have hget : Returns (getStore fun store => some store.evalFnError) m₃ fun r m' => r = none ∧ m₃ = m' := by
    refine returns_readOrThrow (a := m₃.store.evalFnError) rfl ⟨herror, rfl⟩
  refine hget.bind ?_
  rintro _ _ ⟨rfl, rfl⟩
  exact returns_pure ⟨hsame₃.scopes.trans (hsame₂.scopes.trans hm.scopes),
    hsame₃.fns.trans (hsame₂.fns.trans hm.fns), herror, hwritten⟩

/-! ## Programs -/

/-- A call of `println` with at least one argument. -/
def PrintsSome (node : AstNode) : Prop := ∃ args, IsPrintln node args ∧ args ≠ []

/-- The line that the interpreter writes for a statement. -/
def interpretedLine : AstNode → List Char
  | .exprCall _ _ args => spacedTexts args ++ ['\n']
  | _ => []

theorem returns_evalRoot {nodes : List AstNode} (hres : Resolves m₀ "println" .println ptr f fn)
    (hm : Between m₀ bytes m) (hnodes : ∀ node ∈ nodes, PrintsSome node) (fuel : Nat) (v : Val) :
    Returns (evalRoot (eval (fuel + 2)) 0 nodes v) m fun _ m' =>
      Between m₀ (bytes ++ nodes.flatMap interpretedLine) m' := by
  induction nodes generalizing m bytes v with
  | nil =>
    rw [List.flatMap_nil, List.append_nil]
    exact returns_pure hm
  | cons node nodes ih =>
    obtain ⟨⟨args, ⟨pos, hlits⟩, hne⟩, hrest⟩ := List.forall_mem_cons.mp hnodes
    have hpushed : Between m₀ bytes
        { m with stack := ⟨0, .exprCall pos "println" args, .none⟩ :: m.stack } :=
      ⟨hm.scopes, hm.fns, hm.error, hm.written⟩
    refine (returns_callEval (returns_println hres hpushed hlits hne pos fuel rfl)).bind ?_
    rintro ret _ ⟨m₁, hm₁, rfl⟩
    have hpopped : Between m₀ (bytes ++ (spacedTexts args ++ ['\n'])) { m₁ with stack := m₁.stack.tail } :=
      ⟨hm₁.scopes, hm₁.fns, hm₁.error, hm₁.written⟩
    refine (ih hpopped hrest ret).post ?_
    intro _ m₂ hm₂
    rw [List.flatMap_cons, ← List.append_assoc]
    exact hm₂

theorem returns_root {nodes : List AstNode} (hres : Resolves m₀ "println" .println ptr f fn)
    (herror : m₀.store.evalFnError = none) (hstdout : m₀.store.stdout = [])
    (hnodes : ∀ node ∈ nodes, PrintsSome node) (pos : Pos) (fuel : Nat) :
    Returns (eval (fuel + 3) 0 (.root pos nodes)) m₀ fun _ m' =>
      outputBytes m'.store.stdout = some (nodes.flatMap interpretedLine) := by
  have hwritten : outputBytes m₀.store.stdout = some [] := by
    rw [hstdout]
    rfl
  have hnull : Returns (giveValue nullVal) m₀ fun _ m' => Between m₀ [] m' :=
    returns_giveValue ⟨rfl, rfl, herror, hwritten⟩
  refine hnull.bind ?_
  intro null m' hm'
  exact (returns_evalRoot hres hm' hnodes fuel null).post fun _ m'' hm'' => hm''.written

/-- The interpreter writes a line for each statement. -/
theorem writesInterpreted (pos : Pos) {nodes : List AstNode} (hnodes : ∀ node ∈ nodes, PrintsSome node)
    (stdin : List String) (strerror : String) :
    WritesInterpreted (.root pos nodes) stdin strerror (nodes.flatMap interpretedLine) := by
  obtain ⟨ptr, f, fn, hres⟩ := println_resolves (.root pos nodes) stdin strerror
  have hstore := initial_store (.root pos nodes) stdin strerror
  refine ⟨3, fun fuel hfuel => ?_⟩
  obtain ⟨fuel, rfl⟩ := Nat.exists_eq_add_of_le' hfuel
  unfold runProgram
  generalize Machine.initial (.root pos nodes) stdin strerror = m₀ at hres hstore ⊢
  exact returns_root hres (by rw [hstore]) (by rw [hstore]) hnodes pos fuel []

end Blaze
