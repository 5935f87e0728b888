import Blazescript.Eval.Proofs.InitialProofs
import Blazescript.Eval.Proofs.TransProofs

/-!
# Proofs: every evaluation is a path of the transition system

The functions of `lib.c` and `eval.c` one by one, and the induction on the fuel that closes the
recursion of `eval`.
-/

namespace Blaze

open Arena Environment Tracing

section Eval

variable {scope : Nat} {node : AstNode} {stack : List Frame} {l : Locals} {P : Machine → Prop}

/-! ## Built-in functions -/

theorem failFn_follows {msg : String} :
    FollowsIn scope node stack (Inside scope node stack l P) (failFn msg)
      fun v => Inside scope node stack l fun m => m.result = v := by
  have hstore : ∀ store : Store, ({ store with evalFnError := some msg } : Store).strings = store.strings ∧
      ({ store with evalFnError := some msg } : Store).vectors = store.vectors := fun _ => ⟨rfl, rfl⟩
  exact ((updateStore_follows storeFree_true hstore).pre fun _ h => h.any).bind fun _ => giveNull_follows

theorem writeOut_follows {out : List Output} (hP : StoreFree P) :
    FollowsIn scope node stack (Inside scope node stack l P) (writeOut out)
      fun _ => Inside scope node stack l P :=
  updateStore_follows hP fun _ => ⟨rfl, rfl⟩

theorem printArgs_follows (args : List Val) (hP : StoreFree P) :
    FollowsIn scope node stack (Inside scope node stack l P) (printArgs args)
      fun _ => Inside scope node stack l P := by
  induction args with
  | nil => exact follows_pure fun _ h => h
  | cons arg args ih =>
    refine (follows_get (Q := fun _ => P) fun _ _ _ h _ => h).bind fun out => ?_
    exact (writeOut_follows hP).bind fun _ => ih

theorem builtinPrint_follows (args : List Val) :
    FollowsIn scope node stack (Inside scope node stack l P) (builtinPrint args)
      fun v => Inside scope node stack l fun m => m.result = v := by
  unfold builtinPrint
  refine follows_ite (fun _ => failFn_follows) fun _ => ?_
  exact ((printArgs_follows args storeFree_true).pre fun _ h => h.any).bind fun _ =>
    giveNull_follows

theorem builtinPrintln_follows (args : List Val) :
    FollowsIn scope node stack (Inside scope node stack l P) (builtinPrintln args)
      fun v => Inside scope node stack l fun m => m.result = v :=
  (builtinPrint_follows args).bind fun _ => (writeOut_follows storeFree_result).bind fun _ =>
    follows_pure fun _ h => h

theorem builtinExit_follows (args : List Val) :
    FollowsIn scope node stack (Inside scope node stack l P) (builtinExit args)
      fun v => Inside scope node stack l fun m => m.result = v := by
  unfold builtinExit
  split
  · exact follows_throw
  · split
    · exact follows_throw
    · exact failFn_follows

theorem builtinRead_follows :
    FollowsIn scope node stack (Inside scope node stack l P) builtinRead
      fun v => Inside scope node stack l fun m => m.result = v := by
  refine (getStore_follows (P := fun _ => True)).pre (fun _ h => h.any) |>.bind fun lines => ?_
  split
  · exact getStore_follows.bind fun _ => failFn_follows
  · rename_i line rest
    have hstore : ∀ store : Store, ({ store with stdin := rest } : Store).strings = store.strings ∧
        ({ store with stdin := rest } : Store).vectors = store.vectors := fun _ => ⟨rfl, rfl⟩
    refine (updateStore_follows storeFree_true hstore).bind fun _ => ?_
    exact (newString_follows storeFree_true).bind fun s => givePlain_follows fun f h => by cases h

theorem pushCopies_follows (vector : Nat) (args : List Val) :
    FollowsIn scope node stack (Inside scope node stack l fun _ => True) (pushCopies vector args)
      fun _ => Inside scope node stack l fun _ => True := by
  induction args with
  | nil => exact follows_pure fun _ h => h
  | cons arg args ih =>
    refine valCopyDeep_follows.bind fun copy => ?_
    exact (vectorPush_follows storeFree_true).pre (fun _ h => h.any) |>.bind fun _ => ih

theorem builtinArray_follows (args : List Val) :
    FollowsIn scope node stack (Inside scope node stack l P) (builtinArray args)
      fun v => Inside scope node stack l fun m => m.result = v := by
  refine ((vectorInit_follows storeFree_true).pre fun _ h => h.any).bind fun vector => ?_
  exact (pushCopies_follows vector args).bind fun _ => givePlain_follows fun f h => by cases h

variable {rec : Nat → AstNode → Eval Val} (hrec : EvalFollows rec)

section Filter

variable {args : List Val} {f : Nat} (hf : ∃ v ∈ args, v.data = .function f)

theorem readFn_follows {f : Nat} :
    FollowsIn scope node stack (Inside scope node stack l P) (readFn f)
      fun fn => Inside scope node stack l fun m => P m ∧ m.fns.read f = some fn :=
  follows_get fun _ _ _ hP hr => ⟨hP, hr⟩

theorem declareCallbackParams_follows {s : Nat} {fn : FnVal} {testVal : Val}
    (names : List String) (hnames : ∀ name ∈ names, name ∈ fn.paramNames) :
    FollowsIn scope node stack
      (Inside scope node stack (.builtin args (some (f, s))) fun m =>
        m.result = testVal ∧ m.fns.read f = some fn)
      (declareCallbackParams s testVal names)
      fun _ => Inside scope node stack (.builtin args (some (f, s))) fun _ => True := by
  induction names with
  | nil => exact follows_pure fun _ h => h.any
  | cons name names ih =>
    refine Follows.bind (declareParam_follows f fn (fun m h => ⟨rfl, rfl, h.2⟩)
      (hnames name (List.mem_cons_self ..)) fun m h => h.1.symm) fun _ => ?_
    refine (ih fun name h => hnames name (List.mem_cons_of_mem _ h)).pre fun m h => ?_
    exact h.imp fun m ⟨m₀, scopes, hm, heq⟩ => heq ▸ hm

include hrec in
theorem callbackBody_follows {s : Nat} (gas i : Nat) (ret : Val) :
    FollowsIn scope node stack
      (Inside scope node stack (.builtin args (some (f, s))) fun _ => True)
      (callbackBody rec f s gas i ret)
      fun _ => Inside scope node stack (.builtin args (some (f, s))) fun _ => True := by
  induction gas generalizing i ret with
  | zero => exact follows_throw
  | succ gas ih =>
    refine readFn_follows.bind fun fn => ?_
    split
    · rename_i stmt hstmt
      refine (callEval_follows hrec fun m hs hP => ?_).bind fun v => (ih _ _).pre fun _ h => h.any
      exact .callBody m _ stack f fn stmt s hs ⟨rfl, rfl, hP.2⟩ (List.mem_of_getElem? hstmt)
    · exact follows_pure fun _ h => h.any

include hrec hf in
theorem arrayFilterCallFn_follows (gas : Nat) (testVal : Val) :
    FollowsIn scope node stack
      (Inside scope node stack (.builtin args none) fun m => m.result = testVal)
      (arrayFilterCallFn rec gas scope f testVal)
      fun _ => Inside scope node stack (.builtin args none) fun _ => True := by
  refine readFn_follows.bind fun fn => ?_
  split
  · rename_i s hs
    refine Follows.bind (activate_follows (f := f) (s := s)
      (Q := fun m => m.result = testVal ∧ m.fns.read f = some fn) (.inr ⟨args, rfl⟩)
      (fun m hP => ⟨⟨fn, hP.2, hs⟩, hf⟩) fun m stack hP => hP) fun _ => ?_
    refine (declareCallbackParams_follows fn.paramNames fun _ h => h).bind fun _ => ?_
    refine (callbackBody_follows hrec gas 0 nullVal).bind fun ret => ?_
    refine Follows.bind (rescope_follows (Q := fun _ => True) (fun m fn' _ hr => ⟨hr, rfl⟩)
      fun _ _ _ _ _ => trivial) fun _ => follows_pure fun _ h => h
  · rename_i hs
    refine Follows.bind (rescope_follows (Q := fun _ => True) (fun m fn' hP hr => ⟨hr, hf, ?_⟩)
      fun _ _ _ _ _ => trivial) fun _ => follows_pure fun _ h => h
    exact Option.some.inj (hP.2.symm.trans hr) ▸ hs

theorem keepElement_follows {newVector : Nat} {slot : Option Nat} (keep : Bool) :
    FollowsIn scope node stack (Inside scope node stack l fun _ => True)
      (keepElement newVector slot keep) fun _ => Inside scope node stack l fun _ => True := by
  cases keep with
  | true => exact vectorPush_follows storeFree_true
  | false => exact follows_pure fun _ h => h

include hrec hf in
theorem arrayFilterLoop_follows (vector newVector gas i : Nat) :
    FollowsIn scope node stack (Inside scope node stack (.builtin args none) fun _ => True)
      (arrayFilterLoop rec scope f vector newVector gas i)
      fun _ => Inside scope node stack (.builtin args none) fun _ => True := by
  induction gas generalizing i with
  | zero => exact follows_throw
  | succ gas ih =>
    refine getStore_follows.bind fun data => ?_
    split
    · refine (follows_get (Q := fun _ _ => True) fun _ _ _ _ _ => trivial).bind fun orig => ?_
      refine valCopyDeep_follows.bind fun testVal => ?_
      refine (arrayFilterCallFn_follows hrec hf gas testVal).bind fun keep => ?_
      refine getStore_follows.bind fun data => ?_
      exact (keepElement_follows keep).bind fun _ => ih _
    · exact follows_pure fun _ h => h

end Filter

include hrec in
theorem builtinArrayFilter_follows (gas : Nat) (args : List Val) :
    FollowsIn scope node stack (Inside scope node stack (.builtin args none) fun _ => True)
      (builtinArrayFilter rec gas scope args)
      fun v => Inside scope node stack (.builtin args none) fun m => m.result = v := by
  unfold builtinArrayFilter
  split
  · rename_i array callback
    refine Follows.bind (follows_get (Q := fun r _ => callback.data = .function r.1)
      fun m r _ _ hr => ?_) fun r => ?_
    · unfold Machine.fnOf at hr
      split at hr
      · obtain ⟨fn, -, rfl⟩ := Option.map_eq_some_iff.mp hr
        assumption
      · cases hr
    · obtain ⟨f, fn⟩ := r
      refine follows_ite (fun _ => failFn_follows) fun _ => ?_
      intro w hw
      have hf : ∃ v ∈ [array, callback], v.data = .function f := ⟨callback, by simp, hw.2⟩
      revert w
      refine ((vectorInit_follows storeFree_true).pre fun _ h => h.any).bind fun newVector => ?_
      split
      · exact (arrayFilterLoop_follows hrec hf _ _ gas 0).bind fun _ =>
          givePlain_follows fun f h => by cases h
      · exact follows_throw
  · exact failFn_follows

include hrec in
theorem callBuiltin_follows (gas : Nat) (callback : BuiltinFn) (args : List Val) :
    FollowsIn scope node stack (Inside scope node stack (.builtin args none) fun _ => True)
      (callBuiltin rec gas scope callback args)
      fun v => Inside scope node stack (.builtin args none) fun m => m.result = v := by
  cases callback with
  | println => exact builtinPrintln_follows args
  | print => exact builtinPrint_follows args
  | array => exact builtinArray_follows args
  | arrayFilter => exact builtinArrayFilter_follows hrec gas args
  | read => exact builtinRead_follows
  | exit => exact builtinExit_follows args

/-! ## Operators -/

theorem valStringify_follows {val : Val} :
    FollowsIn scope node stack (Inside scope node stack l P) (valStringify val)
      fun _ => Inside scope node stack l P := by
  unfold valStringify
  split
  · exact getStore_follows.bind fun _ => follows_pure fun _ h => h
  all_goals exact follows_pure fun _ h => h

theorem concatParts_follows {left right : Val} :
    FollowsIn scope node stack (Inside scope node stack l P) (concatParts left right)
      fun _ => Inside scope node stack l P := by
  have hone : ∀ {s : Nat} {k : String → Option (String × String)},
      FollowsIn scope node stack (Inside scope node stack l P)
        (getStore (fun store => store.strings.read s) >>= fun t => pure (k t))
        fun _ => Inside scope node stack l P :=
    getStore_follows.bind fun _ => follows_pure fun _ h => h
  unfold concatParts
  split
  · exact getStore_follows.bind fun _ => getStore_follows.bind fun _ => follows_pure fun _ h => h
  · exact hone
  · exact hone
  · exact hone
  · exact hone
  · exact hone
  · exact hone
  · exact follows_pure fun _ h => h

theorem evalConcat_follows {left right : Val} {leftPos : Pos} :
    FollowsIn scope node stack (Inside scope node stack l P) (evalConcat left right leftPos)
      fun v => Inside scope node stack l fun m => m.result = v := by
  refine concatParts_follows.bind fun parts => ?_
  rcases parts with _ | ⟨left, right⟩
  · exact follows_throw
  · exact ((newString_follows storeFree_true).pre fun _ h => h.any).bind fun s =>
      newSlot_follows fun f h => by cases h

theorem giveBool_follows {b : Bool} :
    FollowsIn scope node stack (Inside scope node stack l P) (giveBool b)
      fun v => Inside scope node stack l fun m => m.result = v :=
  givePlain_follows fun f h => by cases h

theorem evalBinexpString_follows {operator : BinOperator} {left right : Val} {leftPos : Pos} :
    FollowsIn scope node stack (Inside scope node stack l P)
      (evalBinexpString operator left right leftPos)
      fun v => Inside scope node stack l fun m => m.result = v := by
  unfold evalBinexpString
  refine follows_ite (fun _ => evalConcat_follows) fun _ => ?_
  refine valStringify_follows.bind fun leftStr => valStringify_follows.bind fun rightStr => ?_
  have hcmp : FollowsIn scope node stack (Inside scope node stack l P) (strcmpEq leftStr rightStr)
      fun _ => Inside scope node stack l P := by
    unfold strcmpEq
    split
    · exact follows_pure fun _ h => h
    · exact follows_throw
  cases operator with
  | opCmpEq => exact hcmp.bind fun _ => giveBool_follows
  | opCmpEqS => exact hcmp.bind fun _ => giveBool_follows
  | opCmpNe => exact hcmp.bind fun _ => giveBool_follows
  | opCmpNeS => exact hcmp.bind fun _ => giveBool_follows
  | _ => exact follows_throw

theorem evalBinexpCmpGeneric_follows {operator : BinOperator} {left right : Val} {leftPos : Pos} :
    FollowsIn scope node stack (Inside scope node stack l P)
      (evalBinexpCmpGeneric operator left right leftPos)
      fun v => Inside scope node stack l fun m => m.result = v := by
  unfold evalBinexpCmpGeneric
  refine follows_ite (fun _ => evalBinexpString_follows) fun _ => ?_
  cases operator with
  | opPlus => exact follows_throw
  | opMinus => exact follows_throw
  | opTimes => exact follows_throw
  | opDivide => exact follows_throw
  | opModulus => exact follows_throw
  | _ => exact giveBool_follows

theorem giveInt_follows {i : Int} :
    FollowsIn scope node stack (Inside scope node stack l P) (giveInt i)
      fun v => Inside scope node stack l fun m => m.result = v :=
  follows_ite (fun _ => givePlain_follows fun f h => by cases h) fun _ => follows_throw

theorem evalBinexpInt_follows {operator : BinOperator} {left right : Int} {rightPos : Pos} :
    FollowsIn scope node stack (Inside scope node stack l P)
      (evalBinexpInt operator left right rightPos)
      fun v => Inside scope node stack l fun m => m.result = v := by
  cases operator with
  | opPlus => exact giveInt_follows
  | opMinus => exact giveInt_follows
  | opTimes => exact giveInt_follows
  | opDivide =>
    exact follows_ite (fun _ => follows_throw) fun _ => givePlain_follows fun f h => by cases h
  | opModulus =>
    exact follows_ite (fun _ => follows_throw) fun _ =>
      follows_ite (fun _ => giveInt_follows) fun _ => follows_throw
  | _ => exact follows_throw

theorem evalBinop_follows {pos leftPos rightPos : Pos} {operator : BinOperator} {left right : Val} :
    FollowsIn scope node stack (Inside scope node stack l P)
      (evalBinop pos leftPos rightPos operator left right)
      fun v => Inside scope node stack l fun m => m.result = v := by
  unfold evalBinop
  refine follows_ite (fun _ => evalBinexpCmpGeneric_follows) fun _ => ?_
  split
  · exact evalBinexpInt_follows
  · exact follows_ite (fun _ => evalBinexpString_follows) fun _ => follows_throw

/-! ## Expressions and declarations -/

include hrec

theorem evalBinexp_follows {pos : Pos} {operator : BinOperator} {left right : AstNode}
    (hn : node = .binaryExpr pos operator left right) :
    FollowsIn scope node stack (Inside scope node stack .none fun _ => True)
      (evalBinexp rec scope pos operator left right)
      fun v => Inside scope node stack .none fun m => m.result = v := by
  subst hn
  refine (callChild_follows hrec (by exact ⟨rfl, by simp [AstNode.children], rfl⟩)).bind fun left => ?_
  refine (callChild_follows hrec (by exact ⟨rfl, by simp [AstNode.children], rfl⟩)).bind fun right => ?_
  exact evalBinop_follows

omit hrec in
theorem evalIdentifier_follows {pos : Pos} {symbol : String} :
    FollowsIn scope node stack (Inside scope node stack l P) (evalIdentifier scope pos symbol)
      fun v => Inside scope node stack l fun m => m.result = v := by
  refine resolveIdentifier_follows.bind fun val => ?_
  rcases val with _ | val
  · exact follows_throw
  · refine derefEntry_follows.bind fun v => giveValue_follows fun m h => .inr ?_
    obtain ⟨-, isConst, hr⟩ := h
    exact bound_of_readEntry hr

theorem evalAssignment_follows {pos : Pos} {assignee value : AstNode}
    (hn : node = .assignment pos assignee value) :
    FollowsIn scope node stack (Inside scope node stack .none fun _ => True)
      (evalAssignment rec scope pos assignee value)
      fun v => Inside scope node stack .none fun m => m.result = v := by
  subst hn
  refine (callChild_follows hrec (by exact ⟨rfl, rfl, rfl⟩)).bind fun val => ?_
  split
  · refine (assignIdentifier_follows rfl fun _ h => h.symm).bind fun status => ?_
    split
    · exact follows_throw
    · exact follows_throw
    · exact follows_pure fun _ h => h
  · exact follows_throw

theorem declValue_follows {pos : Pos} {name : String} {isConst : Bool} {value : Option AstNode}
    (hn : node = .varDecl pos name isConst value) :
    FollowsIn scope node stack (Inside scope node stack .none fun _ => True)
      (declValue rec scope value)
      fun v => Inside scope node stack .none fun m => m.result = v := by
  subst hn
  rcases value with _ | value
  · exact giveNull_follows
  · exact callChild_follows hrec (by exact ⟨rfl, by simp [AstNode.children], rfl⟩)

theorem evalVarDecl_follows {pos : Pos} {name : String} {isConst : Bool} {value : Option AstNode}
    (hn : node = .varDecl pos name isConst value) :
    FollowsIn scope node stack (Inside scope node stack .none fun _ => True)
      (evalVarDecl rec scope pos name isConst value)
      fun v => Inside scope node stack .none fun m => m.result = v := by
  have hdecl : Frame.Declares ⟨scope, node, .none⟩ name scope := by subst hn; exact ⟨rfl, rfl⟩
  refine (declValue_follows hrec hn).bind fun val => ?_
  refine (follows_get (Q := fun _ m => m.result = val) fun _ _ _ h _ => h).bind fun reuse => ?_
  refine follows_ite (fun _ => ?_) fun _ => ?_
  · exact (setDefaultIn_follows hdecl fun _ h => .inl h.symm).bind fun _ => giveBlazeNull_follows
  · refine (declareIdentifier_follows hdecl fun _ h => .inl h.symm).bind fun status => ?_
    exact follows_ite (fun _ => follows_throw) fun _ => giveNull_follows

omit hrec in
theorem evalFnDecl_follows {pos : Pos} {identifier : String} {paramNames : List String}
    {body : List AstNode} (hn : node = .fnDecl pos identifier paramNames body) :
    FollowsIn scope node stack (Inside scope node stack .none fun _ => True)
      (evalFnDecl scope pos identifier paramNames body)
      fun v => Inside scope node stack .none fun m => m.result = v := by
  have hdecl : Frame.Declares ⟨scope, node, .none⟩ identifier scope := by subst hn; exact ⟨rfl, rfl⟩
  refine copyBody_follows.bind fun body => newFn_follows.bind fun fn => ?_
  refine (declareIdentifier_follows hdecl fun _ h => .inl h.symm).bind fun status => ?_
  exact follows_ite (fun _ => follows_throw) fun _ => giveNull_follows

theorem evalElements_follows {vector : Nat} (elements : List AstNode)
    (hc : ∀ e ∈ elements, Frame.Calls ⟨scope, node, .none⟩ e scope) :
    FollowsIn scope node stack (Inside scope node stack .none fun _ => True)
      (evalElements rec scope vector elements)
      fun _ => Inside scope node stack .none fun _ => True := by
  induction elements with
  | nil => exact follows_pure fun _ h => h
  | cons element elements ih =>
    refine (callChild_follows hrec (hc _ (List.mem_cons_self ..))).bind fun val => ?_
    refine valCopyDeep_follows.bind fun copy => ?_
    refine ((vectorPush_follows storeFree_true).pre fun _ h => h.any).bind fun _ => ?_
    exact ih fun e he => hc e (List.mem_cons_of_mem _ he)

theorem evalArrayLit_follows {pos : Pos} {elements : List AstNode}
    (hn : node = .arrayLit pos elements) :
    FollowsIn scope node stack (Inside scope node stack .none fun _ => True)
      (evalArrayLit rec scope elements)
      fun v => Inside scope node stack .none fun m => m.result = v := by
  refine (vectorInit_follows storeFree_true).bind fun vector => ?_
  refine (evalElements_follows hrec elements fun e he => ?_).bind fun _ =>
    givePlain_follows fun f h => by cases h
  subst hn
  exact ⟨rfl, he, rfl⟩

/-! ## Statements -/

theorem evalStmts_follows {s : Nat} (stmts : List AstNode)
    (hc : ∀ stmt ∈ stmts, Frame.Calls ⟨scope, node, l⟩ stmt s) :
    FollowsIn scope node stack (Inside scope node stack l P) (evalStmts rec s stmts)
      fun _ => Inside scope node stack l fun _ => True := by
  induction stmts generalizing P with
  | nil => exact follows_pure fun _ h => h.any
  | cons stmt stmts ih =>
    refine (callChild_follows hrec (hc _ (List.mem_cons_self ..))).bind fun _ => ?_
    exact ih fun stmt h => hc stmt (List.mem_cons_of_mem _ h)

theorem evalRoot_follows {pos : Pos} {nodes : List AstNode} (hn : node = .root pos nodes)
    (rest : List AstNode) (hrest : ∀ n ∈ rest, n ∈ nodes) (value : Val) :
    FollowsIn scope node stack (Inside scope node stack .none fun m => m.result = value)
      (evalRoot rec scope rest value)
      fun v => Inside scope node stack .none fun m => m.result = v := by
  induction rest generalizing value with
  | nil => exact follows_pure fun _ h => h
  | cons n rest ih =>
    have hc : Frame.Calls ⟨scope, node, .none⟩ n scope := by
      subst hn
      exact ⟨rfl, hrest n (List.mem_cons_self ..), rfl⟩
    refine (callChild_follows hrec hc).bind fun v => ?_
    exact ih (fun n h => hrest n (List.mem_cons_of_mem _ h)) v

theorem evalBlock_follows {pos : Pos} {children : List AstNode} (hn : node = .block pos children) :
    FollowsIn scope node stack (Inside scope node stack .none fun _ => True)
      (evalBlock rec scope children)
      fun v => Inside scope node stack .none fun m => m.result = v := by
  subst hn
  refine openBlock_follows.bind fun s => ?_
  refine (evalStmts_follows hrec children (by exact fun stmt h => ⟨rfl, h, rfl⟩)).bind fun _ => ?_
  exact (closeScope_follows (.inl rfl)).bind fun _ => giveBlazeNull_follows

theorem evalIfStmt_follows {pos : Pos} {condition ifBlock : AstNode} {elseBlock : Option AstNode}
    (hn : node = .ifStmt pos condition ifBlock elseBlock) :
    FollowsIn scope node stack (Inside scope node stack .none fun _ => True)
      (evalIfStmt rec scope condition ifBlock elseBlock)
      fun v => Inside scope node stack .none fun m => m.result = v := by
  subst hn
  refine (callChild_follows hrec (by exact ⟨rfl, by simp [AstNode.children], rfl⟩)).bind fun condVal => ?_
  refine follows_ite (fun _ => ?_) fun _ => ?_
  · exact (callChild_follows hrec (by exact ⟨rfl, by simp [AstNode.children], rfl⟩)).bind fun _ =>
      giveBlazeNull_follows
  · split
    · exact (callChild_follows hrec (by exact ⟨rfl, by simp [AstNode.children], rfl⟩)).bind fun _ =>
        giveBlazeNull_follows
    · exact giveBlazeNull_follows

/-! ## Loops -/

section Loop

variable {pos : Pos} {iterCount : Option AstNode} {varname : Option String} {body : AstNode}
  (hn : node = .loopStmt pos iterCount varname body)
include hn

theorem evalLoopBody_follows {s : Nat} :
    FollowsIn scope node stack (Inside scope node stack (.loop s) fun _ => True)
      (evalLoopBody rec s body)
      fun _ => Inside scope node stack (.loop s) fun _ => True := by
  subst hn
  unfold evalLoopBody
  split
  · exact evalStmts_follows hrec _ fun stmt h => ⟨rfl, .inr h, rfl⟩
  · exact (callChild_follows hrec (by exact ⟨rfl, .inl rfl, rfl⟩)).bind fun _ => follows_pure fun _ h => h.any

omit hrec in
theorem setLoopVar_follows {s counter : Nat} :
    FollowsIn scope node stack (Inside scope node stack (.loop s) fun _ => True)
      (setLoopVar s counter varname)
      fun _ => Inside scope node stack (.loop s) fun _ => True := by
  subst hn
  rcases varname with _ | varname
  · exact follows_pure fun _ h => h
  · exact setDefaultIn_follows ⟨rfl, rfl⟩ fun _ _ => .inr ⟨rfl, fun f h => by cases h⟩

omit hrec in
theorem declareLoopVar_follows {s : Nat} :
    FollowsIn scope node stack (Inside scope node stack (.loop s) fun _ => True)
      (declareLoopVar s varname)
      fun _ => Inside scope node stack (.loop s) fun _ => True := by
  subst hn
  rcases varname with _ | varname
  · exact follows_pure fun _ h => h
  · refine (declareIdentifier_follows (by exact ⟨rfl, rfl⟩) fun _ _ => .inr ⟨rfl, fun f h => by
      cases h⟩).bind fun _ => follows_pure fun _ h => h

theorem loopIteration_follows {s counter : Nat} :
    FollowsIn scope node stack (Inside scope node stack (.loop s) fun _ => True)
      (loopIteration rec s varname body counter)
      fun _ => Inside scope node stack (.loop s) fun _ => True := by
  refine setPrevUniqueId_follows.bind fun _ => ?_
  refine (evalLoopBody_follows hrec hn).bind fun _ => ?_
  exact setUniqueId_follows.bind fun _ => setLoopVar_follows hn

theorem loopFrom_follows {s : Nat} {iterCountVal : Val} (gas counter : Nat) :
    FollowsIn scope node stack (Inside scope node stack (.loop s) fun _ => True)
      (loopFrom rec s varname body iterCountVal gas counter)
      fun _ => Inside scope node stack (.loop s) fun _ => True := by
  induction gas generalizing counter with
  | zero => exact follows_ite (fun _ => follows_throw) fun _ => follows_pure fun _ h => h
  | succ gas ih =>
    refine follows_ite (fun _ => ?_) fun _ => follows_pure fun _ h => h
    exact (loopIteration_follows hrec hn).bind fun _ => ih (counter + 1)

theorem runLoop_follows {gas : Nat} {iterCountVal : Val} :
    FollowsIn scope node stack (Inside scope node stack .none P)
      (runLoop rec gas scope varname body iterCountVal)
      fun v => Inside scope node stack .none fun m => m.result = v := by
  refine openLoop_follows.bind fun s => ?_
  refine (declareLoopVar_follows hn).bind fun _ => ?_
  refine (loopFrom_follows hrec hn _ _).bind fun _ => ?_
  exact (closeScope_follows (.inr rfl)).bind fun _ => giveBlazeNull_follows

theorem loopCount_follows :
    FollowsIn scope node stack (Inside scope node stack .none fun _ => True)
      (loopCount rec scope iterCount)
      fun v => Inside scope node stack .none fun m => m.result = v := by
  subst hn
  rcases iterCount with _ | iterCount
  · exact giveBool_follows
  · exact callChild_follows hrec (by exact ⟨rfl, rfl, rfl⟩)

theorem evalLoopStmt_follows {gas : Nat} :
    FollowsIn scope node stack (Inside scope node stack .none fun _ => True)
      (evalLoopStmt rec gas scope pos iterCount varname body)
      fun v => Inside scope node stack .none fun m => m.result = v := by
  refine (loopCount_follows hrec hn).bind fun iterCountVal => ?_
  split
  · exact runLoop_follows hrec hn
  · exact follows_ite (fun _ => follows_throw) fun _ => runLoop_follows hrec hn
  · exact follows_throw

end Loop

/-! ## Calls -/

section Call

variable {pos : Pos} {identifier : String} {argNodes : List AstNode}
  (hn : node = .exprCall pos identifier argNodes) {val : EntryPtr}

include hn in
theorem evalArgs_follows (rest : List AstNode) (hrest : ∀ n ∈ rest, n ∈ argNodes)
    (args : List Val) :
    FollowsIn scope node stack (Inside scope node stack (.call val args none) fun _ => True)
      (evalArgs rec scope rest)
      fun _ m => ∃ args, Inside scope node stack (.call val args none) (fun _ => True) m := by
  induction rest generalizing args with
  | nil => exact follows_pure fun _ h => ⟨args, h⟩
  | cons arg rest ih =>
    have hc : Frame.Calls ⟨scope, node, .call val args none⟩ arg scope := by
      subst hn
      exact ⟨rfl, hrest arg (List.mem_cons_self ..), rfl⟩
    refine (callChild_follows hrec hc).bind fun v => storeArg_follows.bind fun _ => ?_
    exact ih (fun n h => hrest n (List.mem_cons_of_mem _ h)) _

variable {args : List Val} {a : Nat × Nat}

omit hrec in
theorem runs_of_callee {m : Machine} {f s : Nat} {fn : FnVal} (hc : m.calleeOf val = some (f, fn))
    (hs : fn.scope = some s) : m.Runs ⟨scope, node, .call val args (some a)⟩ f fn s := ⟨hc, hs⟩

omit hrec in
theorem bindParams_follows (rest : List Val) (hrest : ∀ v ∈ rest, v ∈ args) (i : Nat) :
    FollowsIn scope node stack (Inside scope node stack (.call val args (some a)) P)
      (bindParams val pos identifier i rest)
      fun _ => Inside scope node stack (.call val args (some a)) fun _ => True := by
  induction rest generalizing i P with
  | nil => exact follows_pure fun _ h => h.any
  | cons arg rest ih =>
    refine callee_follows.bind fun r => ?_
    obtain ⟨f, fn⟩ := r
    rcases hs : fn.scope with _ | s <;> rcases hname : fn.paramNames[i]? with _ | name <;>
      simp only [hs, hname]
    · exact follows_throw
    · exact follows_throw
    · exact follows_throw
    refine (declareParam_follows f fn (fun m h => runs_of_callee h.2 hs)
      (List.mem_of_getElem? hname) fun m _ => hrest arg (List.mem_cons_self ..)).bind fun status => ?_
    refine follows_ite (fun _ => follows_throw) fun _ => ?_
    exact ih (fun v h => hrest v (List.mem_cons_of_mem _ h)) (i + 1)

theorem runBody_follows (gas i : Nat) (ret : Option Val) :
    FollowsIn scope node stack (Inside scope node stack (.call val args (some a)) P)
      (runBody rec val gas i ret)
      fun _ => Inside scope node stack (.call val args (some a)) fun _ => True := by
  induction gas generalizing i ret P with
  | zero => exact follows_throw
  | succ gas ih =>
    refine callee_follows.bind fun r => ?_
    obtain ⟨f, fn⟩ := r
    rcases hstmt : fn.customBody[i]? with _ | stmt <;> rcases hs : fn.scope with _ | s <;>
      simp only [hstmt, hs]
    · exact follows_pure fun _ h => h.any
    · exact follows_pure fun _ h => h.any
    · exact follows_throw
    · refine (callEval_follows hrec fun m hs' hP => ?_).bind fun v => ih _ _
      exact .callBody m _ stack f fn stmt s hs' (runs_of_callee hP.2 hs)
        (List.mem_of_getElem? hstmt)

omit hrec in
theorem read_of_calleeOf {m : Machine} {f : Nat} {fn : FnVal} (h : m.calleeOf val = some (f, fn)) :
    m.fns.read f = some fn := by
  obtain ⟨b, -, h⟩ := Option.bind_eq_some_iff.mp h
  unfold Machine.fnOf at h
  split at h
  · obtain ⟨fn', hr, heq⟩ := Option.map_eq_some_iff.mp h
    obtain ⟨rfl, rfl⟩ := Prod.mk.inj heq
    exact hr
  · cases h

theorem callCustom_follows {gas f : Nat} {fn : FnVal} :
    FollowsIn scope node stack
      (Inside scope node stack (.call val args none) fun m => m.calleeOf val = some (f, fn))
      (callCustom rec gas scope pos identifier val f fn)
      fun v m => m.result = v ∧ ∃ l, l.activation = none ∧ m.stack = ⟨scope, node, l⟩ :: stack := by
  refine callArgs_follows.bind fun args' => ?_
  refine follows_ite (fun _ => follows_throw) fun _ => ?_
  rcases hs : fn.scope with _ | s <;> simp only
  · exact follows_throw
  refine Follows.bind (activate_follows (f := f) (s := s) (Q := fun _ => args' = args)
    (.inl ⟨val, args, rfl⟩) (fun m hP => ⟨⟨fn, read_of_calleeOf hP.1, hs⟩, fn, hP.1⟩)
    fun m stack hP => hP.2) fun _ => ?_
  refine Follows.bind (Q := fun _ => Inside scope node stack (.call val args (some (f, s)))
    fun _ => True) ?_ fun _ => ?_
  · refine (Follows.of_fact (p := args' = args) (P := Inside scope node stack
      (.call val args (some (f, s))) fun _ => True) fun heq => ?_).pre fun m h => ⟨h.2, h.any⟩
    exact bindParams_follows args' (fun v h => heq ▸ h) 0
  · refine (runBody_follows hrec gas 0 none).bind fun ret => ?_
    rcases ret with _ | ret
    · exact follows_throw
    · refine valCopyDeep_follows.bind fun copy => callee_follows.bind fun r => ?_
      obtain ⟨f', fn'⟩ := r
      refine Follows.bind (rescope_follows (f := f') (Q := fun m => m.result = copy)
        (fun m fn'' hP hr => ⟨hr, ?_⟩) fun m scopes fns stack hP => hP.1) fun _ =>
        follows_pure fun m h => ⟨h.2, _, rfl, h.1⟩
      have heq : fn' = fn'' := Option.some.inj ((read_of_calleeOf hP.2).symm.trans hr)
      exact heq ▸ hP.2

include hn in
theorem evalExprCall_follows {gas : Nat} :
    FollowsIn scope node stack (Inside scope node stack .none fun _ => True)
      (evalExprCall rec gas scope pos identifier argNodes)
      fun v m => m.result = v ∧ ∃ l, l.activation = none ∧ m.stack = ⟨scope, node, l⟩ :: stack := by
  refine resolveIdentifier_follows.bind fun r => ?_
  rcases r with _ | val
  · exact follows_throw
  refine beginCall_follows.bind fun _ => ?_
  refine Follows.bind (useVal_follows.bind fun _ => derefEntry_follows) fun v => ?_
  split
  · refine ((evalArgs_follows hrec hn argNodes (fun _ h => h) []).pre fun _ h => h.any).bind fun _ =>
      Follows.of_exists fun args => callee_follows.bind fun r => ?_
    obtain ⟨f, fn⟩ := r
    rcases hb : fn.builtInCallback with _ | callback <;> simp only [hb]
    · exact (callCustom_follows hrec).pre fun m h => h.imp fun m h => h.2
    · refine beginBuiltin_follows.bind fun args' => ?_
      refine ((callBuiltin_follows hrec gas callback args').pre ?_).bind fun ret => ?_
      · intro m h
        obtain rfl := h.2
        exact h.any
      refine getStore_follows.bind fun error => ?_
      rcases error with _ | error
      · exact follows_pure fun m h => ⟨h.2, _, rfl, h.1⟩
      · exact follows_throw
  · exact follows_throw

end Call

/-! ## All nodes -/

/-- The induction step: if the calls of `eval` below a node are paths, so is the evaluation of the
node. -/
theorem evalNode_follows (gas scope : Nat) (node : AstNode) (stack : List Frame) :
    FollowsIn scope node stack (Inside scope node stack .none fun _ => True)
      (evalNode rec gas scope node)
      fun v m => m.result = v ∧ ∃ l, l.activation = none ∧ m.stack = ⟨scope, node, l⟩ :: stack := by
  have hdone : ∀ {x : Eval Val}, FollowsIn scope node stack
      (Inside scope node stack .none fun _ => True) x
      (fun v => Inside scope node stack .none fun m => m.result = v) →
      FollowsIn scope node stack (Inside scope node stack .none fun _ => True) x
        fun v m => m.result = v ∧ ∃ l, l.activation = none ∧ m.stack = ⟨scope, node, l⟩ :: stack :=
    fun h => h.post fun v m h => ⟨h.2, _, rfl, h.1⟩
  cases node with
  | intLit pos intval => exact hdone (givePlain_follows fun f h => by cases h)
  | root pos nodes =>
    exact hdone (giveNull_follows.bind fun null =>
      evalRoot_follows hrec rfl nodes (fun _ h => h) null)
  | string pos strval =>
    exact hdone ((newString_follows storeFree_true).bind fun s =>
      newSlot_follows fun f h => by cases h)
  | binaryExpr pos operator left right => exact hdone (evalBinexp_follows hrec rfl)
  | varDecl pos name isConst value => exact hdone (evalVarDecl_follows hrec rfl)
  | identifier pos symbol => exact hdone evalIdentifier_follows
  | assignment pos assignee value => exact hdone (evalAssignment_follows hrec rfl)
  | exprCall pos identifier args => exact evalExprCall_follows hrec rfl
  | fnDecl pos identifier paramNames body => exact hdone (evalFnDecl_follows rfl)
  | arrayLit pos elements => exact hdone (evalArrayLit_follows hrec rfl)
  | block pos children => exact hdone (evalBlock_follows hrec rfl)
  | ifStmt pos condition ifBlock elseBlock => exact hdone (evalIfStmt_follows hrec rfl)
  | loopStmt pos iterCount varname body => exact hdone (evalLoopStmt_follows hrec rfl)
  | importStmt pos => exact hdone follows_throw

end Eval

/-- Every evaluation is a path of the transition system that stays above its frame. -/
theorem eval_follows (fuel : Nat) : EvalFollows (eval fuel) := by
  induction fuel with
  | zero => exact fun _ _ _ => follows_throw
  | succ fuel ih => exact fun scope node stack => evalNode_follows ih fuel scope node stack

/-- The steps of a program are a path from the initial state. -/
theorem runProgram_path (fuel : Nat) (root : AstNode) (stdin : List String) (strerror : String) :
    Path Trans (.initial root stdin strerror)
      (programSteps fuel root stdin strerror)
      (finalWorld (runProgram fuel root stdin strerror)).state := by
  have hinit : Inside 0 root [] .none (fun _ => True) (.initial root stdin strerror) :=
    ⟨(initial_spec root stdin strerror).stack, trivial⟩
  have h := eval_follows fuel 0 root [] ⟨.initial root stdin strerror, []⟩ hinit
  unfold programSteps runProgram finalWorld
  split at h <;> rename_i heq <;> rw [heq]
  · obtain ⟨⟨t, ht, hp⟩, -⟩ := h
    simp only [List.append_nil] at ht
    exact ht ▸ hp.mono fun _ _ _ h => h.1
  · obtain ⟨t, ht, hp⟩ := h
    simp only [List.append_nil] at ht
    exact ht ▸ hp.mono fun _ _ _ h => h.1

end Blaze
