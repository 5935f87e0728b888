import Blazescript.Eval.Proofs.SameBuiltinProofs

/-!
# Proofs: evaluation under other names

`eval` does the same in two states that differ in names, one lemma for each function of `eval.c`.
-/

namespace Blaze

open Arena Running Tracing

variable {ρ : Naming} {n : Nat} {v v' : Val} {s s' f f' : Nat} {args args' : List Val}

section Rec

variable {rec rec' : Nat → AstNode → Eval Val} (hrec : RecSame rec rec')

section

include hrec

theorem evalBinexp_same (hs : ρ.scopes s s') (pos : Pos) (operator : BinOperator) (left right : AstNode) :
    SameEval ρ n (evalBinexp rec s pos operator left right) (evalBinexp rec' s' pos operator left right) ValsAlike := by
  unfold evalBinexp
  refine (call_same hrec hs left _ _).bind fun _ hle _ _ hl => ?_
  refine (call_same hrec (hle.scopes _ _ hs) right _ _).bind fun _ hle' _ _ hr => ?_
  exact evalBinop_same _ _ _ operator (hl.mono hle') hr

end

/-! ## Names -/

theorem evalIdentifier_same (hs : ρ.scopes s s') (pos : Pos) (symbol : String) :
    SameEval ρ n (evalIdentifier s pos symbol) (evalIdentifier s' pos symbol) ValsAlike := by
  unfold evalIdentifier
  refine (resolveIdentifier_same hs symbol).bind fun _ _ val val' hval => ?_
  rcases rel_cases hval with ⟨rfl, rfl⟩ | ⟨val, val', rfl, rfl, hentry⟩
  · exact same_throw _
  · exact (derefEntry_same hentry).bind fun _ _ _ _ hv => giveValue_same hv

theorem evalFnDecl_same (hs : ρ.scopes s s') (pos : Pos) (identifier : String) (paramNames : List String)
    (body : List AstNode) :
    SameEval ρ n (evalFnDecl s pos identifier paramNames body) (evalFnDecl s' pos identifier paramNames body)
      ValsAlike := by
  unfold evalFnDecl
  refine (copyBody_same body).bind fun _ hle copy copy' hcopy => ?_
  subst hcopy
  refine (newFn_same (hle.scopes _ _ hs) copy paramNames).bind fun _ hle' fn fn' hfn => ?_
  refine (declareIdentifier_same ((hle.trans hle').scopes _ _ hs) hfn identifier true).bind
    fun _ _ status status' hstatus => ?_
  subst hstatus
  by_cases hexists : status = .setExists
  · rw [if_pos hexists]
    exact same_throw _
  · rw [if_neg hexists]
    exact giveValue_same (alike_nullVal _)

include hrec

theorem evalAssignment_same (hs : ρ.scopes s s') (pos : Pos) (assignee value : AstNode) :
    SameEval ρ n (evalAssignment rec s pos assignee value) (evalAssignment rec' s' pos assignee value) ValsAlike := by
  unfold evalAssignment
  refine (call_same hrec hs value _ _).bind fun _ hle val val' hval => ?_
  cases assignee with
  | identifier namePos symbol =>
    refine (assignIdentifier_same (hle.scopes _ _ hs) hval symbol).bind fun _ hle' status status' hstatus => ?_
    subst hstatus
    cases status with
    | setNotFound | setIsConst => exact same_throw _
    | _ => exact same_pure fun _ hle'' => hval.mono (hle'.trans hle'')
  | _ => exact same_throw _

theorem declValue_same (hs : ρ.scopes s s') (value : Option AstNode) :
    SameEval ρ n (declValue rec s value) (declValue rec' s' value) ValsAlike := by
  cases value with
  | none => exact giveValue_same (alike_nullVal ρ)
  | some value => exact call_same hrec hs value _ _

theorem evalVarDecl_same (hs : ρ.scopes s s') (pos : Pos) (name : String) (isConst : Bool) (value : Option AstNode) :
    SameEval ρ n (evalVarDecl rec s pos name isConst value) (evalVarDecl rec' s' pos name isConst value) ValsAlike := by
  unfold evalVarDecl
  refine (declValue_same hrec hs value).bind fun ρ₁ hle val val' hval => ?_
  have hs₁ := hle.scopes _ _ hs
  have hreuse : SameEval ρ₁ n
      (Recorder.readOrThrow .undefined fun m =>
        (m.scopes.read s).map fun s => s.mode = .scModeReuse && s.uniqueId = s.prevUniqueId)
      (Recorder.readOrThrow .undefined fun m =>
        (m.scopes.read s').map fun s => s.mode = .scModeReuse && s.uniqueId = s.prevUniqueId)
      fun _ reuse reuse' => reuse = reuse' :=
    same_readOrThrow fun _ hle' _ _ hm => rel_map (hm.scopes.read (hle'.scopes _ _ hs₁)) fun _ _ hsc => by
      rw [hsc.mode, hsc.uniqueId, hsc.prevUniqueId]
  refine hreuse.bind fun ρ₂ hle₂ reuse reuse' heq => ?_
  subst heq
  cases reuse with
  | true =>
    exact (setDefaultIn_same (hle₂.scopes _ _ hs₁) (hval.mono hle₂) name isConst).bind fun _ _ _ _ _ =>
      giveValue_same (alike_ofData .null)
  | false =>
    refine (declareIdentifier_same (hle₂.scopes _ _ hs₁) (hval.mono hle₂) name isConst).bind
      fun _ _ status status' hstatus => ?_
    subst hstatus
    by_cases hexists : status = .setExists
    · rw [if_pos hexists]
      exact same_throw _
    · rw [if_neg hexists]
      exact giveValue_same (alike_nullVal _)

/-! ## Statements -/

theorem evalStmts_same (hs : ρ.scopes s s') (stmts : List AstNode) :
    SameEval ρ n (evalStmts rec s stmts) (evalStmts rec' s' stmts) fun _ _ _ => True := by
  induction stmts generalizing ρ with
  | nil => exact same_pure fun _ _ => trivial
  | cons stmt stmts ih =>
    unfold evalStmts
    exact (call_same hrec hs stmt _ _).bind fun _ hle _ _ _ => ih (hle.scopes _ _ hs)

theorem evalRoot_same (hs : ρ.scopes s s') (nodes : List AstNode) (hv : v.Alike ρ v') :
    SameEval ρ n (evalRoot rec s nodes v) (evalRoot rec' s' nodes v') ValsAlike := by
  induction nodes generalizing ρ v v' with
  | nil => exact same_pure fun _ hle => hv.mono hle
  | cons node nodes ih =>
    unfold evalRoot
    exact (call_same hrec hs node _ _).bind fun _ hle _ _ hv' => ih (hle.scopes _ _ hs) hv'

theorem evalBlock_same (hs : ρ.scopes s s') (children : List AstNode) :
    SameEval ρ (n + 1) (evalBlock rec s children) (evalBlock rec' s' children) ValsAlike := by
  unfold evalBlock
  refine (openBlock_same hs).bind fun _ _ t t' ht => ?_
  refine (evalStmts_same hrec ht children).bind fun _ hle _ _ _ => ?_
  exact (closeScope_same (hle.scopes _ _ ht)).bind fun _ _ _ _ _ => giveValue_same (alike_ofData .null)

theorem evalIfStmt_same (hs : ρ.scopes s s') (condition ifBlock : AstNode) (elseBlock : Option AstNode) :
    SameEval ρ n (evalIfStmt rec s condition ifBlock elseBlock) (evalIfStmt rec' s' condition ifBlock elseBlock)
      ValsAlike := by
  unfold evalIfStmt
  refine (call_same hrec hs condition _ _).bind fun _ hle cond cond' hcond => ?_
  rw [valIsTruthy_alike hcond]
  cases valIsTruthy cond' with
  | true =>
    exact (call_same hrec (hle.scopes _ _ hs) ifBlock _ _).bind fun _ _ _ _ _ => giveValue_same (alike_ofData .null)
  | false =>
    cases elseBlock with
    | some elseBlock =>
      exact (call_same hrec (hle.scopes _ _ hs) elseBlock _ _).bind fun _ _ _ _ _ => giveValue_same (alike_ofData .null)
    | none => exact giveValue_same (alike_ofData .null)

theorem evalElements_same {a a' : Nat} (hs : ρ.scopes s s') (ha : ρ.vectors a a') (elements : List AstNode) :
    SameEval ρ n (evalElements rec s a elements) (evalElements rec' s' a' elements) fun _ _ _ => True := by
  induction elements generalizing ρ with
  | nil => exact same_pure fun _ _ => trivial
  | cons element elements ih =>
    unfold evalElements
    refine (call_same hrec hs element _ _).bind fun _ hle val val' hval => ?_
    refine (valCopyDeep_same hval).bind fun _ hle₂ copy copy' hcopy => ?_
    refine (vectorPush_same ((hle.trans hle₂).vectors _ _ ha) hcopy.selfPtr).bind fun _ hle₃ _ _ _ => ?_
    have hle' := (hle.trans hle₂).trans hle₃
    exact ih (hle'.scopes _ _ hs) (hle'.vectors _ _ ha)

theorem evalArrayLit_same (hs : ρ.scopes s s') (elements : List AstNode) :
    SameEval ρ n (evalArrayLit rec s elements) (evalArrayLit rec' s' elements) ValsAlike := by
  unfold evalArrayLit
  refine vectorInit_same.bind fun _ hle a a' ha => ?_
  exact (evalElements_same hrec (hle.scopes _ _ hs) ha elements).bind fun _ hle' _ _ _ =>
    giveValue_same (alike_ofData (.array (hle'.vectors _ _ ha)))

/-! ## Loops -/

omit hrec in
theorem loopContinues_alike (hv : v.Alike ρ v') (counter : Nat) :
    loopContinues v counter = loopContinues v' counter := by
  have hdata := hv.data
  unfold loopContinues
  generalize v.data = data at hdata ⊢
  generalize v'.data = data' at hdata ⊢
  cases hdata <;> rfl

omit hrec in
theorem loopGas_alike (hv : v.Alike ρ v') (gas : Nat) : loopGas v gas = loopGas v' gas := by
  have hdata := hv.data
  unfold loopGas
  generalize v.data = data at hdata ⊢
  generalize v'.data = data' at hdata ⊢
  cases hdata <;> rfl

theorem evalLoopBody_same (hs : ρ.scopes s s') (body : AstNode) :
    SameEval ρ n (evalLoopBody rec s body) (evalLoopBody rec' s' body) fun _ _ _ => True := by
  unfold evalLoopBody
  cases body with
  | block _ children => exact evalStmts_same hrec hs children
  | _ => exact (call_same hrec hs _ _ _).bind fun _ _ _ _ _ => same_pure fun _ _ => trivial

omit hrec in
theorem setLoopVar_same (hs : ρ.scopes s s') (counter : Nat) (varname : Option String) :
    SameEval ρ n (setLoopVar s counter varname) (setLoopVar s' counter varname) fun _ _ _ => True := by
  cases varname with
  | none => exact same_pure fun _ _ => trivial
  | some varname => exact setDefaultIn_same hs (alike_ofData (.integer _)) varname true

theorem loopIteration_same (hs : ρ.scopes s s') (varname : Option String) (body : AstNode) (counter : Nat) :
    SameEval ρ n (loopIteration rec s varname body counter) (loopIteration rec' s' varname body counter)
      fun _ _ _ => True := by
  unfold loopIteration
  refine (setPrevUniqueId_same hs counter).bind fun _ hle _ _ _ => ?_
  refine (evalLoopBody_same hrec (hle.scopes _ _ hs) body).bind fun _ hle₂ _ _ _ => ?_
  refine (setUniqueId_same ((hle.trans hle₂).scopes _ _ hs) (counter + 1)).bind fun _ hle₃ _ _ _ => ?_
  exact setLoopVar_same (((hle.trans hle₂).trans hle₃).scopes _ _ hs) (counter + 1) varname

theorem loopFrom_same (varname : Option String) (body : AstNode) (gas : Nat) : ∀ {ρ : Naming} (counter : Nat)
    {v v' : Val}, ρ.scopes s s' → v.Alike ρ v' →
      SameEval ρ n (loopFrom rec s varname body v gas counter) (loopFrom rec' s' varname body v' gas counter)
        fun _ _ _ => True := by
  induction gas with
  | zero =>
    intro ρ counter v v' hs hv
    unfold loopFrom
    rw [loopContinues_alike hv]
    cases loopContinues v' counter with
    | true => exact same_throw _
    | false => exact same_pure fun _ _ => trivial
  | succ gas ih =>
    intro ρ counter v v' hs hv
    unfold loopFrom
    rw [loopContinues_alike hv]
    cases loopContinues v' counter with
    | true =>
      exact (loopIteration_same hrec hs varname body counter).bind fun _ hle _ _ _ =>
        ih (counter + 1) (hle.scopes _ _ hs) (hv.mono hle)
    | false => exact same_pure fun _ _ => trivial

omit hrec in
theorem declareLoopVar_same (hs : ρ.scopes s s') (varname : Option String) :
    SameEval ρ n (declareLoopVar s varname) (declareLoopVar s' varname) fun _ _ _ => True := by
  cases varname with
  | none => exact same_pure fun _ _ => trivial
  | some varname =>
    exact (declareIdentifier_same hs (alike_ofData (.integer 0)) varname true).bind fun _ _ _ _ _ =>
      same_pure fun _ _ => trivial

theorem runLoop_same (gas : Nat) (hs : ρ.scopes s s') (varname : Option String) (body : AstNode) (hv : v.Alike ρ v') :
    SameEval ρ (n + 1) (runLoop rec gas s varname body v) (runLoop rec' gas s' varname body v') ValsAlike := by
  unfold runLoop
  rw [loopGas_alike hv]
  refine (openLoop_same hs).bind fun _ hle t t' ht => ?_
  refine (declareLoopVar_same ht varname).bind fun _ hle₂ _ _ _ => ?_
  refine (loopFrom_same hrec varname body _ 0 (hle₂.scopes _ _ ht) (hv.mono (hle.trans hle₂))).bind
    fun _ hle₃ _ _ _ => ?_
  exact (closeScope_same ((hle₂.trans hle₃).scopes _ _ ht)).bind fun _ _ _ _ _ => giveValue_same (alike_ofData .null)

theorem evalLoopStmt_same (gas : Nat) (hs : ρ.scopes s s') (pos : Pos) (iterCount : Option AstNode)
    (varname : Option String) (body : AstNode) :
    SameEval ρ (n + 1) (evalLoopStmt rec gas s pos iterCount varname body)
      (evalLoopStmt rec' gas s' pos iterCount varname body) ValsAlike := by
  unfold evalLoopStmt
  have hcount : SameEval ρ (n + 1) (loopCount rec s iterCount) (loopCount rec' s' iterCount) ValsAlike := by
    cases iterCount with
    | none => exact giveValue_same (alike_ofData (.boolean true))
    | some count => exact call_same hrec hs count _ _
  refine hcount.bind fun _ hle val val' hval => ?_
  have hrun := runLoop_same hrec (n := n) gas (hle.scopes _ _ hs) varname body hval
  have hdata := hval.data
  generalize val.data = data at hdata ⊢
  generalize val'.data = data' at hdata ⊢
  cases hdata with
  | boolean => exact hrun
  | integer intval =>
    by_cases hneg : intval < 0
    · simp only [if_pos hneg]
      exact same_throw _
    · simp only [if_neg hneg]
      exact hrun
  | _ => exact same_throw _

/-! ## Calls -/

theorem evalArgs_same (hs : ρ.scopes s s') (args : List AstNode) :
    SameEval ρ (n + 1) (evalArgs rec s args) (evalArgs rec' s' args) fun _ _ _ => True := by
  induction args generalizing ρ with
  | nil => exact same_pure fun _ _ => trivial
  | cons arg args ih =>
    unfold evalArgs
    refine (call_same hrec hs arg _ _).bind fun _ hle val val' hval => ?_
    exact (storeArg_same hval).bind fun _ hle' _ _ _ => ih ((hle.trans hle').scopes _ _ hs)

omit hrec in
theorem bindParams_same (pos : Pos) (identifier : String) : ∀ {ρ : Naming} (i : Nat) {val val' : EntryPtr}
    {args args' : List Val}, val.Alike ρ.scopes val' → List.Forall₂ (Val.Alike ρ) args args' →
      SameEval ρ n (bindParams val pos identifier i args) (bindParams val' pos identifier i args')
        fun _ _ _ => True := by
  intro ρ i val val' args
  induction args generalizing ρ i with
  | nil =>
    intro args' _ hargs
    cases hargs
    exact same_pure fun _ _ => trivial
  | cons arg args ih =>
    intro args' hval hargs
    cases hargs with
    | cons harg hrest =>
      unfold bindParams
      refine (callee_same hval).bind fun _ hle g g' hg => ?_
      obtain ⟨f, fn⟩ := g
      obtain ⟨f', fn'⟩ := g'
      obtain ⟨-, hfn⟩ := hg
      dsimp only at hfn ⊢
      rw [hfn.paramNames]
      rcases rel_cases hfn.scope with ⟨hscope, hscope'⟩ | ⟨t, t', hscope, hscope', ht⟩
      · rw [hscope, hscope']
        exact same_throw _
      · rw [hscope, hscope']
        cases fn'.paramNames[i]? with
        | none => exact same_throw _
        | some name =>
          refine (declareParam_same ht (harg.mono hle) name).bind fun _ hle' status status' hstatus => ?_
          subst hstatus
          by_cases hexists : status = .setExists
          · rw [if_pos hexists, if_pos hexists]
            exact same_throw _
          · rw [if_neg hexists, if_neg hexists]
            exact ih (i + 1) (hval.mono (hle.trans hle')) (valsAlike_mono hrest (hle.trans hle'))

theorem runBody_same (gas : Nat) : ∀ {ρ : Naming} (i : Nat) {val val' : EntryPtr} {ret ret' : Option Val},
    val.Alike ρ.scopes val' → Option.Rel (Val.Alike ρ) ret ret' →
      SameEval ρ n (runBody rec val gas i ret) (runBody rec' val' gas i ret')
        fun ρ ret ret' => Option.Rel (Val.Alike ρ) ret ret' := by
  induction gas with
  | zero => exact fun _ _ _ _ _ _ _ => same_throw _
  | succ gas ih =>
    intro ρ i val val' ret ret' hval hret
    unfold runBody
    refine (callee_same hval).bind fun _ hle g g' hg => ?_
    obtain ⟨f, fn⟩ := g
    obtain ⟨f', fn'⟩ := g'
    obtain ⟨-, hfn⟩ := hg
    dsimp only at hfn ⊢
    rw [hfn.customBody]
    cases fn'.customBody[i]? with
    | none => exact same_pure fun _ hle' => rel_mono hret fun _ _ hv => hv.mono (hle.trans hle')
    | some stmt =>
      rcases rel_cases hfn.scope with ⟨hscope, hscope'⟩ | ⟨t, t', hscope, hscope', ht⟩
      · rw [hscope, hscope']
        exact same_throw _
      · rw [hscope, hscope']
        exact (call_same hrec ht stmt _ _).bind fun _ hle' _ _ hret' =>
          ih (i + 1) (hval.mono (hle.trans hle')) (.some hret')

/-- A call of a user function, up to the scope that it is given at the end, which may differ. -/
theorem callCustom_refines {T : Val → World Machine Event → Val → World Machine Event → Prop} (gas : Nat) (pos : Pos)
    (identifier : String) {val val' : EntryPtr} {fn fn' : FnVal} (hval : val.Alike ρ.scopes val') (hfn : fn.Alike ρ fn')
    (hlast : ∀ ρ', ρ.Le ρ' → ∀ g g' copy copy', ρ'.fns g g' → copy.Alike ρ' copy' →
      Refines (fun _ => False) (fun w w' => w.state.Alike ρ' (n + 1) w'.state)
        (do rescope g s; pure copy : Eval Val) (do rescope g' s'; pure copy' : Eval Val) T ρ'.SameError) :
    Refines (fun _ => False) (fun w w' => w.state.Alike ρ (n + 1) w'.state)
      (callCustom rec gas s pos identifier val f fn) (callCustom rec' gas s' pos identifier val' f' fn') T
      ρ.SameError := by
  unfold callCustom
  refine callArgs_same.bind_refines fun ρ₁ hle args args' hargs => ?_
  rw [hfn.paramNames, hargs.length_eq]
  by_cases hlength : fn'.paramNames.length ≠ args'.length
  · rw [if_pos hlength, if_pos hlength]
    exact refines_throw fun _ _ hm => ⟨rfl, hm.stdout⟩
  rw [if_neg hlength, if_neg hlength]
  rcases rel_cases hfn.scope with ⟨hscope, hscope'⟩ | ⟨t, t', hscope, hscope', -⟩
  · rw [hscope, hscope']
    exact refines_throw fun _ _ hm => ⟨rfl, hm.stdout⟩
  rw [hscope, hscope']
  refine (activate_same f f' t t').bind_refines fun ρ₂ hle₂ _ _ _ => ?_
  have hle₀ := hle.trans hle₂
  refine (bindParams_same pos identifier 0 (hval.mono hle₀) (valsAlike_mono hargs hle₂)).bind_refines
    fun ρ₃ hle₃ _ _ _ => ?_
  have hle₁ := hle₀.trans hle₃
  refine (runBody_same hrec gas 0 (hval.mono hle₁) .none).bind_refines fun ρ₄ hle₄ ret ret' hret => ?_
  rcases rel_cases hret with ⟨rfl, rfl⟩ | ⟨ret, ret', rfl, rfl, hlast'⟩
  · exact refines_throw fun _ _ hm => ⟨rfl, hm.stdout⟩
  refine (valCopyDeep_same hlast').bind_refines fun ρ₅ hle₅ copy copy' hcopy => ?_
  have hle' := (hle₁.trans hle₄).trans hle₅
  refine (callee_same (hval.mono hle')).bind_refines fun ρ₆ hle₆ g g' hg => ?_
  exact hlast ρ₆ (hle'.trans hle₆) g.1 g'.1 copy copy' hg.1 (hcopy.mono hle₆)

theorem callCustom_same (gas : Nat) (hs : ρ.scopes s s') (pos : Pos) (identifier : String) {val val' : EntryPtr}
    {fn fn' : FnVal} (hval : val.Alike ρ.scopes val') (hfn : fn.Alike ρ fn') :
    SameEval ρ (n + 1) (callCustom rec gas s pos identifier val f fn)
      (callCustom rec' gas s' pos identifier val' f' fn') ValsAlike := by
  intro ρ' hle
  refine callCustom_refines hrec gas pos identifier (hval.mono hle) (hfn.mono hle)
    fun ρ₁ hle₁ g g' copy copy' hg hcopy => ?_
  have hlast : SameEval ρ₁ (n + 1) (do rescope g s; pure copy : Eval Val) (do rescope g' s'; pure copy' : Eval Val)
      ValsAlike :=
    (rescopes_same hg ((hle.trans hle₁).scopes _ _ hs)).bind fun _ hle₂ _ _ _ =>
      same_pure fun _ hle₃ => hcopy.mono (hle₂.trans hle₃)
  exact (hlast ρ₁ (.refl ρ₁)).post fun _ _ _ _ ⟨ρ₂, hle₂, hm, hv⟩ => ⟨ρ₂, hle₁.trans hle₂, hm, hv⟩

theorem evalExprCall_same (gas : Nat) (hs : ρ.scopes s s') (pos : Pos) (identifier : String) (args : List AstNode) :
    SameEval ρ (n + 1) (evalExprCall rec gas s pos identifier args) (evalExprCall rec' gas s' pos identifier args)
      ValsAlike := by
  unfold evalExprCall
  refine (resolveIdentifier_same hs identifier).bind fun ρ₁ hle val val' hval => ?_
  rcases rel_cases hval with ⟨rfl, rfl⟩ | ⟨val, val', rfl, rfl, hentry⟩
  · exact same_throw _
  refine (beginCall_same val val').bind fun ρ₂ hle₂ _ _ _ => ?_
  refine (derefVal_same (hentry.mono hle₂)).bind fun ρ₃ hle₃ v v' hv => ?_
  have hle₀ := (hle.trans hle₂).trans hle₃
  have hdata := hv.data
  generalize v.data = data at hdata ⊢
  generalize v'.data = data' at hdata ⊢
  cases hdata with
  | function _ =>
    refine (evalArgs_same hrec (hle₀.scopes _ _ hs) args).bind fun ρ₄ hle₄ _ _ _ => ?_
    have hval₄ := hentry.mono ((hle₂.trans hle₃).trans hle₄)
    refine (callee_same hval₄).bind fun ρ₅ hle₅ g g' hg => ?_
    obtain ⟨f, fn⟩ := g
    obtain ⟨f', fn'⟩ := g'
    obtain ⟨-, hfn⟩ := hg
    dsimp only at hfn ⊢
    have hs₅ := ((hle₀.trans hle₄).trans hle₅).scopes _ _ hs
    rw [hfn.builtInCallback]
    cases fn'.builtInCallback with
    | none => exact callCustom_same hrec gas hs₅ pos identifier (hval₄.mono hle₅) hfn
    | some callback =>
      refine beginBuiltin_same.bind fun ρ₆ hle₆ args args' hargs => ?_
      refine (callBuiltin_same hrec gas callback (hle₆.scopes _ _ hs₅) hargs).bind fun ρ₇ hle₇ ret ret' hret => ?_
      have herror : SameEval ρ₇ (n + 1) (getStore fun store => some store.evalFnError)
          (getStore fun store => some store.evalFnError) fun _ error error' => error = error' :=
        getStore_same fun _ _ _ _ hm => .some hm.evalFnError
      refine herror.bind fun ρ₈ hle₈ error error' heq => ?_
      subst heq
      cases error with
      | none => exact same_pure fun _ hle₉ => hret.mono (hle₈.trans hle₉)
      | some error => exact same_throw _
  | _ => exact same_throw _

/-- `eval` on any node. -/
theorem evalNode_same (gas : Nat) (hs : ρ.scopes s s') (node : AstNode) :
    SameEval ρ (n + 1) (evalNode rec gas s node) (evalNode rec' gas s' node) ValsAlike := by
  cases node with
  | intLit _ intval => exact giveValue_same (alike_ofData (.integer intval))
  | root _ nodes =>
    exact (giveValue_same (alike_nullVal ρ)).bind fun _ hle _ _ hv => evalRoot_same hrec (hle.scopes _ _ hs) nodes hv
  | string _ strval => exact (newString_same strval).bind fun _ _ _ _ hstring => newSlot_same (.string hstring)
  | binaryExpr pos operator left right => exact evalBinexp_same hrec hs pos operator left right
  | varDecl pos name isConst value => exact evalVarDecl_same hrec hs pos name isConst value
  | identifier pos symbol => exact evalIdentifier_same hs pos symbol
  | assignment pos assignee value => exact evalAssignment_same hrec hs pos assignee value
  | exprCall pos identifier args => exact evalExprCall_same hrec gas hs pos identifier args
  | fnDecl pos identifier paramNames body => exact evalFnDecl_same hs pos identifier paramNames body
  | arrayLit _ elements => exact evalArrayLit_same hrec hs elements
  | block _ children => exact evalBlock_same hrec hs children
  | ifStmt _ condition ifBlock elseBlock => exact evalIfStmt_same hrec hs condition ifBlock elseBlock
  | loopStmt pos iterCount varname body => exact evalLoopStmt_same hrec gas hs pos iterCount varname body
  | importStmt _ => exact same_throw _

end Rec

/-- Evaluation does not depend on names. -/
theorem eval_same (fuel : Nat) : RecSame (eval fuel) (eval fuel) := by
  induction fuel with
  | zero => exact fun _ _ _ _ _ _ => same_throw _
  | succ fuel ih => exact fun _ _ _ _ node hs => evalNode_same ih fuel hs node

end Blaze
