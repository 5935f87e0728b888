import Blazescript.Eval.Proofs.SameOperatorsProofs

/-!
# Proofs: the built-in functions under other names

Each does the same in two states that differ in names, if `rec` does.
-/

namespace Blaze

open Arena Running Tracing

variable {ρ : Naming} {n : Nat} {v v' : Val} {s s' f f' : Nat} {args args' : List Val}

/-! ## Output and input -/

/-- A change of the store that has nothing to do with names. -/
theorem updateStore_same {g g' : Store → Store}
    (h : ∀ ρ', ρ.Le ρ' → ∀ m m' : Machine, m.Alike ρ' n m' →
      ({ m with store := g m.store } : Machine).Alike ρ' n { m' with store := g' m'.store }) :
    SameEval ρ n (updateStore g) (updateStore g') fun _ _ _ => True :=
  same_act_of fun ρ' hle m m' hm => .some (h ρ' hle m m' hm)

theorem writeOut_same (out : List Output) : SameEval ρ n (writeOut out) (writeOut out) fun _ _ _ => True :=
  updateStore_same fun _ _ m m' hm => by
    obtain ⟨out', hout, hout'⟩ := hm.stdout
    have hprinted : ∃ out'', m.store.stdout ++ out = _ ++ out'' ∧ m'.store.stdout ++ out = _ ++ out'' :=
      ⟨out' ++ out, by rw [hout, List.append_assoc], by rw [hout', List.append_assoc]⟩
    exact { hm with stdout := hprinted }

theorem failFn_same (msg : String) : SameEval ρ n (failFn msg) (failFn msg) ValsAlike := by
  unfold failFn
  have hset : SameEval ρ n (updateStore fun store => { store with evalFnError := some msg })
      (updateStore fun store => { store with evalFnError := some msg }) fun _ _ _ => True :=
    updateStore_same fun _ _ _ _ hm => { hm with evalFnError := rfl }
  exact hset.bind fun _ _ _ _ _ => giveValue_same (alike_nullVal _)

/-- What `print` writes for an argument. -/
theorem printed_same (hv : v.Alike ρ v') :
    SameEval ρ n
      (Recorder.readOrThrow .undefined fun m =>
        match v.data with
        | .string s => (m.store.strings.read s).map fun text => [.text text]
        | _ => printValInternal m (m.store.vectors.size + 1) false v)
      (Recorder.readOrThrow .undefined fun m =>
        match v'.data with
        | .string s => (m.store.strings.read s).map fun text => [.text text]
        | _ => printValInternal m (m.store.vectors.size + 1) false v')
      fun _ out out' => out = out' :=
  same_readOrThrow fun ρ' hle m m' hm => by
    have hprint := printVal_alike hm false (hv.mono hle)
    have hself : ∀ o : Option (List Output), Option.Rel (fun out out' => out = out') o o := by
      intro o
      cases o with
      | none => exact .none
      | some out => exact .some rfl
    rw [← hprint]
    have hdata := (hv.mono hle).data
    generalize v.data = data at hdata ⊢
    generalize v'.data = data' at hdata ⊢
    cases hdata with
    | string hs => exact rel_map (hm.strings.read hs) fun _ _ htext => congrArg (fun text => [Output.text text]) htext
    | _ => exact hself _

theorem isEmpty_alike (hargs : List.Forall₂ (Val.Alike ρ) args args') : args.isEmpty = args'.isEmpty := by
  cases hargs <;> rfl

theorem printArgs_same (hargs : List.Forall₂ (Val.Alike ρ) args args') :
    SameEval ρ n (printArgs args) (printArgs args') fun _ _ _ => True := by
  induction args generalizing ρ args' with
  | nil =>
    cases hargs
    exact same_pure fun _ _ => trivial
  | cons arg args ih =>
    cases hargs with
    | cons harg hrest =>
      unfold printArgs
      refine (printed_same harg).bind fun ρ₁ hle out out' hout => ?_
      subst hout
      rw [isEmpty_alike hrest]
      exact (writeOut_same _).bind fun ρ₂ hle' _ _ _ => ih (valsAlike_mono hrest (hle.trans hle'))

theorem builtinPrint_same (hargs : List.Forall₂ (Val.Alike ρ) args args') :
    SameEval ρ n (builtinPrint args) (builtinPrint args') ValsAlike := by
  unfold builtinPrint
  cases hargs with
  | nil => exact failFn_same _
  | cons harg hrest => exact (printArgs_same (.cons harg hrest)).bind fun _ _ _ _ _ => giveValue_same (alike_nullVal _)

theorem builtinPrintln_same (hargs : List.Forall₂ (Val.Alike ρ) args args') :
    SameEval ρ n (builtinPrintln args) (builtinPrintln args') ValsAlike := by
  unfold builtinPrintln
  exact (builtinPrint_same hargs).bind fun _ _ _ _ hret => (writeOut_same _).bind fun _ hle _ _ _ =>
    same_pure fun _ hle' => hret.mono (hle.trans hle')

theorem builtinExit_same (hargs : List.Forall₂ (Val.Alike ρ) args args') :
    SameEval ρ n (builtinExit args) (builtinExit args') ValsAlike := by
  unfold builtinExit
  cases hargs with
  | nil => exact same_throw _
  | @cons arg arg' _ _ harg hrest =>
    dsimp only
    have hdata := harg.data
    generalize arg.data = data at hdata ⊢
    generalize arg'.data = data' at hdata ⊢
    cases hdata with
    | integer => exact same_throw _
    | _ => exact failFn_same _

theorem builtinRead_same : SameEval ρ n builtinRead builtinRead ValsAlike := by
  unfold builtinRead
  have hlines : SameEval ρ n (getStore fun store => some store.stdin) (getStore fun store => some store.stdin)
      fun _ lines lines' => lines = lines' := getStore_same fun _ _ _ _ hm => .some hm.stdin
  refine hlines.bind fun ρ₁ _ lines lines' hlines => ?_
  subst hlines
  cases lines with
  | nil =>
    have herror : SameEval ρ₁ n (getStore fun store => some store.strerror) (getStore fun store => some store.strerror)
        fun _ strerror strerror' => strerror = strerror' := getStore_same fun _ _ _ _ hm => .some hm.strerror
    refine herror.bind fun _ _ strerror strerror' herror => ?_
    subst herror
    exact failFn_same _
  | cons line rest =>
    have hset : SameEval ρ₁ n (updateStore fun store => { store with stdin := rest })
        (updateStore fun store => { store with stdin := rest }) fun _ _ _ => True :=
      updateStore_same fun _ _ _ _ hm => { hm with stdin := rfl }
    exact hset.bind fun _ _ _ _ _ => (newString_same line).bind fun _ _ _ _ hs =>
      giveValue_same (alike_ofData (.string hs))

/-! ## Arrays -/

theorem pushCopies_same {a a' : Nat} (ha : ρ.vectors a a') (hargs : List.Forall₂ (Val.Alike ρ) args args') :
    SameEval ρ n (pushCopies a args) (pushCopies a' args') fun _ _ _ => True := by
  induction args generalizing ρ args' with
  | nil =>
    cases hargs
    exact same_pure fun _ _ => trivial
  | cons arg args ih =>
    cases hargs with
    | cons harg hrest =>
      unfold pushCopies
      refine (valCopyDeep_same harg).bind fun ρ₁ hle copy copy' hcopy => ?_
      refine (vectorPush_same (hle.vectors _ _ ha) hcopy.selfPtr).bind fun ρ₂ hle' _ _ _ => ?_
      exact ih ((hle.trans hle').vectors _ _ ha) (valsAlike_mono hrest (hle.trans hle'))

theorem builtinArray_same (hargs : List.Forall₂ (Val.Alike ρ) args args') :
    SameEval ρ n (builtinArray args) (builtinArray args') ValsAlike := by
  unfold builtinArray
  refine vectorInit_same.bind fun ρ₁ hle a a' ha => ?_
  exact (pushCopies_same ha (valsAlike_mono hargs hle)).bind fun _ hle' _ _ _ =>
    giveValue_same (alike_ofData (.array (hle'.vectors _ _ ha)))

theorem declareCallbackParams_same (hs : ρ.scopes s s') (hv : v.Alike ρ v') (names : List String) :
    SameEval ρ n (declareCallbackParams s v names) (declareCallbackParams s' v' names) fun _ _ _ => True := by
  induction names generalizing ρ with
  | nil => exact same_pure fun _ _ => trivial
  | cons name names ih =>
    unfold declareCallbackParams
    exact (declareParam_same hs hv name).bind fun _ hle _ _ _ => ih (hle.scopes _ _ hs) (hv.mono hle)

theorem keepElement_same {a a' : Nat} {slot slot' : Option Nat} (ha : ρ.vectors a a')
    (hslot : Option.Rel ρ.slots slot slot') (keep : Bool) :
    SameEval ρ n (keepElement a slot keep) (keepElement a' slot' keep) fun _ _ _ => True := by
  cases keep with
  | true => exact vectorPush_same ha hslot
  | false => exact same_pure fun _ _ => trivial

theorem readVector_same {a a' : Nat} (ha : ρ.vectors a a') :
    SameEval ρ n (getStore fun store => store.vectors.read a) (getStore fun store => store.vectors.read a')
      fun ρ data data' => List.Forall₂ (Option.Rel ρ.slots) data data' :=
  getStore_same fun _ hle _ _ hm => hm.vectors.read (hle.vectors _ _ ha)

/-! ## Calls back -/

/-- What evaluates the nodes below does the same in states with a frame. -/
def RecSame (rec rec' : Nat → AstNode → Eval Val) : Prop :=
  ∀ (ρ : Naming) (n s s' : Nat) (node : AstNode), ρ.scopes s s' →
    SameEval ρ (n + 1) (rec s node) (rec' s' node) ValsAlike

section Rec

variable {rec rec' : Nat → AstNode → Eval Val} (hrec : RecSame rec rec')
include hrec

theorem call_same (hs : ρ.scopes s s') (node : AstNode) (body body' : Option Nat) :
    SameEval ρ n (callEval rec body s node) (callEval rec' body' s' node) ValsAlike :=
  callEval_same (hrec ρ n s s' node hs)

theorem callbackBody_same (gas : Nat) : ∀ {ρ : Naming} (i : Nat) {v v' : Val}, ρ.fns f f' → ρ.scopes s s' →
    v.Alike ρ v' → SameEval ρ n (callbackBody rec f s gas i v) (callbackBody rec' f' s' gas i v') ValsAlike := by
  induction gas with
  | zero => exact fun _ _ _ _ _ _ => same_throw _
  | succ gas ih =>
    intro ρ i v v' hf hs hv
    unfold callbackBody
    refine (readFn_same hf).bind fun ρ₁ hle fn fn' hfn => ?_
    rw [hfn.customBody]
    cases fn'.customBody[i]? with
    | none => exact same_pure fun _ hle' => hv.mono (hle.trans hle')
    | some stmt =>
      refine (call_same hrec (hle.scopes _ _ hs) stmt _ _).bind fun ρ₂ hle' ret ret' hret => ?_
      exact ih (i + 1) ((hle.trans hle').fns _ _ hf) ((hle.trans hle').scopes _ _ hs) hret

omit hrec in
theorem boolean_alike (hv : v.Alike ρ v') : decide (v.data = .boolean true) = decide (v'.data = .boolean true) := by
  have hdata := hv.data
  generalize v.data = data at hdata ⊢
  generalize v'.data = data' at hdata ⊢
  cases hdata with
  | boolean => rfl
  | _ => rfl

theorem arrayFilterCallFn_same (gas : Nat) (hs : ρ.scopes s s') (hf : ρ.fns f f') (hv : v.Alike ρ v') :
    SameEval ρ (n + 1) (arrayFilterCallFn rec gas s f v) (arrayFilterCallFn rec' gas s' f' v')
      fun _ keep keep' => keep = keep' := by
  unfold arrayFilterCallFn
  refine (readFn_same hf).bind fun ρ₁ hle fn fn' hfn => ?_
  rcases rel_cases hfn.scope with ⟨hscope, hscope'⟩ | ⟨t, t', hscope, hscope', ht⟩
  · rw [hscope, hscope']
    exact (rescopes_same (hle.fns _ _ hf) (hle.scopes _ _ hs)).bind fun _ _ _ _ _ => same_pure fun _ _ => rfl
  · rw [hscope, hscope', hfn.paramNames]
    refine (activate_same f f' t t').bind fun ρ₂ hle₂ _ _ _ => ?_
    refine (declareCallbackParams_same (hle₂.scopes _ _ ht) (hv.mono (hle.trans hle₂)) _).bind fun ρ₃ hle₃ _ _ _ => ?_
    have hle₀ := (hle.trans hle₂).trans hle₃
    refine (callbackBody_same hrec gas 0 (hle₀.fns _ _ hf) ((hle₂.trans hle₃).scopes _ _ ht) (alike_nullVal _)).bind
      fun ρ₄ hle₄ ret ret' hret => ?_
    refine (rescopes_same ((hle₀.trans hle₄).fns _ _ hf) ((hle₀.trans hle₄).scopes _ _ hs)).bind fun _ _ _ _ _ => ?_
    exact same_pure fun _ _ => boolean_alike hret

theorem arrayFilterLoop_same {a a' b b' : Nat} (gas : Nat) : ∀ {ρ : Naming} (i : Nat), ρ.scopes s s' → ρ.fns f f' →
    ρ.vectors a a' → ρ.vectors b b' →
      SameEval ρ (n + 1) (arrayFilterLoop rec s f a b gas i) (arrayFilterLoop rec' s' f' a' b' gas i)
        fun _ _ _ => True := by
  induction gas with
  | zero => exact fun _ _ _ _ _ => same_throw _
  | succ gas ih =>
    intro ρ i hs hf ha hb
    unfold arrayFilterLoop
    refine (readVector_same ha).bind fun ρ₁ hle data data' hdata => ?_
    rcases rel_cases (rel_get hdata i) with ⟨hslot, hslot'⟩ | ⟨slot, slot', hslot, hslot', hrel⟩
    · rw [hslot, hslot']
      exact same_pure fun _ _ => trivial
    rw [hslot, hslot']
    refine (readSlot_same hrel).bind fun ρ₂ hle₂ orig orig' horig => ?_
    refine (valCopyDeep_same horig).bind fun ρ₃ hle₃ test test' htest => ?_
    have hle₀ := (hle.trans hle₂).trans hle₃
    refine (arrayFilterCallFn_same hrec gas (hle₀.scopes _ _ hs) (hle₀.fns _ _ hf) htest).bind
      fun ρ₄ hle₄ keep keep' hkeep => ?_
    subst hkeep
    have hle₁ := hle₀.trans hle₄
    refine (readVector_same (hle₁.vectors _ _ ha)).bind fun ρ₅ hle₅ data data' hdata => ?_
    have hkept : Option.Rel ρ₅.slots (data[i]?.getD none) (data'[i]?.getD none) := by
      rcases rel_cases (rel_get hdata i) with ⟨hslot, hslot'⟩ | ⟨slot, slot', hslot, hslot', hrel⟩
      · rw [hslot, hslot']
        exact .none
      · rw [hslot, hslot']
        exact hrel
    refine (keepElement_same ((hle₁.trans hle₅).vectors _ _ hb) hkept keep).bind fun ρ₆ hle₆ _ _ _ => ?_
    have hle' := (hle₁.trans hle₅).trans hle₆
    exact ih (i + 1) (hle'.scopes _ _ hs) (hle'.fns _ _ hf) (hle'.vectors _ _ ha) (hle'.vectors _ _ hb)

theorem builtinArrayFilter_same (gas : Nat) (hs : ρ.scopes s s') (hargs : List.Forall₂ (Val.Alike ρ) args args') :
    SameEval ρ (n + 1) (builtinArrayFilter rec gas s args) (builtinArrayFilter rec' gas s' args') ValsAlike := by
  unfold builtinArrayFilter
  cases hargs with
  | nil => exact failFn_same _
  | @cons array array' _ _ harray hrest =>
    cases hrest with
    | nil => exact failFn_same _
    | @cons callback callback' _ _ hcallback hrest =>
      cases hrest with
      | cons _ _ => exact failFn_same _
      | nil =>
        have hfn : SameEval ρ (n + 1) (Recorder.readOrThrow .undefined fun m => m.fnOf callback)
            (Recorder.readOrThrow .undefined fun m => m.fnOf callback')
            fun ρ g g' => ρ.fns g.1 g'.1 ∧ g.2.Alike ρ g'.2 :=
          same_readOrThrow fun _ hle _ _ hm => fnOf_alike hm (hcallback.mono hle)
        refine hfn.bind fun ρ₁ hle g g' hg => ?_
        obtain ⟨f, fn⟩ := g
        obtain ⟨f', fn'⟩ := g'
        obtain ⟨hf, hfn⟩ := hg
        dsimp only at hf hfn ⊢
        rw [hfn.paramNames]
        by_cases hparams : fn'.paramNames.length > 1
        · simp only [if_pos hparams]
          exact failFn_same _
        · simp only [if_neg hparams]
          refine vectorInit_same.bind fun ρ₂ hle₂ b b' hb => ?_
          have hdata := (harray.mono (hle.trans hle₂)).data
          generalize array.data = data at hdata ⊢
          generalize array'.data = data' at hdata ⊢
          cases hdata with
          | array ha =>
            refine (arrayFilterLoop_same hrec gas 0 ((hle.trans hle₂).scopes _ _ hs) (hle₂.fns _ _ hf) ha hb).bind
              fun _ hle₃ _ _ _ => ?_
            exact giveValue_same (alike_ofData (.array (hle₃.vectors _ _ hb)))
          | _ => exact same_throw _

theorem callBuiltin_same (gas : Nat) (callback : BuiltinFn) (hs : ρ.scopes s s')
    (hargs : List.Forall₂ (Val.Alike ρ) args args') :
    SameEval ρ (n + 1) (callBuiltin rec gas s callback args) (callBuiltin rec' gas s' callback args') ValsAlike := by
  cases callback with
  | println => exact builtinPrintln_same hargs
  | print => exact builtinPrint_same hargs
  | array => exact builtinArray_same hargs
  | arrayFilter => exact builtinArrayFilter_same hrec gas hs hargs
  | read => exact builtinRead_same
  | exit => exact builtinExit_same hargs

end Rec

end Blaze
