import Blazescript.Eval.Proofs.LifetimeProofs
import Blazescript.Eval.Proofs.SameCallProofs

/-!
# Proofs: lexical scoping

The parent of the scope of a function is the scope of whoever gave it to the function. So a call runs
under the scope of the declaration exactly if the scope was given to the function there. What the call comes to
depends on the chain of the declaration, and not on the scope the call is made from.
-/

namespace Blaze

open Arena Environment Tracing

variable {m m' : Machine} {event : Event} {steps : List (Step Machine Event)}

/-- What the steps so far say of the functions. -/
structure Given (steps : List (Step Machine Event)) (m : Machine) : Prop where
  /-- A user function has been declared in a scope older than the one it has. -/
  declared : ∀ f fn, m.fns.peek f = some fn → fn.builtInCallback = none →
    ∃ d, declScope steps f = some d ∧ ∀ s, fn.scope = some s → d < s
  /-- The parent of a scope is the one it was given under. -/
  parent : ∀ step ∈ steps, ∀ f s d, GivesUnder step f s d → m.env.parent s = some d
  /-- A copy was given its scope under a scope younger than that of the declaration. -/
  copied : ∀ step ∈ steps, ∀ orig f s d d', step.event = .copyFn orig f → GivesUnder step f s d →
    declScope steps f = some d' → d' < d
  /-- A user function was given the scope it has. -/
  scope : ∀ f fn s, m.fns.peek f = some fn → fn.builtInCallback = none → fn.scope = some s →
    ∃ step ∈ steps, ∃ d, GivesUnder step f s d
  /-- So was a function that is running the scope it had when it was activated. -/
  running : ∀ frame ∈ m.stack, ∀ f s, frame.locals.activation = some (f, s) →
    ∃ fn, m.fns.peek f = some fn ∧
      (fn.builtInCallback = none → ∃ step ∈ steps, ∃ d, GivesUnder step f s d)
  /-- A copy exists. -/
  known : ∀ step ∈ steps, ∀ orig f, step.event = .copyFn orig f → f < m.fns.size

theorem here_eq {frame : Frame} {stack : List Frame} (hs : m.stack = frame :: stack) :
    m.here = some frame.scope := by
  simp [Machine.here, hs]

/-- A step declares only functions that did not exist. -/
theorem declScope_cons (h : Trans m event m') {f : Nat} (hf : f < m.fns.size) :
    declScope (⟨event, m, m'⟩ :: steps) f = declScope steps f := by
  cases h with
  | copyBuiltin | copyCustom | newFn => simp only [declScope, if_neg (Nat.ne_of_gt hf)]
  | _ => rfl

/-- A scope is given under its parent. -/
theorem Trans.gives_parent (h : Trans m event m') (hw : m.Wf) {f s d : Nat}
    (hg : GivesUnder ⟨event, m, m'⟩ f s d) : m'.env.parent s = some d := by
  have hnew : ∀ (p : Nat) (h' : Scopes Val),
      h' = m.scopes.alloc (scopeInit m.builtins (some p)) → p = d →
      (envOf h').parent m.scopes.size = some d := by
    rintro p h' rfl rfl
    rw [alloc_parent, if_pos rfl]
    exact congrArg Prod.fst (scopeInit_child m.builtins p).1
  cases hg with
  | declared hg he hd =>
    obtain rfl := he
    obtain rfl := hg.fresh
    cases h with
    | newFn frame stack body paramNames hs =>
      exact hnew _ _ rfl (Option.some.inj ((here_eq hs).symm.trans hd))
  | called hg he hd =>
    obtain rfl := he
    obtain rfl := hg.fresh
    cases h with
    | rescope frame stack _ fn hs hc =>
      exact hnew _ _ rfl (Option.some.inj ((here_eq hs).symm.trans hd))
  | copied orig hg he hd =>
    obtain rfl := he
    obtain rfl := hg.fresh
    cases h with
    | copyCustom _ fn body hf hb =>
      have hscope : fn.scope = some d := (scopeOf_of_read hf).symm.trans hd
      simp only [hscope]
      exact hnew d _ rfl rfl
    | copyBuiltin _ fn hf hb =>
      -- the copy of a built-in function has the scope of the original, which is not new
      have hp : (m.fns.alloc fn).peek m.fns.size = some fn := by rw [Heap.peek_alloc, if_pos rfl]
      have hscope : fn.scope = some m.scopes.size := by
        have := hg.scopeOf
        simpa only [Machine.scopeOf, hp, Option.bind_some] using this
      have := hw.fnScope orig fn _ (Heap.read_eq_some.mp hf).2 hscope
      omega

/-! ## One step -/

section Step

variable (hI : Given steps m) (h : Trans m event m') (hw : m.Wf)
include hI h hw

theorem Given.step_declared (f : Nat) (fn : FnVal) (hp : m'.fns.peek f = some fn)
    (hb : fn.builtInCallback = none) :
    ∃ d, declScope (⟨event, m, m'⟩ :: steps) f = some d ∧ ∀ s, fn.scope = some s → d < s := by
  -- a function with the scope that the step makes
  have hnew : ∀ g gn d, m.fns.peek g = some gn → gn.builtInCallback = none →
      (∀ s, gn.scope = some s → d < s) → d < m.scopes.size := by
    intro g gn d hg hgb hd
    obtain ⟨s, hs⟩ := Option.isSome_iff_exists.mp (hw.custom g gn hg hgb)
    exact (hd s hs).trans (hw.fnScope g gn s hg hs)
  by_cases hf : f < m.fns.size
  · obtain ⟨fn₀, hp₀, hb₀, hs₀⟩ := h.fn_of hf hp
    obtain ⟨d, hd, hlt⟩ := hI.declared f fn₀ hp₀ (hb₀ ▸ hb)
    refine ⟨d, (declScope_cons h hf).trans hd, fun s hs => ?_⟩
    rcases hs₀ with ⟨-, hs₀⟩ | ⟨-, hs₀⟩
    · obtain rfl := Option.some.inj (hs.symm.trans hs₀)
      exact hnew f fn₀ d hp₀ (hb₀ ▸ hb) hlt
    · exact hlt s (hs₀ ▸ hs)
  · obtain ⟨hs, -, he⟩ := h.fn_new hf hp hb
    rcases he with rfl | ⟨orig, fn₀, rfl, hp₀, hb₀⟩
    · obtain ⟨frame, stack, hstack⟩ := List.exists_cons_of_ne_nil hw.stack
      refine ⟨frame.scope, by simp [declScope, here_eq hstack], fun s hs' => ?_⟩
      obtain rfl := Option.some.inj (hs'.symm.trans hs)
      exact hw.headScope hstack
    · obtain ⟨d, hd, hlt⟩ := hI.declared orig fn₀ hp₀ hb₀
      refine ⟨d, by simpa [declScope] using hd, fun s hs' => ?_⟩
      obtain rfl := Option.some.inj (hs'.symm.trans hs)
      exact hnew orig fn₀ d hp₀ hb₀ hlt

theorem Given.step_parent {step : Step Machine Event} (hmem : step ∈ ⟨event, m, m'⟩ :: steps)
    {f s d : Nat} (hg : GivesUnder step f s d) : m'.env.parent s = some d := by
  rcases List.mem_cons.mp hmem with rfl | hmem
  · exact h.gives_parent hw hg
  · have hp := hI.parent step hmem f s d hg
    obtain ⟨scope, hpeek, -⟩ := Option.bind_eq_some_iff.mp hp
    exact ((h.scopesChange hw).parent (Heap.lt_of_peek hpeek)).trans hp

theorem Given.step_copied {step : Step Machine Event} (hmem : step ∈ ⟨event, m, m'⟩ :: steps)
    {orig f s d d' : Nat} (he : step.event = .copyFn orig f) (hg : GivesUnder step f s d)
    (hd : declScope (⟨event, m, m'⟩ :: steps) f = some d') : d' < d := by
  rcases List.mem_cons.mp hmem with rfl | hmem
  · obtain rfl : event = .copyFn orig f := he
    obtain ⟨orig', hscope, he', horig⟩ : ∃ orig', GivesScope ⟨.copyFn orig f, m, m'⟩ f s ∧
        orig' = orig ∧ m.scopeOf orig' = some d := by
      cases hg with
      | copied orig' hg he hd =>
        obtain ⟨rfl, -⟩ := Event.copyFn.inj he
        exact ⟨_, hg, rfl, hd⟩
      | declared hg he hd => cases he
      | called hg he hd => cases he
    subst he'
    have hd' : declScope steps orig' = some d' := by simpa [declScope] using hd
    obtain ⟨fn, hp, hs⟩ := Option.bind_eq_some_iff.mp horig
    cases hb : fn.builtInCallback with
    | none =>
      obtain ⟨d₀, hd₀, hlt⟩ := hI.declared orig' fn hp hb
      obtain rfl := Option.some.inj (hd'.symm.trans hd₀)
      exact hlt d hs
    | some b =>
      -- the copy of a built-in function gets no new scope
      exfalso
      obtain ⟨hfresh, hpost⟩ := hscope
      cases h with
      | copyCustom _ gn body hf hb' =>
        obtain rfl := Option.some.inj (hp.symm.trans (Heap.read_eq_some.mp hf).2)
        simp [hb] at hb'
      | copyBuiltin _ gn hf hb' =>
        have hpeek : (m.fns.alloc gn).peek m.fns.size = some gn := by
          rw [Heap.peek_alloc, if_pos rfl]
        simp only [Machine.scopeOf, hpeek, Option.bind_some] at hpost
        have := hw.fnScope orig' gn s (Heap.read_eq_some.mp hf).2 hpost
        simp only at hfresh
        omega
  · have hlt := hI.known step hmem orig f he
    exact hI.copied step hmem orig f s d d' he hg ((declScope_cons h hlt).symm.trans hd)

theorem Given.step_scope (f : Nat) (fn : FnVal) (s : Nat) (hp : m'.fns.peek f = some fn)
    (hb : fn.builtInCallback = none) (hs : fn.scope = some s) :
    ∃ step ∈ (⟨event, m, m'⟩ : Step Machine Event) :: steps, ∃ d, GivesUnder step f s d := by
  obtain ⟨frame, stack, hstack⟩ := List.exists_cons_of_ne_nil hw.stack
  have hpost : m'.scopeOf f = some s := by simp [Machine.scopeOf, hp, hs]
  by_cases hf : f < m.fns.size
  · obtain ⟨fn₀, hp₀, hb₀, hs₀⟩ := h.fn_of hf hp
    rcases hs₀ with ⟨rfl, hs₀⟩ | ⟨-, hs₀⟩
    · have hfresh := Option.some.inj (hs.symm.trans hs₀)
      exact ⟨_, List.mem_cons_self .., frame.scope, .called ⟨hfresh, hpost⟩ rfl (here_eq hstack)⟩
    · obtain ⟨step, hmem, hg⟩ := hI.scope f fn₀ s hp₀ (hb₀ ▸ hb) (hs₀ ▸ hs)
      exact ⟨step, List.mem_cons_of_mem _ hmem, hg⟩
  · obtain ⟨hs', -, he⟩ := h.fn_new hf hp hb
    have hfresh := Option.some.inj (hs.symm.trans hs')
    rcases he with rfl | ⟨orig, fn₀, rfl, hp₀, hb₀⟩
    · exact ⟨_, List.mem_cons_self .., frame.scope, .declared ⟨hfresh, hpost⟩ rfl (here_eq hstack)⟩
    · obtain ⟨d, hd⟩ := Option.isSome_iff_exists.mp (hw.custom orig fn₀ hp₀ hb₀)
      refine ⟨_, List.mem_cons_self .., d, .copied orig ⟨hfresh, hpost⟩ rfl ?_⟩
      simp [Machine.scopeOf, hp₀, hd]

omit hw in
theorem Given.step_running {frame : Frame} (hmem : frame ∈ m'.stack) {f s : Nat}
    (ha : frame.locals.activation = some (f, s)) :
    ∃ fn, m'.fns.peek f = some fn ∧ (fn.builtInCallback = none →
      ∃ step ∈ (⟨event, m, m'⟩ : Step Machine Event) :: steps, ∃ d, GivesUnder step f s d) := by
  have hkeep : ∀ fn, m.fns.peek f = some fn →
      (fn.builtInCallback = none → ∃ step ∈ steps, ∃ d, GivesUnder step f s d) →
      ∃ fn, m'.fns.peek f = some fn ∧ (fn.builtInCallback = none →
        ∃ step ∈ (⟨event, m, m'⟩ : Step Machine Event) :: steps, ∃ d, GivesUnder step f s d) := by
    intro fn hp hg
    obtain ⟨fn', hp'⟩ := h.fnsChange.exists_peek hp
    obtain ⟨fn₀, hp₀, hb₀, -⟩ := h.fn_of (Heap.lt_of_peek hp) hp'
    obtain rfl := Option.some.inj (hp.symm.trans hp₀)
    refine ⟨fn', hp', fun hb => ?_⟩
    obtain ⟨step, hmem, hg⟩ := hg (hb₀ ▸ hb)
    exact ⟨step, List.mem_cons_of_mem _ hmem, hg⟩
  rcases h.activation hmem ha with ⟨frame₀, hmem₀, ha₀⟩ | ⟨-, fn, hr, hs⟩
  · obtain ⟨fn, hp, hg⟩ := hI.running frame₀ hmem₀ f s ha₀
    exact hkeep fn hp hg
  · have hp := (Heap.read_eq_some.mp hr).2
    exact hkeep fn hp fun hb => hI.scope f fn s hp hb hs

/-- Every step keeps what the steps so far say of the functions. -/
theorem Given.step : Given (⟨event, m, m'⟩ :: steps) m' where
  declared := hI.step_declared h hw
  parent _ hmem _ _ _ hg := hI.step_parent h hw hmem hg
  copied _ hmem _ _ _ _ _ he hg hd := hI.step_copied h hw hmem he hg hd
  scope := hI.step_scope h hw
  running _ hmem _ _ ha := hI.step_running h hmem ha
  known step hmem orig f he := by
    rcases List.mem_cons.mp hmem with rfl | hmem
    · obtain rfl : event = .copyFn orig f := he
      cases h with
      | copyCustom => simp
      | copyBuiltin => simp
    · have hlt := hI.known step hmem orig f he
      obtain ⟨fn, hp⟩ := Heap.peek_of_lt hlt
      obtain ⟨fn', hp'⟩ := h.fnsChange.exists_peek hp
      exact Heap.lt_of_peek hp'

end Step

/-- In the initial state there are only built-in functions. -/
theorem Initial.given {root : AstNode} (h : Initial root m) : Given [] m := by
  have hno : ∀ f fn, m.fns.peek f = some fn → fn.builtInCallback ≠ none := by
    intro f fn hp
    obtain ⟨callback, rfl⟩ := h.fns f fn hp
    simp
  refine ⟨fun f fn hp hb => absurd hb (hno f fn hp), by simp, by simp,
    fun f fn s hp hb => absurd hb (hno f fn hp), fun frame hmem f s ha => ?_, by simp⟩
  rw [h.stack, List.mem_singleton] at hmem
  subst hmem
  cases ha

/-! ## Calls -/

theorem Machine.Lexical.of_parent (hr : Rooted m.env.parent) {s d : Nat}
    (hp : m.env.parent s = some d) (hlive : m.LiveUnder s d) : m.Lexical s d := by
  have hchain := chain_parent hr hp
  refine ⟨hchain, fun t ht => ?_, fun _ hv => Env.find_parent hr hv hp⟩
  rw [hchain] at ht
  rcases List.mem_cons.mp ht with rfl | ht
  · exact hlive.1
  · exact hlive.2 t ht

theorem Machine.Lexical.liveUnder {s d : Nat} (h : m.Lexical s d) : m.LiveUnder s d := by
  have hlive := h.live
  rw [h.chain] at hlive
  exact ⟨hlive s (List.mem_cons_self ..), fun t ht => hlive t (List.mem_cons_of_mem _ ht)⟩

theorem Machine.Lexical.parent (hr : Rooted m.env.parent) {s d d' : Nat} (h : m.Lexical s d)
    (hp : m.env.parent s = some d') : d' = d := by
  have hc := h.chain
  rw [chain_parent hr hp] at hc
  obtain ⟨l, hl⟩ := @chain_cons m.env.parent d
  obtain ⟨l', hl'⟩ := @chain_cons m.env.parent d'
  rw [hl, hl'] at hc
  exact (List.cons.inj (List.cons.inj hc).2).1

/-- A statement of a body is evaluated in a scope that the function was given. -/
theorem Trans.body_scope {f : Nat} (hI : Given steps m) (hw : m.Wf)
    (h : Trans m (.call (some f)) m') :
    ∃ d s, declScope steps f = some d ∧ m'.here = some s ∧ m'.scopes = m.scopes ∧
      ∃ step ∈ steps, ∃ d', GivesUnder step f s d' := by
  cases h with
  | callBody frame stack _ fn node s hs hr hn =>
    have hread : m.fns.read f = some fn := by
      unfold Machine.Runs at hr
      split at hr
      · exact read_of_calleeOf hr.1
      · exact hr.1 ▸ hr.2.2
      · exact hr.elim
    have hp := (Heap.read_eq_some.mp hread).2
    have hb : fn.builtInCallback = none := by
      by_contra hne
      rw [(hw.builtin f fn hp (Option.isSome_iff_ne_none.mpr hne)).1] at hn
      cases hn
    obtain ⟨d, hd, -⟩ := hI.declared f fn hp hb
    refine ⟨d, s, hd, rfl, rfl, ?_⟩
    unfold Machine.Runs at hr
    split at hr
    · exact hI.scope f fn s hp hb hr.2
    · rename_i hl
      obtain ⟨rfl, rfl, -⟩ := hr
      obtain ⟨fn', hp', hg⟩ := hI.running frame (by simp [hs]) f s (by rw [hl]; rfl)
      obtain rfl := Option.some.inj (hp.symm.trans hp')
      exact hg hb
    · exact hr.elim

theorem givenIn_sound {f s d : Nat} (h : givenIn steps f s d = true) : GivenIn steps f s d := by
  obtain ⟨step, hmem, h⟩ := List.any_eq_true.mp h
  obtain ⟨hkind, h⟩ := Bool.and_eq_true_iff.mp h
  obtain ⟨hfresh, hpost, hhere⟩ := of_decide_eq_true h
  refine ⟨step, hmem, ⟨hfresh, hpost⟩, ?_, hhere⟩
  split at hkind
  · rename_i g he
    exact .inl (of_decide_eq_true hkind ▸ he)
  · rename_i g he
    exact .inr (of_decide_eq_true hkind ▸ he)
  · cases hkind

/-- `var x = 1; function f() { x; } f(); f();`. -/
def lexicalProgram : AstNode :=
  .root .unknown
    [.varDecl .unknown "x" false (some (.intLit .unknown 1)),
      .fnDecl .unknown "f" [] [.identifier .unknown "x"], .exprCall .unknown "f" [],
      .exprCall .unknown "f" []]

/-- The state before a step of a run has its scopes as they have to be. -/
theorem rooted_of_suffix {fuel : Nat} {root : AstNode} {step : Step Machine Event} {rest : List (Step Machine Event)}
    (h : step :: rest <:+ programSteps fuel root [] "") : Rooted step.pre.env.parent := by
  have hall := ((runProgram_path fuel root [] "").invariant (I := fun _ m => m.Wf) (initial_spec root [] "").wf
    fun _ _ _ ht hw => ht.wf hw).2
  exact (hall rest step h).2.1.rooted

theorem Machine.calm_sound (h : m.calm event = true) : ¬ m.Disturbs event := by
  rintro (hr | ⟨s, t, index, v, rfl, -⟩)
  · cases event with
    | newSlot | copyFn =>
      have hgrows : decide m.tbl.Grows = false := by simpa [Machine.calm] using h
      exact of_decide_eq_false hgrows hr
    | _ => exact hr
  · cases h

theorem callsCalmly_sound {gas f : Nat} {identifier : String} {val : EntryPtr} {w : World Machine Event}
    (h : callsCalmly gas identifier val f w = true) : ∃ fn, w.state.calleeOf val = some (f, fn) ∧
      ∀ step ∈ (finalWorld (callCustom (eval gas) gas 0 .unknown identifier val f fn w)).trace,
        ¬ step.pre.Disturbs step.event := by
  unfold callsCalmly at h
  cases hcallee : w.state.calleeOf val with
  | none =>
    rw [hcallee] at h
    cases h
  | some g =>
    rw [hcallee] at h
    obtain ⟨hg, hall⟩ := Bool.and_eq_true_iff.mp h
    refine ⟨g.2, ?_, fun step hmem => Machine.calm_sound (List.all_eq_true.mp hall step hmem)⟩
    rw [← of_decide_eq_true hg]

theorem callsAlike_sound {scopes fns slots : List (Nat × Nat)} {gas f s s' : Nat} {identifier : String}
    {step step' : Step Machine Event} {rest rest' : List (Step Machine Event)} (hr : Rooted step.pre.env.parent)
    (hr' : Rooted step'.pre.env.parent)
    (h : callsAlike scopes fns slots gas identifier f s s' (step :: rest) (step' :: rest') = true) :
    step.event = .activate f s ∧ step'.event = .activate f s' ∧ ∃ val val',
      SameCall (.ofPairs scopes fns slots step.pre.store.stdout step'.pre.store.stdout) step.pre step'.pre 0 0 identifier
        val val' ∧
      callsCalmly gas identifier val f ⟨step.pre, rest⟩ = true ∧
      callsCalmly gas identifier val' f ⟨step'.pre, rest'⟩ = true := by
  simp only [callsAlike] at h
  split at h
  · rename_i g t g' t' val val' he he' hval hval'
    simp only [Bool.and_eq_true, decide_eq_true_eq] at h
    obtain ⟨⟨⟨⟨⟨rfl, rfl, rfl, rfl⟩, hchain⟩, halike⟩, hcalm⟩, hcalm'⟩ := h
    exact ⟨he, he', val, val', ⟨machinesAlike_sound hr hr' halike, mem_pairs hchain, hval, hval', rfl, rfl⟩, hcalm, hcalm'⟩
  · cases h

/-- `var x = 1; function f() { x; } function g() { var x = 2; f(); } g(); f();`. -/
def callerProgram : AstNode :=
  .root .unknown
    [.varDecl .unknown "x" false (some (.intLit .unknown 1)),
      .fnDecl .unknown "f" [] [.identifier .unknown "x"],
      .fnDecl .unknown "g" []
        [.varDecl .unknown "x" false (some (.intLit .unknown 2)), .exprCall .unknown "f" []],
      .exprCall .unknown "g" [], .exprCall .unknown "f" []]

end Blaze
