import Blazescript.Eval.Lifetime
import Blazescript.Eval.Proofs.ShapeProofs

/-!
# Proofs: the lifetime of scopes

What is in use stays intact as long as `scope_free` spares it.
-/

namespace Blaze

open Arena Environment Tracing

variable {m m' : Machine} {event : Event}

/-- What is in use is intact, also what is used by values not bound yet. -/
structure InUseIntact (m : Machine) : Prop where
  frames : ∀ frame ∈ m.stack, ∀ s ∈ frame.scopes, m.Intact s
  reach : ∀ v, m.InReach v → ∀ s, m.RunsIn v s → m.Intact s

theorem InUseIntact.alive (h : InUseIntact m) : m.Alive :=
  ⟨h.frames, fun v hv => h.reach v (.inl hv)⟩

/-! ## Scopes -/

/-- A scope stays intact unless one of its chain is freed. -/
theorem ScopesChange.intact {s : Nat} (h : ScopesChange m event m'.scopes)
    (hr : Rooted m.env.parent) (hs : s < m.scopes.size) (hi : m.Intact s)
    (hc : ∀ r, event = .closeScope r → ∀ t ∈ Arena.chain m.env.parent s, ¬ m.Releases r t) :
    m'.Intact s := by
  intro t ht
  have ht' : t ∈ Arena.chain m.env.parent s := by
    rw [← h.chain hr hs]
    exact ht
  exact h.live (hi t ht') fun r he => hc r he t ht'

/-- A new scope under an intact one. -/
theorem intact_alloc {p : Nat} {scope : Scope Val} (h : m'.scopes = m.scopes.alloc scope)
    (hr : Rooted m.env.parent) (hp : p < m.scopes.size) (hpar : scope.parent = some p)
    (hi : m.Intact p) : m'.Intact m.scopes.size := by
  have hrooted : Rooted m'.env.parent := by
    show Rooted (envOf m'.scopes).parent
    rw [h]
    exact alloc_rooted _ _ hr fun q hq => Option.some.inj (hq.symm.trans hpar) ▸ hp
  have hparent : m'.env.parent m.scopes.size = some p := by
    show (envOf m'.scopes).parent _ = _
    rw [h, alloc_parent, if_pos rfl, hpar]
  intro t ht
  rw [chain_parent hrooted hparent] at ht
  rw [h, Heap.isLive_alloc]
  rcases List.mem_cons.mp ht with rfl | ht
  · simp
  · have : chain m'.env.parent p = chain m.env.parent p := by
      show chain (envOf m'.scopes).parent p = _
      rw [h]
      exact alloc_chain _ _ hr hp
    rw [hi t (this ▸ ht), Bool.or_true]

/-! ## Functions -/

theorem runsIn_lt (hw : m.Wf) {v : Val} {s : Nat} (h : m.RunsIn v s) : s < m.scopes.size := by
  obtain ⟨f, -, hf⟩ := h
  obtain ⟨fn, hp, hs⟩ := Option.bind_eq_some_iff.mp hf
  exact hw.fnScope f fn s hp hs

theorem not_runsIn_of_plain {v : Val} (h : v.Plain) (s : Nat) : ¬ m.RunsIn v s :=
  fun ⟨f, hd, _⟩ => h.2 f hd

/-- The scope of a function after a step: that before, or a new one. -/
theorem FnsChange.scopeOf {f s : Nat} (h : FnsChange m event m'.scopes m'.fns)
    (hf : m'.scopeOf f = some s) :
    f < m.fns.size ∧ m.scopeOf f = some s ∨ s = m.scopes.size ∨
      ∃ orig, event = .copyFn orig f ∧ m.scopeOf orig = some s := by
  unfold Machine.scopeOf at hf
  obtain ⟨fn, hp, hs⟩ := Option.bind_eq_some_iff.mp hf
  have hold : m.fns.peek f = some fn → f < m.fns.size ∧ m.scopeOf f = some s :=
    fun hp => ⟨Heap.lt_of_peek hp, by simp [Machine.scopeOf, hp, hs]⟩
  cases h with
  | same he size peek => exact .inl (hold (peek f ▸ hp))
  | copied orig gn he hf' hb heq =>
    rw [heq] at hp
    rcases peek_alloc_cases hp with ⟨rfl, rfl⟩ | ⟨-, hp⟩
    · exact .inr (.inr ⟨orig, he, (scopeOf_of_read hf').trans hs⟩)
    · exact .inl (hold hp)
  | made gn he hb hs' hsize heq =>
    rw [heq] at hp
    rcases peek_alloc_cases hp with ⟨-, rfl⟩ | ⟨-, hp⟩
    · exact .inr (.inl (Option.some.inj (hs.symm.trans hs')))
    · exact .inl (hold hp)
  | rescoped g gn he hf' hsize heq =>
    rw [heq, Heap.peek_write] at hp
    split_ifs at hp with hfg
    · obtain ⟨gn', -, rfl⟩ := Option.map_eq_some_iff.mp hp
      exact .inr (.inl (Option.some.inj hs).symm)
    · exact .inl (hold hp)

/-! ## One step -/

/-- Where a scope that a frame holds comes from. -/
theorem Trans.frameScope (h : Trans m event m') {frame' : Frame} (hf : frame' ∈ m'.stack) {s : Nat}
    (hs : s ∈ frame'.scopes) :
    (∃ frame ∈ m.stack, s ∈ frame.scopes) ∨ (∃ v, m.InReach v ∧ m.RunsIn v s) ∨
      s = m.scopes.size := by
  have hsame : frame' ∈ m.stack → ∃ frame ∈ m.stack, s ∈ frame.scopes := fun hf => ⟨frame', hf, hs⟩
  -- the innermost frame gets other locals
  have hlocals : ∀ (frame : Frame) (stack : List Frame) (locals : Locals),
      m.stack = frame :: stack → frame' ∈ { frame with locals := locals } :: stack →
      (∃ frame ∈ m.stack, s ∈ frame.scopes) ∨ s ∈ locals.newScope := by
    intro frame stack locals hs' hmem
    rcases List.mem_cons.mp hmem with rfl | hmem
    · rcases List.mem_cons.mp hs with rfl | hs
      · exact .inl ⟨frame, by simp [hs'], List.mem_cons_self ..⟩
      · exact .inr (by simpa using hs)
    · exact .inl ⟨frame', by simp [hs', hmem], hs⟩
  have hnone : s ∉ Locals.newScope .none := by simp [Locals.newScope]
  -- the scope of a function that an entry holds
  have hcallee : ∀ val f fn, m.calleeOf val = some (f, fn) → fn.scope = some s →
      ∃ v, m.InReach v ∧ m.RunsIn v s := by
    intro val f fn hc hscope
    obtain ⟨⟨v, c⟩, hb, hfn⟩ := Option.bind_eq_some_iff.mp hc
    refine ⟨v, .inl (bound_of_readEntry hb), f, ?_, ?_⟩
    · unfold Machine.fnOf at hfn
      split at hfn
      · rename_i f' hd
        obtain ⟨fn', -, heq⟩ := Option.map_eq_some_iff.mp hfn
        obtain ⟨rfl, -⟩ := Prod.mk.inj heq
        exact hd
      · cases hfn
    · exact (scopeOf_of_read (read_of_calleeOf hc)).trans hscope
  cases h with
  | store | value | newSlot | copyBuiltin | copyCustom | newFn | loopIds | declare | param
    | setDefault | assign | use => exact .inl (hsame hf)
  | call frame stack node scope hs' hc =>
    rcases List.mem_cons.mp hf with rfl | hf
    · obtain rfl : s = scope := by simpa [Frame.scopes, Locals.newScope] using hs
      exact .inl ⟨frame, by simp [hs'], hc.scope_mem⟩
    · exact .inl (hsame hf)
  | callBody frame stack f fn node scope hs' hr hn =>
    rcases List.mem_cons.mp hf with rfl | hf
    · obtain rfl : s = scope := by simpa [Frame.scopes, Locals.newScope] using hs
      unfold Machine.Runs at hr
      split at hr
      · exact .inr (.inl (hcallee _ f fn hr.1 hr.2))
      · rename_i hl
        refine .inl ⟨frame, by simp [hs'], ?_⟩
        simp [Frame.scopes, hl, Locals.newScope, hr.2.1]
      · exact hr.elim
    · exact .inl (hsame hf)
  | «return» frame stack hs' hne => exact .inl (hsame (by simp [hs', show frame' ∈ stack from hf]))
  | openBlock frame stack hs' hl =>
    rcases hlocals frame stack _ hs' hf with h | h
    · exact .inl h
    · exact .inr (.inr (Option.mem_some_iff.mp h).symm)
  | openLoop frame stack hs' hl =>
    rcases hlocals frame stack _ hs' hf with h | h
    · exact .inl h
    · exact .inr (.inr (Option.mem_some_iff.mp h).symm)
  | closeScope m₁ frame stack r hs' hl hfree =>
    exact .inl ((hlocals frame stack _ hs' hf).resolve_right hnone)
  | resolve frame stack name val hs' hl hr =>
    exact .inl ((hlocals frame stack _ hs' hf).resolve_right (by simp [Locals.newScope]))
  | arg frame stack val args hs' hl =>
    exact .inl ((hlocals frame stack _ hs' hf).resolve_right (by simp [Locals.newScope]))
  | builtin frame stack val args hs' hl =>
    exact .inl ((hlocals frame stack _ hs' hf).resolve_right (by simp [Locals.newScope]))
  | activate frame stack f scope hs' ha =>
    rcases hlocals frame stack _ hs' hf with h | h
    · exact .inl h
    rcases Locals.newScope_activate h with hold | ⟨f', heq⟩
    · exact .inl ⟨frame, by simp [hs'], by simpa [Frame.scopes] using .inr hold⟩
    obtain ⟨-, rfl⟩ := Prod.mk.inj (Option.some.inj heq)
    obtain ⟨⟨fn, hr, hscope⟩, ha⟩ := ha
    split at ha
    · obtain ⟨fn', hc⟩ := ha
      obtain rfl := Option.some.inj ((read_of_calleeOf hc).symm.trans hr)
      exact .inr (.inl (hcallee _ f fn' hc hscope))
    · rename_i args hl
      obtain ⟨v, hv, hd⟩ := ha
      refine .inr (.inl ⟨v, .inr (.inr (.inl ⟨frame, by simp [hs'], ?_⟩)), f, hd, ?_⟩)
      · rw [hl]
        exact hv
      · exact (scopeOf_of_read hr).trans hscope
    · exact ha.elim
  | rescope frame stack f fn hs' hc =>
    rcases hlocals frame stack _ hs' hf with h | h
    · exact .inl h
    rcases Locals.newScope_activate h with hold | ⟨f', heq⟩
    · exact .inl ⟨frame, by simp [hs'], by simpa [Frame.scopes] using .inr hold⟩
    · cases heq

/-- A new scope is intact. -/
theorem ScopesChange.intact_new (h : ScopesChange m event m'.scopes) (hw : m.Wf)
    (hI : InUseIntact m) (hspares : m.SparesScopes event)
    (hlt : m.scopes.size < m'.scopes.size) : m'.Intact m.scopes.size := by
  cases h with
  | same size => omega
  | wrote hmaps =>
    have := hmaps.size
    omega
  | freed s scopes slots m₁ he hF hs heq =>
    have := hF.size
    rw [heq] at hlt
    omega
  | opened p scope hp hparent hin hvars heq =>
    refine intact_alloc heq hw.rooted hp hparent ?_
    rcases hin with ⟨frame, stack, hs, rfl⟩ | ⟨orig, copy, rfl, hscope⟩
    · exact hI.frames frame (by simp [hs]) frame.scope (List.mem_cons_self ..)
    · exact hspares p hscope

/-- What a step makes is no function, or a function not known before. -/
theorem Trans.made (h : Trans m event m') (he : event.Makes) {f : Nat}
    (hf : m'.result.data = .function f) : f = m.fns.size := by
  cases h with
  | newSlot data hd => exact absurd hf (hd f)
  | copyBuiltin orig fn hr hb => exact (ValData.function.inj hf).symm
  | copyCustom orig fn body hr hb => exact (ValData.function.inj hf).symm
  | newFn frame stack body paramNames hs => exact (ValData.function.inj hf).symm
  | _ => simp [Event.Makes] at he

/-- A step that frees no scope keeps everything in use intact. -/
theorem Trans.inUseIntact_open (h : Trans m event m') (hw : m.Wf) (hI : InUseIntact m)
    (hspares : m.SparesScopes event) (hopen : ∀ s, event ≠ .closeScope s) : InUseIntact m' := by
  have hw' := h.wf hw
  have hchange := h.scopesChange hw
  have hnew := fun hlt => hchange.intact_new hw hI hspares hlt
  have hkept : ∀ s, s < m.scopes.size → m.Intact s → m'.Intact s :=
    fun s hs hi => hchange.intact hw.rooted hs hi fun r he => absurd he (hopen r)
  refine ⟨fun frame' hf s hs => ?_, fun v hv s hr => ?_⟩
  · rcases h.frameScope hf hs with ⟨frame, hf, hs⟩ | ⟨v, hv, hr⟩ | rfl
    · exact hkept s (hw.frames frame hf s hs) (hI.frames frame hf s hs)
    · exact hkept s (runsIn_lt hw hr) (hI.reach v hv s hr)
    · exact hnew (hw'.frames frame' hf _ hs)
  · have hlt := runsIn_lt hw' hr
    obtain ⟨f, hd, hscope⟩ := hr
    rcases h.fnsChange.scopeOf hscope with ⟨hf, hscope⟩ | rfl | ⟨orig, rfl, hscope⟩
    · have hr : m.RunsIn v s := ⟨f, hd, hscope⟩
      rcases h.inReach hw hv with hv | hv | ⟨rfl, he⟩
      · exact hkept s (runsIn_lt hw hr) (hI.reach v hv s hr)
      · exact absurd hr (not_runsIn_of_plain hv s)
      · exact absurd (h.made he hd) (Nat.ne_of_lt hf)
    · exact hnew hlt
    · obtain ⟨fn, hp, hs⟩ := Option.bind_eq_some_iff.mp hscope
      exact hkept s (hw.fnScope orig fn s hp hs) (hspares s hscope)

/-- What is in use after a scope has been freed was to stay in use. -/
theorem Trans.closeScope_keeps {s : Nat} (h : Trans m (.closeScope s) m') :
    (∀ frame ∈ m'.stack, ∀ u ∈ frame.scopes, m.Keeps s u) ∧
      ∀ v, m'.InReach v → ∀ u, m.RunsIn v u → m.Keeps s u := by
  refine ⟨fun frame' hf u hu => ?_, fun v hv u hu => ?_⟩
  · obtain ⟨frame, stack, m₁, scopes, slots, hs, -, rfl, -⟩ := h.closeScope_spec
    rcases List.mem_cons.mp hf with rfl | hf
    · simp only [Frame.scopes, Locals.newScope, Option.toList_none, List.mem_singleton] at hu
      exact .inner frame stack hs hu
    · exact .outer frame frame' stack hs hf hu
  · rcases h.closeScope_stays hv with hv | rfl
    · exact .value v hv hu
    · exact absurd hu (not_runsIn_of_plain plain_nullVal u)

/-- What is to stay in use is in use. -/
theorem Machine.Keeps.intact (hw : m.Wf) (hI : InUseIntact m) {s u : Nat} (hu : m.Keeps s u) :
    u < m.scopes.size ∧ m.Intact u := by
  cases hu with
  | inner frame stack hs hu =>
    exact ⟨hu ▸ hw.headScope hs, hu ▸ hI.frames frame (by simp [hs]) _ (List.mem_cons_self ..)⟩
  | outer frame frame' stack hs hf hu =>
    have hf' : frame' ∈ m.stack := by simp [hs, hf]
    exact ⟨hw.frames frame' hf' u hu, hI.frames frame' hf' u hu⟩
  | value v hv hr => exact ⟨runsIn_lt hw hr, hI.reach v hv.inReach u hr⟩

/-- Freeing a scope that spares what stays in use keeps that intact. -/
theorem Trans.inUseIntact_close {s : Nat} (h : Trans m (.closeScope s) m') (hw : m.Wf)
    (hI : InUseIntact m) (hspares : m.SparesScopes (.closeScope s)) : InUseIntact m' := by
  obtain ⟨hframes, hreach⟩ := h.closeScope_keeps
  have hkept : ∀ u, m.Keeps s u → m'.Intact u := by
    intro u hk
    obtain ⟨hlt, hi⟩ := hk.intact hw hI
    refine (h.scopesChange hw).intact hw.rooted hlt hi fun r he t ht hr => ?_
    obtain rfl := Event.closeScope.inj he
    exact hspares t u hr hk ht
  refine ⟨fun frame' hf u hu => hkept u (hframes frame' hf u hu), fun v hv u hr => ?_⟩
  refine hkept u (hreach v hv u ?_)
  obtain ⟨f, hd, hscope⟩ := hr
  obtain ⟨frame, stack, m₁, scopes, slots, -, -, rfl, hF, -⟩ := h.closeScope_spec
  have hscope' : (m₁.fns.peek f).bind FnVal.scope = some u := hscope
  rw [hF.fnPeek] at hscope'
  exact ⟨f, hd, hscope'⟩

/-- Every step that spares the scopes in use keeps them intact. -/
theorem Trans.inUseIntact (h : Trans m event m') (hw : m.Wf) (hI : InUseIntact m)
    (hspares : m.SparesScopes event) : InUseIntact m' := by
  by_cases hc : ∃ s, event = .closeScope s
  · obtain ⟨s, rfl⟩ := hc
    exact h.inUseIntact_close hw hI hspares
  · exact h.inUseIntact_open hw hI hspares fun s he => hc ⟨s, he⟩

/-- In the initial state no function has a scope. -/
theorem Initial.inUseIntact {root : AstNode} (h : Initial root m) : InUseIntact m := by
  refine ⟨fun frame hf s hs t ht => ?_, fun v hv s ⟨f, hd, hscope⟩ => ?_⟩
  · rw [h.stack, List.mem_singleton] at hf
    subst hf
    simp only [Frame.scopes, Locals.newScope, Option.toList_none, List.mem_singleton] at hs
    subst hs
    rw [chain_root (h.env.1 0), List.mem_singleton] at ht
    subst ht
    rw [h.scopes, Heap.isLive_alloc]
    rfl
  · obtain ⟨fn, hp, hs⟩ := Option.bind_eq_some_iff.mp hscope
    obtain ⟨callback, rfl⟩ := h.fns f fn hp
    cases hs

theorem Machine.sparesScopes_sound (hw : m.Wf) (h : m.sparesScopes event = true) :
    m.SparesScopes event := by
  cases event with
  | closeScope s =>
    simp only [Machine.sparesScopes, Bool.and_eq_true, List.all_eq_true, List.mem_range,
      Bool.or_eq_true, decide_eq_true_eq, Bool.not_eq_true', List.contains_eq_mem,
      decide_eq_false_iff_not] at h
    obtain ⟨⟨⟨⟨howned, hchain⟩, hfns⟩, htail⟩, hhead⟩ := h
    intro t u hr hk ht
    obtain rfl : t = s := releases_self (by simpa using howned) hr
    have hfn : ∀ v, m.RunsIn v u → u < m.scopes.size ∧ u ≠ t := by
      rintro v ⟨f, hd, hscope⟩
      obtain ⟨fn, hp, -⟩ := Option.bind_eq_some_iff.mp hscope
      refine ⟨runsIn_lt hw ⟨f, hd, hscope⟩, ?_⟩
      rintro rfl
      exact hfns f (Heap.lt_of_peek hp) hscope
    have hu : u < m.scopes.size ∧ u ≠ t := by
      cases hk with
      | inner frame stack hs hu =>
        subst hu
        exact ⟨hw.headScope hs, by simpa [hs] using hhead⟩
      | outer frame frame' stack hs hf hu =>
        refine ⟨hw.frames frame' (by simp [hs, hf]) u hu, ?_⟩
        rintro rfl
        exact htail frame' (by simp [hs, hf]) hu
      | value v hv hu => exact hfn v hu
    rcases hchain u hu.1 with h1 | h1
    · exact hu.2 h1
    · exact h1 ht
  | copyFn orig copy =>
    intro s hs t ht
    simp only [Machine.sparesScopes, hs, Option.all_some, List.all_eq_true] at h
    exact h t ht
  | _ => trivial

/-- If no step of a program frees a scope above one that stays in use, or copies a function whose
scope leads to a freed one, no state of the program has a freed scope on the way from a scope being
evaluated or from the scope of a bound function. -/
theorem scopes_alive (fuel : Nat) (root : AstNode) (stdin : List String) (strerror : String)
    (hspares : ∀ step ∈ programSteps fuel root stdin strerror,
      step.pre.SparesScopes step.event) :
    ∀ step ∈ programSteps fuel root stdin strerror, step.pre.Alive ∧ step.post.Alive := by
  have hinit := initial_spec root stdin strerror
  obtain ⟨-, hall⟩ := (runProgram_path fuel root stdin strerror).invariant_mem
    (I := fun m => m.Wf ∧ InUseIntact m) ⟨hinit.wf, hinit.inUseIntact⟩ hspares
    fun step hs ht ⟨hw, hI⟩ => ⟨ht.wf hw, ht.inUseIntact hw hI hs⟩
  intro step hmem
  obtain ⟨-, ⟨-, hpre⟩, -, hpost⟩ := hall step hmem
  exact ⟨hpre.alive, hpost.alive⟩

/-- `function f() { 1; } f(); { var x; }`. -/
def blockProgram : AstNode :=
  .root .unknown
    [.fnDecl .unknown "f" [] [.intLit .unknown 1], .exprCall .unknown "f" [],
      .block .unknown [.varDecl .unknown "x" false none]]

theorem scopes_alive_blockProgram :
    (∀ step ∈ programSteps 5 blockProgram [] "", step.pre.SparesScopes step.event) ∧
    ∀ step ∈ programSteps 5 blockProgram [] "", step.pre.Alive ∧ step.post.Alive := by
  have hall : (programSteps 5 blockProgram [] "").all
      (fun step => step.pre.sparesScopes step.event) = true := by decide +kernel
  have hwf := (runProgram_path 5 blockProgram [] "").invariant_mem (I := Machine.Wf)
    (C := fun _ => True) (initial_spec blockProgram [] "").wf (fun _ _ => trivial)
    fun step _ ht hw => ht.wf hw
  have hspares : ∀ step ∈ programSteps 5 blockProgram [] "",
      step.pre.SparesScopes step.event := fun step hs =>
    Machine.sparesScopes_sound (hwf.2 step hs).2.1 (List.all_eq_true.mp hall step hs)
  exact ⟨hspares, scopes_alive 5 blockProgram [] "" hspares⟩

theorem not_alive_of_dangles {s : Nat} {name : String} (h : m.dangles s name = true) :
    ¬ m.Alive := by
  intro ha
  obtain ⟨hl, h⟩ := Bool.and_eq_true_iff.mp h
  obtain ⟨⟨v, c⟩, hb, h⟩ := (Option.any_eq_true _ _).mp h
  cases hd : v.data with
  | function f =>
    simp only [hd] at h
    obtain ⟨u, hu, h⟩ := (Option.any_eq_true _ _).mp h
    obtain ⟨t, ht, hdead⟩ := List.any_eq_true.mp h
    have := ha.bound v ⟨s, name, c, hl, hb⟩ u ⟨f, hd, hu⟩ t ht
    simp [this] at hdead
  | _ => simp [hd] at h

/-- `function f() { 1; } { f(); }`. The call puts `f` under the scope of the block. -/
def escapeProgram : AstNode :=
  .root .unknown
    [.fnDecl .unknown "f" [] [.intLit .unknown 1], .block .unknown [.exprCall .unknown "f" []]]

/-- A function left bound with a scope under a freed one. -/
theorem scopes_dangling : ∃ step ∈ programSteps 5 escapeProgram [] "", ¬ step.post.Alive := by
  have hany : (programSteps 5 escapeProgram [] "").any (fun step => step.post.dangles 0 "f") =
      true := by decide +kernel
  obtain ⟨step, hs, h⟩ := List.any_eq_true.mp hany
  exact ⟨step, hs, not_alive_of_dangles h⟩

end Blaze
