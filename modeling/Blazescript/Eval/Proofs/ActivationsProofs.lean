import Blazescript.Eval.Activations
import Blazescript.Eval.Proofs.BindingsProofs

/-!
# Proofs: activations

As long as no function is activated while it is running, each activation has a scope of its own, and
the frames above it evaluate there or in scopes of blocks, loops and declarations that belong to no
function. So what they declare never reaches the scope of an outer activation.
-/

namespace Blaze

open Arena Environment Tracing

variable {m m' : Machine} {event : Event} {steps : List (Step Machine Event)}

/-! ## Functions -/

/-- No user function has the scope. -/
def Machine.Unowned (m : Machine) (t : Nat) : Prop := ∀ f, m.IsCustom f → m.scopeOf f ≠ some t

/-- A user function stays one, and no other becomes one. -/
theorem Trans.isCustom_iff (h : Trans m event m') {f : Nat} (hf : f < m.fns.size) :
    m'.IsCustom f ↔ m.IsCustom f := by
  obtain ⟨fn, hp⟩ := Heap.peek_of_lt hf
  obtain ⟨fn', hp'⟩ := h.fnsChange.exists_peek hp
  obtain ⟨fn₀, hp₀, hb, -⟩ := h.fn_of hf hp'
  obtain rfl := Option.some.inj (hp.symm.trans hp₀)
  simp [Machine.IsCustom, hp, hp', hb]

theorem lt_of_isCustom {f : Nat} (h : m.IsCustom f) : f < m.fns.size := by
  obtain ⟨fn, hp, -⟩ := h
  exact Heap.lt_of_peek hp

/-- The scope of a user function after a step. -/
theorem Trans.scopeOf_custom (h : Trans m event m') {f : Nat} (hc : m'.IsCustom f) :
    m'.scopeOf f = some m.scopes.size ∨
      m.IsCustom f ∧ event ≠ .rescope f ∧ m'.scopeOf f = m.scopeOf f := by
  obtain ⟨fn', hp', hb⟩ := hc
  by_cases hf : f < m.fns.size
  · obtain ⟨fn, hp, hb', hs⟩ := h.fn_of hf hp'
    have hof : m'.scopeOf f = fn'.scope := by simp [Machine.scopeOf, hp']
    rcases hs with ⟨-, hs⟩ | ⟨he, hs⟩
    · exact .inl (hof.trans hs)
    · refine .inr ⟨⟨fn, hp, hb' ▸ hb⟩, he, ?_⟩
      rw [hof, hs]
      simp [Machine.scopeOf, hp]
  · exact .inl (h.fn_new hf hp' hb).2.1

theorem Trans.scopeOf_same (h : Trans m event m') {f : Nat} (hf : f < m.fns.size)
    (he : event ≠ .rescope f) : m'.scopeOf f = m.scopeOf f := by
  obtain ⟨fn, hp⟩ := Heap.peek_of_lt hf
  obtain ⟨fn', hp'⟩ := h.fnsChange.exists_peek hp
  obtain ⟨fn₀, hp₀, -, hs⟩ := h.fn_of hf hp'
  rcases hs with ⟨he', -⟩ | ⟨-, hs⟩
  · exact absurd he' he
  · simp [Machine.scopeOf, hp', hp₀, hs]

theorem Machine.Wf.scopeOf_lt (hw : m.Wf) {f s : Nat} (hs : m.scopeOf f = some s) :
    s < m.scopes.size := by
  obtain ⟨fn, hp, hs⟩ := Option.bind_eq_some_iff.mp hs
  exact hw.fnScope f fn s hp hs

/-- No two user functions have one scope. -/
theorem Machine.Wf.scopeOf_inj (hw : m.Wf) {f g s : Nat} (hc : m.IsCustom f)
    (hf : m.scopeOf f = some s) (hg : m.scopeOf g = some s) : f = g := by
  obtain ⟨fn, hp, hb⟩ := hc
  obtain ⟨fn', hp', hs⟩ := Option.bind_eq_some_iff.mp hf
  obtain ⟨gn, hpg, hsg⟩ := Option.bind_eq_some_iff.mp hg
  obtain rfl := Option.some.inj (hp.symm.trans hp')
  exact hw.fnOwn f g fn gn s hp hpg hb hs hsg

/-- An existing scope is given to no function. -/
theorem Trans.unowned (h : Trans m event m') {t : Nat} (ht : t < m.scopes.size)
    (hu : m.Unowned t) : m'.Unowned t := by
  intro f hc hs
  rcases h.scopeOf_custom hc with hs' | ⟨hc', -, hs'⟩
  · have := Option.some.inj (hs.symm.trans hs')
    omega
  · exact hu f hc' (hs' ▸ hs)

/-- A function that has parameters or statements is a user function. -/
theorem custom_of_runs (hw : m.Wf) {frame : Frame} {f s : Nat} {fn : FnVal} (hr : m.Runs frame f fn s)
    (hne : fn.customBody ≠ [] ∨ fn.paramNames ≠ []) : m.IsCustom f := by
  have hread : m.fns.read f = some fn := by
    unfold Machine.Runs at hr
    split at hr
    · exact read_of_calleeOf hr.1
    · exact hr.1 ▸ hr.2.2
    · exact hr.elim
  have hp := (Heap.read_eq_some.mp hread).2
  refine ⟨fn, hp, ?_⟩
  by_contra hb
  obtain ⟨hbody, hparams⟩ := hw.builtin f fn hp (Option.isSome_iff_ne_none.mpr hb)
  exact hne.elim (absurd hbody) (absurd hparams)

/-! ## Running functions -/

/-- How a step changes which functions are running. -/
inductive RunningChange (m : Machine) (event : Event) (m' : Machine) : Prop
  | same (h : m'.running = m.running) (ha : ∀ f s, event ≠ .activate f s)
      (hr : ∀ f, event = .rescope f → ¬ m.IsCustom f)
  | began (f s : Nat) (frame : Frame) (stack : List Frame) (he : event = .activate f s)
      (hs : m.stack = frame :: stack) (ha : m.Activates frame f s)
      (h : m'.running = (f, s) :: m.running)
  | ended (a : Nat × Nat) (f : Nat) (he : event = .rescope f) (h : m.running = a :: m'.running)
      (hf : m.HoldsCallee → f = a.1)

theorem activations_cons (frame : Frame) (stack : List Frame) :
    activations (frame :: stack) = frame.locals.activation.toList ++ activations stack := by
  cases h : frame.locals.activation <;> simp [activations, h]

theorem Trans.runningChange (h : Trans m event m') (hw : m.Wf) : RunningChange m event m' := by
  -- the innermost frame gets other locals
  have hlocals : ∀ (frame : Frame) (stack : List Frame) (locals : Locals),
      m.stack = frame :: stack → frame.locals.activation = none → locals.activation = none →
      activations ({ frame with locals := locals } :: stack) = m.running := by
    intro frame stack locals hs hl hl'
    simp [Machine.running, hs, activations_cons, hl, hl']
  cases h with
  | store | value | newSlot | copyBuiltin | copyCustom | newFn | loopIds | declare | param
    | setDefault | assign | use => exact .same rfl (by simp) (by simp)
  | call | callBody => exact .same (activations_cons _ _) (by simp) (by simp)
  | «return» frame stack hs hne ha =>
    exact .same (by simp [Machine.running, hs, activations_cons, ha]) (by simp) (by simp)
  | openBlock frame stack hs hl =>
    exact .same (hlocals frame stack _ hs (by rw [hl]; rfl) rfl) (by simp) (by simp)
  | openLoop frame stack hs hl =>
    exact .same (hlocals frame stack _ hs (by rw [hl]; rfl) rfl) (by simp) (by simp)
  | closeScope m₁ frame stack s hs hl hf =>
    refine .same (hlocals frame stack _ hs ?_ rfl) (by simp) (by simp)
    rcases hl with hl | hl <;> rw [hl] <;> rfl
  | resolve frame stack name val hs hl hv =>
    exact .same (hlocals frame stack _ hs (by rw [hl]; rfl) rfl) (by simp) (by simp)
  | arg frame stack val args hs hl =>
    exact .same (hlocals frame stack _ hs (by rw [hl]; rfl) rfl) (by simp) (by simp)
  | builtin frame stack val args hs hl =>
    exact .same (hlocals frame stack _ hs (by rw [hl]; rfl) rfl) (by simp) (by simp)
  | activate frame stack f s hs ha =>
    refine .began f s frame stack rfl hs ha ?_
    obtain ⟨-, hact⟩ := ha
    show activations ({ frame with locals := frame.locals.activate (some (f, s)) } :: stack) = _
    split at hact
    · rename_i val args hl
      simp [Machine.running, hs, activations_cons, hl, Locals.activate, Locals.activation]
    · rename_i args hl
      simp [Machine.running, hs, activations_cons, hl, Locals.activate, Locals.activation]
    · exact hact.elim
  | rescope frame stack f fn hs hc =>
    obtain ⟨hr, hc⟩ := hc
    split at hc
    · rename_i val args a hl
      refine .ended a f rfl ?_ fun hholds => ?_
      · simp [Machine.running, hs, activations_cons, hl, Locals.activate, Locals.activation]
      · obtain ⟨fn', hc'⟩ := hholds frame stack val args a.1 a.2 hs hl
        exact congrArg Prod.fst (Option.some.inj (hc.symm.trans hc'))
    · rename_i args f' s hl
      refine .ended (f', s) f rfl ?_ fun _ => hc
      simp [Machine.running, hs, activations_cons, hl, Locals.activate, Locals.activation]
    · rename_i args hl
      refine .same ?_ (by simp) fun g he hcustom => ?_
      · simp [Machine.running, hs, activations_cons, hl, Locals.activate, Locals.activation]
      · -- a user function would have a scope
        obtain rfl := Event.rescope.inj he
        obtain ⟨fn', hp, hb⟩ := hcustom
        obtain rfl := Option.some.inj ((Heap.read_eq_some.mp hr).2.symm.trans hp)
        have := hw.custom f fn hp hb
        simp [hc.2] at this
    · exact hc.elim

/-! ## The frames above an activation -/

/-- The code of each frame evaluates in a scope that belongs to no function, or in that of the
activation right below; a block or loop made its scope itself. -/
def Machine.Housed (m : Machine) : List Frame → Prop
  | [] => True
  | frame :: stack =>
    (∀ t, frame.locals = .block t ∨ frame.locals = .loop t → m.Unowned t) ∧
      (m.Unowned frame.scope ∨
        ∃ a, (activations stack).head? = some a ∧ m.IsCustom a.1 ∧ a.2 = frame.scope) ∧
      m.Housed stack

theorem Trans.housed (h : Trans m event m') {stack : List Frame}
    (hf : ∀ frame ∈ stack, ∀ s ∈ frame.scopes, s < m.scopes.size) (hh : m.Housed stack) :
    m'.Housed stack := by
  induction stack with
  | nil => trivial
  | cons frame stack ih =>
    obtain ⟨hl, hs, hh⟩ := hh
    have hframe := hf frame (List.mem_cons_self ..)
    refine ⟨fun t ht => h.unowned (hframe t ?_) (hl t ht), ?_,
      ih (fun frame' hmem => hf frame' (List.mem_cons_of_mem _ hmem)) hh⟩
    · rcases ht with ht | ht <;> simp [Frame.scopes, ht, Locals.newScope]
    · rcases hs with hu | ⟨a, ha, hc, he⟩
      · exact .inl (h.unowned (hframe _ (List.mem_cons_self ..)) hu)
      · exact .inr ⟨a, ha, (h.isCustom_iff (lt_of_isCustom hc)).mpr hc, he⟩

/-- Where a frame may declare. -/
theorem Frame.Declares.cases {frame : Frame} {name : String} {s : Nat} (h : frame.Declares name s) :
    frame.locals.activation = none ∧ (s = frame.scope ∨ frame.locals = .loop s) := by
  unfold Frame.Declares at h
  split at h
  · rename_i hl
    exact ⟨by rw [hl]; rfl, .inl h.2⟩
  · rename_i hl
    exact ⟨by rw [hl]; rfl, .inl h.2⟩
  · rename_i hl
    exact ⟨by rw [hl]; rfl, .inr (h.2 ▸ hl)⟩
  · exact h.elim

/-- The scope in which a frame may declare belongs to no function, or to the innermost one. -/
theorem Machine.Housed.declares {frame : Frame} {stack : List Frame} {name : String} {s : Nat}
    (hs : m.stack = frame :: stack) (hh : m.Housed m.stack) (hd : frame.Declares name s) :
    m.Unowned s ∨ ∃ a, m.running.head? = some a ∧ m.IsCustom a.1 ∧ a.2 = s := by
  rw [hs] at hh
  obtain ⟨hl, hscope, -⟩ := hh
  obtain ⟨ha, rfl | hloop⟩ := hd.cases
  · refine hscope.imp_right fun ⟨a, ha', hc⟩ => ⟨a, ?_, hc⟩
    simpa [Machine.running, hs, activations_cons, ha] using ha'
  · exact .inl (hl s (.inr hloop))

/-! ## The invariant -/

/-- The activations of user functions are apart. -/
structure Separate (steps : List (Step Machine Event)) (m : Machine) : Prop where
  nodup : (m.running.map Prod.fst).Nodup
  known : ∀ a ∈ m.running, a.1 < m.fns.size
  scope : ∀ a ∈ m.running, m.IsCustom a.1 → m.scopeOf a.1 = some a.2
  pristine : ∀ f s, m.IsCustom f → (∀ a ∈ m.running, a.1 ≠ f) → m.scopeOf f = some s →
    m.Pristine s
  housed : m.Housed m.stack
  /-- What the scope of an activation binds, it bound when it was made, or the activation has bound
  it. -/
  bound : ∀ a ∈ m.running, m.IsCustom a.1 → ∀ name,
    m.env.vars a.2 name = (m.builtins.lookup name).map (fun v => (v, true)) ∨
      ∃ step ∈ steps, step.pre.running.head? = some a ∧ step.event.Binds a.2 name

section Apart

variable (hI : Separate steps m) (hw : m.Wf)
include hI hw

omit hw in
/-- The function of which a frame may evaluate statements is the innermost one. -/
theorem Separate.runs {frame : Frame} {stack : List Frame} {f s : Nat} {fn : FnVal}
    (hholds : m.HoldsCallee) (hs : m.stack = frame :: stack) (hr : m.Runs frame f fn s)
    (hc : m.IsCustom f) : m.running.head? = some (f, s) := by
  unfold Machine.Runs at hr
  split at hr
  · rename_i val args a hl
    obtain ⟨fn', hc'⟩ := hholds frame stack val args a.1 a.2 hs hl
    have hfa : f = a.1 := congrArg Prod.fst (Option.some.inj (hr.1.symm.trans hc'))
    subst hfa
    have hhead : m.running = a :: activations stack := by
      simp [Machine.running, hs, activations_cons, hl, Locals.activation]
    have hscope := hI.scope a (by simp [hhead]) hc
    rw [scopeOf_of_read (read_of_calleeOf hr.1), hr.2] at hscope
    rw [hhead, List.head?_cons, Option.some.inj hscope]
  · rename_i args f' s' hl
    obtain ⟨rfl, rfl, -⟩ := hr
    simp [Machine.running, hs, activations_cons, hl, Locals.activation]
  · exact hr.elim

/-- A step that binds a name in the scope of a function does so for the innermost activation, if it
is no assignment. -/
theorem Separate.binding (h : Trans m event m') (hu : m.Undisturbed event) {f s : Nat}
    (hc : m.IsCustom f) (hs : m.scopeOf f = some s) (name : String) :
    m'.env.vars s name = m.env.vars s name ∨
      m.running.head? = some (f, s) ∧ event.Binds s name ∨
      ∃ status old, event = .assign name status ∧ m.env.vars s name = some (old, false) := by
  have hdeclares : ∀ frame stack, m.stack = frame :: stack → frame.Declares name s →
      m.running.head? = some (f, s) := by
    intro frame stack hs' hd
    rcases Machine.Housed.declares hs' hI.housed hd with hfree | ⟨a, ha, hca, rfl⟩
    · exact absurd hs (hfree f hc)
    · have hmem := List.mem_of_head? ha
      have heq := hw.scopeOf_inj hc hs (hI.scope a hmem hca)
      rw [ha, heq]
  cases h.bindingChange hw (hw.scopeOf_lt hs) name with
  | same he => exact .inl he
  | declared frame stack status b hs' hd he =>
    exact .inr (.inl ⟨hdeclares frame stack hs' hd, .inl ⟨status, he⟩⟩)
  | set frame stack v c hs' hd he =>
    exact .inr (.inl ⟨hdeclares frame stack hs' hd, .inr (.inr he)⟩)
  | param frame stack g fn status v hs' hr hn he =>
    have hholds : m.HoldsCallee := by
      rw [he] at hu
      exact hu
    have hcg := custom_of_runs hw hr (.inr (List.ne_nil_of_mem hn))
    have hhead := hI.runs hholds hs' hr hcg
    have hsg := hI.scope (g, s) (List.mem_of_head? hhead) hcg
    obtain rfl := hw.scopeOf_inj hc hs hsg
    exact .inr (.inl ⟨hhead, .inr (.inl ⟨status, he⟩)⟩)
  | assigned _ _ _ _ _ old status _ _ he _ hold => exact .inr (.inr ⟨status, old, he, hold⟩)

/-! ## One step -/

variable (h : Trans m event m') (hu : m.Undisturbed event)
include h hu

/-- What is running after the step: the innermost function may be new, or one may have ended. -/
theorem Separate.running (a : Nat × Nat) (ha : a ∈ m'.running) :
    a ∈ m.running ∧ (m.IsCustom a.1 → event ≠ .rescope a.1) ∨ event = .activate a.1 a.2 ∧
      m.scopeOf a.1 = some a.2 ∧ a.1 < m.fns.size ∧ ∀ b ∈ m.running, b.1 ≠ a.1 := by
  cases h.runningChange hw with
  | same heq _ hr => exact .inl ⟨heq ▸ ha, fun hc he => hr _ he hc⟩
  | began f s frame stack he hs hact heq =>
    rw [heq] at ha
    rcases List.mem_cons.mp ha with rfl | ha
    · obtain ⟨⟨fn, hr, hscope⟩, -⟩ := hact
      rw [he] at hu
      exact .inr ⟨he, (scopeOf_of_read hr).trans hscope,
        Heap.lt_of_peek (Heap.read_eq_some.mp hr).2, hu⟩
    · exact .inl ⟨ha, by simp [he]⟩
  | ended b f he heq hf =>
    refine .inl ⟨by simp [heq, ha], fun _ he' => ?_⟩
    have hholds : m.HoldsCallee := by
      rw [he] at hu
      exact hu
    have hne := hI.nodup
    rw [heq, List.map_cons, List.nodup_cons] at hne
    obtain rfl := Event.rescope.inj (he.symm.trans he')
    exact hne.1 (hf hholds ▸ List.mem_map_of_mem ha)

theorem Separate.step_nodup : (m'.running.map Prod.fst).Nodup := by
  cases h.runningChange hw with
  | same heq => exact heq ▸ hI.nodup
  | began f s frame stack he hs hact heq =>
    rw [heq, List.map_cons, List.nodup_cons]
    rw [he] at hu
    refine ⟨fun hmem => ?_, hI.nodup⟩
    obtain ⟨a, ha, hf⟩ := List.mem_map.mp hmem
    exact hu a ha hf
  | ended a f he heq hf =>
    have := hI.nodup
    rw [heq, List.map_cons, List.nodup_cons] at this
    exact this.2

theorem Separate.step_known (a : Nat × Nat) (ha : a ∈ m'.running) : a.1 < m'.fns.size := by
  have hlt : a.1 < m.fns.size := by
    rcases hI.running hw h hu a ha with ⟨ha, -⟩ | ⟨-, -, hlt, -⟩
    · exact hI.known a ha
    · exact hlt
  obtain ⟨fn, hp⟩ := Heap.peek_of_lt hlt
  obtain ⟨fn', hp'⟩ := h.fnsChange.exists_peek hp
  exact Heap.lt_of_peek hp'

theorem Separate.step_scope (a : Nat × Nat) (ha : a ∈ m'.running) (hc : m'.IsCustom a.1) :
    m'.scopeOf a.1 = some a.2 := by
  rcases hI.running hw h hu a ha with ⟨ha, hne⟩ | ⟨he, hs, hlt, -⟩
  · have hlt := hI.known a ha
    have hc' := (h.isCustom_iff hlt).mp hc
    exact (h.scopeOf_same hlt (hne hc')).trans (hI.scope a ha hc')
  · exact (h.scopeOf_same hlt (by simp [he])).trans hs

/-- The scope of a function that is not running stays as it was made. -/
theorem Separate.step_pristine (f s : Nat) (hc : m'.IsCustom f)
    (hn : ∀ a ∈ m'.running, a.1 ≠ f) (hs : m'.scopeOf f = some s) : m'.Pristine s := by
  have hnew : s = m.scopes.size → m'.Pristine s := by
    rintro rfl
    exact h.pristine_new hw ((h.wf hw).scopeOf_lt hs)
  rcases h.scopeOf_custom hc with hs' | ⟨hc', he, hs'⟩
  · exact hnew (Option.some.inj (hs.symm.trans hs'))
  rw [hs'] at hs
  have hn' : ∀ a ∈ m.running, a.1 ≠ f := by
    cases h.runningChange hw with
    | same heq => exact heq ▸ hn
    | began g t frame stack he' hst hact heq =>
      exact fun a ha => hn a (by rw [heq]; exact List.mem_cons_of_mem _ ha)
    | ended a g he' heq hf =>
      have hholds : m.HoldsCallee := by
        rw [he'] at hu
        exact hu
      intro b hb hbf
      rw [heq] at hb
      rcases List.mem_cons.mp hb with rfl | hb
      · exact he (by rw [he', hf hholds, hbf])
      · exact hn b hb hbf
  have hp := hI.pristine f s hc' hn' hs
  intro name
  rw [h.builtins]
  rcases hI.binding hw h hu hc' hs name with heq | ⟨hhead, -⟩ | ⟨-, old, -, hold⟩
  · exact heq.trans (hp name)
  · exact absurd rfl (hn' (f, s) (List.mem_of_head? hhead))
  · -- a built-in function is a constant
    rw [hp name] at hold
    obtain ⟨v, -, hv⟩ := Option.map_eq_some_iff.mp hold
    cases hv

theorem Separate.step_bound (a : Nat × Nat) (ha : a ∈ m'.running) (hc : m'.IsCustom a.1)
    (name : String) :
    m'.env.vars a.2 name = (m'.builtins.lookup name).map (fun v => (v, true)) ∨
      ∃ step ∈ (⟨event, m, m'⟩ : Step Machine Event) :: steps,
        step.pre.running.head? = some a ∧ step.event.Binds a.2 name := by
  have hlater : (∃ step ∈ steps, step.pre.running.head? = some a ∧ step.event.Binds a.2 name) →
      ∃ step ∈ (⟨event, m, m'⟩ : Step Machine Event) :: steps,
        step.pre.running.head? = some a ∧ step.event.Binds a.2 name :=
    fun ⟨step, hmem, hstep⟩ => ⟨step, List.mem_cons_of_mem _ hmem, hstep⟩
  rw [h.builtins]
  rcases hI.running hw h hu a ha with ⟨ha, -⟩ | ⟨he, hs, hlt, hn⟩
  · have hc' := (h.isCustom_iff (hI.known a ha)).mp hc
    have hs := hI.scope a ha hc'
    have hbound := hI.bound a ha hc' name
    rcases hI.binding hw h hu hc' hs name with heq | ⟨hhead, hb⟩ | ⟨status, old, he, hold⟩
    · exact heq ▸ hbound.imp_right hlater
    · exact .inr ⟨_, List.mem_cons_self .., hhead, hb⟩
    · rcases hbound with hbound | hbound
      · rw [hbound] at hold
        obtain ⟨v, -, hv⟩ := Option.map_eq_some_iff.mp hold
        cases hv
      · exact .inr (hlater hbound)
  · have hc' := (h.isCustom_iff hlt).mp hc
    have hp := hI.pristine a.1 a.2 hc' hn hs name
    rcases hI.binding hw h hu hc' hs name with heq | ⟨hhead, -⟩ | ⟨status, old, he', -⟩
    · exact .inl (heq.trans hp)
    · exact absurd rfl (hn a (List.mem_of_head? hhead))
    · cases he.symm.trans he'

theorem Separate.step_housed : m'.Housed m'.stack := by
  have hkeep : ∀ {stack : List Frame}, (∀ frame ∈ stack, frame ∈ m.stack) → m.Housed stack →
      m'.Housed stack := fun hsub => h.housed fun frame hf => hw.frames frame (hsub frame hf)
  have hsame : m'.Housed m.stack := hkeep (fun _ => id) hI.housed
  -- the innermost frame gets other locals
  have hlocals : ∀ (frame : Frame) (stack : List Frame) (locals : Locals),
      m.stack = frame :: stack → (∀ t, locals = .block t ∨ locals = .loop t → m'.Unowned t) →
      m'.Housed ({ frame with locals := locals } :: stack) := by
    intro frame stack locals hs hl
    rw [hs] at hsame
    exact ⟨hl, hsame.2⟩
  have hactivate : ∀ (frame : Frame) (stack : List Frame) (a : Option (Nat × Nat)),
      m.stack = frame :: stack →
      m'.Housed ({ frame with locals := frame.locals.activate a } :: stack) := by
    intro frame stack a hs
    rw [hs] at hsame
    refine hlocals frame stack _ hs fun t ht => hsame.1 t ?_
    cases hl : frame.locals <;> simp_all [Locals.activate]
  have hnew : m.fns = m'.fns → m'.Unowned m.scopes.size := by
    intro heq f hc hs
    have hs' : m.scopeOf f = some m.scopes.size := by
      simpa only [Machine.scopeOf, heq] using hs
    exact absurd (hw.scopeOf_lt hs') (lt_irrefl _)
  cases h with
  | store | value | newSlot | copyBuiltin | copyCustom | newFn | loopIds | declare | param
    | setDefault | assign | use => exact hsame
  | call frame stack node scope hs hc =>
    refine ⟨by simp, ?_, hsame⟩
    have hact := hc.1
    rw [hs] at hsame ⊢
    obtain ⟨hl, hscope, -⟩ := hsame
    rcases hc.scope_cases with rfl | hb | hb
    · simpa [activations_cons, hact] using hscope
    · exact .inl (hl scope (.inl hb))
    · exact .inl (hl scope (.inr hb))
  | callBody frame stack f fn node scope hs hr hn =>
    refine ⟨by simp, .inr ⟨(f, scope), ?_, ?_, rfl⟩, hsame⟩
    · exact hI.runs hu hs hr (custom_of_runs hw hr (.inl (List.ne_nil_of_mem hn)))
    · exact custom_of_runs hw hr (.inl (List.ne_nil_of_mem hn))
  | «return» frame stack hs hne ha =>
    rw [hs] at hsame
    exact hsame.2.2
  | openBlock frame stack hs hl =>
    refine hlocals frame stack _ hs fun t ht => ?_
    obtain rfl : t = m.scopes.size := (by simpa using ht : _ = t).symm
    exact hnew rfl
  | openLoop frame stack hs hl =>
    refine hlocals frame stack _ hs fun t ht => ?_
    obtain rfl : t = m.scopes.size := (by simpa using ht : _ = t).symm
    exact hnew rfl
  | closeScope m₁ frame stack s hs hl hf => exact hlocals frame stack _ hs (by simp)
  | resolve frame stack name val hs hl hv => exact hlocals frame stack _ hs (by simp)
  | arg frame stack val args hs hl => exact hlocals frame stack _ hs (by simp)
  | builtin frame stack val args hs hl => exact hlocals frame stack _ hs (by simp)
  | activate frame stack f s hs ha => exact hactivate frame stack _ hs
  | rescope frame stack f fn hs hc => exact hactivate frame stack _ hs

/-- A step that disturbs no activation keeps them apart. -/
theorem Separate.step : Separate (⟨event, m, m'⟩ :: steps) m' :=
  ⟨hI.step_nodup hw h hu, hI.step_known hw h hu, hI.step_scope hw h hu, hI.step_pristine hw h hu,
    hI.step_housed hw h hu, hI.step_bound hw h hu⟩

/-- A step that disturbs no activation is independent. -/
theorem Separate.independent : Independent steps ⟨event, m, m'⟩ where
  own f s he hc := by
    have he : event = .activate f s := he
    cases h.runningChange hw with
    | same _ ha => exact absurd he (ha f s)
    | ended _ g he' => cases he'.symm.trans he
    | began g t frame stack he' hs hact =>
      obtain ⟨rfl, rfl⟩ := Event.activate.inj (he'.symm.trans he)
      rw [he'] at hu
      obtain ⟨⟨fn, hr, hscope⟩, -⟩ := hact
      have hs' : m.scopeOf g = some t := (scopeOf_of_read hr).trans hscope
      refine ⟨fun a ha hca heq => hu a ha ?_, hI.pristine g t hc hu hs'⟩
      exact hw.scopeOf_inj hca (heq ▸ hI.scope a ha hca) hs'
  param s name status he := by
    obtain rfl : event = .param s name status := he
    cases h with
    | param frame stack f fn _ _ v r hs hr hn hv hd =>
      have hc := custom_of_runs hw hr (.inr (List.ne_nil_of_mem hn))
      have hhead := hI.runs hu hs hr hc
      refine ⟨f, hhead, fun hexists => ?_⟩
      obtain ⟨-, -, hstatus, -⟩ := scopeDeclareIdentifier_spec hd
      have hsome : (m.env.vars s name).isSome := by
        by_contra hnone
        have hok : r.1 = .setOk := hstatus.trans (if_neg hnone)
        cases hok.symm.trans hexists
      rcases hI.bound (f, s) (List.mem_of_head? hhead) hc name with hb | hb
      · simp only at hb
        rw [hb] at hsome
        exact .inl (by simpa using hsome)
      · exact .inr hb
  body f he := by
    obtain rfl : event = .call (some f) := he
    cases h with
    | callBody frame stack _ fn node s hs hr hn =>
      have hc := custom_of_runs hw hr (.inl (List.ne_nil_of_mem hn))
      exact ⟨s, hI.runs hu hs hr hc, rfl⟩
  keeps a ha hc := by
    have hmem : a ∈ m.running := List.mem_of_mem_tail ha
    refine ⟨fun hl => (h.scopesChange hw).live hl fun t he => ?_, fun name => ?_⟩
    · have he : event = .closeScope t := he
      rw [he] at hu
      exact hu a hmem
    · rcases hI.binding hw h hu hc (hI.scope a hmem hc) name with heq | ⟨hhead, -⟩ | hassign
      · exact .inl heq
      · -- no function runs twice
        obtain ⟨l, hl⟩ := List.head?_eq_some_iff.mp hhead
        have hn := hI.nodup
        have ha : a ∈ m.running.tail := ha
        rw [hl] at hn ha
        exact absurd (List.mem_map_of_mem ha) (List.nodup_cons.mp hn).1
      · exact .inr hassign

end Apart

/-- Activating a user function is independent exactly if it is not running. -/
theorem Separate.independent_iff (hI : Separate steps m) (hw : m.Wf) {f s : Nat}
    (h : Trans m (.activate f s) m') (hc : m.IsCustom f) :
    Independent steps ⟨.activate f s, m, m'⟩ ↔ ∀ a ∈ m.running, a.1 ≠ f := by
  refine ⟨fun hi a ha heq => ?_, fun hn => hI.independent hw h hn⟩
  subst heq
  cases h.runningChange hw with
  | same _ hne => exact hne _ _ rfl
  | ended _ g he' => cases he'
  | began g t frame stack he' hs hact =>
    obtain ⟨rfl, rfl⟩ := Event.activate.inj he'
    obtain ⟨⟨fn, hr, hscope⟩, -⟩ := hact
    have hs' := hI.scope a ha hc
    rw [scopeOf_of_read hr, hscope] at hs'
    exact (hi.own _ _ rfl hc).1 a ha hc (Option.some.inj hs').symm

/-- Nothing is running in the initial state. -/
theorem Initial.separate {root : AstNode} (h : Initial root m) : Separate [] m := by
  have hrunning : m.running = [] := by simp [Machine.running, h.stack, activations, Locals.activation]
  have hno : ∀ f, ¬ m.IsCustom f := by
    rintro f ⟨fn, hp, hb⟩
    obtain ⟨callback, rfl⟩ := h.fns f fn hp
    cases hb
  refine ⟨by simp [hrunning], by simp [hrunning], by simp [hrunning],
    fun f _ hc => absurd hc (hno f), ?_, by simp [hrunning]⟩
  rw [h.stack]
  exact ⟨by simp, .inl fun f hc => absurd hc (hno f), trivial⟩

/-- If no step so far has disturbed an activation, the activations are apart. -/
theorem separate_of_undisturbed (fuel : Nat) (root : AstNode) (stdin : List String)
    (strerror : String) (step : Step Machine Event) (rest : List (Step Machine Event))
    (hrun : step :: rest <:+ programSteps fuel root stdin strerror)
    (hu : ∀ earlier ∈ rest, earlier.pre.Undisturbed earlier.event) :
    Trans step.pre step.event step.post ∧ step.pre.Wf ∧ Separate rest step.pre := by
  have hinit := initial_spec root stdin strerror
  have hpath := runProgram_path fuel root stdin strerror
  obtain ⟨l, hl⟩ := hrun
  rw [← hl] at hpath
  obtain ⟨m', hpath, -⟩ := hpath.split
  cases hpath with
  | cons hp ht =>
    obtain ⟨⟨hw, hI⟩, -⟩ := hp.invariant (I := fun steps m => m.Wf ∧ Separate steps m)
      ⟨hinit.wf, hinit.separate⟩ fun t' step' hs ht ⟨hw, hI⟩ =>
        ⟨ht.wf hw, hI.step hw ht (hu step' (hs.subset (List.mem_cons_self ..)))⟩
    exact ⟨ht, hw, hI⟩

/-- If no step of a program disturbs an activation, every step keeps the activations apart. As long as
none has been disturbed, activating a user function does so exactly if the function is not running. -/
theorem activations_independent (fuel : Nat) (root : AstNode) (stdin : List String)
    (strerror : String) :
    ((∀ step ∈ programSteps fuel root stdin strerror, step.pre.Undisturbed step.event) →
      ∀ step rest, step :: rest <:+ programSteps fuel root stdin strerror →
        Independent rest step) ∧
    ∀ step rest f s, step :: rest <:+ programSteps fuel root stdin strerror →
      (∀ earlier ∈ rest, earlier.pre.Undisturbed earlier.event) →
      step.event = .activate f s → step.pre.IsCustom f →
      (Independent rest step ↔ ∀ a ∈ step.pre.running, a.1 ≠ f) := by
  refine ⟨fun hu step rest hrun => ?_, fun step rest f s hrun hu he hc => ?_⟩
  · have hmem : ∀ step' ∈ step :: rest, step'.pre.Undisturbed step'.event :=
      fun step' h => hu step' (hrun.subset h)
    obtain ⟨ht, hw, hI⟩ := separate_of_undisturbed fuel root stdin strerror step rest hrun
      fun earlier h => hmem earlier (List.mem_cons_of_mem _ h)
    exact hI.independent hw ht (hmem step (List.mem_cons_self ..))
  · obtain ⟨ht, hw, hI⟩ := separate_of_undisturbed fuel root stdin strerror step rest hrun hu
    obtain ⟨event, pre, post⟩ := step
    obtain rfl : event = .activate f s := he
    exact hI.independent_iff hw ht hc

/-! ## Two programs -/

theorem Machine.isCustom_of_test {f : Nat} (h : m.isCustom f = true) : m.IsCustom f := by
  obtain ⟨fn, hp, hb⟩ := (Option.any_eq_true _ _).mp h
  exact ⟨fn, hp, by simpa using hb⟩

theorem Machine.holdsCallee_of_test (h : m.holdsCallee = true) : m.HoldsCallee := by
  intro frame stack val args f s hs hl
  simp only [Machine.holdsCallee, hs, List.head?_cons, Option.map_some, hl] at h
  obtain ⟨⟨g, fn⟩, hc, hg⟩ := (Option.any_eq_true _ _).mp h
  obtain rfl : g = f := by simpa using hg
  exact ⟨fn, hc⟩

theorem Machine.undisturbed_of_test (h : m.undisturbed event = true) : m.Undisturbed event := by
  cases event with
  | activate f s => simpa [Machine.undisturbed, Machine.Undisturbed] using h
  | param => exact m.holdsCallee_of_test h
  | rescope => exact m.holdsCallee_of_test h
  | call body =>
    cases body with
    | none => trivial
    | some f => exact m.holdsCallee_of_test h
  | closeScope s =>
    have hnone : m.running = [] := by simpa [Machine.undisturbed] using h
    simp [Machine.Undisturbed, hnone]
  | _ => trivial

theorem activatesWhile_spec {among : Bool} {steps : List (Step Machine Event)}
    (h : activatesWhile among steps = true) :
    ∃ f s pre post rest, steps = ⟨.activate f s, pre, post⟩ :: rest ∧ pre.IsCustom f ∧
      pre.running ≠ [] ∧
      if among then (f, s) ∈ pre.running else ∀ a ∈ pre.running, a.1 ≠ f := by
  unfold activatesWhile at h
  split at h
  · rename_i f s pre post rest
    obtain ⟨h, hmem⟩ := Bool.and_eq_true_iff.mp h
    obtain ⟨hc, hne⟩ := Bool.and_eq_true_iff.mp h
    refine ⟨f, s, pre, post, rest, rfl, Machine.isCustom_of_test hc, of_decide_eq_true hne, ?_⟩
    cases among with
    | true => exact of_decide_eq_true hmem
    | false => simpa using hmem
  · cases h

/-- `function f(n) { n; } function g(n) { f(n); n; } g(1); f(2);`. -/
def nestedProgram : AstNode :=
  .root .unknown
    [.fnDecl .unknown "f" ["n"] [.identifier .unknown "n"],
      .fnDecl .unknown "g" ["n"]
        [.exprCall .unknown "f" [.identifier .unknown "n"], .identifier .unknown "n"],
      .exprCall .unknown "g" [.intLit .unknown 1], .exprCall .unknown "f" [.intLit .unknown 2]]

/-- A function is activated while another is running, and each keeps its `n`. -/
theorem activations_independent_nestedProgram :
    (∀ step rest, step :: rest <:+ programSteps 8 nestedProgram [] "" → Independent rest step) ∧
    ∃ step rest f s, step :: rest <:+ programSteps 8 nestedProgram [] "" ∧
      step.event = .activate f s ∧ step.pre.running ≠ [] ∧ Independent rest step := by
  have hall : (programSteps 8 nestedProgram [] "").all
      (fun step => step.pre.undisturbed step.event) = true := by decide +kernel
  have hu : ∀ step ∈ programSteps 8 nestedProgram [] "", step.pre.Undisturbed step.event :=
    fun step hs => Machine.undisturbed_of_test (List.all_eq_true.mp hall step hs)
  have hany : (programSteps 8 nestedProgram [] "").tails.any (activatesWhile false) = true := by
    decide +kernel
  obtain ⟨hindependent, hiff⟩ := activations_independent 8 nestedProgram [] ""
  refine ⟨hindependent hu, ?_⟩
  obtain ⟨steps, hsteps, h⟩ := List.any_eq_true.mp hany
  obtain ⟨f, s, pre, post, rest, rfl, hc, hne, hn⟩ := activatesWhile_spec h
  have hrun := (List.mem_tails _ _).mp hsteps
  refine ⟨_, rest, f, s, hrun, rfl, hne, (hiff _ rest f s hrun (fun earlier hmem => ?_) rfl hc).mpr hn⟩
  exact hu earlier (hrun.subset (List.mem_cons_of_mem _ hmem))

/-- `function f(n) { { if (n) f(n - 1); } n; } f(1);`. -/
def recursiveProgram : AstNode :=
  .root .unknown
    [.fnDecl .unknown "f" ["n"]
        [.block .unknown
          [.ifStmt .unknown (.identifier .unknown "n")
            (.exprCall .unknown "f"
              [.binaryExpr .unknown .opMinus (.identifier .unknown "n") (.intLit .unknown 1)])
            none],
        .identifier .unknown "n"],
      .exprCall .unknown "f" [.intLit .unknown 1]]

/-- The inner call is activated in the scope of the outer one, where its parameter is rejected. -/
theorem activations_dependent :
    (∃ step rest f s, step :: rest <:+ programSteps 12 recursiveProgram [] "" ∧
      step.event = .activate f s ∧ (f, s) ∈ step.pre.running ∧ ¬ Independent rest step) ∧
    errorOf (runProgram 12 recursiveProgram [] "") = some
      (.runtimeError .unknown "cannot redefine 'f' as a function parameter") := by
  refine ⟨?_, by decide +kernel⟩
  have hany : (programSteps 12 recursiveProgram [] "").tails.any (activatesWhile true) = true := by
    decide +kernel
  obtain ⟨steps, hsteps, h⟩ := List.any_eq_true.mp hany
  obtain ⟨f, s, pre, post, rest, rfl, hc, -, hmem⟩ := activatesWhile_spec h
  have hrun := (List.mem_tails _ _).mp hsteps
  exact ⟨_, rest, f, s, hrun, rfl, hmem, fun hi => (hi.own f s rfl hc).1 (f, s) hmem hc rfl⟩

end Blaze
