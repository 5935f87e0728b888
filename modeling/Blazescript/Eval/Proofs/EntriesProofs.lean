import Blazescript.Eval.Entries
import Blazescript.Eval.Proofs.ShapeProofs

/-!
# Proofs: pointers into maps

A pointer stays current through every step that spares it, and every pointer in use has been resolved
by a step before.
-/

namespace Blaze

open Arena Environment Tracing

variable {m m' : Machine} {event : Event} {val : EntryPtr}

/-- What `scope_resolve_identifier` returns is current. -/
theorem current_of_resolve (hr : Rooted m.env.parent) {s : Nat} {name : String}
    (h : scopeResolveIdentifier m.scopes s name = some (some val)) : m.Current val := by
  obtain ⟨hbinder, hread⟩ := resolveFrom_spec hr h
  obtain ⟨hentry, hg⟩ := hread val rfl
  refine ⟨?_, hg⟩
  obtain ⟨b, hb⟩ := Env.exists_of_binder hbinder
  rw [Env.find_of_binder hbinder, hb] at hentry
  obtain ⟨scope, hscope, -⟩ := Option.bind_eq_some_iff.mp hentry
  exact (Heap.read_eq_some.mp hscope).1

/-- A pointer stays current through a step that spares it. -/
theorem ScopesChange.current {h' : Scopes Val} (h : ScopesChange m event h')
    (hs : m.Spares event val) (hc : m.Current val) :
    h'.isLive val.scope = true ∧ generationOf h' val.scope = some val.generation := by
  obtain ⟨hl, hg⟩ := hc
  refine ⟨h.live hl hs.2, ?_⟩
  cases h with
  | same size live env generation => exact (generation _).trans hg
  | opened p scope hp hparent hin hvars heq =>
    rw [heq, alloc_generation _ (Nat.ne_of_lt (Heap.lt_of_isLive hl)), hg]
  | wrote hmaps hvars hgeneration => exact (hgeneration _ hs.1).trans hg
  | freed t scopes slots m₁ he hF hrel heq => rw [heq, hF.generation, hg]

theorem Frame.val_activate (scope : Nat) (node : AstNode) (locals : Locals)
    (activation : Option (Nat × Nat)) :
    Frame.val ⟨scope, node, locals.activate activation⟩ = Frame.val ⟨scope, node, locals⟩ := by
  cases locals <;> rfl

/-- A pointer in use was in use before the step, or the step has resolved it. -/
theorem Trans.vals (h : Trans m event m') (hv : val ∈ m'.vals) :
    val ∈ m.vals ∨ ∃ frame stack name, m.stack = frame :: stack ∧
      scopeResolveIdentifier m.scopes frame.scope name = some (some val) ∧ m'.scopes = m.scopes := by
  -- the innermost frame gets other locals
  have hlocals : ∀ (frame : Frame) (stack : List Frame) (locals : Locals),
      m.stack = frame :: stack →
      (Frame.val { frame with locals := locals } = some val → frame.val = some val) →
      val ∈ ({ frame with locals := locals } :: stack).filterMap Frame.val → val ∈ m.vals := by
    intro frame stack locals hs hl hmem
    simp only [Machine.vals, hs, List.mem_filterMap, List.mem_cons, exists_eq_or_imp] at hmem ⊢
    exact hmem.imp_left hl
  cases h with
  | store | value | newSlot | copyBuiltin | copyCustom | newFn | loopIds | declare | param
    | setDefault | assign | use => exact .inl hv
  | call | callBody => exact .inl (by simpa [Machine.vals, Frame.val] using hv)
  | «return» frame stack hs hne =>
    simp only [Machine.vals, hs, List.mem_filterMap, List.mem_cons, exists_eq_or_imp] at hv ⊢
    exact .inl (.inr hv)
  | openBlock frame stack hs hl => exact .inl (hlocals frame stack _ hs (by simp [Frame.val]) hv)
  | openLoop frame stack hs hl => exact .inl (hlocals frame stack _ hs (by simp [Frame.val]) hv)
  | closeScope m₁ frame stack s hs hl hf =>
    exact .inl (hlocals frame stack _ hs (by simp [Frame.val]) hv)
  | builtin frame stack val' args hs hl =>
    exact .inl (hlocals frame stack _ hs (by simp [Frame.val]) hv)
  | arg frame stack val' args hs hl =>
    exact .inl (hlocals frame stack _ hs (by simp [Frame.val, hl]) hv)
  | activate frame stack f scope hs ha =>
    exact .inl (hlocals frame stack _ hs (fun h => by rwa [Frame.val_activate] at h) hv)
  | rescope frame stack f fn hs hc =>
    exact .inl (hlocals frame stack _ hs (fun h => by rwa [Frame.val_activate] at h) hv)
  | resolve frame stack name val' hs hl hr =>
    obtain ⟨frame', hf, he⟩ := List.mem_filterMap.mp hv
    rcases List.mem_cons.mp hf with rfl | hf
    · obtain rfl := Option.some.inj he
      exact .inr ⟨frame, stack, name, hs, hr, rfl⟩
    · exact .inl (List.mem_filterMap.mpr ⟨frame', by simp [hs, hf], he⟩)

/-- A step that spares the pointers in use keeps them current. -/
theorem Trans.current (h : Trans m event m') (hw : m.Wf)
    (hspares : ∀ val ∈ m.vals, m.Spares event val) (hI : ∀ val ∈ m.vals, m.Current val) :
    ∀ val ∈ m'.vals, m'.Current val := by
  intro val hv
  rcases h.vals hv with hv | ⟨frame, stack, name, hs, hr, heq⟩
  · exact (h.scopesChange hw).current (hspares val hv) (hI val hv)
  · have hc := current_of_resolve hw.rooted hr
    exact ⟨heq ▸ hc.1, heq ▸ hc.2⟩

/-- A read through `val` is one by the innermost call. -/
theorem Trans.use_vals (h : Trans m (.use val) m') : val ∈ m.vals := by
  cases h with
  | use frame stack _ args activation hs hl =>
    simp [Machine.vals, hs, Frame.val, hl]

theorem Machine.spares_of_sparesAll (h : m.sparesAll event = true) :
    ∀ val ∈ m.vals, m.Spares event val := by
  have hwrites : ∀ t, (m.vals.all fun val => decide (val.scope ≠ t) || !atThreshold m.scopes t) →
      ∀ val ∈ m.vals, ¬ (val.scope = t ∧ atThreshold m.scopes val.scope = true) := by
    intro t ht val hv ⟨he, hat⟩
    have := List.all_eq_true.mp ht val hv
    simp_all
  intro val hv
  cases event with
  | declare t => exact ⟨hwrites t h val hv, fun s he => by cases he⟩
  | param t => exact ⟨hwrites t h val hv, fun s he => by cases he⟩
  | setDefault t => exact ⟨hwrites t h val hv, fun s he => by cases he⟩
  | assign =>
    have := List.all_eq_true.mp h val hv
    exact ⟨fun hc => by simp [hc.2] at this, fun s he => by cases he⟩
  | closeScope =>
    rw [List.isEmpty_iff.mp h] at hv
    cases hv
  | _ => exact ⟨fun hc => hc.1.elim, fun s he => by cases he⟩

/-- If no step of a program grows or frees the map of a pointer in use, every use of `val` finds the
map as it was when `val` was resolved. -/
theorem use_current (fuel : Nat) (root : AstNode) (stdin : List String) (strerror : String)
    (hspares : ∀ step ∈ programSteps fuel root stdin strerror, ∀ val ∈ step.pre.vals,
      step.pre.Spares step.event val) :
    ∀ step ∈ programSteps fuel root stdin strerror, ∀ val, step.event = .use val →
      step.pre.Current val := by
  have hinit := initial_spec root stdin strerror
  obtain ⟨-, hall⟩ := (runProgram_path fuel root stdin strerror).invariant_mem
    (I := fun m => m.Wf ∧ ∀ val ∈ m.vals, m.Current val)
    ⟨hinit.wf, by simp [Machine.vals, hinit.stack, Frame.val]⟩ hspares
    fun step hs ht ⟨hw, hI⟩ => ⟨ht.wf hw, ht.current hw hs hI⟩
  intro step hmem val he
  obtain ⟨ht, ⟨-, hI⟩, -⟩ := hall step hmem
  exact hI val (Trans.use_vals (he ▸ ht))

/-- `function f(n) { n; } f(1);`. -/
def callProgram : AstNode :=
  .root .unknown
    [.fnDecl .unknown "f" ["n"] [.identifier .unknown "n"],
      .exprCall .unknown "f" [.intLit .unknown 1]]

theorem use_current_callProgram :
    (∀ step ∈ programSteps 5 callProgram [] "", ∀ val ∈ step.pre.vals,
      step.pre.Spares step.event val) ∧
    ∀ step ∈ programSteps 5 callProgram [] "", ∀ val, step.event = .use val →
      step.pre.Current val := by
  have hall : (programSteps 5 callProgram [] "").all
      (fun step => step.pre.sparesAll step.event) = true := by decide +kernel
  have hspares : ∀ step ∈ programSteps 5 callProgram [] "", ∀ val ∈ step.pre.vals,
      step.pre.Spares step.event val :=
    fun step hs => Machine.spares_of_sparesAll (List.all_eq_true.mp hall step hs)
  exact ⟨hspares, use_current 5 callProgram [] "" hspares⟩

/-- Six variables, `function f() { a = 1; } f();`. The map of the global scope grows in the call. -/
def growthProgram : AstNode :=
  .root .unknown
    ((["a", "b", "c", "d", "e", "g"].map fun name => .varDecl .unknown name false none) ++
      [.fnDecl .unknown "f" []
          [.assignment .unknown (.identifier .unknown "a") (.intLit .unknown 1)],
        .exprCall .unknown "f" []])

/-- A use of `val` after its map has grown. -/
theorem use_stale : ∃ step ∈ programSteps 5 growthProgram [] "", ∃ val, step.event = .use val ∧
    ¬ step.pre.Current val := by
  have hany : (programSteps 5 growthProgram [] "").any (fun step =>
      match step.event with
      | .use val => !decide (step.pre.Current val)
      | _ => false) = true := by decide +kernel
  obtain ⟨step, hs, hstale⟩ := List.any_eq_true.mp hany
  refine ⟨step, hs, ?_⟩
  cases he : step.event with
  | use val => exact ⟨val, rfl, by simpa [he] using hstale⟩
  | _ => simp [he] at hstale

end Blaze
