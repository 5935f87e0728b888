import Blazescript.Eval.Proofs.EvalProofs
import Blazescript.Eval.Shape
import Blazescript.Scope.Proofs.TreeProofs

/-!
# Proofs: the shape of the states

What each step does to the scopes and to the functions, and from it that every state of an evaluation
has the shape.
-/

namespace Blaze

open Arena Environment Tracing

variable {m m' : Machine} {event : Event}

/-! ## New scopes -/

/-- A child scope, as `scope_init` makes it or with other fields than the parent and the map. -/
theorem child_opened {p : Nat} {scope : Scope Val} (hp : p < m.scopes.size)
    (hparent : scope.parent = some p)
    (hin : (∃ frame stack, m.stack = frame :: stack ∧ p = frame.scope) ∨
      ∃ orig copy, event = .copyFn orig copy ∧ m.scopeOf orig = some p)
    (hvars : scope.valmap = (scopeInit m.builtins (some p)).valmap) :
    ScopesChange m event (m.scopes.alloc scope) := by
  refine .opened p scope hp hparent hin (fun k => ?_) rfl
  rw [hvars]
  exact (scopeInit_child m.builtins p).2 k

theorem scopeInit_opened {p : Nat} (hp : p < m.scopes.size)
    (hin : (∃ frame stack, m.stack = frame :: stack ∧ p = frame.scope) ∨
      ∃ orig copy, event = .copyFn orig copy ∧ m.scopeOf orig = some p) :
    ScopesChange m event (m.scopes.alloc (scopeInit m.builtins (some p))) :=
  child_opened hp (congrArg Prod.fst (scopeInit_child m.builtins p).1) hin rfl

/-! ## What is bound -/

theorem Machine.Wf.head {frame : Frame} {stack : List Frame} (hw : m.Wf)
    (hs : m.stack = frame :: stack) : ∀ s ∈ frame.scopes, s < m.scopes.size :=
  hw.frames frame (by simp [hs])

theorem Machine.Wf.headScope {frame : Frame} {stack : List Frame} (hw : m.Wf)
    (hs : m.stack = frame :: stack) : frame.scope < m.scopes.size :=
  hw.head hs _ (List.mem_cons_self ..)

/-- Binding a value that is at hand. -/
theorem bind_wrote {h' : Scopes Val} (s : Nat) (name : String) (v : Val) (c : Bool)
    (hmaps : MapsOnly m.scopes h') (he : envOf h' = m.env ∨ envOf h' = m.env.bind s name (v, c))
    (hg : ∀ s, ¬ (m.Checks event s ∧ atThreshold m.scopes s = true) →
      generationOf h' s = generationOf m.scopes s)
    (hv : m.Holds v ∨ v.Plain) : ScopesChange m event h' := by
  refine .wrote hmaps (fun t k w c' hb => ?_) hg
  rcases he with he | he <;> rw [he] at hb
  · exact .inl hb
  · rw [Env.vars_bind] at hb
    split_ifs at hb
    · obtain ⟨rfl, rfl⟩ := Prod.mk.inj (Option.some.inj hb)
      exact .inr hv
    · exact .inl hb

/-- Only the map that is written to may grow. -/
theorem generation_checked {h' : Scopes Val} {s : Nat} (hc : m.Checks event s)
    (hg : ∀ t, generationOf h' t = (generationOf m.scopes t).map fun g =>
      g + if t = s ∧ atThreshold m.scopes s then 1 else 0) :
    ∀ t, ¬ (m.Checks event t ∧ atThreshold m.scopes t = true) →
      generationOf h' t = generationOf m.scopes t := by
  intro t ht
  have hnot : ¬ (t = s ∧ atThreshold m.scopes s) := fun ⟨he, h⟩ => ht (he ▸ ⟨hc, h⟩)
  rw [hg, if_neg hnot]
  simp

theorem declare_wrote {s : Nat} {name : String} {v : Val} {c : Bool}
    {r : ValmapSetStatus × Option Val × Scopes Val}
    (hd : scopeDeclareIdentifier m.scopes s name v c = some r) (hc : m.Checks event s)
    (hv : m.Holds v ∨ v.Plain) : ScopesChange m event r.2.2 := by
  obtain ⟨-, hmaps, -, henv, hg⟩ := scopeDeclareIdentifier_spec hd
  have hg' := generation_checked hc hg
  split_ifs at henv
  · exact bind_wrote s name v c hmaps (.inl henv) hg' hv
  · exact bind_wrote s name v c hmaps (.inr henv) hg' hv

theorem holds_result : m.Holds m.result := .inl rfl

theorem holds_or_plain {v : Val} (hv : v = m.result ∨ v.Plain) : m.Holds v ∨ v.Plain :=
  hv.imp_left .inl

theorem holds_of_passes {frame : Frame} {stack : List Frame} {v : Val}
    (hs : m.stack = frame :: stack) (hv : frame.locals.Passes m.result v) : m.Holds v := by
  unfold Locals.Passes at hv
  split at hv
  · rename_i val args a hl
    exact .inr (.inl ⟨frame, by simp [hs], by rw [hl]; exact hv⟩)
  · exact .inl hv

/-! ## Scopes -/

/-- What freeing the scope of a block or loop does. -/
theorem Trans.closeScope_spec {s : Nat} (h : Trans m (.closeScope s) m') :
    ∃ frame stack m₁ scopes slots, m.stack = frame :: stack ∧
      (frame.locals = .block s ∨ frame.locals = .loop s) ∧
      m' = { m₁ with result := nullVal, stack := { frame with locals := .none } :: stack } ∧
      Freed m m₁ scopes slots ∧ scopes.Nodup ∧ (∀ t ∈ scopes, m.scopes.isLive t = true) ∧
      (∀ t, t ∈ scopes ↔ m.Releases s t) ∧ slots.Perm (scopes.flatMap m.ownedSlots) := by
  cases h with
  | closeScope m₁ frame stack _ hs hl hf =>
    obtain ⟨scopes, slots, hspec⟩ := scopeFree_spec hf
    exact ⟨frame, stack, m₁, scopes, slots, hs, hl, rfl, hspec⟩

/-- What a step does to the scopes. -/
theorem Trans.scopesChange (h : Trans m event m') (hw : m.Wf) : ScopesChange m event m'.scopes := by
  have hsame : ScopesChange m event m.scopes := .same rfl (fun _ => rfl) rfl fun _ => rfl
  cases h with
  | store | value | newSlot | copyBuiltin | call | callBody | «return» | resolve | use | arg
    | activate | builtin => exact hsame
  | copyCustom orig fn body hf hb =>
    obtain ⟨-, hp⟩ := Heap.read_eq_some.mp hf
    obtain ⟨s, hs⟩ := Option.isSome_iff_exists.mp (hw.custom _ _ hp hb)
    rw [hs]
    refine scopeInit_opened (hw.fnScope _ _ _ hp hs) (.inr ⟨orig, _, rfl, ?_⟩)
    simp [Machine.scopeOf, hp, hs]
  | newFn frame stack body paramNames hs => exact scopeInit_opened (hw.headScope hs) (.inl ⟨frame, stack, hs, rfl⟩)
  | openBlock frame stack hs hl => exact scopeInit_opened (hw.headScope hs) (.inl ⟨frame, stack, hs, rfl⟩)
  | openLoop frame stack hs hl =>
    exact child_opened (hw.headScope hs)
      (congrArg Prod.fst (scopeInit_child m.builtins frame.scope).1)
      (.inl ⟨frame, stack, hs, rfl⟩) rfl
  | rescope frame stack f fn hs hc => exact scopeInit_opened (hw.headScope hs) (.inl ⟨frame, stack, hs, rfl⟩)
  | loopIds frame stack s scope prevUniqueId uniqueId hs hl hr =>
    obtain ⟨-, hp⟩ := Heap.read_eq_some.mp hr
    refine .same (by simp) (by simp) ?_ fun t => ?_
    · ext t
      · simp only [envOf, Heap.peek_write]
        split_ifs with ht
        · simp [ht, hp]
        · rfl
      · simp only [envOf, Heap.peek_write]
        split_ifs with ht
        · simp [ht, hp]
        · rfl
    · simp only [generationOf, Heap.peek_write]
      split_ifs with ht
      · simp [ht, hp]
      · rfl
  | closeScope m₁ frame stack s hs hl hf =>
    obtain ⟨scopes, slots, hF, -, -, hreleased, -⟩ := scopeFree_spec hf
    exact .freed s scopes slots m₁ rfl hF hreleased rfl
  | declare frame stack s name value isConst r hs hn hv hd =>
    exact declare_wrote hd rfl (holds_or_plain hv)
  | param frame stack f fn s name value r hs hr hn hv hd =>
    exact declare_wrote hd rfl (.inl (holds_of_passes hs hv))
  | setDefault frame stack s name value isConst scopes hs hn hv hd =>
    obtain ⟨-, hmaps, henv, hg⟩ := scopeSetDefault_spec hd
    have hc : m.Checks (.setDefault s name) s := rfl
    exact bind_wrote _ _ _ _ hmaps (.inr henv) (generation_checked hc hg) (holds_or_plain hv)
  | assign frame stack pos namePos name node r hs hn ha =>
    obtain ⟨hmaps, henv, hg⟩ := assignFrom_spec hw.rooted ha
    have hg' : ∀ t, ¬ (m.Checks (.assign name r.1) t ∧ atThreshold m.scopes t = true) →
        generationOf r.2 t = generationOf m.scopes t :=
      fun t ht => hg t fun hboth => ht ⟨⟨frame, stack, hs, hboth.1⟩, hboth.2⟩
    have henv₂ : envOf r.2 = (envAssign m.env frame.scope name m.result).2 := congrArg Prod.snd henv
    by_cases hok : (envAssign m.env frame.scope name m.result).1 = .setOk
    · obtain ⟨t, old, -, -, he⟩ := envAssign_ok hok
      exact bind_wrote _ _ _ _ hmaps (.inr (henv₂.trans he)) hg' (.inl holds_result)
    · have he := henv₂.trans (envAssign_rejected hok)
      exact bind_wrote frame.scope name m.result true hmaps (.inl he) hg' (.inl holds_result)

/-! ## Functions -/

/-- What a step does to the functions. -/
theorem Trans.fnsChange (h : Trans m event m') : FnsChange m event m'.scopes m'.fns := by
  have hsame : (∀ f, event ≠ .rescope f) → FnsChange m event m'.scopes m.fns :=
    fun he => .same he rfl fun _ => rfl
  cases h with
  | copyBuiltin orig fn hf hb => exact .copied orig fn rfl hf hb rfl
  | copyCustom orig fn body hf hb => exact .made _ (.inr ⟨orig, rfl⟩) rfl rfl (by simp) rfl
  | newFn frame stack body paramNames hs => exact .made _ (.inl rfl) rfl rfl (by simp) rfl
  | rescope frame stack f fn hs hc => exact .rescoped f fn rfl hc.1 (by simp) rfl
  | closeScope m₁ frame stack s hs hl hf =>
    obtain ⟨scopes, slots, hF, -⟩ := scopeFree_spec hf
    exact .same (by simp) hF.fnSize hF.fnPeek
  | store | value | newSlot | call | callBody | «return» | resolve | use | arg | activate | builtin
    | openBlock | openLoop | loopIds | declare | param | setDefault | assign =>
    exact hsame (by simp)

/-! ## What the changes keep -/

theorem alloc_generation {h : Scopes Val} {scope : Scope Val} (s : Nat) (hs : s ≠ h.size) :
    generationOf (h.alloc scope) s = generationOf h s := by
  simp only [generationOf, Heap.peek_alloc, if_neg hs]

section Scopes

variable {h' : Scopes Val} (h : ScopesChange m event h')
include h

/-- No scope is ever forgotten. -/
theorem ScopesChange.size_le : m.scopes.size ≤ h'.size := by
  cases h with
  | same size => exact size.ge
  | opened p scope hp hparent hin hvars heq => simp [heq]
  | wrote hmaps => exact hmaps.size.ge
  | freed s scopes slots m₁ he hF hs heq => rw [heq, hF.size]

/-- A scope keeps its parent. -/
theorem ScopesChange.parent {s : Nat} (hs : s < m.scopes.size) :
    (envOf h').parent s = m.env.parent s := by
  cases h with
  | same size live env => rw [env]
  | opened p scope hp hparent hin hvars heq =>
    rw [heq, alloc_parent, if_neg (by omega)]
  | wrote hmaps => rw [hmaps.parent]
  | freed s' scopes slots m₁ he hF hs heq =>
    rw [heq]
    exact congrArg (fun env => env.parent s) hF.env

theorem ScopesChange.rooted (hr : Rooted m.env.parent) : Rooted (envOf h').parent := by
  cases h with
  | same size live env => exact env ▸ hr
  | opened p scope hp hparent hin hvars heq =>
    rw [heq]
    refine alloc_rooted _ _ hr fun q hq => ?_
    rw [hparent] at hq
    exact Option.some.inj hq ▸ hp
  | wrote hmaps => exact hmaps.parent ▸ hr
  | freed s scopes slots m₁ he hF hs heq =>
    rw [heq]
    exact (congrArg Env.parent hF.env).symm ▸ hr

theorem ScopesChange.chain (hr : Rooted m.env.parent) {s : Nat} (hs : s < m.scopes.size) :
    chain (envOf h').parent s = chain m.env.parent s :=
  chain_congr hr fun t ht => h.parent (by omega)

/-- A freed scope stays freed. -/
theorem ScopesChange.live_of {s : Nat} (hs : s < m.scopes.size) (hl : h'.isLive s = true) :
    m.scopes.isLive s = true := by
  cases h with
  | same size live => exact live s ▸ hl
  | opened p scope hp hparent hin hvars heq =>
    rw [heq, Heap.isLive_alloc] at hl
    simpa [hs.ne] using hl
  | wrote hmaps => exact hmaps.live s ▸ hl
  | freed s' scopes slots m₁ he hF hs' heq =>
    rw [heq, hF.live, Bool.and_eq_true] at hl
    exact hl.1

/-- Only `scope_free` frees scopes. -/
theorem ScopesChange.live {s : Nat} (hl : m.scopes.isLive s = true)
    (hc : ∀ t, event = .closeScope t → ¬ m.Releases t s) : h'.isLive s = true := by
  cases h with
  | same size live => exact (live s).trans hl
  | opened p scope hp hparent hin hvars heq =>
    rw [heq, Heap.isLive_alloc, hl, Bool.or_true]
  | wrote hmaps => exact (hmaps.live s).trans hl
  | freed t scopes slots m₁ he hF hs heq =>
    rw [heq, hF.live, hl, Bool.true_and, decide_eq_true_eq]
    exact fun hmem => hc t he ((hs s).mp hmem)

/-- Where a bound value comes from. -/
theorem ScopesChange.vars {s : Nat} {k : String} {v : Val} {c : Bool}
    (hl : h'.isLive s = true) (hb : (envOf h').vars s k = some (v, c)) :
    m.Bound v ∨ m.Holds v ∨ v.Plain := by
  have hold : m.env.vars s k = some (v, c) → s < m.scopes.size → m.Bound v :=
    fun hv hs => ⟨s, k, c, h.live_of hs hl, hv⟩
  have hlt : m.env.vars s k = some (v, c) → s < m.scopes.size := fun hv => by
    obtain ⟨scope, hp, -⟩ := Option.bind_eq_some_iff.mp hv
    exact Heap.lt_of_peek hp
  cases h with
  | same size live env =>
    rw [env] at hb
    exact .inl (hold hb (hlt hb))
  | opened p scope hp hparent hin hvars heq =>
    rw [heq, alloc_vars] at hb
    split_ifs at hb with hs
    · rw [hvars] at hb
      obtain ⟨w, hw, he⟩ := Option.map_eq_some_iff.mp hb
      obtain ⟨rfl, rfl⟩ := Prod.mk.inj he
      obtain ⟨l₁, l₂, hl, -⟩ := List.lookup_eq_some_iff.mp hw
      exact .inr (.inl (.inr (.inr ⟨(k, w), by simp [hl], rfl⟩)))
    · exact .inl (hold hb (hlt hb))
  | wrote hmaps hvars =>
    rcases hvars s k v c hb with hv | hv
    · exact .inl (hold hv (hlt hv))
    · exact .inr hv
  | freed t scopes slots m₁ he hF hs heq =>
    rw [heq] at hb
    have hv : m.env.vars s k = some (v, c) := hF.env ▸ hb
    exact .inl (hold hv (hlt hv))

end Scopes

/-! ## Frames -/

/-- What a step does to the stack. -/
theorem Trans.stackChange (h : Trans m event m') : StackChange m event m' := by
  cases h with
  | store | value | newSlot | copyBuiltin | copyCustom | newFn | loopIds | declare | param
    | setDefault | assign | use => exact .same rfl
  | call frame stack node scope hs hc => exact .called frame stack node scope rfl hs hc rfl
  | callBody frame stack f fn node scope hs hr hn =>
    exact .ran frame stack f fn node scope rfl hs hr hn rfl
  | «return» frame stack hs hne ha => exact .returned frame stack rfl hs ha rfl
  | openBlock frame stack hs hl => exact .locals frame stack _ hs (.opened rfl hl (.inl rfl)) rfl
  | openLoop frame stack hs hl => exact .locals frame stack _ hs (.opened rfl hl (.inr rfl)) rfl
  | closeScope m₁ frame stack s hs hl hf => exact .locals frame stack _ hs (.closed s rfl hl rfl) rfl
  | resolve frame stack name val hs hl hv =>
    exact .locals frame stack _ hs (.resolved val rfl hl rfl) rfl
  | arg frame stack val args hs hl => exact .locals frame stack _ hs (.arg val args rfl hl rfl) rfl
  | builtin frame stack val args hs hl =>
    exact .locals frame stack _ hs (.builtin val args rfl hl rfl) rfl
  | activate frame stack f s hs ha => exact .locals frame stack _ hs (.activated f s rfl ha rfl) rfl
  | rescope frame stack f fn hs hc => exact .locals frame stack _ hs (.rescoped f fn rfl hc rfl) rfl

/-- A stack whose frames are those of a stack with the shape, but for the innermost one. -/
theorem frames_cons {n : Nat} {frame : Frame} {stack : List Frame}
    (hframe : ∀ s ∈ frame.scopes, s < n) (hstack : ∀ frame ∈ stack, ∀ s ∈ frame.scopes, s < n) :
    ∀ frame' ∈ frame :: stack, ∀ s ∈ frame'.scopes, s < n := by
  intro frame' hf
  rcases List.mem_cons.mp hf with rfl | hf
  · exact hframe
  · exact hstack frame' hf

theorem Locals.newScope_activate {locals : Locals} {activation : Option (Nat × Nat)} {s : Nat}
    (hs : s ∈ (locals.activate activation).newScope) :
    s ∈ locals.newScope ∨ ∃ f, activation = some (f, s) := by
  cases locals with
  | builtin args a =>
    rcases activation with _ | ⟨f, t⟩
    · simp [Locals.activate, Locals.newScope] at hs
    · obtain rfl : t = s := by simpa [Locals.activate, Locals.newScope] using hs
      exact .inr ⟨f, rfl⟩
  | none | block | loop | call => exact .inl hs

/-- A node is evaluated in the scope of the frame, or in the one made for a block or loop. -/
theorem Frame.Calls.scope_cases {frame : Frame} {node : AstNode} {scope : Nat}
    (h : frame.Calls node scope) :
    scope = frame.scope ∨ frame.locals = .block scope ∨ frame.locals = .loop scope := by
  obtain ⟨-, h⟩ := h
  split at h
  · rename_i hl
    exact .inr (.inl (h.2 ▸ hl))
  · exact h.elim
  · rename_i hl
    exact .inr (.inr (h.2 ▸ hl))
  · exact .inl h.2
  · exact .inl h.2
  · exact h.elim
  · exact .inl h.2

theorem Frame.Calls.scope_mem {frame : Frame} {node : AstNode} {scope : Nat}
    (h : frame.Calls node scope) : scope ∈ frame.scopes := by
  rcases h.scope_cases with rfl | hl | hl
  · exact List.mem_cons_self ..
  · simp [Frame.scopes, hl, Locals.newScope]
  · simp [Frame.scopes, hl, Locals.newScope]

/-- A step does not leave the stack empty, and its frames hold scopes that exist. -/
theorem Trans.frames (h : Trans m event m') (hw : m.Wf) :
    m'.stack ≠ [] ∧ ∀ frame ∈ m'.stack, ∀ s ∈ frame.scopes, s < m'.scopes.size := by
  have hle := (h.scopesChange hw).size_le
  have hsame : ∀ frame ∈ m.stack, ∀ s ∈ frame.scopes, s < m'.scopes.size :=
    fun frame hf s hs => (hw.frames frame hf s hs).trans_le hle
  -- the innermost frame gets other locals
  have hlocals : ∀ (frame : Frame) (stack : List Frame) (locals : Locals),
      m.stack = frame :: stack → (∀ s ∈ locals.newScope, s < m'.scopes.size) →
      ∀ frame' ∈ { frame with locals := locals } :: stack, ∀ s ∈ frame'.scopes,
        s < m'.scopes.size := by
    intro frame stack locals hs hl
    refine frames_cons (fun s hmem => ?_) fun frame' hf => hsame frame' (by simp [hs, hf])
    rcases List.mem_cons.mp hmem with rfl | hmem
    · exact hsame frame (by simp [hs]) frame.scope (List.mem_cons_self ..)
    · exact hl s (by simpa using hmem)
  cases h with
  | store | value | newSlot | copyBuiltin | copyCustom | newFn | loopIds | declare | param
    | setDefault | assign | use => exact ⟨hw.stack, hsame⟩
  | call frame stack node scope hs hc =>
    refine ⟨by simp, frames_cons (fun s hmem => ?_) hsame⟩
    simp only [Frame.scopes, Locals.newScope, Option.toList_none, List.mem_singleton] at hmem
    rw [hmem]
    exact hw.head hs scope hc.scope_mem
  | callBody frame stack f fn node scope hs hr hn =>
    refine ⟨by simp, frames_cons (fun s hmem => ?_) hsame⟩
    simp only [Frame.scopes, Locals.newScope, Option.toList_none, List.mem_singleton] at hmem
    rw [hmem]
    unfold Machine.Runs at hr
    split at hr
    · obtain ⟨hc, hscope⟩ := hr
      have hp := (Heap.read_eq_some.mp (read_of_calleeOf hc)).2
      exact hw.fnScope f fn scope hp hscope
    · rename_i hl
      obtain ⟨-, rfl, -⟩ := hr
      exact hw.head hs scope (by simp [Frame.scopes, hl, Locals.newScope])
    · exact hr.elim
  | «return» frame stack hs hne =>
    exact ⟨hne, fun frame' hf => hsame frame' (by simp [hs, hf])⟩
  | openBlock frame stack hs hl =>
    exact ⟨by simp, hlocals frame stack _ hs (by simp [Locals.newScope])⟩
  | openLoop frame stack hs hl =>
    exact ⟨by simp, hlocals frame stack _ hs (by simp [Locals.newScope])⟩
  | closeScope m₁ frame stack s hs hl hf =>
    exact ⟨by simp, hlocals frame stack _ hs (by simp [Locals.newScope])⟩
  | resolve frame stack name val hs hl hv =>
    exact ⟨by simp, hlocals frame stack _ hs (by simp [Locals.newScope])⟩
  | arg frame stack val args hs hl =>
    exact ⟨by simp, hlocals frame stack _ hs (by simp [Locals.newScope])⟩
  | builtin frame stack val args hs hl =>
    exact ⟨by simp, hlocals frame stack _ hs (by simp [Locals.newScope])⟩
  | activate frame stack f scope hs ha =>
    obtain ⟨⟨fn, hr, hscope⟩, -⟩ := ha
    refine ⟨by simp, hlocals frame stack _ hs fun s hmem => ?_⟩
    have hp := (Heap.read_eq_some.mp hr).2
    rcases Locals.newScope_activate hmem with hs' | ⟨f', heq⟩
    · exact hw.head hs s (by simpa [Frame.scopes] using .inr hs')
    · obtain ⟨-, rfl⟩ := Prod.mk.inj (Option.some.inj heq)
      exact hw.fnScope f fn scope hp hscope
  | rescope frame stack f fn hs hc =>
    refine ⟨by simp, hlocals frame stack _ hs fun s hmem => ?_⟩
    rcases Locals.newScope_activate hmem with hs' | ⟨f', heq⟩
    · exact (hw.head hs s (by simpa [Frame.scopes] using .inr hs')).trans_le hle
    · cases heq

/-- A function that is running was running before, or has just been activated in its scope. -/
theorem Trans.activation (h : Trans m event m') {frame' : Frame} (hf : frame' ∈ m'.stack)
    {a : Nat × Nat} (ha : frame'.locals.activation = some a) :
    (∃ frame ∈ m.stack, frame.locals.activation = some a) ∨
      event = .activate a.1 a.2 ∧ ∃ fn, m.fns.read a.1 = some fn ∧ fn.scope = some a.2 := by
  have hsame : frame' ∈ m.stack → ∃ frame ∈ m.stack, frame.locals.activation = some a :=
    fun hf => ⟨frame', hf, ha⟩
  -- the innermost frame gets other locals
  have hlocals : ∀ (frame : Frame) (stack : List Frame) (locals : Locals),
      m.stack = frame :: stack → frame' ∈ { frame with locals := locals } :: stack →
      locals.activation = some a ∨ ∃ frame ∈ m.stack, frame.locals.activation = some a := by
    intro frame stack locals hs hmem
    rcases List.mem_cons.mp hmem with rfl | hmem
    · exact .inl ha
    · exact .inr ⟨frame', by simp [hs, hmem], ha⟩
  cases h with
  | store | value | newSlot | copyBuiltin | copyCustom | newFn | loopIds | declare | param
    | setDefault | assign | use => exact .inl (hsame hf)
  | call | callBody =>
    rcases List.mem_cons.mp hf with rfl | hf
    · cases ha
    · exact .inl (hsame hf)
  | «return» frame stack hs hne => exact .inl (hsame (by simp [hs, show frame' ∈ stack from hf]))
  | openBlock frame stack hs hl =>
    exact .inl ((hlocals frame stack _ hs hf).resolve_left (by simp [Locals.activation]))
  | openLoop frame stack hs hl =>
    exact .inl ((hlocals frame stack _ hs hf).resolve_left (by simp [Locals.activation]))
  | closeScope m₁ frame stack s hs hl hfree =>
    exact .inl ((hlocals frame stack _ hs hf).resolve_left (by simp [Locals.activation]))
  | resolve frame stack name val hs hl hr =>
    exact .inl ((hlocals frame stack _ hs hf).resolve_left (by simp [Locals.activation]))
  | arg frame stack val args hs hl =>
    exact .inl ((hlocals frame stack _ hs hf).resolve_left (by simp [Locals.activation]))
  | builtin frame stack val args hs hl =>
    exact .inl ((hlocals frame stack _ hs hf).resolve_left (by simp [Locals.activation]))
  | rescope frame stack f fn hs hc =>
    refine .inl ((hlocals frame stack _ hs hf).resolve_left ?_)
    cases hl : frame.locals <;> simp [Locals.activate, Locals.activation]
  | activate frame stack f scope hs hact =>
    rcases hlocals frame stack _ hs hf with hnew | hold
    · obtain ⟨hfn, -⟩ := hact
      have heq : a = (f, scope) := by
        cases hl : frame.locals <;> simp_all [Locals.activate, Locals.activation]
      subst heq
      exact .inr ⟨rfl, hfn⟩
    · exact .inl hold

/-! ## The shape -/

theorem Trans.builtins (h : Trans m event m') : m'.builtins = m.builtins := by
  cases h with
  | closeScope m₁ frame stack s hs hl hf =>
    obtain ⟨scopes, slots, hF, -⟩ := scopeFree_spec hf
    exact hF.builtins
  | _ => rfl

/-- What the shape says of the functions. -/
structure FnsWf (n : Nat) (fns : Heap FnVal) : Prop where
  scope : ∀ f fn s, fns.peek f = some fn → fn.scope = some s → s < n
  own : ∀ f g fn gn s, fns.peek f = some fn → fns.peek g = some gn → fn.builtInCallback = none →
    fn.scope = some s → gn.scope = some s → f = g
  custom : ∀ f fn, fns.peek f = some fn → fn.builtInCallback = none → fn.scope.isSome
  builtin : ∀ f fn, fns.peek f = some fn → fn.builtInCallback.isSome →
    fn.customBody = [] ∧ fn.paramNames = []

theorem Machine.Wf.fns (hw : m.Wf) : FnsWf m.scopes.size m.fns :=
  ⟨hw.fnScope, hw.fnOwn, hw.custom, hw.builtin⟩

/-- A function has been given a new scope, or is new with one. -/
theorem FnsWf.put {n : Nat} {fns fns' : Heap FnVal} {f : Nat} (fn : FnVal) (h : FnsWf n fns)
    (hpeek : ∀ g gn, fns'.peek g = some gn → g = f ∧ gn = fn ∨ g ≠ f ∧ fns.peek g = some gn)
    (hs : fn.scope = some n)
    (hb : fn.builtInCallback.isSome → fn.customBody = [] ∧ fn.paramNames = []) :
    FnsWf (n + 1) fns' where
  scope g gn s hg hgs := by
    rcases hpeek g gn hg with ⟨-, rfl⟩ | ⟨-, hg⟩
    · obtain rfl := Option.some.inj (hgs.symm.trans hs)
      omega
    · have := h.scope g gn s hg hgs
      omega
  own g g' gn gn' s hg hg' hgb hgs hgs' := by
    rcases hpeek g gn hg with ⟨hgf, rfl⟩ | ⟨-, hg⟩ <;>
      rcases hpeek g' gn' hg' with ⟨hgf', rfl⟩ | ⟨-, hg'⟩
    · rw [hgf, hgf']
    · -- the other function cannot have the new scope
      obtain rfl := Option.some.inj (hgs.symm.trans hs)
      exact absurd (h.scope g' gn' s hg' hgs') (lt_irrefl s)
    · obtain rfl := Option.some.inj (hgs'.symm.trans hs)
      exact absurd (h.scope g gn s hg hgs) (lt_irrefl s)
    · exact h.own g g' gn gn' s hg hg' hgb hgs hgs'
  custom g gn hg hgb := by
    rcases hpeek g gn hg with ⟨-, rfl⟩ | ⟨-, hg⟩
    · simp [hs]
    · exact h.custom g gn hg hgb
  builtin g gn hg hgb := by
    rcases hpeek g gn hg with ⟨-, rfl⟩ | ⟨-, hg⟩
    · exact hb hgb
    · exact h.builtin g gn hg hgb

theorem FnsWf.mono {n n' : Nat} {fns : Heap FnVal} (h : FnsWf n fns) (hle : n ≤ n') :
    FnsWf n' fns :=
  ⟨fun f fn s hf hs => (h.scope f fn s hf hs).trans_le hle, h.own, h.custom, h.builtin⟩

theorem peek_alloc_cases {fns : Heap FnVal} {fn : FnVal} {g : Nat} {gn : FnVal}
    (hg : (fns.alloc fn).peek g = some gn) :
    g = fns.size ∧ gn = fn ∨ g ≠ fns.size ∧ fns.peek g = some gn := by
  rw [Heap.peek_alloc] at hg
  split_ifs at hg with heq
  · exact .inl ⟨heq, (Option.some.inj hg).symm⟩
  · exact .inr ⟨heq, hg⟩

/-- The copy of a built-in function has the scope of the original. -/
theorem FnsWf.copied {n orig : Nat} {fns : Heap FnVal} {fn : FnVal} (h : FnsWf n fns)
    (hf : fns.peek orig = some fn) (hb : fn.builtInCallback.isSome) : FnsWf n (fns.alloc fn) where
  scope g gn s hg hgs := by
    rcases peek_alloc_cases hg with ⟨-, rfl⟩ | ⟨-, hg⟩
    · exact h.scope orig gn s hf hgs
    · exact h.scope g gn s hg hgs
  own g g' gn gn' s hg hg' hgb hgs hgs' := by
    rcases peek_alloc_cases hg with ⟨-, rfl⟩ | ⟨-, h1⟩
    · simp [hgb] at hb
    rcases peek_alloc_cases hg' with ⟨-, rfl⟩ | ⟨-, h2⟩
    · -- a user function would share the scope of the original
      obtain rfl := h.own g orig gn gn' s h1 hf hgb hgs hgs'
      obtain rfl := Option.some.inj (h1.symm.trans hf)
      simp [hgb] at hb
    · exact h.own g g' gn gn' s h1 h2 hgb hgs hgs'
  custom g gn hg hgb := by
    rcases peek_alloc_cases hg with ⟨-, rfl⟩ | ⟨-, hg⟩
    · exact h.custom orig gn hf hgb
    · exact h.custom g gn hg hgb
  builtin g gn hg hgb := by
    rcases peek_alloc_cases hg with ⟨-, rfl⟩ | ⟨-, hg⟩
    · exact h.builtin orig gn hf hgb
    · exact h.builtin g gn hg hgb

theorem FnsChange.fnsWf {h' : Scopes Val} {fns' : Heap FnVal} (h : FnsChange m event h' fns')
    (hw : FnsWf m.scopes.size m.fns) (hle : m.scopes.size ≤ h'.size) : FnsWf h'.size fns' := by
  cases h with
  | same he size peek =>
    have hw' := hw.mono hle
    exact ⟨fun f fn s hf => hw'.scope f fn s (peek f ▸ hf),
      fun f g fn gn s hf hg => hw'.own f g fn gn s (peek f ▸ hf) (peek g ▸ hg),
      fun f fn hf => hw'.custom f fn (peek f ▸ hf), fun f fn hf => hw'.builtin f fn (peek f ▸ hf)⟩
  | copied orig fn he hf hb heq =>
    rw [heq]
    exact (hw.mono hle).copied (Heap.read_eq_some.mp hf).2 hb
  | made fn he hb hs hsize heq =>
    rw [heq, hsize]
    exact FnsWf.put fn hw (fun g gn hg => peek_alloc_cases hg) hs (by simp [hb])
  | rescoped f fn he hf hsize heq =>
    rw [heq, hsize]
    have hp := (Heap.read_eq_some.mp hf).2
    refine FnsWf.put (f := f) { fn with scope := some m.scopes.size } hw (fun g gn hg => ?_) rfl
      fun hb => hw.builtin f fn hp hb
    rw [Heap.peek_write] at hg
    split_ifs at hg with heq'
    · rw [hp, Option.map_some] at hg
      exact .inl ⟨heq', (Option.some.inj hg).symm⟩
    · exact .inr ⟨heq', hg⟩

/-- A function stays allocated. -/
theorem FnsChange.exists_peek {h' : Scopes Val} {fns' : Heap FnVal} (h : FnsChange m event h' fns')
    {f : Nat} {fn : FnVal} (hf : m.fns.peek f = some fn) : ∃ fn', fns'.peek f = some fn' := by
  have hlt := Heap.lt_of_peek hf
  have halloc : ∀ gn : FnVal, ∃ fn', (m.fns.alloc gn).peek f = some fn' := fun gn =>
    Heap.peek_of_lt (by simp only [Heap.size_alloc]; omega)
  cases h with
  | same he size peek => exact ⟨fn, (peek f).trans hf⟩
  | copied orig gn he hf' hb heq => exact heq ▸ halloc gn
  | made gn he hb hs hsize heq => exact heq ▸ halloc gn
  | rescoped g gn he hf' hsize heq =>
    exact heq ▸ Heap.peek_of_lt (by simpa only [Heap.size_write] using hlt)

theorem scopeOf_of_read {f : Nat} {fn : FnVal} (h : m.fns.read f = some fn) :
    m.scopeOf f = fn.scope := by
  simp [Machine.scopeOf, (Heap.read_eq_some.mp h).2]

/-- A function that exists keeps its callback, and its scope unless the step gives it another. -/
theorem Trans.fn_of (h : Trans m event m') {f : Nat} {fn' : FnVal} (hf : f < m.fns.size)
    (hp : m'.fns.peek f = some fn') : ∃ fn, m.fns.peek f = some fn ∧
      fn'.builtInCallback = fn.builtInCallback ∧
      (event = .rescope f ∧ fn'.scope = some m.scopes.size ∨
        event ≠ .rescope f ∧ fn'.scope = fn.scope) := by
  cases h.fnsChange with
  | same he size peek => exact ⟨fn', peek f ▸ hp, rfl, .inr ⟨he f, rfl⟩⟩
  | copied orig fn he hr hb heq =>
    rw [heq, Heap.peek_alloc, if_neg (Nat.ne_of_lt hf)] at hp
    exact ⟨fn', hp, rfl, .inr ⟨by simp [he], rfl⟩⟩
  | made fn he hb hs hsize heq =>
    rw [heq, Heap.peek_alloc, if_neg (Nat.ne_of_lt hf)] at hp
    refine ⟨fn', hp, rfl, .inr ⟨?_, rfl⟩⟩
    rcases he with rfl | ⟨orig, rfl⟩ <;> simp
  | rescoped g fn he hr hsize heq =>
    rw [heq, Heap.peek_write] at hp
    split_ifs at hp with hfg
    · subst hfg
      have hpeek := (Heap.read_eq_some.mp hr).2
      rw [hpeek, Option.map_some, Option.some.injEq] at hp
      subst hp
      exact ⟨fn, hpeek, rfl, .inl ⟨he, rfl⟩⟩
    · exact ⟨fn', hp, rfl, .inr ⟨by simpa [he] using Ne.symm hfg, rfl⟩⟩

/-- A user function that did not exist has been declared, or copied from one that did. -/
theorem Trans.fn_new (h : Trans m event m') {f : Nat} {fn' : FnVal} (hf : ¬ f < m.fns.size)
    (hp : m'.fns.peek f = some fn') (hb : fn'.builtInCallback = none) :
    fn'.scope = some m.scopes.size ∧ m'.scopeOf f = some m.scopes.size ∧
      (event = .newFn f ∨ ∃ orig fn, event = .copyFn orig f ∧ m.fns.peek orig = some fn ∧
        fn.builtInCallback = none) := by
  have hscopeOf : fn'.scope = some m.scopes.size → m'.scopeOf f = some m.scopes.size :=
    fun hs => by simp [Machine.scopeOf, hp, hs]
  have hold : m.fns.peek f = some fn' → False := fun hp => hf (Heap.lt_of_peek hp)
  cases h with
  | newFn frame stack body paramNames hs =>
    rcases peek_alloc_cases hp with ⟨rfl, rfl⟩ | ⟨-, hp⟩
    · exact ⟨rfl, hscopeOf rfl, .inl rfl⟩
    · exact (hold hp).elim
  | copyCustom orig fn body hr hcb =>
    rcases peek_alloc_cases hp with ⟨rfl, rfl⟩ | ⟨-, hp⟩
    · exact ⟨rfl, hscopeOf rfl, .inr ⟨orig, fn, rfl, (Heap.read_eq_some.mp hr).2, hcb⟩⟩
    · exact (hold hp).elim
  | copyBuiltin orig fn hr hcb =>
    rcases peek_alloc_cases hp with ⟨rfl, rfl⟩ | ⟨-, hp⟩
    · simp [hb] at hcb
    · exact (hold hp).elim
  | rescope frame stack g fn hs hc =>
    rw [Heap.peek_write] at hp
    split_ifs at hp with hfg
    · subst hfg
      exact absurd (Heap.lt_of_peek (Heap.read_eq_some.mp hc.1).2) hf
    · exact (hold hp).elim
  | closeScope m₁ frame stack s hs hl hfree =>
    obtain ⟨scopes, slots, hF, -⟩ := scopeFree_spec hfree
    exact (hold ((hF.fnPeek f).symm.trans hp)).elim
  | _ => exact (hold hp).elim

/-- Every step keeps the shape. -/
theorem Trans.wf (h : Trans m event m') (hw : m.Wf) : m'.Wf := by
  have hc := h.scopesChange hw
  have hf := h.fnsChange
  obtain ⟨hne, hframes⟩ := h.frames hw
  have hfns := hf.fnsWf hw.fns hc.size_le
  refine ⟨hc.rooted hw.rooted, hne, hframes, hfns.scope, hfns.own, hfns.custom, hfns.builtin, ?_⟩
  intro b hb
  obtain ⟨f, fn, hd, hp⟩ := hw.builtins b (h.builtins ▸ hb)
  obtain ⟨fn', hp'⟩ := hf.exists_peek hp
  exact ⟨f, fn', hd, hp'⟩

theorem Initial.env {root : AstNode} (h : Initial root m) :
    (∀ s, m.env.parent s = none) ∧
      ∀ s k, m.env.vars s k = if s = 0 then
        (([("true", trueVal), ("false", falseVal), ("null", nullVal)] ++ m.builtins).lookup k).map
          fun v => (v, true)
      else none := by
  obtain ⟨hframe, hbinding⟩ := scopeCreateGlobal_spec trueVal falseVal nullVal m.builtins
  have hpeek : ∀ s, m.scopes.peek s =
      if s = 0 then some (scopeCreateGlobal trueVal falseVal nullVal m.builtins) else none := by
    intro s
    rw [h.scopes, Heap.peek_alloc]
    rfl
  refine ⟨fun s => ?_, fun s k => ?_⟩
  · simp only [Machine.env, envOf, hpeek]
    split_ifs
    · exact congrArg Prod.fst hframe
    · rfl
  · simp only [Machine.env, envOf, hpeek]
    split_ifs
    · exact hbinding k
    · rfl

/-- The initial state has the shape. -/
theorem Initial.wf {root : AstNode} (h : Initial root m) : m.Wf := by
  have hnone : ∀ f fn, m.fns.peek f = some fn → fn.scope = none ∧ fn.builtInCallback.isSome ∧
      fn.customBody = [] ∧ fn.paramNames = [] := by
    intro f fn hf
    obtain ⟨callback, rfl⟩ := h.fns f fn hf
    exact ⟨rfl, rfl, rfl, rfl⟩
  refine ⟨fun s p hp => ?_, by simp [h.stack], fun frame hf s hs => ?_, fun f fn s hf hs => ?_,
    fun f g fn gn s hf _ _ hs => ?_, fun f fn hf hb => ?_, fun f fn hf _ => (hnone f fn hf).2.2,
    fun b hb => ?_⟩
  · rw [h.env.1] at hp
    cases hp
  · rw [h.stack, List.mem_singleton] at hf
    subst hf
    simp only [Frame.scopes, Locals.newScope, Option.toList_none, List.mem_singleton] at hs
    simp [h.scopes, hs]
  · simp [(hnone f fn hf).1] at hs
  · simp [(hnone f fn hf).1] at hs
  · have hsome := (hnone f fn hf).2.1
    simp [hb] at hsome
  · obtain ⟨-, -, f, hd, hlt⟩ := h.values b hb
    obtain ⟨fn, hp⟩ := Heap.peek_of_lt hlt
    exact ⟨f, fn, hd, hp⟩

/-! ## Values in reach -/

@[simp] theorem Locals.args_activate (locals : Locals) (activation : Option (Nat × Nat)) :
    (locals.activate activation).args = locals.args := by
  cases locals <;> rfl

/-- An argument was one before, or was the last result. -/
theorem Trans.args (h : Trans m event m') {v : Val} {frame' : Frame} (hf : frame' ∈ m'.stack)
    (hv : v ∈ frame'.locals.args) : m.Holds v := by
  have hsame : ∀ frame ∈ m.stack, v ∈ frame.locals.args → m.Holds v :=
    fun frame hf hv => .inr (.inl ⟨frame, hf, hv⟩)
  -- the innermost frame gets other locals
  have hlocals : ∀ (frame : Frame) (stack : List Frame) (locals : Locals),
      m.stack = frame :: stack → (v ∈ locals.args → v ∈ frame.locals.args ∨ v = m.result) →
      frame' ∈ { frame with locals := locals } :: stack → m.Holds v := by
    intro frame stack locals hs hl hmem
    rcases List.mem_cons.mp hmem with rfl | hmem
    · rcases hl hv with hv | hv
      · exact hsame frame (by simp [hs]) hv
      · exact .inl hv
    · exact hsame frame' (by simp [hs, hmem]) hv
  cases h with
  | store | value | newSlot | copyBuiltin | copyCustom | newFn | loopIds | declare | param
    | setDefault | assign | use => exact hsame frame' hf hv
  | call | callBody =>
    rcases List.mem_cons.mp hf with rfl | hf
    · simp [Locals.args] at hv
    · exact hsame frame' hf hv
  | «return» frame stack hs hne => exact hsame frame' (by simp [hs]; exact .inr hf) hv
  | openBlock frame stack hs hl =>
    exact hlocals frame stack _ hs (by simp [Locals.args]) hf
  | openLoop frame stack hs hl =>
    exact hlocals frame stack _ hs (by simp [Locals.args]) hf
  | closeScope m₁ frame stack s hs hl hfree =>
    exact hlocals frame stack _ hs (by simp [Locals.args]) hf
  | resolve frame stack name val hs hl hr =>
    exact hlocals frame stack _ hs (by simp [Locals.args]) hf
  | arg frame stack val args hs hl =>
    exact hlocals frame stack _ hs (by simp [Locals.args, hl]) hf
  | builtin frame stack val args hs hl =>
    exact hlocals frame stack _ hs (by rw [hl]; exact .inl) hf
  | activate frame stack f scope hs ha =>
    exact hlocals frame stack _ hs (by simpa using Or.inl) hf
  | rescope frame stack f fn hs hc =>
    exact hlocals frame stack _ hs (by simpa using Or.inl) hf

theorem Trans.result (h : Trans m event m') :
    m'.result = m.result ∨ m'.result.Plain ∨ m.Bound m'.result ∨ event.Makes := by
  cases h with
  | value v hv => exact .inr (hv.imp_right .inl)
  | newSlot data hd => exact .inr (.inr (.inr (.inl ⟨_, rfl⟩)))
  | copyBuiltin orig fn hf hb => exact .inr (.inr (.inr (.inr (.inl ⟨orig, _, rfl⟩))))
  | copyCustom orig fn body hf hb => exact .inr (.inr (.inr (.inr (.inl ⟨orig, _, rfl⟩))))
  | newFn frame stack body paramNames hs => exact .inr (.inr (.inr (.inr (.inr ⟨_, rfl⟩))))
  | closeScope m₁ frame stack s hs hl hf => exact .inr (.inl plain_nullVal)
  | _ => exact .inl rfl

/-- Where a value in reach comes from: it was in reach, it is no more than a number, or it is new. -/
theorem Trans.inReach (h : Trans m event m') (hw : m.Wf) {v : Val} (hv : m'.InReach v) :
    m.InReach v ∨ v.Plain ∨ v = m'.result ∧ event.Makes := by
  rcases hv with ⟨s, name, c, hl, hb⟩ | hv | ⟨frame', hf, hv⟩ | ⟨b, hb, hv⟩
  · rcases (h.scopesChange hw).vars hl hb with hv | hv | hv
    · exact .inl (.inl hv)
    · exact .inl (.inr hv)
    · exact .inr (.inl hv)
  · rcases h.result with hr | hr | hr | hr
    · exact .inl (.inr (.inl (hv.trans hr)))
    · exact .inr (.inl (hv ▸ hr))
    · exact .inl (.inl (hv ▸ hr))
    · exact .inr (.inr ⟨hv, hr⟩)
  · exact .inl (.inr (h.args hf hv))
  · exact .inl (.inr (.inr (.inr ⟨b, h.builtins ▸ hb, hv⟩)))

theorem Machine.Stays.inReach {s : Nat} {v : Val} (h : m.Stays s v) : m.InReach v := by
  cases h with
  | bound t name isConst hl hr hb => exact .inl ⟨t, name, isConst, hl, hb⟩
  | arg frame frame' stack hs hf hv => exact .inr (.inr (.inl ⟨frame', by simp [hs, hf], hv⟩))
  | builtin name hb => exact .inr (.inr (.inr ⟨(name, v), hb, rfl⟩))

/-- What is in reach after a scope has been freed was to stay in reach. -/
theorem Trans.closeScope_stays {s : Nat} (h : Trans m (.closeScope s) m') {v : Val}
    (hv : m'.InReach v) : m.Stays s v ∨ v = nullVal := by
  obtain ⟨frame, stack, m₁, scopes, slots, hs, -, rfl, hF, -, -, hreleased, -⟩ := h.closeScope_spec
  rcases hv with ⟨t, name, c, hlive, hb⟩ | rfl | ⟨frame', hf, hv⟩ | ⟨b, hb, rfl⟩
  · have hlive' : m₁.scopes.isLive t = true := hlive
    rw [hF.live, Bool.and_eq_true, decide_eq_true_eq, hreleased] at hlive'
    exact .inl (.bound t name c hlive'.1 hlive'.2 (hF.env ▸ hb))
  · exact .inr rfl
  · rcases List.mem_cons.mp hf with rfl | hf
    · simp [Locals.args] at hv
    · exact .inl (.arg frame frame' stack hs hf hv)
  · exact .inl (.builtin b.1 (hF.builtins ▸ hb))

end Blaze
