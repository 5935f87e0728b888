import Blazescript.Eval.Blocks
import Blazescript.Eval.Proofs.ActivationsProofs
import Blazescript.Eval.Proofs.BindingsProofs
import Blazescript.Eval.Proofs.KeptProofs
import Blazescript.Syntax.Grammar

/-!
# Proofs: what blocks and loops leave behind

The frames of a block or loop, and of all it calls, declare nothing in the scopes around it.
-/

namespace Blaze

open Arena Environment Tracing

variable {m m' : Machine} {event : Event} {scopes : List Nat} {node : AstNode} {v : Val} {s : Nat}

/-! ## Nodes -/

theorem AstNode.Within.trans {n c p : AstNode} (h : n.Within c) (h' : c.Within p) : n.Within p := by
  induction h' with
  | self => exact h
  | child _ hc ih => exact .child ih hc

/-- A frame calls `eval` on a part of its node. -/
theorem Frame.Calls.within {frame : Frame} {child : AstNode} {s : Nat} (h : frame.Calls child s) :
    child.Within frame.node := by
  obtain ⟨-, h⟩ := h
  have hchild : child ∈ frame.node.children → child.Within frame.node := fun hc => .child (.self child) hc
  split at h
  · rename_i pos children newScope hn hl
    rw [hn] at hchild ⊢
    exact hchild h.1
  · exact h.elim
  · rename_i pos iterCount varname body newScope hn hl
    rw [hn] at hchild ⊢
    have hbody : body.Within (.loopStmt pos iterCount varname body) :=
      .child (.self body) (by simp [AstNode.children])
    rcases h.1 with rfl | hc
    · exact hbody
    · exact (AstNode.Within.child (.self child) hc).trans hbody
  · rename_i pos iterCount varname body hn hl
    rw [hn] at hchild ⊢
    refine hchild ?_
    simp [AstNode.children, ← h.1]
  · rename_i pos assignee value hn
    rw [hn] at hchild ⊢
    refine hchild ?_
    simp [AstNode.children, h.1]
  · exact h.elim
  · exact hchild h.1

/-- A frame calls `eval` in the scope of a block or loop, or in its own on a node that is evaluated there. -/
theorem Frame.Calls.inScope {frame : Frame} {child : AstNode} {s : Nat} (h : frame.Calls child s) :
    frame.locals = .block s ∨ frame.locals = .loop s ∨ s = frame.scope ∧ child ∈ frame.node.inScope := by
  obtain ⟨-, h⟩ := h
  split at h
  · rename_i hl
    exact .inl (h.2 ▸ hl)
  · exact h.elim
  · rename_i hl
    exact .inr (.inl (h.2 ▸ hl))
  · rename_i hn _
    refine .inr (.inr ⟨h.2, ?_⟩)
    rw [hn]
    simp [AstNode.inScope, ← h.1]
  · rename_i hn
    refine .inr (.inr ⟨h.2, ?_⟩)
    rw [hn]
    simp [AstNode.inScope, h.1]
  · exact h.elim
  · rename_i hblock hloop hassign hfn _ _
    refine .inr (.inr ⟨h.2, ?_⟩)
    have hmem := h.1
    cases hn : frame.node with
    | block pos children => exact absurd hn (hblock pos children)
    | loopStmt pos iterCount varname body => exact absurd hn (hloop pos iterCount varname body)
    | assignment pos assignee value => exact absurd hn (hassign pos assignee value)
    | fnDecl pos identifier paramNames body => exact absurd hn (hfn pos identifier paramNames body)
    | _ =>
      rw [hn] at hmem
      exact hmem

/-! ## Frames -/

/-- The code of the frame declares nothing in the scopes. -/
structure Frame.Outside (frame : Frame) (scopes : List Nat) : Prop where
  scope : frame.node.Leaks → frame.scope ∉ scopes
  opened : ∀ s, frame.locals = .block s ∨ frame.locals = .loop s → s ∉ scopes

/-- Frames from that of a node on, the innermost first. As long as they run no function they evaluate
parts of the node. -/
inductive Contained (scopes : List Nat) (node : AstNode) : List Frame → Prop
  | base {frame : Frame} (hn : frame.node = node) (ho : frame.Outside scopes) :
      Contained scopes node [frame]
  | push {frame : Frame} {frames : List Frame} (h : Contained scopes node frames)
      (hw : activations frames = [] → frame.node.Within node) (ho : frame.Outside scopes) :
      Contained scopes node (frame :: frames)

theorem Contained.ne_nil {frames : List Frame} (h : Contained scopes node frames) : frames ≠ [] := by
  cases h <;> simp

/-- The innermost frame. -/
theorem Contained.head {frame : Frame} {frames : List Frame}
    (h : Contained scopes node (frame :: frames)) :
    frame.Outside scopes ∧ (activations (frame :: frames) = [] → frame.node.Within node) := by
  cases h with
  | base hn ho => exact ⟨ho, fun _ => hn ▸ .self _⟩
  | push h hw ho =>
    refine ⟨ho, fun ha => hw ?_⟩
    rw [activations_cons] at ha
    exact (List.append_eq_nil_iff.mp ha).2

/-- The frames without the innermost one, unless it is that of the node. -/
theorem Contained.tail {frame : Frame} {frames : List Frame}
    (h : Contained scopes node (frame :: frames)) (hne : frames ≠ []) : Contained scopes node frames := by
  cases h with
  | base => exact absurd rfl hne
  | push h => exact h

/-- The innermost frame gets other locals. -/
theorem Contained.locals {frame : Frame} {frames : List Frame} {locals : Locals}
    (h : Contained scopes node (frame :: frames))
    (hl : ∀ s, locals = .block s ∨ locals = .loop s → s ∉ scopes) :
    Contained scopes node ({ frame with locals := locals } :: frames) := by
  cases h with
  | base hn ho => exact .base hn ⟨ho.scope, hl⟩
  | push h hw ho => exact .push h hw ⟨ho.scope, hl⟩

/-- A frame that evaluates a part of the node of another one. -/
theorem Frame.Outside.calls {frame : Frame} {child : AstNode} {s : Nat} (h : frame.Outside scopes)
    (hc : frame.Calls child s) : (⟨s, child, .none⟩ : Frame).Outside scopes := by
  refine ⟨fun hleaks => ?_, fun t ht => by rcases ht with ht | ht <;> cases ht⟩
  rcases hc.inScope with hl | hl | ⟨hs, hmem⟩
  · exact h.opened s (.inl hl)
  · exact h.opened s (.inr hl)
  · have hs' : s ∉ scopes := hs ▸ h.scope (.child hmem hleaks)
    exact hs'

/-- A frame declares in a scope that it has opened, or in its own. -/
theorem Frame.Outside.declares {frame : Frame} {name : String} {s : Nat} (h : frame.Outside scopes)
    (hd : frame.Declares name s) : s ∉ scopes := by
  unfold Frame.Declares at hd
  split at hd
  · rename_i pos name' isConst value hn hl
    rw [hd.2]
    exact h.scope (by rw [hn]; exact .varDecl ..)
  · rename_i pos name' paramNames body hn hl
    rw [hd.2]
    exact h.scope (by rw [hn]; exact .fnDecl ..)
  · rename_i hl
    exact h.opened s (.inr (by rw [hd.2]; exact hl))
  · exact hd.elim

/-- How the locals of a frame change when it opens no scope. -/
theorem LocalsChange.opens {frame : Frame} {locals : Locals} (h : LocalsChange m event frame locals)
    {s : Nat} (hl : locals = .block s ∨ locals = .loop s) :
    s = m.scopes.size ∨ frame.locals = .block s ∨ frame.locals = .loop s := by
  have hactivate : ∀ a, locals = frame.locals.activate a → frame.locals = locals := by
    intro a he
    cases hf : frame.locals with
    | call | builtin => simp [he, hf, Locals.activate] at hl
    | none | block | loop => simp [he, hf, Locals.activate]
  cases h with
  | opened he hold h =>
    rcases h with rfl | rfl
    · exact .inl (by simpa [eq_comm] using hl)
    · exact .inl (by simpa [eq_comm] using hl)
  | closed t he hold h => simp [h] at hl
  | resolved val he hold h => simp [h] at hl
  | arg val args he hold h => simp [h] at hl
  | builtin val args he hold h => simp [h] at hl
  | activated f t he ha h => exact .inr (hactivate _ h ▸ hl)
  | rescoped f fn he hc h => exact .inr (hactivate _ h ▸ hl)

/-! ## One step -/

section Step

variable {frames stack : List Frame} {running : List (Nat × Nat)} {assigned : String → Prop}

/-- The frames stay outside of the scopes. -/
theorem Trans.contained (h : Trans m event m') (hlt : ∀ s ∈ scopes, s < m.scopes.size)
    (hs : m.stack = frames ++ stack) (hc : Contained scopes node frames)
    (hspares : m.SparesAround event scopes running assigned)
    (habove : stack.length < m'.stack.length) :
    ∃ frames', m'.stack = frames' ++ stack ∧ Contained scopes node frames' := by
  obtain ⟨frame, rest, rfl⟩ := List.exists_cons_of_ne_nil hc.ne_nil
  obtain ⟨hout, hwithin⟩ := hc.head
  have hhead : ∀ {frame' : Frame} {stack' : List Frame}, m.stack = frame' :: stack' →
      frame' = frame ∧ stack' = rest ++ stack := by
    intro frame' stack' hs'
    exact List.cons.inj (hs'.symm.trans hs)
  cases h.stackChange with
  | same heq => exact ⟨frame :: rest, heq.trans hs, hc⟩
  | locals frame' stack' locals hs' hl heq =>
    obtain ⟨rfl, rfl⟩ := hhead hs'
    refine ⟨{ frame' with locals := locals } :: rest, heq, hc.locals fun s hopen hmem => ?_⟩
    rcases hl.opens hopen with rfl | hold
    · exact Nat.lt_irrefl _ (hlt _ hmem)
    · exact hout.opened s hold hmem
  | called frame' stack' child s he hs' hcalls heq =>
    obtain ⟨rfl, rfl⟩ := hhead hs'
    refine ⟨⟨s, child, .none⟩ :: frame' :: rest, by rw [heq, hs]; rfl, .push hc (fun ha => ?_) ?_⟩
    · exact hcalls.within.trans (hwithin ha)
    · exact hout.calls hcalls
  | ran frame' stack' f fn child s he hs' hr hn heq =>
    subst he
    have hscope : s ∉ scopes := hspares frame' stack' f fn s hs' hr
    obtain ⟨rfl, rfl⟩ := hhead hs'
    refine ⟨⟨s, child, .none⟩ :: frame' :: rest, by rw [heq, hs]; rfl, .push hc (fun ha => ?_) ⟨fun _ => hscope, ?_⟩⟩
    · -- the frame is running a function
      rw [activations_cons, List.append_eq_nil_iff] at ha
      unfold Machine.Runs at hr
      split at hr
      · rename_i hl
        simp [hl, Locals.activation] at ha
      · rename_i hl
        simp [hl, Locals.activation] at ha
      · exact hr.elim
    · intro t ht
      rcases ht with ht | ht <;> cases ht
  | returned frame' stack' he hs' ha heq =>
    obtain ⟨rfl, rfl⟩ := hhead hs'
    refine ⟨rest, heq, hc.tail ?_⟩
    rintro rfl
    rw [heq] at habove
    simp at habove

/-- An assignment changes the innermost binding of its name. -/
theorem Trans.assign_binder {name : String} {status : ValmapSetStatus}
    (h : Trans m (.assign name status) m') (hw : m.Wf) {s : Nat} {k : String}
    (hne : m'.env.vars s k ≠ m.env.vars s k) :
    ∃ frame stack, m.stack = frame :: stack ∧ m.env.binder frame.scope name = some s := by
  cases h with
  | assign frame stack pos namePos name node r hs hn ha =>
    obtain ⟨-, henv, -⟩ := assignFrom_spec hw.rooted ha
    have henv₂ : envOf r.2 = (envAssign m.env frame.scope name m.result).2 := congrArg Prod.snd henv
    have hne' : (envAssign m.env frame.scope name m.result).2.vars s k ≠ m.env.vars s k := henv₂ ▸ hne
    by_cases hok : (envAssign m.env frame.scope name m.result).1 = .setOk
    · obtain ⟨t, old, hb, hold, he⟩ := envAssign_ok hok
      rw [he, Env.vars_bind] at hne'
      split_ifs at hne' with hc
      · exact ⟨frame, stack, hs, hc.1 ▸ hb⟩
      · exact absurd rfl hne'
    · rw [envAssign_rejected hok] at hne'
      exact absurd rfl hne'

/-- The step keeps what the scopes bind, but for variables that the node assigns. -/
theorem Trans.retained (h : Trans m event m') (hw : m.Wf) (hlt : ∀ s ∈ scopes, s < m.scopes.size)
    (hs : m.stack = frames ++ stack) (hc : Contained scopes node frames)
    (hspares : m.SparesAround event scopes (activations stack) node.Assigns) :
    m.env.RetainedIn m'.env scopes node.Assigns := by
  obtain ⟨frame, rest, rfl⟩ := List.exists_cons_of_ne_nil hc.ne_nil
  obtain ⟨hout, hwithin⟩ := hc.head
  have hhead : ∀ {frame' : Frame} {stack' : List Frame}, m.stack = frame' :: stack' → frame' = frame :=
    fun hs' => (List.cons.inj (hs'.symm.trans hs)).1
  refine Env.retainedIn_of fun s hmem name => ?_
  cases h.bindingChange hw (hlt s hmem) name with
  | same hnew => exact .inl hnew
  | declared frame' stack' status b hs' hn he hold hnew =>
    obtain rfl := hhead hs'
    exact absurd hmem (hout.declares hn)
  | param frame' stack' f fn status v hs' hr hn he hold hnew =>
    subst he
    exact absurd hmem hspares
  | set frame' stack' v isConst hs' hn he hnew =>
    obtain rfl := hhead hs'
    exact absurd hmem (hout.declares hn)
  | assigned frame' stack' pos namePos value old status hs' hn he hchain hold hnew =>
    subst he
    by_cases hsame : m'.env.vars s name = m.env.vars s name
    · exact .inl hsame
    refine .inr ⟨?_, old, m.result, hold, hnew⟩
    rcases hspares with hrun | hname | hbinder
    · obtain rfl := hhead hs'
      refine ⟨pos, namePos, value, hn ▸ hwithin ?_⟩
      unfold Machine.running at hrun
      rw [hs, activations, List.filterMap_append] at hrun
      exact List.append_left_eq_self.mp hrun
    · exact hname
    · obtain ⟨frame'', stack'', hs'', hb⟩ := h.assign_binder hw hsame
      exact absurd hmem (hbinder frame'' stack'' s hs'' hb)

end Step

/-! ## Evaluations -/

theorem not_leaks_of_opensScope (h : node.OpensScope) : ¬ node.Leaks := by
  intro hleaks
  cases hleaks with
  | varDecl | fnDecl => exact h
  | child hc hchild =>
    cases node with
    | block pos children => cases hc
    | loopStmt pos iterCount varname body => exact h _ (by simpa [AstNode.inScope] using hc) hchild
    | _ => exact h

/-- An evaluation of a node, as a path from its frame on. -/
theorem eval_path {fuel scope : Nat} {stack : List Frame} {w w' : World Machine Event} {v : Val}
    (hs : w.state.stack = ⟨scope, node, .none⟩ :: stack) (h : eval fuel scope node w = .ok v w') :
    ∃ steps, w'.trace = steps ++ w.trace ∧
      Path (TransAbove scope node stack) w.state steps w'.state := by
  have hf := eval_follows fuel scope node stack w ⟨hs, trivial⟩
  rw [h] at hf
  exact hf.1

/-- A path of steps that spare the scopes around a block or loop keeps what they bind, but for variables that it
assigns. -/
theorem keepsScopes_of_path {scope : Nat} {stack : List Frame} {steps : List (Step Machine Event)}
    (hw : m.Wf) (hs : m.stack = ⟨scope, node, .none⟩ :: stack) (hnode : node.OpensScope)
    (hp : Path (TransAbove scope node stack) m steps m')
    (hspares : ∀ step ∈ steps, step.pre.SparesAround step.event (chain m.env.parent scope) m.running node.Assigns) :
    m.KeepsScopes m' scope node.Assigns := by
  have hscope : scope < m.scopes.size := hw.headScope hs
  have hrunning : m.running = activations stack := by
    unfold Machine.running
    rw [hs, activations_cons]
    rfl
  rw [hrunning] at hspares
  have hstart : Contained (chain m.env.parent scope) node [⟨scope, node, .none⟩] :=
    .base rfl ⟨fun hleaks => absurd hleaks (not_leaks_of_opensScope hnode),
      fun s hl => by rcases hl with hl | hl <;> cases hl⟩
  have hlt : ∀ s ∈ chain m.env.parent scope, s < m.scopes.size := fun s hmem =>
    (le_of_mem_chain hw.rooted hmem).trans_lt hscope
  obtain ⟨⟨-, -, -, hkeeps⟩, -⟩ := hp.invariant_mem
    (I := fun m₁ => m₁.Wf ∧ m.scopes.size ≤ m₁.scopes.size ∧
      (∃ frames, m₁.stack = frames ++ stack ∧ Contained (chain m.env.parent scope) node frames) ∧
      m.KeepsScopes m₁ scope node.Assigns)
    ⟨hw, le_rfl, ⟨_, hs, hstart⟩, rfl, fun _ _ hl => hl, .refl _⟩ hspares
    fun step hspares' htrans ⟨hw', hle, ⟨frames, hframes, hc⟩, hk⟩ => by
      obtain ⟨htrans, -, inner, locals, habove⟩ := htrans
      have hlt' : ∀ s ∈ chain m.env.parent scope, s < step.pre.scopes.size := fun s hmem =>
        (hlt s hmem).trans_le hle
      have hchange := htrans.scopesChange hw'
      refine ⟨htrans.wf hw', hle.trans hchange.size_le, ?_, ?_, fun s hmem hl => ?_, ?_⟩
      · refine htrans.contained hlt' hframes hc hspares' ?_
        rw [habove, List.length_append, List.length_cons]
        omega
      · exact (hchange.chain hw'.rooted (hscope.trans_le hle)).trans hk.chain
      · refine hchange.live (hk.live s hmem hl) fun t he hr => ?_
        rw [he] at hspares'
        exact hspares' s hmem hr
      · exact hk.bindings.trans (htrans.retained hw' hlt' hframes hc hspares')
  exact hkeeps

/-- A path of steps that leave something alone leaves it alone. The table is not reallocated. -/
theorem untouched_of_path {kept : Kept} {scope : Nat} {stack : List Frame} {steps : List (Step Machine Event)}
    (hp : Path (TransAbove scope node stack) m steps m') (hmoved : m.tbl.Unmoved)
    (hspares : ∀ step ∈ steps, step.pre.SparesKept kept step.event) : m'.tbl.Unmoved ∧ Untouched kept m m' :=
  (hp.invariant_mem (I := fun m₁ => m₁.tbl.Unmoved ∧ Untouched kept m m₁) ⟨hmoved, .refl kept m⟩ hspares
    fun _ hspares' htrans ⟨hmoved', hkept⟩ =>
      ⟨(htrans.1.capacity hspares'.not_reallocates).trans hmoved', hkept.trans (htrans.1.untouched hspares')⟩).1

theorem Machine.sparesAround_sound {running : List (Nat × Nat)} {assigned : String → Prop}
    (h : m.sparesAround event scopes running = true) : m.SparesAround event scopes running assigned := by
  cases event with
  | closeScope s =>
    obtain ⟨howned, hscope⟩ := Bool.and_eq_true_iff.mp h
    intro t ht hr
    obtain rfl := releases_self howned hr
    simp [ht] at hscope
  | call body =>
    cases body with
    | none => trivial
    | some f => cases h
  | param => cases h
  | assign name status => exact .inl (of_decide_eq_true h)
  | _ => trivial

/-- No slot is kept for values that are no arrays. -/
theorem Machine.not_kept_slots {fixed : Val → Prop} (h : ∀ u, fixed u → ∀ a, u.data ≠ .array a) (index : Nat) :
    ¬ (m.kept fixed).slots index := by
  rintro ⟨v, u, a, slots, hv, hu, ha, -⟩
  have hself : u = v := by
    clear ha
    induction hu with
    | self => rfl
    | element _ hb _ _ _ ih =>
      rw [ih] at hb
      exact absurd hb (h v hv _)
  exact h v hv a (hself ▸ ha)

theorem mem_values_of_vars {name : String} {isConst : Bool} (hv : m.env.vars s name = some (v, isConst)) :
    ∃ scope, m.scopes.peek s = some scope ∧ v ∈ scope.valmap.values := by
  cases hp : m.scopes.peek s with
  | none =>
    simp [envOf, Machine.env, hp] at hv
  | some scope => exact ⟨scope, rfl, Valmap.mem_values.mpr ⟨name, isConst, (vars_of_peek hp name).symm.trans hv⟩⟩

theorem Machine.bindsNoArrays_sound (h : m.bindsNoArrays s = true) {name : String} {isConst : Bool}
    (hv : m.env.vars s name = some (v, isConst)) (a : Nat) : v.data ≠ .array a := by
  intro ha
  obtain ⟨scope, hp, hmem⟩ := mem_values_of_vars hv
  unfold bindsNoArrays at h
  rw [hp, Option.all_some] at h
  have htest := List.all_eq_true.mp h v hmem
  simp [ha] at htest

theorem Machine.sparesValues_sound {assigned : String → Prop} {m₀ : Machine}
    (hslots : ∀ index, ¬ (m₀.kept (m₀.Fixed s assigned)).slots index) (h : m.sparesValues event = true) :
    m₀.SparesValues m event s assigned := by
  have hgrows : (!decide m.tbl.Grows) = true → ¬ m.tbl.Grows := fun hg => by
    rw [Bool.not_eq_true', decide_eq_false_iff_not] at hg
    exact hg
  cases event with
  | newSlot index => exact ⟨hgrows h, hslots _⟩
  | copyFn orig copy => exact ⟨hgrows h, hslots _⟩
  | closeScope u =>
    intro t ht index hi
    have hall := List.all_eq_true.mp h
    obtain rfl := releases_self (List.all_eq_true.mpr fun j hj => (Bool.and_eq_true_iff.mp (hall j hj)).1) ht
    have hobject : ∀ w : Val, m.tbl.values[index]? = some w → w.data.isObject = false := by
      intro w hw
      have htest := (Bool.and_eq_true_iff.mp (hall index hi)).2
      rw [hw, Option.all_some, Bool.not_eq_true'] at htest
      exact htest
    refine ⟨hslots index, fun w hw hd => ?_, fun w hw hb => ?_⟩
    · have hfalse := hobject w hw
      rw [Kept.object _ _ hd] at hfalse
      cases hfalse
    · obtain ⟨f, fn, hd, -⟩ := hb
      have hfalse := hobject w hw
      rw [hd] at hfalse
      cases hfalse
  | _ => trivial

/-- `{ var x = 1; x = 2; }`. -/
def assignBlock : AstNode :=
  .block .unknown
    [.varDecl .unknown "x" false (some (.intLit .unknown 1)),
      .assignment .unknown (.identifier .unknown "x") (.intLit .unknown 2)]

/-- `{ if (n == 0) { n = 1; array_filter(vector(2), f); } }`. -/
def filterBlock : AstNode :=
  .block .unknown
    [.ifStmt .unknown (.binaryExpr .unknown .opCmpEq (.identifier .unknown "n") (.intLit .unknown 0))
      (.block .unknown
        [.assignment .unknown (.identifier .unknown "n") (.intLit .unknown 1),
          .exprCall .unknown "array_filter"
            [.exprCall .unknown "vector" [.intLit .unknown 2], .identifier .unknown "f"]])
      none]

/-- `var n = 0; function f(x) { ... var z = 5; } array_filter(vector(1), f);`, with the block before the
declaration of `z`. -/
def filterProgram : AstNode :=
  .root .unknown
    [.varDecl .unknown "n" false (some (.intLit .unknown 0)),
      .fnDecl .unknown "f" ["x"] [filterBlock, .varDecl .unknown "z" false (some (.intLit .unknown 5))],
      .exprCall .unknown "array_filter"
        [.exprCall .unknown "vector" [.intLit .unknown 1], .identifier .unknown "f"]]

theorem erase_filterBlock (h : isFilterBlock node = true) : node.OpensScope ∧ node.erase = filterBlock := by
  unfold isFilterBlock at h
  split at h
  · exact ⟨trivial, rfl⟩
  · cases h

end Blaze
