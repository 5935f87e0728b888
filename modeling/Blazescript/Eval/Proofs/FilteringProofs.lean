import Blazescript.Eval.Filtering
import Blazescript.Eval.Proofs.LoopsProofs

/-!
# Proofs: what `array_filter` judges

After each element the callback gets a new scope under the scope from which `array_filter` is called.
-/

namespace Blaze

open Arena Environment Running Tracing

variable {m m' m'' : Machine} {w w' : World Machine Event} {rec : Nat → AstNode → Eval Val} {gas scope f s d : Nat}
  {slot : Option Nat} {value : Val} {name : String} {fn : FnVal} {stack : List Frame} {node : AstNode}
  {args : List Val}

/-! ## Functions stay what they are -/

/-- A function keeps its parameters and statements. -/
theorem Trans.fn_text {event : Event} (h : Trans m event m') (hf : m.fns.peek f = some fn) :
    ∃ fn', m'.fns.peek f = some fn' ∧ fn'.paramNames = fn.paramNames ∧ fn'.customBody = fn.customBody := by
  have hlt := Heap.lt_of_peek hf
  cases h.fnsChange with
  | same he size peek => exact ⟨fn, (peek f).trans hf, rfl, rfl⟩
  | copied orig gn he hr hb heq =>
    refine ⟨fn, ?_, rfl, rfl⟩
    rw [heq, Heap.peek_alloc, if_neg (Nat.ne_of_lt hlt)]
    exact hf
  | made gn he hb hs hsize heq =>
    refine ⟨fn, ?_, rfl, rfl⟩
    rw [heq, Heap.peek_alloc, if_neg (Nat.ne_of_lt hlt)]
    exact hf
  | rescoped g gn he hr hsize heq =>
    rw [heq, Heap.peek_write]
    by_cases hfg : f = g
    · subst hfg
      have hpeek := (Heap.read_eq_some.mp hr).2
      rw [hf] at hpeek
      obtain rfl := Option.some.inj hpeek
      rw [if_pos rfl, hf]
      exact ⟨_, rfl, rfl, rfl⟩
    · rw [if_neg hfg]
      exact ⟨fn, hf, rfl, rfl⟩

/-- What an evaluation keeps. -/
structure Continues (m m' : Machine) : Prop where
  wf : m'.Wf
  builtins : m'.builtins = m.builtins
  fns : ∀ f fn, m.fns.peek f = some fn →
    ∃ fn', m'.fns.peek f = some fn' ∧ fn'.paramNames = fn.paramNames ∧ fn'.customBody = fn.customBody

theorem Continues.step {event : Event} (h : Continues m m') (ht : Trans m' event m'') : Continues m m'' := by
  refine ⟨ht.wf h.wf, ht.builtins.trans h.builtins, fun f fn hf => ?_⟩
  obtain ⟨fn', hf', hparams, hbody⟩ := h.fns f fn hf
  obtain ⟨fn'', hf'', hparams', hbody'⟩ := ht.fn_text hf'
  exact ⟨fn'', hf'', hparams'.trans hparams, hbody'.trans hbody⟩

theorem continues_of_follows {α : Type} {P : Machine → Prop} {Q : α → Machine → Prop} {x : Eval α} {a : α}
    (hx : FollowsIn scope node stack P x Q) (hw : w.state.Wf) (hP : P w.state) (h : x w = .ok a w') :
    Continues w.state w'.state ∧ Q a w'.state := by
  obtain ⟨⟨steps, -, hp⟩, hq⟩ := follows_of_ok hx hP h
  have hcontinues := hp.invariant_mem (I := Continues w.state) (C := fun _ => True)
    ⟨hw, rfl, fun f fn hf => ⟨fn, hf, rfl, rfl⟩⟩ (fun _ _ => trivial) fun _ _ ht hI => hI.step ht.1
  exact ⟨hcontinues.1, hq⟩

/-! ## Copies -/

/-- What a copy leaves as it is: it only makes new objects. -/
structure SameObjects (m m' : Machine) : Prop where
  scopes : ∀ t < m.scopes.size, m'.scopes.peek t = m.scopes.peek t
  scopesSize : m.scopes.size ≤ m'.scopes.size
  fns : ∀ g < m.fns.size, m'.fns.read g = m.fns.read g
  fnsSize : m.fns.size ≤ m'.fns.size
  builtins : m'.builtins = m.builtins
  stack : m'.stack = m.stack

theorem SameObjects.refl (m : Machine) : SameObjects m m :=
  ⟨fun _ _ => rfl, le_rfl, fun _ _ => rfl, le_rfl, rfl, rfl⟩

theorem SameObjects.of_eq (h : SameObjects m m') (hscopes : m''.scopes = m'.scopes) (hfns : m''.fns = m'.fns)
    (hbuiltins : m''.builtins = m'.builtins) (hstack : m''.stack = m'.stack) : SameObjects m m'' := by
  refine ⟨?_, ?_, ?_, ?_, hbuiltins.trans h.builtins, hstack.trans h.stack⟩
  · rw [hscopes]
    exact h.scopes
  · rw [hscopes]
    exact h.scopesSize
  · rw [hfns]
    exact h.fns
  · rw [hfns]
    exact h.fnsSize

/-- A new function, with or without a new scope. -/
theorem SameObjects.newFn (h : SameObjects m m') (fn : FnVal) (hscopes : m''.scopes = m'.scopes ∨
      ∃ scope, m''.scopes = m'.scopes.alloc scope) (hfns : m''.fns = m'.fns.alloc fn)
    (hbuiltins : m''.builtins = m'.builtins) (hstack : m''.stack = m'.stack) : SameObjects m m'' := by
  refine ⟨fun t ht => ?_, ?_, fun g hg => ?_, ?_, hbuiltins.trans h.builtins, hstack.trans h.stack⟩
  · have hsize := h.scopesSize
    rcases hscopes with hscopes | ⟨scope, hscopes⟩
    · rw [hscopes]
      exact h.scopes t ht
    · rw [hscopes, Heap.peek_alloc, if_neg (by omega)]
      exact h.scopes t ht
  · have hsize := h.scopesSize
    rcases hscopes with hscopes | ⟨scope, hscopes⟩
    · rw [hscopes]
      exact hsize
    · rw [hscopes, Heap.size_alloc]
      omega
  · have hsize := h.fnsSize
    rw [hfns, Heap.read_alloc, if_neg (by omega)]
    exact h.fns g hg
  · have hsize := h.fnsSize
    rw [hfns, Heap.size_alloc]
    omega

theorem copyFn_sameObjects {orig : Nat} {body : List AstNode} :
    Upholds (SameObjects m) (copyFn orig fn body) fun _ => True := by
  unfold copyFn
  refine upholds_perform fun m' a event m'' h hf => ?_
  cases hb : fn.builtInCallback with
  | some callback =>
    rw [hb] at hf
    simp only [Option.some.injEq, Prod.mk.injEq] at hf
    obtain ⟨-, -, rfl⟩ := hf
    exact ⟨h.newFn fn (.inl rfl) rfl rfl rfl, trivial⟩
  | none =>
    rw [hb] at hf
    simp only [Option.some.injEq, Prod.mk.injEq] at hf
    obtain ⟨-, -, rfl⟩ := hf
    exact ⟨h.newFn _ (.inr ⟨_, rfl⟩) rfl rfl rfl, trivial⟩

theorem newSlot_sameObjects {data : ValData} :
    Upholds (SameObjects m) (newSlot data) fun v => v.data = data := by
  unfold newSlot
  refine upholds_perform fun m' v event m'' h hf => ?_
  simp only [Option.some.injEq, Prod.mk.injEq] at hf
  obtain ⟨rfl, -, rfl⟩ := hf
  exact ⟨h.of_eq rfl rfl rfl rfl, rfl⟩

theorem giveValue_sameObjects {v : Val} : Upholds (SameObjects m) (giveValue v) fun u => u = v := by
  unfold giveValue
  refine upholds_perform fun m' u event m'' h hf => ?_
  simp only [Option.some.injEq, Prod.mk.injEq] at hf
  obtain ⟨rfl, -, rfl⟩ := hf
  exact ⟨h.of_eq rfl rfl rfl rfl, rfl⟩

theorem newString_sameObjects {text : String} : Upholds (SameObjects m) (newString text) fun _ => True := by
  unfold newString
  refine upholds_perform fun m' u event m'' h hf => ?_
  simp only [Option.some.injEq, Prod.mk.injEq] at hf
  obtain ⟨-, -, rfl⟩ := hf
  exact ⟨h.of_eq rfl rfl rfl rfl, trivial⟩

theorem vectorInit_sameObjects : Upholds (SameObjects m) vectorInit fun _ => True := by
  unfold vectorInit
  refine upholds_perform fun m' u event m'' h hf => ?_
  simp only [Option.some.injEq, Prod.mk.injEq] at hf
  obtain ⟨-, -, rfl⟩ := hf
  exact ⟨h.of_eq rfl rfl rfl rfl, trivial⟩

/-- A copy makes new objects, and is a function only if what it copies is one. -/
theorem valCopyDeep_sameObjects (orig : Val) : Upholds (SameObjects m) (valCopyDeep orig)
    fun v => (∀ g, orig.data ≠ .function g) → ∀ g, v.data ≠ .function g := by
  unfold valCopyDeep
  split
  · refine giveValue_sameObjects.post fun v hv _ g hg => ?_
    rw [hv] at hg
    cases hg
  · refine getStore_upholds.bind fun text _ => newString_sameObjects.bind fun s _ => ?_
    refine newSlot_sameObjects.post fun v hv _ g hg => ?_
    rw [hv] at hg
    cases hg
  · refine vectorInit_sameObjects.bind fun a _ => newSlot_sameObjects.post fun v hv _ g hg => ?_
    rw [hv] at hg
    cases hg
  · rename_i f hdata
    have hany : ∀ v : Val, True → (∀ g, orig.data ≠ .function g) → ∀ g, v.data ≠ .function g :=
      fun v _ hne => absurd hdata (hne f)
    refine (upholds_read fun _ _ _ _ => trivial : Upholds _ _ fun _ => True).bind fun fn _ => ?_
    split
    · exact copyFn_sameObjects.post hany
    · exact (copyBody_upholds _).bind fun body _ => copyFn_sameObjects.post hany
  · refine newSlot_sameObjects.post fun v hv hne g hg => ?_
    rw [hv] at hg
    exact hne g hg

/-! ## One element -/

/-- Both states have the same scope. -/
theorem SameObjects.freshIn_iff (h : SameObjects m m') (hs : s < m.scopes.size) (d : Nat) :
    m'.FreshIn s d ↔ m.FreshIn s d := by
  have hpeek := h.scopes s hs
  have hparent : m'.env.parent s = m.env.parent s := by
    show (m'.scopes.peek s).bind Scope.parent = (m.scopes.peek s).bind Scope.parent
    rw [hpeek]
  have hvars : ∀ k, m'.env.vars s k = m.env.vars s k := by
    intro k
    show (m'.scopes.peek s).bind _ = (m.scopes.peek s).bind _
    rw [hpeek]
  constructor
  · intro hfresh
    refine ⟨hparent ▸ hfresh.parent, fun k => ?_⟩
    rw [← hvars, hfresh.vars k, h.builtins]
  · intro hfresh
    refine ⟨hparent.trans hfresh.parent, fun k => ?_⟩
    rw [hvars, hfresh.vars k, h.builtins]

/-- The call of the callback, in its parts. -/
theorem judgeElement_of_call {keep : Bool} (hfn : w.state.fns.read f = some fn) (hscope : fn.scope = some s)
    (slot : Option Nat) (h : arrayFilterCallFn rec gas scope f value w = .ok keep w') : ∃ w₁ w₂ w₃ ret,
      activate f s w = .ok () w₁ ∧ declareCallbackParams s value fn.paramNames w₁ = .ok () w₂ ∧
      callbackBody rec f s gas 0 nullVal w₂ = .ok ret w₃ ∧ rescope f scope w₃ = .ok () w' ∧
      judgeElement rec gas scope f slot value w = .ok ⟨slot, value, s, w₁.state, w₂.state, ret⟩ w' ∧
      keep = decide (ret.data = .boolean true) := by
  have hread : readFn f w = .ok fn w := readOrThrow_ok hfn
  unfold arrayFilterCallFn at h
  rw [bind_ok hread, hscope] at h
  obtain ⟨_, w₁, h₁, h⟩ := bind_eq_ok h
  obtain ⟨_, w₂, h₂, h⟩ := bind_eq_ok h
  obtain ⟨ret, w₃, h₃, h⟩ := bind_eq_ok h
  obtain ⟨_, w₄, h₄, h⟩ := bind_eq_ok h
  cases h
  refine ⟨w₁, w₂, w₃, ret, h₁, h₂, h₃, h₄, ?_, rfl⟩
  have hentered : (Recorder.read id : Eval Machine) w₁ = .ok w₁.state w₁ := rfl
  have hjudged : (Recorder.read id : Eval Machine) w₂ = .ok w₂.state w₂ := rfl
  unfold judgeElement
  rw [bind_ok hread, hscope]
  dsimp only
  rw [bind_ok h₁, bind_ok hentered, bind_ok h₂, bind_ok hjudged, bind_ok h₃, bind_ok h₄]
  rfl

/-- The parameter is declared, unless the scope binds its name. -/
theorem declareCallbackParams_env {w₁ w₂ : World Machine Event}
    (h : declareCallbackParams s value [name] w₁ = .ok () w₂) : w₂.state.env =
      if (w₁.state.env.vars s name).isSome then w₁.state.env else w₁.state.env.bind s name (value, true) := by
  obtain ⟨status, w₂', hdeclare, h⟩ := bind_eq_ok h
  cases h
  obtain ⟨event, hf⟩ := perform_eq_ok hdeclare
  obtain ⟨r, hr, heq⟩ := Option.map_eq_some_iff.mp hf
  simp only [Prod.mk.injEq] at heq
  obtain ⟨-, -, hm⟩ := heq
  rw [← hm]
  exact (scopeDeclareIdentifier_spec hr).2.2.2.1

/-- The function gets a new scope under the scope of the caller. -/
theorem rescope_spec (h : rescope f scope w = .ok () w') : ∃ fn,
    w.state.fns.read f = some fn ∧ w'.state.fns.read f = some { fn with scope := some w.state.scopes.size } ∧
      w'.state.FreshIn w.state.scopes.size scope := by
  obtain ⟨fn, hread, hf⟩ := Option.bind_eq_some_iff.mp (act_ok h)
  obtain ⟨frame, rest, -, hm⟩ := withLocals_eq_some hf
  refine ⟨fn, hread, ?_, ?_, fun k => ?_⟩
  · rw [hm]
    show (w.state.fns.write f _).read f = _
    rw [Heap.read_write, if_pos rfl, hread]
    rfl
  · rw [hm]
    show (envOf (w.state.scopes.alloc _)).parent _ = _
    rw [alloc_parent, if_pos rfl]
    exact congrArg Prod.fst (scopeInit_child w.state.builtins scope).1
  · rw [hm]
    show (envOf (w.state.scopes.alloc _)).vars _ _ = _
    rw [alloc_vars, if_pos rfl]
    exact (scopeInit_child w.state.builtins scope).2 k

/-- `array_filter` is about to judge an element, with the callback in scope `s`. -/
structure Filtering (scope : Nat) (node : AstNode) (stack : List Frame) (args : List Val) (f : Nat) (name : String)
    (vector newVector : Nat) (slots kept : List (Option Nat)) (s : Nat) (w : World Machine Event) : Prop where
  wf : w.state.Wf
  stack : w.state.stack = ⟨scope, node, .builtin args none⟩ :: stack
  given : w.state.Unslotted vector slots
  made : w.state.Unslotted newVector kept
  ne : newVector ≠ vector
  fn : ∃ fn, w.state.fns.read f = some fn ∧ fn.scope = some s ∧ fn.paramNames = [name]

/-- How an element has been judged, from a state with the callback in scope `s`. -/
structure JudgedFrom (m : Machine) (s : Nat) (name : String) (slot : Option Nat) (value : Val) (j : Judgement) :
    Prop where
  atSlot : j.slot = slot
  ofValue : j.value = value
  inScope : j.scope = s
  fresh : ∀ d, j.entered.FreshIn s d ↔ m.FreshIn s d
  builtins : j.entered.builtins = m.builtins
  bound : j.judged.env =
    if (j.entered.env.vars s name).isSome then j.entered.env else j.entered.env.bind s name (value, true)

section Loop

variable {vector newVector fuel : Nat} {slots kept : List (Option Nat)}

/-- An element that is kept becomes the last one of the new array, and nothing else changes. -/
theorem Filtering.keep (h : Filtering scope node stack args f name vector newVector slots kept s w)
    {keep : Bool} (hkeep : keepElement newVector slot keep w = .ok () w') :
    Filtering scope node stack args f name vector newVector slots (kept ++ if keep then [slot] else []) s w' ∧
      w'.state.env = w.state.env ∧ w'.state.builtins = w.state.builtins := by
  obtain ⟨hcontinues, hstack, -⟩ := continues_of_follows (keepElement_follows keep) h.wf ⟨h.stack, trivial⟩ hkeep
  have hvector := (keepElement_upholds (unslotted_invariant vector slots) h.ne keep w () w' h.given hkeep).1
  cases keep with
  | false =>
    cases hkeep
    rw [if_neg Bool.false_ne_true, List.append_nil]
    exact ⟨h, rfl, rfl⟩
  | true =>
    rw [if_pos rfl]
    have hnew := vectorPush_unslotted h.made hkeep
    have hpush : vectorPush newVector slot w = .ok () w' := hkeep
    obtain ⟨data, -, hm⟩ := Option.map_eq_some_iff.mp (act_ok hpush)
    have hfns : w'.state.fns = w.state.fns := by rw [← hm]
    have hscopes : w'.state.scopes = w.state.scopes := by rw [← hm]
    refine ⟨⟨hcontinues.wf, hstack, hvector, hnew, h.ne, ?_⟩, congrArg envOf hscopes, hcontinues.builtins⟩
    rw [hfns]
    exact h.fn

/-- The callback judges an element, and has a new scope under the scope of the caller then. -/
theorem Filtering.judge (hf : ∃ v ∈ args, v.data = .function f)
    (h : Filtering scope node stack args f name vector newVector slots kept s w) {orig : Val}
    {w₁ w₂ : World Machine Event} {keep : Bool} (hcopy : valCopyDeep orig w = .ok value w₁)
    (hcall : arrayFilterCallFn (eval fuel) gas scope f value w₁ = .ok keep w₂) (slot : Option Nat) :
    ∃ j s', judgeElement (eval fuel) gas scope f slot value w₁ = .ok j w₂ ∧ j.keep = keep ∧
      JudgedFrom w.state s name slot value j ∧
      Filtering scope node stack args f name vector newVector slots kept s' w₂ ∧ w₂.state.FreshIn s' scope ∧
      w₂.state.builtins = w.state.builtins := by
  obtain ⟨fn, hread, hscope, hparams⟩ := h.fn
  have hsize := h.wf.fnScope f fn s (Heap.read_eq_some.mp hread).2 hscope
  obtain ⟨hcontinues₁, hstack₁, hresult⟩ := continues_of_follows valCopyDeep_follows h.wf (P := Inside scope node stack
    (.builtin args none) fun _ => True) ⟨h.stack, trivial⟩ hcopy
  have hobjects := (valCopyDeep_sameObjects orig w value w₁ (SameObjects.refl w.state) hcopy).1
  have hread₁ : w₁.state.fns.read f = some fn :=
    (hobjects.fns f (Heap.lt_of_isLive (Heap.read_eq_some.mp hread).1)).trans hread
  -- the call of the callback
  obtain ⟨w₃, w₄, w₅, ret, hactivate, hdeclare, hbody, hrescope, hjudge, hkeep⟩ :=
    judgeElement_of_call hread₁ hscope slot hcall
  obtain ⟨hcontinues₂, hstack₂, -⟩ := continues_of_follows
    (arrayFilterCallFn_follows (eval_follows fuel) hf gas value) hcontinues₁.wf ⟨hstack₁, hresult⟩ hcall
  obtain ⟨fn', -, hread₂, hfresh⟩ := rescope_spec hrescope
  have hparams' : fn'.paramNames = [name] := by
    obtain ⟨fn₂, hpeek, hsame, -⟩ := hcontinues₂.fns f fn (Heap.read_eq_some.mp hread₁).2
    rw [(Heap.read_eq_some.mp hread₂).2] at hpeek
    obtain rfl := Option.some.inj hpeek
    exact hsame.trans hparams
  -- the array that is being made and the given one
  have hkept : ∀ a elements, w.state.Unslotted a elements → w₂.state.Unslotted a elements := by
    intro a elements ha
    have hI := unslotted_invariant a elements
    have ha₁ := (valCopyDeep_upholds hI orig w value w₁ ha hcopy).1
    exact (arrayFilterCallFn_upholds hI (eval_upholds hI fuel) trivial w₁ keep w₂ ha₁ hcall).1
  -- the state in which the callback was entered
  obtain ⟨frame, rest, -, hm⟩ : ∃ frame rest, w₁.state.stack = frame :: rest ∧
      w₃.state = { w₁.state with stack := { frame with locals := .builtin args (some (f, s)) } :: rest } := by
    have hact := act_ok hactivate
    unfold Machine.locals at hact
    rw [hstack₁] at hact
    exact withLocals_eq_some hact
  refine ⟨_, _, hjudge, hkeep.symm, ⟨rfl, rfl, rfl, fun d => ?_, ?_, ?_⟩, ⟨hcontinues₂.wf, hstack₂, ?_, ?_, h.ne, ?_⟩, hfresh,
    hcontinues₂.builtins.trans hcontinues₁.builtins⟩
  · rw [← hobjects.freshIn_iff hsize d]
    dsimp only
    rw [hm]
    exact ⟨fun hd => ⟨hd.parent, hd.vars⟩, fun hd => ⟨hd.parent, hd.vars⟩⟩
  · dsimp only
    rw [hm]
    exact hobjects.builtins
  · rw [hparams] at hdeclare
    exact declareCallbackParams_env hdeclare
  · exact hkept vector slots h.given
  · exact hkept newVector kept h.made
  · exact ⟨_, hread₂, rfl, hparams'⟩

/-- The elements have been judged, from a state with the callback in scope `s`: the first one in that scope, the
others in new scopes under the scope of the caller. -/
structure AllJudged (m : Machine) (s scope : Nat) (name : String) (js : List Judgement) : Prop where
  first : ∀ j ∈ js.head?, JudgedFrom m s name j.slot j.value j ∧ ∃ orig, m.slotValue j.slot = some orig ∧
    ((∀ g, orig.data ≠ .function g) → ∀ g, j.value.data ≠ .function g)
  later : ∀ j ∈ js.tail, ∃ m' s', JudgedFrom m' s' name j.slot j.value j ∧ m'.FreshIn s' scope ∧
    m'.builtins = m.builtins

theorem Filtering.loop (hf : ∃ v ∈ args, v.data = .function f) : ∀ gas i kept s w,
    Filtering scope node stack args f name vector newVector slots kept s w →
    arrayFilterLoop (eval fuel) scope f vector newVector gas i w = .ok () w' →
    ∃ js s', judgeFrom (eval fuel) scope f vector newVector gas i w = .ok js w' ∧
      js.map Judgement.slot = slots.drop i ∧
      Filtering scope node stack args f name vector newVector slots
        (kept ++ (js.filter Judgement.keep).map Judgement.slot) s' w' ∧ AllJudged w.state s scope name js := by
  intro gas
  induction gas with
  | zero =>
    intro i kept s w _ h
    cases h
  | succ gas ih =>
    intro i kept s w hw h
    have hdata : ∀ {w : World Machine Event}, w.state.Unslotted vector slots →
        getStore (fun store => store.vectors.read vector) w = .ok slots w := fun hu => readOrThrow_ok hu.read
    unfold arrayFilterLoop at h
    rw [bind_ok (hdata hw.given)] at h
    unfold judgeFrom
    rw [bind_ok (hdata hw.given)]
    cases hslot : slots[i]? with
    | none =>
      rw [hslot] at h
      cases h
      refine ⟨[], s, rfl, ?_, ?_, ⟨fun j hj => (by cases hj), fun j hj => (by cases hj)⟩⟩
      · rw [List.map_nil, List.drop_eq_nil_of_le (List.getElem?_eq_none_iff.mp hslot)]
      · rw [List.filter_nil, List.map_nil, List.append_nil]
        exact hw
    | some slot =>
      rw [hslot] at h
      dsimp only at h ⊢
      obtain ⟨orig, w₁, horig, hrest⟩ := bind_eq_ok h
      obtain ⟨horig', rfl⟩ := readOrThrow_eq_ok horig
      obtain ⟨value, w₂, hcopy, h⟩ := bind_eq_ok hrest
      obtain ⟨keep, w₃, hcall, h⟩ := bind_eq_ok h
      obtain ⟨j, s', hjudge, hkeep, hfrom, hw₃, hfresh, hbuiltins⟩ := hw.judge hf hcopy hcall slot
      rw [bind_ok (hdata hw₃.given), hslot] at h
      obtain ⟨_, w₄, hkept, h⟩ := bind_eq_ok h
      obtain ⟨hw₄, henv, hbuiltins'⟩ := hw₃.keep hkept
      obtain ⟨js, s'', hjs, hslots, hw', hjudged⟩ := ih (i + 1) _ s' w₄ hw₄ h
      have hvalue := (valCopyDeep_sameObjects orig w₁ value w₂ (SameObjects.refl _) hcopy).2
      have hatSlot := hfrom.atSlot
      refine ⟨j :: js, s'', ?_, ?_, ?_, ⟨fun k hk => ?_, fun k hk => ?_⟩⟩
      · rw [bind_ok horig, bind_ok hcopy, bind_ok hjudge, bind_ok (hdata hw₃.given), hslot, hkeep, bind_ok hkept,
          bind_ok hjs]
        rfl
      · obtain ⟨hlt, hget⟩ := List.getElem?_eq_some_iff.mp hslot
        rw [List.map_cons, hslots, hatSlot, ← hget, List.drop_eq_getElem_cons hlt]
      · have hfilter : kept ++ ((j :: js).filter Judgement.keep).map Judgement.slot =
            (kept ++ if keep then [slot] else []) ++ (js.filter Judgement.keep).map Judgement.slot := by
          rw [List.filter_cons, hkeep, List.append_assoc]
          cases keep with
          | true => rw [if_pos rfl, if_pos rfl, List.map_cons, hatSlot, List.singleton_append]
          | false => rw [if_neg Bool.false_ne_true, if_neg Bool.false_ne_true, List.nil_append]
        rw [hfilter]
        exact hw'
      · obtain rfl := Option.some.inj hk
        refine ⟨?_, orig, ?_, ?_⟩
        · rw [hatSlot, hfrom.ofValue]
          exact hfrom
        · rw [hatSlot]
          exact horig'
        · rw [hfrom.ofValue]
          exact hvalue
      · have hfresh₄ : w₄.state.FreshIn s' scope := by
          refine ⟨?_, fun name => ?_⟩
          · rw [henv]
            exact hfresh.parent
          · rw [henv, hbuiltins']
            exact hfresh.vars name
        have hk' : k ∈ js := hk
        cases js with
        | nil => cases hk'
        | cons k' rest =>
          rcases List.mem_cons.mp hk' with rfl | hrest
          · exact ⟨w₄.state, s', (hjudged.first k rfl).1, hfresh₄, hbuiltins'.trans hbuiltins⟩
          · obtain ⟨m', t, hfrom', hfresh', hb⟩ := hjudged.later k hrest
            exact ⟨m', t, hfrom', hfresh', hb.trans (hbuiltins'.trans hbuiltins)⟩

end Loop

/-! ## Whether the judgements are fair -/

theorem JudgedFrom.fair {j : Judgement} (h : JudgedFrom m s name slot value j) (hfresh : m.FreshIn s d)
    (hname : m.builtins.lookup name = none) : j.Fair d name := by
  have hentered := (h.fresh d).mpr hfresh
  have hnone : j.entered.env.vars s name = none := by
    rw [hentered.vars name, h.builtins, hname]
    rfl
  refine ⟨h.inScope ▸ hentered, ?_⟩
  rw [h.bound, hnone, h.inScope, h.ofValue]
  rfl

theorem JudgedFrom.of_fair {j : Judgement} (h : JudgedFrom m s name slot value j) (hfair : j.Fair d name) (hw : m.Wf)
    (hvalue : ∀ g, value.data ≠ .function g) : m.FreshIn s d ∧ m.builtins.lookup name = none := by
  have hentered : j.entered.FreshIn s d := h.inScope ▸ hfair.fresh
  refine ⟨(h.fresh d).mp hentered, ?_⟩
  cases hlookup : m.builtins.lookup name with
  | none => rfl
  | some u =>
    -- the name of a built-in function stands for it, which is not the element
    have hbuiltin : j.entered.env.vars s name = some (u, true) := by
      rw [hentered.vars name, h.builtins, hlookup]
      rfl
    have hbound := hfair.bound
    rw [h.bound, hbuiltin, Option.isSome_some, if_pos rfl, h.inScope, h.ofValue] at hbound
    have hvars := congrArg (fun env : Env String Val => env.vars s name) hbound
    rw [hbuiltin, Env.vars_bind, if_pos ⟨rfl, rfl⟩] at hvars
    obtain ⟨rfl, -⟩ := Prod.mk.inj (Option.some.inj hvars)
    obtain ⟨l, l', hsplit, -⟩ := List.lookup_eq_some_iff.mp hlookup
    have hmem : (name, u) ∈ m.builtins := by
      rw [hsplit]
      exact List.mem_append_right l (List.mem_cons_self ..)
    obtain ⟨g, gn, hdata, -⟩ := hw.builtins _ hmem
    exact absurd hdata (hvalue g)

theorem Machine.FreshIn.unique {d' : Nat} (h : m.FreshIn s d) (h' : m.FreshIn s d') : d = d' :=
  Option.some.inj (h.parent.symm.trans h'.parent)

/-- The judgements are fair if the callback has a fresh scope in scope `d`, and if `array_filter` is called from
there should there be a second element. -/
theorem AllJudged.fair_iff {js : List Judgement} (h : AllJudged m s scope name js) (hw : m.Wf)
    (hscalar : ∀ slot ∈ js.map Judgement.slot, ∀ u, m.slotValue slot = some u → ∀ g, u.data ≠ .function g) (d : Nat) :
    (∀ j ∈ js, j.Fair d name) ↔
      js = [] ∨ m.builtins.lookup name = none ∧ m.FreshIn s d ∧ (js.length = 1 ∨ scope = d) := by
  cases js with
  | nil => simp
  | cons j js =>
    obtain ⟨hfrom, orig, horig, hvalue⟩ := h.first j rfl
    have hvalue' := hvalue (hscalar j.slot (List.mem_cons_self ..) orig horig)
    constructor
    · intro hfair
      obtain ⟨hj, hjs⟩ := List.forall_mem_cons.mp hfair
      obtain ⟨hfresh, hname⟩ := hfrom.of_fair hj hw hvalue'
      refine .inr ⟨hname, hfresh, ?_⟩
      cases js with
      | nil => exact .inl rfl
      | cons k js =>
        obtain ⟨m', s', hfrom', hfresh', hbuiltins⟩ := h.later k (List.mem_cons_self ..)
        have hk := hjs k (List.mem_cons_self ..)
        have hentered : m'.FreshIn s' d := (hfrom'.fresh d).mp (hfrom'.inScope ▸ hk.fresh)
        exact .inr (hfresh'.unique hentered)
    · rintro (hnil | ⟨hname, hfresh, hlength⟩)
      · cases hnil
      · refine List.forall_mem_cons.mpr ⟨hfrom.fair hfresh hname, fun k hk => ?_⟩
        obtain ⟨m', s', hfrom', hfresh', hbuiltins⟩ := h.later k hk
        rcases hlength with hone | rfl
        · obtain rfl := List.length_eq_zero_iff.mp (Nat.succ.inj hone)
          cases hk
        · exact hfrom'.fair hfresh' (by rw [hbuiltins]; exact hname)

/-! ## `array_filter` -/

section Filter

variable {array callback v : Val} {vector fuel : Nat} {slots : List (Option Nat)}

/-- The new array starts without elements, and the given one keeps its own. -/
theorem Filtering.start (hw : w.state.Wf)
    (hstack : w.state.stack = ⟨scope, node, .builtin args none⟩ :: stack)
    (hread : w.state.store.vectors.read vector = some slots)
    (hslots : ∀ (index : Nat) (u : Val) (a : Nat), w.state.tbl.values[index]? = some u → u.data = .array a →
      a < w.state.store.vectors.size ∧ a ≠ vector)
    (hfn : w.state.fns.read f = some fn) (hscope : fn.scope = some s) (hparams : fn.paramNames = [name])
    {newVector : Nat} (h : vectorInit w = .ok newVector w') :
    Filtering scope node stack args f name vector newVector slots [] s w' := by
  obtain ⟨hcontinues, hstack', -⟩ :=
    continues_of_follows (vectorInit_follows storeFree_true) hw ⟨hstack, trivial⟩ h
  have hlt := Heap.lt_of_isLive (Heap.read_eq_some.mp hread).1
  cases h
  refine ⟨hcontinues.wf, hstack', ⟨?_, fun index u hu hdata => ?_⟩, ⟨?_, fun index u hu hdata => ?_⟩, Nat.ne_of_gt hlt,
    fn, hfn, hscope, hparams⟩
  · exact Heap.read_alloc_of_read hread
  · exact (hslots index u _ hu hdata).2 rfl
  · exact Heap.read_alloc.trans (if_pos rfl)
  · exact absurd (hslots index u _ hu hdata).1 (Nat.lt_irrefl _)

theorem fnOf_data {v : Val} (h : m.fnOf v = some (f, fn)) : v.data = .function f ∧ m.fns.read f = some fn := by
  unfold Machine.fnOf at h
  split at h
  · rename_i g hdata
    obtain ⟨fn', hread, heq⟩ := Option.map_eq_some_iff.mp h
    obtain ⟨rfl, rfl⟩ := Prod.mk.inj heq
    exact ⟨hdata, hread⟩
  · cases h

/-- `array_filter` in its parts. -/
theorem builtinArrayFilter_ok (harray : array.data = .array vector) (hcallback : w.state.fnOf callback = some (f, fn))
    (hparams : fn.paramNames = [name])
    (h : builtinArrayFilter (eval fuel) gas scope [array, callback] w = .ok v w') : ∃ newVector w₁ w₂,
      vectorInit w = .ok newVector w₁ ∧ arrayFilterLoop (eval fuel) scope f vector newVector gas 0 w₁ = .ok () w₂ ∧
      giveValue (.ofData (.array newVector)) w₂ = .ok v w' := by
  have hread : (Recorder.readOrThrow .undefined fun m => m.fnOf callback : Eval (Nat × FnVal)) w = .ok (f, fn) w :=
    readOrThrow_ok hcallback
  unfold builtinArrayFilter at h
  dsimp only at h
  rw [bind_ok hread, harray] at h
  dsimp only at h
  rw [hparams, if_neg (by exact Nat.lt_irrefl 1)] at h
  obtain ⟨newVector, w₁, hinit, h⟩ := bind_eq_ok h
  obtain ⟨_, w₂, hloop, h⟩ := bind_eq_ok h
  exact ⟨newVector, w₁, w₂, hinit, hloop, h⟩

/-- An array without elements. -/
theorem judgeFrom_nil {newVector : Nat} (hread : w.state.store.vectors.read vector = some [])
    (h : arrayFilterLoop (eval fuel) scope f vector newVector gas 0 w = .ok () w') :
    judgeFrom (eval fuel) scope f vector newVector gas 0 w = .ok [] w' ∧ w' = w := by
  have hdata : getStore (fun store => store.vectors.read vector) w = .ok [] w := readOrThrow_ok hread
  cases gas with
  | zero => cases h
  | succ gas =>
    unfold arrayFilterLoop at h
    rw [bind_ok hdata] at h
    cases h
    unfold judgeFrom
    rw [bind_ok hdata]
    exact ⟨rfl, rfl⟩

/-- `array_filter` keeps the elements for which the callback returned `true`, and judges them all like a function
declared in scope `d` under a condition. -/
theorem builtinArrayFilter_judges (hw : w.state.Wf)
    (hstack : w.state.stack = ⟨scope, node, .builtin [array, callback] none⟩ :: stack)
    (harray : array.data = .array vector) (hread : w.state.store.vectors.read vector = some slots)
    (hslots : ∀ (index : Nat) (u : Val) (a : Nat), w.state.tbl.values[index]? = some u → u.data = .array a →
      a < w.state.store.vectors.size ∧ (slots ≠ [] → a ≠ vector))
    (hscalar : ∀ slot ∈ slots, ∀ u, w.state.slotValue slot = some u → ∀ g, u.data ≠ .function g)
    (hcallback : w.state.fnOf callback = some (f, fn)) (hscope : fn.scope = some s) (hparams : fn.paramNames = [name])
    (h : builtinArrayFilter (eval fuel) gas scope [array, callback] w = .ok v w') (d : Nat) :
    ∃ js newVector, judgeAll (eval fuel) gas scope f vector w = .ok (v, js) w' ∧ js.map Judgement.slot = slots ∧
      v.data = .array newVector ∧
      w'.state.store.vectors.read newVector = some ((js.filter Judgement.keep).map Judgement.slot) ∧
      ((∀ j ∈ js, j.Fair d name) ↔
        slots = [] ∨ w.state.builtins.lookup name = none ∧ w.state.FreshIn s d ∧ (slots.length = 1 ∨ scope = d)) := by
  obtain ⟨newVector, w₁, w₂, hinit, hloop, hgive⟩ := builtinArrayFilter_ok harray hcallback hparams h
  have hf := fnOf_data hcallback
  have hv : v = .ofData (.array newVector) ∧ w'.state.store = w₂.state.store := by
    cases hgive
    exact ⟨rfl, rfl⟩
  have hjudgeAll : ∀ js, judgeFrom (eval fuel) scope f vector newVector gas 0 w₁ = .ok js w₂ →
      judgeAll (eval fuel) gas scope f vector w = .ok (v, js) w' := by
    intro js hjs
    unfold judgeAll
    rw [bind_ok hinit, bind_ok hjs, bind_ok hgive]
    rfl
  by_cases hnil : slots = []
  · subst hnil
    have hread₁ : w₁.state.store.vectors.read vector = some [] := by
      cases hinit
      exact Heap.read_alloc_of_read hread
    obtain ⟨hjs, rfl⟩ := judgeFrom_nil hread₁ hloop
    refine ⟨[], newVector, hjudgeAll [] hjs, rfl, by rw [hv.1]; rfl, ?_, ?_⟩
    · rw [hv.2]
      cases hinit
      exact Heap.read_alloc.trans (if_pos rfl)
    · simp
  · have hslots' : ∀ (index : Nat) (u : Val) (a : Nat), w.state.tbl.values[index]? = some u → u.data = .array a →
        a < w.state.store.vectors.size ∧ a ≠ vector := by
      intro index u a hu hdata
      obtain ⟨hlt, hne⟩ := hslots index u a hu hdata
      exact ⟨hlt, hne hnil⟩
    have hstart := Filtering.start hw hstack hread hslots' hf.2 hscope hparams hinit
    obtain ⟨js, s', hjs, hjslots, hfinal, hjudged⟩ :=
      hstart.loop ⟨callback, List.mem_cons_of_mem _ (List.mem_cons_self ..), hf.1⟩ gas 0 [] s w₁ hloop
    rw [List.drop_zero] at hjslots
    have hmade := hfinal.made.read
    rw [List.nil_append] at hmade
    -- a new vector concerns neither names nor slots
    have hsame : w₁.state.env = w.state.env ∧ w₁.state.builtins = w.state.builtins ∧ w₁.state.tbl = w.state.tbl := by
      cases hinit
      exact ⟨rfl, rfl, rfl⟩
    obtain ⟨henv, hbuiltins, htbl⟩ := hsame
    have hfresh : w₁.state.FreshIn s d ↔ w.state.FreshIn s d := by
      constructor
      · intro hd
        refine ⟨henv ▸ hd.parent, fun k => ?_⟩
        rw [← henv, ← hbuiltins]
        exact hd.vars k
      · intro hd
        refine ⟨henv.symm ▸ hd.parent, fun k => ?_⟩
        rw [henv, hbuiltins]
        exact hd.vars k
    have hscalar' : ∀ slot ∈ js.map Judgement.slot, ∀ u, w₁.state.slotValue slot = some u → ∀ g, u.data ≠ .function g := by
      intro slot hslot u hu
      rw [hjslots] at hslot
      refine hscalar slot hslot u ?_
      unfold Machine.slotValue at hu ⊢
      rw [← htbl]
      exact hu
    have hlength : js.length = slots.length := by
      rw [← hjslots, List.length_map]
    have hempty : js = [] ↔ slots = [] := by
      rw [← List.length_eq_zero_iff, ← List.length_eq_zero_iff, hlength]
    have hiff := hjudged.fair_iff hstart.wf hscalar' d
    rw [hbuiltins, hfresh, hlength, hempty] at hiff
    refine ⟨js, newVector, hjudgeAll js hjs, hjslots, by rw [hv.1]; rfl, ?_, hiff⟩
    rw [hv.2]
    exact hmade

end Filter

/-! ## A function that is called from another scope -/

/-- What `splitsEqual` says. -/
theorem splitsEqual_cases (h : splitsEqual m = true) : ∃ scope node array callback stack vector f fn slots s,
    m.stack = ⟨scope, node, .builtin [array, callback] none⟩ :: stack ∧ array.data = .array vector ∧
      m.fnOf callback = some (f, fn) ∧ m.store.vectors.read vector = some slots ∧ fn.scope = some s ∧
      fn.paramNames = ["x"] ∧ m.holdsNot vector = true ∧ m.holdsIntegers slots = true ∧
      (m.valuesOf array).map (fun us => us.map Val.data) = some [.integer 1, .integer 1] ∧
      endsSuch (fun v m => (m.valuesOf v).map (fun us => us.map Val.data) = some [.integer 1])
        (builtinArrayFilter (eval 6) 6 scope [array, callback] ⟨m, []⟩) = true ∧
      stepsSuch (fun step => !decide step.pre.tbl.Grows)
        (builtinArrayFilter (eval 6) 6 scope [array, callback] ⟨m, []⟩) = true ∧ m.tbl.Unmoved ∧
      returnsSuch judgesElsewhere (judgeAll (eval 6) 6 scope f vector ⟨m, []⟩) = true := by
  unfold splitsEqual at h
  split at h
  · rename_i scope node array callback stack hstack
    split at h
    · rename_i vector f fn harray hcallback
      split at h
      · rename_i slots s hread hscope
        simp only [Bool.and_eq_true, decide_eq_true_eq] at h
        obtain ⟨⟨⟨⟨⟨⟨⟨hparams, hnot⟩, hintegers⟩, htwo⟩, hone⟩, hsteps⟩, hmoved⟩, helsewhere⟩ := h
        exact ⟨scope, node, array, callback, stack, vector, f, fn, slots, s, hstack, harray, hcallback, hread, hscope,
          hparams, hnot, hintegers, htwo, hone, hsteps, hmoved, helsewhere⟩
      · cases h
    · cases h
  · cases h

theorem holdsNot_spec {vector : Nat} (h : m.holdsNot vector = true) (index : Nat) (u : Val) (a : Nat)
    (hu : m.tbl.values[index]? = some u) (hdata : u.data = .array a) : a < m.store.vectors.size ∧ a ≠ vector := by
  have hall := List.all_eq_true.mp h u (List.mem_of_getElem? hu)
  rw [hdata] at hall
  simp only [Bool.and_eq_true, decide_eq_true_eq, ne_eq] at hall
  exact hall

theorem holdsIntegers_spec {slots : List (Option Nat)} (h : m.holdsIntegers slots = true) :
    ∀ slot ∈ slots, ∀ u, m.slotValue slot = some u → ∀ g, u.data ≠ .function g := by
  intro slot hslot u hu g hdata
  have hall := List.all_eq_true.mp h slot hslot
  rw [hu] at hall
  dsimp only at hall
  rw [hdata] at hall
  cases hall

/-- A state of the program in which `array_filter` is called. -/
theorem exists_splitsEqual : ∃ m : Machine, m.Wf ∧ splitsEqual m = true := by
  have hany : ((programSteps 9 shadowProgram [] "").any fun step => splitsEqual step.post) = true := by
    decide +kernel
  obtain ⟨step, hstep, hsplits⟩ := List.any_eq_true.mp hany
  have hinit := initial_spec shadowProgram [] ""
  obtain ⟨-, hall⟩ := (runProgram_path 9 shadowProgram [] "").invariant_mem (I := Machine.Wf) (C := fun _ => True)
    hinit.wf (fun _ _ => trivial) fun _ _ ht hw => ht.wf hw
  exact ⟨step.post, (hall step hstep).2.2, hsplits⟩

theorem not_reallocates {event : Event} (h : (!decide m.tbl.Grows) = true) : ¬ m.Reallocates event := by
  have hgrows : ¬ m.tbl.Grows := by
    rw [Bool.not_eq_true', decide_eq_false_iff_not] at h
    exact h
  intro hr
  cases event with
  | newSlot index => exact hgrows hr
  | copyFn orig copy => exact hgrows hr
  | _ => exact hr

end Blaze
