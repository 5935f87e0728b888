import Blazescript.Eval.Proofs.DepthProofs

/-!
# Proofs: the steps of the evaluator under other names

The rules of `SameEval`, and the steps: each does the same in two states that differ in names.
-/

namespace Blaze

open Arena Running Tracing

variable {α β α' β' : Type} {ρ ρ' : Naming} {n : Nat} {m m' : Machine} {v v' : Val} {s s' : Nat}
  {x : Eval α} {y : Eval β} {Q Q' : Naming → α → β → Prop} {S : Naming → α' → β' → Prop}

/-! ## Rules -/

theorem SameEval.le (h : SameEval ρ n x y Q) (hle : ρ.Le ρ') : SameEval ρ' n x y Q :=
  fun ρ'' hle' => h ρ'' (hle.trans hle')

theorem SameEval.post (h : SameEval ρ n x y Q) (hQ : ∀ ρ' a b, Q ρ' a b → Q' ρ' a b) : SameEval ρ n x y Q' :=
  fun ρ' hle => (h ρ' hle).post fun _ _ _ _ ⟨ρ'', hle', hm, hq⟩ => ⟨ρ'', hle', hm, hQ _ _ _ hq⟩

theorem same_pure {a : α} {b : β} (h : ∀ ρ', ρ.Le ρ' → Q ρ' a b) : SameEval ρ n (pure a) (pure b) Q :=
  fun ρ' hle => refines_pure fun _ _ hm => ⟨ρ', .refl ρ', hm, h ρ' hle⟩

theorem same_throw (e : Err) : SameEval ρ n (throw e : Eval α) (throw e : Eval β) Q :=
  fun _ _ => refines_throw fun _ _ hm => ⟨rfl, hm.stdout⟩

theorem Naming.Le.printed_iff (h : ρ.Le ρ') : ρ'.Printed m m' ↔ ρ.Printed m m' := by
  unfold Naming.Printed
  rw [h.printed, h.printed']

/-- What comes after a computation that is the same, and need not leave states that are alike. -/
theorem SameEval.bind_refines {f : α → Eval α'} {g : β → Eval β'}
    {T : α' → World Machine Event → β' → World Machine Event → Prop} (h : SameEval ρ n x y Q)
    (hfg : ∀ ρ', ρ.Le ρ' → ∀ a b, Q ρ' a b →
      Refines (fun _ => False) (fun w w' => w.state.Alike ρ' n w'.state) (f a) (g b) T ρ'.SameError) :
    Refines (fun _ => False) (fun w w' => w.state.Alike ρ n w'.state) (x >>= f) (y >>= g) T ρ.SameError :=
  (h ρ (.refl ρ)).bind fun a b w w' ⟨ρ₁, hle₁, hm, hq⟩ =>
    (hfg ρ₁ hle₁ a b hq w w' hm).mono (fun _ _ _ _ ht => ht) fun _ _ _ _ he => ⟨he.1, hle₁.printed_iff.mp he.2⟩

theorem SameEval.bind {f : α → Eval α'} {g : β → Eval β'} (h : SameEval ρ n x y Q)
    (hfg : ∀ ρ', ρ.Le ρ' → ∀ a b, Q ρ' a b → SameEval ρ' n (f a) (g b) S) : SameEval ρ n (x >>= f) (y >>= g) S :=
  fun _ hle => (h.le hle).bind_refines fun ρ₁ hle₁ a b hq =>
    (hfg ρ₁ (hle.trans hle₁) a b hq ρ₁ (.refl ρ₁)).post fun _ _ _ _ ⟨ρ₂, hle₂, hm₂, hs⟩ =>
      ⟨ρ₂, hle₁.trans hle₂, hm₂, hs⟩

theorem same_readOrThrow {e : Err} {f : Machine → Option α} {g : Machine → Option β}
    (h : ∀ ρ', ρ.Le ρ' → ∀ m m', m.Alike ρ' n m' → Option.Rel (Q ρ') (f m) (g m')) :
    SameEval ρ n (Recorder.readOrThrow e f) (Recorder.readOrThrow e g) Q := by
  intro ρ' hle w w' hm
  unfold Recorder.readOrThrow
  rcases rel_cases (h ρ' hle _ _ hm) with ⟨hf, hg⟩ | ⟨a, b, hf, hg, hab⟩
  · simp only [hf, hg]
    exact .error ⟨rfl, hm.stdout⟩
  · simp only [hf, hg]
    exact .ok ⟨ρ', .refl ρ', hm, hab⟩

theorem same_perform {e : Err} {f : Machine → Option (α × Event × Machine)} {g : Machine → Option (β × Event × Machine)}
    (h : ∀ ρ', ρ.Le ρ' → ∀ m m', m.Alike ρ' n m' →
      Option.Rel (fun r r' => ∃ ρ'', ρ'.Le ρ'' ∧ r.2.2.Alike ρ'' n r'.2.2 ∧ Q ρ'' r.1 r'.1) (f m) (g m')) :
    SameEval ρ n (Recorder.perform e f) (Recorder.perform e g) Q := by
  intro ρ' hle w w' hm
  unfold Recorder.perform
  rcases rel_cases (h ρ' hle _ _ hm) with ⟨hf, hg⟩ | ⟨⟨a, event, m⟩, ⟨b, event', m'⟩, hf, hg, hab⟩
  · simp only [hf, hg]
    exact .error ⟨rfl, hm.stdout⟩
  · simp only [hf, hg]
    exact .ok hab

theorem same_act {event event' : Event} {f g : Machine → Option Machine}
    (h : ∀ ρ', ρ.Le ρ' → ∀ m m', m.Alike ρ' n m' →
      Option.Rel (fun m m' => ∃ ρ'', ρ'.Le ρ'' ∧ m.Alike ρ'' n m') (f m) (g m')) :
    SameEval ρ n (act event f) (act event' g) fun _ _ _ => True :=
  same_perform fun ρ' hle m m' hm => rel_map (h ρ' hle m m' hm) fun _ _ ⟨ρ'', hle', hm'⟩ => ⟨ρ'', hle', hm', trivial⟩

/-- A step that gives no names. -/
theorem same_act_of {event event' : Event} {f g : Machine → Option Machine}
    (h : ∀ ρ', ρ.Le ρ' → ∀ m m', m.Alike ρ' n m' → Option.Rel (Machine.Alike ρ' n) (f m) (g m')) :
    SameEval ρ n (act event f) (act event' g) fun _ _ _ => True :=
  same_act fun ρ' hle m m' hm => rel_mono (h ρ' hle m m' hm) fun _ _ hm' => ⟨ρ', .refl ρ', hm'⟩

/-- Results that are values. -/
abbrev ValsAlike (ρ : Naming) (v v' : Val) : Prop := v.Alike ρ v'

/-! ## Values -/

theorem Machine.Alike.result (h : m.Alike ρ n m') (v v' : Val) :
    ({ m with result := v } : Machine).Alike ρ n { m' with result := v' } := { h with }

theorem alike_nullVal (ρ : Naming) : nullVal.Alike ρ nullVal := ⟨.null, rfl, .none⟩

theorem alike_ofData {data data' : ValData} (h : data.Alike ρ data') : (Val.ofData data).Alike ρ (.ofData data') :=
  ⟨h, rfl, .none⟩

theorem giveValue_same (hv : v.Alike ρ v') : SameEval ρ n (giveValue v) (giveValue v') ValsAlike :=
  same_perform fun ρ' hle _ _ hm => .some ⟨ρ', .refl ρ', hm.result _ _, hv.mono hle⟩

theorem getStore_same {f : Store → Option α} {g : Store → Option β}
    (h : ∀ ρ', ρ.Le ρ' → ∀ m m' : Machine, m.Alike ρ' n m' → Option.Rel (Q ρ') (f m.store) (g m'.store)) :
    SameEval ρ n (getStore f) (getStore g) Q := same_readOrThrow h

theorem readString_same (hs : ρ.strings s s') :
    SameEval ρ n (getStore fun store => store.strings.read s) (getStore fun store => store.strings.read s')
      fun _ text text' => text = text' :=
  getStore_same fun _ hle _ _ hm => hm.strings.read (hle.strings _ _ hs)

theorem newString_same (text : String) : SameEval ρ n (newString text) (newString text) fun ρ s s' => ρ.strings s s' :=
  same_perform fun _ _ _ _ hm => .some ⟨_, Naming.le_addString .., hm.addString text, addPair_self ..⟩

theorem vectorInit_same : SameEval ρ n vectorInit vectorInit fun ρ a a' => ρ.vectors a a' :=
  same_perform fun _ _ _ _ hm => .some ⟨_, Naming.le_addVector .., hm.addVector, addPair_self ..⟩

theorem vectorPush_same {a a' : Nat} {slot slot' : Option Nat} (ha : ρ.vectors a a')
    (hs : Option.Rel ρ.slots slot slot') :
    SameEval ρ n (vectorPush a slot) (vectorPush a' slot') fun _ _ _ => True :=
  same_act_of fun _ hle m m' hm => by
    refine rel_map (hm.vectors.read (hle.vectors _ _ ha)) fun data data' hdata => ?_
    have hpushed : List.Forall₂ (Option.Rel _) (data ++ [slot]) (data' ++ [slot']) :=
      List.rel_append hdata (.cons (rel_mono hs hle.slots) .nil)
    exact { hm with vectors := hm.vectors.write (hle.vectors _ _ ha) hpushed }

theorem newSlot_same {data data' : ValData} (hd : data.Alike ρ data') :
    SameEval ρ n (newSlot data) (newSlot data') ValsAlike :=
  same_perform fun _ hle _ _ hm =>
    .some ⟨_, Naming.le_addSlot .., (hm.addSlot (hd.mono hle)).result _ _, (hm.tbl.create (hd.mono hle)).2⟩

theorem readSlot_same {slot slot' : Option Nat} (hs : Option.Rel ρ.slots slot slot') :
    SameEval ρ n (readSlot slot) (readSlot slot') ValsAlike :=
  same_readOrThrow fun _ hle _ _ hm => slotValue_alike hm.sameValues (rel_mono hs hle.slots)

/-! ## Functions -/

theorem copyBody_same (body : List AstNode) :
    SameEval ρ n (copyBody body) (copyBody body) fun _ copy copy' => copy = copy' := by
  unfold copyBody
  cases parserAstDeepCopyAll body with
  | ok copy => exact same_pure fun _ _ => rfl
  | error msg => exact same_throw _

theorem newFn_same (hs : ρ.scopes s s') (body : List AstNode) (paramNames : List String) :
    SameEval ρ n (newFn s body paramNames) (newFn s' body paramNames) ValsAlike :=
  same_perform fun ρ' hle m m' hm => by
    have hscope := hm.addScope (scopeInit_alike hm.builtins (.some (hle.scopes _ _ hs)))
    have hfn : FnVal.Alike (ρ'.addScope m.scopes.size m'.scopes.size) ⟨none, body, paramNames, some m.scopes.size⟩
        ⟨none, body, paramNames, some m'.scopes.size⟩ := ⟨rfl, rfl, rfl, .some (addPair_self ..)⟩
    exact .some ⟨_, (Naming.le_addScope ..).trans (Naming.le_addFn ..), (hscope.addFn hfn).result _ _,
      .function (addPair_self ..), rfl, .none⟩

theorem copyFn_same {orig orig' : Nat} {fn fn' : FnVal} (hfn : fn.Alike ρ fn') (body : List AstNode) :
    SameEval ρ n (copyFn orig fn body) (copyFn orig' fn' body) ValsAlike :=
  same_perform fun ρ' hle m m' hm => by
    have hfn := hfn.mono hle
    rw [hfn.builtInCallback]
    cases hcallback : fn'.builtInCallback with
    | some callback =>
      have hadded := hm.addFn hfn
      have hdata : (ValData.function m.fns.size).Alike (ρ'.addFn m.fns.size m'.fns.size) (.function m'.fns.size) :=
        .function (addPair_self ..)
      exact .some ⟨_, (Naming.le_addFn ..).trans (Naming.le_addSlot ..), (hadded.addSlot hdata).result _ _,
        (hadded.tbl.create hdata).2⟩
    | none =>
      have hscope := hm.addScope (scopeInit_alike hm.builtins hfn.scope)
      have hcopy : FnVal.Alike (ρ'.addScope m.scopes.size m'.scopes.size)
          ⟨none, body, fn.paramNames, some m.scopes.size⟩ ⟨none, body, fn'.paramNames, some m'.scopes.size⟩ :=
        ⟨rfl, rfl, hfn.paramNames, .some (addPair_self ..)⟩
      have hadded := hscope.addFn hcopy
      have hdata : (ValData.function m.fns.size).Alike
          ((ρ'.addScope m.scopes.size m'.scopes.size).addFn m.fns.size m'.fns.size) (.function m'.fns.size) :=
        .function (addPair_self ..)
      exact .some ⟨_, ((Naming.le_addScope ..).trans (Naming.le_addFn ..)).trans (Naming.le_addSlot ..),
        (hadded.addSlot hdata).result _ _, (hadded.tbl.create hdata).2⟩

theorem readFn_same {f f' : Nat} (hf : ρ.fns f f') :
    SameEval ρ n (readFn f) (readFn f') fun ρ fn fn' => fn.Alike ρ fn' :=
  same_readOrThrow fun _ hle _ _ hm => hm.fns.read (hle.fns _ _ hf)

theorem valCopyDeep_same (hv : v.Alike ρ v') : SameEval ρ n (valCopyDeep v) (valCopyDeep v') ValsAlike := by
  unfold valCopyDeep
  have hdata := hv.data
  generalize v.data = data at hdata ⊢
  generalize v'.data = data' at hdata ⊢
  cases hdata with
  | string hs =>
    refine (readString_same hs).bind fun _ _ text text' htext => ?_
    subst htext
    exact (newString_same text).bind fun _ _ _ _ hs => newSlot_same (.string hs)
  | array _ => exact vectorInit_same.bind fun _ _ _ _ ha => newSlot_same (.array ha)
  | function hf =>
    refine (readFn_same hf).bind fun ρ₁ _ fn fn' hfn => ?_
    rw [hfn.builtInCallback, hfn.customBody]
    cases fn'.builtInCallback with
    | some callback => exact copyFn_same hfn []
    | none =>
      refine (copyBody_same _).bind fun ρ₂ hle body body' hbody => ?_
      subst hbody
      exact copyFn_same (hfn.mono hle) body
  | null => exact giveValue_same (alike_nullVal ρ)
  | integer intval => exact newSlot_same (.integer intval)
  | float num den => exact newSlot_same (.float num den)
  | boolean boolval => exact newSlot_same (.boolean boolval)

/-! ## Frames -/

theorem FramesAlike.tail {stack stack' : List Frame} (h : FramesAlike ρ (n + 1) stack stack') :
    FramesAlike ρ n stack.tail stack'.tail := by
  cases stack with
  | nil => exact h.elim
  | cons frame stack =>
    cases stack' with
    | nil => exact h.elim
    | cons frame' stack' => exact h.2

theorem Machine.Alike.locals (h : m.Alike ρ (n + 1) m') : m.locals.Alike ρ m'.locals := by
  have hf := h.frames
  unfold Machine.locals
  cases hs : m.stack with
  | nil =>
    rw [hs] at hf
    exact hf.elim
  | cons frame stack =>
    cases hs' : m'.stack with
    | nil =>
      rw [hs, hs'] at hf
      exact hf.elim
    | cons frame' stack' =>
      rw [hs, hs'] at hf
      exact hf.1

theorem Machine.Alike.withLocals (h : m.Alike ρ (n + 1) m') {l l' : Locals} (hl : l.Alike ρ l') :
    Option.Rel (Machine.Alike ρ (n + 1)) (m.withLocals l) (m'.withLocals l') := by
  have hf := h.frames
  unfold Machine.withLocals
  cases hs : m.stack with
  | nil =>
    rw [hs] at hf
    exact hf.elim
  | cons frame stack =>
    cases hs' : m'.stack with
    | nil =>
      rw [hs, hs'] at hf
      exact hf.elim
    | cons frame' stack' =>
      rw [hs, hs'] at hf
      have hframes : FramesAlike ρ (n + 1) ({ frame with locals := l } :: stack)
          ({ frame' with locals := l' } :: stack') :=
        ⟨hl, hf.2⟩
      exact .some { h with frames := hframes }

/-- A call of `eval` has a frame of its own. -/
theorem callEval_same {rec rec' : Nat → AstNode → Eval Val} {node : AstNode} {body body' : Option Nat}
    (hrec : SameEval ρ (n + 1) (rec s node) (rec' s' node) ValsAlike) :
    SameEval ρ n (callEval rec body s node) (callEval rec' body' s' node) ValsAlike := by
  intro ρ' hle
  unfold callEval
  refine Refines.bind (Q := fun _ w _ w' => w.state.Alike ρ' (n + 1) w'.state) ?_ fun _ _ => ?_
  · intro w w' hm
    have hframes : FramesAlike ρ' (n + 1) (⟨s, node, .none⟩ :: w.state.stack) (⟨s', node, .none⟩ :: w'.state.stack) :=
      ⟨.none, hm.frames⟩
    exact .ok { hm with frames := hframes }
  · refine Refines.bind (hrec ρ' hle) fun v v' => ?_
    refine Refines.bind
      (Q := fun _ w _ w' => ∃ ρ'', ρ'.Le ρ'' ∧ w.state.Alike ρ'' n w'.state ∧ v.Alike ρ'' v') ?_ fun _ _ => ?_
    · rintro w w' ⟨ρ'', hle', hm, hv⟩
      exact .ok ⟨ρ'', hle', { hm with frames := hm.frames.tail }, hv⟩
    · exact refines_pure fun _ _ h => h

theorem openBlock_same (hs : ρ.scopes s s') :
    SameEval ρ (n + 1) (openBlock s) (openBlock s') fun ρ t t' => ρ.scopes t t' :=
  same_perform fun ρ' hle m m' hm => by
    have hscope := hm.addScope (scopeInit_alike hm.builtins (.some (hle.scopes _ _ hs)))
    exact rel_map (hscope.withLocals (.block m.scopes.size m'.scopes.size)) fun _ _ hm' =>
      ⟨_, Naming.le_addScope .., hm', addPair_self ..⟩

theorem openLoop_same (hs : ρ.scopes s s') :
    SameEval ρ (n + 1) (openLoop s) (openLoop s') fun ρ t t' => ρ.scopes t t' :=
  same_perform fun ρ' hle m m' hm => by
    have hinit := scopeInit_alike hm.builtins (.some (hle.scopes _ _ hs))
    have hnew : Scope.Alike ρ'.scopes (Val.Alike ρ')
        { scopeInit m.builtins (some s) with
          allowRedecl := false, mode := .scModeReuse, prevUniqueId := 0, uniqueId := 1, noRedecl := rfl }
        { scopeInit m'.builtins (some s') with
          allowRedecl := false, mode := .scModeReuse, prevUniqueId := 0, uniqueId := 1, noRedecl := rfl } :=
      ⟨hinit.parent, hinit.valmap, rfl, rfl, rfl⟩
    have hscope := hm.addScope hnew
    exact rel_map (hscope.withLocals (.loop m.scopes.size m'.scopes.size)) fun _ _ hm' =>
      ⟨_, Naming.le_addScope .., hm', addPair_self ..⟩

/-- Maps and numbers of a scope change, and not its parent. -/
theorem Machine.Alike.writeScope (h : m.Alike ρ n m') (hs : ρ.scopes s s') {scope scope' new new' : Scope Val}
    (hp : m.scopes.peek s = some scope) (hp' : m'.scopes.peek s' = some scope') (hparent : new.parent = scope.parent)
    (hparent' : new'.parent = scope'.parent) (hnew : new.Alike ρ.scopes (Val.Alike ρ) new') :
    ({ m with scopes := m.scopes.write s new } : Machine).Alike ρ n { m' with scopes := m'.scopes.write s' new' } := by
  have hrooted : ∀ {h : Scopes Val} {s : Nat} {scope new : Scope Val}, Rooted (envOf h).parent → h.peek s = some scope →
      new.parent = scope.parent → Rooted (envOf (h.write s new)).parent := by
    intro h s scope new hr hp hparent t p ht
    refine hr t p ?_
    obtain ⟨scope₁, hscope₁, hpar⟩ := Option.bind_eq_some_iff.mp ht
    rw [Heap.peek_write] at hscope₁
    by_cases hts : t = s
    · subst hts
      rw [if_pos rfl, hp] at hscope₁
      obtain rfl := Option.some.inj hscope₁
      rw [parent_of_peek hp, ← hparent]
      exact hpar
    · rw [if_neg hts] at hscope₁
      rw [parent_of_peek hscope₁]
      exact hpar
  exact { h with
    scopes := h.scopes.write hs hnew
    rooted := hrooted h.rooted hp hparent
    rooted' := hrooted h.rooted' hp' hparent' }

theorem setPrevUniqueId_same (hs : ρ.scopes s s') (counter : Nat) :
    SameEval ρ n (setPrevUniqueId s counter) (setPrevUniqueId s' counter) fun _ _ _ => True :=
  same_act_of fun ρ' hle m m' hm => by
    rcases rel_cases (hm.scopes.read (hle.scopes _ _ hs)) with ⟨hr, hr'⟩ | ⟨scope, scope', hr, hr', hsc⟩
    · rw [hr, hr']
      exact .none
    · rw [hr, hr']
      exact .some (hm.writeScope (hle.scopes _ _ hs) (Heap.read_eq_some.mp hr).2 (Heap.read_eq_some.mp hr').2 rfl rfl
        ⟨hsc.parent, hsc.valmap, hsc.mode, hsc.uniqueId, rfl⟩)

theorem setUniqueId_same (hs : ρ.scopes s s') (counter : Nat) :
    SameEval ρ n (setUniqueId s counter) (setUniqueId s' counter) fun _ _ _ => True :=
  same_act_of fun ρ' hle m m' hm => by
    rcases rel_cases (hm.scopes.read (hle.scopes _ _ hs)) with ⟨hr, hr'⟩ | ⟨scope, scope', hr, hr', hsc⟩
    · rw [hr, hr']
      exact .none
    · rw [hr, hr']
      exact .some (hm.writeScope (hle.scopes _ _ hs) (Heap.read_eq_some.mp hr).2 (Heap.read_eq_some.mp hr').2 rfl rfl
        ⟨hsc.parent, hsc.valmap, hsc.mode, rfl, hsc.prevUniqueId⟩)

theorem closeScope_same (hs : ρ.scopes s s') :
    SameEval ρ (n + 1) (closeScope s) (closeScope s') fun _ _ _ => True :=
  same_act_of fun _ hle _ _ hm => rel_bind (scopeFree_alike hm (hle.scopes _ _ hs)) fun _ _ hm' =>
    (hm'.result nullVal nullVal).withLocals .none

/-! ## Names -/

/-- Other maps, with the same parents. -/
theorem Machine.Alike.maps (h : m.Alike ρ n m') {scopes scopes' : Scopes Val}
    (hs : ScopesAlike ρ.scopes (Val.Alike ρ) scopes scopes') (hmaps : MapsOnly m.scopes scopes)
    (hmaps' : MapsOnly m'.scopes scopes') :
    ({ m with scopes := scopes } : Machine).Alike ρ n { m' with scopes := scopes' } := by
  have hrooted : Rooted (envOf scopes).parent := by
    rw [hmaps.parent]
    exact h.rooted
  have hrooted' : Rooted (envOf scopes').parent := by
    rw [hmaps'.parent]
    exact h.rooted'
  exact { h with scopes := hs, rooted := hrooted, rooted' := hrooted' }

theorem scopeDeclare_same (hm : m.Alike ρ n m') (hs : ρ.scopes s s')
    (hv : v.Alike ρ v') (name : String) (isConst : Bool) :
    Option.Rel (fun r r' => r.1 = r'.1 ∧
        ({ m with scopes := r.2.2 } : Machine).Alike ρ n { m' with scopes := r'.2.2 })
      (scopeDeclareIdentifier m.scopes s name v isConst) (scopeDeclareIdentifier m'.scopes s' name v' isConst) := by
  rcases rel_cases (scopeDeclareIdentifier_alike (k := name) hm.scopes hs hv isConst) with
    ⟨hd, hd'⟩ | ⟨r, r', hd, hd', hstatus, hscopes⟩
  · rw [hd, hd']
    exact .none
  · rw [hd, hd']
    exact .some ⟨hstatus, hm.maps hscopes (scopeDeclareIdentifier_spec hd).2.1 (scopeDeclareIdentifier_spec hd').2.1⟩

theorem declareIdentifier_same (hs : ρ.scopes s s') (hv : v.Alike ρ v') (name : String) (isConst : Bool) :
    SameEval ρ n (declareIdentifier s name v isConst) (declareIdentifier s' name v' isConst)
      fun _ status status' => status = status' :=
  same_perform fun ρ' hle _ _ hm => rel_map (scopeDeclare_same hm (hle.scopes _ _ hs) (hv.mono hle) name isConst)
    fun _ _ ⟨hstatus, hm'⟩ => ⟨ρ', .refl ρ', hm', hstatus⟩

theorem declareParam_same (hs : ρ.scopes s s') (hv : v.Alike ρ v') (name : String) :
    SameEval ρ n (declareParam s name v) (declareParam s' name v') fun _ status status' => status = status' :=
  same_perform fun ρ' hle _ _ hm => rel_map (scopeDeclare_same hm (hle.scopes _ _ hs) (hv.mono hle) name true)
    fun _ _ ⟨hstatus, hm'⟩ => ⟨ρ', .refl ρ', hm', hstatus⟩

theorem setDefaultIn_same (hs : ρ.scopes s s') (hv : v.Alike ρ v') (name : String) (isConst : Bool) :
    SameEval ρ n (setDefaultIn s name v isConst) (setDefaultIn s' name v' isConst) fun _ _ _ => True :=
  same_act_of fun _ hle _ _ hm => by
    rcases rel_cases (scopeSetDefault_alike (k := name) hm.scopes (hle.scopes _ _ hs) (hv.mono hle) isConst) with
      ⟨hd, hd'⟩ | ⟨r, r', hd, hd', hscopes⟩
    · rw [hd, hd']
      exact .none
    · rw [hd, hd']
      exact .some (hm.maps hscopes (scopeSetDefault_spec hd).2.1 (scopeSetDefault_spec hd').2.1)

theorem assignIdentifier_same (hs : ρ.scopes s s') (hv : v.Alike ρ v') (name : String) :
    SameEval ρ n (assignIdentifier s name v) (assignIdentifier s' name v') fun _ status status' => status = status' :=
  same_perform fun ρ' hle _ _ hm => by
    rcases rel_cases (scopeAssignIdentifier_alike (k := name) hm.scopes hm.rooted hm.rooted' (hle.scopes _ _ hs)
      (hv.mono hle)) with ⟨hd, hd'⟩ | ⟨r, r', hd, hd', hstatus, hscopes⟩
    · rw [hd, hd']
      exact .none
    · rw [hd, hd']
      exact .some ⟨ρ', .refl ρ', hm.maps hscopes (assignFrom_spec hm.rooted hd).1 (assignFrom_spec hm.rooted' hd').1,
        hstatus⟩

theorem resolveIdentifier_same (hs : ρ.scopes s s') (name : String) :
    SameEval ρ n (resolveIdentifier s name) (resolveIdentifier s' name)
      fun ρ val val' => Option.Rel (EntryPtr.Alike ρ.scopes) val val' :=
  same_readOrThrow fun _ hle _ _ hm =>
    scopeResolveIdentifier_alike hm.scopes hm.rooted hm.rooted' (hle.scopes _ _ hs)

section Pointers

variable {val val' : EntryPtr} (hval : val.Alike ρ.scopes val')
include hval

theorem derefEntry_same : SameEval ρ n (derefEntry val) (derefEntry val') ValsAlike :=
  same_readOrThrow fun _ hle _ _ hm => rel_map (readEntry_alike hm.scopes (hval.mono hle)) fun _ _ he => he.1

/-! ## Calls -/

omit hval in
theorem beginCall_same (val val' : EntryPtr) :
    SameEval ρ (n + 1) (beginCall val) (beginCall val') fun _ _ _ => True :=
  same_act_of fun _ _ _ _ hm => hm.withLocals (.call none none .nil)

omit hval in
/-- A read through a pointer is only noted. -/
theorem use_same (val val' : EntryPtr) : SameEval ρ n (act (.use val) some) (act (.use val') some) fun _ _ _ => True :=
  same_act_of fun _ _ _ _ hm => .some hm

theorem derefVal_same : SameEval ρ n (derefVal val) (derefVal val') ValsAlike :=
  (use_same val val').bind fun _ hle _ _ _ => derefEntry_same (hval.mono hle)

omit hval in
theorem fnOf_alike (hm : m.Alike ρ n m') (hv : v.Alike ρ v') :
    Option.Rel (fun g g' => ρ.fns g.1 g'.1 ∧ g.2.Alike ρ g'.2) (m.fnOf v) (m'.fnOf v') := by
  unfold Machine.fnOf
  have hdata := hv.data
  generalize v.data = data at hdata ⊢
  generalize v'.data = data' at hdata ⊢
  cases hdata with
  | function hf => exact rel_map (hm.fns.read hf) fun _ _ hfn => ⟨hf, hfn⟩
  | _ => exact .none

theorem callee_same :
    SameEval ρ n (callee val) (callee val') fun ρ g g' => ρ.fns g.1 g'.1 ∧ g.2.Alike ρ g'.2 :=
  (use_same val val').bind fun _ hle _ _ _ => same_readOrThrow fun _ hle' _ _ hm =>
    rel_bind (readEntry_alike hm.scopes (hval.mono (hle.trans hle'))) fun _ _ he => fnOf_alike hm he.1

end Pointers

theorem storeArg_same (hv : v.Alike ρ v') : SameEval ρ (n + 1) (storeArg v) (storeArg v') fun _ _ _ => True :=
  same_act_of fun _ hle m m' hm => by
    have hl := hm.locals
    generalize m.locals = l at hl ⊢
    generalize m'.locals = l' at hl ⊢
    cases hl with
    | call _ _ hargs => exact hm.withLocals (.call _ _ (List.rel_append hargs (.cons (hv.mono hle) .nil)))
    | _ => exact .none

theorem callArgs_same :
    SameEval ρ (n + 1) callArgs callArgs fun ρ args args' => List.Forall₂ (Val.Alike ρ) args args' :=
  same_readOrThrow fun _ _ m m' hm => by
    have hl := hm.locals
    generalize m.locals = l at hl ⊢
    generalize m'.locals = l' at hl ⊢
    cases hl with
    | call _ _ hargs => exact .some hargs
    | _ => exact .none

theorem activate_same (f f' s s' : Nat) : SameEval ρ (n + 1) (activate f s) (activate f' s') fun _ _ _ => True :=
  same_act_of fun _ _ m m' hm => by
    have hl := hm.locals
    generalize m.locals = l at hl ⊢
    generalize m'.locals = l' at hl ⊢
    cases hl with
    | call _ _ hargs => exact hm.withLocals (.call _ _ hargs)
    | builtin _ _ hargs => exact hm.withLocals (.builtin _ _ hargs)
    | _ => exact .none

theorem Locals.Alike.activate {l l' : Locals} (h : l.Alike ρ l') (activation activation' : Option (Nat × Nat)) :
    (l.activate activation).Alike ρ (l'.activate activation') := by
  cases h with
  | none => exact .none
  | block => exact .block _ _
  | loop => exact .loop _ _
  | call _ _ hargs => exact .call _ _ hargs
  | builtin _ _ hargs => exact .builtin _ _ hargs

theorem rescopes_same {f f' : Nat} (hf : ρ.fns f f') (hs : ρ.scopes s s') :
    SameEval ρ (n + 1) (rescope f s) (rescope f' s') fun _ _ _ => True :=
  same_act fun ρ' hle m m' hm => by
    have hf := hle.fns _ _ hf
    refine rel_bind (hm.fns.read hf) fun fn fn' hfn => ?_
    have hscope := hm.addScope (scopeInit_alike hm.builtins (.some (hle.scopes _ _ hs)))
    have hfn' := hfn.mono (ρ'.le_addScope m.scopes.size m'.scopes.size)
    have hnew : FnVal.Alike (ρ'.addScope m.scopes.size m'.scopes.size) { fn with scope := some m.scopes.size }
        { fn' with scope := some m'.scopes.size } :=
      ⟨hfn'.builtInCallback, hfn'.customBody, hfn'.paramNames, .some (addPair_self ..)⟩
    have hwritten : ({ m with
          scopes := m.scopes.alloc (scopeInit m.builtins (some s))
          fns := m.fns.write f { fn with scope := some m.scopes.size } } : Machine).Alike
        (ρ'.addScope m.scopes.size m'.scopes.size) (n + 1)
        { m' with
          scopes := m'.scopes.alloc (scopeInit m'.builtins (some s'))
          fns := m'.fns.write f' { fn' with scope := some m'.scopes.size } } :=
      { hscope with fns := hscope.fns.write hf hnew }
    exact rel_mono (hwritten.withLocals ((hm.locals.mono (ρ'.le_addScope ..)).activate none none))
      fun _ _ hm' => ⟨_, Naming.le_addScope .., hm'⟩

theorem beginBuiltin_same :
    SameEval ρ (n + 1) beginBuiltin beginBuiltin fun ρ args args' => List.Forall₂ (Val.Alike ρ) args args' :=
  same_perform fun ρ' _ m m' hm => by
    have hl := hm.locals
    generalize m.locals = l at hl ⊢
    generalize m'.locals = l' at hl ⊢
    cases hl with
    | call _ _ hargs =>
      exact rel_map (hm.withLocals (.builtin none none hargs)) fun _ _ hm' => ⟨ρ', .refl ρ', hm', hargs⟩
    | _ => exact .none

end Blaze
