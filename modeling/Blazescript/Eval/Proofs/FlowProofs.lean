import Blazescript.Eval.Flow
import Blazescript.Eval.Proofs.ShapeProofs
import Blazescript.Running.Proofs.KeptProofs

/-!
# Proofs: where values go

Each function of the evaluator makes elementary changes only, and so keeps what these keep.
-/

namespace Blaze

open Arena Environment Running Tracing

variable {I : Machine → Prop} {Q : Val → Prop} {S V : Nat → Prop} {m m' : Machine} {w w' : World Machine Event}
  {α : Type} {R : α → Prop}

/-! ## Steps -/

theorem act_ok {event : Event} {f : Machine → Option Machine} {u : Unit} (h : act event f w = .ok u w') :
    f w.state = some w'.state := by
  obtain ⟨event', hf⟩ := perform_eq_ok h
  obtain ⟨m, hm, heq⟩ := Option.map_eq_some_iff.mp hf
  cases heq
  exact hm

theorem upholds_perform {f : Machine → Option (α × Event × Machine)}
    (h : ∀ m a event m', I m → f m = some (a, event, m') → I m' ∧ R a) :
    Upholds I (Recorder.perform .undefined f : Eval α) R := by
  intro w a w' hw hx
  obtain ⟨event, hf⟩ := perform_eq_ok hx
  exact h _ _ _ _ hw hf

theorem upholds_act {event : Event} {f : Machine → Option Machine} (h : ∀ m m', I m → f m = some m' → I m') :
    Upholds I (act event f) fun _ => True := by
  intro w u w' hw hx
  exact ⟨h _ _ hw (act_ok hx), trivial⟩

theorem upholds_read {f : Machine → Option α} (h : ∀ m a, I m → f m = some a → R a) :
    Upholds I (Recorder.readOrThrow .undefined f : Eval α) R := by
  intro w a w' hw hx
  obtain ⟨hf, rfl⟩ := readOrThrow_eq_ok hx
  exact ⟨hw, h _ _ hw hf⟩

theorem getStore_upholds {f : Store → Option α} : Upholds I (getStore f) fun _ => True :=
  upholds_read fun _ _ _ _ => trivial

/-! ## Names -/

theorem scopeInit_binding {builtins : List (String × Val)} {parent : Option Nat} {k : String} {v : Val} {c : Bool}
    (h : (scopeInit builtins parent).valmap.binding k = some (v, c)) : ∃ b ∈ builtins, b.2 = v := by
  cases parent with
  | none =>
    have hnone := h.symm.trans (Valmap.binding_initDefault k)
    cases hnone
  | some p =>
    rw [(scopeInit_child builtins p).2] at h
    obtain ⟨u, hu, heq⟩ := Option.map_eq_some_iff.mp h
    cases heq
    obtain ⟨l₁, l₂, hl, -⟩ := List.lookup_eq_some_iff.mp hu
    exact ⟨(k, v), by simp [hl], rfl⟩

/-- A new scope binds built-in functions only. -/
theorem bound_alloc {scope : Scope Val} {parent : Option Nat} (hscopes : m'.scopes = m.scopes.alloc scope)
    (hvalmap : scope.valmap = (scopeInit m.builtins parent).valmap) {v : Val} (hv : m'.Bound v) : m.Named v := by
  obtain ⟨s, name, c, hl, hb⟩ := hv
  rw [hscopes, Heap.isLive_alloc] at hl
  have hb' : (envOf m'.scopes).vars s name = some (v, c) := hb
  rw [hscopes, alloc_vars] at hb'
  by_cases hs : s = m.scopes.size
  · rw [if_pos hs, hvalmap] at hb'
    exact .inr (.inr (scopeInit_binding hb'))
  · rw [if_neg hs] at hb'
    rw [decide_eq_false hs, Bool.false_or] at hl
    exact .inl ⟨s, name, c, hl, hb'⟩

/-- A scope gets another value at most. -/
theorem bound_bind {h : Scopes Val} {s : Nat} {name : String} {value : Val} {c : Bool} (hscopes : m'.scopes = h)
    (hlive : ∀ t, h.isLive t = m.scopes.isLive t)
    (henv : envOf h = m.env ∨ envOf h = m.env.bind s name (value, c)) {v : Val} (hv : m'.Bound v) :
    m.Bound v ∨ v = value := by
  obtain ⟨t, k, c', hl, hb⟩ := hv
  have hb' : (envOf m'.scopes).vars t k = some (v, c') := hb
  rw [hscopes] at hl hb'
  rw [hlive] at hl
  rcases henv with henv | henv
  · rw [henv] at hb'
    exact .inl ⟨t, k, c', hl, hb'⟩
  · rw [henv, Env.vars_bind] at hb'
    by_cases ht : t = s ∧ k = name
    · rw [if_pos ht] at hb'
      cases hb'
      exact .inr rfl
    · rw [if_neg ht] at hb'
      exact .inl ⟨t, k, c', hl, hb'⟩

theorem assignFrom_bound {name : String} {value : Val} : ∀ {fuel s : Nat} {h : Scopes Val}
    {r : ValmapSetStatus × Scopes Val}, assignFrom h name value fuel s = some r →
      (∀ t, r.2.isLive t = h.isLive t) ∧
        ∀ t k v c, (envOf r.2).vars t k = some (v, c) → (envOf h).vars t k = some (v, c) ∨ v = value := by
  intro fuel
  induction fuel with
  | zero =>
    intro s h r h0
    cases h0
  | succ fuel ih =>
    intro s h r h0
    obtain ⟨scope, hread, hrest⟩ := Option.bind_eq_some_iff.mp h0
    have hp := (Heap.read_eq_some.mp hread).2
    obtain ⟨-, henv, -⟩ := setNoCreate_here hp name value
    have honly := setMap_only (scope.valmap.setNoCreate name value false false).valmap hp
    -- the map of this scope keeps its values, or gets the new one
    have hhere : ∀ t k v c,
        (envOf (setMap h s scope (scope.valmap.setNoCreate name value false false).valmap)).vars t k = some (v, c) →
          (envOf h).vars t k = some (v, c) ∨ v = value := by
      intro t k v c hb
      rw [henv] at hb
      rcases hv : (envOf h).vars s name with _ | ⟨old, _ | _⟩
      · rw [hv] at hb
        exact .inl hb
      · rw [hv] at hb
        simp only [Env.vars_bind] at hb
        by_cases ht : t = s ∧ k = name
        · rw [if_pos ht] at hb
          cases hb
          exact .inr rfl
        · rw [if_neg ht] at hb
          exact .inl hb
      · rw [hv] at hb
        exact .inl hb
    rw [assignFrom_succ hread rfl] at h0
    split at h0
    · obtain ⟨hlive, hvars⟩ := ih h0
      refine ⟨fun t => (hlive t).trans (honly.live t), fun t k v c hb => ?_⟩
      rcases hvars t k v c hb with hb | hb
      · exact hhere t k v c hb
      · exact .inr hb
    · cases h0
      exact ⟨honly.live, hhere⟩

theorem withLocals_eq_some {locals : Locals} (h : m.withLocals locals = some m') :
    ∃ frame stack, m.stack = frame :: stack ∧ m' = { m with stack := { frame with locals := locals } :: stack } := by
  unfold Machine.withLocals at h
  cases hs : m.stack with
  | nil =>
    rw [hs] at h
    cases h
  | cons frame stack =>
    rw [hs] at h
    cases h
    exact ⟨frame, stack, rfl, rfl⟩

section Invariant

variable (hI : Invariant I Q S V)
include hI

/-! ## Elementary changes -/

/-- The slots, the strings and the vectors are as they were, and what gets a name is of the kind. -/
theorem Invariant.frame (hm : I m) (htbl : m'.tbl = m.tbl) (hstrings : m'.store.strings = m.store.strings)
    (hvectors : m'.store.vectors = m.store.vectors) (hbound : ∀ v, m'.Bound v → Q v) (hargs : ∀ frame ∈ m'.stack, ∀ v ∈ frame.locals.args, Q v)
    (hbuiltins : m'.builtins = m.builtins) : I m' := by
  refine hI.change m m' hm (.frame htbl hstrings hvectors fun v hv => ?_)
  rcases hv with hv | ⟨frame, hf, hv⟩ | ⟨b, hb, rfl⟩
  · exact hbound v hv
  · exact hargs frame hf v hv
  · rw [hbuiltins] at hb
    exact hI.named m _ hm (.inr (.inr ⟨b, hb, rfl⟩))

theorem Invariant.bound (hm : I m) {v : Val} (hv : m.Bound v) : Q v := hI.named m v hm (.inl hv)

theorem Invariant.args (hm : I m) {frame : Frame} (hf : frame ∈ m.stack) {v : Val} (hv : v ∈ frame.locals.args) :
    Q v := hI.named m v hm (.inr (.inl ⟨frame, hf, hv⟩))

theorem Invariant.result (hm : I m) (v : Val) : I { m with result := v } :=
  hI.frame hm rfl rfl rfl (fun _ hv => hI.bound hm hv) (fun _ hf _ hv => hI.args hm hf hv) rfl

theorem Invariant.fns (hm : I m) (fns : Heap FnVal) : I { m with fns := fns } :=
  hI.frame hm rfl rfl rfl (fun _ hv => hI.bound hm hv) (fun _ hf _ hv => hI.args hm hf hv) rfl

theorem Invariant.opened (hm : I m) {scope : Scope Val} (parent : Option Nat)
    (hvalmap : scope.valmap = (scopeInit m.builtins parent).valmap) :
    I { m with scopes := m.scopes.alloc scope } :=
  hI.frame hm rfl rfl rfl (fun v hv => hI.named m v hm (bound_alloc rfl hvalmap hv))
    (fun _ hf _ hv => hI.args hm hf hv) rfl

theorem Invariant.bind (hm : I m) {h : Scopes Val} {s : Nat} {name : String} {value : Val} {c : Bool}
    (hlive : ∀ t, h.isLive t = m.scopes.isLive t) (henv : envOf h = m.env ∨ envOf h = m.env.bind s name (value, c))
    (hvalue : Q value) : I { m with scopes := h } := by
  refine hI.frame hm rfl rfl rfl (fun v hv => ?_) (fun _ hf _ hv => hI.args hm hf hv) rfl
  rcases bound_bind rfl hlive henv hv with hv | rfl
  · exact hI.bound hm hv
  · exact hvalue

theorem Invariant.stack (hm : I m) (stack : List Frame) (hargs : ∀ frame ∈ stack, ∀ v ∈ frame.locals.args, Q v) :
    I { m with stack := stack } :=
  hI.frame hm rfl rfl rfl (fun _ hv => hI.bound hm hv) hargs rfl

theorem Invariant.locals (hm : I m) {locals : Locals} (h : m.withLocals locals = some m')
    (hargs : ∀ v ∈ locals.args, Q v) : I m' := by
  obtain ⟨frame, stack, hs, rfl⟩ := withLocals_eq_some h
  refine hI.stack hm _ fun frame' hf v hv => ?_
  rcases List.mem_cons.mp hf with rfl | hf
  · exact hargs v hv
  · exact hI.args hm (hs ▸ List.mem_cons_of_mem _ hf) hv

theorem Invariant.innermost (hm : I m) {v : Val} (hv : v ∈ m.locals.args) : Q v := by
  unfold Machine.locals at hv
  cases hs : m.stack with
  | nil =>
    rw [hs] at hv
    cases hv
  | cons frame stack =>
    rw [hs] at hv
    exact hI.args hm (hs ▸ List.mem_cons_self ..) hv

/-! ## Values -/

theorem giveValue_upholds {v : Val} (hv : Q v) : Upholds I (giveValue v) Q :=
  upholds_perform fun m a event m' hm hf => by
    cases hf
    exact ⟨hI.result hm _, hv⟩

theorem givePlain_upholds (data : ValData) : Upholds I (giveValue (.ofData data)) Q :=
  giveValue_upholds hI (hI.plain _ rfl)

theorem giveNull_upholds : Upholds I (giveValue nullVal) Q := giveValue_upholds hI (hI.plain _ rfl)

theorem updateStore_upholds {f : Store → Store}
    (h : ∀ store, (f store).strings = store.strings ∧ (f store).vectors = store.vectors) :
    Upholds I (updateStore f) fun _ => True :=
  upholds_act fun m m' hm hf => by
    cases hf
    exact hI.frame hm rfl (h m.store).1 (h m.store).2 (fun _ hv => hI.bound hm hv) (fun _ hf _ hv => hI.args hm hf hv) rfl

theorem newString_upholds (text : String) : Upholds I (newString text) fun _ => True :=
  upholds_perform fun m a event m' hm hf => by
    cases hf
    exact ⟨hI.change _ _ hm (.string m text), trivial⟩

theorem vectorInit_upholds : Upholds I vectorInit V :=
  upholds_perform fun m a event m' hm hf => by
    cases hf
    exact ⟨hI.change _ _ hm (.vector m), hI.vector m hm⟩

theorem vectorPush_upholds {vector : Nat} {slot : Option Nat} (hv : V vector) :
    Upholds I (vectorPush vector slot) fun _ => True :=
  upholds_act fun m m' hm hf => by
    obtain ⟨slots, hread, rfl⟩ := Option.map_eq_some_iff.mp hf
    exact hI.change _ _ hm (.push m vector slots slot hv hread)

/-- A value in a slot, which may hold a string or a vector of the kind. -/
theorem Invariant.created (hm : I m) {data : ValData} (hs : ∀ s, data = .string s → S s ∧ s < m.store.strings.size)
    (ha : ∀ a, data = .array a → V a ∧ a < m.store.vectors.size) :
    I { m with tbl := (m.tbl.create data).2, result := (m.tbl.create data).1 } :=
  hI.result (hI.change _ _ hm (.slot m data hs ha)) _

theorem newSlot_upholds {data : ValData} (hs : ∀ s, data ≠ .string s) (ha : ∀ a, data ≠ .array a) :
    Upholds I (newSlot data) Q :=
  upholds_perform fun m a event m' hm hf => by
    cases hf
    exact ⟨hI.created hm (fun s h => absurd h (hs s)) fun a h => absurd h (ha a), hI.slot m data hm⟩

/-- A new string in a slot. -/
theorem stringSlot_upholds (text : String) : Upholds I (newString text >>= fun s => newSlot (.string s)) Q := by
  intro w v w' hw h
  obtain ⟨s, w₁, hstring, hslot⟩ := bind_eq_ok h
  have hnew := hI.string w.state hw
  cases hstring
  cases hslot
  have hw₁ := hI.change _ _ hw (.string w.state text)
  refine ⟨hI.created hw₁ (fun s hs => ?_) (fun a ha => by cases ha), hI.slot _ _ hw₁⟩
  cases hs
  exact ⟨hnew, by simp⟩

/-- A new vector in a slot. -/
theorem vectorSlot_upholds : Upholds I (vectorInit >>= fun a => newSlot (.array a)) Q := by
  intro w v w' hw h
  obtain ⟨a, w₁, hvector, hslot⟩ := bind_eq_ok h
  have hnew := hI.vector w.state hw
  cases hvector
  cases hslot
  have hw₁ := hI.change _ _ hw (.vector w.state)
  refine ⟨hI.created hw₁ (fun s hs => by cases hs) fun a ha => ?_, hI.slot _ _ hw₁⟩
  cases ha
  exact ⟨hnew, by simp⟩

theorem copyFn_upholds {orig : Nat} {fn : FnVal} {body : List AstNode} : Upholds I (copyFn orig fn body) Q := by
  have hslot : ∀ m, I m → I { m with
      tbl := (m.tbl.create (.function m.fns.size)).2, result := (m.tbl.create (.function m.fns.size)).1 } :=
    fun m hm => hI.created hm (fun s h => by cases h) fun a h => by cases h
  refine upholds_perform fun m a event m' hm hf => ?_
  have hm₁ := hslot m hm
  cases hcallback : fn.builtInCallback with
  | some callback =>
    simp only [hcallback] at hf
    cases hf
    exact ⟨hI.fns hm₁ _, hI.slot m _ hm⟩
  | none =>
    simp only [hcallback] at hf
    cases hf
    exact ⟨hI.fns (hI.opened hm₁ fn.scope rfl) _, hI.slot m _ hm⟩

theorem newFn_upholds {scope : Nat} {body : List AstNode} {paramNames : List String} :
    Upholds I (newFn scope body paramNames) Q :=
  upholds_perform fun m a event m' hm hf => by
    cases hf
    exact ⟨hI.result (hI.fns (hI.opened hm (some scope) rfl) _) _, hI.plain _ rfl⟩

omit hI in
theorem copyBody_upholds (body : List AstNode) : Upholds I (copyBody body) fun _ => True := by
  unfold copyBody
  split
  · exact keeps_pure trivial
  · exact keeps_throw

theorem valCopyDeep_upholds (orig : Val) : Upholds I (valCopyDeep orig) Q := by
  unfold valCopyDeep
  split
  · exact giveNull_upholds hI
  · exact getStore_upholds.bind fun text _ => stringSlot_upholds hI text
  · exact vectorSlot_upholds hI
  · refine (upholds_read fun _ _ _ _ => trivial : Upholds I _ fun _ => True).bind fun fn _ => ?_
    split
    · exact copyFn_upholds hI
    · exact (copyBody_upholds _).bind fun body _ => copyFn_upholds hI
  · rename_i hnull hstring harray hfunction
    exact newSlot_upholds hI hstring harray

/-! ## `scope_free` -/

section Free

variable {freeScope : Machine → Nat → Option Machine} (hfree : ∀ m s m', I m → freeScope m s = some m' → I m')
include hfree

theorem valFreeForceNoRoot_keeps (hm : I m) {v u : Val} {index : Nat} (hv : Q v) (hp : v.selfPtr = some index)
    (hu : m.tbl.values[index]? = some u) (h : Machine.valFreeForceNoRoot freeScope m u = some m') : I m' := by
  unfold Machine.valFreeForceNoRoot at h
  by_cases hn : u.nofree = true
  · rw [if_pos hn] at h
    cases h
    exact hm
  rw [if_neg hn] at h
  cases hd : u.data with
  | string s =>
    simp only [hd] at h
    by_cases hl : m.store.strings.isLive s = true
    · rw [if_pos hl] at h
      cases h
      exact hI.change _ _ hm (.freeString m index s v u hv hp hu hd)
    · rw [if_neg hl] at h
      cases h
  | array a =>
    simp only [hd] at h
    by_cases hl : m.store.vectors.isLive a = true
    · rw [if_pos hl] at h
      cases h
      exact hI.change _ _ hm (.freeVector m index a v u hv hp hu hd)
    · rw [if_neg hl] at h
      cases h
  | function f =>
    simp only [hd] at h
    obtain ⟨fn, hfn, h⟩ := Option.bind_eq_some_iff.mp h
    cases hcallback : fn.builtInCallback with
    | some callback =>
      simp only [hcallback] at h
      cases h
      exact hm
    | none =>
      cases hscope : fn.scope with
      | some s =>
        simp only [hcallback, hscope] at h
        exact hfree _ _ _ (hI.fns hm _) h
      | none =>
        simp only [hcallback, hscope] at h
        cases h
        exact hI.fns hm _
  | _ =>
    simp only [hd] at h
    cases h
    exact hm

theorem valmapFreeValue_keeps (hm : I m) {v : Val} (hv : Q v)
    (h : Machine.valmapFreeValue freeScope m v = some m') : I m' := by
  unfold Machine.valmapFreeValue at h
  by_cases hd : v.data ≠ .null ∧ v.nofree = false
  · rw [if_pos hd] at h
    cases hp : v.selfPtr with
    | none =>
      simp only [hp] at h
      cases h
      exact hm
    | some index =>
      simp only [hp] at h
      obtain ⟨u, hu, h⟩ := Option.bind_eq_some_iff.mp h
      obtain ⟨m₁, hm₁, heq⟩ := Option.map_eq_some_iff.mp h
      cases heq
      have hlist := hI.change _ _ hm (.list m index v hv hp)
      exact hI.change _ _ (valFreeForceNoRoot_keeps hI hfree hlist hv hp hu hm₁) (.clear m₁ index v _ hv hp rfl)
  · rw [if_neg hd] at h
    cases h
    exact hm

theorem valmapFreeValues_keeps {values : List Val} (hvalues : ∀ v ∈ values, Q v) (hm : I m)
    (h : values.foldlM (Machine.valmapFreeValue freeScope) m = some m') : I m' := by
  induction values generalizing m with
  | nil =>
    cases h
    exact hm
  | cons v values ih =>
    rw [List.foldlM_cons] at h
    obtain ⟨m₁, hm₁, h⟩ := Option.bind_eq_some_iff.mp h
    have hv := hvalues v (List.mem_cons_self ..)
    exact ih (fun u hu => hvalues u (List.mem_cons_of_mem _ hu)) (valmapFreeValue_keeps hI hfree hm hv hm₁) h

end Free

theorem scopeFreeFrom_keeps (fuel : Nat) : ∀ m s m', I m → Machine.scopeFreeFrom fuel m s = some m' → I m' := by
  induction fuel with
  | zero =>
    intro m s m' hm h
    cases h
  | succ fuel ih =>
    intro m s m' hm h
    obtain ⟨scope, hread, h⟩ := Option.bind_eq_some_iff.mp h
    obtain ⟨m₁, hm₁, h⟩ := Option.bind_eq_some_iff.mp h
    obtain ⟨hl, hp⟩ := Heap.read_eq_some.mp hread
    have hvalues : ∀ v ∈ scope.valmap.values, Q v := by
      intro v hv
      obtain ⟨name, c, hb⟩ := Valmap.mem_values.mp hv
      exact hI.bound hm ⟨s, name, c, hl, (vars_of_peek hp name).trans hb⟩
    have hI₁ := valmapFreeValues_keeps hI ih hvalues hm hm₁
    by_cases hlive : m₁.scopes.isLive s = true
    · rw [if_pos hlive] at h
      cases h
      refine hI.frame hI₁ rfl rfl rfl (fun v hv => ?_) (fun _ hf _ hv => hI.args hI₁ hf hv) rfl
      obtain ⟨t, name, c, ht, hb⟩ := hv
      have hfreed := freed_scope m₁ s
      rw [hfreed.live, Bool.and_eq_true] at ht
      refine hI.bound hI₁ ⟨t, name, c, ht.1, ?_⟩
      rw [← hfreed.env]
      exact hb
    · rw [if_neg hlive] at h
      cases h

/-! ## Scopes and frames -/

theorem callEval_upholds {rec : Nat → AstNode → Eval Val} (hrec : EvalUpholds I Q rec) {body : Option Nat}
    {scope : Nat} {node : AstNode} : Upholds I (callEval rec body scope node) Q := by
  refine (upholds_act fun m m' hm hf => ?_).bind fun _ _ => (hrec scope node).bind fun v hv =>
    (upholds_act fun m m' hm hf => ?_).bind fun _ _ => keeps_pure hv
  · cases hf
    refine hI.stack hm _ fun frame hf v hv => ?_
    rcases List.mem_cons.mp hf with rfl | hf
    · cases hv
    · exact hI.args hm hf hv
  · cases hf
    exact hI.stack hm _ fun frame hf v hv => hI.args hm (List.mem_of_mem_tail hf) hv

theorem openBlock_upholds {scope : Nat} : Upholds I (openBlock scope) fun _ => True :=
  upholds_perform fun m a event m' hm hf => by
    obtain ⟨m₁, hm₁, heq⟩ := Option.map_eq_some_iff.mp hf
    cases heq
    exact ⟨hI.locals (hI.opened hm (some scope) rfl) hm₁ fun v hv => (List.not_mem_nil hv).elim, trivial⟩

theorem openLoop_upholds {scope : Nat} : Upholds I (openLoop scope) fun _ => True :=
  upholds_perform fun m a event m' hm hf => by
    obtain ⟨m₁, hm₁, heq⟩ := Option.map_eq_some_iff.mp hf
    cases heq
    refine ⟨hI.locals ?_ hm₁ fun v hv => (List.not_mem_nil hv).elim, trivial⟩
    exact hI.opened hm (some scope) rfl

/-- The fields of a loop do not matter. -/
theorem loopIds_upholds {s : Nat} {f : Scope Val → Scope Val} (hf : ∀ scope, (f scope).valmap = scope.valmap) :
    Upholds I (act (.loopIds s) fun m => (m.scopes.read s).map fun scope =>
      { m with scopes := m.scopes.write s (f scope) }) fun _ => True :=
  upholds_act fun m m' hm h => by
    obtain ⟨scope, hread, rfl⟩ := Option.map_eq_some_iff.mp h
    refine hI.frame hm rfl rfl rfl (fun v hv => ?_) (fun _ hf _ hv => hI.args hm hf hv) rfl
    obtain ⟨t, name, c, hl, hb⟩ := hv
    have hp := (Heap.read_eq_some.mp hread).2
    rw [Heap.isLive_write] at hl
    refine hI.bound hm ⟨t, name, c, hl, ?_⟩
    rw [← hb]
    show (m.scopes.peek t).bind _ = ((m.scopes.write s (f scope)).peek t).bind _
    rw [Heap.peek_write]
    by_cases ht : t = s
    · subst ht
      rw [if_pos rfl, hp]
      show scope.valmap.binding name = (f scope).valmap.binding name
      rw [hf]
    · rw [if_neg ht]

theorem setPrevUniqueId_upholds {s counter : Nat} : Upholds I (setPrevUniqueId s counter) fun _ => True := by
  refine loopIds_upholds hI ?_
  exact fun _ => rfl

theorem setUniqueId_upholds {s counter : Nat} : Upholds I (setUniqueId s counter) fun _ => True := by
  refine loopIds_upholds hI ?_
  exact fun _ => rfl

theorem closeScope_upholds {s : Nat} : Upholds I (closeScope s) fun _ => True :=
  upholds_act fun m m' hm hf => by
    obtain ⟨m₁, hm₁, hlocals⟩ := Option.bind_eq_some_iff.mp hf
    have hI₁ := hI.result (scopeFreeFrom_keeps hI _ m s m₁ hm hm₁) nullVal
    exact hI.locals hI₁ hlocals fun v hv => by cases hv

/-! ## Names -/

theorem declare_keeps (hm : I m) {s : Nat} {name : String} {value : Val} {isConst : Bool} (hv : Q value)
    {r : ValmapSetStatus × Option Val × Scopes Val}
    (hd : scopeDeclareIdentifier m.scopes s name value isConst = some r) : I { m with scopes := r.2.2 } := by
  obtain ⟨-, hmaps, -, henv, -⟩ := scopeDeclareIdentifier_spec hd
  have hbind : envOf r.2.2 = m.env ∨ envOf r.2.2 = m.env.bind s name (value, isConst) := by
    by_cases hb : ((envOf m.scopes).vars s name).isSome = true
    · rw [if_pos hb] at henv
      exact .inl henv
    · rw [if_neg hb] at henv
      exact .inr henv
  exact hI.bind hm hmaps.live hbind hv

theorem declareIdentifier_upholds {s : Nat} {name : String} {value : Val} {isConst : Bool} (hv : Q value) :
    Upholds I (declareIdentifier s name value isConst) fun _ => True :=
  upholds_perform fun m a event m' hm hf => by
    obtain ⟨r, hr, heq⟩ := Option.map_eq_some_iff.mp hf
    cases heq
    exact ⟨declare_keeps hI hm hv hr, trivial⟩

theorem declareParam_upholds {s : Nat} {name : String} {value : Val} (hv : Q value) :
    Upholds I (declareParam s name value) fun _ => True :=
  upholds_perform fun m a event m' hm hf => by
    obtain ⟨r, hr, heq⟩ := Option.map_eq_some_iff.mp hf
    cases heq
    exact ⟨declare_keeps hI hm hv hr, trivial⟩

theorem setDefaultIn_upholds {s : Nat} {name : String} {value : Val} {isConst : Bool} (hv : Q value) :
    Upholds I (setDefaultIn s name value isConst) fun _ => True :=
  upholds_act fun m m' hm hf => by
    obtain ⟨scopes, hr, rfl⟩ := Option.map_eq_some_iff.mp hf
    obtain ⟨-, hmaps, henv, -⟩ := scopeSetDefault_spec hr
    exact hI.bind hm hmaps.live (.inr henv) hv

theorem assignIdentifier_upholds {s : Nat} {name : String} {value : Val} (hv : Q value) :
    Upholds I (assignIdentifier s name value) fun _ => True :=
  upholds_perform fun m a event m' hm hf => by
    obtain ⟨r, hr, heq⟩ := Option.map_eq_some_iff.mp hf
    cases heq
    obtain ⟨hlive, hvars⟩ := assignFrom_bound hr
    refine ⟨hI.frame hm rfl rfl rfl (fun v hb => ?_) (fun _ hf _ hv => hI.args hm hf hv) rfl, trivial⟩
    obtain ⟨t, k, c, hl, hb⟩ := hb
    rcases hvars t k v c hb with hb | rfl
    · exact hI.bound hm ⟨t, k, c, (hlive t).symm.trans hl, hb⟩
    · exact hv

omit hI in
theorem resolveIdentifier_upholds {s : Nat} {name : String} : Upholds I (resolveIdentifier s name) fun _ => True :=
  upholds_read fun _ _ _ _ => trivial

theorem derefEntry_upholds {val : EntryPtr} : Upholds I (derefEntry val) Q :=
  upholds_read fun m v hm hf => by
    obtain ⟨⟨v', isConst⟩, hr, rfl⟩ := Option.map_eq_some_iff.mp hf
    exact hI.bound hm (bound_of_readEntry hr)

/-! ## Calls -/

theorem beginCall_upholds {val : EntryPtr} : Upholds I (beginCall val) fun _ => True :=
  upholds_act fun m m' hm hf => hI.locals hm hf fun v hv => by cases hv

omit hI in
theorem use_upholds {val : EntryPtr} : Upholds I (act (.use val) some) fun _ => True :=
  upholds_act fun m m' hm hf => by
    cases hf
    exact hm

theorem derefVal_upholds {val : EntryPtr} : Upholds I (derefVal val) Q :=
  use_upholds.bind fun _ _ => derefEntry_upholds hI

omit hI in
theorem callee_upholds {val : EntryPtr} : Upholds I (callee val) fun _ => True :=
  use_upholds.bind fun _ _ => upholds_read fun _ _ _ _ => trivial

theorem storeArg_upholds {arg : Val} (ha : Q arg) : Upholds I (storeArg arg) fun _ => True :=
  upholds_act fun m m' hm hf => by
    split at hf
    · rename_i val args activation hlocals
      refine hI.locals hm hf fun v hv => ?_
      rcases List.mem_append.mp hv with hv | hv
      · exact hI.innermost hm (by rw [hlocals]; exact hv)
      · rw [List.mem_singleton.mp hv]
        exact ha
    · cases hf

theorem callArgs_upholds : Upholds I callArgs fun args => ∀ v ∈ args, Q v :=
  upholds_read fun m args hm hf v hv => by
    split at hf
    · rename_i val args' activation hlocals
      cases hf
      exact hI.innermost hm (by rw [hlocals]; exact hv)
    · cases hf

theorem activate_upholds {f s : Nat} : Upholds I (activate f s) fun _ => True :=
  upholds_act fun m m' hm hf => by
    split at hf
    · rename_i val args activation hlocals
      exact hI.locals hm hf fun v hv => hI.innermost hm (by rw [hlocals]; exact hv)
    · rename_i args activation hlocals
      exact hI.locals hm hf fun v hv => hI.innermost hm (by rw [hlocals]; exact hv)
    · cases hf

theorem rescope_upholds {f scope : Nat} : Upholds I (rescope f scope) fun _ => True :=
  upholds_act fun m m' hm hf => by
    obtain ⟨fn, hfn, hlocals⟩ := Option.bind_eq_some_iff.mp hf
    refine hI.locals (hI.fns (hI.opened hm (some scope) rfl) _) hlocals fun v hv => ?_
    rw [Locals.args_activate] at hv
    exact hI.innermost hm hv

theorem beginBuiltin_upholds : Upholds I beginBuiltin fun args => ∀ v ∈ args, Q v :=
  upholds_perform fun m args event m' hm hf => by
    split at hf
    · rename_i val args' activation hlocals
      have hargs : ∀ v ∈ args', Q v := fun v hv => hI.innermost hm (by rw [hlocals]; exact hv)
      obtain ⟨m₁, hm₁, heq⟩ := Option.map_eq_some_iff.mp hf
      cases heq
      exact ⟨hI.locals hm hm₁ hargs, hargs⟩
    · cases hf

/-! ## Built-in functions -/

theorem writeOut_upholds {out : List Output} : Upholds I (writeOut out) fun _ => True := by
  refine updateStore_upholds hI ?_
  exact fun _ => ⟨rfl, rfl⟩

theorem failFn_upholds {msg : String} : Upholds I (failFn msg) Q := by
  refine Keeps.bind (updateStore_upholds hI ?_) fun _ _ => giveNull_upholds hI
  exact fun _ => ⟨rfl, rfl⟩

theorem printArgs_upholds (args : List Val) : Upholds I (printArgs args) fun _ => True := by
  induction args with
  | nil => exact keeps_pure trivial
  | cons arg args ih =>
    refine (upholds_read fun _ _ _ _ => trivial : Upholds I _ fun _ => True).bind fun out _ => ?_
    exact (writeOut_upholds hI).bind fun _ _ => ih

theorem builtinPrint_upholds (args : List Val) : Upholds I (builtinPrint args) Q := by
  unfold builtinPrint
  refine keeps_ite (fun _ => failFn_upholds hI) fun _ => ?_
  exact (printArgs_upholds hI args).bind fun _ _ => giveNull_upholds hI

theorem builtinPrintln_upholds (args : List Val) : Upholds I (builtinPrintln args) Q :=
  (builtinPrint_upholds hI args).bind fun _ hv => (writeOut_upholds hI).bind fun _ _ => keeps_pure hv

theorem builtinExit_upholds (args : List Val) : Upholds I (builtinExit args) Q := by
  unfold builtinExit
  split
  · exact keeps_throw
  · split
    · exact keeps_throw
    · exact failFn_upholds hI

theorem builtinRead_upholds : Upholds I builtinRead Q := by
  refine getStore_upholds.bind fun lines _ => ?_
  split
  · exact getStore_upholds.bind fun _ _ => failFn_upholds hI
  · refine Keeps.bind (updateStore_upholds hI ?_) fun _ _ => ?_
    · exact fun _ => ⟨rfl, rfl⟩
    · exact (newString_upholds hI _).bind fun s _ => givePlain_upholds hI _

theorem pushCopies_upholds {vector : Nat} (hv : V vector) (args : List Val) :
    Upholds I (pushCopies vector args) fun _ => True := by
  induction args with
  | nil => exact keeps_pure trivial
  | cons arg args ih =>
    exact (valCopyDeep_upholds hI arg).bind fun copy _ => (vectorPush_upholds hI hv).bind fun _ _ => ih

theorem builtinArray_upholds (args : List Val) : Upholds I (builtinArray args) Q :=
  (vectorInit_upholds hI).bind fun _ hv => (pushCopies_upholds hI hv args).bind fun _ _ => givePlain_upholds hI _

section Rec

variable {rec : Nat → AstNode → Eval Val} (hrec : EvalUpholds I Q rec)
include hrec

omit hI hrec in
theorem readFn_upholds {f : Nat} : Upholds I (readFn f) fun _ => True := upholds_read fun _ _ _ _ => trivial

omit hrec in
theorem declareCallbackParams_upholds {newScope : Nat} {testVal : Val} (ht : Q testVal) (names : List String) :
    Upholds I (declareCallbackParams newScope testVal names) fun _ => True := by
  induction names with
  | nil => exact keeps_pure trivial
  | cons name names ih => exact (declareParam_upholds hI ht).bind fun _ _ => ih

theorem callbackBody_upholds {f newScope : Nat} (gas i : Nat) {ret : Val} (hret : Q ret) :
    Upholds I (callbackBody rec f newScope gas i ret) Q := by
  induction gas generalizing i ret with
  | zero => exact keeps_throw
  | succ gas ih =>
    refine readFn_upholds.bind fun fn _ => ?_
    split
    · exact (callEval_upholds hI hrec).bind fun v hv => ih (i + 1) hv
    · exact keeps_pure hret

theorem arrayFilterCallFn_upholds {gas scope f : Nat} {testVal : Val} (ht : Q testVal) :
    Upholds I (arrayFilterCallFn rec gas scope f testVal) fun _ => True := by
  refine readFn_upholds.bind fun fn _ => ?_
  split
  · refine (activate_upholds hI).bind fun _ _ => (declareCallbackParams_upholds hI ht _).bind fun _ _ => ?_
    refine (callbackBody_upholds hI hrec gas 0 (hI.plain nullVal rfl)).bind fun ret _ => ?_
    exact (rescope_upholds hI).bind fun _ _ => keeps_pure trivial
  · exact (rescope_upholds hI).bind fun _ _ => keeps_pure trivial

omit hrec in
theorem keepElement_upholds {newVector : Nat} {slot : Option Nat} (hv : V newVector) (keep : Bool) :
    Upholds I (keepElement newVector slot keep) fun _ => True := by
  cases keep with
  | true => exact vectorPush_upholds hI hv
  | false => exact keeps_pure trivial

theorem arrayFilterLoop_upholds {scope f vector newVector : Nat} (hv : V newVector) (gas i : Nat) :
    Upholds I (arrayFilterLoop rec scope f vector newVector gas i) fun _ => True := by
  induction gas generalizing i with
  | zero => exact keeps_throw
  | succ gas ih =>
    refine getStore_upholds.bind fun data _ => ?_
    split
    · refine (upholds_read fun _ _ _ _ => trivial : Upholds I _ fun _ => True).bind fun orig _ => ?_
      refine (valCopyDeep_upholds hI orig).bind fun testVal ht => ?_
      refine (arrayFilterCallFn_upholds hI hrec ht).bind fun keep _ => ?_
      exact getStore_upholds.bind fun data _ => (keepElement_upholds hI hv keep).bind fun _ _ => ih (i + 1)
    · exact keeps_pure trivial

theorem builtinArrayFilter_upholds (gas scope : Nat) (args : List Val) :
    Upholds I (builtinArrayFilter rec gas scope args) Q := by
  unfold builtinArrayFilter
  split
  · refine (upholds_read fun _ _ _ _ => trivial : Upholds I _ fun _ => True).bind fun r _ => ?_
    refine keeps_ite (fun _ => failFn_upholds hI) fun _ => (vectorInit_upholds hI).bind fun newVector hv => ?_
    split
    · exact (arrayFilterLoop_upholds hI hrec hv gas 0).bind fun _ _ => givePlain_upholds hI _
    · exact keeps_throw
  · exact failFn_upholds hI

theorem callBuiltin_upholds (gas scope : Nat) (callback : BuiltinFn) (args : List Val) :
    Upholds I (callBuiltin rec gas scope callback args) Q := by
  cases callback with
  | println => exact builtinPrintln_upholds hI args
  | print => exact builtinPrint_upholds hI args
  | array => exact builtinArray_upholds hI args
  | arrayFilter => exact builtinArrayFilter_upholds hI hrec gas scope args
  | read => exact builtinRead_upholds hI
  | exit => exact builtinExit_upholds hI args

/-! ## Operators -/

omit hI hrec in
theorem valStringify_upholds {val : Val} : Upholds I (valStringify val) fun _ => True := by
  unfold valStringify
  split
  · exact getStore_upholds.bind fun _ _ => keeps_pure trivial
  all_goals exact keeps_pure trivial

omit hI hrec in
theorem concatParts_upholds {left right : Val} : Upholds I (concatParts left right) fun _ => True := by
  have hone : ∀ {s : Nat} {k : String → Option (String × String)},
      Upholds I (getStore (fun store => store.strings.read s) >>= fun t => pure (k t)) fun _ => True :=
    getStore_upholds.bind fun _ _ => keeps_pure trivial
  unfold concatParts
  split
  · exact getStore_upholds.bind fun _ _ => getStore_upholds.bind fun _ _ => keeps_pure trivial
  · exact hone
  · exact hone
  · exact hone
  · exact hone
  · exact hone
  · exact hone
  · exact keeps_pure trivial

omit hrec in
theorem evalConcat_upholds {left right : Val} {leftPos : Pos} : Upholds I (evalConcat left right leftPos) Q := by
  refine concatParts_upholds.bind fun parts _ => ?_
  split
  · exact stringSlot_upholds hI _
  · exact keeps_throw

omit hrec in
theorem giveBool_upholds {b : Bool} : Upholds I (giveBool b) Q := givePlain_upholds hI _

omit hI hrec in
theorem strcmpEq_upholds {left right : Option String} : Upholds I (strcmpEq left right) fun _ => True := by
  unfold strcmpEq
  split
  · exact keeps_pure trivial
  · exact keeps_throw

omit hrec in
theorem evalBinexpString_upholds {operator : BinOperator} {left right : Val} {leftPos : Pos} :
    Upholds I (evalBinexpString operator left right leftPos) Q := by
  unfold evalBinexpString
  refine keeps_ite (fun _ => evalConcat_upholds hI) fun _ => ?_
  refine valStringify_upholds.bind fun leftStr _ => valStringify_upholds.bind fun rightStr _ => ?_
  split
  · exact strcmpEq_upholds.bind fun _ _ => giveBool_upholds hI
  · exact strcmpEq_upholds.bind fun _ _ => giveBool_upholds hI
  · exact strcmpEq_upholds.bind fun _ _ => giveBool_upholds hI
  · exact strcmpEq_upholds.bind fun _ _ => giveBool_upholds hI
  · exact keeps_throw

omit hrec in
theorem evalBinexpCmpGeneric_upholds {operator : BinOperator} {left right : Val} {leftPos : Pos} :
    Upholds I (evalBinexpCmpGeneric operator left right leftPos) Q := by
  unfold evalBinexpCmpGeneric
  refine keeps_ite (fun _ => evalBinexpString_upholds hI) fun _ => ?_
  dsimp only
  split
  all_goals first | exact giveBool_upholds hI | exact keeps_throw

omit hrec in
theorem giveInt_upholds {i : Int} : Upholds I (giveInt i) Q :=
  keeps_ite (fun _ => givePlain_upholds hI _) fun _ => keeps_throw

omit hrec in
theorem evalBinexpInt_upholds {operator : BinOperator} {left right : Int} {rightPos : Pos} :
    Upholds I (evalBinexpInt operator left right rightPos) Q := by
  unfold evalBinexpInt
  split
  · exact giveInt_upholds hI
  · exact giveInt_upholds hI
  · exact giveInt_upholds hI
  · exact keeps_ite (fun _ => keeps_throw) fun _ => givePlain_upholds hI _
  · exact keeps_ite (fun _ => keeps_throw) fun _ => keeps_ite (fun _ => giveInt_upholds hI) fun _ => keeps_throw
  · exact keeps_throw

omit hrec in
theorem evalBinop_upholds {pos leftPos rightPos : Pos} {operator : BinOperator} {left right : Val} :
    Upholds I (evalBinop pos leftPos rightPos operator left right) Q := by
  unfold evalBinop
  refine keeps_ite (fun _ => evalBinexpCmpGeneric_upholds hI) fun _ => ?_
  split
  · exact evalBinexpInt_upholds hI
  · exact keeps_ite (fun _ => evalBinexpString_upholds hI) fun _ => keeps_throw

/-! ## Nodes -/

theorem evalBinexp_upholds {scope : Nat} {pos : Pos} {operator : BinOperator} {left right : AstNode} :
    Upholds I (evalBinexp rec scope pos operator left right) Q :=
  (callEval_upholds hI hrec).bind fun _ _ => (callEval_upholds hI hrec).bind fun _ _ => evalBinop_upholds hI

omit hrec in
theorem evalIdentifier_upholds {scope : Nat} {pos : Pos} {symbol : String} :
    Upholds I (evalIdentifier scope pos symbol) Q := by
  refine resolveIdentifier_upholds.bind fun resolved _ => ?_
  split
  · exact keeps_throw
  · exact (derefEntry_upholds hI).bind fun v hv => giveValue_upholds hI hv

theorem evalAssignment_upholds {scope : Nat} {pos : Pos} {assignee value : AstNode} :
    Upholds I (evalAssignment rec scope pos assignee value) Q := by
  refine (callEval_upholds hI hrec).bind fun val hv => ?_
  split
  · refine (assignIdentifier_upholds hI hv).bind fun status _ => ?_
    split
    · exact keeps_throw
    · exact keeps_throw
    · exact keeps_pure hv
  · exact keeps_throw

theorem declValue_upholds {scope : Nat} (value : Option AstNode) : Upholds I (declValue rec scope value) Q := by
  cases value with
  | none => exact giveNull_upholds hI
  | some value => exact callEval_upholds hI hrec

theorem evalVarDecl_upholds {scope : Nat} {pos : Pos} {name : String} {isConst : Bool} {value : Option AstNode} :
    Upholds I (evalVarDecl rec scope pos name isConst value) Q := by
  refine (declValue_upholds hI hrec value).bind fun val hv => ?_
  refine (upholds_read fun _ _ _ _ => trivial : Upholds I _ fun _ => True).bind fun reuse _ => ?_
  refine keeps_ite (fun _ => (setDefaultIn_upholds hI hv).bind fun _ _ => giveValue_upholds hI (hI.plain _ rfl))
    fun _ => (declareIdentifier_upholds hI hv).bind fun status _ => ?_
  exact keeps_ite (fun _ => keeps_throw) fun _ => giveNull_upholds hI

omit hrec in
theorem evalFnDecl_upholds {scope : Nat} {pos : Pos} {identifier : String} {paramNames : List String}
    {body : List AstNode} : Upholds I (evalFnDecl scope pos identifier paramNames body) Q := by
  refine (copyBody_upholds body).bind fun body _ => (newFn_upholds hI).bind fun fn hfn => ?_
  refine (declareIdentifier_upholds hI hfn).bind fun status _ => ?_
  exact keeps_ite (fun _ => keeps_throw) fun _ => giveNull_upholds hI

theorem evalStmts_upholds {scope : Nat} (stmts : List AstNode) :
    Upholds I (evalStmts rec scope stmts) fun _ => True := by
  induction stmts with
  | nil => exact keeps_pure trivial
  | cons stmt stmts ih => exact (callEval_upholds hI hrec).bind fun _ _ => ih

theorem evalRoot_upholds {scope : Nat} (nodes : List AstNode) {value : Val} (hv : Q value) :
    Upholds I (evalRoot rec scope nodes value) Q := by
  induction nodes generalizing value with
  | nil => exact keeps_pure hv
  | cons node nodes ih => exact (callEval_upholds hI hrec).bind fun _ hv => ih hv

theorem evalBlock_upholds {scope : Nat} {children : List AstNode} : Upholds I (evalBlock rec scope children) Q :=
  (openBlock_upholds hI).bind fun _ _ => (evalStmts_upholds hI hrec children).bind fun _ _ =>
    (closeScope_upholds hI).bind fun _ _ => givePlain_upholds hI _

theorem evalIfStmt_upholds {scope : Nat} {condition ifBlock : AstNode} {elseBlock : Option AstNode} :
    Upholds I (evalIfStmt rec scope condition ifBlock elseBlock) Q := by
  refine (callEval_upholds hI hrec).bind fun condVal _ => ?_
  refine keeps_ite (fun _ => (callEval_upholds hI hrec).bind fun _ _ => givePlain_upholds hI _) fun _ => ?_
  split
  · exact (callEval_upholds hI hrec).bind fun _ _ => givePlain_upholds hI _
  · exact givePlain_upholds hI _

theorem evalElements_upholds {scope vector : Nat} (hv : V vector) (elements : List AstNode) :
    Upholds I (evalElements rec scope vector elements) fun _ => True := by
  induction elements with
  | nil => exact keeps_pure trivial
  | cons element elements ih =>
    refine (callEval_upholds hI hrec).bind fun val _ => (valCopyDeep_upholds hI val).bind fun copy _ => ?_
    exact (vectorPush_upholds hI hv).bind fun _ _ => ih

theorem evalArrayLit_upholds {scope : Nat} {elements : List AstNode} :
    Upholds I (evalArrayLit rec scope elements) Q :=
  (vectorInit_upholds hI).bind fun _ hv => (evalElements_upholds hI hrec hv elements).bind fun _ _ =>
    givePlain_upholds hI _

/-! ## Loops -/

theorem evalLoopBody_upholds {newScope : Nat} {body : AstNode} :
    Upholds I (evalLoopBody rec newScope body) fun _ => True := by
  unfold evalLoopBody
  split
  · exact evalStmts_upholds hI hrec _
  · exact (callEval_upholds hI hrec).bind fun _ _ => keeps_pure trivial

omit hrec in
theorem setLoopVar_upholds {newScope counter : Nat} (varname : Option String) :
    Upholds I (setLoopVar newScope counter varname) fun _ => True := by
  cases varname with
  | none => exact keeps_pure trivial
  | some varname => exact setDefaultIn_upholds hI (hI.plain _ rfl)

theorem loopIteration_upholds {newScope : Nat} {varname : Option String} {body : AstNode} {counter : Nat} :
    Upholds I (loopIteration rec newScope varname body counter) fun _ => True :=
  (setPrevUniqueId_upholds hI).bind fun _ _ => (evalLoopBody_upholds hI hrec).bind fun _ _ =>
    (setUniqueId_upholds hI).bind fun _ _ => setLoopVar_upholds hI varname

theorem loopFrom_upholds {newScope : Nat} {varname : Option String} {body : AstNode} {iterCount : Val}
    (gas counter : Nat) : Upholds I (loopFrom rec newScope varname body iterCount gas counter) fun _ => True := by
  induction gas generalizing counter with
  | zero => exact keeps_ite (fun _ => keeps_throw) fun _ => keeps_pure trivial
  | succ gas ih =>
    exact keeps_ite (fun _ => (loopIteration_upholds hI hrec).bind fun _ _ => ih (counter + 1))
      fun _ => keeps_pure trivial

omit hrec in
theorem declareLoopVar_upholds {newScope : Nat} (varname : Option String) :
    Upholds I (declareLoopVar newScope varname) fun _ => True := by
  cases varname with
  | none => exact keeps_pure trivial
  | some varname => exact (declareIdentifier_upholds hI (hI.plain _ rfl)).bind fun _ _ => keeps_pure trivial

theorem runLoop_upholds {gas scope : Nat} {varname : Option String} {body : AstNode} {iterCount : Val} :
    Upholds I (runLoop rec gas scope varname body iterCount) Q :=
  (openLoop_upholds hI).bind fun _ _ => (declareLoopVar_upholds hI varname).bind fun _ _ =>
    (loopFrom_upholds hI hrec _ 0).bind fun _ _ => (closeScope_upholds hI).bind fun _ _ => givePlain_upholds hI _

theorem loopCount_upholds {scope : Nat} (iterCount : Option AstNode) : Upholds I (loopCount rec scope iterCount) Q := by
  cases iterCount with
  | none => exact givePlain_upholds hI _
  | some iterCount => exact callEval_upholds hI hrec

theorem evalLoopStmt_upholds {gas scope : Nat} {pos : Pos} {iterCount : Option AstNode} {varname : Option String}
    {body : AstNode} : Upholds I (evalLoopStmt rec gas scope pos iterCount varname body) Q := by
  refine (loopCount_upholds hI hrec iterCount).bind fun iterCountVal _ => ?_
  split
  · exact runLoop_upholds hI hrec
  · exact keeps_ite (fun _ => keeps_throw) fun _ => runLoop_upholds hI hrec
  · exact keeps_throw

/-! ## Calls of functions -/

theorem evalArgs_upholds {scope : Nat} (args : List AstNode) : Upholds I (evalArgs rec scope args) fun _ => True := by
  induction args with
  | nil => exact keeps_pure trivial
  | cons arg args ih =>
    exact (callEval_upholds hI hrec).bind fun val hv => (storeArg_upholds hI hv).bind fun _ _ => ih

omit hrec in
theorem bindParams_upholds {val : EntryPtr} {pos : Pos} {identifier : String} (args : List Val)
    (hargs : ∀ v ∈ args, Q v) (i : Nat) : Upholds I (bindParams val pos identifier i args) fun _ => True := by
  induction args generalizing i with
  | nil => exact keeps_pure trivial
  | cons arg args ih =>
    refine callee_upholds.bind fun r _ => ?_
    dsimp only
    split
    · refine (declareParam_upholds hI (hargs arg (List.mem_cons_self ..))).bind fun status _ => ?_
      exact keeps_ite (fun _ => keeps_throw) fun _ => ih (fun v hv => hargs v (List.mem_cons_of_mem _ hv)) (i + 1)
    · exact keeps_throw

theorem runBody_upholds {val : EntryPtr} (gas i : Nat) {ret : Option Val} (hret : ∀ v ∈ ret, Q v) :
    Upholds I (runBody rec val gas i ret) fun ret => ∀ v ∈ ret, Q v := by
  induction gas generalizing i ret with
  | zero => exact keeps_throw
  | succ gas ih =>
    refine callee_upholds.bind fun r _ => ?_
    dsimp only
    split
    · refine (callEval_upholds hI hrec).bind fun v hv => ih (i + 1) fun u hu => ?_
      cases hu
      exact hv
    · exact keeps_throw
    · exact keeps_pure hret

theorem callCustom_upholds {gas scope : Nat} {pos : Pos} {identifier : String} {val : EntryPtr} {f : Nat}
    {fn : FnVal} : Upholds I (callCustom rec gas scope pos identifier val f fn) Q := by
  refine (callArgs_upholds hI).bind fun args hargs => keeps_ite (fun _ => keeps_throw) fun _ => ?_
  split
  · exact keeps_throw
  · refine (activate_upholds hI).bind fun _ _ => (bindParams_upholds hI args hargs 0).bind fun _ _ => ?_
    refine (runBody_upholds hI hrec gas 0 fun v hv => by cases hv).bind fun ret _ => ?_
    split
    · exact keeps_throw
    · refine (valCopyDeep_upholds hI _).bind fun copy hcopy => callee_upholds.bind fun r _ => ?_
      exact (rescope_upholds hI).bind fun _ _ => keeps_pure hcopy

theorem evalExprCall_upholds {gas scope : Nat} {pos : Pos} {identifier : String} {args : List AstNode} :
    Upholds I (evalExprCall rec gas scope pos identifier args) Q := by
  refine resolveIdentifier_upholds.bind fun resolved _ => ?_
  split
  · exact keeps_throw
  · refine (beginCall_upholds hI).bind fun _ _ => (derefVal_upholds hI).bind fun v _ => ?_
    split
    · refine (evalArgs_upholds hI hrec args).bind fun _ _ => callee_upholds.bind fun r _ => ?_
      dsimp only
      split
      · refine (beginBuiltin_upholds hI).bind fun args _ => ?_
        refine (callBuiltin_upholds hI hrec _ _ _ _).bind fun ret hret => ?_
        refine getStore_upholds.bind fun error _ => ?_
        split
        · exact keeps_throw
        · exact keeps_pure hret
      · exact callCustom_upholds hI hrec
    · exact keeps_throw

theorem evalNode_upholds (gas scope : Nat) (node : AstNode) : Upholds I (evalNode rec gas scope node) Q := by
  cases node with
  | root pos nodes => exact (giveNull_upholds hI).bind fun null hnull => evalRoot_upholds hI hrec nodes hnull
  | binaryExpr => exact evalBinexp_upholds hI hrec
  | intLit => exact givePlain_upholds hI _
  | varDecl => exact evalVarDecl_upholds hI hrec
  | string => exact stringSlot_upholds hI _
  | identifier => exact evalIdentifier_upholds hI
  | assignment => exact evalAssignment_upholds hI hrec
  | exprCall => exact evalExprCall_upholds hI hrec
  | fnDecl => exact evalFnDecl_upholds hI
  | arrayLit => exact evalArrayLit_upholds hI hrec
  | importStmt => exact keeps_throw
  | block => exact evalBlock_upholds hI hrec
  | ifStmt => exact evalIfStmt_upholds hI hrec
  | loopStmt => exact evalLoopStmt_upholds hI hrec

end Rec

/-- What all elementary changes keep is kept by every evaluation. -/
theorem eval_upholds (fuel : Nat) : EvalUpholds I Q (eval fuel) := by
  induction fuel with
  | zero => exact fun scope node => keeps_throw
  | succ fuel ih => exact fun scope node => evalNode_upholds hI ih fuel scope node

end Invariant

end Blaze
