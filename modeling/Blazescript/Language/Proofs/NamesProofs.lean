import Blazescript.Language.Proofs.StepsProofs
import Blazescript.Scope.Proofs.ScopeProofs

/-!
# Proofs: names in programs without functions

Identifiers, assignments and declarations do what they mean.
-/

namespace Blaze

open Arena Environment Running Tracing

variable {P : Machine → Prop} {stack : List Frame} {scopes rest : List Nat} {scope s : Nat} {m m' : Machine}
  {memory : Memory} {layer : Layer} {layers : List Layer} {v : Val} {value : Scalar} {pos : Pos} {name symbol : String}
  {isConst : Bool} {loops : List Nat} {rec : Nat → AstNode → Eval Val} {node : AstNode} {y : Meaning Scalar}

/-! ## Meanings in a memory -/

theorem get_memory (memory : Memory) : (get : Meaning Memory) memory = .ok memory memory := rfl

theorem valueOf_some (h : lookupIn name memory.layers = some (value, isConst)) :
    valueOf pos name memory = .ok value memory := by
  unfold valueOf
  rw [bind_ok (get_memory memory), h]
  rfl

theorem valueOf_none (h : lookupIn name memory.layers = none) : valueOf pos name memory =
    .error (.runtimeError pos ("use of undeclared identifier '" ++ name ++ "'")) memory := by
  unfold valueOf
  rw [bind_ok (get_memory memory), h]
  rfl

theorem assign_var (h : lookupIn name memory.layers = some (value, false)) (value' : Scalar) :
    assign pos name value' memory = .ok () { memory with layers := assignIn name value' memory.layers } := by
  unfold assign
  rw [bind_ok (get_memory memory), h]
  rfl

theorem assign_const (h : lookupIn name memory.layers = some (value, true)) (value' : Scalar) :
    assign pos name value' memory =
      .error (.runtimeError pos ("cannot assign to constant '" ++ name ++ "'")) memory := by
  unfold assign
  rw [bind_ok (get_memory memory), h]
  rfl

theorem assign_none (h : lookupIn name memory.layers = none) (value' : Scalar) : assign pos name value' memory =
    .error (.runtimeError pos ("use of undeclared identifier '" ++ name ++ "'")) memory := by
  unfold assign
  rw [bind_ok (get_memory memory), h]
  rfl

theorem inTop_ok (hl : memory.layers = layer :: layers) (f : Layer → Layer) :
    inTop f memory = .ok () { memory with layers := f layer :: layers } := by
  rcases memory with ⟨_, _, _⟩
  subst hl
  rfl

theorem declare_replaces (hl : memory.layers = layer :: layers) (h : layer.replaces = true) :
    declare pos name value isConst memory =
      .ok () { memory with layers := layer.replace name value isConst :: layers } := by
  unfold declare
  rw [bind_ok (get_memory memory), hl]
  dsimp only
  rw [if_pos h]
  exact inTop_ok hl _

theorem declare_exists (hl : memory.layers = layer :: layers) (h : layer.replaces = false)
    (hv : (layer.vars name).isSome = true) : declare pos name value isConst memory =
      .error (.runtimeError pos ("cannot redeclare identifier '" ++ name ++ "'")) memory := by
  unfold declare
  rw [bind_ok (get_memory memory), hl]
  dsimp only
  rw [h, if_neg Bool.false_ne_true, if_pos hv]
  rfl

theorem declare_new (hl : memory.layers = layer :: layers) (h : layer.replaces = false)
    (hv : layer.vars name = none) : declare pos name value isConst memory =
      .ok () { memory with layers := layer.bind name value isConst :: layers } := by
  unfold declare
  rw [bind_ok (get_memory memory), hl]
  dsimp only
  rw [h, hv, if_neg Bool.false_ne_true, Option.isSome_none, if_neg Bool.false_ne_true]
  exact inTop_ok hl _

/-! ## Other maps in the scopes -/

theorem reuses_mapsOnly (h : MapsOnly m.scopes m'.scopes) (s : Nat) : m'.reuses s = m.reuses s := by
  have hframe := h.frame s
  unfold Machine.reuses
  cases hp : m.scopes.peek s with
  | none =>
    rw [hp] at hframe
    rw [Option.map_eq_none_iff.mp hframe]
  | some scope =>
    rw [hp] at hframe
    obtain ⟨scope', hp', hf⟩ := Option.map_eq_some_iff.mp hframe
    rw [hp']
    unfold Scope.frame at hf
    simp only [Prod.mk.injEq] at hf
    obtain ⟨-, hmode, hunique, hprev⟩ := hf
    simp only [Option.any_some, hmode, hunique, hprev]

theorem mode_mapsOnly {h h' : Scopes Val} (hmaps : MapsOnly h h') (s : Nat) :
    (h'.peek s).map Scope.mode = (h.peek s).map Scope.mode := by
  have hframe := congrArg (Option.map fun f : Option Nat × ScopeMode × Nat × Nat => f.2.1) (hmaps.frame s)
  rw [Option.map_map, Option.map_map] at hframe
  exact hframe

theorem LoopScopes.maps {m' : Machine} (h : LoopScopes loops m) (hmaps : MapsOnly m.scopes m'.scopes) :
    LoopScopes loops m' := by
  intro s hs
  rw [mode_mapsOnly hmaps]
  exact h s hs

theorem lasting_loopScopes (loops : List Nat) : Lasting (LoopScopes loops) := by
  intro m m' h hscopes _ _ s hs
  rw [hscopes]
  exact h s hs

theorem assignIn_replaces (name : String) (value : Scalar) (layers : List Layer) :
    (assignIn name value layers).map Layer.replaces = layers.map Layer.replaces := by
  induction layers with
  | nil => rfl
  | cons layer layers ih =>
    unfold assignIn
    by_cases h : (layer.vars name).isSome = true
    · rw [if_pos h]
      rfl
    · rw [if_neg h, List.map_cons, ih, List.map_cons]

/-- The scopes get other maps, which are the layers of a memory. -/
theorem Machine.Represents.maps {memory' : Memory} (h : m.Represents memory scopes) (hmaps : MapsOnly m.scopes m'.scopes)
    (hbuiltins : m'.builtins = m.builtins) (hfns : m'.fns = m.fns) (hstore : m'.store = m.store)
    (htbl : m'.tbl = m.tbl) (hlayers : List.Forall₂ m'.ScopeIs scopes memory'.layers)
    (hreplaces : memory'.layers.map Layer.replaces = memory.layers.map Layer.replaces)
    (hout : memory'.out = memory.out) (hroom : memory'.room = memory.room) : m'.Represents memory' scopes := by
  refine ⟨?_, ?_, h.builtins.congr hbuiltins hfns, hlayers, ?_, ?_, ?_, ?_⟩
  · rw [Machine.env, hmaps.parent]
    exact h.rooted
  · rw [Machine.env, hmaps.parent]
    exact h.chain
  · rw [hreplaces, ← h.replaces]
    exact List.map_congr_left fun s _ => reuses_mapsOnly hmaps s
  · rw [hstore, hout]
    exact h.out
  · rw [htbl, hroom]
    exact h.room
  · rw [hstore]
    exact h.error

/-- The innermost scope binds one name to another value. -/
theorem Machine.Represents.bindTop (h : m.Represents memory (s :: rest)) (hl : memory.layers = layer :: layers)
    (hn : NotBuiltin name) (hmaps : MapsOnly m.scopes m'.scopes) (hbuiltins : m'.builtins = m.builtins)
    (hfns : m'.fns = m.fns) (hstore : m'.store = m.store) (htbl : m'.tbl = m.tbl)
    (henv : m'.env = m.env.bind s name (v, isConst)) (his : v.Is value) :
    m'.Represents { memory with layers := layer.bind name value isConst :: layers } (s :: rest) := by
  obtain ⟨layer', layers', hl', hs, -, hrest, -⟩ := h.head
  rw [hl] at hl'
  obtain ⟨rfl, rfl⟩ := List.cons.inj hl'
  have hnodup : (s :: rest).Nodup := by
    rw [← h.chain_eq]
    exact chain_nodup h.rooted s
  obtain ⟨hs', -⟩ := List.nodup_cons.mp hnodup
  refine h.maps hmaps hbuiltins hfns hstore htbl (.cons ?_ ?_) ?_ rfl rfl
  · refine hs.bind hn h.builtins hbuiltins (hmaps.live s) (fun k => ?_) his
    rw [henv, Env.vars_bind]
    simp only [true_and]
  · refine forall₂_imp_of_mem hrest fun t ht layer ht' => ht'.congr hbuiltins (hmaps.live t) fun k => ?_
    have hne : t ≠ s := fun hc => hs' (hc ▸ ht)
    rw [henv, Env.vars_bind, if_neg fun hc => hne hc.1]
  · rw [hl]
    rfl

/-! ## Identifiers -/

/-- Resolving a name in the innermost scope. -/
theorem resolve_of_represents (h : m.Represents memory (s :: rest)) (name : String) :
    ∃ r, scopeResolveIdentifier m.scopes s name = some r ∧ m.env.binder s name = r.map EntryPtr.scope ∧
      ∀ ptr, r = some ptr → readEntry m.scopes ptr = m.env.find s name := by
  have hlive : ∀ t ∈ chain m.env.parent s, m.scopes.isLive t = true := by
    intro t ht
    rw [h.chain_eq] at ht
    exact h.live ht
  obtain ⟨r, hr⟩ := resolveFrom_returns h.rooted name (Nat.lt_succ_self s) hlive
  obtain ⟨hbinder, hentry⟩ := resolveFrom_spec h.rooted hr
  exact ⟨r, hr, hbinder, fun ptr hptr => (hentry ptr hptr).1⟩

theorem simulates_evalIdentifier (hP : Lasting P) (hn : NotBuiltin symbol) :
    Simulates P stack (scope :: rest) (evalIdentifier scope pos symbol) (valueOf pos symbol) Val.Is := by
  intro w memory hw
  obtain ⟨hm, hrep, hstack⟩ := hw
  obtain ⟨r, hr, hbinder, hentry⟩ := resolve_of_represents hrep symbol
  have hresolve : resolveIdentifier scope symbol w = .ok r w := readOrThrow_ok hr
  unfold evalIdentifier
  rw [bind_ok hresolve]
  rcases hrep.lookup hn with ⟨hnone, -, hlookup⟩ | ⟨t, v, value, isConst, hsome, hfind, hlookup, his⟩
  · rw [hnone] at hbinder
    rw [Option.map_eq_none_iff.mp hbinder.symm, valueOf_none hlookup]
    exact .error ⟨rfl, hrep.hasWritten⟩
  · rw [hsome] at hbinder
    obtain ⟨ptr, hptr, -⟩ := Option.map_eq_some_iff.mp hbinder.symm
    subst hptr
    have hderef : derefEntry ptr w = .ok v w := by
      refine readOrThrow_ok ?_
      rw [hentry ptr rfl, hfind]
      rfl
    rw [valueOf_some hlookup]
    dsimp only
    rw [bind_ok hderef]
    exact simulates_giveValue hP his w memory ⟨hm, hrep, hstack⟩

/-! ## Assignments -/

theorem assign_of_represents (h : m.Represents memory (s :: rest)) (name : String) (v : Val) :
    ∃ r, scopeAssignIdentifier m.scopes s name v = some r ∧ MapsOnly m.scopes r.2 ∧
      (r.1, envOf r.2) = envAssign m.env s name v := by
  have hlive : ∀ t ∈ chain m.env.parent s, m.scopes.isLive t = true := by
    intro t ht
    rw [h.chain_eq] at ht
    exact h.live ht
  obtain ⟨r, hr⟩ := assignFrom_returns name v h.rooted (Nat.lt_succ_self s) hlive
  obtain ⟨hmaps, henv, -⟩ := assignFrom_spec h.rooted hr
  exact ⟨r, hr, hmaps, henv⟩

theorem means_evalAssignment {pos namePos : Pos} (hn : NotBuiltin symbol)
    (h : Evaluates (LoopScopes loops) stack scope rest node (rec scope node) y) :
    Means loops stack (scope :: rest) (evalAssignment rec scope pos (.identifier namePos symbol) node)
      (do
        let v ← y
        assign { namePos with filename := pos.filename } symbol v
        pure v) Val.Is := by
  refine Simulates.bind (h.call (lasting_loopScopes loops) none) fun v value his => ?_
  intro w memory hw
  obtain ⟨hm, hrep, hstack⟩ := hw
  obtain ⟨r, hr, hmaps, henv⟩ := assign_of_represents hrep symbol v
  have hassign : assignIdentifier scope symbol v w =
      .ok r.1 ⟨{ w.state with scopes := r.2 }, ⟨.assign symbol r.1, w.state, { w.state with scopes := r.2 }⟩ :: w.trace⟩ := by
    refine perform_ok ?_
    rw [hr]
    rfl
  dsimp only
  rw [bind_ok hassign]
  unfold envAssign at henv
  rcases hrep.lookup hn with ⟨hnone, -, hlookup⟩ | ⟨t, u, old, isConst, hsome, hfind, hlookup, -⟩
  · rw [hnone] at henv
    obtain ⟨hstatus, -⟩ := Prod.mk.inj henv
    rw [hstatus, bind_error (assign_none hlookup value)]
    exact .error ⟨rfl, hrep.hasWritten⟩
  · rw [hsome, hfind] at henv
    cases isConst with
    | true =>
      obtain ⟨hstatus, -⟩ := Prod.mk.inj henv
      rw [hstatus, bind_error (assign_const hlookup value)]
      exact .error ⟨rfl, hrep.hasWritten⟩
    | false =>
      obtain ⟨hstatus, henv'⟩ := Prod.mk.inj henv
      rw [hstatus, bind_ok (assign_var hlookup value)]
      refine .ok ⟨his, hm.maps hmaps, ?_, hstack⟩
      refine hrep.maps hmaps rfl rfl rfl rfl ?_ (assignIn_replaces symbol value memory.layers) rfl rfl
      have hnodup : (scope :: rest).Nodup := by
        rw [← hrep.chain_eq]
        exact chain_nodup hrep.rooted scope
      unfold Env.binder at hsome
      rw [hrep.chain_eq] at hsome
      refine assignIn_layers hrep.layers hnodup hn hrep.builtins rfl hmaps.live hsome (fun s k => ?_) his
      exact congrArg (fun env : Env String Val => env.vars s k) henv'

/-! ## Declarations -/

/-- A declaration that replaces a value keeps the constant flag, as the layer does. -/
theorem Machine.ScopeIs.flag (h : m.ScopeIs s layer) (hn : NotBuiltin name) (isConst : Bool) :
    ((m.env.vars s name).map Prod.snd).getD isConst = ((layer.vars name).map Prod.snd).getD isConst := by
  rcases h.cases hn with ⟨hv, hl⟩ | ⟨v, value, isConst, hv, hl, -⟩
  · rw [hv, hl]
    rfl
  · rw [hv, hl]
    rfl

/-- The innermost scope of which a name is set by `valmap_set_default`. -/
theorem Machine.Represents.setDefault (h : m.Represents memory (s :: rest)) (hl : memory.layers = layer :: layers)
    (hn : NotBuiltin name) (his : v.Is value) (isConst : Bool) : ∃ scopes',
      scopeSetDefault m.scopes s name v isConst = some scopes' ∧ MapsOnly m.scopes scopes' ∧
        ({ m with scopes := scopes' } : Machine).Represents
          { memory with layers := layer.replace name value isConst :: layers } (s :: rest) := by
  obtain ⟨layer', layers', hl', hs, -⟩ := h.head
  rw [hl] at hl'
  obtain ⟨rfl, rfl⟩ := List.cons.inj hl'
  obtain ⟨scope, hread, -⟩ := Heap.exists_read hs.live
  have hset : ∃ scopes', scopeSetDefault m.scopes s name v isConst = some scopes' := by
    unfold scopeSetDefault
    rw [hread]
    exact ⟨_, rfl⟩
  obtain ⟨scopes', hset⟩ := hset
  obtain ⟨-, hmaps, henv, -⟩ := scopeSetDefault_spec hset
  refine ⟨scopes', hset, hmaps, ?_⟩
  rw [hs.flag hn] at henv
  exact h.bindTop hl hn hmaps rfl rfl rfl rfl henv his

/-- The test for a declaration that replaces a value. -/
theorem read_reuses (hl : m.scopes.isLive s = true) :
    ((m.scopes.read s).map fun scope => scope.mode = .scModeReuse && scope.uniqueId = scope.prevUniqueId) =
      some (m.reuses s) := by
  obtain ⟨scope, hread, hpeek⟩ := Heap.exists_read hl
  unfold Machine.reuses
  rw [hread, hpeek]
  rfl

theorem means_evalVarDecl {value : Option AstNode} (hn : NotBuiltin name)
    (h : Means loops stack (scope :: rest) (declValue rec scope value) y Val.Is) :
    Means loops stack (scope :: rest) (evalVarDecl rec scope pos name isConst value)
      (do
        let v ← y
        declare pos name v isConst
        pure .null) Val.Is := by
  unfold evalVarDecl
  refine Simulates.bind h fun v value his => ?_
  intro w memory hw
  obtain ⟨hm, hrep, hstack⟩ := hw
  obtain ⟨layer, layers, hl, hs, hreuses, -⟩ := hrep.head
  rw [bind_ok (readOrThrow_ok (read_reuses hs.live))]
  cases hreplaces : layer.replaces with
  | true =>
    obtain ⟨scopes', hset, hmaps, hrep'⟩ := hrep.setDefault hl hn his isConst
    have hset' : setDefaultIn scope name v isConst w =
        .ok () ⟨{ w.state with scopes := scopes' }, ⟨.setDefault scope name, w.state, { w.state with scopes := scopes' }⟩ :: w.trace⟩ := by
      refine act_eq_ok ?_
      rw [hset]
      rfl
    rw [hreuses, hreplaces, if_pos rfl, bind_ok hset', bind_ok (declare_replaces hl hreplaces)]
    exact .ok ⟨⟨rfl, rfl⟩, hm.maps hmaps, hrep'.congr rfl rfl rfl rfl rfl rfl, hstack⟩
  | false =>
    obtain ⟨r, hr⟩ := scopeDeclareIdentifier_returns hs.live name v isConst
    obtain ⟨-, hmaps, hstatus, henv, -⟩ := scopeDeclareIdentifier_spec hr
    have hdeclare : declareIdentifier scope name v isConst w = .ok r.1
        ⟨{ w.state with scopes := r.2.2 }, ⟨.declare scope name r.1, w.state, { w.state with scopes := r.2.2 }⟩ :: w.trace⟩ := by
      refine perform_ok ?_
      rw [hr]
      rfl
    rw [hreuses, hreplaces, if_neg Bool.false_ne_true, bind_ok hdeclare]
    rcases hs.cases hn with ⟨hv, hlv⟩ | ⟨u, old, c, hv, hlv, -⟩
    · have hv' : (envOf w.state.scopes).vars scope name = none := hv
      rw [hv', Option.isSome_none, if_neg Bool.false_ne_true] at hstatus henv
      rw [hstatus, if_neg (by decide), bind_ok (declare_new hl hreplaces hlv)]
      have hrep' : ({ w.state with scopes := r.2.2 } : Machine).Represents
          { memory with layers := layer.bind name value isConst :: layers } (scope :: rest) :=
        hrep.bindTop hl hn hmaps rfl rfl rfl rfl henv his
      exact .ok ⟨⟨rfl, rfl⟩, hm.maps hmaps, hrep'.congr rfl rfl rfl rfl rfl rfl, hstack⟩
    · have hv' : (envOf w.state.scopes).vars scope name = some (u, c) := hv
      rw [hv', Option.isSome_some, if_pos rfl] at hstatus
      have hexists : (layer.vars name).isSome = true := by
        rw [hlv]
        rfl
      rw [hstatus, if_pos rfl, bind_error (declare_exists hl hreplaces hexists)]
      exact .error ⟨rfl, hrep.hasWritten⟩

end Blaze
