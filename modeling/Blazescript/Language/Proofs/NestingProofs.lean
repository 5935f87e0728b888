import Blazescript.Language.Proofs.NamesProofs

/-!
# Proofs: blocks and loops in programs without functions

Opening a scope adds a layer, and freeing it drops the layer: no value of a layer owns a slot.
-/

namespace Blaze

open Arena Environment Running Tracing

variable {loops : List Nat} {stack : List Frame} {scopes rest : List Nat} {scope s : Nat} {m m' : Machine}
  {memory : Memory} {layer : Layer} {layers : List Layer} {v : Val} {value : Scalar} {pos : Pos} {name : String}
  {rec : Nat → AstNode → Eval Val} {node : AstNode}

/-! ## Opening a scope -/

theorem LoopScopes.alloc {sc : Scope Val} (h : LoopScopes loops m) (hscopes : m'.scopes = m.scopes.alloc sc) :
    LoopScopes loops m' := by
  intro t ht
  have hmode := h t ht
  obtain ⟨sc', hpeek, -⟩ := Option.map_eq_some_iff.mp hmode
  rw [hscopes, Heap.peek_alloc, if_neg (Nat.ne_of_lt (Heap.lt_of_peek hpeek))]
  exact hmode

/-- A new scope is a new layer. It binds the built-in functions only. -/
theorem Machine.Represents.opened {sc : Scope Val} (h : m.Represents memory (scope :: rest))
    (hscopes : m'.scopes = m.scopes.alloc sc) (hbuiltins : m'.builtins = m.builtins) (hfns : m'.fns = m.fns)
    (hstore : m'.store = m.store) (htbl : m'.tbl = m.tbl) (hparent : sc.parent = some scope)
    (hvars : ∀ k, sc.valmap.binding k = (m.builtins.lookup k).map fun v => (v, true))
    (hreuse : (sc.mode = .scModeReuse && sc.uniqueId = sc.prevUniqueId) = false) :
    m'.Represents { memory with layers := .empty :: memory.layers } (m.scopes.size :: scope :: rest) := by
  have hlt : ∀ t ∈ scope :: rest, t < m.scopes.size := fun t ht => Heap.lt_of_isLive (h.live ht)
  have hscope : scope < m.scopes.size := hlt scope (List.mem_cons_self ..)
  have henv : m'.env = envOf (m.scopes.alloc sc) := congrArg envOf hscopes
  have hrooted : Rooted m'.env.parent := by
    rw [henv]
    refine alloc_rooted m.scopes sc h.rooted fun p hp => ?_
    rw [hparent] at hp
    obtain rfl := Option.some.inj hp
    exact hscope
  have hnew : m'.ScopeIs m.scopes.size .empty := by
    refine ⟨?_, fun k u hu => ?_, fun k hk => ?_⟩
    · rw [hscopes, Heap.isLive_alloc, decide_eq_true rfl, Bool.true_or]
    · rw [henv, alloc_vars, if_pos rfl, hvars, ← hbuiltins, hu]
      rfl
    · rw [henv, alloc_vars, if_pos rfl, hvars, (h.builtins.lookup k).mpr hk]
      exact .none
  refine ⟨hrooted, fun t ht => ?_, h.builtins.congr hbuiltins hfns, .cons hnew ?_, ?_, ?_, ?_, ?_⟩
  · obtain rfl := Option.some.inj ht
    have hp : m'.env.parent m.scopes.size = some scope := by
      rw [henv, alloc_parent, if_pos rfl]
      exact hparent
    rw [chain_parent hrooted hp, henv, alloc_chain m.scopes sc h.rooted hscope]
    exact congrArg _ h.chain_eq
  · refine forall₂_imp_of_mem h.layers fun t ht layer ht' => ht'.congr hbuiltins ?_ fun k => ?_
    · rw [hscopes, Heap.isLive_alloc, decide_eq_false (Nat.ne_of_lt (hlt t ht)), Bool.false_or]
    · rw [henv, alloc_vars, if_neg (Nat.ne_of_lt (hlt t ht))]
  · refine List.cons_eq_cons.mpr ⟨?_, ?_⟩
    · unfold Machine.reuses
      rw [hscopes, Heap.peek_alloc, if_pos rfl]
      exact hreuse
    · refine Eq.trans (List.map_congr_left fun t ht => ?_) h.replaces
      unfold Machine.reuses
      rw [hscopes, Heap.peek_alloc, if_neg (Nat.ne_of_lt (hlt t ht))]
  · rw [hstore]
    exact h.out
  · rw [htbl]
    exact h.room
  · rw [hstore]
    exact h.error

/-! ## Freeing a scope -/

/-- No value of the scope owns a slot that is freed with it. -/
theorem valmapFreeValue_none {freeScope : Machine → Nat → Option Machine} (h : v.nofree = true ∨ v.selfPtr = none) :
    Machine.valmapFreeValue freeScope m v = some m := by
  unfold Machine.valmapFreeValue
  by_cases hv : v.data ≠ .null ∧ v.nofree = false
  · rw [if_pos hv]
    rcases h with h | h
    · rw [h] at hv
      exact absurd hv.2 Bool.noConfusion
    · rw [h]
  · rw [if_neg hv]

theorem Machine.ScopeIs.keeps_slots (h : m.ScopeIs s layer) (hb : m.HasBuiltins) {isConst : Bool}
    (hv : m.env.vars s name = some (v, isConst)) : v.nofree = true ∨ v.selfPtr = none := by
  cases hlookup : m.builtins.lookup name with
  | some u =>
    have hu := h.builtin name u hlookup
    rw [hv] at hu
    obtain ⟨rfl, -⟩ := Prod.mk.inj (Option.some.inj hu)
    exact .inl (hb.callback name v hlookup).1
  | none =>
    rcases h.cases ((hb.lookup name).mp hlookup) with ⟨hv', -⟩ | ⟨u, value, c, hv', -, his⟩
    · rw [hv] at hv'
      cases hv'
    · rw [hv] at hv'
      obtain ⟨rfl, -⟩ := Prod.mk.inj (Option.some.inj hv')
      exact .inr his.selfPtr

/-- `scope_free` frees the scope and nothing else. -/
theorem Machine.ScopeIs.free (h : m.ScopeIs s layer) (hb : m.HasBuiltins) :
    m.scopeFree s = some { m with scopes := m.scopes.free s } := by
  obtain ⟨scope, hread, hpeek⟩ := Heap.exists_read h.live
  have hvalues : ∀ values : List Val, (∀ v ∈ values, v.nofree = true ∨ v.selfPtr = none) →
      values.foldlM (Machine.valmapFreeValue (Machine.scopeFreeFrom m.fns.size)) m = some m := by
    intro values
    induction values with
    | nil => exact fun _ => rfl
    | cons v values ih =>
      intro hall
      obtain ⟨hv, hrest⟩ := List.forall_mem_cons.mp hall
      rw [List.foldlM_cons, valmapFreeValue_none hv]
      exact ih hrest
  have hall : ∀ v ∈ scope.valmap.values, v.nofree = true ∨ v.selfPtr = none := by
    intro v hv
    obtain ⟨name, isConst, hbinding⟩ := Valmap.mem_values.mp hv
    exact h.keeps_slots hb ((vars_of_peek hpeek name).trans hbinding)
  unfold Machine.scopeFree Machine.scopeFreeFrom
  rw [hread, Option.bind_some, hvalues scope.valmap.values hall, Option.bind_some, if_pos h.live]

theorem chain_tail {parent : Nat → Option Nat} (hr : Rooted parent) {i j : Nat} {l : List Nat}
    (h : Arena.chain parent i = i :: j :: l) : Arena.chain parent j = j :: l := by
  cases hp : parent i with
  | none =>
    rw [chain_root hp] at h
    cases h
  | some p =>
    rw [chain_parent hr hp] at h
    obtain ⟨-, hchain⟩ := List.cons.inj h
    obtain ⟨l', hl'⟩ := @chain_cons parent p
    rw [hl'] at hchain
    obtain ⟨rfl, rfl⟩ := List.cons.inj hchain
    exact hl'

/-- Without the innermost scope, the other scopes are the other layers. -/
theorem Machine.Represents.closed (h : m.Represents memory (s :: scope :: rest))
    (hscopes : m'.scopes = m.scopes.free s) (hbuiltins : m'.builtins = m.builtins) (hfns : m'.fns = m.fns)
    (hstore : m'.store = m.store) (htbl : m'.tbl = m.tbl) :
    m'.Represents { memory with layers := memory.layers.tail } (scope :: rest) := by
  obtain ⟨layer, layers, hl, -, -, hlayers, hreplaces⟩ := h.head
  have hpeek : ∀ t, m'.scopes.peek t = m.scopes.peek t := by
    intro t
    rw [hscopes, Heap.peek_free]
  have henv : m'.env = m.env := by
    unfold Machine.env envOf
    simp only [hpeek]
  have hnodup : (s :: scope :: rest).Nodup := by
    rw [← h.chain_eq]
    exact chain_nodup h.rooted s
  obtain ⟨hs, -⟩ := List.nodup_cons.mp hnodup
  refine ⟨?_, fun t ht => ?_, h.builtins.congr hbuiltins hfns, ?_, ?_, ?_, ?_, ?_⟩
  · rw [henv]
    exact h.rooted
  · obtain rfl := Option.some.inj ht
    rw [henv]
    exact chain_tail h.rooted h.chain_eq
  · show List.Forall₂ m'.ScopeIs (scope :: rest) memory.layers.tail
    rw [hl]
    refine forall₂_imp_of_mem hlayers fun t ht layer ht' => ht'.congr hbuiltins ?_ fun k => ?_
    · have hne : t ≠ s := fun hc => hs (hc ▸ ht)
      rw [hscopes, Heap.isLive_free, decide_eq_true hne, Bool.and_true]
    · rw [henv]
  · show (scope :: rest).map m'.reuses = memory.layers.tail.map Layer.replaces
    rw [hl]
    refine Eq.trans (List.map_congr_left fun t _ => ?_) hreplaces
    unfold Machine.reuses
    rw [hpeek]
  · rw [hstore]
    exact h.out
  · rw [htbl]
    exact h.room
  · rw [hstore]
    exact h.error

/-- The end of a block or loop. -/
theorem closeScope_of_represents {w : World Machine Event} {locals : Locals}
    (h : w.state.Represents memory (s :: scope :: rest)) (hloops : LoopScopes loops w.state)
    (hstack : w.state.stack = ⟨scope, node, locals⟩ :: stack) : ∃ w', closeScope s w = .ok () w' ∧
      LoopScopes loops w'.state ∧
      w'.state.Represents { memory with layers := memory.layers.tail } (scope :: rest) ∧
      w'.state.stack = ⟨scope, node, .none⟩ :: stack := by
  obtain ⟨layer, layers, -, hs, -⟩ := h.head
  have hfree := hs.free h.builtins
  let m' : Machine := { w.state with
    scopes := w.state.scopes.free s, result := nullVal, stack := ⟨scope, node, .none⟩ :: stack }
  have hclose : (w.state.scopeFree s).bind (fun m => ({ m with result := nullVal } : Machine).withLocals .none) =
      some m' := by
    rw [hfree, Option.bind_some]
    unfold Machine.withLocals
    rw [hstack]
  refine ⟨_, act_eq_ok hclose, fun t ht => ?_, h.closed rfl rfl rfl rfl rfl, rfl⟩
  show ((w.state.scopes.free s).peek t).map Scope.mode = some .scModeReuse
  rw [Heap.peek_free]
  exact hloops t ht

end Blaze
