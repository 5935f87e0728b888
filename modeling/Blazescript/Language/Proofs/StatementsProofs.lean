import Blazescript.Eval.Loops
import Blazescript.Language.Proofs.NestingProofs

/-!
# Proofs: statements of programs without functions

Blocks, loops and `if` statements do what they mean, if the nodes in them do.
-/

namespace Blaze

open Arena Environment Running Tracing

variable {loops : List Nat} {stack : List Frame} {scopes rest : List Nat} {scope s : Nat} {m m' : Machine}
  {memory : Memory} {layer : Layer} {layers : List Layer} {v : Val} {value : Scalar} {pos : Pos} {name : String}
  {rec : Nat → AstNode → Eval Val} {node : AstNode}

theorem NodeMeans.call (h : NodeMeans rec node) (body : Option Nat) :
    Means loops stack (scope :: rest) (callEval rec body scope node) (meaning node) Val.Is :=
  (h loops stack scope rest).call (lasting_loopScopes loops) body

theorem means_giveNull : Means loops stack scopes (giveValue blazeNull) (pure .null) Val.Is :=
  simulates_giveValue (lasting_loopScopes loops) ⟨rfl, rfl⟩

theorem means_evalStmts {stmts : List AstNode} (h : ∀ stmt ∈ stmts, NodeMeans rec stmt) :
    Means loops stack (scope :: rest) (evalStmts rec scope stmts) (meaningAll stmts) fun _ _ => True := by
  induction stmts with
  | nil => exact simulates_pure trivial
  | cons stmt stmts ih =>
    obtain ⟨hstmt, hstmts⟩ := List.forall_mem_cons.mp h
    exact Simulates.bind (hstmt.call none) fun _ _ _ => ih hstmts

theorem means_evalRoot {nodes : List AstNode} (h : ∀ node ∈ nodes, NodeMeans rec node) (hv : v.Is value) :
    Means loops stack (scope :: rest) (evalRoot rec scope nodes v) (meaningLast value nodes) Val.Is := by
  induction nodes generalizing v value with
  | nil => exact simulates_pure hv
  | cons node nodes ih =>
    obtain ⟨hnode, hnodes⟩ := List.forall_mem_cons.mp h
    exact Simulates.bind (hnode.call none) fun _ _ his => ih hnodes his

theorem means_declValue {value : Option AstNode} (h : ∀ node ∈ value, NodeMeans rec node) :
    Means loops stack (scope :: rest) (declValue rec scope value) (meaningOr .null value) Val.Is := by
  cases value with
  | none => exact simulates_giveValue (lasting_loopScopes loops) ⟨rfl, rfl⟩
  | some node => exact (h node rfl).call none

theorem means_evalIfStmt {condition ifBlock : AstNode} {elseBlock : Option AstNode} (hc : NodeMeans rec condition)
    (hi : NodeMeans rec ifBlock) (he : ∀ node ∈ elseBlock, NodeMeans rec node) :
    Means loops stack (scope :: rest) (evalIfStmt rec scope condition ifBlock elseBlock)
      (meaning (.ifStmt pos condition ifBlock elseBlock)) Val.Is := by
  unfold evalIfStmt meaning
  refine Simulates.bind (hc.call none) fun v value his => ?_
  rw [his.truthy]
  refine refines_ite Iff.rfl (fun _ => ?_) fun _ => ?_
  · exact Simulates.bind (hi.call none) fun _ _ _ => means_giveNull
  · cases elseBlock with
    | none => exact means_giveNull
    | some elseBlock => exact Simulates.bind ((he elseBlock rfl).call none) fun _ _ _ => means_giveNull

/-! ## Blocks -/

/-- The end of a block or loop, in which the innermost layer is dropped, whatever it is. -/
theorem refines_close (locals : Locals) {R : World Machine Event → Memory → Prop} (hR : ∀ w memory, R w memory →
      ∃ memory', memory'.layers.tail = memory.layers.tail ∧ memory'.out = memory.out ∧ memory'.room = memory.room ∧
        HasMemory (LoopScopes loops) (⟨scope, node, locals⟩ :: stack) (s :: scope :: rest) w memory') :
    Refines Unspecified R
      (do
        closeScope s
        giveValue blazeNull)
      (do
        popLayer
        pure Scalar.null)
      (fun v w value memory => v.Is value ∧
        HasMemory (LoopScopes loops) (⟨scope, node, .none⟩ :: stack) (scope :: rest) w memory) Stops := by
  refine Refines.bind (Q := fun _ w _ memory =>
    HasMemory (LoopScopes loops) (⟨scope, node, .none⟩ :: stack) (scope :: rest) w memory) ?_ fun _ _ => means_giveNull
  refine refines_of_ok fun w memory hw => ?_
  obtain ⟨memory', htail, hout, hroom, hw'⟩ := hR w memory hw
  obtain ⟨w', hclose, hloops, hrep, hstack⟩ := closeScope_of_represents hw'.represents hw'.kept hw'.stack
  rw [htail] at hrep
  have hsame : ({ memory' with layers := memory.layers.tail } : Memory) =
      { memory with layers := memory.layers.tail } := congrArg₂ (Memory.mk memory.layers.tail) hout hroom
  rw [hsame] at hrep
  exact ⟨(), w', (), _, hclose, rfl, hloops, hrep, hstack⟩

theorem means_evalBlock {children : List AstNode} (h : ∀ stmt ∈ children, NodeMeans rec stmt) :
    Means loops (⟨scope, node, .none⟩ :: stack) (scope :: rest) (evalBlock rec scope children)
      (meaning (.block pos children)) Val.Is := by
  unfold evalBlock meaning
  have hopen : Refines Unspecified (HasMemory (LoopScopes loops) (⟨scope, node, .none⟩ :: stack) (scope :: rest))
      (openBlock scope) (pushLayer .empty) (fun s w _ memory =>
        HasMemory (LoopScopes loops) (⟨scope, node, .block s⟩ :: stack) (s :: scope :: rest) w memory) Stops := by
    refine refines_of_ok fun w memory hw => ?_
    let m' : Machine := { w.state with
      scopes := w.state.scopes.alloc (scopeInit w.state.builtins (some scope))
      stack := ⟨scope, node, .block w.state.scopes.size⟩ :: stack }
    have hstep : openBlock scope w =
        .ok w.state.scopes.size ⟨m', ⟨.openScope w.state.scopes.size, w.state, m'⟩ :: w.trace⟩ := by
      refine perform_ok ?_
      unfold Machine.withLocals
      dsimp only
      rw [hw.stack]
      rfl
    obtain ⟨hframe, hbinding⟩ := scopeInit_child w.state.builtins scope
    unfold Scope.frame at hframe
    simp only [Prod.mk.injEq] at hframe
    obtain ⟨hparent, hmode, -⟩ := hframe
    refine ⟨_, _, (), _, hstep, rfl, hw.kept.alloc rfl, ?_, rfl⟩
    refine hw.represents.opened rfl rfl rfl rfl rfl hparent hbinding ?_
    rw [hmode]
    rfl
  refine Refines.bind hopen fun s _ => ?_
  exact Refines.bind (means_evalStmts h) fun _ _ => Refines.of_fact fun _ =>
    refines_close (.block s) fun w memory hw => ⟨memory, rfl, rfl, rfl, hw⟩

/-! ## Loops -/

/-- The scope of a loop gets other fields, and nothing else changes. -/
theorem Machine.Represents.ids {sc : Scope Val} {prevUniqueId uniqueId : Nat} (h : m.Represents memory (s :: rest))
    (hl : memory.layers = layer :: layers) (hread : m.scopes.read s = some sc)
    (hscopes : m'.scopes = m.scopes.write s { sc with prevUniqueId := prevUniqueId, uniqueId := uniqueId })
    (hbuiltins : m'.builtins = m.builtins) (hfns : m'.fns = m.fns) (hstore : m'.store = m.store)
    (htbl : m'.tbl = m.tbl) :
    m'.Represents { memory with layers :=
      { layer with replaces := sc.mode = .scModeReuse && uniqueId = prevUniqueId } :: layers } (s :: rest) := by
  obtain ⟨layer', layers', hl', hs, -, hrest, hreplaces⟩ := h.head
  rw [hl] at hl'
  obtain ⟨rfl, rfl⟩ := List.cons.inj hl'
  have hpeek := (Heap.read_eq_some.mp hread).2
  have hwritten : ∀ t, m'.scopes.peek t =
      if t = s then some { sc with prevUniqueId := prevUniqueId, uniqueId := uniqueId } else m.scopes.peek t := by
    intro t
    rw [hscopes, Heap.peek_write, hpeek]
    rfl
  have hlive : ∀ t, m'.scopes.isLive t = m.scopes.isLive t := by
    intro t
    rw [hscopes, Heap.isLive_write]
  have henv : m'.env = m.env := by
    refine Env.ext (funext fun t => ?_) (funext fun t => funext fun k => ?_)
    · show (m'.scopes.peek t).bind Scope.parent = (m.scopes.peek t).bind Scope.parent
      rw [hwritten]
      split_ifs with ht
      · rw [ht, hpeek]
        rfl
      · rfl
    · show ((m'.scopes.peek t).bind fun scope => scope.valmap.binding k) =
        (m.scopes.peek t).bind fun scope => scope.valmap.binding k
      rw [hwritten]
      split_ifs with ht
      · rw [ht, hpeek]
        rfl
      · rfl
  have hnodup : (s :: rest).Nodup := by
    rw [← h.chain_eq]
    exact chain_nodup h.rooted s
  obtain ⟨hs', -⟩ := List.nodup_cons.mp hnodup
  refine ⟨?_, ?_, h.builtins.congr hbuiltins hfns, .cons ?_ ?_, ?_, ?_, ?_, ?_⟩
  · rw [henv]
    exact h.rooted
  · rw [henv]
    exact h.chain
  · have hsame : m'.ScopeIs s layer := hs.congr hbuiltins (hlive s) fun k => by rw [henv]
    exact ⟨hsame.live, hsame.builtin, hsame.vars⟩
  · refine hrest.imp fun t layer ht => ht.congr hbuiltins (hlive t) fun k => ?_
    rw [henv]
  · refine List.cons_eq_cons.mpr ⟨?_, Eq.trans (List.map_congr_left fun t ht => ?_) hreplaces⟩
    · unfold Machine.reuses
      rw [hwritten, if_pos rfl]
      rfl
    · have hne : t ≠ s := fun hc => hs' (hc ▸ ht)
      unfold Machine.reuses
      rw [hwritten, if_neg hne]
  · rw [hstore]
    exact h.out
  · rw [htbl]
    exact h.room
  · rw [hstore]
    exact h.error

theorem LoopScopes.ids {sc : Scope Val} {prevUniqueId uniqueId : Nat} (h : LoopScopes loops m)
    (hread : m.scopes.read s = some sc)
    (hscopes : m'.scopes = m.scopes.write s { sc with prevUniqueId := prevUniqueId, uniqueId := uniqueId }) :
    LoopScopes loops m' := by
  intro t ht
  have hpeek := (Heap.read_eq_some.mp hread).2
  have hmode := h t ht
  rw [hscopes, Heap.peek_write]
  split_ifs with hts
  · rw [hts, hpeek] at hmode
    rw [hpeek]
    exact hmode
  · exact hmode

theorem LoopScopes.mode {sc : Scope Val} (h : LoopScopes (s :: loops) m) (hread : m.scopes.read s = some sc) :
    sc.mode = .scModeReuse := by
  have hmode := h s (List.mem_cons_self ..)
  rw [(Heap.read_eq_some.mp hread).2] at hmode
  exact Option.some.inj hmode

/-- An iteration begins. -/
theorem LoopAt.begin {k : Nat} {w : World Machine Event} (h : LoopAt loops stack s scopes k w memory) :
    ∃ w', setPrevUniqueId s k w = .ok () w' ∧ HasMemory (LoopScopes (s :: loops)) stack (s :: scopes) w' memory := by
  obtain ⟨layer, layers, replaces, hl, hreplaces, hrep⟩ := h.represents
  obtain ⟨sc, hread, hpeek⟩ := Heap.exists_read (hrep.live (List.mem_cons_self ..))
  let m' : Machine := { w.state with scopes := w.state.scopes.write s { sc with prevUniqueId := k } }
  have hstep : setPrevUniqueId s k w = .ok () ⟨m', ⟨.loopIds s, w.state, m'⟩ :: w.trace⟩ := by
    refine act_eq_ok ?_
    rw [hread]
    rfl
  refine ⟨_, hstep, h.kept.ids hread rfl, ?_, h.stack⟩
  have hrep' : m'.Represents { memory with layers :=
      { layer with replaces := sc.mode = .scModeReuse && sc.uniqueId = k } :: layers } (s :: scopes) := by
    have hl' : ({ memory with layers := { layer with replaces := replaces } :: layers } : Memory).layers =
      { layer with replaces := replaces } :: layers := rfl
    have hscopes : m'.scopes = w.state.scopes.write s { sc with prevUniqueId := k, uniqueId := sc.uniqueId } := rfl
    have hids := hrep.ids hl' hread hscopes rfl rfl rfl rfl
    exact hids
  have hunique : sc.uniqueId = max 1 k := by
    have hid := h.uniqueId
    rw [hpeek] at hid
    exact Option.some.inj hid
  have hsame : (sc.mode = .scModeReuse && sc.uniqueId = k : Bool) = layer.replaces := by
    rw [h.kept.mode hread, hunique, hreplaces]
    simp only [decide_true, Bool.true_and, decide_eq_decide]
    omega
  rw [hsame] at hrep'
  obtain ⟨layers', out, room⟩ := memory
  subst hl
  exact hrep'

/-- An iteration ends. -/
theorem setUniqueId_of_represents {w : World Machine Event} (hl : memory.layers = layer :: layers)
    (h : HasMemory (LoopScopes (s :: loops)) stack (s :: scopes) w memory) (uniqueId : Nat) :
    ∃ w' replaces, setUniqueId s uniqueId w = .ok () w' ∧ LoopScopes (s :: loops) w'.state ∧
      w'.state.Represents { memory with layers := { layer with replaces := replaces } :: layers } (s :: scopes) ∧
      (w'.state.scopes.peek s).map Scope.uniqueId = some uniqueId ∧ w'.state.stack = stack := by
  obtain ⟨sc, hread, hpeek⟩ := Heap.exists_read (h.represents.live (List.mem_cons_self ..))
  let m' : Machine := { w.state with scopes := w.state.scopes.write s { sc with uniqueId := uniqueId } }
  have hstep : setUniqueId s uniqueId w = .ok () ⟨m', ⟨.loopIds s, w.state, m'⟩ :: w.trace⟩ := by
    refine act_eq_ok ?_
    rw [hread]
    rfl
  refine ⟨_, _, hstep, h.kept.ids hread rfl, h.represents.ids hl hread rfl rfl rfl rfl rfl, ?_, h.stack⟩
  show ((w.state.scopes.write s { sc with uniqueId := uniqueId }).peek s).map Scope.uniqueId = _
  rw [Heap.peek_write, if_pos rfl, hpeek]
  rfl

/-- The loop variable gets its next value, and declarations replace what is there from now on. -/
theorem refines_next {k : Nat} {varname : Option String} (hvar : ∀ name ∈ varname, NotBuiltin name) :
    Refines Unspecified (HasMemory (LoopScopes (s :: loops)) stack (s :: scopes))
      (do
        setUniqueId s (k + 1)
        setLoopVar s (k + 1) varname)
      (inTop fun layer => layer.next (k + 1) varname)
      (fun _ w _ memory => LoopAt loops stack s scopes (k + 1) w memory) Stops := by
  refine refines_of_ok fun w memory hw => ?_
  obtain ⟨layer, layers, hl, -⟩ := hw.represents.head
  obtain ⟨w₁, replaces, hset, hloops, hrep, hunique, hstack⟩ := setUniqueId_of_represents hl hw (k + 1)
  have htop := inTop_ok hl fun layer => layer.next (k + 1) varname
  have hmax : max 1 (k + 1) = k + 1 := by omega
  have hpos : true = decide (0 < k + 1) := by simp
  cases varname with
  | none =>
    refine ⟨(), w₁, (), _, ?_, htop, hloops, ⟨_, _, replaces, rfl, hpos, hrep⟩, ?_, hstack⟩
    · rw [bind_ok hset]
      rfl
    · rw [hmax]
      exact hunique
  | some name =>
    have his : (Val.ofData (.integer (k + 1 : Nat))).Is (.integer (k + 1 : Nat)) := ⟨rfl, rfl⟩
    obtain ⟨scopes', hdefault, hmaps, hrep'⟩ := hrep.setDefault rfl (hvar name rfl) his true
    let m' : Machine := { w₁.state with scopes := scopes' }
    have hstep : setLoopVar s (k + 1) (some name) w₁ = .ok () ⟨m', ⟨.setDefault s name, w₁.state, m'⟩ :: w₁.trace⟩ := by
      unfold setLoopVar setDefaultIn
      refine act_eq_ok ?_
      rw [hdefault]
      rfl
    refine ⟨(), ⟨m', ⟨.setDefault s name, w₁.state, m'⟩ :: w₁.trace⟩, (), _, ?_, htop, hloops.maps hmaps,
      ⟨layer.next (k + 1) (some name), layers, replaces, rfl, hpos, hrep'⟩, ?_, hstack⟩
    · rw [bind_ok hset]
      exact hstep
    · rw [hmax, ← hunique]
      have hframe := congrArg (Option.map fun f : Option Nat × ScopeMode × Nat × Nat => f.2.2.1) (hmaps.frame s)
      rw [Option.map_map, Option.map_map] at hframe
      exact hframe

/-- The iterations from number `k` on. -/
theorem refines_loopFrom {body : AstNode} {varname : Option String} {count : Val} {total : Nat}
    (hvar : ∀ name ∈ varname, NotBuiltin name) (hbody : BodyMeans rec body)
    (hcount : ∀ k, loopContinues count k = decide (k < total)) : ∀ gas k, k ≤ total → total ≤ k + gas →
      Refines Unspecified (LoopAt loops stack s (scope :: rest) k) (loopFrom rec s varname body count gas k)
        (iterate (bodyMeaning body) varname (total - k) k)
        (fun _ w _ memory => LoopAt loops stack s (scope :: rest) total w memory) Stops := by
  intro gas
  induction gas with
  | zero =>
    intro k hk hgas
    obtain rfl : k = total := by omega
    unfold loopFrom
    rw [hcount, decide_eq_false (Nat.lt_irrefl k), if_neg Bool.false_ne_true, Nat.sub_self]
    exact refines_pure fun w memory h => h
  | succ gas ih =>
    intro k hk hgas
    unfold loopFrom
    by_cases hlt : k < total
    · obtain ⟨n, hn⟩ : ∃ n, total - k = n + 1 := ⟨total - k - 1, by omega⟩
      have hn' : n = total - (k + 1) := by omega
      have hbegin : ∀ w memory, LoopAt loops stack s (scope :: rest) k w memory →
          ∃ a w', setPrevUniqueId s k w = .ok a w' ∧
            (fun (_ : Unit) => HasMemory (LoopScopes (s :: loops)) stack (s :: scope :: rest)) a w' memory :=
        fun w memory h => ⟨(), h.begin⟩
      rw [hcount, decide_eq_true hlt, if_pos rfl, hn]
      unfold loopIteration iterate
      simp only [bind_assoc]
      refine Refines.step_left hbegin fun _ => ?_
      refine Refines.bind (hbody (s :: loops) stack s (scope :: rest)) fun _ _ => Refines.of_fact fun _ => ?_
      rw [← bind_assoc, hn']
      exact Refines.bind (refines_next hvar) fun _ _ => ih (k + 1) hlt (by omega)
    · obtain rfl : k = total := by omega
      rw [hcount, decide_eq_false hlt, if_neg Bool.false_ne_true, Nat.sub_self]
      exact refines_pure fun w memory h => h

/-- The scope of a loop is made, and the loop variable is declared. -/
theorem enterLoop_of_represents {varname : Option String} {w : World Machine Event}
    (hvar : ∀ name ∈ varname, NotBuiltin name)
    (h : HasMemory (LoopScopes loops) (⟨scope, node, .none⟩ :: stack) (scope :: rest) w memory) :
    ∃ s w₁ w₂, openLoop scope w = .ok s w₁ ∧ declareLoopVar s varname w₁ = .ok () w₂ ∧
      LoopAt loops (⟨scope, node, .loop s⟩ :: stack) s (scope :: rest) 0 w₂
        { memory with layers := loopLayer varname :: memory.layers } := by
  let sc : Scope Val := { scopeInit w.state.builtins (some scope) with
    allowRedecl := false, mode := .scModeReuse, prevUniqueId := 0, uniqueId := 1, noRedecl := rfl }
  let s := w.state.scopes.size
  let m' : Machine := { w.state with
    scopes := w.state.scopes.alloc sc, stack := ⟨scope, node, .loop s⟩ :: stack }
  have hopen : openLoop scope w = .ok s ⟨m', ⟨.openScope s, w.state, m'⟩ :: w.trace⟩ := by
    refine perform_ok ?_
    unfold Machine.withLocals
    dsimp only
    rw [h.stack]
    rfl
  obtain ⟨hframe, hbinding⟩ := scopeInit_child w.state.builtins scope
  unfold Scope.frame at hframe
  simp only [Prod.mk.injEq] at hframe
  obtain ⟨hparent, -⟩ := hframe
  have hrep : m'.Represents { memory with layers := .empty :: memory.layers } (s :: scope :: rest) :=
    h.represents.opened rfl rfl rfl rfl rfl hparent hbinding rfl
  have hpeek : m'.scopes.peek s = some sc := by
    show (w.state.scopes.alloc sc).peek s = some sc
    rw [Heap.peek_alloc, if_pos rfl]
  have hloops : LoopScopes (s :: loops) m' := by
    intro t ht
    rcases List.mem_cons.mp ht with rfl | ht
    · rw [hpeek]
      rfl
    · exact h.kept.alloc rfl t ht
  have hunique : (m'.scopes.peek s).map Scope.uniqueId = some 1 := by
    rw [hpeek]
    rfl
  cases varname with
  | none => exact ⟨s, _, _, hopen, rfl, hloops, ⟨.empty, memory.layers, false, rfl, rfl, hrep⟩, hunique, rfl⟩
  | some name =>
    have hn := hvar name rfl
    obtain ⟨layer, layers, hl, hs, -⟩ := hrep.head
    obtain ⟨rfl, -⟩ := List.cons.inj hl
    have hnone : m'.env.vars s name = none := by
      rcases hs.cases hn with ⟨hv, -⟩ | ⟨u, old, c, -, hlv, -⟩
      · exact hv
      · cases hlv
    obtain ⟨r, hr⟩ := scopeDeclareIdentifier_returns hs.live name (.ofData (.integer 0)) true
    obtain ⟨-, hmaps, -, henv, -⟩ := scopeDeclareIdentifier_spec hr
    have hnone' : (envOf m'.scopes).vars s name = none := hnone
    rw [hnone', Option.isSome_none, if_neg Bool.false_ne_true] at henv
    let m₂ : Machine := { m' with scopes := r.2.2 }
    have hstep : declareIdentifier s name (.ofData (.integer 0)) true ⟨m', ⟨.openScope s, w.state, m'⟩ :: w.trace⟩ =
        .ok r.1 ⟨m₂, ⟨.declare s name r.1, m', m₂⟩ :: ⟨.openScope s, w.state, m'⟩ :: w.trace⟩ := by
      refine perform_ok ?_
      rw [hr]
      rfl
    have hdeclare : declareLoopVar s (some name) ⟨m', ⟨.openScope s, w.state, m'⟩ :: w.trace⟩ =
        .ok () ⟨m₂, ⟨.declare s name r.1, m', m₂⟩ :: ⟨.openScope s, w.state, m'⟩ :: w.trace⟩ := by
      have hbind : declareLoopVar s (some name) =
        declareIdentifier s name (.ofData (.integer 0)) true >>= fun _ => pure () := rfl
      rw [hbind, bind_ok hstep]
      rfl
    have hrep₂ : m₂.Represents { memory with layers := Layer.empty.bind name (.integer 0) true :: memory.layers }
        (s :: scope :: rest) := hrep.bindTop rfl hn hmaps rfl rfl rfl rfl henv ⟨rfl, rfl⟩
    refine ⟨s, _, _, hopen, hdeclare, hloops.maps hmaps, ⟨loopLayer (some name), memory.layers, false, rfl, rfl, hrep₂⟩,
      ?_, rfl⟩
    have hframe := congrArg (Option.map fun f : Option Nat × ScopeMode × Nat × Nat => f.2.2.1) (hmaps.frame s)
    rw [Option.map_map, Option.map_map] at hframe
    exact hframe.trans hunique

theorem means_runLoop {varname : Option String} {body : AstNode} {count : Val} {total gas : Nat}
    (hvar : ∀ name ∈ varname, NotBuiltin name) (hbody : BodyMeans rec body)
    (hcount : ∀ k, loopContinues count k = decide (k < total)) (hgas : total ≤ loopGas count gas) :
    Means loops (⟨scope, node, .none⟩ :: stack) (scope :: rest) (runLoop rec gas scope varname body count)
      (do
        pushLayer (loopLayer varname)
        iterate (bodyMeaning body) varname total 0
        popLayer
        pure .null) Val.Is := by
  have henter : Refines Unspecified (HasMemory (LoopScopes loops) (⟨scope, node, .none⟩ :: stack) (scope :: rest))
      (enterLoop scope varname) (pushLayer (loopLayer varname)) (fun s w _ memory =>
        LoopAt loops (⟨scope, node, .loop s⟩ :: stack) s (scope :: rest) 0 w memory) Stops := by
    refine refines_of_ok fun w memory h => ?_
    obtain ⟨s, w₁, w₂, hopen, hdeclare, hat⟩ := enterLoop_of_represents hvar h
    refine ⟨s, w₂, (), _, ?_, rfl, hat⟩
    unfold enterLoop
    rw [bind_ok hopen, bind_ok hdeclare]
    rfl
  have hrun : runLoop rec gas scope varname body count = (do
      let s ← enterLoop scope varname
      loopFrom rec s varname body count (loopGas count gas) 0
      closeScope s
      giveValue blazeNull) := by
    unfold enterLoop
    simp only [bind_assoc, pure_bind]
    rfl
  rw [hrun]
  refine Refines.bind henter fun s _ => ?_
  have hloop := @refines_loopFrom loops (⟨scope, node, .loop s⟩ :: stack) rest scope s rec body varname count total hvar
    hbody hcount (loopGas count gas) 0 (Nat.zero_le total) (by omega)
  rw [Nat.sub_zero] at hloop
  refine Refines.bind hloop fun _ _ => refines_close (.loop s) fun w memory hat => ?_
  obtain ⟨layer, layers, replaces, hl, -, hrep⟩ := hat.represents
  refine ⟨{ memory with layers := { layer with replaces := replaces } :: layers }, ?_, rfl, rfl,
    fun t ht => hat.kept t (List.mem_cons_of_mem _ ht), hrep, hat.stack⟩
  rw [hl]
  rfl

theorem meaning_loopStmt (pos : Pos) (iterCount : Option AstNode) (varname : Option String) (body : AstNode) :
    meaning (.loopStmt pos iterCount varname body) = (do
      let count ← meaningOr (.boolean true) iterCount
      repeated pos varname (bodyMeaning body) count) := by
  unfold meaning
  cases body <;> rfl

theorem means_loopCount {iterCount : Option AstNode} (h : ∀ node ∈ iterCount, NodeMeans rec node) :
    Means loops stack (scope :: rest) (loopCount rec scope iterCount) (meaningOr (.boolean true) iterCount) Val.Is := by
  cases iterCount with
  | none => exact simulates_giveValue (lasting_loopScopes loops) ⟨rfl, rfl⟩
  | some node => exact (h node rfl).call none

/-- A loop does what it means, if its count and its body do. -/
theorem means_evalLoopStmt {iterCount : Option AstNode} {varname : Option String} {body : AstNode} {gas : Nat}
    (hc : ∀ node ∈ iterCount, NodeMeans rec node) (hvar : ∀ name ∈ varname, NotBuiltin name)
    (hbody : BodyMeans rec body) :
    Means loops (⟨scope, node, .none⟩ :: stack) (scope :: rest)
      (evalLoopStmt rec gas scope pos iterCount varname body) (meaning (.loopStmt pos iterCount varname body))
      Val.Is := by
  rw [meaning_loopStmt]
  unfold evalLoopStmt
  refine Simulates.bind (means_loopCount hc) fun count value his => ?_
  have hdata := his.data
  cases value with
  | integer n =>
    rw [hdata]
    refine refines_ite Iff.rfl (fun _ => simulates_throwRuntime _ _) fun hn => ?_
    refine means_runLoop hvar hbody (fun k => ?_) ?_
    · unfold loopContinues
      rw [hdata]
      simp only [Scalar.data, decide_eq_decide]
      omega
    · unfold loopGas
      rw [hdata]
      exact le_rfl
  | boolean b =>
    rw [hdata]
    cases b with
    | true => exact simulates_unspecified
    | false =>
      have hrun := @means_runLoop loops stack rest scope rec node varname body count 0 gas hvar hbody (fun k => by
        unfold loopContinues
        rw [hdata]
        rfl) (Nat.zero_le _)
      exact hrun
  | quotient num den =>
    rw [hdata]
    exact simulates_throwRuntime _ _
  | null =>
    rw [hdata]
    exact simulates_throwRuntime _ _

end Blaze
