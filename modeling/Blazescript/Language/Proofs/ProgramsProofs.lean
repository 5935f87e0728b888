import Blazescript.Eval.Proofs.ShapeProofs
import Blazescript.Language.Proofs.PrintingProofs

/-!
# Proofs: programs without functions

The evaluator does what a program means, whenever the fuel is enough for the depth of the tree.
-/

namespace Blaze

open Arena Environment Running Tracing

variable {rec : Nat → AstNode → Eval Val} {node : AstNode} {m : Machine} {name : String} {v : Val}

/-! ## Fuel -/

/-- Enough fuel for each is enough for all. -/
theorem exists_fuel_forall {α : Type} {l : List α} {p : Nat → α → Prop} (h : ∀ a ∈ l, ∃ n, ∀ fuel ≥ n, p fuel a) :
    ∃ n, ∀ fuel ≥ n, ∀ a ∈ l, p fuel a := by
  simp only [← Filter.eventually_atTop] at h ⊢
  exact (Filter.eventually_all_finite l.finite_toSet).mpr h

theorem exists_fuel_option {α : Type} {o : Option α} {p : Nat → α → Prop} (h : ∀ a ∈ o, ∃ n, ∀ fuel ≥ n, p fuel a) :
    ∃ n, ∀ fuel ≥ n, ∀ a ∈ o, p fuel a := by
  cases o with
  | none => exact ⟨0, fun _ _ a ha => by cases ha⟩
  | some a =>
    obtain ⟨n, hn⟩ := h a rfl
    refine ⟨n, fun fuel hfuel b hb => ?_⟩
    obtain rfl := Option.some.inj hb
    exact hn fuel hfuel

/-! ## Nodes -/

/-- A node that is no block means the same as the body of a loop. -/
theorem NodeMeans.withBody (h : NodeMeans rec node) (hnode : ∀ pos children, node ≠ .block pos children) :
    NodeMeans rec node ∧ BodyMeans rec node := by
  refine ⟨h, fun loops stack scope rest => ?_⟩
  have hcall : Means loops stack (scope :: rest)
      (do
        let _ ← callEval rec none scope node
        pure ())
      (do
        let _ ← meaning node
        pure ()) fun _ _ => True :=
    Simulates.bind (h.call none) fun _ _ _ => simulates_pure trivial
  cases node with
  | block pos children => exact absurd rfl (hnode pos children)
  | _ => exact hcall

/-- The evaluation of each node of a program does what the node means. -/
theorem firstOrder_means (h : FirstOrder node) :
    ∃ n, ∀ fuel ≥ n, NodeMeans (eval fuel) node ∧ BodyMeans (eval fuel) node := by
  induction h with
  | intLit pos intval =>
    refine ⟨1, fun fuel hfuel => NodeMeans.withBody ?_ (by intro _ _ hc; cases hc)⟩
    obtain ⟨fuel, rfl⟩ := Nat.exists_eq_add_of_le' hfuel
    intro loops stack scope rest
    unfold meaning
    exact (simulates_giveValue (lasting_loopScopes loops) ⟨rfl, rfl⟩).evaluates
  | identifier pos symbol hn =>
    refine ⟨1, fun fuel hfuel => NodeMeans.withBody ?_ (by intro _ _ hc; cases hc)⟩
    obtain ⟨fuel, rfl⟩ := Nat.exists_eq_add_of_le' hfuel
    intro loops stack scope rest
    unfold meaning
    exact (simulates_evalIdentifier (lasting_loopScopes loops) hn).evaluates
  | binaryExpr pos operator left right _ _ ihl ihr =>
    obtain ⟨n, hn⟩ := ihl
    obtain ⟨k, hk⟩ := ihr
    refine ⟨max n k + 1, fun fuel hfuel => NodeMeans.withBody ?_ (by intro _ _ hc; cases hc)⟩
    obtain ⟨f, rfl⟩ : ∃ f, fuel = f + 1 := ⟨fuel - 1, by omega⟩
    intro loops stack scope rest
    have hl := (hn f (by omega)).1
    have hr := (hk f (by omega)).1
    exact (simulates_evalBinexp (lasting_loopScopes loops) (fun stack => hl loops stack scope rest)
      fun stack => hr loops stack scope rest).evaluates
  | assignment pos namePos symbol value hn _ ih =>
    obtain ⟨n, hv⟩ := ih
    refine ⟨n + 1, fun fuel hfuel => NodeMeans.withBody ?_ (by intro _ _ hc; cases hc)⟩
    obtain ⟨f, rfl⟩ : ∃ f, fuel = f + 1 := ⟨fuel - 1, by omega⟩
    intro loops stack scope rest
    unfold meaning
    exact (means_evalAssignment hn ((hv f (by omega)).1 loops _ scope rest)).evaluates
  | varDecl pos name isConst value hn _ ih =>
    obtain ⟨n, hv⟩ := exists_fuel_option ih
    refine ⟨n + 1, fun fuel hfuel => NodeMeans.withBody ?_ (by intro _ _ hc; cases hc)⟩
    obtain ⟨f, rfl⟩ : ∃ f, fuel = f + 1 := ⟨fuel - 1, by omega⟩
    intro loops stack scope rest
    have hvalue : ∀ node ∈ value, NodeMeans (eval f) node := fun node hnode => (hv f (by omega) node hnode).1
    unfold meaning
    exact (means_evalVarDecl hn (means_declValue hvalue)).evaluates
  | print pos newline args hargs =>
    obtain ⟨n, hn⟩ := means_print hargs pos newline
    exact ⟨n, fun fuel hfuel => NodeMeans.withBody (hn fuel hfuel) (by intro _ _ hc; cases hc)⟩
  | block pos children _ ih =>
    obtain ⟨n, hn⟩ := exists_fuel_forall ih
    refine ⟨n + 1, fun fuel hfuel => ?_⟩
    obtain ⟨f, rfl⟩ : ∃ f, fuel = f + 1 := ⟨fuel - 1, by omega⟩
    have hchildren : ∀ k ≥ n, ∀ stmt ∈ children, NodeMeans (eval k) stmt :=
      fun k hk stmt hstmt => (hn k hk stmt hstmt).1
    constructor
    · intro loops stack scope rest
      exact (means_evalBlock (hchildren f (by omega))).evaluates
    · intro loops stack scope rest
      exact means_evalStmts (hchildren (f + 1) (by omega))
  | ifStmt pos condition ifBlock elseBlock _ _ _ ihc ihi ihe =>
    obtain ⟨n, hc⟩ := ihc
    obtain ⟨k, hi⟩ := ihi
    obtain ⟨l, he⟩ := exists_fuel_option ihe
    refine ⟨max (max n k) l + 1, fun fuel hfuel => NodeMeans.withBody ?_ (by intro _ _ hc; cases hc)⟩
    obtain ⟨f, rfl⟩ : ∃ f, fuel = f + 1 := ⟨fuel - 1, by omega⟩
    intro loops stack scope rest
    exact (means_evalIfStmt (hc f (by omega)).1 (hi f (by omega)).1
      fun node hnode => (he f (by omega) node hnode).1).evaluates
  | loopStmt pos iterCount varname body _ hvar _ ihc ihb =>
    obtain ⟨n, hc⟩ := exists_fuel_option ihc
    obtain ⟨k, hb⟩ := ihb
    refine ⟨max n k + 1, fun fuel hfuel => NodeMeans.withBody ?_ (by intro _ _ hc; cases hc)⟩
    obtain ⟨f, rfl⟩ : ∃ f, fuel = f + 1 := ⟨fuel - 1, by omega⟩
    intro loops stack scope rest
    exact (means_evalLoopStmt (fun node hnode => (hc f (by omega) node hnode).1) hvar (hb f (by omega)).2).evaluates

/-! ## The initial state -/

/-- The names of the built-in functions, with the functions. -/
theorem initial_lookup (h : (Machine.initial (.root .unknown []) [] "").builtins.lookup name = some v) :
    ∃ f callback, v = ⟨.function f, true, some f⟩ ∧ builtinFunctions.lookup name = some callback ∧
      (Machine.initial (.root .unknown []) [] "").fns.read f = some ⟨some callback, [], [], none⟩ := by
  obtain ⟨l, l', hsplit, -⟩ := List.lookup_eq_some_iff.mp h
  have hmem : (name, v) ∈ (Machine.initial (.root .unknown []) [] "").builtins := by
    rw [hsplit]
    exact List.mem_append_right l (List.mem_cons_self ..)
  have hbuiltins : (Machine.initial (.root .unknown []) [] "").builtins =
      [("println", ⟨.function 0, true, some 0⟩), ("print", ⟨.function 1, true, some 1⟩),
        ("vector", ⟨.function 2, true, some 2⟩), ("array_filter", ⟨.function 3, true, some 3⟩),
        ("read", ⟨.function 4, true, some 4⟩), ("exit", ⟨.function 5, true, some 5⟩)] := rfl
  rw [hbuiltins] at hmem
  simp only [List.mem_cons, Prod.mk.injEq, List.not_mem_nil, or_false] at hmem
  rcases hmem with ⟨rfl, rfl⟩ | ⟨rfl, rfl⟩ | ⟨rfl, rfl⟩ | ⟨rfl, rfl⟩ | ⟨rfl, rfl⟩ | ⟨rfl, rfl⟩
  · exact ⟨0, .println, rfl, rfl, rfl⟩
  · exact ⟨1, .print, rfl, rfl, rfl⟩
  · exact ⟨2, .array, rfl, rfl, rfl⟩
  · exact ⟨3, .arrayFilter, rfl, rfl, rfl⟩
  · exact ⟨4, .read, rfl, rfl, rfl⟩
  · exact ⟨5, .exit, rfl, rfl, rfl⟩

theorem lookup_eq_none_of_keys {α β : Type} {l : List (String × α)} {l' : List (String × β)}
    (h : l.map Prod.fst = l'.map Prod.fst) : l.lookup name = none ↔ l'.lookup name = none := by
  have hkeys : ∀ {γ : Type} (l : List (String × γ)), l.lookup name = none ↔ name ∉ l.map Prod.fst := by
    intro γ l
    rw [List.lookup_eq_none_iff]
    simp only [bne_iff_ne, List.mem_map, not_exists, not_and]
    exact forall₂_congr fun p _ => ne_comm
  rw [hkeys, hkeys, h]

theorem initial_builtins (root : AstNode) (stdin : List String) (strerror : String) :
    (Machine.initial root stdin strerror).HasBuiltins := by
  rw [initial_with]
  refine ⟨fun name => lookup_eq_none_of_keys rfl, fun name v hv => ?_⟩
  obtain ⟨f, callback, rfl, hb, hread⟩ := initial_lookup hv
  exact ⟨rfl, f, _, callback, rfl, hread, rfl, hb⟩

/-- Lists with the same keys and related values. -/
theorem lookup_rel {α β : Type} {R : α → β → Prop} {l : List (String × α)} {l' : List (String × β)}
    (h : List.Forall₂ (fun p q => p.1 = q.1 ∧ R p.2 q.2) l l') (name : String) :
    Option.Rel R (l.lookup name) (l'.lookup name) := by
  induction h with
  | nil => exact .none
  | @cons p q l l' hpq _ ih =>
    obtain ⟨hkey, hvalue⟩ := hpq
    rw [List.lookup_cons, List.lookup_cons, hkey]
    cases name == q.1 with
    | true => exact .some hvalue
    | false => exact ih

/-- The constants of the global scope. -/
theorem global_rel (name : String) :
    Option.Rel Val.Is ([("true", trueVal), ("false", falseVal), ("null", nullVal)].lookup name)
      (globalNames.lookup name) := by
  refine lookup_rel (.cons ?_ (.cons ?_ (.cons ?_ .nil))) name
  · exact ⟨rfl, rfl, rfl⟩
  · exact ⟨rfl, rfl, rfl⟩
  · exact ⟨rfl, rfl, rfl⟩

/-- No constant has the name of a built-in function. -/
theorem globalNames_notBuiltin (h : ¬ NotBuiltin name) : globalNames.lookup name = none := by
  rw [List.lookup_eq_none_iff]
  intro p hp
  simp only [globalNames, List.mem_cons, List.not_mem_nil, or_false] at hp
  rw [bne_iff_ne]
  rintro rfl
  rcases hp with rfl | rfl | rfl
  · exact h rfl
  · exact h rfl
  · exact h rfl

/-- The built-in functions have taken the first places of the table. -/
theorem initial_hasRoom (root : AstNode) (stdin : List String) (strerror : String) :
    (Machine.initial root stdin strerror).tbl.HasRoom Memory.start.room := by
  rw [initial_with]
  exact ⟨rfl, rfl, rfl⟩

/-- The global scope is the layer of the constants. -/
theorem initial_represents (root : AstNode) (stdin : List String) (strerror : String) :
    (Machine.initial root stdin strerror).Represents .start [0] := by
  have hroom := initial_hasRoom root stdin strerror
  have hinit := initial_spec root stdin strerror
  have hstore := initial_store root stdin strerror
  have hbuiltins := initial_builtins root stdin strerror
  generalize Machine.initial root stdin strerror = m at hroom hinit hstore hbuiltins ⊢
  obtain ⟨hparent, hvars⟩ := hinit.env
  obtain ⟨hframe, -⟩ := scopeCreateGlobal_spec trueVal falseVal nullVal m.builtins
  have hlookup : ∀ k, ([("true", trueVal), ("false", falseVal), ("null", nullVal)] ++ m.builtins).lookup k =
      ([("true", trueVal), ("false", falseVal), ("null", nullVal)].lookup k).or (m.builtins.lookup k) :=
    fun k => List.lookup_append
  refine ⟨fun s p hp => ?_, fun s hs => ?_, hbuiltins, .cons ⟨?_, fun name v hv => ?_, fun name hn => ?_⟩ .nil, ?_, ?_, hroom,
    ?_⟩
  · rw [hparent] at hp
    cases hp
  · obtain rfl := Option.some.inj hs
    exact chain_root (hparent 0)
  · rw [hinit.scopes, Heap.isLive_alloc]
    rfl
  · have hn : ¬ NotBuiltin name := by
      rw [← hbuiltins.lookup, hv]
      exact Option.some_ne_none v
    have hrel := global_rel name
    rw [globalNames_notBuiltin hn] at hrel
    rw [hvars, if_pos rfl, hlookup, hv]
    generalize [("true", trueVal), ("false", falseVal), ("null", nullVal)].lookup name = c at hrel ⊢
    cases hrel
    rfl
  · rw [hvars, if_pos rfl, hlookup, (hbuiltins.lookup name).mpr hn, Option.or_none]
    have hrel := global_rel name
    generalize [("true", trueVal), ("false", falseVal), ("null", nullVal)].lookup name = c at hrel ⊢
    show Option.Rel SameBinding _ ((globalNames.lookup name).map fun value => (value, true))
    generalize globalNames.lookup name = c' at hrel ⊢
    cases hrel with
    | none => exact .none
    | some his => exact .some ⟨his, rfl⟩
  · have hreuses : m.reuses 0 = false := by
      unfold Machine.reuses
      have hsize : 0 = (Heap.empty : Scopes Val).size := rfl
      rw [hinit.scopes, Heap.peek_alloc, if_pos hsize, Option.any_some]
      unfold Scope.frame at hframe
      simp only [Prod.mk.injEq] at hframe
      rw [hframe.2.1]
      rfl
    show [m.reuses 0] = [false]
    rw [hreuses]
  · rw [hstore]
    rfl
  · rw [hstore]

/-! ## Programs -/

theorem means_root {nodes : List AstNode} (h : ∀ node ∈ nodes, FirstOrder node) (pos : Pos) :
    ∃ n, ∀ fuel ≥ n, NodeMeans (eval fuel) (.root pos nodes) := by
  obtain ⟨n, hn⟩ := exists_fuel_forall fun node hnode => firstOrder_means (h node hnode)
  refine ⟨n + 1, fun fuel hfuel loops stack scope rest => ?_⟩
  obtain ⟨f, rfl⟩ : ∃ f, fuel = f + 1 := ⟨fuel - 1, by omega⟩
  have hroot : Means loops (⟨scope, .root pos nodes, .none⟩ :: stack) (scope :: rest)
      (do
        let v ← giveValue nullVal
        evalRoot (eval f) scope nodes v)
      (do
        let value ← (pure .null : Meaning Scalar)
        meaningLast value nodes) Val.Is := by
    refine Simulates.bind (simulates_giveValue (lasting_loopScopes loops) ⟨rfl, rfl⟩) fun v value his => ?_
    exact means_evalRoot (fun node hnode => (hn f (by omega) node hnode).1) his
  unfold meaning
  exact hroot.evaluates

theorem runsAsMeant_of_nodeMeans {root : AstNode} (h : ∃ n, ∀ fuel ≥ n, NodeMeans (eval fuel) root) :
    RunsAsMeant root := by
  obtain ⟨n, hn⟩ := h
  refine ⟨n, fun fuel hfuel stdin strerror => ?_⟩
  have hmemory : HasMemory (LoopScopes []) [⟨0, root, .none⟩] [0] ⟨.initial root stdin strerror, []⟩ .start :=
    ⟨fun s hs => absurd hs List.not_mem_nil, initial_represents root stdin strerror, (initial_spec root stdin strerror).stack⟩
  have hrun := hn fuel hfuel [] [] 0 [] _ _ hmemory
  refine hrun.mono (fun v w value memory hw => ?_) fun _ _ _ _ he => he
  obtain ⟨his, locals, hw⟩ := hw
  exact ⟨his, hw.represents.hasWritten⟩

end Blaze
