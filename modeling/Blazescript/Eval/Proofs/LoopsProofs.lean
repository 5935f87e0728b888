import Blazescript.Eval.Loops
import Blazescript.Eval.Proofs.BindingsProofs
import Blazescript.Eval.Proofs.ElementsProofs
import Blazescript.Eval.Proofs.FlowProofs

/-!
# Proofs: the iterations of loops
-/

namespace Blaze

open Arena Environment Running Tracing

variable {m m' : Machine} {event : Event} {w w' : World Machine Event}

/-! ## The shape of a loop -/

section Shape

variable {rec : Nat → AstNode → Eval Val} {s : Nat} {varname : Option String} {body : AstNode} {count : Val}

theorem loopContinues_iff {n : Int} (hn : count.data = .integer n) (k : Nat) :
    loopContinues count k = true ↔ k < n.toNat := by
  unfold loopContinues
  rw [hn, decide_eq_true_eq]
  omega

/-- An iteration, in its parts. -/
theorem loopIteration_ok {k : Nat} : loopIteration rec s varname body k w = .ok () w' ↔
    ∃ w₁ w₂ w₃, setPrevUniqueId s k w = .ok () w₁ ∧ evalLoopBody rec s body w₁ = .ok () w₂ ∧
      setUniqueId s (k + 1) w₂ = .ok () w₃ ∧ setLoopVar s (k + 1) varname w₃ = .ok () w' := by
  constructor
  · intro h
    obtain ⟨_, w₁, h₁, h⟩ := bind_eq_ok h
    obtain ⟨_, w₂, h₂, h⟩ := bind_eq_ok h
    obtain ⟨_, w₃, h₃, h⟩ := bind_eq_ok h
    exact ⟨w₁, w₂, w₃, h₁, h₂, h₃, h⟩
  · rintro ⟨w₁, w₂, w₃, h₁, h₂, h₃, h⟩
    unfold loopIteration
    rw [bind_ok h₁, bind_ok h₂, bind_ok h₃]
    exact h

/-- The loop of `eval_loop_stmt` runs as many iterations as are left. -/
theorem loopFrom_ok {n : Int} (hn : count.data = .integer n) {gas k : Nat} (hgas : k + gas = n.toNat) :
    loopFrom rec s varname body count gas k w = .ok () w' ↔
      ∃ begins, LoopRuns rec s varname body k w begins w' ∧ begins.length = gas := by
  induction gas generalizing k w with
  | zero =>
    have hstop : ¬ loopContinues count k = true := by
      rw [loopContinues_iff hn]
      omega
    unfold loopFrom
    rw [if_neg hstop]
    constructor
    · intro h
      cases h
      exact ⟨[], .nil k _, rfl⟩
    · rintro ⟨begins, h, hlength⟩
      obtain rfl := List.length_eq_zero_iff.mp hlength
      cases h
      rfl
  | succ gas ih =>
    have hgo : loopContinues count k = true := by
      rw [loopContinues_iff hn]
      omega
    unfold loopFrom
    rw [if_pos hgo]
    have ih' : ∀ w, loopFrom rec s varname body count gas (k + 1) w = .ok () w' ↔
        ∃ begins, LoopRuns rec s varname body (k + 1) w begins w' ∧ begins.length = gas :=
      fun w => ih (by omega)
    constructor
    · intro h
      obtain ⟨_, w₄, hiter, h⟩ := bind_eq_ok h
      obtain ⟨w₁, w₂, w₃, h₁, h₂, h₃, h₄⟩ := loopIteration_ok.mp hiter
      obtain ⟨begins, hrest, hlength⟩ := (ih' w₄).mp h
      exact ⟨w₁ :: begins, .cons h₁ h₂ h₃ h₄ hrest, congrArg (· + 1) hlength⟩
    · rintro ⟨begins, h, hlength⟩
      cases h with
      | nil => cases hlength
      | cons h₁ h₂ h₃ h₄ hrest =>
        rw [bind_ok (loopIteration_ok.mpr ⟨_, _, _, h₁, h₂, h₃, h₄⟩)]
        exact (ih' _).mpr ⟨_, hrest, Nat.succ.inj hlength⟩

end Shape

/-! ## What binds a name -/

/-- What a computation that follows the transitions returns. -/
theorem follows_of_ok {α : Type} {T : Machine → Event → Machine → Prop} {P : Machine → Prop} {x : Eval α}
    {Q : α → Machine → Prop} {a : α} (h : Follows T P x Q) (hP : P w.state) (hx : x w = .ok a w') :
    (∃ steps, w'.trace = steps ++ w.trace ∧ Path T w.state steps w'.state) ∧ Q a w'.state := by
  have hw := h w hP
  rw [hx] at hw
  exact hw

theorem isSome_of_mapsTo {h h' : Scopes Val} {s : Nat} {name : String} {v : Val} {c : Bool}
    (he : envOf h' = if ((envOf h).vars s name).isSome then envOf h else (envOf h).bind s name (v, c)) :
    ((envOf h').vars s name).isSome := by
  rw [he]
  split_ifs with hold
  · exact hold
  · rw [Env.vars_bind, if_pos ⟨rfl, rfl⟩]
    rfl

/-- A step that is to bind a name leaves it bound. -/
theorem Trans.binds (h : Trans m event m') {s : Nat} {name : String} (hb : event.Binds s name) :
    (m'.env.vars s name).isSome := by
  rcases hb with ⟨status, rfl⟩ | ⟨status, rfl⟩ | rfl
  · cases h with
    | declare frame stack _ _ v c r hs hn hv hd => exact isSome_of_mapsTo (scopeDeclareIdentifier_spec hd).2.2.2.1
  · cases h with
    | param frame stack f fn _ _ v r hs hr hn hv hd => exact isSome_of_mapsTo (scopeDeclareIdentifier_spec hd).2.2.2.1
  · cases h with
    | setDefault frame stack _ _ v c scopes hs hn hv hd =>
      show ((envOf scopes).vars s name).isSome
      rw [(scopeSetDefault_spec hd).2.2.1, Env.vars_bind, if_pos ⟨rfl, rfl⟩]
      rfl

/-- Only such a step binds a name that was not bound. -/
theorem Trans.binds_of_new (h : Trans m event m') (hw : m.Wf) {s : Nat} (hs : s < m.scopes.size) {name : String}
    (hold : m.env.vars s name = none) (hnew : (m'.env.vars s name).isSome) : event.Binds s name := by
  cases h.bindingChange hw hs name with
  | same he => simp [he, hold] at hnew
  | declared frame stack status b hs' hn he => exact .inl ⟨status, he⟩
  | param frame stack f fn status v hs' hr hn he => exact .inr (.inl ⟨status, he⟩)
  | set frame stack v c hs' hn he => exact .inr (.inr he)
  | assigned frame stack pos namePos node old status hs' hn he hmem hold' => simp [hold] at hold'

/-- After some steps a scope binds what it bound before, and what they have bound. -/
theorem isSome_vars_iff {T : Machine → Event → Machine → Prop} (hT : ∀ m event m', T m event m' → Trans m event m')
    {steps : List (Step Machine Event)} (hp : Path T m steps m') (hw : m.Wf) {s : Nat} (hs : s < m.scopes.size)
    (name : String) : (m'.env.vars s name).isSome ↔
      (m.env.vars s name).isSome ∨ ∃ step ∈ steps, step.event.Binds s name := by
  induction hp with
  | nil => simp
  | @cons m₁ m₂ steps event hp ht ih =>
    obtain ⟨⟨hw₁, hle⟩, -⟩ := hp.invariant_mem (I := fun n => n.Wf ∧ m.scopes.size ≤ n.scopes.size)
      (C := fun _ => True) ⟨hw, le_rfl⟩ (fun _ _ => trivial) fun step _ hstep ⟨hwf, hle⟩ =>
        ⟨(hT _ _ _ hstep).wf hwf, hle.trans ((hT _ _ _ hstep).scopesChange hwf).size_le⟩
    have htrans := hT _ _ _ ht
    simp only [List.mem_cons, exists_eq_or_imp]
    constructor
    · intro hnew
      by_cases hold : (m₁.env.vars s name).isSome
      · exact (ih.mp hold).imp_right .inr
      · exact .inr (.inl (htrans.binds_of_new hw₁ (hs.trans_le hle) (by simpa using hold) hnew))
    · rintro (h | h | h)
      · obtain ⟨⟨v, c⟩, hb⟩ := Option.isSome_iff_exists.mp (ih.mpr (.inl h))
        obtain ⟨v', hb'⟩ := htrans.keeps_flag hw₁ hb
        simp [hb']
      · exact htrans.binds h
      · obtain ⟨⟨v, c⟩, hb⟩ := Option.isSome_iff_exists.mp (ih.mpr (.inr h))
        obtain ⟨v', hb'⟩ := htrans.keeps_flag hw₁ hb
        simp [hb']

/-! ## Between the iterations -/

/-- A loop is running in its scope `s`. -/
structure InLoop (w₀ w : World Machine Event) (s scope : Nat) (varname : Option String) (node : AstNode)
    (stack : List Frame) : Prop where
  wf : w.state.Wf
  stack : w.state.stack = ⟨scope, node, .loop s⟩ :: stack
  parent : w.state.env.parent s = some scope
  const : ∀ name ∈ varname, w.state.builtins.lookup name = none →
    ∃ v, w.state.env.vars s name = some (v, true)
  bound : ∃ earlier, w.trace = earlier ++ w₀.trace ∧ ∀ name, (w.state.env.vars s name).isSome ↔
    (w.state.builtins.lookup name).isSome ∨ name ∈ varname ∨ ∃ step ∈ earlier, step.event.Binds s name

section Loop

variable {w₀ w₁ : World Machine Event} {s scope : Nat} {varname : Option String} {node body : AstNode}
  {stack : List Frame} {pos : Pos} {iterCount : Option AstNode} {k : Nat}

theorem InLoop.lt (h : InLoop w₀ w s scope varname node stack) : s < w.state.scopes.size :=
  h.wf.head h.stack s (by simp [Frame.scopes, Locals.newScope])

theorem InLoop.begins (h : InLoop w₀ w s scope varname node stack)
    (hvar : ∀ name ∈ varname, w.state.builtins.lookup name = none →
      w.state.env.vars s name = some (.ofData (.integer k), true)) :
    BeginsIteration w₀ w s scope varname k := ⟨h.parent, hvar, h.bound⟩

/-- What the code of the loop calls leaves the loop running. -/
theorem InLoop.follows {α : Type} {x : Eval α} {a : α} (h : InLoop w₀ w s scope varname node stack)
    (hx : FollowsIn scope node stack (Inside scope node stack (.loop s) fun _ => True) x
      fun _ => Inside scope node stack (.loop s) fun _ => True) (hok : x w = .ok a w₁) :
    InLoop w₀ w₁ s scope varname node stack := by
  obtain ⟨⟨steps, htrace, hp⟩, hs, -⟩ := follows_of_ok hx ⟨h.stack, trivial⟩ hok
  have hlt := h.lt
  obtain ⟨⟨hw, hle, hparent, hbuiltins, hflag⟩, -⟩ := hp.invariant_mem (C := fun _ => True)
    (I := fun m => m.Wf ∧ s < m.scopes.size ∧ m.env.parent s = some scope ∧ m.builtins = w.state.builtins ∧
      ∀ name ∈ varname, w.state.builtins.lookup name = none → ∃ v, m.env.vars s name = some (v, true))
    ⟨h.wf, hlt, h.parent, rfl, h.const⟩ (fun _ _ => trivial)
    fun step _ ⟨ht, _, _⟩ ⟨hw, hlt, hparent, hbuiltins, hflag⟩ => by
      have hchange := ht.scopesChange hw
      refine ⟨ht.wf hw, hlt.trans_le hchange.size_le, (hchange.parent hlt).trans hparent,
        ht.builtins.trans hbuiltins, fun name hmem hnone => ?_⟩
      obtain ⟨v, hv⟩ := hflag name hmem hnone
      exact ht.keeps_flag hw hv
  obtain ⟨earlier, hearlier, hbound⟩ := h.bound
  refine ⟨hw, hs, hparent, hbuiltins ▸ hflag, steps ++ earlier, ?_, fun name => ?_⟩
  · rw [htrace, hearlier, List.append_assoc]
  · rw [isSome_vars_iff (fun _ _ _ ht => ht.1) hp h.wf hlt name, hbound name, hbuiltins, or_assoc, or_assoc]
    simp only [List.mem_append, or_and_right, exists_or]
    rw [or_comm (a := ∃ step, step ∈ earlier ∧ step.event.Binds s name)]

/-- The ids of the scope do not concern what it binds. -/
theorem setPrevUniqueId_vars (h : InLoop w₀ w s scope varname node stack)
    (hok : setPrevUniqueId s k w = .ok () w₁) (name : String) :
    w₁.state.env.vars s name = w.state.env.vars s name ∧ w₁.state.builtins = w.state.builtins := by
  obtain ⟨sc, hr, hm⟩ := Option.map_eq_some_iff.mp (act_ok hok)
  have ht : Trans w.state (.loopIds s) w₁.state :=
    hm ▸ .loopIds w.state _ stack s sc k sc.uniqueId h.stack rfl hr
  refine ⟨?_, ht.builtins⟩
  cases ht.bindingChange h.wf h.lt name with
  | same he => exact he
  | declared _ _ _ _ _ _ he => cases he
  | param _ _ _ _ _ _ _ _ _ he => cases he
  | set _ _ _ _ _ _ he => cases he
  | assigned _ _ _ _ _ _ _ _ _ he => cases he

/-- The loop variable gets its next value. -/
theorem setLoopVar_vars (h : InLoop w₀ w s scope varname node stack)
    (hok : setLoopVar s k varname w = .ok () w₁) {name : String} (hmem : name ∈ varname)
    (hnone : w₁.state.builtins.lookup name = none) :
    w₁.state.env.vars s name = some (.ofData (.integer k), true) := by
  obtain rfl : varname = some name := hmem
  have hok' : setDefaultIn s name (.ofData (.integer k)) true w = .ok () w₁ := hok
  obtain ⟨scopes, hset, hm⟩ := Option.map_eq_some_iff.mp (act_ok hok')
  obtain ⟨v, hconst⟩ := h.const name rfl (by rw [← hm] at hnone; exact hnone)
  obtain ⟨-, -, henv, -⟩ := scopeSetDefault_spec hset
  rw [← hm]
  show (envOf scopes).vars s name = _
  have hold : (envOf w.state.scopes).vars s name = some (v, true) := hconst
  rw [henv, Env.vars_bind, if_pos ⟨rfl, rfl⟩, hold]
  rfl

/-- The iterations begin with the values of the loop variable in turn. -/
theorem loopRuns_begins (fuel : Nat) (hn : node = .loopStmt pos iterCount varname body)
    {begins : List (World Machine Event)} (hruns : LoopRuns (eval fuel) s varname body k w begins w')
    (h : InLoop w₀ w s scope varname node stack)
    (hvar : ∀ name ∈ varname, w.state.builtins.lookup name = none →
      w.state.env.vars s name = some (.ofData (.integer k), true)) :
    ∀ i b, begins[i]? = some b → BeginsIteration w₀ b s scope varname (k + i) := by
  induction hruns with
  | nil =>
    intro i b hb
    cases hb
  | @cons k w w₁ w₂ w₃ w₄ w' begins hbegin hbody hid hset hrest ih =>
    have h₁ := h.follows setPrevUniqueId_follows hbegin
    have h₂ := h₁.follows (evalLoopBody_follows (eval_follows fuel) hn) hbody
    have h₃ := h₂.follows setUniqueId_follows hid
    have h₄ := h₃.follows (setLoopVar_follows hn) hset
    intro i b hb
    cases i with
    | zero =>
      obtain rfl := Option.some.inj hb
      refine h₁.begins fun name hmem hnone => ?_
      obtain ⟨hv, hbuiltins⟩ := setPrevUniqueId_vars h hbegin name
      exact hv.trans (hvar name hmem (hbuiltins ▸ hnone))
    | succ i =>
      have hnext := ih h₄ (fun name hmem hnone => setLoopVar_vars h₃ hset hmem hnone) i b hb
      rwa [Nat.add_right_comm] at hnext

/-- The scope of a loop starts with the built-in functions. -/
theorem openLoop_spec (hw : w.state.Wf) (hs : w.state.stack = ⟨scope, node, .none⟩ :: stack)
    (hok : openLoop scope w = .ok s w₁) : s = w.state.scopes.size ∧ w₁.state.Wf ∧
      w₁.state.stack = ⟨scope, node, .loop s⟩ :: stack ∧ w₁.state.env.parent s = some scope ∧
      w₁.state.Pristine s := by
  obtain ⟨event, hf⟩ := perform_eq_ok hok
  simp only [Machine.withLocals, hs, Option.map_some, Option.some.injEq, Prod.mk.injEq] at hf
  obtain ⟨rfl, rfl, hm⟩ := hf
  have ht : Trans w.state (.openScope w.state.scopes.size) w₁.state :=
    hm ▸ .openLoop w.state ⟨scope, node, .none⟩ stack hs rfl
  have hsize : w₁.state.scopes.size = w.state.scopes.size + 1 := by
    rw [← hm]
    exact Heap.size_alloc ..
  refine ⟨rfl, ht.wf hw, by rw [← hm], ?_, ht.pristine_new hw (by omega)⟩
  rw [← hm]
  show (envOf (w.state.scopes.alloc _)).parent _ = _
  rw [alloc_parent, if_pos rfl]
  exact congrArg Prod.fst (scopeInit_child w.state.builtins scope).1

/-- The scope of a loop, when it has been made. -/
theorem enterLoop_inLoop (hw : w.state.Wf) (hn : node = .loopStmt pos iterCount varname body)
    (hs : w.state.stack = ⟨scope, node, .none⟩ :: stack) (hok : enterLoop scope varname w = .ok s w₁) :
    s = w.state.scopes.size ∧ InLoop w₁ w₁ s scope varname node stack ∧
      ∀ name ∈ varname, w₁.state.builtins.lookup name = none →
        w₁.state.env.vars s name = some (.ofData (.integer 0), true) := by
  obtain ⟨s', w₂, hopen, h⟩ := bind_eq_ok hok
  obtain ⟨_, w₃, hdeclare, h⟩ := bind_eq_ok h
  cases h
  obtain ⟨hsize, hw₂, hs₂, hparent, hpristine⟩ := openLoop_spec hw hs hopen
  have hlt : s < w₂.state.scopes.size := hw₂.head hs₂ s (by simp [Frame.scopes, Locals.newScope])
  refine ⟨hsize, ?_⟩
  cases hvarname : varname with
  | none =>
    rw [hvarname] at hdeclare
    cases hdeclare
    refine ⟨⟨hw₂, hs₂, hparent, by simp, [], rfl, fun name => ?_⟩, by simp⟩
    simp [hpristine name]
  | some varname =>
    rw [hvarname] at hdeclare hn
    obtain ⟨⟨steps, -, hp⟩, hs₁, -⟩ := follows_of_ok (declareLoopVar_follows hn) ⟨hs₂, trivial⟩ hdeclare
    obtain ⟨status, w₄, hdecl, hpure⟩ := bind_eq_ok hdeclare
    cases hpure
    obtain ⟨event, hf⟩ := perform_eq_ok hdecl
    obtain ⟨r, hr, heq⟩ := Option.map_eq_some_iff.mp hf
    simp only [Prod.mk.injEq] at heq
    obtain ⟨-, -, hm⟩ := heq
    obtain ⟨-, -, -, henv, -⟩ := scopeDeclareIdentifier_spec hr
    have hbuiltins : w₁.state.builtins = w₂.state.builtins := by rw [← hm]
    have hvars : ∀ name, w₁.state.env.vars s name =
        if ((w₂.state.env.vars s varname).isSome) then w₂.state.env.vars s name
        else if name = varname then some (.ofData (.integer 0), true) else w₂.state.env.vars s name := by
      intro name
      rw [← hm]
      show (envOf r.2.2).vars s name = _
      rw [henv]
      split_ifs with hold hname
      · rfl
      · rw [Env.vars_bind, if_pos ⟨rfl, hname⟩]
      · rw [Env.vars_bind, if_neg fun hc => hname hc.2]
    have hvar : w₁.state.builtins.lookup varname = none →
        w₁.state.env.vars s varname = some (.ofData (.integer 0), true) := by
      intro hnone
      have hold : w₂.state.env.vars s varname = none := by rw [hpristine varname, ← hbuiltins, hnone]; rfl
      rw [hvars, hold]
      simp
    obtain ⟨⟨hw₁, hparent₁⟩, -⟩ := hp.invariant_mem (C := fun _ => True)
      (I := fun m => (m.Wf ∧ s < m.scopes.size) ∧ m.env.parent s = some scope) ⟨⟨hw₂, hlt⟩, hparent⟩
      (fun _ _ => trivial) (by
        intro step _ hstep hi
        obtain ⟨ht, -, -⟩ := hstep
        obtain ⟨⟨hw, hlt⟩, hparent⟩ := hi
        have hchange := ht.scopesChange hw
        exact ⟨⟨ht.wf hw, hlt.trans_le hchange.size_le⟩, (hchange.parent hlt).trans hparent⟩)
    refine ⟨⟨hw₁.1, hs₁, hparent₁, fun name hmem hnone => ?_, [], rfl, fun name => ?_⟩, fun name hmem hnone => ?_⟩
    · obtain rfl : varname = name := Option.some.inj hmem
      exact ⟨_, hvar hnone⟩
    · have hpris : w₂.state.env.vars s name = (w₁.state.builtins.lookup name).map fun v => (v, true) := by
        rw [hbuiltins]
        exact hpristine name
      by_cases hname : name = varname
      · subst hname
        rw [hvars, hpris]
        cases w₁.state.builtins.lookup name <;> simp
      · rw [hvars, if_neg hname, ite_self, hpris]
        simp [Ne.symm hname]
    · obtain rfl : varname = name := Option.some.inj hmem
      exact hvar hnone

/-- The loop of `eval_loop_stmt` for a count that is an integer. -/
theorem evalLoopStmt_ok {fuel gas : Nat} {count v : Val} {n : Int} {w₂ : World Machine Event}
    (hcount : loopCount (eval fuel) scope iterCount w = .ok count w₁) (hn : count.data = .integer n) (hpos : 0 ≤ n) :
    evalLoopStmt (eval fuel) gas scope pos iterCount varname body w = .ok v w₂ ↔
      ∃ s w₃ begins w₄ w₅, enterLoop scope varname w₁ = .ok s w₃ ∧
        LoopRuns (eval fuel) s varname body 0 w₃ begins w₄ ∧ begins.length = n.toNat ∧
        closeScope s w₄ = .ok () w₅ ∧ giveValue blazeNull w₅ = .ok v w₂ := by
  have hrun : evalLoopStmt (eval fuel) gas scope pos iterCount varname body w =
      runLoop (eval fuel) gas scope varname body count w₁ := by
    unfold evalLoopStmt
    rw [bind_ok hcount]
    simp only [hn]
    rw [if_neg (by omega)]
  have hgas : loopGas count gas = n.toNat := by
    unfold loopGas
    rw [hn]
  have hloop : ∀ s u u', loopFrom (eval fuel) s varname body count n.toNat 0 u = .ok () u' ↔
      ∃ begins, LoopRuns (eval fuel) s varname body 0 u begins u' ∧ begins.length = n.toNat :=
    fun s u u' => loopFrom_ok hn (Nat.zero_add _)
  rw [hrun]
  unfold runLoop
  rw [hgas]
  constructor
  · intro h
    obtain ⟨s, u, hopen, h⟩ := bind_eq_ok h
    obtain ⟨_, w₃, hdeclare, h⟩ := bind_eq_ok h
    obtain ⟨_, w₄, hfrom, h⟩ := bind_eq_ok h
    obtain ⟨_, w₅, hclose, hgive⟩ := bind_eq_ok h
    obtain ⟨begins, hruns, hlength⟩ := (hloop s w₃ w₄).mp hfrom
    refine ⟨s, w₃, begins, w₄, w₅, ?_, hruns, hlength, hclose, hgive⟩
    unfold enterLoop
    rw [bind_ok hopen, bind_ok hdeclare]
    rfl
  · rintro ⟨s, w₃, begins, w₄, w₅, henter, hruns, hlength, hclose, hgive⟩
    obtain ⟨s', u, hopen, h⟩ := bind_eq_ok henter
    obtain ⟨_, u', hdeclare, h⟩ := bind_eq_ok h
    cases h
    rw [bind_ok hopen, bind_ok hdeclare, bind_ok ((hloop s w₃ w₄).mpr ⟨begins, hruns, hlength⟩), bind_ok hclose]
    exact hgive

end Loop

/-- A loop whose count is an integer `n` is `n` evaluations of its body, in order, in one new child of the scope
around it. The loop variable counts them, and in each the names that earlier ones have declared are still bound. -/
theorem loops_iterate {fuel gas scope : Nat} {pos : Pos} {iterCount : Option AstNode} {varname : Option String}
    {body : AstNode} {stack : List Frame} {count : Val} {n : Int} {w₁ : World Machine Event} (hw : w.state.Wf)
    (hs : w.state.stack = ⟨scope, .loopStmt pos iterCount varname body, .none⟩ :: stack)
    (hcount : loopCount (eval fuel) scope iterCount w = .ok count w₁) (hn : count.data = .integer n) (hpos : 0 ≤ n) :
    (∀ v w', evalLoopStmt (eval fuel) gas scope pos iterCount varname body w = .ok v w' ↔
      ∃ s w₂ begins w₃ w₄, enterLoop scope varname w₁ = .ok s w₂ ∧
        LoopRuns (eval fuel) s varname body 0 w₂ begins w₃ ∧ begins.length = n.toNat ∧
        closeScope s w₃ = .ok () w₄ ∧ giveValue blazeNull w₄ = .ok v w') ∧
    ∀ s w₂ begins w₃, enterLoop scope varname w₁ = .ok s w₂ →
      LoopRuns (eval fuel) s varname body 0 w₂ begins w₃ → s = w₁.state.scopes.size ∧
        ∀ k b, begins[k]? = some b → BeginsIteration w₂ b s scope varname k := by
  refine ⟨fun v w' => evalLoopStmt_ok hcount hn hpos, fun s w₂ begins w₃ henter hruns => ?_⟩
  obtain ⟨⟨steps, -, hp⟩, hs₁, -⟩ := follows_of_ok (loopCount_follows (eval_follows fuel) rfl) ⟨hs, trivial⟩ hcount
  obtain ⟨hw₁, -⟩ := hp.invariant_mem (I := Machine.Wf) (C := fun _ => True) hw (fun _ _ => trivial)
    fun step _ ht hw => ht.1.wf hw
  obtain ⟨hsize, hloop, hvar⟩ := enterLoop_inLoop hw₁ rfl hs₁ henter
  refine ⟨hsize, fun k b hb => ?_⟩
  have hbegins := loopRuns_begins fuel rfl hruns hloop hvar k b hb
  rwa [Nat.zero_add] at hbegins

/-- `{ if (i == 1) println(x); var x = 5; }`. -/
def lateBody : AstNode :=
  .block .unknown
    [.ifStmt .unknown (.binaryExpr .unknown .opCmpEq (.identifier .unknown "i") (.intLit .unknown 1))
      (.exprCall .unknown "println" [.identifier .unknown "x"]) none,
      .varDecl .unknown "x" false (some (.intLit .unknown 5))]

/-- The start of the program `loop (2 as i)` with that body. -/
def lateWorld : World Machine Event :=
  ⟨.initial (.loopStmt .unknown (some (.intLit .unknown 2)) (some "i") lateBody) [] "", []⟩

theorem loops_iterate_late : ∃ count w₁, loopCount (eval 6) 0 (some (.intLit .unknown 2)) lateWorld = .ok count w₁ ∧
    ∀ s w₂ begins w₃, enterLoop 0 (some "i") w₁ = .ok s w₂ →
      LoopRuns (eval 6) s (some "i") lateBody 0 w₂ begins w₃ → s = w₁.state.scopes.size ∧
        ∀ k b, begins[k]? = some b → BeginsIteration w₂ b s 0 (some "i") k := by
  have hreturns : returnsSuch (fun count => count.data = .integer 2)
      (loopCount (eval 6) 0 (some (.intLit .unknown 2)) lateWorld) = true := by
    decide +kernel
  obtain ⟨count, w₁, hcount, hdata⟩ := exists_of_returnsSuch hreturns
  have hinit := initial_spec (.loopStmt .unknown (some (.intLit .unknown 2)) (some "i") lateBody) [] ""
  have hloops := @loops_iterate lateWorld 6 6 0 _ _ _ _ _ _ _ _ hinit.wf hinit.stack hcount (of_decide_eq_true hdata) (by decide)
  exact ⟨count, w₁, hcount, hloops.2⟩

/-- The second iteration sees the `x` of the first one, which it would not in a scope of its own. -/
theorem loops_not_fresh :
    (∃ v w', evalLoopStmt (eval 6) 6 0 .unknown (some (.intLit .unknown 2)) (some "i") lateBody lateWorld = .ok v w') ∧
      endsInError (freshIterations (eval 6) 0 (some "i") lateBody 2 0 lateWorld) = true := by
  constructor
  · have hreturns : returnsSuch (fun _ => true)
        (evalLoopStmt (eval 6) 6 0 .unknown (some (.intLit .unknown 2)) (some "i") lateBody lateWorld) = true := by
      decide +kernel
    obtain ⟨v, w', h, -⟩ := exists_of_returnsSuch hreturns
    exact ⟨v, w', h⟩
  · decide +kernel

end Blaze
