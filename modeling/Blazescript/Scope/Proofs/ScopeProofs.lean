import Blazescript.Environment.Proofs.EnvProofs
import Blazescript.Scope.Scope
import Blazescript.Valmap.Proofs.ValmapProofs

/-!
# Proofs: scopes as an environment

The environment a heap of scopes stands for, and what each function of `scope.c` does to it. The
lemmas speak of calls that return; that a call returns when the scopes of the chain are live is
stated apart.
-/

namespace Blaze

open Arena Environment

variable {α : Type}

/-- The parents and the bindings of the scopes. -/
def envOf (h : Scopes α) : Env String α where
  parent s := (h.peek s).bind Scope.parent
  vars s name := (h.peek s).bind fun scope => scope.valmap.binding name

/-- The fields of a scope that writing to its map leaves alone. -/
def Scope.frame (scope : Scope α) : Option Nat × ScopeMode × Nat × Nat :=
  (scope.parent, scope.mode, scope.uniqueId, scope.prevUniqueId)

/-- The generation of the array of a scope's map. -/
def generationOf (h : Scopes α) (s : Nat) : Option Nat :=
  (h.peek s).map fun scope => scope.valmap.data.generation

/-- Whether the next write to a scope's map will grow it. -/
def atThreshold (h : Scopes α) (s : Nat) : Bool :=
  (h.peek s).any fun scope => scope.valmap.data.atThreshold

/-- `h'` has the scopes of `h`, with the same fields except for the maps. -/
structure MapsOnly (h h' : Scopes α) : Prop where
  size : h'.size = h.size
  live : ∀ s, h'.isLive s = h.isLive s
  frame : ∀ s, (h'.peek s).map Scope.frame = (h.peek s).map Scope.frame

theorem MapsOnly.refl (h : Scopes α) : MapsOnly h h := ⟨rfl, fun _ => rfl, fun _ => rfl⟩

theorem MapsOnly.trans {h₁ h₂ h₃ : Scopes α} (a : MapsOnly h₁ h₂) (b : MapsOnly h₂ h₃) :
    MapsOnly h₁ h₃ :=
  ⟨b.size.trans a.size, fun s => (b.live s).trans (a.live s),
    fun s => (b.frame s).trans (a.frame s)⟩

theorem MapsOnly.parent {h h' : Scopes α} (a : MapsOnly h h') : (envOf h').parent = (envOf h).parent := by
  funext s
  have hf := a.frame s
  show (h'.peek s).bind Scope.parent = (h.peek s).bind Scope.parent
  cases h1 : h'.peek s with
  | none =>
    cases h2 : h.peek s with
    | none => rfl
    | some y => simp [h1, h2] at hf
  | some x =>
    cases h2 : h.peek s with
    | none => simp [h1, h2] at hf
    | some y =>
      simp only [h1, h2, Option.map_some, Option.some.injEq, Scope.frame, Prod.mk.injEq] at hf
      exact hf.1

/-! ## Writing the map of one scope -/

section Write

variable {h : Scopes α} {s : Nat} {scope : Scope α} (m : Valmap α)

/-- The heap after the map of a scope has been replaced. -/
abbrev setMap (h : Scopes α) (s : Nat) (scope : Scope α) (m : Valmap α) : Scopes α :=
  h.write s { scope with valmap := m }

theorem setMap_only (hp : h.peek s = some scope) : MapsOnly h (setMap h s scope m) := by
  refine ⟨by simp, by simp, fun t => ?_⟩
  rw [Heap.peek_write]
  split_ifs with ht
  · rw [ht, hp]
    rfl
  · rfl

theorem setMap_vars (hp : h.peek s = some scope) (t : Nat) (k : String) :
    (envOf (setMap h s scope m)).vars t k = if t = s then m.binding k else (envOf h).vars t k := by
  simp only [envOf, Heap.peek_write]
  split_ifs with ht
  · simp [hp]
  · rfl

theorem setMap_generation (hp : h.peek s = some scope) (t : Nat) :
    generationOf (setMap h s scope m) t =
      if t = s then some m.data.generation else generationOf h t := by
  simp only [generationOf, Heap.peek_write]
  split_ifs with ht
  · simp [hp]
  · rfl

end Write

theorem vars_of_peek {h : Scopes α} {s : Nat} {scope : Scope α} (hp : h.peek s = some scope)
    (k : String) : (envOf h).vars s k = scope.valmap.binding k := by
  simp [envOf, hp]

theorem parent_of_peek {h : Scopes α} {s : Nat} {scope : Scope α} (hp : h.peek s = some scope) :
    (envOf h).parent s = scope.parent := by
  simp [envOf, hp]

/-! ## Declaring -/

theorem Scope.declare_eq (scope : Scope α) (name : String) (value : α) (isConst : Bool) :
    scope.declare name value isConst = scope.valmap.setNoOverwrite name value isConst true := by
  simp [Scope.declare, scope.noRedecl]

/-- `scope_declare_identifier` on the environment: a name the scope binds is rejected, any other is
bound there. -/
theorem scopeDeclareIdentifier_spec {h : Scopes α} {s : Nat} {name : String} {value : α}
    {isConst : Bool} {r : ValmapSetStatus × Option α × Scopes α}
    (hd : scopeDeclareIdentifier h s name value isConst = some r) :
    h.isLive s = true ∧ MapsOnly h r.2.2 ∧
      r.1 = (if ((envOf h).vars s name).isSome then .setExists else .setOk) ∧
      envOf r.2.2 = (if ((envOf h).vars s name).isSome then envOf h
        else (envOf h).bind s name (value, isConst)) ∧
      (∀ t, generationOf r.2.2 t = (generationOf h t).map fun g =>
        g + if t = s ∧ atThreshold h s then 1 else 0) := by
  obtain ⟨scope, hr, rfl⟩ := Option.map_eq_some_iff.mp hd
  obtain ⟨hl, hp⟩ := Heap.read_eq_some.mp hr
  obtain ⟨hs, hb, hg⟩ := scope.valmap.setNoOverwrite_spec name value isConst true
  simp only [Scope.declare_eq]
  refine ⟨hl, setMap_only _ hp, ?_, ?_, fun t => ?_⟩
  · rw [hs, vars_of_peek hp]
  · refine Env.ext ((setMap_only _ hp).parent.trans (by split_ifs <;> rfl))
      (funext fun t => funext fun k => ?_)
    rw [setMap_vars _ hp, hb, ← vars_of_peek hp, ← vars_of_peek hp]
    cases hv : (envOf h).vars s name with
    | none => by_cases ht : t = s <;> simp [ht, Env.vars_bind]
    | some b => by_cases ht : t = s <;> simp [ht]
  · rw [setMap_generation _ hp, hg]
    by_cases ht : t = s
    · subst ht
      simp [generationOf, atThreshold, hp]
    · simp [ht]

theorem scopeDeclareIdentifier_returns {h : Scopes α} {s : Nat} (hl : h.isLive s = true)
    (name : String) (value : α) (isConst : Bool) :
    ∃ r, scopeDeclareIdentifier h s name value isConst = some r := by
  obtain ⟨scope, hr, -⟩ := Heap.exists_read hl
  exact ⟨_, by unfold scopeDeclareIdentifier; rw [hr]; rfl⟩

/-- The bindings a list of names adds to those of a scope. -/
theorem declareAll_binding (names : List (String × α)) :
    ∀ (scope : Scope α) (k : String), (scope.declareAll names).valmap.binding k =
      (scope.valmap.binding k).or ((names.lookup k).map fun v => (v, true)) := by
  induction names with
  | nil => intro scope k; simp [Scope.declareAll]
  | cons b names ih =>
    intro scope k
    obtain ⟨name, value⟩ := b
    obtain ⟨-, hb, -⟩ := scope.valmap.setNoOverwrite_spec name value true true
    have hstep : scope.declareAll ((name, value) :: names) = Scope.declareAll
        { scope with valmap := (scope.declare name value true).valmap } names := rfl
    rw [hstep, ih]
    simp only [Scope.declare_eq, hb, List.lookup_cons]
    by_cases hk : k = name
    · subst hk
      cases scope.valmap.binding k <;> simp
    · have hbeq : (k == name) = false := by simpa using hk
      simp [hk, hbeq]

theorem declareAll_frame (names : List (String × α)) :
    ∀ scope : Scope α, (scope.declareAll names).frame = scope.frame := by
  induction names with
  | nil => intro scope; rfl
  | cons b names ih => intro scope; exact ih _

/-- A child scope starts with the built-in functions, as constants. -/
theorem scopeInit_child (builtins : List (String × α)) (p : Nat) :
    (scopeInit builtins (some p)).frame = (some p, .scDefault, 0, 0) ∧
      ∀ k, (scopeInit builtins (some p)).valmap.binding k =
        (builtins.lookup k).map fun v => (v, true) := by
  refine ⟨declareAll_frame _ _, fun k => ?_⟩
  simp [scopeInit, declareAll_binding]

/-- The global scope starts with `true`, `false`, `null` and the built-in functions. -/
theorem scopeCreateGlobal_spec (t f n : α) (builtins : List (String × α)) :
    (scopeCreateGlobal t f n builtins).frame = (none, .scDefault, 0, 0) ∧
      ∀ k, (scopeCreateGlobal t f n builtins).valmap.binding k =
        (([("true", t), ("false", f), ("null", n)] ++ builtins).lookup k).map fun v => (v, true) := by
  refine ⟨declareAll_frame _ _, fun k => ?_⟩
  simp [scopeCreateGlobal, scopeInit, declareAll_binding]

/-! ## A new scope -/

section Alloc

variable (h : Scopes α) (scope : Scope α)

theorem alloc_parent (s : Nat) : (envOf (h.alloc scope)).parent s =
    if s = h.size then scope.parent else (envOf h).parent s := by
  simp only [envOf, Heap.peek_alloc]
  split_ifs <;> rfl

theorem alloc_vars (s : Nat) (k : String) : (envOf (h.alloc scope)).vars s k =
    if s = h.size then scope.valmap.binding k else (envOf h).vars s k := by
  simp only [envOf, Heap.peek_alloc]
  split_ifs <;> rfl

theorem alloc_rooted (hr : Rooted (envOf h).parent)
    (hp : ∀ p, scope.parent = some p → p < h.size) : Rooted (envOf (h.alloc scope)).parent := by
  intro s p hs
  rw [alloc_parent] at hs
  split_ifs at hs with h1
  · rw [h1]
    exact hp p hs
  · exact hr s p hs

theorem alloc_chain (hr : Rooted (envOf h).parent) {s : Nat} (hs : s < h.size) :
    chain (envOf (h.alloc scope)).parent s = chain (envOf h).parent s := by
  refine chain_congr hr fun t ht => ?_
  rw [alloc_parent, if_neg (by omega)]

end Alloc

/-! ## Resolving -/

/-- `scope_resolve_identifier` finds the innermost binding of the name. -/
theorem resolveFrom_spec {h : Scopes α} (hr : Rooted (envOf h).parent) {name : String} :
    ∀ {fuel s : Nat} {r : Option EntryPtr}, resolveFrom h name fuel s = some r →
      (envOf h).binder s name = r.map EntryPtr.scope ∧
        ∀ ptr, r = some ptr → readEntry h ptr = (envOf h).find s name ∧
          generationOf h ptr.scope = some ptr.generation := by
  intro fuel
  induction fuel with
  | zero => intro s r h0; simp [resolveFrom] at h0
  | succ fuel ih =>
    intro s r h0
    simp only [resolveFrom] at h0
    obtain ⟨scope, hread, h0⟩ := Option.bind_eq_some_iff.mp h0
    have hp := (Heap.read_eq_some.mp hread).2
    have hvars := vars_of_peek hp name
    cases hget : scope.valmap.get name with
    | some index =>
      simp only [hget, Option.some.injEq] at h0
      subst h0
      have hat : scope.valmap.data.entryAt index = scope.valmap.binding name := by
        rw [← scope.valmap.get_entryAt, hget]
        rfl
      have hsome : scope.valmap.binding name ≠ none := fun hn => by
        rw [← Valmap.get_eq_none, hget] at hn
        cases hn
      obtain ⟨b, hb⟩ := Option.ne_none_iff_exists'.mp hsome
      have hv : (envOf h).vars s name = some b := hvars.trans hb
      refine ⟨Env.binder_own hv, fun ptr he => ?_⟩
      simp only [Option.some.injEq] at he
      subst he
      refine ⟨?_, by simp [generationOf, hp]⟩
      rw [Env.find_own hv, ← hb, ← hat]
      simp [readEntry, hread]
    | none =>
      have hv : (envOf h).vars s name = none := hvars.trans (Valmap.get_eq_none.mp hget)
      cases hpar : scope.parent with
      | some p =>
        simp only [hget, hpar] at h0
        have hpp : (envOf h).parent s = some p := (parent_of_peek hp).trans hpar
        rw [Env.binder_parent hr hv hpp, Env.find_parent hr hv hpp]
        exact ih h0
      | none =>
        simp only [hget, hpar, Option.some.injEq] at h0
        subst h0
        have hpp : (envOf h).parent s = none := (parent_of_peek hp).trans hpar
        exact ⟨Env.binder_root hv hpp, by simp⟩

theorem resolveFrom_returns {h : Scopes α} (hr : Rooted (envOf h).parent) (name : String) :
    ∀ {fuel s : Nat}, s < fuel → (∀ t ∈ chain (envOf h).parent s, h.isLive t = true) →
      ∃ r, resolveFrom h name fuel s = some r := by
  intro fuel
  induction fuel with
  | zero => intro s hs; omega
  | succ fuel ih =>
    intro s hs hl
    obtain ⟨scope, hread, hp⟩ := Heap.exists_read (hl s mem_chain_self)
    simp only [resolveFrom, hread, Option.bind_some]
    cases hget : scope.valmap.get name with
    | some index => exact ⟨_, rfl⟩
    | none =>
      cases hpar : scope.parent with
      | some p =>
        have hpp : (envOf h).parent s = some p := (parent_of_peek hp).trans hpar
        have hlt := hr s p hpp
        rw [chain_parent hr hpp] at hl
        exact ih (by omega) fun t ht => hl t (List.mem_cons_of_mem _ ht)
      | none => exact ⟨_, rfl⟩

/-! ## Assigning -/

/-- What assigning does to an environment: the innermost binding changes its value, unless it is
constant or there is none. -/
def envAssign (env : Env String α) (s : Nat) (name : String) (value : α) :
    ValmapSetStatus × Env String α :=
  match env.binder s name, env.find s name with
  | some t, some (_, false) => (.setOk, env.bind t name (value, false))
  | some _, some (_, true) => (.setIsConst, env)
  | _, _ => (.setNotFound, env)

/-- The scopes `scope_assign_identifier` visits: those of the chain up to the innermost binder. -/
def Visited (env : Env String α) (s : Nat) (name : String) (t : Nat) : Prop :=
  t ∈ chain env.parent s ∧ ∀ b, env.binder s name = some b → b ≤ t

/-- `valmap_set_no_create` on the map of one scope. -/
theorem setNoCreate_here {h : Scopes α} {s : Nat} {scope : Scope α} (hp : h.peek s = some scope)
    (name : String) (value : α) :
    let w := scope.valmap.setNoCreate name value false false
    w.status = (match (envOf h).vars s name with
        | none => .setNotFound
        | some (_, true) => .setIsConst
        | some (_, false) => .setOk) ∧
      envOf (setMap h s scope w.valmap) = (match (envOf h).vars s name with
        | some (_, false) => (envOf h).bind s name (value, false)
        | _ => envOf h) ∧
      ∀ t, ¬ (t = s ∧ atThreshold h t = true) →
        generationOf (setMap h s scope w.valmap) t = generationOf h t := by
  intro w
  obtain ⟨hs, hb, hg⟩ := scope.valmap.setNoCreate_spec name value false false
  rw [← vars_of_peek hp] at hs
  refine ⟨hs, ?_, fun t ht => ?_⟩
  · refine Env.ext ((setMap_only _ hp).parent.trans ?_) (funext fun t => funext fun k => ?_)
    · rcases (envOf h).vars s name with _ | ⟨old, _ | _⟩ <;> rfl
    · rw [setMap_vars _ hp, hb, ← vars_of_peek hp, ← vars_of_peek hp]
      rcases (envOf h).vars s name with _ | ⟨old, _ | _⟩
      · by_cases ht : t = s <;> simp [ht]
      · by_cases ht : t = s <;> simp [ht, Env.vars_bind]
      · by_cases ht : t = s <;> simp [ht]
  · rw [setMap_generation _ hp, hg]
    split_ifs with h1 h2
    · exact absurd ⟨h1, by simpa [atThreshold, h1, hp] using h2⟩ ht
    · simp [generationOf, h1, hp]
    · rfl

theorem visited_self {env : Env String α} (hr : Rooted env.parent) (s : Nat) (name : String) :
    Visited env s name s :=
  ⟨mem_chain_self, fun _ hb => le_of_mem_chain hr (Env.mem_chain_of_binder hb)⟩

theorem visited_parent {env : Env String α} (hr : Rooted env.parent) {s p t : Nat} {name : String}
    (hv : env.vars s name = none) (hp : env.parent s = some p) (ht : Visited env p name t) :
    Visited env s name t := by
  refine ⟨?_, by rw [Env.binder_parent hr hv hp]; exact ht.2⟩
  rw [chain_parent hr hp]
  exact List.mem_cons_of_mem _ ht.1

theorem assignFrom_succ {h h' : Scopes α} {s : Nat} {scope : Scope α} {name : String} {value : α}
    (hread : h.read s = some scope)
    (hh : h' = setMap h s scope (scope.valmap.setNoCreate name value false false).valmap)
    (fuel : Nat) :
    assignFrom h name value (fuel + 1) s =
      match (scope.valmap.setNoCreate name value false false).status, scope.parent with
      | .setNotFound, some p => assignFrom h' name value fuel p
      | status, _ => some (status, h') := by
  subst hh
  exact congrArg (fun o => Option.bind o _) hread

/-- `scope_assign_identifier` on the environment. Only the arrays of visited scopes at their
threshold are replaced. -/
theorem assignFrom_spec {name : String} {value : α} :
    ∀ {fuel s : Nat} {h : Scopes α} {r : ValmapSetStatus × Scopes α}, Rooted (envOf h).parent →
      assignFrom h name value fuel s = some r →
      MapsOnly h r.2 ∧ (r.1, envOf r.2) = envAssign (envOf h) s name value ∧
        ∀ t, ¬ (Visited (envOf h) s name t ∧ atThreshold h t = true) →
          generationOf r.2 t = generationOf h t := by
  intro fuel
  induction fuel with
  | zero => intro s h r _ h0; simp [assignFrom] at h0
  | succ fuel ih =>
    intro s h r hr h0
    obtain ⟨scope, hread⟩ : ∃ scope, h.read s = some scope := by
      cases hread : h.read s with
      | none => simp [assignFrom, hread] at h0
      | some scope => exact ⟨scope, rfl⟩
    have hp := (Heap.read_eq_some.mp hread).2
    obtain ⟨hs, henv, hgen⟩ := setNoCreate_here hp name value
    have honly := setMap_only (scope.valmap.setNoCreate name value false false).valmap hp
    obtain ⟨h₁, hh⟩ : ∃ h₁, h₁ = setMap h s scope
        (scope.valmap.setNoCreate name value false false).valmap := ⟨_, rfl⟩
    have helse : ∀ t, t ≠ s → atThreshold h₁ t = atThreshold h t := fun t ht => by
      simp [hh, atThreshold, Heap.peek_write, ht]
    rw [assignFrom_succ hread hh] at h0
    rw [← hh] at henv hgen honly
    have hgen' : ∀ t, ¬ (Visited (envOf h) s name t ∧ atThreshold h t = true) →
        generationOf h₁ t = generationOf h t := fun t ht =>
      hgen t fun hh => ht ⟨hh.1 ▸ visited_self hr t name, hh.2⟩
    rcases hv : (envOf h).vars s name with _ | ⟨old, _ | _⟩
    · -- the scope does not bind the name: its map may grow, and the parent is asked
      simp only [hv] at hs henv
      rw [hs] at h0
      cases hpar : scope.parent with
      | some p =>
        simp only [hpar] at h0
        have hpp : (envOf h).parent s = some p := (parent_of_peek hp).trans hpar
        obtain ⟨h1, h2, h3⟩ := ih (honly.parent ▸ hr) h0
        rw [henv] at h2 h3
        have hassign : envAssign (envOf h) s name value = envAssign (envOf h) p name value := by
          simp only [envAssign, Env.binder_parent hr hv hpp, Env.find_parent hr hv hpp]
        refine ⟨honly.trans h1, hassign ▸ h2, fun t ht => ?_⟩
        rw [h3 t fun hh => ?_, hgen' t ht]
        have hts : t ≠ s := by
          have h5 := le_of_mem_chain hr hh.1.1
          have h6 := hr s p hpp
          omega
        exact ht ⟨visited_parent hr hv hpp hh.1, helse t hts ▸ hh.2⟩
      | none =>
        simp only [hpar, Option.some.injEq] at h0
        subst h0
        have hpp : (envOf h).parent s = none := (parent_of_peek hp).trans hpar
        refine ⟨honly, ?_, hgen'⟩
        rw [henv]
        simp [envAssign, Env.binder_root hv hpp]
    · simp only [hv] at hs henv
      rw [hs] at h0
      simp only [Option.some.injEq] at h0
      subst h0
      refine ⟨honly, ?_, hgen'⟩
      rw [henv]
      simp [envAssign, Env.binder_own hv, Env.find_own hv]
    · simp only [hv] at hs henv
      rw [hs] at h0
      simp only [Option.some.injEq] at h0
      subst h0
      refine ⟨honly, ?_, hgen'⟩
      rw [henv]
      simp [envAssign, Env.binder_own hv, Env.find_own hv]

theorem assignFrom_returns (name : String) (value : α) :
    ∀ {fuel s : Nat} {h : Scopes α}, Rooted (envOf h).parent → s < fuel →
      (∀ t ∈ chain (envOf h).parent s, h.isLive t = true) →
      ∃ r, assignFrom h name value fuel s = some r := by
  intro fuel
  induction fuel with
  | zero => intro s h _ hs; omega
  | succ fuel ih =>
    intro s h hr hs hl
    obtain ⟨scope, hread, hp⟩ := Heap.exists_read (hl s mem_chain_self)
    have honly := setMap_only (scope.valmap.setNoCreate name value false false).valmap hp
    rw [assignFrom_succ hread rfl]
    split
    · rename_i p _ hpar
      have hpp : (envOf h).parent s = some p := (parent_of_peek hp).trans hpar
      have hlt := hr s p hpp
      rw [chain_parent hr hpp] at hl
      refine ih (honly.parent ▸ hr) (by omega) fun t ht => ?_
      rw [honly.parent] at ht
      rw [honly.live]
      exact hl t (List.mem_cons_of_mem _ ht)
    · exact ⟨_, rfl⟩

/-! ## `valmap_set_default` on the map of a scope -/

theorem scopeSetDefault_spec {h h' : Scopes α} {s : Nat} {name : String} {value : α}
    {isConst : Bool} (hd : scopeSetDefault h s name value isConst = some h') :
    h.isLive s = true ∧ MapsOnly h h' ∧
      envOf h' = (envOf h).bind s name
        (value, (((envOf h).vars s name).map Prod.snd).getD isConst) ∧
      (∀ t, generationOf h' t = (generationOf h t).map fun g =>
        g + if t = s ∧ atThreshold h s then 1 else 0) := by
  obtain ⟨scope, hr, rfl⟩ := Option.map_eq_some_iff.mp hd
  obtain ⟨hl, hp⟩ := Heap.read_eq_some.mp hr
  obtain ⟨hb, hg⟩ := scope.valmap.setDefault_spec name value isConst false
  refine ⟨hl, setMap_only _ hp, ?_, fun t => ?_⟩
  · refine Env.ext (setMap_only _ hp).parent (funext fun t => funext fun k => ?_)
    rw [setMap_vars _ hp, hb, Env.vars_bind, ← vars_of_peek hp, ← vars_of_peek hp]
    by_cases ht : t = s <;> simp [ht]
  · rw [setMap_generation _ hp, hg]
    by_cases ht : t = s
    · subst ht
      simp [generationOf, atThreshold, hp]
    · simp [ht]

end Blaze
