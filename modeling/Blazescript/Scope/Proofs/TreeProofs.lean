import Blazescript.Scope.Proofs.ScopeProofs
import Blazescript.Scope.Tree

/-!
# Proofs: trees of scopes

The invariant of a tree of scopes, what one call keeps, and the three functions of `scope.c` on
every tree.
-/

namespace Blaze

open Arena Environment

variable {α : Type}

/-- No scope of the tree has been freed, and a parent is older than its children. -/
structure TreeInv (h : Scopes α) : Prop where
  rooted : Rooted (envOf h).parent
  live : ∀ s, s < h.size → h.isLive s = true

theorem TreeInv.chain_live {h : Scopes α} (hi : TreeInv h) {s t : Nat} (hs : s < h.size)
    (ht : t ∈ chain (envOf h).parent s) : h.isLive t = true :=
  hi.live t (lt_of_le_of_lt (le_of_mem_chain hi.rooted ht) hs)

theorem MapsOnly.treeInv {h h' : Scopes α} (hm : MapsOnly h h') (hi : TreeInv h) : TreeInv h' where
  rooted := hm.parent ▸ hi.rooted
  live s hs := by
    rw [hm.live]
    exact hi.live s (hm.size ▸ hs)

/-! ## What assigning does to the environment -/

section Assign

variable {env : Env String α} {s : Nat} {name : String} {value : α}

theorem envAssign_notFound : (envAssign env s name value).1 = .setNotFound ↔
    ∀ t ∈ chain env.parent s, env.vars t name = none := by
  rw [← Env.binder_eq_none]
  cases hb : env.binder s name with
  | none => simp [envAssign, hb]
  | some t =>
    obtain ⟨⟨v, c⟩, hv⟩ := Env.exists_of_binder hb
    have hf := (Env.find_of_binder hb).trans hv
    cases c <;> simp [envAssign, hb, hf]

theorem envAssign_isConst : (envAssign env s name value).1 = .setIsConst ↔
    ∃ v, env.find s name = some (v, true) := by
  cases hb : env.binder s name with
  | none => simp [envAssign, hb, Env.find]
  | some t =>
    obtain ⟨⟨v, c⟩, hv⟩ := Env.exists_of_binder hb
    have hf := (Env.find_of_binder hb).trans hv
    cases c <;> simp [envAssign, hb, hf]

theorem envAssign_ok (h : (envAssign env s name value).1 = .setOk) :
    ∃ t old, env.binder s name = some t ∧ env.vars t name = some (old, false) ∧
      (envAssign env s name value).2 = env.bind t name (value, false) := by
  cases hb : env.binder s name with
  | none => simp [envAssign, hb] at h
  | some t =>
    obtain ⟨⟨v, c⟩, hv⟩ := Env.exists_of_binder hb
    have hf := (Env.find_of_binder hb).trans hv
    cases c with
    | false => exact ⟨t, v, rfl, hv, by simp [envAssign, hb, hf]⟩
    | true => simp [envAssign, hb, hf] at h

theorem envAssign_rejected (h : (envAssign env s name value).1 ≠ .setOk) :
    (envAssign env s name value).2 = env := by
  cases hb : env.binder s name with
  | none => simp [envAssign, hb]
  | some t =>
    obtain ⟨⟨v, c⟩, hv⟩ := Env.exists_of_binder hb
    have hf := (Env.find_of_binder hb).trans hv
    cases c with
    | false => simp [envAssign, hb, hf] at h
    | true => simp [envAssign, hb, hf]

theorem envAssign_status : (envAssign env s name value).1 ∈
    ([.setNotFound, .setIsConst, .setOk] : List ValmapSetStatus) := by
  cases hb : env.binder s name with
  | none => simp [envAssign, hb]
  | some t =>
    obtain ⟨⟨v, c⟩, hv⟩ := Env.exists_of_binder hb
    have hf := (Env.find_of_binder hb).trans hv
    cases c <;> simp [envAssign, hb, hf]

theorem envAssign_keepsConstants : env.KeepsConstants (envAssign env s name value).2 := by
  by_cases h : (envAssign env s name value).1 = .setOk
  · obtain ⟨t, old, -, hv, he⟩ := envAssign_ok h
    rw [he]
    exact Env.keepsConstants_bind _ fun v => by simp [hv]
  · rw [envAssign_rejected h]
    exact Env.KeepsConstants.refl _

end Assign

/-! ## What one call keeps -/

/-- One call keeps the invariant of the tree and its constants. -/
theorem ScopeStep.keeps {builtins : List (String × α)} {h h' : Scopes α}
    (step : ScopeStep builtins h h') (hi : TreeInv h) :
    TreeInv h' ∧ (envOf h).KeepsConstants (envOf h') := by
  cases step with
  | init parent hp =>
    have hframe := (scopeInit_child builtins parent).1
    have hpar : (scopeInit builtins (some parent)).parent = some parent := congrArg Prod.fst hframe
    refine ⟨⟨alloc_rooted h _ hi.rooted fun p he => ?_, fun s hs => ?_⟩, fun s k v hv => ?_⟩
    · rw [hpar, Option.some.injEq] at he
      exact he ▸ hp
    · rw [Heap.isLive_alloc]
      by_cases heq : s = h.size
      · simp [heq]
      · have hlt : s < h.size := by
          have : s < h.size + 1 := by simpa using hs
          omega
        simp [hi.live s hlt]
    · have hne : s ≠ h.size := by
        rintro rfl
        have hnone : h.peek h.size = none := by
          cases hc : h.peek h.size with
          | none => rfl
          | some x => exact absurd (Heap.lt_of_peek hc) (lt_irrefl _)
        simp [envOf, hnone] at hv
      rw [alloc_vars, if_neg hne]
      exact hv
  | declare s name value isConst r hd =>
    obtain ⟨-, hm, -, henv, -⟩ := scopeDeclareIdentifier_spec hd
    refine ⟨hm.treeInv hi, ?_⟩
    rw [henv]
    split_ifs with hb
    · exact Env.KeepsConstants.refl _
    · exact Env.keepsConstants_bind _ fun v hv => hb (by simp [hv])
  | assign s name value r ha =>
    obtain ⟨hm, he, -⟩ := assignFrom_spec hi.rooted ha
    refine ⟨hm.treeInv hi, ?_⟩
    rw [show envOf r.2 = _ from congrArg Prod.snd he]
    exact envAssign_keepsConstants

theorem ScopeRun.keeps {builtins : List (String × α)} {h h' : Scopes α}
    (run : ScopeRun builtins h h') (hi : TreeInv h) :
    TreeInv h' ∧ (envOf h).KeepsConstants (envOf h') := by
  induction run with
  | refl => exact ⟨hi, Env.KeepsConstants.refl _⟩
  | tail _ step ih =>
    have hs := step.keeps ih.1
    exact ⟨hs.1, ih.2.trans hs.2⟩

theorem treeInv_globalHeap (t f n : α) (builtins : List (String × α)) :
    TreeInv (globalHeap t f n builtins) where
  rooted := by
    have hpar : (scopeCreateGlobal t f n builtins).parent = none :=
      congrArg Prod.fst (scopeCreateGlobal_spec t f n builtins).1
    refine alloc_rooted _ _ (fun i p hp => ?_) fun p hp => ?_
    · simp [envOf, Heap.empty, Heap.peek] at hp
    · rw [hpar] at hp
      cases hp
  live s hs := by
    have : s = 0 := by simpa [globalHeap, Heap.empty, Heap.size, Heap.alloc] using hs
    subst this
    simp [globalHeap, Heap.empty, Heap.isLive, Heap.alloc]

/-! ## The three functions on every tree -/

/-- Every tree built from a global scope behaves as its environment: a name is resolved to its
innermost binding; an assignment changes exactly that binding and is rejected when there is none or
it is constant; a declaration binds in its own scope a name not yet bound there; and constants keep
their values however the tree is built on. -/
theorem scope_refines_environment (t f n : α) (builtins : List (String × α)) (h : Scopes α)
    (run : ScopeRun builtins (globalHeap t f n builtins) h) :
    (∀ s, s < h.size → ∀ name,
      (∃ r, scopeResolveIdentifier h s name = some r ∧
        r.map EntryPtr.scope = (envOf h).binder s name ∧
        r.bind (readEntry h) = (envOf h).find s name) ∧
      (∀ value, ∃ r, scopeAssignIdentifier h s name value = some r ∧
        r.1 ∈ ([.setNotFound, .setIsConst, .setOk] : List ValmapSetStatus) ∧
        (r.1 = .setNotFound ↔ ∀ a ∈ chain (envOf h).parent s, (envOf h).vars a name = none) ∧
        (r.1 = .setIsConst ↔ ∃ v, (envOf h).find s name = some (v, true)) ∧
        (r.1 = .setOk → ∃ a old, (envOf h).binder s name = some a ∧
          (envOf h).vars a name = some (old, false) ∧
          envOf r.2 = (envOf h).bind a name (value, false)) ∧
        (r.1 ≠ .setOk → envOf r.2 = envOf h)) ∧
      ∀ value isConst, ∃ r, scopeDeclareIdentifier h s name value isConst = some r ∧
        r.1 ∈ ([.setExists, .setOk] : List ValmapSetStatus) ∧
        (r.1 = .setExists ↔ ∃ b, (envOf h).vars s name = some b) ∧
        (r.1 = .setOk → envOf r.2.2 = (envOf h).bind s name (value, isConst)) ∧
        (r.1 ≠ .setOk → envOf r.2.2 = envOf h)) ∧
    ∀ h', ScopeRun builtins h h' → (envOf h).KeepsConstants (envOf h') := by
  have hi := (run.keeps (treeInv_globalHeap t f n builtins)).1
  refine ⟨fun s hs name => ⟨?_, fun value => ?_, fun value isConst => ?_⟩,
    fun h' run' => (run'.keeps hi).2⟩
  · obtain ⟨r, hr⟩ := resolveFrom_returns hi.rooted name (Nat.lt_succ_self s)
      fun a ha => hi.chain_live hs ha
    obtain ⟨hb, hptr⟩ := resolveFrom_spec hi.rooted hr
    refine ⟨r, hr, hb.symm, ?_⟩
    cases r with
    | none =>
      rw [Option.map_none, Env.binder_eq_none] at hb
      exact (Env.find_eq_none.mpr hb).symm
    | some ptr => exact (hptr ptr rfl).1
  · obtain ⟨r, hr⟩ := assignFrom_returns name value hi.rooted (Nat.lt_succ_self s)
      fun a ha => hi.chain_live hs ha
    obtain ⟨-, he, -⟩ := assignFrom_spec hi.rooted hr
    have h1 : r.1 = (envAssign (envOf h) s name value).1 := congrArg Prod.fst he
    have h2 : envOf r.2 = (envAssign (envOf h) s name value).2 := congrArg Prod.snd he
    refine ⟨r, hr, ?_⟩
    rw [h1, h2]
    exact ⟨envAssign_status, envAssign_notFound, envAssign_isConst, envAssign_ok,
      envAssign_rejected⟩
  · obtain ⟨r, hr⟩ := scopeDeclareIdentifier_returns (hi.live s hs) name value isConst
    obtain ⟨-, -, hstatus, henv, -⟩ := scopeDeclareIdentifier_spec hr
    refine ⟨r, hr, ?_⟩
    rw [hstatus, henv]
    cases (envOf h).vars s name <;> simp

/-- A child of the global scope, before and after a declaration. -/
theorem scope_refines_environment_child :
    let h := (globalHeap 1 0 2 [("print", 7)]).alloc (scopeInit [("print", 7)] (some 0))
    ScopeRun [("print", 7)] (globalHeap 1 0 2 [("print", 7)]) h ∧
      (∃ r, scopeDeclareIdentifier h 1 "x" 5 false = some r ∧
        r.1 ∈ ([.setExists, .setOk] : List ValmapSetStatus) ∧
        (r.1 = .setExists ↔ ∃ b, (envOf h).vars 1 "x" = some b) ∧
        (r.1 = .setOk → envOf r.2.2 = (envOf h).bind 1 "x" (5, false)) ∧
        (r.1 ≠ .setOk → envOf r.2.2 = envOf h)) := by
  have run : ScopeRun [("print", 7)] (globalHeap 1 0 2 [("print", 7)])
      ((globalHeap 1 0 2 [("print", 7)]).alloc (scopeInit [("print", 7)] (some 0))) :=
    Relation.ReflTransGen.single (.init _ 0 (by decide))
  exact ⟨run, ((scope_refines_environment 1 0 2 _ _ run).1 1 (by decide) "x").2.2 5 false⟩

end Blaze
