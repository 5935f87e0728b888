import Blazescript.Scope.Proofs.ScopeProofs
import Blazescript.Scope.Alike
import Blazescript.Arena.Proofs.AlikeProofs

/-!
# Proofs: scopes that differ in names

The functions of `valmap.c` and `scope.c` look at keys and flags only, and do the same to maps that are alike.
-/

namespace Blaze

open Arena Probing

variable {α β : Type} {r r' : Nat → Nat → Prop} {R R' : α → β → Prop}

/-! ## Maps -/

section Map

variable {array : List (Option (ValmapEntry α))} {array' : List (Option (ValmapEntry β))} {valmap : ValmapData α}
  {valmap' : ValmapData β} {value : α} {value' : β} {k : String}

theorem SlotsAlike.entry (h : SlotsAlike R array array') (i : Nat) :
    Option.Rel (ValmapEntry.Alike R) array[i]?.join array'[i]?.join := by
  rcases rel_cases (rel_get h i) with ⟨hx, hx'⟩ | ⟨slot, slot', hx, hx', hs⟩
  · rw [hx, hx']
    exact .none
  · rw [hx, hx']
    exact hs

theorem SlotsAlike.set (h : SlotsAlike R array array') {e : ValmapEntry α} {e' : ValmapEntry β}
    (he : e.Alike R e') (i : Nat) : SlotsAlike R (array.set i (some e)) (array'.set i (some e')) := by
  induction h generalizing i with
  | nil => exact .nil
  | cons hx hxs ih =>
    cases i with
    | zero => exact .cons (.some he) hxs
    | succ i => exact .cons hx (ih i)

/-- A search meets the same slots. -/
theorem probe_alike (h : SlotsAlike R array array') (k : String) (fuel i : Nat) :
    probe ValmapEntry.key k array fuel i = probe ValmapEntry.key k array' fuel i := by
  induction fuel generalizing i with
  | zero => rfl
  | succ fuel ih =>
    unfold probe
    rcases rel_cases (rel_get h i) with ⟨hx, hx'⟩ | ⟨slot, slot', hx, hx', hs⟩
    · rw [hx, hx']
    · rw [hx, hx']
      cases hs with
      | none => rfl
      | some he => simp only [he.key, ih, h.length_eq]

theorem probeKey_alike (h : SlotsAlike R array array') (k : String) : probeKey array k = probeKey array' k := by
  unfold probeKey
  rw [probe_alike h, h.length_eq]

theorem valmapGet_alike (h : valmap.Alike R valmap') (k : String) : valmapGet valmap k = valmapGet valmap' k := by
  unfold valmapGet
  rw [probeKey_alike h.array]
  refine congrArg (fun f => (probeKey valmap'.array k).map f) (funext fun i => ?_)
  rcases rel_cases (h.array.entry i) with ⟨hx, hx'⟩ | ⟨e, e', hx, hx', -⟩
  · rw [hx, hx']
    rfl
  · rw [hx, hx']
    rfl

structure SetEntryResult.Alike (R : α → β → Prop) (e : SetEntryResult α) (e' : SetEntryResult β) : Prop where
  array : SlotsAlike R e.array e'.array
  created : e.created = e'.created
  status : e.status = e'.status

theorem valmapSetEntry_alike (h : SlotsAlike R array array') (hv : R value value') (isConst attemptFree : Bool)
    (overwrite : OverwriteMode) (report : Bool) :
    Option.Rel (SetEntryResult.Alike R) (valmapSetEntry array k value isConst attemptFree overwrite report)
      (valmapSetEntry array' k value' isConst attemptFree overwrite report) := by
  unfold valmapSetEntry
  rw [probeKey_alike h]
  cases probeKey array' k with
  | none => exact .none
  | some i =>
    refine .some ?_
    rcases rel_cases (h.entry i) with ⟨he, he'⟩ | ⟨e, e', he, he', hee⟩
    · simp only [he, he']
      split_ifs
      · exact ⟨h, rfl, rfl⟩
      · exact ⟨h.set ⟨rfl, hv, rfl⟩ i, rfl, rfl⟩
    · have hset : ValmapEntry.Alike R ⟨e.key, value, e'.isConst⟩ ⟨e'.key, value', e'.isConst⟩ := ⟨hee.key, hv, rfl⟩
      simp only [he, he', hee.isConst]
      split_ifs
      · exact ⟨h, rfl, rfl⟩
      · exact ⟨h, rfl, rfl⟩
      · exact ⟨h.set hset i, rfl, rfl⟩
      · exact ⟨h.set hset i, rfl, rfl⟩

theorem reinsert_alike (slots : List (Option (ValmapEntry α))) (slots' : List (Option (ValmapEntry β)))
    (hs : SlotsAlike R slots slots') :
    ∀ {array : List (Option (ValmapEntry α))} {array' : List (Option (ValmapEntry β))}, SlotsAlike R array array' →
      Option.Rel (SlotsAlike R) (slots.foldlM reinsertEntry array) (slots'.foldlM reinsertEntry array') := by
  induction hs with
  | nil => exact fun h => .some h
  | @cons slot slot' slots slots' hslot _ ih =>
    intro array array' h
    rw [List.foldlM_cons, List.foldlM_cons]
    have hstep : Option.Rel (SlotsAlike R) (reinsertEntry array slot) (reinsertEntry array' slot') := by
      cases hslot with
      | none => exact .some h
      | @some e e' he =>
        unfold reinsertEntry
        simp only [he.key, he.isConst]
        exact rel_map (valmapSetEntry_alike h he.value _ _ _ _) fun _ _ hres => hres.array
    exact rel_bind hstep fun _ _ h' => ih h'

theorem slotsAlike_empty (n : Nat) :
    SlotsAlike R (List.replicate n (none : Option (ValmapEntry α))) (List.replicate n none) := by
  induction n with
  | zero => exact .nil
  | succ n ih => exact .cons .none ih

theorem valmapCheckRealloc_alike (h : valmap.Alike R valmap') :
    Option.Rel (ValmapData.Alike R) (valmapCheckRealloc valmap) (valmapCheckRealloc valmap') := by
  unfold valmapCheckRealloc ValmapData.atThreshold ValmapData.capacity
  rw [h.elements, h.array.length_eq]
  split_ifs
  · unfold valmapRealloc
    exact rel_map (reinsert_alike _ _ h.array (slotsAlike_empty _)) fun _ _ harray =>
      ⟨harray, h.elements, congrArg (· + 1) h.generation⟩
  · exact .some h

structure SetResult.Alike (R : α → β → Prop) (e : SetResult α) (e' : SetResult β) : Prop where
  status : e.status = e'.status
  valmap : e.valmap.Alike R e'.valmap

theorem valmapSetMode_alike (h : valmap.Alike R valmap') (hv : R value value') (isConst attemptFree : Bool)
    (overwrite : OverwriteMode) (report : Bool) :
    Option.Rel (SetResult.Alike R) (valmapSetMode valmap k value isConst attemptFree overwrite report)
      (valmapSetMode valmap' k value' isConst attemptFree overwrite report) := by
  unfold valmapSetMode
  refine rel_bind (valmapCheckRealloc_alike h) fun map map' h' => ?_
  refine rel_map (valmapSetEntry_alike h'.array hv isConst attemptFree overwrite report) fun res res' hres => ?_
  refine ⟨hres.status, hres.array, ?_, h'.generation⟩
  simp only [hres.created, h'.elements]

structure Written.Alike (R : α → β → Prop) (w : Written α) (w' : Written β) : Prop where
  status : w.status = w'.status
  valmap : w.valmap.data.Alike R w'.valmap.data

theorem Written.alike_of {result : Option (SetResult α)} {result' : Option (SetResult β)}
    (h : ∃ e, result = some e ∧ e.valmap.Inv) (h' : ∃ e, result' = some e ∧ e.valmap.Inv)
    (hres : Option.Rel (SetResult.Alike R) result result') : (Written.of result h).Alike R (Written.of result' h') := by
  cases hres with
  | none =>
    obtain ⟨_, he, -⟩ := h
    cases he
  | some hres => exact ⟨hres.status, hres.valmap⟩

variable {map : Valmap α} {map' : Valmap β}

theorem Valmap.get_alike (h : map.data.Alike R map'.data) (k : String) : map.get k = map'.get k := by
  unfold Valmap.get
  simp only [valmapGet_alike h]

theorem Valmap.setNoOverwrite_alike (h : map.data.Alike R map'.data) (hv : R value value')
    (isConst attemptFree : Bool) :
    (map.setNoOverwrite k value isConst attemptFree).Alike R (map'.setNoOverwrite k value' isConst attemptFree) :=
  Written.alike_of _ _ (valmapSetMode_alike h hv isConst attemptFree _ _)

theorem Valmap.setNoCreate_alike (h : map.data.Alike R map'.data) (hv : R value value') (isConst attemptFree : Bool) :
    (map.setNoCreate k value isConst attemptFree).Alike R (map'.setNoCreate k value' isConst attemptFree) :=
  Written.alike_of _ _ (valmapSetMode_alike h hv isConst attemptFree _ _)

theorem Valmap.setDefault_alike (h : map.data.Alike R map'.data) (hv : R value value') (isConst attemptFree : Bool) :
    (map.setDefault k value isConst attemptFree).Alike R (map'.setDefault k value' isConst attemptFree) := by
  refine Written.alike_of _ _ ?_
  unfold valmapSetDefault
  exact rel_map (valmapSetMode_alike h hv isConst attemptFree .overwriteDefault false)
    fun _ _ hres => ⟨rfl, hres.valmap⟩

theorem Valmap.values_alike (h : map.data.Alike R map'.data) : List.Forall₂ R map.values map'.values := by
  have hslots : ∀ {slots : List (Option (ValmapEntry α))} {slots' : List (Option (ValmapEntry β))},
      SlotsAlike R slots slots' →
        List.Forall₂ R (slots.reduceOption.map ValmapEntry.value) (slots'.reduceOption.map ValmapEntry.value) := by
    intro slots slots' hs
    induction hs with
    | nil => exact .nil
    | cons hslot _ ih =>
      cases hslot with
      | none => exact ih
      | some he => exact .cons he.value ih
  exact hslots h.array

theorem ValmapData.entryAt_alike (h : valmap.Alike R valmap') (i : Nat) :
    Option.Rel (fun e e' => R e.1 e'.1 ∧ e.2 = e'.2) (valmap.entryAt i) (valmap'.entryAt i) := by
  unfold ValmapData.entryAt
  exact rel_map (h.array.entry i) fun _ _ he => ⟨he.value, he.isConst⟩

theorem valmapData_alike_initDefault :
    (Valmap.initDefault : Valmap α).data.Alike R (Valmap.initDefault : Valmap β).data :=
  ⟨slotsAlike_empty _, rfl, rfl⟩

end Map

/-! ## Scopes -/

section Scopes

variable {h : Scopes α} {h' : Scopes β} {s t : Nat} {scope : Scope α} {scope' : Scope β} {value : α} {value' : β}
  {k : String}

theorem ValmapData.Alike.mono {valmap : ValmapData α} {valmap' : ValmapData β} (hm : valmap.Alike R valmap')
    (hR : ∀ a b, R a b → R' a b) : valmap.Alike R' valmap' := by
  refine ⟨hm.array.imp fun slot slot' hs => ?_, hm.elements, hm.generation⟩
  exact rel_mono hs fun _ _ he => ⟨he.key, hR _ _ he.value, he.isConst⟩

theorem Scope.Alike.mono (hs : scope.Alike r R scope') (hr : ∀ i j, r i j → r' i j) (hR : ∀ a b, R a b → R' a b) :
    scope.Alike r' R' scope' := by
  exact ⟨rel_mono hs.parent hr, hs.valmap.mono hR, hs.mode, hs.uniqueId, hs.prevUniqueId⟩

theorem Scope.declare_alike (hs : scope.Alike r R scope') (hv : R value value') (isConst : Bool) :
    (scope.declare k value isConst).Alike R (scope'.declare k value' isConst) := by
  rw [Scope.declare_eq, Scope.declare_eq]
  exact Valmap.setNoOverwrite_alike hs.valmap hv isConst true

theorem Scope.declareAll_alike {names : List (String × α)} {names' : List (String × β)}
    (hn : List.Forall₂ (fun b b' => b.1 = b'.1 ∧ R b.2 b'.2) names names') :
    ∀ {scope : Scope α} {scope' : Scope β}, scope.Alike r R scope' →
      (scope.declareAll names).Alike r R (scope'.declareAll names') := by
  induction hn with
  | nil => exact fun hs => hs
  | @cons b b' names names' hb _ ih =>
    intro scope scope' hs
    have hw := Scope.declare_alike (k := b.1) hs hb.2 true
    rw [hb.1] at hw
    refine ih ⟨hs.parent, ?_, hs.mode, hs.uniqueId, hs.prevUniqueId⟩
    simp only [hb.1]
    exact hw.valmap

theorem scopeInit_alike {builtins : List (String × α)} {builtins' : List (String × β)}
    (hb : List.Forall₂ (fun b b' => b.1 = b'.1 ∧ R b.2 b'.2) builtins builtins') {p p' : Option Nat}
    (hp : Option.Rel r p p') : (scopeInit builtins p).Alike r R (scopeInit builtins' p') := by
  have hempty : ∀ {p p' : Option Nat}, Option.Rel r p p' →
      Scope.Alike r R ⟨p, .initDefault, false, .scDefault, 0, 0, rfl⟩
        ⟨p', .initDefault, false, .scDefault, 0, 0, rfl⟩ :=
    fun hp => ⟨hp, valmapData_alike_initDefault, rfl, rfl, rfl⟩
  cases hp with
  | none => exact hempty .none
  | some hp => exact Scope.declareAll_alike hb (hempty (.some hp))

theorem scopeDeclareIdentifier_alike (hh : ScopesAlike r R h h') (hst : r s t) (hv : R value value') (isConst : Bool) :
    Option.Rel (fun e e' => e.1 = e'.1 ∧ ScopesAlike r R e.2.2 e'.2.2)
      (scopeDeclareIdentifier h s k value isConst) (scopeDeclareIdentifier h' t k value' isConst) := by
  unfold scopeDeclareIdentifier
  refine rel_map (hh.read hst) fun scope scope' hs => ?_
  have hw := Scope.declare_alike (k := k) hs hv isConst
  exact ⟨hw.status, hh.write hst ⟨hs.parent, hw.valmap, hs.mode, hs.uniqueId, hs.prevUniqueId⟩⟩

theorem scopeSetDefault_alike (hh : ScopesAlike r R h h') (hst : r s t) (hv : R value value') (isConst : Bool) :
    Option.Rel (ScopesAlike r R) (scopeSetDefault h s k value isConst) (scopeSetDefault h' t k value' isConst) := by
  unfold scopeSetDefault
  refine rel_map (hh.read hst) fun scope scope' hs => ?_
  have hw := Valmap.setDefault_alike (k := k) hs.valmap hv isConst false
  exact hh.write hst ⟨hs.parent, hw.valmap, hs.mode, hs.uniqueId, hs.prevUniqueId⟩

theorem readEntry_alike {val val' : EntryPtr} (hh : ScopesAlike r R h h') (hval : val.Alike r val') :
    Option.Rel (fun e e' => R e.1 e'.1 ∧ e.2 = e'.2) (readEntry h val) (readEntry h' val') := by
  unfold readEntry
  refine rel_bind (hh.read hval.scope) fun scope scope' hs => ?_
  rw [hs.valmap.generation, hval.generation, hval.index]
  split_ifs
  · exact ValmapData.entryAt_alike hs.valmap _
  · exact .none

/-- Parents are older in both heaps, so the fuel suffices in both. -/
theorem resolveFrom_alike (hh : ScopesAlike r R h h') (hr : Rooted (envOf h).parent) (hr' : Rooted (envOf h').parent) :
    ∀ {n n' s t : Nat}, r s t → s < n → t < n' →
      Option.Rel (Option.Rel (EntryPtr.Alike r)) (resolveFrom h k n s) (resolveFrom h' k n' t) := by
  intro n
  induction n with
  | zero => exact fun _ hs _ => absurd hs (Nat.not_lt_zero _)
  | succ n ih =>
    intro n' s t hst hs ht
    obtain ⟨n', rfl⟩ : ∃ k, n' = k + 1 := ⟨n' - 1, by omega⟩
    unfold resolveFrom
    rcases rel_cases (hh.read hst) with ⟨hread, hread'⟩ | ⟨scope, scope', hread, hread', hsc⟩
    · rw [hread, hread']
      exact .none
    rw [hread, hread', Option.bind_some, Option.bind_some, Valmap.get_alike hsc.valmap]
    cases scope'.valmap.get k with
    | some index => exact .some (.some ⟨hst, hsc.valmap.generation, rfl⟩)
    | none =>
      rcases rel_cases hsc.parent with ⟨hpar, hpar'⟩ | ⟨p, p', hpar, hpar', hpp⟩
      · simp only [hpar, hpar']
        exact .some .none
      · have hlt := hr s p ((parent_of_peek (Heap.read_eq_some.mp hread).2).trans hpar)
        have hlt' := hr' t p' ((parent_of_peek (Heap.read_eq_some.mp hread').2).trans hpar')
        simp only [hpar, hpar']
        exact ih hpp (by omega) (by omega)

/-- So it does for an assignment, which changes maps on its way up. -/
theorem assignFrom_alike (hv : R value value') : ∀ {n n' s t : Nat} {h : Scopes α} {h' : Scopes β},
    ScopesAlike r R h h' → Rooted (envOf h).parent → Rooted (envOf h').parent → r s t → s < n → t < n' →
      Option.Rel (fun e e' => e.1 = e'.1 ∧ ScopesAlike r R e.2 e'.2)
        (assignFrom h k value n s) (assignFrom h' k value' n' t) := by
  intro n
  induction n with
  | zero => exact fun _ _ _ _ hs _ => absurd hs (Nat.not_lt_zero _)
  | succ n ih =>
    intro n' s t h h' hh hr hr' hst hs ht
    obtain ⟨n', rfl⟩ : ∃ k, n' = k + 1 := ⟨n' - 1, by omega⟩
    rcases rel_cases (hh.read hst) with ⟨hread, hread'⟩ | ⟨scope, scope', hread, hread', hsc⟩
    · unfold assignFrom
      rw [hread, hread']
      exact .none
    rw [assignFrom_succ hread rfl, assignFrom_succ hread' rfl]
    have hw := Valmap.setNoCreate_alike (k := k) hsc.valmap hv false false
    have hwritten : ScopesAlike r R (setMap h s scope (scope.valmap.setNoCreate k value false false).valmap)
        (setMap h' t scope' (scope'.valmap.setNoCreate k value' false false).valmap) :=
      hh.write hst ⟨hsc.parent, hw.valmap, hsc.mode, hsc.uniqueId, hsc.prevUniqueId⟩
    have hp := (Heap.read_eq_some.mp hread).2
    have hp' := (Heap.read_eq_some.mp hread').2
    rw [hw.status]
    rcases rel_cases hsc.parent with ⟨hpar, hpar'⟩ | ⟨p, p', hpar, hpar', hpp⟩
    · rw [hpar, hpar']
      cases (scope'.valmap.setNoCreate k value' false false).status <;> exact .some ⟨rfl, hwritten⟩
    · have hlt := hr s p ((parent_of_peek hp).trans hpar)
      have hlt' := hr' t p' ((parent_of_peek hp').trans hpar')
      have hr₁ : Rooted (envOf (setMap h s scope (scope.valmap.setNoCreate k value false false).valmap)).parent := by
        rw [(setMap_only _ hp).parent]
        exact hr
      have hr₁' :
          Rooted (envOf (setMap h' t scope' (scope'.valmap.setNoCreate k value' false false).valmap)).parent := by
        rw [(setMap_only _ hp').parent]
        exact hr'
      rw [hpar, hpar']
      cases (scope'.valmap.setNoCreate k value' false false).status with
      | setNotFound => exact ih hwritten hr₁ hr₁' hpp (by omega) (by omega)
      | _ => exact .some ⟨rfl, hwritten⟩

theorem scopeResolveIdentifier_alike (hh : ScopesAlike r R h h') (hr : Rooted (envOf h).parent)
    (hr' : Rooted (envOf h').parent) (hst : r s t) :
    Option.Rel (Option.Rel (EntryPtr.Alike r)) (scopeResolveIdentifier h s k) (scopeResolveIdentifier h' t k) :=
  resolveFrom_alike hh hr hr' hst (Nat.lt_succ_self s) (Nat.lt_succ_self t)

theorem scopeAssignIdentifier_alike (hh : ScopesAlike r R h h') (hr : Rooted (envOf h).parent)
    (hr' : Rooted (envOf h').parent) (hst : r s t) (hv : R value value') :
    Option.Rel (fun e e' => e.1 = e'.1 ∧ ScopesAlike r R e.2 e'.2)
      (scopeAssignIdentifier h s k value) (scopeAssignIdentifier h' t k value') :=
  assignFrom_alike hv hh hr hr' hst (Nat.lt_succ_self s) (Nat.lt_succ_self t)

end Scopes

end Blaze
