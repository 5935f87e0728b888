import Blazescript.Valmap.Valmap

/-!
# Proofs: the operations on hash maps in good order

One lemma for each writing function, giving its status, its bindings and the generation of its
array, and what `get` points to.
-/

namespace Blaze

variable {α : Type}

theorem Written.of_eq {result : Option (SetResult α)} {r : SetResult α}
    (h : ∃ r, result = some r ∧ r.valmap.Inv) (hr : result = some r) :
    (Written.of result h).status = r.status ∧ (Written.of result h).valmap.data = r.valmap ∧
      (Written.of result h).released = r.released := by
  subst hr
  exact ⟨rfl, rfl, rfl⟩

namespace Valmap

@[simp] theorem binding_initDefault (key : String) :
    (initDefault : Valmap α).binding key = none := Blaze.binding_initDefault key

/-- `get` points to the binding of the key. -/
theorem get_entryAt (valmap : Valmap α) (key : String) :
    (valmap.get key).bind valmap.data.entryAt = valmap.binding key := by
  obtain ⟨p, hp, hb⟩ := valmapGet_spec valmap.inv.wf key
  unfold get
  simp only [hp, Option.get_some]
  exact hb

theorem get_eq_none {valmap : Valmap α} {key : String} :
    valmap.get key = none ↔ valmap.binding key = none := by
  constructor
  · intro h
    rw [← get_entryAt, h]
    rfl
  · intro h
    obtain ⟨index, -, hp, hl⟩ := probeKey_lookup valmap.inv.wf key
    have hn : valmap.data.array[index]?.join = none := by
      rw [hl]
      simpa [binding, ValmapData.binding, bindingIn] using h
    simp [get, valmapGet, hp, hn]

/-- A value is in the map exactly if some key is bound to it. -/
theorem mem_values {valmap : Valmap α} {v : α} :
    v ∈ valmap.values ↔ ∃ key isConst, valmap.binding key = some (v, isConst) := by
  unfold values binding ValmapData.binding bindingIn
  constructor
  · intro h
    obtain ⟨e, he, rfl⟩ := List.mem_map.mp h
    exact ⟨e.key, e.isConst, bindingIn_of_mem valmap.inv.wf he⟩
  · rintro ⟨key, isConst, h⟩
    obtain ⟨e, he, hv⟩ := Option.map_eq_some_iff.mp h
    simp only [Prod.mk.injEq] at hv
    obtain ⟨hm, -⟩ := (valmap.inv.wf.lookup_eq_some e).mp he
    exact List.mem_map.mpr ⟨e, List.reduceOption_mem_iff.mpr hm, hv.1⟩

section Write

variable (valmap : Valmap α) (key : String) (value : α) (isConst attemptFree : Bool)

theorem setNoOverwrite_spec :
    (valmap.setNoOverwrite key value isConst attemptFree).status =
        (if (valmap.binding key).isSome then .setExists else .setOk) ∧
      (∀ k, (valmap.setNoOverwrite key value isConst attemptFree).valmap.binding k =
        if k = key ∧ valmap.binding key = none then some (value, isConst)
        else valmap.binding k) ∧
      (valmap.setNoOverwrite key value isConst attemptFree).valmap.data.generation =
        valmap.data.generation + (if valmap.data.atThreshold then 1 else 0) := by
  obtain ⟨r, hr, -, hs, hb, hg⟩ :=
    valmapSetMode_spec valmap.inv key value isConst attemptFree .noOverwrite true
  obtain ⟨h1, h2, -⟩ :=
    Written.of_eq (valmap.setMode_ends key value isConst attemptFree .noOverwrite true) hr
  refine ⟨?_, fun k => ?_, ?_⟩
  · refine (h1.trans hs).trans ?_
    unfold binding
    cases valmap.data.binding key <;> rfl
  · refine (congrArg (fun m => ValmapData.binding m k) h2).trans ((hb k).trans ?_)
    unfold binding
    by_cases hk : k = key
    · subst hk
      cases hc : valmap.data.binding k with
      | none => simp [writeBinding]
      | some x => simp [writeBinding]
    · simp [hk]
  · exact (congrArg ValmapData.generation h2).trans hg

theorem setNoCreate_spec :
    (valmap.setNoCreate key value isConst attemptFree).status =
        (match valmap.binding key with
          | none => .setNotFound
          | some (_, true) => .setIsConst
          | some (_, false) => .setOk) ∧
      (∀ k, (valmap.setNoCreate key value isConst attemptFree).valmap.binding k =
        if k = key ∧ (valmap.binding key).any (fun b => !b.2) then some (value, false)
        else valmap.binding k) ∧
      (valmap.setNoCreate key value isConst attemptFree).valmap.data.generation =
        valmap.data.generation + (if valmap.data.atThreshold then 1 else 0) := by
  obtain ⟨r, hr, -, hs, hb, hg⟩ :=
    valmapSetMode_spec valmap.inv key value isConst attemptFree .noCreate true
  obtain ⟨h1, h2, -⟩ :=
    Written.of_eq (valmap.setMode_ends key value isConst attemptFree .noCreate true) hr
  refine ⟨?_, fun k => ?_, ?_⟩
  · refine (h1.trans hs).trans ?_
    unfold binding
    rcases valmap.data.binding key with _ | ⟨old, _ | _⟩ <;> rfl
  · refine (congrArg (fun m => ValmapData.binding m k) h2).trans ((hb k).trans ?_)
    unfold binding
    by_cases hk : k = key
    · subst hk
      rcases hc : valmap.data.binding k with _ | ⟨old, _ | _⟩ <;> simp [writeBinding]
    · simp [hk]
  · exact (congrArg ValmapData.generation h2).trans hg

theorem setDefault_spec :
    (∀ k, (valmap.setDefault key value isConst attemptFree).valmap.binding k =
        if k = key then some (value, ((valmap.binding key).map Prod.snd).getD isConst)
        else valmap.binding k) ∧
      (valmap.setDefault key value isConst attemptFree).valmap.data.generation =
        valmap.data.generation + (if valmap.data.atThreshold then 1 else 0) := by
  obtain ⟨r, hr, -, -, hb, hg⟩ :=
    valmapSetMode_spec valmap.inv key value isConst attemptFree .overwriteDefault false
  have hr' : valmapSetDefault valmap.data key value isConst attemptFree =
      some { r with status := .setOk } := by
    simp [valmapSetDefault, hr]
  obtain ⟨-, h2, -⟩ :=
    Written.of_eq (valmap.setDefault_ends key value isConst attemptFree) hr'
  refine ⟨fun k => ?_, (congrArg ValmapData.generation h2).trans hg⟩
  refine (congrArg (fun m => ValmapData.binding m k) h2).trans ((hb k).trans ?_)
  unfold binding
  by_cases hk : k = key
  · subst hk
    rcases hc : valmap.data.binding k with _ | ⟨old, wasConst⟩ <;> simp [writeBinding]
  · simp [hk]

end Write

end Valmap

end Blaze
