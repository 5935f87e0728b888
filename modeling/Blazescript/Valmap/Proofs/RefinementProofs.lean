import Mathlib.Tactic
import Blazescript.Valmap.Proofs.DataProofs

/-!
# Proofs: sequences of calls refine the finite map

Every call agrees with its finite-map counterpart on what it returns and on the bindings it leaves,
so any sequence of calls from an empty map does.
-/

namespace Blaze

open Probing

variable {α : Type}

/-- The value and the constant flag at an index of the array. -/
def ValmapData.entryAt (valmap : ValmapData α) (index : Nat) : Option (α × Bool) :=
  valmap.array[index]?.join.map fun e => (e.value, e.isConst)

theorem inv_initDefault : (valmapInitDefault : ValmapData α).Inv := by
  refine ⟨?_, by simp [valmapInitDefault, valmapInit], by simp [valmapInitDefault, valmapInit]⟩
  have h : WF ValmapEntry.key (hashKey valmapDefaultSize)
      (List.replicate valmapDefaultSize (none : Option (ValmapEntry α))) :=
    wf_replicate (hashKey_lt (by decide)) (by decide)
  simpa [valmapInitDefault, valmapInit] using h

theorem binding_initDefault (key : String) :
    (valmapInitDefault : ValmapData α).binding key = none := by
  rw [ValmapData.binding, bindingIn_eq_none inv_initDefault.wf]
  simp [valmapInitDefault, valmapInit]

/-- `valmap_get` ends, and points to the binding of the key. -/
theorem valmapGet_spec {valmap : ValmapData α}
    (h : WF ValmapEntry.key (hashKey valmap.array.length) valmap.array) (key : String) :
    ∃ p, valmapGet valmap key = some p ∧ p.bind valmap.entryAt = valmap.binding key := by
  obtain ⟨index, -, hp, hl⟩ := probeKey_lookup h key
  refine ⟨if valmap.array[index]?.join.isSome then some index else none,
    by simp only [valmapGet, hp, Option.map_some], ?_⟩
  cases hc : valmap.array[index]?.join with
  | none => simp [ValmapData.binding, bindingIn, ← hl, hc]
  | some e => simp [ValmapData.binding, bindingIn, ValmapData.entryAt, ← hl, hc]

/-- The map and the finite map have the same bindings. -/
def Agrees (valmap : ValmapData α) (b : Bindings α) : Prop :=
  ∀ key, valmap.binding key = b.lookup key

/-- The number of entries is the number of keys. -/
theorem Agrees.count {valmap : ValmapData α} {b : Bindings α} (h : valmap.Inv)
    (ha : Agrees valmap b) : valmapGetCount valmap = b.keys.card := by
  refine h.count.trans (h.wf.card_keys fun key => ?_).symm
  rw [Finmap.mem_keys, ← not_iff_not, ← Finmap.lookup_eq_none, ← ha key, not_not]
  exact Option.map_eq_none_iff

/-- A write that leaves its key bound to `x` keeps the agreement if the finite map is changed so. -/
theorem Agrees.write {valmap valmap' : ValmapData α} {b b' : Bindings α} {key : String}
    {x : Option (α × Bool)} (ha : Agrees valmap b)
    (hw : ∀ k, valmap'.binding k = if k = key then x else valmap.binding k)
    (hx : b'.lookup key = x) (hother : ∀ k, k ≠ key → b'.lookup k = b.lookup k) :
    Agrees valmap' b' := by
  intro k
  rw [hw]
  split_ifs with hk
  · rw [hk, hx]
  · rw [ha k, hother k hk]

section Ops

variable {valmap : ValmapData α} {b : Bindings α}

theorem setNoOverwrite_refines (h : valmap.Inv) (ha : Agrees valmap b) (key : String) (value : α)
    (isConst attemptFree : Bool) :
    ∃ r, valmapSetNoOverwrite valmap key value isConst attemptFree = some r ∧ r.valmap.Inv ∧
      r.status = (b.setNoOverwrite key value isConst).1 ∧
      Agrees r.valmap (b.setNoOverwrite key value isConst).2 := by
  obtain ⟨r, hr, hinv, hstatus, hbind, -⟩ :=
    valmapSetMode_spec h key value isConst attemptFree .noOverwrite true
  rw [ha key] at hstatus hbind
  refine ⟨r, hr, hinv, ?_, ?_⟩
  · rw [hstatus]
    unfold Bindings.setNoOverwrite
    cases b.lookup key <;> rfl
  · refine ha.write hbind ?_ fun k hk => ?_
    · unfold Bindings.setNoOverwrite
      cases hl : b.lookup key with
      | none => simp [writeBinding]
      | some x => simp [writeBinding, hl]
    · unfold Bindings.setNoOverwrite
      cases b.lookup key with
      | none => exact Finmap.lookup_insert_of_ne b hk
      | some x => rfl

theorem setNoCreate_refines (h : valmap.Inv) (ha : Agrees valmap b) (key : String) (value : α)
    (isConst attemptFree : Bool) :
    ∃ r, valmapSetNoCreate valmap key value isConst attemptFree = some r ∧ r.valmap.Inv ∧
      r.status = (b.setNoCreate key value).1 ∧ Agrees r.valmap (b.setNoCreate key value).2 := by
  obtain ⟨r, hr, hinv, hstatus, hbind, -⟩ :=
    valmapSetMode_spec h key value isConst attemptFree .noCreate true
  rw [ha key] at hstatus hbind
  refine ⟨r, hr, hinv, ?_, ?_⟩
  · rw [hstatus]
    unfold Bindings.setNoCreate
    rcases b.lookup key with _ | ⟨old, _ | _⟩ <;> rfl
  · refine ha.write hbind ?_ fun k hk => ?_
    · unfold Bindings.setNoCreate
      rcases hl : b.lookup key with _ | ⟨old, _ | _⟩
      · simp [writeBinding, hl]
      · simp [writeBinding]
      · simp [writeBinding, hl]
    · unfold Bindings.setNoCreate
      rcases b.lookup key with _ | ⟨old, _ | _⟩
      · rfl
      · exact Finmap.lookup_insert_of_ne b hk
      · rfl

theorem setDefault_refines (h : valmap.Inv) (ha : Agrees valmap b) (key : String) (value : α)
    (isConst attemptFree : Bool) :
    ∃ r, valmapSet valmap key value isConst attemptFree = some r ∧ r.valmap.Inv ∧
      Agrees r.valmap (b.setDefault key value isConst) := by
  obtain ⟨r, hr, hinv, -, hbind, -⟩ :=
    valmapSetMode_spec h key value isConst attemptFree .overwriteDefault false
  rw [ha key] at hbind
  refine ⟨r, hr, hinv, ha.write hbind ?_ fun k hk => ?_⟩
  · unfold Bindings.setDefault
    rcases b.lookup key with _ | ⟨old, wasConst⟩ <;> simp [writeBinding]
  · unfold Bindings.setDefault
    rcases b.lookup key with _ | ⟨old, wasConst⟩ <;> exact Finmap.lookup_insert_of_ne b hk

/-- One call: what it returns and the bindings it leaves are those of the finite map. -/
theorem MapOp.run_refines (h : valmap.Inv) (ha : Agrees valmap b) (op : MapOp α) :
    ∃ r, op.run valmap = some r ∧ r.2.Inv ∧ r.1 = (op.apply b).1 ∧ Agrees r.2 (op.apply b).2 := by
  cases op with
  | set key value isConst attemptFree =>
    obtain ⟨r, hr, hinv, hb⟩ := setDefault_refines h ha key value isConst attemptFree
    exact ⟨(none, r.valmap), by simp [MapOp.run, hr], hinv, rfl, hb⟩
  | setNoOverwrite key value isConst attemptFree =>
    obtain ⟨r, hr, hinv, hs, hb⟩ := setNoOverwrite_refines h ha key value isConst attemptFree
    exact ⟨(some r.status, r.valmap), by simp [MapOp.run, hr], hinv, congrArg some hs, hb⟩
  | setNoCreate key value isConst attemptFree =>
    obtain ⟨r, hr, hinv, hs, hb⟩ := setNoCreate_refines h ha key value isConst attemptFree
    exact ⟨(some r.status, r.valmap), by simp [MapOp.run, hr], hinv, congrArg some hs, hb⟩
  | setDefault key value isConst attemptFree =>
    obtain ⟨r, hr, hinv, hb⟩ := setDefault_refines h ha key value isConst attemptFree
    have hr' : valmapSetDefault valmap key value isConst attemptFree =
        some { r with status := .setOk } := by
      have : valmapSetMode valmap key value isConst attemptFree .overwriteDefault false = some r := hr
      simp [valmapSetDefault, this]
    exact ⟨(some .setOk, r.valmap), by simp [MapOp.run, hr'], hinv, rfl, hb⟩

/-- A sequence of calls. -/
theorem MapOp.runAll_refines (ops : List (MapOp α)) :
    ∀ {valmap : ValmapData α} {b : Bindings α}, valmap.Inv → Agrees valmap b →
      ∃ r, MapOp.runAll valmap ops = some r ∧ r.2.Inv ∧ r.1 = (MapOp.applyAll b ops).1 ∧
        Agrees r.2 (MapOp.applyAll b ops).2 := by
  induction ops with
  | nil => intro valmap b h ha; exact ⟨([], valmap), rfl, h, rfl, ha⟩
  | cons op ops ih =>
    intro valmap b h ha
    obtain ⟨r, hr, hinv, hs, hb⟩ := op.run_refines h ha
    obtain ⟨rs, hrs, hinv', hs', hb'⟩ := ih hinv hb
    exact ⟨(r.1 :: rs.1, rs.2), by simp [MapOp.runAll, hr, hrs], hinv', by
      simp [MapOp.applyAll, hs, hs'], hb'⟩

end Ops

/-- Every sequence of writing calls from an empty map agrees with the finite map of its bindings:
on the statuses returned, on what `valmap_get` points to, and on the count; and replacing the array
by one of any sufficient capacity keeps every key, value and constant flag. -/
theorem valmap_refines_finmap (ops : List (MapOp α)) :
    ∃ statuses valmap, MapOp.runAll valmapInitDefault ops = some (statuses, valmap) ∧
      statuses = (MapOp.applyAll ∅ ops).1 ∧
      (∀ key, ∃ p, valmapGet valmap key = some p ∧
        p.bind valmap.entryAt = (MapOp.applyAll ∅ ops).2.lookup key) ∧
      valmapGetCount valmap = (MapOp.applyAll ∅ ops).2.keys.card ∧
      ∀ newCapacity, valmapGetCount valmap < newCapacity →
        ∃ valmap', valmapRealloc valmap newCapacity = some valmap' ∧
          ∀ key, ∃ p, valmapGet valmap' key = some p ∧
            p.bind valmap'.entryAt = (MapOp.applyAll ∅ ops).2.lookup key := by
  obtain ⟨⟨statuses, valmap⟩, hrun, hinv, hs, ha⟩ :=
    MapOp.runAll_refines ops inv_initDefault (b := ∅) fun key => by
      rw [binding_initDefault, Finmap.lookup_empty]
  refine ⟨statuses, valmap, hrun, hs, fun key => ?_, ha.count hinv, fun newCapacity hroom => ?_⟩
  · obtain ⟨p, hp, hb⟩ := valmapGet_spec hinv.wf key
    exact ⟨p, hp, hb.trans (ha key)⟩
  · obtain ⟨valmap', hr, hwf, -, -, -, -, hb⟩ := valmapRealloc_spec hinv hroom
    refine ⟨valmap', hr, fun key => ?_⟩
    obtain ⟨p, hp, hp'⟩ := valmapGet_spec hwf key
    exact ⟨p, hp, hp'.trans ((hb key).trans (ha key))⟩

/-! ## Every search ends -/

theorem valmapSetEntry_ends {array : List (Option (ValmapEntry α))}
    (h : WF ValmapEntry.key (hashKey array.length) array) (key : String) (value : α)
    (isConst attemptFree : Bool) (overwrite : OverwriteMode) (report : Bool) :
    (valmapSetEntry array key value isConst attemptFree overwrite report).isSome := by
  obtain ⟨index, -, hp, -⟩ := probeKey_lookup h key
  simp [valmapSetEntry, hp]

/-- While the entries of a map are put into a larger array, the array they are put into is in good
order at every moment. -/
theorem ValmapData.Inv.wf_rehashing {valmap : ValmapData α} (h : valmap.Inv) {newCapacity : Nat}
    (hroom : valmap.elements < newCapacity) {moved : List (Option (ValmapEntry α))}
    (hmoved : moved <+: valmap.array) :
    ∃ array, moved.foldlM reinsertEntry (List.replicate newCapacity none) = some array ∧
      WF ValmapEntry.key (hashKey array.length) array := by
  obtain ⟨later, hlater⟩ := hmoved
  have hpos : 0 < newCapacity := by omega
  have hempty : WF (ε := ValmapEntry α) ValmapEntry.key
      (hashKey (List.replicate newCapacity (none : Option (ValmapEntry α))).length)
      (List.replicate newCapacity none) := by
    rw [List.length_replicate]
    exact wf_replicate (hashKey_lt hpos) hpos
  have hcount := h.count
  rw [← hlater, List.reduceOption_append, List.length_append] at hcount
  have hnodup := h.wf.nodup_keys
  rw [← hlater, List.reduceOption_append, List.map_append] at hnodup
  obtain ⟨array, harray, hlen, hwf, -⟩ := reinsert_all moved (List.replicate newCapacity none) hempty
    (by rw [List.reduceOption_replicate_none, List.length_replicate, List.length_nil]; omega)
    (List.Nodup.of_append_left hnodup)
    (fun e _ => (bindingIn_eq_none hempty).mpr (by simp))
  rw [← hlen] at hwf
  exact ⟨array, harray, hwf⟩

/-- After any sequence of writing calls the count is right, the keys differ, no empty slot lies between
an entry and the slot its key hashes to, and some slot is empty. So the loops of `valmap_get` and
`valmap_set_entry` end for every key, on the map and on each array met while it is rehashed. -/
theorem probe_loops_end (ops : List (MapOp α)) :
    ∃ statuses valmap, MapOp.runAll valmapInitDefault ops = some (statuses, valmap) ∧
      valmap.elements = valmap.array.countP Option.isSome ∧
      (∀ (i j : Nat) (e e' : ValmapEntry α), valmap.array[i]? = some (some e) →
        valmap.array[j]? = some (some e') → e.key = e'.key → i = j) ∧
      (∀ (j : Nat) (e : ValmapEntry α), valmap.array[j]? = some (some e) → ∃ d < valmap.capacity,
        (hashKey valmap.capacity e.key + d) % valmap.capacity = j ∧
          ∀ c < d, valmap.array[(hashKey valmap.capacity e.key + c) % valmap.capacity]? ≠ some none) ∧
      none ∈ valmap.array ∧
      (∀ key, (valmapGet valmap key).isSome) ∧
      (∀ key value isConst attemptFree overwrite report,
        (valmapSetEntry valmap.array key value isConst attemptFree overwrite report).isSome) ∧
      ∀ moved, moved <+: valmap.array → ∃ array,
        moved.foldlM reinsertEntry (List.replicate (valmap.capacity * 2) none) = some array ∧
          ∀ key value isConst attemptFree overwrite report,
            (valmapSetEntry array key value isConst attemptFree overwrite report).isSome := by
  have hagrees : Agrees (valmapInitDefault : ValmapData α) ∅ := fun key => by
    rw [binding_initDefault, Finmap.lookup_empty]
  obtain ⟨⟨statuses, valmap⟩, hrun, hinv, -⟩ := MapOp.runAll_refines ops inv_initDefault hagrees
  have hinv' : valmap.Inv := hinv
  refine ⟨statuses, valmap, hrun, ?_, hinv'.wf.inj, ?_, hinv'.wf.free, ?_,
    valmapSetEntry_ends hinv'.wf, ?_⟩
  · rw [hinv'.count, List.reduceOption_length_eq, List.countP_eq_length_filter]
  · intro j e hj
    obtain ⟨d, hd, hslot, hbefore⟩ := hinv'.wf.reach j e hj
    refine ⟨d, hd, hslot, fun c hc hnone => ?_⟩
    obtain ⟨e', he'⟩ := hbefore c hc
    cases he'.symm.trans hnone
  · intro key
    obtain ⟨p, hp, -⟩ := valmapGet_spec hinv'.wf key
    rw [hp]
    rfl
  · intro moved hmoved
    have hroom : valmap.elements < valmap.capacity * 2 := by
      have hlt : valmap.array.reduceOption.length < valmap.array.length :=
        List.reduceOption_length_lt_iff.mpr hinv'.wf.free
      have hcount := hinv'.count
      show valmap.elements < valmap.array.length * 2
      omega
    obtain ⟨array, harray, hwf⟩ := hinv'.wf_rehashing hroom hmoved
    exact ⟨array, harray, valmapSetEntry_ends hwf⟩

end Blaze
