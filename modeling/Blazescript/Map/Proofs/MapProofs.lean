import Blazescript.Map.Stored
import Blazescript.Valmap.Proofs.DataProofs

/-!
# Proofs: one call of the generic map

While the block has the entries that the map says it has, a call is one of the finite map. Growing the map
gives it a block that is too small for its entries.
-/

namespace Blaze

open Probing

variable {α : Type} {elements : List (Option (MapEntry α))} {map : MapT α} {stored : Stored α}

/-! ## Searching -/

theorem mapProbe_of_probe {key : String} {fuel index i : Nat}
    (h : probe MapEntry.key key elements fuel index = some i) :
    mapProbe elements elements.length key fuel index = .ok i := by
  induction fuel generalizing index with
  | zero => cases h
  | succ fuel ih =>
    rw [probe] at h
    rw [mapProbe]
    rcases hslot : elements[index]? with _ | _ | entry
    · rw [hslot] at h
      cases h
    · rw [hslot] at h
      cases h
      rfl
    · rw [hslot] at h
      dsimp only at h ⊢
      by_cases hkey : entry.key = key
      · rw [if_pos hkey] at h ⊢
        cases h
        rfl
      · rw [if_neg hkey] at h ⊢
        exact ih h

/-- What is found under a key. -/
def storedIn (elements : List (Option (MapEntry α))) (key : String) : Option (Option α) :=
  (lookup MapEntry.key (hashKey elements.length) elements key).map MapEntry.value

theorem mapFind_lookup (h : WF MapEntry.key (hashKey elements.length) elements) (key : String) :
    ∃ index < elements.length, mapFind elements elements.length key = .ok index ∧
      elements[index]?.join = lookup MapEntry.key (hashKey elements.length) elements key ∧
      ∀ e : MapEntry α, e.key = key →
        put MapEntry.key (hashKey elements.length) elements e = some (elements.set index (some e)) := by
  obtain ⟨index, hi, hp, -⟩ := h.probe_cases key
  refine ⟨index, hi, mapProbe_of_probe hp, by simp [lookup, hp], fun e he => ?_⟩
  subst he
  simp [put, hp]

/-- A search in a block that has fewer entries than the map leaves it, unless it ends before. -/
theorem mapProbe_short {key : String} {capacity fuel index : Nat} (hshort : elements.length < capacity)
    (hpos : 0 < fuel) (hfuel : elements.length < fuel + index) :
    mapProbe elements capacity key fuel index = .error .outside ∨
      ∃ i, mapProbe elements capacity key fuel index = .ok i ∧
        (elements[i]? = some none ∨ ∃ e, elements[i]? = some (some e) ∧ e.key = key) := by
  induction fuel generalizing index with
  | zero => exact absurd hpos (Nat.lt_irrefl 0)
  | succ fuel ih =>
    rw [mapProbe]
    rcases hslot : elements[index]? with _ | _ | entry
    · exact .inl rfl
    · exact .inr ⟨index, rfl, .inl hslot⟩
    · have hindex : index < elements.length := (List.getElem?_eq_some_iff.mp hslot).1
      by_cases hkey : entry.key = key
      · dsimp only
        rw [if_pos hkey]
        exact .inr ⟨index, rfl, .inr ⟨entry, hslot, hkey⟩⟩
      · have hnext : next capacity index = index + 1 := by
          unfold next
          rw [if_neg (by omega)]
        dsimp only
        rw [if_neg hkey, hnext]
        exact ih (by omega) (by omega)

/-! ## Writing below the threshold -/

/-- The map and the finite map hold the same. -/
def MapT.Agrees (map : MapT α) (stored : Stored α) : Prop :=
  ∀ key, storedIn map.elements key = stored.lookup key

/-- A map that has not been grown: its block has an entry for each slot, the probe chains are intact, and
the size counts the occupied slots, which are no more than a map may have before it is grown. -/
structure MapT.Inv (map : MapT α) : Prop where
  length_elements : map.elements.length = mapInitSize
  capacity_eq : map.capacity = map.elements.length
  wf : WF MapEntry.key (hashKey map.elements.length) map.elements
  count : map.size = map.elements.reduceOption.length
  size_le : map.size ≤ 3277

theorem inv_mapCreate : (mapCreate : MapT α).Inv := by
  have hlen : (List.replicate mapInitSize (none : Option (MapEntry α))).length = mapInitSize :=
    List.length_replicate
  refine ⟨hlen, hlen.symm, ?_, ?_, Nat.zero_le _⟩
  · show WF _ (hashKey (List.replicate mapInitSize (none : Option (MapEntry α))).length) _
    rw [hlen]
    exact wf_replicate (hashKey_lt (by decide)) (by decide)
  · show 0 = (List.replicate mapInitSize (none : Option (MapEntry α))).reduceOption.length
    rw [List.reduceOption_replicate_none]
    rfl

theorem agrees_mapCreate : (mapCreate : MapT α).Agrees ∅ := by
  intro key
  have hnone : lookup MapEntry.key (hashKey (mapCreate : MapT α).elements.length)
      (mapCreate : MapT α).elements key = none := by
    rw [inv_mapCreate.wf.lookup_eq_none]
    intro e he
    cases List.eq_of_mem_replicate he
  rw [storedIn, hnone, Finmap.lookup_empty]
  rfl

theorem MapT.Inv.card (h : map.Inv) (ha : map.Agrees stored) : map.size = stored.keys.card := by
  refine h.count.trans (h.wf.card_keys fun key => ?_).symm
  rw [Finmap.mem_keys, ← not_iff_not, ← Finmap.lookup_eq_none, ← ha key, not_not]
  exact Option.map_eq_none_iff

/-- `valmap_set_entry` in a block with an entry for each slot is a write to the finite map. -/
theorem mapSetEntry_spec (h : WF MapEntry.key (hashKey elements.length) elements)
    (hroom : elements.reduceOption.length + 1 < elements.length)
    (ha : ∀ key, storedIn elements key = stored.lookup key) (key : String) (value : Option α)
    (flags : UInt32) :
    ∃ w, mapSetEntry elements elements.length key value flags = .ok w ∧
      w.elements.length = elements.length ∧ WF MapEntry.key (hashKey elements.length) w.elements ∧
      w.elements.reduceOption.length = elements.reduceOption.length + (if w.created then 1 else 0) ∧
      w.resultFlags = (stored.set key value flags).1 ∧
      w.oldElement = (stored.set key value flags).2.1 ∧
      ∀ k, storedIn w.elements k = (stored.set key value flags).2.2.lookup k := by
  obtain ⟨index, hindex, hfind, hjoin, hput⟩ := mapFind_lookup h key
  -- writing an entry for the key
  have hwrite : ∀ e : MapEntry α, e.key = key →
      (elements.set index (some e)).length = elements.length ∧
      WF MapEntry.key (hashKey elements.length) (elements.set index (some e)) ∧
      (∀ k, storedIn (elements.set index (some e)) k = (stored.insert key e.value).lookup k) ∧
      (elements.set index (some e)).reduceOption.length = elements.reduceOption.length +
        if (lookup MapEntry.key (hashKey elements.length) elements key).isSome then 0 else 1 := by
    intro e he
    obtain ⟨slots, hslots, hwf, hlen, hlookup, hcount⟩ := h.put e hroom
    have heq : elements.set index (some e) = slots := Option.some.inj ((hput e he).symm.trans hslots)
    rw [heq]
    rw [he] at hlookup hcount
    refine ⟨hlen, hwf, fun k => ?_, hcount⟩
    unfold storedIn
    rw [hlen, hlookup]
    by_cases hk : k = key
    · rw [if_pos hk, hk, Finmap.lookup_insert]
      rfl
    · rw [if_neg hk, Finmap.lookup_insert_of_ne _ hk, ← ha k]
      rfl
  have hold : stored.lookup key =
      (lookup MapEntry.key (hashKey elements.length) elements key).map MapEntry.value := (ha key).symm
  unfold mapSetEntry Stored.set
  rw [hfind, hold]
  cases hfound : lookup MapEntry.key (hashKey elements.length) elements key with
  | some entry =>
    rw [hfound] at hjoin hwrite
    have hkey : entry.key = key := ((h.lookup_eq_some entry).mp hfound).2
    obtain ⟨hlen, hwf, hin, hcount⟩ := hwrite { entry with value := value } hkey
    simp only [Except.map, hjoin, Option.map_some]
    by_cases hflag : hasFlag flags mapOverwrite
    · rw [if_pos hflag, if_pos hflag]
      exact ⟨_, rfl, hlen, hwf, hcount, rfl, rfl, hin⟩
    · rw [if_neg hflag, if_neg hflag]
      exact ⟨_, rfl, rfl, h, rfl, rfl, rfl, ha⟩
  | none =>
    rw [hfound] at hjoin hwrite
    obtain ⟨hlen, hwf, hin, hcount⟩ := hwrite { key, value } rfl
    simp only [Except.map, hjoin, Option.map_none]
    by_cases hflag : hasFlag flags mapCreateFlag
    · rw [if_pos hflag, if_pos hflag]
      exact ⟨_, rfl, hlen, hwf, hcount, rfl, rfl, hin⟩
    · rw [if_neg hflag, if_neg hflag]
      exact ⟨_, rfl, rfl, h, rfl, rfl, rfl, ha⟩

/-- Below the threshold a call of `map_set_ret` is a write to the finite map. -/
theorem mapSetRet_spec (h : map.Inv) (ha : map.Agrees stored) (hsize : map.size < 3277) (n : Nat) (key : String)
    (value : Option α) (flags : UInt32) :
    ∃ r, mapSetRet (n + 1) map key value flags = .ok r ∧ r.result = (stored.set key value flags).1 ∧
      r.oldElement = (stored.set key value flags).2.1 ∧ r.map.Inv ∧
      r.map.Agrees (stored.set key value flags).2.2 := by
  have hlength : map.elements.length = 4096 := h.length_elements
  have hcapacity := h.capacity_eq
  have hcount := h.count
  have hbelow : map.atThreshold = false := by
    unfold MapT.atThreshold
    exact decide_eq_false (by omega)
  obtain ⟨w, hw, hlen, hwf, hcreated, hresult, hold, hin⟩ :=
    mapSetEntry_spec h.wf (by omega) ha key value flags
  have hrun : mapSetRet (n + 1) map key value flags = .ok
      { result := w.resultFlags
        oldElement := w.oldElement
        map := { map with elements := w.elements, size := if w.created then map.size + 1 else map.size } } := by
    rw [mapSetRet, mapCheckRealloc, hbelow, if_neg Bool.false_ne_true]
    show (mapSetEntry map.elements map.capacity key value flags >>= _) = _
    rw [hcapacity, hw]
    rfl
  refine ⟨_, hrun, hresult, hold, ⟨hlen.trans h.length_elements, hcapacity.trans hlen.symm, ?_, ?_, ?_⟩, hin⟩
  · show WF _ (hashKey w.elements.length) w.elements
    rw [hlen]
    exact hwf
  · show (if w.created then map.size + 1 else map.size) = w.elements.reduceOption.length
    rw [hcreated, ← hcount]
    by_cases hc : w.created
    · rw [if_pos hc, if_pos hc]
    · rw [if_neg hc, if_neg hc]
      rfl
  · show (if w.created then map.size + 1 else map.size) ≤ 3277
    by_cases hc : w.created
    · rw [if_pos hc]
      omega
    · rw [if_neg hc]
      omega

/-- After any calls below the threshold, `map_get` is the lookup of the finite map. -/
theorem mapGet_spec (h : map.Inv) (ha : map.Agrees stored) (key : String) :
    mapGet map key = .ok (stored.lookup key).join := by
  obtain ⟨index, -, hfind, hjoin, -⟩ := mapFind_lookup h.wf key
  unfold mapGet
  rw [h.capacity_eq, hfind]
  refine congrArg Except.ok ?_
  show map.elements[index]?.join.bind MapEntry.value = _
  rw [hjoin, ← ha key]
  unfold storedIn
  cases lookup MapEntry.key (hashKey map.elements.length) map.elements key with
  | none => rfl
  | some entry => rfl

/-! ## Growing -/

/-- Inserting a new key into a block that is too small: the search leaves the block, or the entry takes one
of the slots that are left. -/
theorem mapSetRet_short {key : String} (value : Option α) (hshort : map.elements.length < map.capacity)
    (hbelow : 5 * map.size < 4 * map.capacity) (hnew : ∀ e, some e ∈ map.elements → e.key ≠ key) (n : Nat) :
    mapSetRet (n + 1) map key value (mapCreateFlag ||| mapOverwrite) = .error .outside ∨
      ∃ r index, mapSetRet (n + 1) map key value (mapCreateFlag ||| mapOverwrite) = .ok r ∧
        index < map.elements.length ∧
        r.map.elements = map.elements.set index (some ⟨key, value⟩) ∧
        r.map.elements.reduceOption.length = map.elements.reduceOption.length + 1 ∧
        r.map.capacity = map.capacity ∧ r.map.size = map.size + 1 := by
  have hgrow : map.atThreshold = false := by
    unfold MapT.atThreshold
    exact decide_eq_false (by omega)
  have hrun : mapSetRet (n + 1) map key value (mapCreateFlag ||| mapOverwrite) =
      (mapSetEntry map.elements map.capacity key value (mapCreateFlag ||| mapOverwrite) >>= fun r => pure
        { result := r.resultFlags
          oldElement := r.oldElement
          map := { map with elements := r.elements, size := if r.created then map.size + 1 else map.size } }) := by
    rw [mapSetRet, mapCheckRealloc, hgrow, if_neg Bool.false_ne_true]
    rfl
  have hfuel : map.elements.length < map.capacity + hashKey map.capacity key := by omega
  rcases mapProbe_short hshort (by omega) hfuel with hout | ⟨index, hfound, hempty | ⟨e, he, hkey⟩⟩
  · refine .inl ?_
    rw [hrun, mapSetEntry, mapFind, hout]
    rfl
  · have hindex : index < map.elements.length := (List.getElem?_eq_some_iff.mp hempty).1
    have hcreate : hasFlag (mapCreateFlag ||| mapOverwrite) mapCreateFlag = true := rfl
    have hentry : mapSetEntry map.elements map.capacity key value (mapCreateFlag ||| mapOverwrite) =
        .ok ⟨map.elements.set index (some ⟨key, value⟩), true, none, none, 0⟩ := by
      rw [mapSetEntry, mapFind, hfound]
      simp only [Except.map, hempty, Option.join_some, hcreate, if_true]
    have hcount := reduceOption_set_length (e := (⟨key, value⟩ : MapEntry α)) hindex
    have hnone : map.elements[index] = none := (List.getElem?_eq_some_iff.mp hempty).2
    rw [hnone] at hcount
    rw [hrun, hentry]
    exact .inr ⟨_, index, rfl, hindex, rfl, hcount, rfl, rfl⟩
  · exact absurd hkey (hnew e (List.mem_of_getElem? he))

/-- Re-inserting more entries than a block has slots leaves the block. -/
theorem mapReinsert_outside (n : Nat) {oldArray : List (Option (MapEntry α))} {map : MapT α}
    (hshort : map.elements.length < map.capacity)
    (hbelow : 5 * (map.size + oldArray.reduceOption.length) < 4 * map.capacity + 5)
    (hnodup : (oldArray.reduceOption.map MapEntry.key).Nodup)
    (hnew : ∀ e ∈ oldArray.reduceOption, ∀ x, some x ∈ map.elements → x.key ≠ e.key)
    (hmany : map.elements.length < map.elements.reduceOption.length + oldArray.reduceOption.length) :
    mapReinsert (mapSetRet (n + 1)) oldArray.length oldArray map = .error .outside := by
  induction oldArray generalizing map with
  | nil =>
    have hle : map.elements.reduceOption.length ≤ map.elements.length := List.reduceOption_length_le _
    rw [List.reduceOption_nil, List.length_nil] at hmany
    omega
  | cons slot oldArray ih =>
    cases slot with
    | none =>
      rw [List.reduceOption_cons_of_none] at hbelow hnodup hnew hmany
      exact ih hshort hbelow hnodup hnew hmany
    | some entry =>
      rw [List.reduceOption_cons_of_some] at hbelow hnodup hnew hmany
      rw [List.length_cons] at hbelow hmany
      rw [List.map_cons, List.nodup_cons] at hnodup
      obtain ⟨hentry, hlater⟩ := List.forall_mem_cons.mp hnew
      rw [List.length_cons, mapReinsert]
      rcases mapSetRet_short entry.value hshort (by omega) hentry n with
        hout | ⟨r, index, hr, hindex, helements, hcount, hcapacity, hsize⟩
      · rw [hout]
        rfl
      · have hlen : r.map.elements.length = map.elements.length := by
          rw [helements, List.length_set]
        rw [hr]
        refine ih (by omega) (by omega) hnodup.2 (fun e he x hx => ?_) (by omega)
        rw [helements] at hx
        rcases (mem_set_iff hindex).mp hx with rfl | ⟨j, -, hj⟩
        · intro hkey
          have hkey' : entry.key = e.key := hkey
          exact hnodup.1 (hkey' ▸ List.mem_map_of_mem he)
        · exact hlater e he x (List.mem_of_getElem? hj)

/-- At the threshold every call leaves the block, whatever its key and its flags. -/
theorem mapSetRet_outside (h : map.Inv) (hsize : map.size = 3277) (n : Nat) (key : String) (value : Option α)
    (flags : UInt32) : mapSetRet (n + 2) map key value flags = .error .outside := by
  have hlength : map.elements.length = 4096 := h.length_elements
  have hcapacity : map.capacity = 4096 := h.capacity_eq.trans hlength
  have hcount := h.count
  have hgrow : map.atThreshold = true := by
    unfold MapT.atThreshold
    exact decide_eq_true (by omega)
  have hlen : (List.replicate (map.capacity * 2 / 16) (none : Option (MapEntry α))).length = 512 := by
    rw [List.length_replicate, hcapacity]
  have hreinsert : mapReinsert (mapSetRet (n + 1)) map.elements.length map.elements
      { map with
        elements := List.replicate (map.capacity * 2 / 16) none
        capacity := map.capacity * 2 } = .error .outside := by
    refine mapReinsert_outside n ?_ ?_ h.wf.nodup_keys (fun e _ x hx => ?_) ?_
    · show (List.replicate (map.capacity * 2 / 16) none).length < map.capacity * 2
      omega
    · show 5 * (map.size + map.elements.reduceOption.length) < 4 * (map.capacity * 2) + 5
      omega
    · cases List.eq_of_mem_replicate hx
    · show (List.replicate (map.capacity * 2 / 16) none).length <
        (List.replicate (map.capacity * 2 / 16) none).reduceOption.length + map.elements.reduceOption.length
      omega
  rw [mapSetRet, mapCheckRealloc, if_pos hgrow, mapRealloc]
  rw [← h.capacity_eq] at hreinsert
  rw [hreinsert]
  rfl

end Blaze
