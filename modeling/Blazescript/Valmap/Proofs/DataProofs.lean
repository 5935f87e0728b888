import Blazescript.Probing.Proofs.ProbeProofs
import Blazescript.Valmap.FiniteMap

/-!
# Proofs: the hash map is a finite map

The invariant of a hash map, kept by every writing function, and the refinement of the finite map
of its bindings. A write is described once, by what it does to the binding of its key
(`writeBinding`); every function and every growth step is then a case of it.
-/

namespace Blaze

open Probing

variable {α : Type}

/-- The index `hash_key` computes is a slot, whatever the capacity. -/
theorem hashKey_lt {capacity : Nat} (h : 0 < capacity) (key : String) :
    hashKey capacity key < capacity := by
  have hle : hashKey capacity key ≤ capacity - 1 := Nat.and_le_right
  omega

/-- The invariant of a hash map: the probe chains are intact, `elements` counts the occupied slots,
and there are at least as many slots as at the start. -/
structure ValmapData.Inv (valmap : ValmapData α) : Prop where
  wf : WF ValmapEntry.key (hashKey valmap.array.length) valmap.array
  count : valmap.elements = valmap.array.reduceOption.length
  size : valmapDefaultSize ≤ valmap.array.length

/-- The binding of a key in an array of entries. -/
def bindingIn (array : List (Option (ValmapEntry α))) (key : String) : Option (α × Bool) :=
  (lookup ValmapEntry.key (hashKey array.length) array key).map fun e => (e.value, e.isConst)

/-- What the map binds a key to: the value and the constant flag. -/
def ValmapData.binding (valmap : ValmapData α) (key : String) : Option (α × Bool) :=
  bindingIn valmap.array key

/-- What a write reports, and what it leaves its key bound to, given the binding found. -/
def writeBinding (value : α) (isConst : Bool) (overwrite : OverwriteMode) (report : Bool) :
    Option (α × Bool) → ValmapSetStatus × Option (α × Bool)
  | some (old, wasConst) =>
    if overwrite = .noOverwrite ∧ report then (.setExists, some (old, wasConst))
    else if wasConst ∧ report then (.setIsConst, some (old, wasConst))
    else (.setOk, some (value, wasConst))
  | none =>
    if overwrite = .noCreate ∧ report then (.setNotFound, none)
    else (.setOk, some (value, isConst))

section Entry

variable {array : List (Option (ValmapEntry α))}

theorem probeKey_lookup (h : WF ValmapEntry.key (hashKey array.length) array) (key : String) :
    ∃ index < array.length, probeKey array key = some index ∧
      array[index]?.join = lookup ValmapEntry.key (hashKey array.length) array key := by
  obtain ⟨index, hi, hp, -⟩ := h.probe_cases key
  exact ⟨index, hi, hp, by simp [lookup, hp]⟩

/-- `valmap_set_entry` ends, keeps the probe chains intact, and does to the binding of its key what
`writeBinding` says; the other bindings stay. -/
theorem valmapSetEntry_spec (key : String) (value : α) (isConst attemptFree : Bool)
    (overwrite : OverwriteMode) (report : Bool)
    (h : WF ValmapEntry.key (hashKey array.length) array)
    (hroom : array.reduceOption.length + 1 < array.length) :
    ∃ r, valmapSetEntry array key value isConst attemptFree overwrite report = some r ∧
      r.array.length = array.length ∧ WF ValmapEntry.key (hashKey array.length) r.array ∧
      r.status = (writeBinding value isConst overwrite report (bindingIn array key)).1 ∧
      (∀ k, bindingIn r.array k = if k = key
        then (writeBinding value isConst overwrite report (bindingIn array key)).2
        else bindingIn array k) ∧
      r.created = ((bindingIn array key).isNone &&
        (writeBinding value isConst overwrite report (bindingIn array key)).2.isSome) ∧
      r.array.reduceOption.length = array.reduceOption.length + if r.created then 1 else 0 := by
  obtain ⟨index, hi, hp, hl⟩ := probeKey_lookup h key
  have hput : ∀ e : ValmapEntry α, e.key = key →
      ∃ array', array.set index (some e) = array' ∧ array'.length = array.length ∧
        WF ValmapEntry.key (hashKey array.length) array' ∧
        (∀ k, bindingIn array' k = if k = key then some (e.value, e.isConst) else bindingIn array k) ∧
        array'.reduceOption.length = array.reduceOption.length +
          if (lookup ValmapEntry.key (hashKey array.length) array key).isSome then 0 else 1 := by
    intro e he
    subst he
    obtain ⟨array', hset, hwf, hlen, hlook, hcount⟩ := h.put e hroom
    have hset' : array.set index (some e) = array' := by
      have hp' : probe ValmapEntry.key e.key array array.length (hashKey array.length e.key) =
        some index := hp
      simpa [put, hp'] using hset
    refine ⟨array', hset', hlen, hwf, fun k => ?_, hcount⟩
    simp only [bindingIn, hlen, hlook k]
    split_ifs <;> rfl
  have hsame : ∀ k, bindingIn array k = if k = key then bindingIn array key else bindingIn array k := by
    intro k
    split_ifs with hk
    · rw [hk]
    · rfl
  cases hcase : lookup ValmapEntry.key (hashKey array.length) array key with
  | some entry =>
    have hb : bindingIn array key = some (entry.value, entry.isConst) := by simp [bindingIn, hcase]
    have hkey : entry.key = key := ((h.lookup_eq_some entry).mp hcase).2
    simp only [valmapSetEntry, hp, Option.map_some, hl, hcase, hb, writeBinding]
    split_ifs with h1 h2 h3
    · exact ⟨_, rfl, rfl, h, rfl, fun k => by simpa [hb] using hsame k, by simp, by simp⟩
    · exact ⟨_, rfl, rfl, h, rfl, fun k => by simpa [hb] using hsame k, by simp, by simp⟩
    · obtain ⟨array', hset, hlen, hwf, hbind, hcount⟩ := hput { entry with value := value } hkey
      exact ⟨_, rfl, by simp, hset ▸ hwf, rfl, fun k => by rw [hset]; exact hbind k, by simp,
        by simpa [hset, hcase] using hcount⟩
    · obtain ⟨array', hset, hlen, hwf, hbind, hcount⟩ := hput { entry with value := value } hkey
      exact ⟨_, rfl, by simp, hset ▸ hwf, rfl, fun k => by rw [hset]; exact hbind k, by simp,
        by simpa [hset, hcase] using hcount⟩
  | none =>
    have hb : bindingIn array key = none := by simp [bindingIn, hcase]
    simp only [valmapSetEntry, hp, Option.map_some, hl, hcase, hb, writeBinding]
    split_ifs with h1
    · exact ⟨_, rfl, rfl, h, rfl, fun k => by simpa [hb] using hsame k, by simp, by simp⟩
    · obtain ⟨array', hset, hlen, hwf, hbind, hcount⟩ := hput { key, value, isConst } rfl
      exact ⟨_, rfl, by simp, hset ▸ hwf, rfl, fun k => by rw [hset]; exact hbind k, by simp,
        by simpa [hset, hcase] using hcount⟩

end Entry

/-! ## Growth -/

theorem bindingIn_eq_none {array : List (Option (ValmapEntry α))} {key : String}
    (h : WF ValmapEntry.key (hashKey array.length) array) :
    bindingIn array key = none ↔ ∀ e ∈ array.reduceOption, e.key ≠ key := by
  simp only [bindingIn, Option.map_eq_none_iff, h.lookup_eq_none, List.reduceOption_mem_iff]

theorem bindingIn_of_mem {array : List (Option (ValmapEntry α))} {e : ValmapEntry α}
    (h : WF ValmapEntry.key (hashKey array.length) array) (he : e ∈ array.reduceOption) :
    bindingIn array e.key = some (e.value, e.isConst) := by
  have hl := (h.lookup_eq_some e).mpr ⟨List.reduceOption_mem_iff.mp he, rfl⟩
  simp [bindingIn, hl]

/-- Re-inserting entries with distinct new keys, one by one, adds exactly their bindings. -/
theorem reinsert_all (slots : List (Option (ValmapEntry α))) :
    ∀ array : List (Option (ValmapEntry α)),
      WF ValmapEntry.key (hashKey array.length) array →
      array.reduceOption.length + slots.reduceOption.length < array.length →
      (slots.reduceOption.map ValmapEntry.key).Nodup →
      (∀ e ∈ slots.reduceOption, bindingIn array e.key = none) →
      ∃ array', slots.foldlM reinsertEntry array = some array' ∧ array'.length = array.length ∧
        WF ValmapEntry.key (hashKey array.length) array' ∧
        (∀ e ∈ slots.reduceOption, bindingIn array' e.key = some (e.value, e.isConst)) ∧
        (∀ k, (∀ e ∈ slots.reduceOption, e.key ≠ k) → bindingIn array' k = bindingIn array k) ∧
        array'.reduceOption.length = array.reduceOption.length + slots.reduceOption.length := by
  induction slots with
  | nil => intro array hwf _ _ _; exact ⟨array, rfl, rfl, hwf, by simp, by simp, by simp⟩
  | cons slot slots ih =>
    intro array hwf hroom hnd hnew
    cases slot with
    | none =>
      simp only [List.reduceOption_cons_of_none] at hroom hnd hnew ⊢
      exact ih array hwf hroom hnd hnew
    | some e =>
      simp only [List.reduceOption_cons_of_some, List.length_cons, List.map_cons,
        List.nodup_cons] at hroom hnd hnew ⊢
      obtain ⟨r, hr, hlen, hwf', -, hbind, hcreated, hcount⟩ :=
        valmapSetEntry_spec e.key e.value e.isConst false .noCreate false hwf (by omega)
      have hnone := hnew e (List.mem_cons_self ..)
      have hne : ∀ x ∈ slots.reduceOption, x.key ≠ e.key := fun x hx hk =>
        hnd.1 (hk ▸ List.mem_map_of_mem hx)
      obtain ⟨array', hf, hlen', hwf'', hin, hout, hcount'⟩ :=
        ih r.array (hlen ▸ hwf') (by split_ifs at hcount <;> omega) hnd.2 (fun x hx => by
          rw [hbind, if_neg (hne x hx)]
          exact hnew x (List.mem_cons_of_mem _ hx))
      have hval : bindingIn r.array e.key = some (e.value, e.isConst) := by
        rw [hbind, if_pos rfl, hnone]
        rfl
      have hstep : reinsertEntry array (some e) = some r.array := by simp [reinsertEntry, hr]
      refine ⟨array', by simp [List.foldlM_cons, hstep, hf], hlen'.trans hlen, hlen ▸ hwf'',
        ?_, ?_, ?_⟩
      · intro x hx
        rcases List.mem_cons.mp hx with rfl | hx
        · rw [hout _ hne, hval]
        · exact hin x hx
      · intro k hk
        rw [hout k fun x hx => hk x (List.mem_cons_of_mem _ hx), hbind,
          if_neg (hk e (List.mem_cons_self ..)).symm]
      · have hone : r.created = true := by rw [hcreated, hnone]; rfl
        rw [hone] at hcount
        simp only [if_true] at hcount
        omega

/-- `valmap_realloc` to a capacity above the number of entries succeeds and keeps every binding. -/
theorem valmapRealloc_spec {valmap : ValmapData α} (h : valmap.Inv) {newCapacity : Nat}
    (hroom : valmap.elements < newCapacity) :
    ∃ valmap', valmapRealloc valmap newCapacity = some valmap' ∧
      WF ValmapEntry.key (hashKey valmap'.array.length) valmap'.array ∧
      (valmapDefaultSize ≤ newCapacity → valmap'.Inv) ∧
      valmap'.capacity = newCapacity ∧ valmap'.elements = valmap.elements ∧
      valmap'.generation = valmap.generation + 1 ∧
      ∀ k, valmap'.binding k = valmap.binding k := by
  have hpos : 0 < newCapacity := lt_of_le_of_lt (Nat.zero_le _) hroom
  set empty : List (Option (ValmapEntry α)) := List.replicate newCapacity none with hdef
  have hlen0 : empty.length = newCapacity := by simp [hdef]
  have hempty : WF ValmapEntry.key (hashKey empty.length) empty := by
    rw [hlen0]
    exact wf_replicate (hashKey_lt hpos) hpos
  have hred : empty.reduceOption = [] := by simp [hdef]
  obtain ⟨array', hf, hlen, hwf, hin, hout, hcount⟩ := reinsert_all valmap.array empty hempty
    (by rw [hred, hlen0, ← h.count]; simpa using hroom) h.wf.nodup_keys
    (fun e _ => (bindingIn_eq_none hempty).mpr (by simp [hred]))
  rw [hlen0] at hlen hwf
  rw [hred] at hcount
  refine ⟨{ valmap with array := array', generation := valmap.generation + 1 },
    by simp [valmapRealloc, ← hdef, hf], hlen.symm ▸ hwf, fun hcap => ⟨hlen.symm ▸ hwf, ?_, ?_⟩,
    hlen, rfl, rfl, fun k => ?_⟩
  · simpa [h.count] using hcount.symm
  · exact hlen.symm ▸ hcap
  · by_cases hk : ∀ e ∈ valmap.array.reduceOption, e.key ≠ k
    · have hold := (bindingIn_eq_none h.wf).mpr hk
      have hnone : bindingIn empty k = none := (bindingIn_eq_none hempty).mpr (by simp [hred])
      exact ((hout k hk).trans hnone).trans hold.symm
    · push Not at hk
      obtain ⟨e, he, rfl⟩ := hk
      exact (hin e he).trans (bindingIn_of_mem h.wf he).symm

/-- The growth check leaves room for one more entry. -/
theorem valmapCheckRealloc_spec {valmap : ValmapData α} (h : valmap.Inv) :
    ∃ valmap', valmapCheckRealloc valmap = some valmap' ∧ valmap'.Inv ∧
      valmap'.elements = valmap.elements ∧ valmap'.elements + 1 < valmap'.array.length ∧
      valmap'.generation = valmap.generation + (if valmap.atThreshold then 1 else 0) ∧
      ∀ k, valmap'.binding k = valmap.binding k := by
  have hsize : 20 ≤ valmap.array.length := h.size
  have hlt : valmap.elements < valmap.array.length := by
    rw [h.count]
    exact List.reduceOption_length_lt_iff.mpr h.wf.free
  unfold valmapCheckRealloc
  split_ifs with hth
  · have hcap : 20 ≤ valmap.capacity * 2 ∧ valmap.elements < valmap.capacity * 2 := by
      simp only [ValmapData.capacity]
      omega
    obtain ⟨valmap', hr, -, hinv, hcap', hel, hgen, hb⟩ := valmapRealloc_spec h hcap.2
    refine ⟨valmap', hr, hinv hcap.1, hel, ?_, by rw [hgen], hb⟩
    simp only [ValmapData.capacity] at hcap'
    omega
  · have hth' : ¬ 5 * valmap.elements ≥ 4 * valmap.array.length := by
      simpa [ValmapData.atThreshold, ValmapData.capacity] using hth
    exact ⟨valmap, rfl, h, rfl, by omega, rfl, fun _ => rfl⟩

/-! ## The writing functions -/

/-- A writing function ends, keeps the invariant, and does to the bindings what `writeBinding` says.
The array is replaced exactly if the map was at its threshold. -/
theorem valmapSetMode_spec {valmap : ValmapData α} (h : valmap.Inv) (key : String) (value : α)
    (isConst attemptFree : Bool) (overwrite : OverwriteMode) (report : Bool) :
    ∃ r, valmapSetMode valmap key value isConst attemptFree overwrite report = some r ∧
      r.valmap.Inv ∧
      r.status = (writeBinding value isConst overwrite report (valmap.binding key)).1 ∧
      (∀ k, r.valmap.binding k = if k = key
        then (writeBinding value isConst overwrite report (valmap.binding key)).2
        else valmap.binding k) ∧
      r.valmap.generation = valmap.generation + (if valmap.atThreshold then 1 else 0) := by
  obtain ⟨grown, hg, hinv, hel, hroom, hgen, hbind⟩ := valmapCheckRealloc_spec h
  obtain ⟨r, hr, hlen, hwf, hstatus, hb, -, hcount⟩ :=
    valmapSetEntry_spec key value isConst attemptFree overwrite report hinv.wf
      (by rw [← hinv.count]; exact hroom)
  have hold : ∀ k, bindingIn grown.array k = valmap.binding k := hbind
  refine ⟨{ status := r.status
            valmap :=
              { grown with
                array := r.array
                elements := if r.created then grown.elements + 1 else grown.elements }
            released := r.released },
    by simp [valmapSetMode, hg, hr], ⟨?_, ?_, ?_⟩, ?_, fun k => ?_, hgen⟩
  · simpa only [hlen] using hwf
  · have hc := hinv.count
    show (if r.created then grown.elements + 1 else grown.elements) = r.array.reduceOption.length
    rw [hcount]
    split_ifs <;> omega
  · simpa only [hlen] using hinv.size
  · rw [hstatus, hold]
  · show bindingIn r.array k = _
    rw [hb, hold, hold]

end Blaze
