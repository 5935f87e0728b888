import Blazescript.Map.Proofs.MapProofs

/-!
# Proofs: the generic map is a finite map until it grows

A run of calls goes on as the finite map does, up to the first call that meets 3277 keys. That call grows
the map and leaves its block.
-/

namespace Blaze

namespace MapCall

variable {α : Type} {map : MapT α} {stored : Stored α} {calls : List (MapCall α)}

/-- No call meets as many keys as make the map grow. -/
def Below (stored : Stored α) (calls : List (MapCall α)) : Prop :=
  ∀ before call, before ++ [call] <+: calls → (applyAll stored before).2.keys.card < 3277

theorem below_cons {call : MapCall α} :
    Below stored (call :: calls) ↔ stored.keys.card < 3277 ∧ Below (call.apply stored).2 calls := by
  constructor
  · intro h
    refine ⟨h [] call (List.prefix_append [call] calls), fun before later hlater => ?_⟩
    exact h (call :: before) later (List.cons_prefix_cons.mpr ⟨rfl, hlater⟩)
  · rintro ⟨hcard, h⟩ before later hlater
    cases before with
    | nil => exact hcard
    | cons first before =>
      obtain ⟨rfl, hrest⟩ := List.cons_prefix_cons.mp hlater
      exact h before later hrest

/-! ## One call -/

theorem run_spec (h : map.Inv) (ha : map.Agrees stored) (hsize : map.size < 3277) (n : Nat) (call : MapCall α) :
    ∃ r, call.run (n + 2) map = .ok r ∧ (r.result, r.oldElement) = (call.apply stored).1 ∧ r.map.Inv ∧
      r.map.Agrees (call.apply stored).2 := by
  cases call with
  | set key value flags =>
    obtain ⟨r, hr, hresult, -, hinv, hagrees⟩ := mapSetRet_spec h ha hsize (n + 1) key value flags
    refine ⟨{ r with oldElement := none }, ?_, congrArg (·, none) hresult, hinv, hagrees⟩
    show (mapSetRet (n + 2) map key value flags).map _ = _
    rw [hr]
    rfl
  | setRet key value flags =>
    obtain ⟨r, hr, hresult, hold, hinv, hagrees⟩ := mapSetRet_spec h ha hsize (n + 1) key value flags
    exact ⟨r, hr, Prod.ext hresult hold, hinv, hagrees⟩

theorem run_outside (h : map.Inv) (hsize : map.size = 3277) (n : Nat) (call : MapCall α) :
    call.run (n + 2) map = .error .outside := by
  cases call with
  | set key value flags =>
    show (mapSetRet (n + 2) map key value flags).map _ = _
    rw [mapSetRet_outside h hsize]
    rfl
  | setRet key value flags => exact mapSetRet_outside h hsize n key value flags

/-! ## Runs -/

theorem runAll_spec (h : map.Inv) (ha : map.Agrees stored) (n : Nat) (hbelow : Below stored calls) :
    ∃ results map', runAll (n + 2) map calls = .ok (results, map') ∧ results = (applyAll stored calls).1 ∧
      map'.Inv ∧ map'.Agrees (applyAll stored calls).2 := by
  induction calls generalizing map stored with
  | nil => exact ⟨[], map, rfl, rfl, h, ha⟩
  | cons call calls ih =>
    obtain ⟨hcard, hlater⟩ := below_cons.mp hbelow
    have hsize : map.size < 3277 := (h.card ha).trans_lt hcard
    obtain ⟨r, hr, hresult, hinv, hagrees⟩ := run_spec h ha hsize n call
    obtain ⟨results, map', hrest, hresults, hinv', hagrees'⟩ := ih hinv hagrees hlater
    refine ⟨(r.result, r.oldElement) :: results, map', ?_, ?_, hinv', hagrees'⟩
    · show (call.run (n + 2) map >>= fun r => _) = _
      rw [hr]
      show (runAll (n + 2) r.map calls >>= fun rs => _) = _
      rw [hrest]
      rfl
    · rw [hresult, hresults]
      rfl

theorem runAll_outside (h : map.Inv) (ha : map.Agrees stored) (n : Nat) (hbelow : ¬ Below stored calls) :
    runAll (n + 2) map calls = .error .outside := by
  induction calls generalizing map stored with
  | nil =>
    refine absurd (fun before call hcalls => ?_) hbelow
    exact absurd (List.prefix_nil.mp hcalls) (List.append_ne_nil_of_right_ne_nil _ (List.cons_ne_nil _ _))
  | cons call calls ih =>
    by_cases hcard : stored.keys.card < 3277
    · have hsize : map.size < 3277 := (h.card ha).trans_lt hcard
      obtain ⟨r, hr, -, hinv, hagrees⟩ := run_spec h ha hsize n call
      have hlater : ¬ Below (call.apply stored).2 calls := fun hl => hbelow (below_cons.mpr ⟨hcard, hl⟩)
      show (call.run (n + 2) map >>= fun r => _) = _
      rw [hr]
      show (runAll (n + 2) r.map calls >>= fun rs => _) = _
      rw [ih hinv hagrees hlater]
      rfl
    · have hsize : map.size = 3277 := by
        have hle := h.size_le
        have heq := h.card ha
        omega
      show (call.run (n + 2) map >>= fun r => _) = _
      rw [run_outside h hsize]
      rfl

theorem below_beginning {before : List (MapCall α)} (h : Below stored calls) (hbefore : before <+: calls) :
    Below stored before :=
  fun first call hfirst => h first call (hfirst.trans hbefore)

theorem asFiniteMap_of_below (n : Nat) (h : Below (∅ : Stored α) calls) : AsFiniteMap (n + 2) calls := by
  obtain ⟨results, map, hrun, hresults, hinv, hagrees⟩ := runAll_spec inv_mapCreate agrees_mapCreate n h
  exact ⟨results, map, hrun, hresults, mapGet_spec hinv hagrees, hinv.card hagrees⟩

theorem not_asFiniteMap (n : Nat) (h : ¬ Below (∅ : Stored α) calls) : ¬ AsFiniteMap (n + 2) calls := by
  rintro ⟨results, map, hrun, -⟩
  cases (runAll_outside inv_mapCreate agrees_mapCreate n h).symm.trans hrun

/-- The calls behave as those of a finite map, at every moment, if and only if no call is made while 3277
keys or more are stored. -/
theorem generic_map_finite (n : Nat) (calls : List (MapCall α)) :
    (∀ before, before <+: calls → AsFiniteMap (n + 2) before) ↔
      ∀ before call, before ++ [call] <+: calls →
        ((applyAll ∅ before).2 : Stored α).keys.card < 3277 := by
  constructor
  · intro h
    by_contra hbelow
    exact not_asFiniteMap n hbelow (h calls (List.prefix_refl calls))
  · intro h before hbefore
    exact asFiniteMap_of_below n (below_beginning h hbefore)

/-! ## Many keys -/

/-- A name of some length. -/
def nameOfLength (k : Nat) : String := String.ofList (List.replicate k 'a')

/-- A call for each of some lengths, which stores a name of this length. -/
def createAll (ks : List Nat) : List (MapCall Unit) :=
  ks.map fun k => .set (nameOfLength k) none mapCreateFlag

theorem nameOfLength_injective {j k : Nat} (h : nameOfLength j = nameOfLength k) : j = k := by
  have hlength := congrArg (fun name => name.toList.length) h
  simpa [nameOfLength] using hlength

theorem card_createAll {ks : List Nat} {stored : Stored Unit} (hnodup : ks.Nodup)
    (hnew : ∀ k ∈ ks, nameOfLength k ∉ stored) :
    (applyAll stored (createAll ks)).2.keys.card = stored.keys.card + ks.length := by
  induction ks generalizing stored with
  | nil => rfl
  | cons k ks ih =>
    obtain ⟨hk, hlater⟩ := List.forall_mem_cons.mp hnew
    obtain ⟨hnotin, hnodup⟩ := List.nodup_cons.mp hnodup
    have hlookup : stored.lookup (nameOfLength k) = none := Finmap.lookup_eq_none.mpr hk
    have hset : (MapCall.apply stored (.set (nameOfLength k) none mapCreateFlag)).2 =
        stored.insert (nameOfLength k) none := by
      have hflag : hasFlag mapCreateFlag mapCreateFlag = true := rfl
      unfold MapCall.apply Stored.set
      simp only [hlookup, hflag, if_true]
    have hcard : (stored.insert (nameOfLength k) (none : Option Unit)).keys.card = stored.keys.card + 1 := by
      have hkeys : (stored.insert (nameOfLength k) (none : Option Unit)).keys = insert (nameOfLength k) stored.keys := by
        ext key
        rw [Finmap.mem_keys, Finmap.mem_insert, Finset.mem_insert, Finmap.mem_keys]
      rw [hkeys]
      exact Finset.card_insert_of_notMem fun hmem => hk (Finmap.mem_keys.mp hmem)
    show (applyAll (MapCall.apply stored (.set (nameOfLength k) none mapCreateFlag)).2 (createAll ks)).2.keys.card = _
    rw [hset, ih hnodup, hcard, List.length_cons, Nat.add_assoc, Nat.add_comm 1]
    intro j hj hmem
    rcases Finmap.mem_insert.mp hmem with heq | hmem
    · exact hnotin (nameOfLength_injective heq ▸ hj)
    · exact hlater j hj hmem

/-- The call that comes when 3277 keys are stored leaves the block. -/
theorem generic_map_grows :
    runAll 2 (mapCreate : MapT Unit) (createAll (List.range 3278)) = .error .outside ∧
      ¬ ∀ before, before <+: createAll (List.range 3278) → AsFiniteMap 2 before := by
  have hbelow : ¬ Below (∅ : Stored Unit) (createAll (List.range 3278)) := by
    intro h
    have hall : createAll (List.range 3278) =
        createAll (List.range 3277) ++ [.set (nameOfLength 3277) none mapCreateFlag] := by
      unfold createAll
      rw [List.range_succ, List.map_append]
      rfl
    have hcard := h (createAll (List.range 3277)) (.set (nameOfLength 3277) none mapCreateFlag) (by rw [hall])
    rw [card_createAll List.nodup_range fun k _ => Finmap.notMem_empty, List.length_range] at hcard
    omega
  exact ⟨runAll_outside inv_mapCreate agrees_mapCreate 0 hbelow, fun h =>
    not_asFiniteMap 0 hbelow (h _ (List.prefix_refl _))⟩

end MapCall

end Blaze
