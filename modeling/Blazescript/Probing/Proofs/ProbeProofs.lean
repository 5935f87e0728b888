import Mathlib.Tactic
import Blazescript.Probing.Probe

/-!
# Proofs: linear probing

A search in a well-formed array ends, and it ends at the entry of its key exactly if there is one.
Writing an entry where the search for its key ends keeps the array well-formed, and acts on the
entries found as an update of a finite map.
-/

namespace Probing

variable {ε κ : Type} {key : ε → κ} {home : κ → Nat} {slots : List (Option ε)}

theorem next_mod {n i d : Nat} (hn : 0 < n) : next n ((i + d) % n) = (i + (d + 1)) % n := by
  have hlt := Nat.mod_lt (i + d) hn
  rw [← Nat.add_assoc, ← Nat.mod_add_mod (i + d)]
  unfold next
  split_ifs with h
  · have he : (i + d) % n + 1 = n := by omega
    rw [he, Nat.mod_self]
  · exact (Nat.mod_eq_of_lt (by omega)).symm

section Search

variable {k : κ}

/-- The search ends at `i` if the slot is empty or holds the key. -/
def Stops (key : ε → κ) (k : κ) (slots : List (Option ε)) (i : Nat) : Prop :=
  slots[i]? = some none ∨ ∃ e, slots[i]? = some (some e) ∧ key e = k

/-- The search passes `i` if the slot holds another key. -/
def Passes (key : ε → κ) (k : κ) (slots : List (Option ε)) (i : Nat) : Prop :=
  ∃ e, slots[i]? = some (some e) ∧ key e ≠ k

theorem passes_of_not_stops {i : Nat} (hi : i < slots.length) (h : ¬ Stops key k slots i) :
    Passes key k slots i := by
  unfold Stops at h
  push Not at h
  obtain ⟨h1, h2⟩ := h
  cases hs : slots[i] with
  | none => exact absurd (by simp [List.getElem?_eq_getElem hi, hs]) h1
  | some e =>
    have he : slots[i]? = some (some e) := by simp [List.getElem?_eq_getElem hi, hs]
    exact ⟨e, he, h2 e he⟩

theorem exists_stops (key : ε → κ) (hlt : home k < slots.length) (hfree : none ∈ slots) :
    ∃ d < slots.length, Stops key k slots ((home k + d) % slots.length) := by
  obtain ⟨i, hi, hs⟩ := List.mem_iff_getElem.mp hfree
  refine ⟨(i + (slots.length - home k)) % slots.length, Nat.mod_lt _ (by omega), Or.inl ?_⟩
  have h : (home k + (i + (slots.length - home k)) % slots.length) % slots.length = i := by
    rw [Nat.add_mod_mod]
    have : home k + (i + (slots.length - home k)) = i + slots.length := by omega
    rw [this, Nat.add_mod_right, Nat.mod_eq_of_lt hi]
  rw [h, List.getElem?_eq_getElem hi, hs]

variable [DecidableEq κ]

theorem probe_of_stops {i fuel : Nat} (h : Stops key k slots i) :
    probe key k slots (fuel + 1) i = some i := by
  rcases h with h | ⟨e, h, he⟩
  · simp [probe, h]
  · simp [probe, h, he]

/-- Slots that hold other keys are passed one by one. -/
theorem probe_of_passes {i d : Nat} (fuel : Nat) (hi : i < slots.length)
    (h : ∀ c < d, Passes key k slots ((i + c) % slots.length)) :
    probe key k slots (d + fuel) i = probe key k slots fuel ((i + d) % slots.length) := by
  induction d generalizing fuel with
  | zero => simp [Nat.mod_eq_of_lt hi]
  | succ d ih =>
    have hd := ih (fuel + 1) fun c hc => h c (by omega)
    obtain ⟨e, he, hk⟩ := h d (by omega)
    rw [Nat.add_right_comm d 1 fuel, Nat.add_assoc, hd]
    simp [probe, he, hk, next_mod (Nat.zero_lt_of_lt hi)]

/-- The search for any key ends, after passing slots that hold other keys. -/
theorem WF.probe_stops (h : WF key home slots) (k : κ) :
    ∃ d < slots.length, probe key k slots slots.length (home k) = some ((home k + d) % slots.length) ∧
      Stops key k slots ((home k + d) % slots.length) ∧
      ∀ c < d, Passes key k slots ((home k + c) % slots.length) := by
  classical
  have hex := exists_stops key (h.home_lt k) h.free
  have hlt := Nat.zero_lt_of_lt (h.home_lt k)
  set d := Nat.find hex with hd
  obtain ⟨hdlt, hstop⟩ := Nat.find_spec hex
  have hpass : ∀ c < d, Passes key k slots ((home k + c) % slots.length) := by
    intro c hc
    refine passes_of_not_stops (Nat.mod_lt _ hlt) fun hs => ?_
    exact Nat.find_min hex hc ⟨by omega, hs⟩
  refine ⟨d, hdlt, ?_, hstop, hpass⟩
  obtain ⟨f, hf⟩ : ∃ f, slots.length = d + (f + 1) := ⟨slots.length - d - 1, by omega⟩
  have hwalk := probe_of_passes (f + 1) (h.home_lt k) hpass
  rw [← hf] at hwalk
  rw [hwalk, probe_of_stops hstop]

/-- Where the search for a key ends: at its entry, or at an empty slot if no entry has the key. -/
theorem WF.probe_cases (h : WF key home slots) (k : κ) :
    ∃ i < slots.length, probe key k slots slots.length (home k) = some i ∧
      ((∃ e, slots[i]? = some (some e) ∧ key e = k) ∨
        (slots[i]? = some none ∧ (∀ e, some e ∈ slots → key e ≠ k) ∧
          ∃ d < slots.length, (home k + d) % slots.length = i ∧
            ∀ c < d, ∃ e, slots[(home k + c) % slots.length]? = some (some e))) := by
  obtain ⟨d, hd, hp, hs, hpass⟩ := h.probe_stops k
  refine ⟨_, Nat.mod_lt _ (Nat.zero_lt_of_lt hd), hp, ?_⟩
  rcases hs with hs | hs
  · refine Or.inr ⟨hs, ?_, d, hd, rfl, fun c hc => ?_⟩
    · intro e he hk
      obtain ⟨j, hj, hje⟩ := List.mem_iff_getElem.mp he
      obtain ⟨d', -, hd', hocc⟩ := h.reach j e (by rw [List.getElem?_eq_getElem hj, hje])
      rw [hk] at hd' hocc
      rcases Nat.lt_trichotomy d d' with hlt | rfl | hlt
      · obtain ⟨e', he'⟩ := hocc d hlt
        simp [hs] at he'
      · rw [hd', List.getElem?_eq_getElem hj, hje] at hs
        simp at hs
      · obtain ⟨e', he', hk'⟩ := hpass d' hlt
        rw [hd', List.getElem?_eq_getElem hj, hje] at he'
        simp only [Option.some.injEq] at he'
        exact hk' (he' ▸ hk)
    · obtain ⟨e, he, -⟩ := hpass c hc
      exact ⟨e, he⟩
  · exact Or.inl hs

/-- The entry found for `k` is the entry of the array that has the key `k`. -/
theorem WF.lookup_eq_some (h : WF key home slots) (e : ε) :
    lookup key home slots k = some e ↔ some e ∈ slots ∧ key e = k := by
  obtain ⟨i, hi, hp, hcase⟩ := h.probe_cases k
  rcases hcase with ⟨e', he', hk⟩ | ⟨hn, hne, -⟩
  · simp only [lookup, hp, Option.bind_some, he', Option.join_some, Option.some.injEq]
    constructor
    · rintro rfl
      exact ⟨List.mem_of_getElem? he', hk⟩
    · rintro ⟨hm, hk'⟩
      obtain ⟨j, hj⟩ := List.mem_iff_getElem?.mp hm
      have hij := h.inj i j e' e he' hj (hk.trans hk'.symm)
      subst hij
      simpa [he'] using hj
  · simp only [lookup, hp, Option.bind_some, hn, Option.join_some]
    constructor
    · intro hh; cases hh
    · rintro ⟨hm, hk'⟩; exact absurd hk' (hne e hm)

theorem WF.lookup_eq_none (h : WF key home slots) :
    lookup key home slots k = none ↔ ∀ e, some e ∈ slots → key e ≠ k := by
  rw [Option.eq_none_iff_forall_ne_some]
  refine forall_congr' fun e => ?_
  rw [Ne, h.lookup_eq_some e]
  tauto

end Search

/-- No two entries have the same key. -/
theorem WF.nodup_keys (h : WF key home slots) : (slots.reduceOption.map key).Nodup := by
  unfold List.Nodup
  rw [List.pairwise_map]
  unfold List.reduceOption
  rw [List.pairwise_filterMap, List.pairwise_iff_getElem]
  intro i j hi hj hij e he e' he' hk
  have := h.inj i j e e' (by simpa [List.getElem?_eq_getElem hi] using he)
    (by simpa [List.getElem?_eq_getElem hj] using he') hk
  omega

/-- There are as many entries as keys under which an entry is found. -/
theorem WF.card_keys [DecidableEq κ] (h : WF key home slots) {keys : Finset κ}
    (hkeys : ∀ k, k ∈ keys ↔ lookup key home slots k ≠ none) : keys.card = slots.reduceOption.length := by
  have heq : keys = (slots.reduceOption.map key).toFinset := by
    ext k
    rw [hkeys, ne_eq, h.lookup_eq_none, List.mem_toFinset, List.mem_map]
    push Not
    simp only [List.reduceOption_mem_iff]
  rw [heq, List.toFinset_card_of_nodup h.nodup_keys, List.length_map]

/-- An array without entries is well-formed. -/
theorem wf_replicate {n : Nat} (h : ∀ k, home k < n) (hn : 0 < n) :
    WF key home (List.replicate n (none : Option ε)) := by
  refine ⟨by simpa using h, ?_, ?_, by simp [hn.ne']⟩
  · intro j e hj
    simp [List.getElem?_replicate] at hj
  · intro i j e e' hi
    simp [List.getElem?_replicate] at hi

/-! ## Writing an entry -/

theorem mem_set_iff {i : Nat} {e x : ε} (hi : i < slots.length) :
    some x ∈ slots.set i (some e) ↔ x = e ∨ ∃ j ≠ i, slots[j]? = some (some x) := by
  rw [List.mem_iff_getElem?]
  constructor
  · rintro ⟨j, hj⟩
    rw [List.getElem?_set] at hj
    split_ifs at hj with h1
    · exact Or.inl (by simpa using hj.symm)
    · exact Or.inr ⟨j, fun hh => h1 hh.symm, hj⟩
  · rintro (rfl | ⟨j, hne, hj⟩)
    · exact ⟨i, by simp [hi]⟩
    · exact ⟨j, by rw [List.getElem?_set_ne hne.symm, hj]⟩

theorem reduceOption_set_length {i : Nat} {e : ε} (hi : i < slots.length) :
    (slots.set i (some e)).reduceOption.length + (if slots[i].isSome then 1 else 0) =
      slots.reduceOption.length + 1 := by
  have h1 : (slots.set i (some e)).reduceOption.Perm (some e :: slots.eraseIdx i).reduceOption :=
    (List.set_perm_cons_eraseIdx hi (some e)).filterMap _
  have h2 : (slots[i] :: slots.eraseIdx i).reduceOption.Perm slots.reduceOption :=
    (List.getElem_cons_eraseIdx_perm hi).filterMap _
  rw [h1.length_eq, ← h2.length_eq]
  cases hs : slots[i] with
  | none => simp
  | some e' => simp

/-- A slot that held an entry keeps it or gets the new one. -/
theorem set_occupied {i j : Nat} {e x : ε} (h : slots[j]? = some (some x)) :
    ∃ y, (slots.set i (some e))[j]? = some (some y) := by
  rw [List.getElem?_set]
  split_ifs with h1 h2
  · exact ⟨e, rfl⟩
  · exact absurd (List.getElem?_eq_some_iff.mp h).1 (by omega)
  · exact ⟨x, h⟩

/-- Writing an entry into the empty slot where the search for its key ends. -/
theorem WF.set_empty (h : WF key home slots) {i d : Nat} {e : ε}
    (hi : slots[i]? = some none) (hnew : ∀ x, some x ∈ slots → key x ≠ key e)
    (hd : d < slots.length) (hdi : (home (key e) + d) % slots.length = i)
    (hocc : ∀ c < d, ∃ x, slots[(home (key e) + c) % slots.length]? = some (some x))
    (hroom : slots.reduceOption.length + 1 < slots.length) :
    WF key home (slots.set i (some e)) := by
  have hlt : i < slots.length := (List.getElem?_eq_some_iff.mp hi).1
  have hnone : slots[i] = none := (List.getElem?_eq_some_iff.mp hi).2
  refine ⟨fun k => by simpa using h.home_lt k, ?_, ?_, ?_⟩
  · intro j x hj
    rw [List.length_set]
    by_cases hij : i = j
    · subst hij
      rw [List.getElem?_set_self hlt] at hj
      simp only [Option.some.injEq] at hj
      subst hj
      exact ⟨d, hd, hdi, fun c hc => by
        obtain ⟨x, hx⟩ := hocc c hc
        exact set_occupied hx⟩
    · rw [List.getElem?_set_ne hij] at hj
      obtain ⟨d', hd', he', ho'⟩ := h.reach j x hj
      exact ⟨d', hd', he', fun c hc => by
        obtain ⟨y, hy⟩ := ho' c hc
        exact set_occupied hy⟩
  · intro a b x y ha hb hk
    rw [List.getElem?_set] at ha hb
    split_ifs at ha hb with h1 h2 h3
    · exact h1.symm.trans h2
    · simp only [Option.some.injEq] at ha
      exact absurd (ha ▸ hk.symm) (hnew y (List.mem_of_getElem? hb))
    · simp only [Option.some.injEq] at hb
      exact absurd (hb ▸ hk) (hnew x (List.mem_of_getElem? ha))
    · exact h.inj a b x y ha hb hk
  · rw [← List.reduceOption_length_lt_iff, List.length_set]
    have hlen := reduceOption_set_length (e := e) hlt
    rw [hnone] at hlen
    simp only [Option.isSome_none, Bool.false_eq_true, if_false, Nat.add_zero] at hlen
    omega

/-- Replacing an entry by another one with the same key. -/
theorem WF.set_occupied (h : WF key home slots) {i : Nat} {e e' : ε}
    (hi : slots[i]? = some (some e')) (hk : key e = key e') :
    WF key home (slots.set i (some e)) := by
  have hlt : i < slots.length := (List.getElem?_eq_some_iff.mp hi).1
  have hsome : slots[i] = some e' := (List.getElem?_eq_some_iff.mp hi).2
  -- every slot keeps its key, whatever entry it holds now
  have hback : ∀ (j : Nat) (x : ε), (slots.set i (some e))[j]? = some (some x) →
      ∃ y, slots[j]? = some (some y) ∧ key y = key x := by
    intro j x hj
    rw [List.getElem?_set] at hj
    split_ifs at hj with h1
    · simp only [Option.some.injEq] at hj
      exact ⟨e', h1 ▸ hi, by rw [← hj, hk]⟩
    · exact ⟨x, hj, rfl⟩
  refine ⟨fun k => by simpa using h.home_lt k, ?_, ?_, ?_⟩
  · intro j x hj
    obtain ⟨y, hy, hyx⟩ := hback j x hj
    obtain ⟨d, hd, hdj, hocc⟩ := h.reach j y hy
    rw [List.length_set, ← hyx]
    exact ⟨d, hd, hdj, fun c hc => by
      obtain ⟨z, hz⟩ := hocc c hc
      exact Probing.set_occupied hz⟩
  · intro a b x y ha hb hxy
    obtain ⟨x', hx', hxk⟩ := hback a x ha
    obtain ⟨y', hy', hyk⟩ := hback b y hb
    exact h.inj a b x' y' hx' hy' (by rw [hxk, hyk, hxy])
  · have hfree := h.free
    rw [← List.reduceOption_length_lt_iff] at hfree ⊢
    have hlen := reduceOption_set_length (e := e) hlt
    rw [hsome] at hlen
    simp only [Option.isSome_some, if_true, Nat.add_right_cancel_iff] at hlen
    rw [List.length_set, hlen]
    exact hfree

section Put

variable [DecidableEq κ] {e : ε}

/-- What writing `e` does: `e` is found under its key, every other key is found as before. -/
theorem lookup_set (h : WF key home slots) {i : Nat} (h' : WF key home (slots.set i (some e)))
    (hi : i < slots.length) (hold : ∀ x, slots[i]? = some (some x) → key x = key e)
    (hnew : ∀ (j : Nat) (x : ε), slots[j]? = some (some x) → key x = key e → j = i) (k : κ) :
    lookup key home (slots.set i (some e)) k =
      if k = key e then some e else lookup key home slots k := by
  split_ifs with hk
  · exact (h'.lookup_eq_some e).mpr ⟨(mem_set_iff hi).mpr (Or.inl rfl), hk.symm⟩
  · refine Option.ext fun x => ?_
    rw [h'.lookup_eq_some, h.lookup_eq_some, mem_set_iff hi]
    constructor
    · rintro ⟨rfl | ⟨j, -, hj⟩, hx⟩
      · exact absurd hx.symm hk
      · exact ⟨List.mem_of_getElem? hj, hx⟩
    · rintro ⟨hm, hx⟩
      obtain ⟨j, hj⟩ := List.mem_iff_getElem?.mp hm
      refine ⟨Or.inr ⟨j, fun hij => ?_, hj⟩, hx⟩
      subst hij
      exact hk (hx.symm.trans (hold x hj))

/-- Writing an entry keeps the array well-formed and updates the map it stands for; the number of
entries grows by one if the key is new. -/
theorem WF.put (h : WF key home slots) (e : ε)
    (hroom : slots.reduceOption.length + 1 < slots.length) :
    ∃ slots', Probing.put key home slots e = some slots' ∧ WF key home slots' ∧
      slots'.length = slots.length ∧
      (∀ k, lookup key home slots' k = if k = key e then some e else lookup key home slots k) ∧
      slots'.reduceOption.length = slots.reduceOption.length +
        if (lookup key home slots (key e)).isSome then 0 else 1 := by
  obtain ⟨i, hi, hp, hcase⟩ := h.probe_cases (key e)
  refine ⟨slots.set i (some e), by simp [Probing.put, hp], ?_⟩
  have hlen := reduceOption_set_length (e := e) hi
  rcases hcase with ⟨e', he', hk⟩ | ⟨hn, hne, d, hd, hdi, hocc⟩
  · have hwf := h.set_occupied he' hk.symm
    have hl : lookup key home slots (key e) = some e' :=
      (h.lookup_eq_some e').mpr ⟨List.mem_of_getElem? he', hk⟩
    refine ⟨hwf, by simp, lookup_set h hwf hi ?_ ?_, ?_⟩
    · intro x hx
      rw [he'] at hx
      simp only [Option.some.injEq] at hx
      exact hx ▸ hk
    · intro j x hj hx
      exact h.inj j i x e' hj he' (hx.trans hk.symm)
    · rw [(List.getElem?_eq_some_iff.mp he').2] at hlen
      simpa [hl] using hlen
  · have hwf := h.set_empty hn hne hd hdi hocc hroom
    have hl : lookup key home slots (key e) = none := h.lookup_eq_none.mpr hne
    refine ⟨hwf, by simp, lookup_set h hwf hi ?_ ?_, ?_⟩
    · intro x hx
      simp [hn] at hx
    · intro j x hj hx
      exact absurd hx (hne x (List.mem_of_getElem? hj))
    · rw [(List.getElem?_eq_some_iff.mp hn).2] at hlen
      simpa [hl] using hlen

end Put

end Probing
