import Blazescript.Arena.FreeList

/-!
# Proofs: slots that are handed out by number

No slot in use is handed out, in whichever order slots come back.
-/

namespace Arena

namespace FreeList

variable {l : FreeList} {used used' : List Nat} {index : Nat}

theorem tracks_empty : Tracks empty [] where
  headNodup := List.nodup_nil
  usedNodup := List.nodup_nil
  within := fun _ h => nomatch h
  free := fun index => by simp [empty]

theorem Tracks.perm (h : Tracks l used) (hperm : used.Perm used') : Tracks l used' where
  headNodup := h.headNodup
  usedNodup := hperm.nodup_iff.mp h.usedNodup
  within := fun index hi => h.within index (hperm.mem_iff.mpr hi)
  free := fun index => by rw [h.free, hperm.mem_iff]

/-- The slot that is handed out is not in use. -/
theorem Tracks.alloc_fresh (h : Tracks l used) : l.alloc.1 ∉ used ∧ l.alloc.1 < l.alloc.2.size := by
  obtain ⟨size, head⟩ := l
  cases head with
  | nil => exact ⟨fun hi => absurd (h.within _ hi) (Nat.lt_irrefl size), Nat.lt_succ_self size⟩
  | cons index next =>
    obtain ⟨hlt, hfree⟩ := (h.free index).mp List.mem_cons_self
    exact ⟨hfree, hlt⟩

theorem Tracks.alloc (h : Tracks l used) : Tracks l.alloc.2 (l.alloc.1 :: used) := by
  obtain ⟨hfresh, hlt⟩ := h.alloc_fresh
  obtain ⟨size, head⟩ := l
  cases head with
  | nil =>
    refine ⟨List.nodup_nil, List.nodup_cons.mpr ⟨hfresh, h.usedNodup⟩, ?_, fun index => ?_⟩
    · intro index hi
      rcases List.mem_cons.mp hi with rfl | hi
      · exact hlt
      · exact Nat.lt_succ_of_lt (h.within index hi)
    · have hfree : index ∈ ([] : List Nat) ↔ index < size ∧ index ∉ used := h.free index
      constructor
      · intro hi
        cases hi
      · rintro ⟨hlt, hi⟩
        obtain ⟨hne, hi⟩ := not_or.mp (mt List.mem_cons.mpr hi)
        have hlt : index < size + 1 := hlt
        have hne : index ≠ size := hne
        exact hfree.mpr ⟨by omega, hi⟩
  | cons first next =>
    obtain ⟨hfirst, hnext⟩ := List.nodup_cons.mp h.headNodup
    refine ⟨hnext, List.nodup_cons.mpr ⟨hfresh, h.usedNodup⟩, ?_, fun index => ?_⟩
    · intro index hi
      rcases List.mem_cons.mp hi with rfl | hi
      · exact hlt
      · exact h.within index hi
    · have hfree : index ∈ first :: next ↔ index < size ∧ index ∉ used := h.free index
      constructor
      · intro hi
        have hi : index ∈ next := hi
        obtain ⟨hlt, hused⟩ := hfree.mp (List.mem_cons_of_mem _ hi)
        refine ⟨hlt, fun hmem => ?_⟩
        rcases List.mem_cons.mp hmem with rfl | hmem
        · exact hfirst hi
        · exact hused hmem
      · rintro ⟨hlt, hi⟩
        obtain ⟨hne, hi⟩ := not_or.mp (mt List.mem_cons.mpr hi)
        exact List.mem_of_ne_of_mem hne (hfree.mpr ⟨hlt, hi⟩)

/-- A slot in use comes back. -/
theorem Tracks.release (h : Tracks l (index :: used)) : Tracks (l.free index) used := by
  obtain ⟨hindex, hused⟩ := List.nodup_cons.mp h.usedNodup
  have hhead : index ∉ l.head := fun hi => ((h.free index).mp hi).2 List.mem_cons_self
  refine ⟨List.nodup_cons.mpr ⟨hhead, h.headNodup⟩, hused, fun i hi => h.within i (List.mem_cons_of_mem _ hi), fun i => ?_⟩
  constructor
  · intro hi
    rcases List.mem_cons.mp hi with rfl | hi
    · exact ⟨h.within i List.mem_cons_self, hindex⟩
    · obtain ⟨hlt, hi⟩ := (h.free i).mp hi
      exact ⟨hlt, fun hmem => hi (List.mem_cons_of_mem _ hmem)⟩
  · rintro ⟨hlt, hi⟩
    by_cases heq : i = index
    · exact List.mem_cons.mpr (.inl heq)
    · refine List.mem_cons_of_mem _ ((h.free i).mpr ⟨hlt, fun hmem => ?_⟩)
      rcases List.mem_cons.mp hmem with hmem | hmem
      · exact heq hmem
      · exact hi hmem

end FreeList

end Arena
