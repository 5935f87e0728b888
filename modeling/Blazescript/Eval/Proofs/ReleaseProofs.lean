import Blazescript.Eval.Release

/-!
# Proofs: what `scope_free` releases

`scope_free` frees exactly the scopes it releases, each once, and puts exactly the slots of their
values on the free list. The proof follows the recursion: a value, the values of a scope, a scope.
-/

namespace Blaze

open Arena

variable {m m' m₁ m₂ m₃ : Machine}

theorem Freed.refl (m : Machine) : Freed m m [] [] :=
  ⟨fun _ => rfl, rfl, fun _ => by simp, fun _ => rfl, rfl, fun _ h => h, fun _ => .inl rfl, rfl, rfl,
    rfl, rfl, rfl, rfl⟩

theorem Freed.trans {scopes scopes' slots slots' : List Nat} (h : Freed m₁ m₂ scopes slots)
    (h' : Freed m₂ m₃ scopes' slots') : Freed m₁ m₃ (scopes' ++ scopes) (slots' ++ slots) where
  peek s := (h'.peek s).trans (h.peek s)
  size := h'.size.trans h.size
  live s := by
    rw [h'.live, h.live]
    simp only [List.mem_append, not_or, Bool.decide_and, Bool.and_assoc]
    rw [Bool.and_comm (decide (s ∉ scopes))]
  fnPeek f := (h'.fnPeek f).trans (h.fnPeek f)
  fnSize := h'.fnSize.trans h.fnSize
  fnLive f hf := h.fnLive f (h'.fnLive f hf)
  values i := by
    rcases h'.values i with h2 | h2
    · rw [h2]
      exact h.values i
    · exact .inr h2
  length := h'.length.trans h.length
  capacity := h'.capacity.trans h.capacity
  head := by rw [h'.head, h.head, List.append_assoc]
  stack := h'.stack.trans h.stack
  result := h'.result.trans h.result
  builtins := h'.builtins.trans h.builtins

section Freed

variable {scopes slots : List Nat} (h : Freed m m' scopes slots)
include h

theorem Freed.ownedSlots (s : Nat) : m'.ownedSlots s = m.ownedSlots s := by
  simp only [Machine.ownedSlots, h.peek]

theorem Freed.fnScope (f : Nat) : m'.fnScope f = m.fnScope f := by
  simp only [Machine.fnScope, h.fnPeek]

theorem Freed.slotScope {index u : Nat} (hu : m'.slotScope index = some u) :
    m.slotScope index = some u := by
  unfold Machine.slotScope at hu ⊢
  rcases h.values index with heq | ⟨v, hv, hn, -⟩
  · simpa only [heq, h.fnScope] using hu
  · simp [hv, hn] at hu

theorem Freed.releases {s t : Nat} (hr : m'.Releases s t) : m.Releases s t := by
  induction hr with
  | self s => exact .self s
  | step hi hu _ ih => exact .step (h.ownedSlots _ ▸ hi) (h.slotScope hu) ih

theorem Freed.env : m'.env = m.env := by
  unfold Machine.env envOf
  simp only [h.peek]

theorem Freed.generation (s : Nat) : generationOf m'.scopes s = generationOf m.scopes s := by
  simp only [generationOf, h.peek]

end Freed

/-- A list of scopes is freed from `m` together with the slots of their values. -/
structure Frees (m m' : Machine) (roots : List Nat) (scopes slots : List Nat) : Prop where
  freed : Freed m m' scopes slots
  nodup : scopes.Nodup
  live : ∀ t ∈ scopes, m.scopes.isLive t = true
  released : ∀ t ∈ scopes, ∃ s ∈ roots, m.Releases s t
  complete : ∀ s ∈ roots, ∀ t, m.Releases s t → t ∈ scopes
  /-- A slot loses the function it holds only together with what its scope releases. -/
  kept : ∀ index u, m.slotScope index = some u →
    m'.slotScope index = some u ∨ ∀ t, m.Releases u t → t ∈ scopes

/-- Freeing no scope, and changing no slot. -/
theorem Freed.frees_nil {slots : List Nat} (h : Freed m m' [] slots)
    (hv : m'.tbl.values = m.tbl.values) : Frees m m' [] [] slots := by
  refine ⟨h, List.nodup_nil, by simp, by simp, by simp, fun index u hu => .inl ?_⟩
  simpa only [Machine.slotScope, hv, h.fnScope] using hu

theorem Frees.refl (m : Machine) : Frees m m [] [] [] := (Freed.refl m).frees_nil rfl

/-- What a scope released before is freed, or released still. -/
theorem Frees.releases {roots scopes slots : List Nat} (h : Frees m m' roots scopes slots)
    {s t : Nat} (hr : m.Releases s t) : m'.Releases s t ∨ t ∈ scopes := by
  induction hr with
  | self s => exact .inl (.self s)
  | step hi hu hr ih =>
    rcases h.kept _ _ hu with hu' | hall
    · exact ih.imp_left (.step (h.freed.ownedSlots _ ▸ hi) hu')
    · exact .inr (hall _ hr)

theorem Frees.trans {roots roots' scopes scopes' slots slots' : List Nat}
    (h : Frees m₁ m₂ roots scopes slots) (h' : Frees m₂ m₃ roots' scopes' slots') :
    Frees m₁ m₃ (roots' ++ roots) (scopes' ++ scopes) (slots' ++ slots) where
  freed := h.freed.trans h'.freed
  nodup := by
    refine List.nodup_append.mpr ⟨h'.nodup, h.nodup, fun a ha b hb hab => ?_⟩
    -- what is freed second was still live after the first
    have hlive := h'.live a ha
    rw [h.freed.live, hab] at hlive
    simp [hb] at hlive
  live t ht := by
    rcases List.mem_append.mp ht with ht | ht
    · have hlive := h'.live t ht
      rw [h.freed.live, Bool.and_eq_true] at hlive
      exact hlive.1
    · exact h.live t ht
  released t ht := by
    rcases List.mem_append.mp ht with ht | ht
    · obtain ⟨s, hs, hr⟩ := h'.released t ht
      exact ⟨s, List.mem_append_left _ hs, h.freed.releases hr⟩
    · obtain ⟨s, hs, hr⟩ := h.released t ht
      exact ⟨s, List.mem_append_right _ hs, hr⟩
  complete s hs t hr := by
    rcases List.mem_append.mp hs with hs | hs
    · rcases h.releases hr with hr | ht
      · exact List.mem_append_left _ (h'.complete s hs t hr)
      · exact List.mem_append_right _ ht
    · exact List.mem_append_right _ (h.complete s hs t hr)
  kept index u hu := by
    rcases h.kept index u hu with hu₂ | hall
    · refine (h'.kept index u hu₂).imp_right fun hall t hr => ?_
      rcases h.releases hr with hr | ht
      · exact List.mem_append_left _ (hall t hr)
      · exact List.mem_append_right _ ht
    · exact .inr fun t hr => List.mem_append_right _ (hall t hr)

/-- What a function that frees scopes does: to the scopes a scope releases, and to all their
slots. -/
def FreesScopes (freeScope : Machine → Nat → Option Machine) : Prop :=
  ∀ m s m', freeScope m s = some m' → ∃ scopes slots, Frees m m' [s] scopes slots ∧
    slots.Perm (scopes.flatMap m.ownedSlots)

theorem freed_store (m : Machine) (store : Store) : Freed m { m with store := store } [] [] :=
  ⟨fun _ => rfl, rfl, fun _ => by simp, fun _ => rfl, rfl, fun _ h => h, fun _ => .inl rfl, rfl, rfl,
    rfl, rfl, rfl, rfl⟩

theorem freed_fn (m : Machine) (f : Nat) : Freed m { m with fns := m.fns.free f } [] [] :=
  ⟨fun _ => rfl, rfl, fun _ => by simp, fun _ => by simp, by simp,
    fun _ h => by simp only [Heap.isLive_free, Bool.and_eq_true] at h; exact h.1, fun _ => .inl rfl,
    rfl, rfl, rfl, rfl, rfl, rfl⟩

theorem freed_push (m : Machine) (index : Nat) :
    Freed m { m with tbl := m.tbl.pushFree index } [] [index] :=
  ⟨fun _ => rfl, rfl, fun _ => by simp, fun _ => rfl, rfl, fun _ h => h, fun _ => .inl rfl, rfl, rfl,
    rfl, rfl, rfl, rfl⟩

theorem freed_slot (m : Machine) (index : Nat) (selfPtr : Option Nat) :
    Freed m { m with tbl := m.tbl.store index ⟨.null, true, selfPtr⟩ } [] [] := by
  refine ⟨fun _ => rfl, rfl, fun _ => by simp, fun _ => rfl, rfl, fun _ h => h, fun i => ?_,
    by simp [ValAllocTbl.store], rfl, rfl, rfl, rfl, rfl⟩
  simp only [ValAllocTbl.store, List.getElem?_set]
  split_ifs with hi hlt
  · exact .inr ⟨_, rfl, rfl, rfl⟩
  · subst hi
    exact .inl (List.getElem?_eq_none (by omega)).symm
  · exact .inl rfl

theorem freed_scope (m : Machine) (s : Nat) :
    Freed m { m with scopes := m.scopes.free s } [s] [] :=
  ⟨fun _ => by simp, by simp, fun _ => by simp [Heap.isLive_free], fun _ => rfl, rfl, fun _ h => h,
    fun _ => .inl rfl, rfl, rfl, rfl, rfl, rfl, rfl⟩

section Value

variable {freeScope : Machine → Nat → Option Machine}

/-- The effect of `val_free_force_no_root` on the content of a slot. -/
theorem valFreeForceNoRoot_spec (hfree : FreesScopes freeScope) {v : Val}
    (h : Machine.valFreeForceNoRoot freeScope m v = some m') :
    ∃ roots scopes slots, Frees m m' roots scopes slots ∧
      slots.Perm (scopes.flatMap m.ownedSlots) ∧
      ∀ u, u ∈ roots ↔ v.nofree = false ∧ ∃ f, v.data = .function f ∧ m.fnScope f = some u := by
  have hnothing : ∀ m' : Machine, Frees m m' [] [] [] →
      (∀ u, ¬ (v.nofree = false ∧ ∃ f, v.data = .function f ∧ m.fnScope f = some u)) →
      ∃ roots scopes slots, Frees m m' roots scopes slots ∧
        slots.Perm (scopes.flatMap m.ownedSlots) ∧
        ∀ u, u ∈ roots ↔ v.nofree = false ∧ ∃ f, v.data = .function f ∧ m.fnScope f = some u :=
    fun m' hf hv => ⟨[], [], [], hf, .refl _, fun u => by simpa using hv u⟩
  unfold Machine.valFreeForceNoRoot at h
  split_ifs at h with hn
  · obtain rfl := Option.some.inj h
    exact hnothing _ (.refl _) fun u hu => by simp [hn] at hu
  split at h
  · rename_i hd
    split_ifs at h
    obtain rfl := Option.some.inj h
    exact hnothing _ ((freed_store _ _).frees_nil rfl) fun u hu => by simp [hd] at hu
  · rename_i hd
    split_ifs at h
    obtain rfl := Option.some.inj h
    exact hnothing _ ((freed_store _ _).frees_nil rfl) fun u hu => by simp [hd] at hu
  · rename_i f hd
    obtain ⟨fn, hfn, h⟩ := Option.bind_eq_some_iff.mp h
    have hpeek := (Heap.read_eq_some.mp hfn).2
    have hfreed := (freed_fn m f).frees_nil rfl
    have hnone : m.fnScope f = none →
        ∀ u, ¬ (v.nofree = false ∧ ∃ f, v.data = .function f ∧ m.fnScope f = some u) := by
      rintro hnone u ⟨-, f', hd', hu⟩
      obtain rfl : f = f' := by simpa [hd] using hd'
      rw [hnone] at hu
      cases hu
    split at h
    · rename_i u hb hs
      have hfs : m.fnScope f = some u := by simp [Machine.fnScope, hpeek, hb, hs]
      obtain ⟨scopes, slots, hF, hperm⟩ := hfree _ _ _ h
      have hF' := hfreed.trans hF
      simp only [List.append_nil] at hF'
      refine ⟨[u], scopes, slots, hF', ?_, fun u' => ?_⟩
      · rwa [show m.ownedSlots = Machine.ownedSlots _ from
          funext fun t => (hfreed.freed.ownedSlots t).symm]
      · simp [hn, hd, hfs, eq_comm]
    · rename_i hb hs
      obtain rfl := Option.some.inj h
      exact hnothing _ hfreed (hnone (by simp [Machine.fnScope, hpeek, hs]))
    · rename_i b hb
      obtain rfl := Option.some.inj h
      exact hnothing _ (.refl _) (hnone (by simp [Machine.fnScope, hpeek, hb]))
  · rename_i hd
    obtain rfl := Option.some.inj h
    exact hnothing _ (.refl _) fun u ⟨_, f, hf, _⟩ => hd f hf

/-- The effect of `valmap_free` on one value. -/
theorem valmapFreeValue_spec (hfree : FreesScopes freeScope) {v : Val}
    (h : Machine.valmapFreeValue freeScope m v = some m') :
    ∃ roots scopes slots, Frees m m' roots scopes slots ∧
      slots.Perm ((ownedSlot v).toList ++ scopes.flatMap m.ownedSlots) ∧
      ∀ u, u ∈ roots ↔ ∃ index, ownedSlot v = some index ∧ m.slotScope index = some u := by
  unfold Machine.valmapFreeValue at h
  split_ifs at h with hv
  · rcases hp : v.selfPtr with _ | index
    · simp only [hp, Option.some.injEq] at h
      subst h
      exact ⟨[], [], [], .refl _, by simp [ownedSlot, hv, hp], by simp [ownedSlot, hv, hp]⟩
    simp only [hp] at h
    have howned : ownedSlot v = some index := by simp [ownedSlot, hv, hp]
    unfold Machine.valAllocFree at h
    obtain ⟨w, hw, h⟩ := Option.bind_eq_some_iff.mp h
    obtain ⟨m₁, h1, rfl⟩ := Option.map_eq_some_iff.mp h
    have hpush := freed_push m index
    obtain ⟨roots, scopes, slots, hF, hperm, hroots⟩ := valFreeForceNoRoot_spec hfree h1
    have hF₁ : Frees m m₁ (roots ++ []) (scopes ++ []) (slots ++ [index]) :=
      (hpush.frees_nil rfl).trans hF
    simp only [List.append_nil] at hF₁
    have hstore := freed_slot m₁ index w.selfPtr
    have hroots' : ∀ u, u ∈ roots ↔ m.slotScope index = some u := by
      intro u
      rw [hroots]
      constructor
      · rintro ⟨hn, f, hf, hu⟩
        simp only [Machine.slotScope, hw, hn, hf, Option.bind_some]
        exact hu
      · intro hu
        rcases hn : w.nofree <;> rcases hd : w.data with _ | _ | _ | f | _ | _ | _ <;>
          simp only [Machine.slotScope, hw, hn, hd, Option.bind_some, reduceCtorEq] at hu
        exact ⟨rfl, f, rfl, hu⟩
    refine ⟨roots, scopes, slots ++ [index], ⟨?_, hF₁.nodup, hF₁.live, hF₁.released, hF₁.complete,
      fun i u hu => ?_⟩, ?_, fun u => by simp [howned, hroots']⟩
    · have := hF₁.freed.trans hstore
      simpa only [List.nil_append] using this
    · by_cases hi : i = index
      · -- the function in the slot is freed before the slot is overwritten
        exact .inr (hF₁.complete u ((hroots' u).mpr (hi ▸ hu)))
      · refine (hF₁.kept i u hu).imp_left fun hu₁ => ?_
        rw [← hu₁]
        simp [Machine.slotScope, Machine.fnScope, ValAllocTbl.store,
          List.getElem?_set_ne (Ne.symm hi)]
    · rw [howned, show m.ownedSlots = Machine.ownedSlots _ from
        funext fun t => (hpush.ownedSlots t).symm]
      exact (List.perm_append_comm).trans (hperm.append_left _)
  · obtain rfl := Option.some.inj h
    exact ⟨[], [], [], .refl _, by simp [ownedSlot, hv], by simp [ownedSlot, hv]⟩

/-- The slots of values freed one after the other, sorted out. -/
theorem perm_append_shuffle {l₁ l₂ r₁ r₂ : List Nat} {slots₁ slots₂ : List Nat}
    (h₁ : slots₁.Perm (l₁ ++ r₁)) (h₂ : slots₂.Perm (l₂ ++ r₂)) :
    (slots₂ ++ slots₁).Perm (l₁ ++ l₂ ++ (r₂ ++ r₁)) := by
  refine (h₂.append h₁).trans ?_
  rw [← Multiset.coe_eq_coe]
  simp only [← Multiset.coe_add]
  abel

/-- The effect of `valmap_free` on a list of values. -/
theorem valmapFreeValues_spec (hfree : FreesScopes freeScope) (values : List Val) :
    ∀ {m m' : Machine}, values.foldlM (Machine.valmapFreeValue freeScope) m = some m' →
      ∃ roots scopes slots, Frees m m' roots scopes slots ∧
        slots.Perm (values.filterMap ownedSlot ++ scopes.flatMap m.ownedSlots) ∧
        (∀ u ∈ roots, ∃ index ∈ values.filterMap ownedSlot, m.slotScope index = some u) ∧
        ∀ index ∈ values.filterMap ownedSlot, ∀ u, m.slotScope index = some u →
          ∀ t, m.Releases u t → t ∈ scopes := by
  induction values with
  | nil =>
    intro m m' h
    obtain rfl := Option.some.inj h
    exact ⟨[], [], [], .refl _, by simp, by simp, by simp⟩
  | cons v values ih =>
    intro m m' h
    rw [List.foldlM_cons] at h
    obtain ⟨m₁, h1, h2⟩ := Option.bind_eq_some_iff.mp h
    obtain ⟨roots, scopes, slots, hF, hperm, hroots⟩ := valmapFreeValue_spec hfree h1
    obtain ⟨roots', scopes', slots', hF', hperm', hroots', hall'⟩ := ih h2
    have howned : m₁.ownedSlots = m.ownedSlots := funext hF.freed.ownedSlots
    have hcons : (v :: values).filterMap ownedSlot =
        (ownedSlot v).toList ++ values.filterMap ownedSlot := by
      cases hv : ownedSlot v <;> simp [hv]
    refine ⟨roots' ++ roots, scopes' ++ scopes, slots' ++ slots, hF.trans hF', ?_, fun u hu => ?_,
      fun index hi u hu t hr => ?_⟩
    · rw [howned] at hperm'
      rw [hcons, List.flatMap_append]
      exact perm_append_shuffle hperm hperm'
    · rw [hcons]
      rcases List.mem_append.mp hu with hu | hu
      · obtain ⟨index, hi, hs⟩ := hroots' u hu
        exact ⟨index, List.mem_append_right _ hi, hF.freed.slotScope hs⟩
      · obtain ⟨index, hi, hs⟩ := (hroots u).mp hu
        exact ⟨index, List.mem_append_left _ (by simp [hi]), hs⟩
    · rw [hcons] at hi
      rcases List.mem_append.mp hi with hi | hi
      · have hu' : u ∈ roots := (hroots u).mpr ⟨index, by simpa using hi, hu⟩
        exact List.mem_append_right _ (hF.complete u hu' t hr)
      · rcases hF.kept index u hu with hu₁ | hall
        · rcases hF.releases hr with hr₁ | ht
          · exact List.mem_append_left _ (hall' index hi u hu₁ t hr₁)
          · exact List.mem_append_right _ ht
        · exact List.mem_append_right _ (hall t hr)

end Value

theorem freesScopes_scopeFreeFrom (fuel : Nat) : FreesScopes (Machine.scopeFreeFrom fuel) := by
  induction fuel with
  | zero => intro m s m' h; simp [Machine.scopeFreeFrom] at h
  | succ fuel ih =>
    intro m s m' h
    unfold Machine.scopeFreeFrom at h
    obtain ⟨scope, hread, h⟩ := Option.bind_eq_some_iff.mp h
    obtain ⟨m₁, h1, h⟩ := Option.bind_eq_some_iff.mp h
    split_ifs at h with hlive
    obtain rfl := Option.some.inj h
    obtain ⟨hl, hp⟩ := Heap.read_eq_some.mp hread
    obtain ⟨roots, scopes, slots, hF, hperm, hroots, hall⟩ := valmapFreeValues_spec ih _ h1
    have howned : m.ownedSlots s = scope.valmap.values.filterMap ownedSlot := by
      simp [Machine.ownedSlots, hp]
    have hfree := freed_scope m₁ s
    have hnot : s ∉ scopes := fun hs => by
      rw [hF.freed.live] at hlive
      simp [hs] at hlive
    refine ⟨s :: scopes, slots, ⟨?_, ?_, fun t ht => ?_, fun t ht => ?_, ?_, fun index u hu => ?_⟩,
      ?_⟩
    · exact hF.freed.trans hfree
    · exact List.nodup_cons.mpr ⟨hnot, hF.nodup⟩
    · rcases List.mem_cons.mp ht with rfl | ht
      · exact hl
      · exact hF.live t ht
    · rcases List.mem_cons.mp ht with rfl | ht
      · exact ⟨t, List.mem_singleton.mpr rfl, .self t⟩
      · obtain ⟨u, hu, hr⟩ := hF.released t ht
        obtain ⟨index, hi, hs⟩ := hroots u hu
        exact ⟨s, List.mem_singleton.mpr rfl, .step (howned ▸ hi) hs hr⟩
    · rintro s' hs' t hr
      obtain rfl := List.mem_singleton.mp hs'
      cases hr with
      | self => exact List.mem_cons_self ..
      | step hi hu hr => exact List.mem_cons_of_mem _ (hall _ (howned ▸ hi) _ hu t hr)
    · exact (hF.kept index u hu).imp_right fun hall t hr => List.mem_cons_of_mem _ (hall t hr)
    · rw [List.flatMap_cons, howned]
      exact hperm

/-- `scope_free` frees exactly the scopes that the scope releases, each once, and releases exactly the
slots of their values. -/
theorem scopeFree_spec {s : Nat} (h : m.scopeFree s = some m') :
    ∃ scopes slots, Freed m m' scopes slots ∧ scopes.Nodup ∧
      (∀ t ∈ scopes, m.scopes.isLive t = true) ∧ (∀ t, t ∈ scopes ↔ m.Releases s t) ∧
      slots.Perm (scopes.flatMap m.ownedSlots) := by
  obtain ⟨scopes, slots, hF, hperm⟩ := freesScopes_scopeFreeFrom _ m s m' h
  refine ⟨scopes, slots, hF.freed, hF.nodup, hF.live, fun t => ⟨fun ht => ?_, fun hr => ?_⟩, hperm⟩
  · obtain ⟨s', hs', hr⟩ := hF.released t ht
    exact List.mem_singleton.mp hs' ▸ hr
  · exact hF.complete s (List.mem_singleton.mpr rfl) t hr

/-- A scope whose slots hold no user function releases only itself. -/
theorem releases_self {s t : Nat} (h : (m.ownedSlots s).all fun index => m.slotScope index = none)
    (hr : m.Releases s t) : t = s := by
  cases hr with
  | self => rfl
  | step hi hu =>
    have hnone := List.all_eq_true.mp h _ hi
    simp [hu] at hnone

end Blaze
