import Blazescript.Eval.Kept
import Blazescript.Eval.Proofs.ElementsProofs

/-!
# Proofs: what is left alone

A step that spares some strings, functions, arrays and slots leaves them alone, and so does a run of such steps. The
values that are made of them say what they said.
-/

namespace Blaze

open Arena Running Tracing

variable {m m' m₁ m₂ : Machine} {kept : Kept} {event : Event} {v u : Val} {s index : Nat}

/-! ## What is left alone -/

theorem Untouched.refl (kept : Kept) (m : Machine) : Untouched kept m m :=
  ⟨fun _ _ _ h => h, fun _ _ _ h => h, fun _ _ h => h, fun _ _ fn h => ⟨fn, h, rfl, rfl, rfl⟩⟩

theorem Untouched.trans (h : Untouched kept m m₁) (h' : Untouched kept m₁ m₂) : Untouched kept m m₂ := by
  refine ⟨fun index hi v hv => h'.values index hi v (h.values index hi v hv),
    fun s hs text ht => h'.strings s hs text (h.strings s hs text ht),
    fun a ha hl => h'.vectors a ha (h.vectors a ha hl), fun f hf fn hfn => ?_⟩
  obtain ⟨fn₁, hfn₁, hcallback, hparams, hbody⟩ := h.fns f hf fn hfn
  obtain ⟨fn₂, hfn₂, hcallback', hparams', hbody'⟩ := h'.fns f hf fn₁ hfn₁
  exact ⟨fn₂, hfn₂, hcallback'.trans hcallback, hparams'.trans hparams, hbody'.trans hbody⟩

/-- Nothing is freed or overwritten. -/
theorem Untouched.of_eq (hvalues : m'.tbl.values = m.tbl.values) (hstore : m.store.Extends m'.store)
    (hfns : m'.fns = m.fns) : Untouched kept m m' := by
  refine ⟨fun index _ v hv => ?_, fun s _ text ht => hstore.strings s text ht, fun a _ hl => hstore.vectors a hl,
    fun f _ fn hfn => ⟨fn, ?_, rfl, rfl, rfl⟩⟩
  · rw [hvalues]
    exact hv
  · rw [hfns]
    exact hfn

theorem Store.extends_refl (store : Store) : store.Extends store := ⟨fun _ _ h => h, fun _ h => h⟩

/-! ## `scope_free` -/

theorem Machine.SparesSlot.freed {scopes slots : List Nat} (h : m.SparesSlot kept index)
    (hF : Freed m m₁ scopes slots) : m₁.SparesSlot kept index := by
  refine ⟨h.slot, fun v hv => ?_, fun v hv hblocks => ?_⟩
  · rcases hF.values index with heq | ⟨u, hu, -, hnull⟩
    · exact h.data v (heq ▸ hv)
    · obtain rfl := Option.some.inj (hu.symm.trans hv)
      intro hd
      have hobject := kept.object _ hd
      rw [hnull] at hobject
      cases hobject
  · rcases hF.values index with heq | ⟨u, hu, -, hnull⟩
    · obtain ⟨f, fn, hd, hf, hrest⟩ := hblocks
      rw [hF.fnPeek] at hf
      exact h.shared v (heq ▸ hv) ⟨f, fn, hd, hf, hrest⟩
    · obtain rfl := Option.some.inj (hu.symm.trans hv)
      obtain ⟨f, fn, hd, -⟩ := hblocks
      rw [hnull] at hd
      cases hd

theorem Machine.SparesScope.freed {scopes slots : List Nat} (h : m.SparesScope kept s)
    (hF : Freed m m₁ scopes slots) : m₁.SparesScope kept s := by
  intro t ht index hi
  rw [hF.ownedSlots] at hi
  exact (h t (hF.releases ht) index hi).freed hF

/-- A value may be freed: its slot may be released, and the scope of the function in it may be freed. -/
structure Machine.SparesValue (m : Machine) (kept : Kept) (v : Val) : Prop where
  slot : ∀ index, ownedSlot v = some index → m.SparesSlot kept index
  scope : ∀ index, ownedSlot v = some index → ∀ s, m.slotScope index = some s → m.SparesScope kept s

theorem Machine.SparesValue.freed {scopes slots : List Nat} (h : m.SparesValue kept v)
    (hF : Freed m m₁ scopes slots) : m₁.SparesValue kept v :=
  ⟨fun index hi => (h.slot index hi).freed hF,
    fun index hi s hs => (h.scope index hi s (hF.slotScope hs)).freed hF⟩

/-- The function that frees scopes leaves alone what it spares. -/
def KeepsUntouched (kept : Kept) (freeScope : Machine → Nat → Option Machine) : Prop :=
  ∀ m s m', m.SparesScope kept s → freeScope m s = some m' → Untouched kept m m'

section Free

variable {freeScope : Machine → Nat → Option Machine} (hkeep : KeepsUntouched kept freeScope)
include hkeep

theorem valFreeForceNoRoot_untouched (hdata : ¬ kept.data u.data)
    (hscope : u.nofree = false → ∀ f, u.data = .function f → ∀ s, m.fnScope f = some s → m.SparesScope kept s)
    (h : Machine.valFreeForceNoRoot freeScope m u = some m') : Untouched kept m m' := by
  unfold Machine.valFreeForceNoRoot at h
  cases hn : u.nofree with
  | true =>
    rw [hn, if_pos rfl] at h
    cases h
    exact .refl kept m
  | false =>
  rw [hn, if_neg Bool.false_ne_true] at h
  cases hd : u.data with
  | string s =>
    simp only [hd] at h
    by_cases hl : m.store.strings.isLive s = true
    · rw [if_pos hl] at h
      cases h
      refine ⟨fun _ _ _ hv => hv, fun s' hs' text ht => ?_, fun _ _ ha => ha, fun _ _ fn hf => ⟨fn, hf, rfl, rfl, rfl⟩⟩
      have hne : s' ≠ s := by
        rintro rfl
        exact hdata (hd ▸ hs')
      exact Heap.read_free.trans ((if_neg hne).trans ht)
    · rw [if_neg hl] at h
      cases h
  | array a =>
    simp only [hd] at h
    by_cases hl : m.store.vectors.isLive a = true
    · rw [if_pos hl] at h
      cases h
      refine ⟨fun _ _ _ hv => hv, fun _ _ _ ht => ht, fun a' ha' hlive => ?_, fun _ _ fn hf => ⟨fn, hf, rfl, rfl, rfl⟩⟩
      have hne : a' ≠ a := by
        rintro rfl
        exact hdata (hd ▸ ha')
      show (m.store.vectors.free a).isLive a' = true
      rw [Heap.isLive_free, hlive, decide_eq_true hne]
      rfl
    · rw [if_neg hl] at h
      cases h
  | function f =>
    simp only [hd] at h
    obtain ⟨fn, hfn, h⟩ := Option.bind_eq_some_iff.mp h
    have hpeek := (Heap.read_eq_some.mp hfn).2
    have hfree : Untouched kept m { m with fns := m.fns.free f } := by
      refine ⟨fun _ _ _ hv => hv, fun _ _ _ ht => ht, fun _ _ ha => ha, fun f' hf' fn' hfn' => ⟨fn', ?_, rfl, rfl, rfl⟩⟩
      have hne : f' ≠ f := by
        rintro rfl
        exact hdata (hd ▸ hf')
      exact Heap.read_free.trans ((if_neg hne).trans hfn')
    cases hcallback : fn.builtInCallback with
    | some callback =>
      simp only [hcallback] at h
      cases h
      exact .refl kept m
    | none =>
      cases hs : fn.scope with
      | some s =>
        simp only [hcallback, hs] at h
        have hfnScope : m.fnScope f = some s := by
          simp [Machine.fnScope, hpeek, hcallback, hs]
        exact hfree.trans (hkeep _ _ _ ((hscope hn f hd s hfnScope).freed (freed_fn m f)) h)
      | none =>
        simp only [hcallback, hs] at h
        cases h
        exact hfree
  | _ =>
    simp only [hd] at h
    cases h
    exact .refl kept m

theorem valmapFreeValue_untouched (hv : m.SparesValue kept v)
    (h : Machine.valmapFreeValue freeScope m v = some m') : Untouched kept m m' := by
  unfold Machine.valmapFreeValue at h
  by_cases hd : v.data ≠ .null ∧ v.nofree = false
  · rw [if_pos hd] at h
    cases hp : v.selfPtr with
    | none =>
      simp only [hp] at h
      cases h
      exact .refl kept m
    | some index =>
      simp only [hp] at h
      have howned : ownedSlot v = some index := by
        unfold ownedSlot
        rw [if_pos hd, hp]
      have hslot := hv.slot index howned
      obtain ⟨u, hu, h⟩ := Option.bind_eq_some_iff.mp h
      obtain ⟨m₁, hm₁, heq⟩ := Option.map_eq_some_iff.mp h
      have hpush := freed_push m index
      have hpushed : Untouched kept m { m with tbl := m.tbl.pushFree index } :=
        .of_eq rfl m.store.extends_refl rfl
      have hforced : Untouched kept { m with tbl := m.tbl.pushFree index } m₁ := by
        refine valFreeForceNoRoot_untouched hkeep (hslot.data u hu) (fun hn f hf s hs => ?_) hm₁
        refine (hv.scope index howned s ?_).freed hpush
        unfold Machine.slotScope
        rw [hu, Option.bind_some, hn, hf]
        exact hs
      have hstored : Untouched kept m₁ m' := by
        rw [← heq]
        refine ⟨fun j hj w hw => ?_, fun _ _ _ ht => ht, fun _ _ ha => ha, fun _ _ fn hf => ⟨fn, hf, rfl, rfl, rfl⟩⟩
        have hne : index ≠ j := by
          rintro rfl
          exact hslot.slot hj
        exact (cell_clear hne).trans hw
      exact (hpushed.trans hforced).trans hstored
  · rw [if_neg hd] at h
    cases h
    exact .refl kept m

theorem valmapFreeValues_untouched (hfree : FreesScopes freeScope) {values : List Val} {m : Machine}
    (hvalues : ∀ v ∈ values, m.SparesValue kept v)
    (h : values.foldlM (Machine.valmapFreeValue freeScope) m = some m') : Untouched kept m m' := by
  induction values generalizing m with
  | nil =>
    cases h
    exact .refl kept _
  | cons v values ih =>
    rw [List.foldlM_cons] at h
    obtain ⟨m₁, hm₁, h⟩ := Option.bind_eq_some_iff.mp h
    obtain ⟨hv, hrest⟩ := List.forall_mem_cons.mp hvalues
    obtain ⟨_, _, _, hF, -⟩ := valmapFreeValue_spec hfree hm₁
    exact (valmapFreeValue_untouched hkeep hv hm₁).trans (ih (fun u hu => (hrest u hu).freed hF.freed) h)

end Free

theorem scopeFreeFrom_untouched (fuel : Nat) : KeepsUntouched kept (Machine.scopeFreeFrom fuel) := by
  induction fuel with
  | zero =>
    intro m s m' _ h
    cases h
  | succ fuel ih =>
    intro m s m' hs h
    unfold Machine.scopeFreeFrom at h
    obtain ⟨scope, hread, h⟩ := Option.bind_eq_some_iff.mp h
    obtain ⟨m₁, hm₁, h⟩ := Option.bind_eq_some_iff.mp h
    have hpeek := (Heap.read_eq_some.mp hread).2
    have howned : ∀ v ∈ scope.valmap.values, ∀ index, ownedSlot v = some index → index ∈ m.ownedSlots s := by
      intro v hv index hi
      unfold Machine.ownedSlots
      rw [hpeek]
      exact List.mem_filterMap.mpr ⟨v, hv, hi⟩
    have hvalues : ∀ v ∈ scope.valmap.values, m.SparesValue kept v := by
      intro v hv
      refine ⟨fun index hi => hs s (.self s) index (howned v hv index hi), fun index hi u hu t ht => ?_⟩
      exact hs t (.step (howned v hv index hi) hu ht)
    have hfreed := valmapFreeValues_untouched ih (freesScopes_scopeFreeFrom fuel) hvalues hm₁
    by_cases hl : m₁.scopes.isLive s = true
    · rw [if_pos hl] at h
      cases h
      exact hfreed.trans (.of_eq rfl m₁.store.extends_refl rfl)
    · rw [if_neg hl] at h
      cases h

/-! ## Steps -/

theorem untouched_create {data : ValData} (hslot : ¬ kept.slots m.tbl.alloc.1)
    (hvalues : m'.tbl = (m.tbl.create data).2) (hstore : m'.store = m.store)
    (hfns : ∀ f fn, m.fns.read f = some fn → m'.fns.read f = some fn) : Untouched kept m m' := by
  refine ⟨fun index hi v hv => ?_, fun s _ text ht => ?_, fun a _ hl => ?_, fun f _ fn hf => ⟨fn, hfns f fn hf, rfl, rfl, rfl⟩⟩
  · have hne : index ≠ m.tbl.alloc.1 := by
      rintro rfl
      exact hslot hi
    obtain ⟨-, -, -, -, hkept⟩ := m.tbl.create_spec data
    rw [hvalues]
    rcases hkept index hne with heq | hge
    · exact heq.trans hv
    · exact absurd (cell_lt hv) (Nat.not_lt.mpr hge)
  · rw [hstore]
    exact ht
  · rw [hstore]
    exact hl

theorem Trans.untouched (h : Trans m event m') (hs : m.SparesKept kept event) : Untouched kept m m' := by
  cases h with
  | store store hstore => exact .of_eq rfl hstore rfl
  | newSlot data hd => exact untouched_create hs.2 rfl rfl fun _ _ hf => hf
  | copyBuiltin orig fn hf hb => exact untouched_create hs.2 rfl rfl fun _ _ hf => Heap.read_alloc_of_read hf
  | copyCustom orig fn body hf hb => exact untouched_create hs.2 rfl rfl fun _ _ hf => Heap.read_alloc_of_read hf
  | newFn frame stack body paramNames hstack =>
    exact ⟨fun _ _ _ hv => hv, fun _ _ _ ht => ht, fun _ _ ha => ha,
      fun _ _ fn hf => ⟨fn, Heap.read_alloc_of_read hf, rfl, rfl, rfl⟩⟩
  | rescope frame stack f fn hstack hc =>
    refine ⟨fun _ _ _ hv => hv, fun _ _ _ ht => ht, fun _ _ ha => ha, fun g _ gn hg => ?_⟩
    show ∃ fn', (m.fns.write f { fn with scope := some m.scopes.size }).read g = some fn' ∧ _
    rw [Heap.read_write]
    by_cases hgf : g = f
    · subst hgf
      obtain rfl := Option.some.inj (hc.1.symm.trans hg)
      rw [if_pos rfl, hg]
      exact ⟨_, rfl, rfl, rfl, rfl⟩
    · rw [if_neg hgf]
      exact ⟨gn, hg, rfl, rfl, rfl⟩
  | closeScope m₁ frame stack s hstack hl hf =>
    exact (scopeFreeFrom_untouched _ m s m₁ hs hf).trans (.of_eq rfl m₁.store.extends_refl rfl)
  | value | call | callBody | «return» | openBlock | openLoop | loopIds | declare | param | setDefault | assign | resolve
    | use | arg | activate | builtin => exact .of_eq rfl m.store.extends_refl rfl

theorem Machine.SparesKept.not_reallocates (hs : m.SparesKept kept event) : ¬ m.Reallocates event := by
  intro hr
  cases event with
  | newSlot index => exact hs.1 hr
  | copyFn orig copy => exact hs.1 hr
  | _ => exact hr

/-! ## Vectors -/

/-- Vectors that are there get no elements. -/
theorem vectors_invariant (m₀ : Machine) :
    Invariant (fun m => m₀.store.vectors.size ≤ m.store.vectors.size ∧
      ∀ a < m₀.store.vectors.size, m.store.vectors.peek a = m₀.store.vectors.peek a) (fun _ => True) (fun _ => True)
      (fun a => m₀.store.vectors.size ≤ a) where
  named _ _ _ _ := trivial
  plain _ _ := trivial
  string _ _ := trivial
  slot _ _ _ := trivial
  vector m hm := hm.1
  change m m' hm hc := by
    obtain ⟨hsize, hpeek⟩ := hm
    cases hc with
    | frame htbl hstrings hvectors hv =>
      rw [hvectors]
      exact ⟨hsize, hpeek⟩
    | vector =>
      refine ⟨?_, fun a ha => ?_⟩
      · show _ ≤ (m.store.vectors.alloc []).size
        rw [Heap.size_alloc]
        omega
      · have hne : a ≠ m.store.vectors.size := by omega
        show (m.store.vectors.alloc []).peek a = _
        rw [Heap.peek_alloc, if_neg hne]
        exact hpeek a ha
    | push b slots slot hb hread =>
      refine ⟨?_, fun a ha => ?_⟩
      · show _ ≤ (m.store.vectors.write b _).size
        rw [Heap.size_write]
        exact hsize
      · have hne : a ≠ b := by omega
        show (m.store.vectors.write b _).peek a = _
        rw [Heap.peek_write, if_neg hne]
        exact hpeek a ha
    | freeVector j b u u' hv hp hu hb =>
      refine ⟨?_, fun a ha => ?_⟩
      · show _ ≤ (m.store.vectors.free b).size
        rw [Heap.size_free]
        exact hsize
      · show (m.store.vectors.free b).peek a = _
        rw [Heap.peek_free]
        exact hpeek a ha
    | string | slot | list | freeString | clear => exact ⟨hsize, hpeek⟩

/-- A vector that is there after an evaluation has the elements it had. -/
theorem read_vector_of_eval {fuel scope a : Nat} {node : AstNode} {w w' : World Machine Event}
    (h : eval fuel scope node w = .ok v w') {slots : List (Option Nat)}
    (hread : w.state.store.vectors.read a = some slots) (hlive : w'.state.store.vectors.isLive a = true) :
    w'.state.store.vectors.read a = some slots := by
  obtain ⟨-, hpeek⟩ := Heap.read_eq_some.mp hread
  have hkept := (eval_upholds (vectors_invariant w.state) fuel scope node w v w' ⟨le_rfl, fun _ _ => rfl⟩ h).1.2
  exact Heap.read_eq_some.mpr ⟨hlive, (hkept a (Heap.lt_of_peek hpeek)).trans hpeek⟩

/-! ## Values -/

theorem Machine.Part.trans {w : Val} (h : m.Part v u) (h' : m.Part u w) : m.Part v w := by
  induction h' with
  | self => exact h
  | element _ ha hread hslot hw ih => exact .element ih ha hread hslot hw

/-- All that a value is made of is to be left alone. -/
structure Machine.IsKept (m : Machine) (kept : Kept) (v : Val) : Prop where
  data : ∀ u, m.Part v u → u.data.isObject = true → kept.data u.data
  slots : ∀ u a slots, m.Part v u → u.data = .array a → m.store.vectors.read a = some slots →
    ∀ index, some index ∈ slots → kept.slots index

theorem Machine.isKept_kept {fixed : Val → Prop} (h : fixed v) : m.IsKept (m.kept fixed) v :=
  ⟨fun u hu ho => ⟨ho, v, u, h, hu, rfl⟩, fun u a slots hu ha hread _ hi => ⟨v, u, a, slots, h, hu, ha, hread, hi⟩⟩

theorem Machine.IsKept.part (h : m.IsKept kept v) (hu : m.Part v u) : m.IsKept kept u :=
  ⟨fun w hw => h.data w (hu.trans hw), fun w a slots hw => h.slots w a slots (hu.trans hw)⟩

theorem mem_mapM_slotValue {slots : List (Option Nat)} {vs : List Val} (h : slots.mapM m.slotValue = some vs)
    (hv : v ∈ vs) : ∃ slot ∈ slots, m.slotValue slot = some v := by
  induction slots generalizing vs with
  | nil =>
    cases h
    cases hv
  | cons slot slots ih =>
    rw [List.mapM_cons] at h
    obtain ⟨u, hu, h⟩ := Option.bind_eq_some_iff.mp h
    obtain ⟨vs', hvs', hcons⟩ := Option.bind_eq_some_iff.mp h
    cases hcons
    rcases List.mem_cons.mp hv with rfl | hv
    · exact ⟨slot, List.mem_cons_self .., hu⟩
    · obtain ⟨slot', hslot', hv'⟩ := ih hvs' hv
      exact ⟨slot', List.mem_cons_of_mem _ hslot', hv'⟩

theorem mapM_slotValue_of_forall {slots : List (Option Nat)} {vs : List Val}
    (hkept : ∀ slot ∈ slots, ∀ v, m.slotValue slot = some v → m'.slotValue slot = some v)
    (h : slots.mapM m.slotValue = some vs) : slots.mapM m'.slotValue = some vs := by
  induction slots generalizing vs with
  | nil => exact h
  | cons slot slots ih =>
    obtain ⟨hslot, hslots⟩ := List.forall_mem_cons.mp hkept
    rw [List.mapM_cons] at h ⊢
    obtain ⟨u, hu, h⟩ := Option.bind_eq_some_iff.mp h
    obtain ⟨vs', hvs', hcons⟩ := Option.bind_eq_some_iff.mp h
    rw [hslot u hu]
    show (slots.mapM m'.slotValue).bind (fun vs => some (u :: vs)) = _
    rw [ih hslots hvs']
    exact hcons

/-- A value that is left alone, with its vectors, says what it said. -/
theorem Untouched.denotes (h : Untouched kept m m')
    (hvectors : ∀ a slots, m.store.vectors.read a = some slots → m'.store.vectors.isLive a = true →
      m'.store.vectors.read a = some slots) {c : Content} (hv : m.IsKept kept v) (hc : m.Denotes v c) :
    m'.Denotes v c := by
  induction hc with
  | integer hd => exact .integer hd
  | float hd => exact .float hd
  | null hd => exact .null hd
  | boolean hd => exact .boolean hd
  | string hd hs =>
    have hdata := hv.data _ .self (by rw [hd]; rfl)
    rw [hd] at hdata
    exact .string hd (h.strings _ hdata _ hs)
  | function hd hf =>
    have hdata := hv.data _ .self (by rw [hd]; rfl)
    rw [hd] at hdata
    obtain ⟨fn', hf', hcallback, hparams, hbody⟩ := h.fns _ hdata _ hf
    rw [← hcallback, ← hparams, ← hbody]
    exact .function hd hf'
  | @array v a vs cs hd ha hlength hcs ih =>
    have hdata := hv.data _ .self (by rw [hd]; rfl)
    rw [hd] at hdata
    unfold Machine.elements at ha
    obtain ⟨slots, hread, hvs⟩ := Option.bind_eq_some_iff.mp ha
    have hread' := hvectors a slots hread (h.vectors a hdata (Heap.read_eq_some.mp hread).1)
    have hslots : ∀ slot ∈ slots, ∀ u, m.slotValue slot = some u → m'.slotValue slot = some u := by
      intro slot hslot u hu
      cases slot with
      | none => exact hu
      | some index => exact h.values index (hv.slots v a slots .self hd hread index hslot) u hu
    refine .array hd ?_ hlength fun p hp => ih p hp ?_
    · unfold Machine.elements
      rw [hread']
      exact mapM_slotValue_of_forall hslots hvs
    · obtain ⟨slot, hslot, hvalue⟩ := mem_mapM_slotValue hvs (List.of_mem_zip hp).1
      exact hv.part (.element .self hd hread hslot hvalue)

end Blaze
