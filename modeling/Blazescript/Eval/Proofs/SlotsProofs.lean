import Blazescript.Eval.Proofs.ShapeProofs
import Blazescript.Eval.Slots

/-!
# Proofs: the ownership of slots

The free list and the values in reach name different slots, as long as `scope_free` releases each
slot once and spares the values that stay in reach.
-/

namespace Blaze

open Arena Environment Tracing

variable {m m' : Machine} {event : Event}

/-- The slots of the free list are slots of the table, each listed once, and no value in reach points
to one of them. -/
structure SlotsOwned (m : Machine) : Prop where
  nodup : m.tbl.head.Nodup
  head : ∀ index ∈ m.tbl.head, index < m.tbl.values.length
  reach : ∀ v, m.InReach v → ∀ index, v.selfPtr = some index →
    index < m.tbl.values.length ∧ index ∉ m.tbl.head

theorem SlotsOwned.slotsFree (h : SlotsOwned m) : m.SlotsFree :=
  ⟨h.nodup, fun v hv index hi => (h.reach v (.inl hv) index hi).2⟩

/-- What a step does to the table. -/
theorem Trans.tblChange (h : Trans m event m') : TblChange m m' event := by
  have hsame : ¬ event.Makes → m'.tbl = m.tbl → TblChange m m' event :=
    fun hne heq => .same heq fun he => absurd he hne
  cases h with
  | newSlot data hd => exact .created data (.inl ⟨_, rfl⟩) rfl rfl
  | copyBuiltin orig fn hf hb => exact .created _ (.inr (.inl ⟨orig, _, rfl⟩)) rfl rfl
  | copyCustom orig fn body hf hb => exact .created _ (.inr (.inl ⟨orig, _, rfl⟩)) rfl rfl
  | newFn frame stack body paramNames hs => exact .same rfl fun _ => rfl
  | closeScope m₁ frame stack s hs hl hf => exact .freed s rfl
  | _ => exact hsame (by simp [Event.Makes]) rfl

/-! ## Slots that a scope owns -/

theorem mem_ownedSlots {s index : Nat} (h : index ∈ m.ownedSlots s) :
    ∃ name v c, m.env.vars s name = some (v, c) ∧ v.selfPtr = some index := by
  unfold Machine.ownedSlots at h
  cases hp : m.scopes.peek s with
  | none => simp [hp] at h
  | some scope =>
    rw [hp, Option.map_some, Option.getD_some] at h
    obtain ⟨v, hv, ho⟩ := List.mem_filterMap.mp h
    obtain ⟨name, c, hb⟩ := Valmap.mem_values.mp hv
    unfold ownedSlot at ho
    split_ifs at ho
    exact ⟨name, v, c, (vars_of_peek hp name).trans hb, ho⟩

/-! ## One step -/

/-- A step that neither makes a value nor frees a scope. -/
theorem SlotsOwned.same (h : SlotsOwned m) (ht : Trans m event m') (hw : m.Wf)
    (htbl : m'.tbl = m.tbl) (hr : event.Makes → m'.result.selfPtr = none) : SlotsOwned m' := by
  refine ⟨htbl ▸ h.nodup, htbl ▸ h.head, fun v hv index hi => ?_⟩
  rw [htbl]
  rcases ht.inReach hw hv with hv | hv | ⟨rfl, he⟩
  · exact h.reach v hv index hi
  · rw [hv.1] at hi
    cases hi
  · rw [hr he] at hi
    cases hi

/-- A new value takes its slot off the free list. -/
theorem SlotsOwned.created (h : SlotsOwned m) (ht : Trans m event m') (hw : m.Wf) {data : ValData}
    (htbl : m'.tbl = (m.tbl.create data).2) (hr : m'.result = (m.tbl.create data).1) :
    SlotsOwned m' := by
  obtain ⟨hhead, hslot, hlen, hval, -⟩ := m.tbl.create_spec data
  have htail : ∀ index ∈ m.tbl.head.tail, index ∈ m.tbl.head := fun _ => List.mem_of_mem_tail
  refine ⟨?_, fun index hi => ?_, fun v hv index hi => ?_⟩
  · rw [htbl, hhead]
    exact h.nodup.tail
  · rw [htbl, hhead] at hi
    rw [htbl]
    exact (h.head index (htail index hi)).trans_le hlen
  · rw [htbl, hhead]
    rcases ht.inReach hw hv with hv | hv | ⟨rfl, -⟩
    · obtain ⟨hlt, hni⟩ := h.reach v hv index hi
      exact ⟨hlt.trans_le hlen, fun hmem => hni (htail index hmem)⟩
    · rw [hv.1] at hi
      cases hi
    · obtain rfl : m.tbl.alloc.1 = index := by
        rw [hr, m.tbl.create_fst] at hi
        exact Option.some.inj hi
      rcases hslot with hmem | ⟨hnil, hlen'⟩
      · -- the slot was the head of the free list
        obtain ⟨next, hnext⟩ := List.head?_eq_some_iff.mp (Option.mem_def.mp hmem)
        have hlt : m.tbl.alloc.1 < m.tbl.values.length := h.head _ (by simp [hnext])
        refine ⟨hlt.trans_le hlen, ?_⟩
        have hnd := h.nodup
        rw [hnext] at hnd ⊢
        exact (List.nodup_cons.mp hnd).1
      · refine ⟨?_, by simp [hnil]⟩
        exact (List.getElem?_eq_some_iff.mp (hval (.inr hnil))).1

/-- Freeing a scope that spares the slots in use. -/
theorem SlotsOwned.freed (h : SlotsOwned m) {s : Nat} (ht : Trans m (.closeScope s) m')
    (hs : m.ReleasesOnce s) : SlotsOwned m' := by
  obtain ⟨frame, stack, m₁, scopes, slots, -, -, hm', hF, hnodup, hlive, hrel, hperm⟩ :=
    ht.closeScope_spec
  have hhead : m'.tbl.head = slots ++ m.tbl.head := by rw [hm', ← hF.head]
  have hlen : m'.tbl.values.length = m.tbl.values.length := by rw [hm', ← hF.length]
  -- a released slot is owned by a value that was bound
  have howned : ∀ index ∈ slots, ∃ t, m.Releases s t ∧ index ∈ m.ownedSlots t ∧
      index < m.tbl.values.length ∧ index ∉ m.tbl.head := by
    intro index hi
    obtain ⟨t, ht, hi⟩ := List.mem_flatMap.mp (hperm.mem_iff.mp hi)
    obtain ⟨name, v, c, hb, hp⟩ := mem_ownedSlots hi
    have hv : m.InReach v := .inl ⟨t, name, c, hlive t ht, hb⟩
    exact ⟨t, (hrel t).mp ht, hi, h.reach v hv index hp⟩
  refine ⟨?_, fun index hi => ?_, fun v hv index hi => ?_⟩
  · rw [hhead, List.nodup_append']
    refine ⟨hperm.nodup_iff.mpr ?_, h.nodup, fun index hi => ?_⟩
    · rw [List.nodup_flatMap]
      refine ⟨fun t ht => hs.within t ((hrel t).mp ht), ?_⟩
      refine hnodup.pairwise_of_forall_ne fun t ht t' ht' hne => ?_
      exact hs.across t t' ((hrel t).mp ht) ((hrel t').mp ht') hne
    · obtain ⟨-, -, -, -, hni⟩ := howned index hi
      exact hni
  · rw [hlen]
    rw [hhead] at hi
    rcases List.mem_append.mp hi with hi | hi
    · obtain ⟨-, -, -, hlt, -⟩ := howned index hi
      exact hlt
    · exact h.head index hi
  · rcases ht.closeScope_stays hv with hv | rfl
    · obtain ⟨hlt, hni⟩ := h.reach v hv.inReach index hi
      rw [hlen, hhead]
      refine ⟨hlt, fun hmem => ?_⟩
      rcases List.mem_append.mp hmem with hmem | hmem
      · obtain ⟨t, hr, ho, -⟩ := howned index hmem
        exact hs.stays t hr index ho v hv hi
      · exact hni hmem
    · cases hi

/-- Every step that spares the slots in use keeps the free list apart from them. -/
theorem Trans.slotsOwned (h : Trans m event m') (hw : m.Wf) (hI : SlotsOwned m)
    (hs : m.SparesSlots event) : SlotsOwned m' := by
  cases h.tblChange with
  | same htbl hr => exact hI.same h hw htbl hr
  | created data he htbl hr => exact hI.created h hw htbl hr
  | freed s he =>
    subst he
    exact hI.freed h hs

/-- The initial free list is empty. -/
theorem Initial.slotsOwned {root : AstNode} (h : Initial root m) : SlotsOwned m := by
  have hbuiltin : ∀ b ∈ m.builtins, ∀ index, b.2.selfPtr = some index →
      index < m.tbl.values.length := by
    intro b hb index hi
    obtain ⟨-, ⟨i, hi', hlt⟩, -⟩ := h.values b hb
    obtain rfl := Option.some.inj (hi.symm.trans hi')
    exact hlt
  refine ⟨by simp [h.head], by simp [h.head], fun v hv index hi => ⟨?_, by simp [h.head]⟩⟩
  rcases hv with ⟨s, name, c, -, hb⟩ | rfl | ⟨frame, hf, hv⟩ | ⟨b, hb, rfl⟩
  · rw [h.env.2] at hb
    split_ifs at hb
    obtain ⟨w, hw, he⟩ := Option.map_eq_some_iff.mp hb
    obtain ⟨rfl, -⟩ := Prod.mk.inj he
    obtain ⟨l₁, l₂, hl, -⟩ := List.lookup_eq_some_iff.mp hw
    have hmem : (name, w) ∈ [("true", trueVal), ("false", falseVal), ("null", nullVal)] ++
        m.builtins := by simp [hl]
    rcases List.mem_append.mp hmem with hmem | hmem
    · -- `true`, `false` and `null` have no slot
      simp only [List.mem_cons, Prod.mk.injEq, List.not_mem_nil, or_false] at hmem
      rcases hmem with ⟨-, rfl⟩ | ⟨-, rfl⟩ | ⟨-, rfl⟩ <;> cases hi
    · exact hbuiltin (name, w) hmem index hi
  · rw [h.result] at hi
    cases hi
  · rw [h.stack, List.mem_singleton] at hf
    subst hf
    simp [Locals.args] at hv
  · exact hbuiltin b hb index hi

theorem Machine.sparesSlots_sound (h : m.sparesSlots event = true) : m.SparesSlots event := by
  cases event with
  | closeScope s =>
    simp only [Machine.sparesSlots, Bool.and_eq_true, List.all_eq_true, List.mem_range,
      Bool.or_eq_true, decide_eq_true_eq, Bool.not_eq_true', Option.all_eq_true] at h
    obtain ⟨⟨⟨⟨hfns, hnodup⟩, hscopes⟩, htail⟩, hbuiltins⟩ := h
    have hself : ∀ t, m.Releases s t → t = s :=
      fun t hr => releases_self (by simpa using hfns) hr
    refine ⟨fun t hr => hself t hr ▸ hnodup, fun t t' hr hr' hne => ?_,
      fun t hr index hi v hv hp => ?_⟩
    · exact absurd ((hself t hr).trans (hself t' hr').symm) hne
    obtain rfl := hself t hr
    -- the value would name a slot of the freed scope
    have hnamed : (v.selfPtr.any (m.ownedSlots t).contains) = true := by simp [hp, hi]
    cases hv with
    | bound u name c hl hnot hb =>
      obtain ⟨scope, hpeek, hbind⟩ := Option.bind_eq_some_iff.mp hb
      rcases hscopes u (Heap.lt_of_isLive hl) with rfl | hall
      · exact hnot (.self u)
      · have := hall scope hpeek v (Valmap.mem_values.mpr ⟨name, c, hbind⟩)
        simp [this] at hnamed
    | arg frame frame' stack hs hf hv =>
      have := htail frame' (by simp [hs, hf]) v hv
      simp [this] at hnamed
    | builtin name hb =>
      have := hbuiltins (name, v) hb
      simp [this] at hnamed
  | _ => trivial

/-- If no scope that is freed releases a slot twice, or one that a value still in reach points to, no
state of the program has a slot twice on the free list, or one there that a bound value points to. -/
theorem slots_free (fuel : Nat) (root : AstNode) (stdin : List String) (strerror : String)
    (hspares : ∀ step ∈ programSteps fuel root stdin strerror, step.pre.SparesSlots step.event) :
    ∀ step ∈ programSteps fuel root stdin strerror, step.pre.SlotsFree ∧ step.post.SlotsFree := by
  have hinit := initial_spec root stdin strerror
  obtain ⟨-, hall⟩ := (runProgram_path fuel root stdin strerror).invariant_mem
    (I := fun m => m.Wf ∧ SlotsOwned m) ⟨hinit.wf, hinit.slotsOwned⟩ hspares
    fun step hs ht ⟨hw, hI⟩ => ⟨ht.wf hw, ht.slotsOwned hw hI hs⟩
  intro step hmem
  obtain ⟨-, ⟨-, hpre⟩, -, hpost⟩ := hall step hmem
  exact ⟨hpre.slotsFree, hpost.slotsFree⟩

/-- `var a = 1; { var b = "x"; }`. -/
def stringProgram : AstNode :=
  .root .unknown
    [.varDecl .unknown "a" false (some (.intLit .unknown 1)),
      .block .unknown [.varDecl .unknown "b" false (some (.string .unknown "x"))]]

theorem slots_free_stringProgram :
    (∀ step ∈ programSteps 5 stringProgram [] "", step.pre.SparesSlots step.event) ∧
    ∀ step ∈ programSteps 5 stringProgram [] "", step.pre.SlotsFree ∧ step.post.SlotsFree := by
  have hall : (programSteps 5 stringProgram [] "").all
      (fun step => step.pre.sparesSlots step.event) = true := by decide +kernel
  have hspares : ∀ step ∈ programSteps 5 stringProgram [] "",
      step.pre.SparesSlots step.event :=
    fun step hs => Machine.sparesSlots_sound (List.all_eq_true.mp hall step hs)
  exact ⟨hspares, slots_free 5 stringProgram [] "" hspares⟩

/-- `var a = "x"; { var b = a; }`. Both variables point to the slot that leaving the block
releases. -/
def sharedSlotProgram : AstNode :=
  .root .unknown
    [.varDecl .unknown "a" false (some (.string .unknown "x")),
      .block .unknown [.varDecl .unknown "b" false (some (.identifier .unknown "a"))]]

/-- A bound value whose slot has been released. -/
theorem slot_released : ∃ step ∈ programSteps 5 sharedSlotProgram [] "", ¬ step.post.SlotsFree := by
  have hany : (programSteps 5 sharedSlotProgram [] "").any
      (fun step => step.post.pointsToFree 0 "a") = true := by decide +kernel
  obtain ⟨step, hs, h⟩ := List.any_eq_true.mp hany
  refine ⟨step, hs, fun hfree => ?_⟩
  obtain ⟨hl, h⟩ := Bool.and_eq_true_iff.mp h
  obtain ⟨⟨v, c⟩, hb, h⟩ := (Option.any_eq_true _ _).mp h
  obtain ⟨index, hi, hmem⟩ := (Option.any_eq_true _ _).mp h
  exact hfree.bound v ⟨0, "a", c, hl, hb⟩ index hi (by simpa using hmem)

end Blaze
