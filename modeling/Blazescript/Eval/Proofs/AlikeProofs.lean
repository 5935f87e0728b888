import Blazescript.Eval.Alike
import Blazescript.Scope.Proofs.AlikeProofs
import Blazescript.Eval.Proofs.ReleaseProofs
import Blazescript.Eval.Proofs.ValAllocProofs
import Blazescript.Running.Proofs.RefinesProofs

/-!
# Proofs: states that differ in names

More names keep what is alike alike. A step that allocates, writes or frees the same in two states leaves states that
are alike.
-/

namespace Blaze

open Arena Running

variable {ρ ρ' ρ'' : Naming} {n : Nat} {m m' : Machine} {v v' : Val}

/-! ## Names -/

theorem Naming.Le.refl (ρ : Naming) : ρ.Le ρ :=
  ⟨fun _ _ h => h, fun _ _ h => h, fun _ _ h => h, fun _ _ h => h, fun _ _ h => h, rfl, rfl⟩

theorem Naming.Le.trans (h : ρ.Le ρ') (h' : ρ'.Le ρ'') : ρ.Le ρ'' :=
  ⟨fun _ _ hr => h'.scopes _ _ (h.scopes _ _ hr), fun _ _ hr => h'.fns _ _ (h.fns _ _ hr),
    fun _ _ hr => h'.strings _ _ (h.strings _ _ hr), fun _ _ hr => h'.vectors _ _ (h.vectors _ _ hr),
    fun _ _ hr => h'.slots _ _ (h.slots _ _ hr), h'.printed.trans h.printed, h'.printed'.trans h.printed'⟩

/-- A new scope has a name in both states. -/
def Naming.addScope (ρ : Naming) (s s' : Nat) : Naming := { ρ with scopes := addPair ρ.scopes s s' }

def Naming.addFn (ρ : Naming) (f f' : Nat) : Naming := { ρ with fns := addPair ρ.fns f f' }

def Naming.addString (ρ : Naming) (s s' : Nat) : Naming := { ρ with strings := addPair ρ.strings s s' }

def Naming.addVector (ρ : Naming) (a a' : Nat) : Naming := { ρ with vectors := addPair ρ.vectors a a' }

def Naming.addSlot (ρ : Naming) (i i' : Nat) : Naming := { ρ with slots := addPair ρ.slots i i' }

theorem Naming.le_addScope (ρ : Naming) (s s' : Nat) : ρ.Le (ρ.addScope s s') :=
  ⟨fun _ _ h => .inl h, fun _ _ h => h, fun _ _ h => h, fun _ _ h => h, fun _ _ h => h, rfl, rfl⟩

theorem Naming.le_addFn (ρ : Naming) (f f' : Nat) : ρ.Le (ρ.addFn f f') :=
  ⟨fun _ _ h => h, fun _ _ h => .inl h, fun _ _ h => h, fun _ _ h => h, fun _ _ h => h, rfl, rfl⟩

theorem Naming.le_addString (ρ : Naming) (s s' : Nat) : ρ.Le (ρ.addString s s') :=
  ⟨fun _ _ h => h, fun _ _ h => h, fun _ _ h => .inl h, fun _ _ h => h, fun _ _ h => h, rfl, rfl⟩

theorem Naming.le_addVector (ρ : Naming) (a a' : Nat) : ρ.Le (ρ.addVector a a') :=
  ⟨fun _ _ h => h, fun _ _ h => h, fun _ _ h => h, fun _ _ h => .inl h, fun _ _ h => h, rfl, rfl⟩

theorem Naming.le_addSlot (ρ : Naming) (i i' : Nat) : ρ.Le (ρ.addSlot i i') :=
  ⟨fun _ _ h => h, fun _ _ h => h, fun _ _ h => h, fun _ _ h => h, fun _ _ h => .inl h, rfl, rfl⟩

theorem ValData.Alike.mono {data data' : ValData} (h : data.Alike ρ data') (hle : ρ.Le ρ') : data.Alike ρ' data' := by
  cases h with
  | integer => exact .integer _
  | float => exact .float _ _
  | string h => exact .string (hle.strings _ _ h)
  | function h => exact .function (hle.fns _ _ h)
  | null => exact .null
  | boolean => exact .boolean _
  | array h => exact .array (hle.vectors _ _ h)

theorem Val.Alike.mono (h : v.Alike ρ v') (hle : ρ.Le ρ') : v.Alike ρ' v' :=
  ⟨h.data.mono hle, h.nofree, rel_mono h.selfPtr hle.slots⟩

theorem valsAlike_mono {vs vs' : List Val} (h : List.Forall₂ (Val.Alike ρ) vs vs') (hle : ρ.Le ρ') :
    List.Forall₂ (Val.Alike ρ') vs vs' := h.imp fun _ _ hv => hv.mono hle

theorem FnVal.Alike.mono {fn fn' : FnVal} (h : fn.Alike ρ fn') (hle : ρ.Le ρ') : fn.Alike ρ' fn' :=
  ⟨h.builtInCallback, h.customBody, h.paramNames, rel_mono h.scope hle.scopes⟩

theorem EntryPtr.Alike.mono {val val' : EntryPtr} (h : val.Alike ρ.scopes val') (hle : ρ.Le ρ') :
    val.Alike ρ'.scopes val' := ⟨hle.scopes _ _ h.scope, h.generation, h.index⟩

theorem Locals.Alike.mono {l l' : Locals} (h : l.Alike ρ l') (hle : ρ.Le ρ') : l.Alike ρ' l' := by
  cases h with
  | none => exact .none
  | block => exact .block _ _
  | loop => exact .loop _ _
  | call a a' hargs => exact .call a a' (valsAlike_mono hargs hle)
  | builtin a a' hargs => exact .builtin a a' (valsAlike_mono hargs hle)

theorem FramesAlike.mono {stack stack' : List Frame} (h : FramesAlike ρ n stack stack') (hle : ρ.Le ρ') :
    FramesAlike ρ' n stack stack' := by
  induction n generalizing stack stack' with
  | zero => trivial
  | succ n ih =>
    cases stack with
    | nil => exact h.elim
    | cons frame stack =>
      cases stack' with
      | nil => exact h.elim
      | cons frame' stack' => exact ⟨h.1.mono hle, ih h.2⟩

theorem scopeAlike_mono {scope scope' : Scope Val} (h : scope.Alike ρ.scopes (Val.Alike ρ) scope') (hle : ρ.Le ρ') :
    scope.Alike ρ'.scopes (Val.Alike ρ') scope' :=
  Scope.Alike.mono h hle.scopes fun _ _ hv => hv.mono hle

theorem scopesAlike_mono {r : Nat → Nat → Prop} {h h' : Scopes Val}
    (hh : Heap.Alike r (Scope.Alike ρ.scopes (Val.Alike ρ)) h h') (hle : ρ.Le ρ') :
    Heap.Alike r (Scope.Alike ρ'.scopes (Val.Alike ρ')) h h' := hh.mono fun _ _ hs => scopeAlike_mono hs hle

theorem fnsAlike_mono {r : Nat → Nat → Prop} {h h' : Heap FnVal} (hh : Heap.Alike r (FnVal.Alike ρ) h h')
    (hle : ρ.Le ρ') : Heap.Alike r (FnVal.Alike ρ') h h' := hh.mono fun _ _ hf => hf.mono hle

theorem slotsAlike_mono {slots slots' : List (Option Nat)} (h : List.Forall₂ (Option.Rel ρ.slots) slots slots')
    (hle : ρ.Le ρ') : List.Forall₂ (Option.Rel ρ'.slots) slots slots' := h.imp fun _ _ hs => rel_mono hs hle.slots

theorem vectorsAlike_mono {r : Nat → Nat → Prop} {h h' : Heap (List (Option Nat))}
    (hh : Heap.Alike r (List.Forall₂ (Option.Rel ρ.slots)) h h') (hle : ρ.Le ρ') :
    Heap.Alike r (List.Forall₂ (Option.Rel ρ'.slots)) h h' := hh.mono fun _ _ hs => slotsAlike_mono hs hle

theorem BuiltinsAlike.mono {bs bs' : List (String × Val)} (h : BuiltinsAlike ρ bs bs') (hle : ρ.Le ρ') :
    BuiltinsAlike ρ' bs bs' := h.imp fun _ _ hb => ⟨hb.1, hb.2.mono hle⟩

/-- More names for other things than slots. -/
theorem ValAllocTbl.Alike.mono {tbl tbl' : ValAllocTbl} (h : tbl.Alike ρ tbl') (hle : ρ.Le ρ')
    (hslots : ρ'.slots = ρ.slots) : tbl.Alike ρ' tbl' := by
  refine ⟨hslots ▸ h.pairing, fun {i j} hr => ?_, hslots ▸ h.free⟩
  rw [hslots] at hr
  obtain ⟨v, v', hv, hv', hvv⟩ := h.cells hr
  exact ⟨v, v', hv, hv', hvv.mono hle⟩

/-! ## Allocation -/

namespace Machine.Alike

variable (h : m.Alike ρ n m')
include h

theorem addScope {scope scope' : Scope Val} (hs : scope.Alike ρ.scopes (Val.Alike ρ) scope') :
    ({ m with scopes := m.scopes.alloc scope } : Machine).Alike (ρ.addScope m.scopes.size m'.scopes.size) n
      { m' with scopes := m'.scopes.alloc scope' } := by
  have hle := ρ.le_addScope m.scopes.size m'.scopes.size
  obtain ⟨hparent, hparent'⟩ : (∀ p, scope.parent = some p → p < m.scopes.size) ∧
      ∀ p, scope'.parent = some p → p < m'.scopes.size := by
    rcases rel_cases hs.parent with ⟨hnone, hnone'⟩ | ⟨q, q', hq, hq', hqq⟩
    · simp [hnone, hnone']
    · rw [hq, hq']
      refine ⟨fun p hp => ?_, fun p hp => ?_⟩
      · exact Option.some.inj hp ▸ (h.scopes.lt hqq).1
      · exact Option.some.inj hp ▸ (h.scopes.lt hqq).2
  exact
    { scopes := (scopesAlike_mono h.scopes hle).alloc (scopeAlike_mono hs hle)
      rooted := alloc_rooted _ _ h.rooted hparent
      rooted' := alloc_rooted _ _ h.rooted' hparent'
      fns := fnsAlike_mono h.fns hle
      strings := h.strings
      vectors := h.vectors
      tbl := h.tbl.mono hle rfl
      builtins := h.builtins.mono hle
      frames := h.frames.mono hle
      evalFnError := h.evalFnError
      stdin := h.stdin
      strerror := h.strerror
      stdout := h.stdout }

theorem addFn {fn fn' : FnVal} (hf : fn.Alike ρ fn') :
    ({ m with fns := m.fns.alloc fn } : Machine).Alike (ρ.addFn m.fns.size m'.fns.size) n
      { m' with fns := m'.fns.alloc fn' } := by
  have hle := ρ.le_addFn m.fns.size m'.fns.size
  exact
    { scopes := scopesAlike_mono h.scopes hle
      rooted := h.rooted
      rooted' := h.rooted'
      fns := (fnsAlike_mono h.fns hle).alloc (hf.mono hle)
      strings := h.strings
      vectors := h.vectors
      tbl := h.tbl.mono hle rfl
      builtins := h.builtins.mono hle
      frames := h.frames.mono hle
      evalFnError := h.evalFnError
      stdin := h.stdin
      strerror := h.strerror
      stdout := h.stdout }

theorem addString (s : String) :
    ({ m with store := { m.store with strings := m.store.strings.alloc s } } : Machine).Alike
      (ρ.addString m.store.strings.size m'.store.strings.size) n
      { m' with store := { m'.store with strings := m'.store.strings.alloc s } } := by
  have hle := ρ.le_addString m.store.strings.size m'.store.strings.size
  exact
    { scopes := scopesAlike_mono h.scopes hle
      rooted := h.rooted
      rooted' := h.rooted'
      fns := fnsAlike_mono h.fns hle
      strings := h.strings.alloc rfl
      vectors := h.vectors
      tbl := h.tbl.mono hle rfl
      builtins := h.builtins.mono hle
      frames := h.frames.mono hle
      evalFnError := h.evalFnError
      stdin := h.stdin
      strerror := h.strerror
      stdout := h.stdout }

theorem addVector :
    ({ m with store := { m.store with vectors := m.store.vectors.alloc [] } } : Machine).Alike
      (ρ.addVector m.store.vectors.size m'.store.vectors.size) n
      { m' with store := { m'.store with vectors := m'.store.vectors.alloc [] } } := by
  have hle := ρ.le_addVector m.store.vectors.size m'.store.vectors.size
  exact
    { scopes := scopesAlike_mono h.scopes hle
      rooted := h.rooted
      rooted' := h.rooted'
      fns := fnsAlike_mono h.fns hle
      strings := h.strings
      vectors := h.vectors.alloc .nil
      tbl := h.tbl.mono hle rfl
      builtins := h.builtins.mono hle
      frames := h.frames.mono hle
      evalFnError := h.evalFnError
      stdin := h.stdin
      strerror := h.strerror
      stdout := h.stdout }

end Machine.Alike

/-! ## Slots -/

/-- The slot that is handed out has no name, if none on the free list has. -/
theorem ValAllocTbl.alloc_unnamed {tbl : ValAllocTbl} (named : Nat → Prop)
    (hhead : ∀ i ∈ tbl.head, i < tbl.values.length ∧ ¬ named i) (hnodup : tbl.head.Nodup)
    (hnamed : ∀ i, named i → i < tbl.values.length) :
    ¬ named tbl.alloc.1 ∧ (tbl.alloc.1 < tbl.values.length ∨ tbl.head = []) ∧ tbl.alloc.1 ∉ tbl.head.tail := by
  rcases tbl.alloc_cases with ⟨i, next, heq, hi, -, -⟩ | ⟨heq, hi, -, -⟩
  · rw [heq] at hhead hnodup
    obtain ⟨hlt, hno⟩ := hhead i List.mem_cons_self
    rw [hi, heq]
    exact ⟨hno, .inl hlt, (List.nodup_cons.mp hnodup).1⟩
  · rw [hi, heq]
    exact ⟨fun hno => Nat.lt_irrefl _ (hnamed _ hno), .inr rfl, List.not_mem_nil⟩

section Slots

variable {tbl tbl' : ValAllocTbl} {data data' : ValData} {i j : Nat}

theorem ValAllocTbl.Alike.lt (h : tbl.Alike ρ tbl') (hr : ρ.slots i j) :
    i < tbl.values.length ∧ j < tbl'.values.length := by
  obtain ⟨v, v', hv, hv', -⟩ := h.cells hr
  exact ⟨(List.getElem?_eq_some_iff.mp hv).1, (List.getElem?_eq_some_iff.mp hv').1⟩

/-- The slots that are handed out are both free for new names, or have been freed together. -/
theorem ValAllocTbl.Alike.alloc (h : tbl.Alike ρ tbl') :
    Pairing (addPair ρ.slots tbl.alloc.1 tbl'.alloc.1) ∧
      (tbl.alloc.1 < tbl.values.length ∨ tbl.head = []) ∧ (tbl'.alloc.1 < tbl'.values.length ∨ tbl'.head = []) ∧
      ∀ n n', tbl.values.length ≤ n → tbl'.values.length ≤ n' →
        FreeAlike (addPair ρ.slots tbl.alloc.1 tbl'.alloc.1) n n' tbl.head.tail tbl'.head.tail := by
  obtain ⟨freed, rest, freed', rest', hsplit, hsplit', hfreed, hnodup, hnodup', hrest, hrest'⟩ := h.free.split
  cases hfreed with
  | @cons i j freed freed' hij hfreed =>
    have hi : tbl.alloc.1 = i := by
      unfold ValAllocTbl.alloc
      rw [hsplit]
      rfl
    have hj : tbl'.alloc.1 = j := by
      unfold ValAllocTbl.alloc
      rw [hsplit']
      rfl
    rw [hi, hj, addPair_eq hij]
    refine ⟨h.pairing, .inl (h.lt hij).1, .inl (h.lt hij).2,
      fun n n' hn hn' => ⟨freed, rest, freed', rest', ?_, ?_, hfreed,
      hnodup, hnodup', fun k hk => ⟨(hrest k hk).1.trans_le hn, (hrest k hk).2⟩,
      fun k hk => ⟨(hrest' k hk).1.trans_le hn', (hrest' k hk).2⟩⟩⟩
    · rw [hsplit]
      rfl
    · rw [hsplit']
      rfl
  | nil =>
    rw [List.nil_append] at hsplit hsplit'
    subst hsplit hsplit'
    obtain ⟨hno, hhere, hnot⟩ := ValAllocTbl.alloc_unnamed (fun i => ∃ j, ρ.slots i j)
      (fun k hk => ⟨(hrest k hk).1, fun ⟨l, hl⟩ => (hrest k hk).2 l hl⟩) hnodup fun k ⟨l, hl⟩ => (h.lt hl).1
    obtain ⟨hno', hhere', hnot'⟩ := ValAllocTbl.alloc_unnamed (fun j => ∃ i, ρ.slots i j)
      (fun k hk => ⟨(hrest' k hk).1, fun ⟨l, hl⟩ => (hrest' k hk).2 l hl⟩) hnodup' fun k ⟨l, hl⟩ => (h.lt hl).2
    refine ⟨h.pairing.add (fun l hl => hno ⟨l, hl⟩) (fun l hl => hno' ⟨l, hl⟩), hhere, hhere', fun n n' hn hn' =>
      ⟨[], _, [], _, rfl, rfl, .nil, hnodup.tail, hnodup'.tail, fun k hk => ?_, fun k hk => ?_⟩⟩
    · obtain ⟨hlt, hk'⟩ := hrest k (List.mem_of_mem_tail hk)
      refine ⟨hlt.trans_le hn, fun l hl => ?_⟩
      rcases hl with hl | ⟨rfl, -⟩
      · exact hk' l hl
      · exact hnot hk
    · obtain ⟨hlt, hk'⟩ := hrest' k (List.mem_of_mem_tail hk)
      refine ⟨hlt.trans_le hn', fun l hl => ?_⟩
      rcases hl with hl | ⟨-, rfl⟩
      · exact hk' l hl
      · exact hnot' hk

theorem ValAllocTbl.Alike.create (h : tbl.Alike ρ tbl') (hd : data.Alike ρ data') :
    (tbl.create data).2.Alike (ρ.addSlot tbl.alloc.1 tbl'.alloc.1) (tbl'.create data').2 ∧
      (tbl.create data).1.Alike (ρ.addSlot tbl.alloc.1 tbl'.alloc.1) (tbl'.create data').1 := by
  have hle := ρ.le_addSlot tbl.alloc.1 tbl'.alloc.1
  have hnew : (tbl.create data).1.Alike (ρ.addSlot tbl.alloc.1 tbl'.alloc.1) (tbl'.create data').1 :=
    ⟨hd.mono hle, rfl, .some (addPair_self ..)⟩
  obtain ⟨hhead, -, hlen, hcell, hkept⟩ := tbl.create_spec data
  obtain ⟨hhead', -, hlen', hcell', hkept'⟩ := tbl'.create_spec data'
  obtain ⟨hpairing, hhere, hhere', hfree⟩ := h.alloc
  refine ⟨⟨hpairing, fun {k l} hr => ?_, ?_⟩, hnew⟩
  · by_cases hk : k = tbl.alloc.1
    · subst hk
      obtain rfl : l = tbl'.alloc.1 := hpairing.right hr (addPair_self ..)
      exact ⟨_, _, hcell hhere, hcell' hhere', hnew⟩
    · have hl : l ≠ tbl'.alloc.1 := by
        rintro rfl
        exact hk (hpairing.left hr (addPair_self ..))
      have hold : ρ.slots k l := hr.resolve_right fun hkl => hk hkl.1
      obtain ⟨hlt, hlt'⟩ := h.lt hold
      obtain ⟨v, v', hv, hv', hvv⟩ := h.cells hold
      refine ⟨v, v', ?_, ?_, hvv.mono hle⟩
      · exact ((hkept k hk).resolve_right (Nat.not_le.mpr hlt)).trans hv
      · exact ((hkept' l hl).resolve_right (Nat.not_le.mpr hlt')).trans hv'
  · rw [hhead, hhead']
    exact hfree _ _ hlen hlen'

theorem ValAllocTbl.Alike.pushFree (h : tbl.Alike ρ tbl') (hij : ρ.slots i j) :
    (tbl.pushFree i).Alike ρ (tbl'.pushFree j) := by
  obtain ⟨freed, rest, freed', rest', hsplit, hsplit', hfreed, hrest⟩ := h.free.split
  refine ⟨h.pairing, h.cells, ⟨i :: freed, rest, j :: freed', rest', ?_, ?_, .cons hij hfreed, hrest⟩⟩
  · exact congrArg (i :: ·) hsplit
  · exact congrArg (j :: ·) hsplit'

theorem ValAllocTbl.Alike.store (h : tbl.Alike ρ tbl') (hij : ρ.slots i j) (hv : v.Alike ρ v') :
    (tbl.store i v).Alike ρ (tbl'.store j v') := by
  obtain ⟨hlt, hlt'⟩ := h.lt hij
  refine ⟨h.pairing, fun {k l} hr => ?_, ?_⟩
  · show ∃ u u', (tbl.values.set i v)[k]? = some u ∧ (tbl'.values.set j v')[l]? = some u' ∧ u.Alike ρ u'
    by_cases hk : i = k
    · subst hk
      obtain rfl := h.pairing.right hij hr
      rw [List.getElem?_set_self hlt, List.getElem?_set_self hlt']
      exact ⟨v, v', rfl, rfl, hv⟩
    · have hl : j ≠ l := by
        rintro rfl
        exact hk (h.pairing.left hij hr)
      rw [List.getElem?_set_ne hk, List.getElem?_set_ne hl]
      exact h.cells hr
  · show FreeAlike ρ.slots (tbl.values.set i v).length (tbl'.values.set j v').length tbl.head tbl'.head
    rw [List.length_set, List.length_set]
    exact h.free

end Slots

theorem Machine.Alike.addSlot (h : m.Alike ρ n m') {data data' : ValData} (hd : data.Alike ρ data') :
    ({ m with tbl := (m.tbl.create data).2 } : Machine).Alike (ρ.addSlot m.tbl.alloc.1 m'.tbl.alloc.1) n
      { m' with tbl := (m'.tbl.create data').2 } := by
  have hle := ρ.le_addSlot m.tbl.alloc.1 m'.tbl.alloc.1
  exact
    { scopes := scopesAlike_mono h.scopes hle
      rooted := h.rooted
      rooted' := h.rooted'
      fns := fnsAlike_mono h.fns hle
      strings := h.strings
      vectors := vectorsAlike_mono h.vectors hle
      tbl := (h.tbl.create hd).1
      builtins := h.builtins.mono hle
      frames := h.frames.mono hle
      evalFnError := h.evalFnError
      stdin := h.stdin
      strerror := h.strerror
      stdout := h.stdout }

/-! ## Tests -/

theorem pairsOnce_sound {pairs : List (Nat × Nat)} (h : pairsOnce pairs = true) :
    Pairing fun i j => (i, j) ∈ pairs := by
  have hiff : ∀ p ∈ pairs, ∀ q ∈ pairs, p.1 = q.1 ↔ p.2 = q.2 := fun p hp q hq =>
    of_decide_eq_true (List.all_eq_true.mp (List.all_eq_true.mp h p hp) q hq)
  exact ⟨fun hp hq => (hiff _ hp _ hq).mp rfl, fun hp hq => (hiff _ hp _ hq).mpr rfl⟩

theorem mem_pairs {pairs : List (Nat × Nat)} {i j : Nat} (h : pairs.contains (i, j) = true) : (i, j) ∈ pairs :=
  List.contains_iff_mem.mp h

section Tests

variable {α β : Type} {test : α → β → Bool} {R : α → β → Prop} (hR : ∀ a b, test a b = true → R a b)
include hR

theorem optionsAlike_sound {o : Option α} {o' : Option β} (h : optionsAlike test o o' = true) : Option.Rel R o o' := by
  cases o with
  | none =>
    cases o' with
    | none => exact .none
    | some b => cases h
  | some a =>
    cases o' with
    | none => cases h
    | some b => exact .some (hR a b h)

theorem listsAlike_sound {l : List α} : ∀ {l' : List β}, listsAlike test l l' = true → List.Forall₂ R l l' := by
  induction l with
  | nil =>
    intro l' h
    cases l' with
    | nil => exact .nil
    | cons b l' => cases h
  | cons a l ih =>
    intro l' h
    cases l' with
    | nil => cases h
    | cons b l' =>
      obtain ⟨hab, hl⟩ := Bool.and_eq_true_iff.mp h
      exact .cons (hR a b hab) (ih hl)

/-- What there is in both. -/
theorem exists_of_optionsAlike {o : Option α} {o' : Option β} (hsome : o.isSome = true)
    (h : optionsAlike test o o' = true) : ∃ a b, o = some a ∧ o' = some b ∧ R a b := by
  rcases rel_cases (optionsAlike_sound hR h) with ⟨rfl, -⟩ | hab
  · cases hsome
  · exact hab

theorem heapsAlike_sound {pairs : List (Nat × Nat)} {h : Heap α} {h' : Heap β} (hh : heapsAlike test pairs h h' = true) :
    Heap.Alike (fun i j => (i, j) ∈ pairs) R h h' := by
  obtain ⟨honce, hall⟩ := Bool.and_eq_true_iff.mp hh
  refine ⟨pairsOnce_sound honce, fun hr => ?_, fun hr => ?_⟩
  · obtain ⟨htest, -⟩ := Bool.and_eq_true_iff.mp (List.all_eq_true.mp hall _ hr)
    exact of_decide_eq_true (Bool.and_eq_true_iff.mp htest).1
  · obtain ⟨htest, hcontent⟩ := Bool.and_eq_true_iff.mp (List.all_eq_true.mp hall _ hr)
    exact exists_of_optionsAlike hR (Bool.and_eq_true_iff.mp htest).2 hcontent

end Tests

section Machines

variable {scopes fns slots : List (Nat × Nat)} {printed printed' : List Output}

theorem valsAlike_sound {v v' : Val} (h : valsAlike fns slots v v' = true) :
    v.Alike (.ofPairs scopes fns slots printed printed') v' := by
  obtain ⟨h, hdata⟩ := Bool.and_eq_true_iff.mp h
  obtain ⟨hnofree, hself⟩ := Bool.and_eq_true_iff.mp h
  refine ⟨?_, of_decide_eq_true hnofree, optionsAlike_sound (fun _ _ => mem_pairs) hself⟩
  generalize v.data = data at hdata ⊢
  generalize v'.data = data' at hdata ⊢
  cases data <;> cases data' <;> first | cases hdata | skip
  · obtain rfl := of_decide_eq_true hdata
    exact .integer _
  · exact .function (mem_pairs hdata)
  · exact .null
  · obtain rfl := of_decide_eq_true hdata
    exact .boolean _

theorem scopesAlike_sound {scope scope' : Scope Val} (h : scopesAlike scopes fns slots scope scope' = true) :
    scope.Alike (fun i j => (i, j) ∈ scopes) (Val.Alike (.ofPairs scopes fns slots printed printed')) scope' := by
  simp only [scopesAlike, Bool.and_eq_true, decide_eq_true_eq] at h
  obtain ⟨⟨⟨⟨⟨⟨hparent, harray⟩, helements⟩, hgeneration⟩, hmode⟩, hunique⟩, hprev⟩ := h
  have hentry : ∀ e e' : ValmapEntry Val, (decide (e.key = e'.key) && valsAlike fns slots e.value e'.value &&
      decide (e.isConst = e'.isConst)) = true →
      ValmapEntry.Alike (Val.Alike (.ofPairs scopes fns slots printed printed')) e e' := by
    intro e e' he
    simp only [Bool.and_eq_true, decide_eq_true_eq] at he
    exact ⟨he.1.1, valsAlike_sound he.1.2, he.2⟩
  exact ⟨optionsAlike_sound (fun _ _ => mem_pairs) hparent,
    ⟨listsAlike_sound (fun _ _ hslot => optionsAlike_sound hentry hslot) harray, helements, hgeneration⟩, hmode, hunique,
    hprev⟩

theorem bodiesAlike_sound {body body' : List AstNode} (h : bodiesAlike body body' = true) : body = body' := by
  unfold bodiesAlike at h
  split at h
  · rfl
  · obtain ⟨rfl, rfl⟩ := of_decide_eq_true h
    rfl
  · cases h

theorem fnsAlike_sound {fn fn' : FnVal} (h : fnsAlike scopes fn fn' = true) :
    fn.Alike (.ofPairs scopes fns slots printed printed') fn' := by
  simp only [fnsAlike, Bool.and_eq_true, decide_eq_true_eq] at h
  obtain ⟨⟨⟨hcallback, hbody⟩, hparams⟩, hscope⟩ := h
  exact ⟨hcallback, bodiesAlike_sound hbody, hparams, optionsAlike_sound (fun _ _ => mem_pairs) hscope⟩

theorem tblsAlike_sound {tbl tbl' : ValAllocTbl} (h : tblsAlike fns slots tbl tbl' = true) :
    tbl.Alike (.ofPairs scopes fns slots printed printed') tbl' := by
  simp only [tblsAlike, Bool.and_eq_true, List.all_eq_true, List.isEmpty_iff] at h
  obtain ⟨⟨⟨honce, hhead⟩, hhead'⟩, hall⟩ := h
  refine ⟨pairsOnce_sound honce, fun {i j} hr => ?_, ⟨[], [], [], [], hhead, hhead', .nil, .nil, .nil, ?_, ?_⟩⟩
  · obtain ⟨hsome, hvals⟩ := hall (i, j) hr
    exact exists_of_optionsAlike (fun _ _ hv => valsAlike_sound hv) hsome hvals
  · exact fun i hi => absurd hi List.not_mem_nil
  · exact fun i hi => absurd hi List.not_mem_nil

theorem callsPlainly_sound {ρ : Naming} {stack stack' : List Frame} (h : callsPlainly stack = true)
    (h' : callsPlainly stack' = true) : FramesAlike ρ 1 stack stack' := by
  unfold callsPlainly at h h'
  split at h
  · split at h'
    · exact ⟨.call _ _ .nil, trivial⟩
    · cases h'
  · cases h

/-- Two states for which the test succeeds are alike, whatever they have printed before. -/
theorem machinesAlike_sound {m m' : Machine} (hr : Rooted m.env.parent) (hr' : Rooted m'.env.parent)
    (h : machinesAlike scopes fns slots m m' = true) :
    m.Alike (.ofPairs scopes fns slots m.store.stdout m'.store.stdout) 1 m' := by
  simp only [machinesAlike, Bool.and_eq_true, decide_eq_true_eq] at h
  obtain ⟨⟨⟨⟨⟨⟨⟨⟨hscopes, hfns⟩, htbl⟩, hbuiltins⟩, hstack⟩, hstack'⟩, herror⟩, hstdin⟩, hstrerror⟩ := h
  exact
    { scopes := heapsAlike_sound (fun _ _ hs => scopesAlike_sound hs) hscopes
      rooted := hr
      rooted' := hr'
      fns := heapsAlike_sound (fun _ _ hf => fnsAlike_sound hf) hfns
      strings := ⟨⟨fun h _ => h.elim, fun h _ => h.elim⟩, fun h => h.elim, fun h => h.elim⟩
      vectors := ⟨⟨fun h _ => h.elim, fun h _ => h.elim⟩, fun h => h.elim, fun h => h.elim⟩
      tbl := tblsAlike_sound htbl
      builtins := listsAlike_sound (fun b b' hb => by
        obtain ⟨hname, hv⟩ := Bool.and_eq_true_iff.mp hb
        exact ⟨of_decide_eq_true hname, valsAlike_sound hv⟩) hbuiltins
      frames := callsPlainly_sound hstack hstack'
      evalFnError := herror
      stdin := hstdin
      strerror := hstrerror
      stdout := ⟨[], (List.append_nil _).symm, (List.append_nil _).symm⟩ }

end Machines

end Blaze
