import Blazescript.Eval.Elements
import Blazescript.Eval.Proofs.CopyingProofs
import Blazescript.Eval.Proofs.ValueProofs

/-!
# Proofs: the elements of arrays

A vector that is being filled and the slots in it are left alone by every evaluation, so an array says what its
elements said, except for arrays in it.
-/

namespace Blaze

open Arena Running Tracing

variable {m m' : Machine} {a : Nat} {slots : List (Option Nat)} {index : Nat} {v : Val} {text : String}

/-! ## Slots -/

/-- Where a new value is put: into a slot of the free list, or into a new one. -/
theorem create_ne_of_unlisted {tbl : ValAllocTbl} {index : Nat} (hlt : index < tbl.values.length)
    (hi : index ∉ tbl.head) : index ≠ tbl.alloc.1 := by
  obtain ⟨-, hslot, -⟩ := tbl.create_spec .null
  rintro rfl
  rcases hslot with hmem | ⟨-, hlength⟩
  · exact hi (List.mem_of_mem_head? hmem)
  · omega

theorem cell_create {tbl : ValAllocTbl} {data : ValData} (hlt : index < tbl.values.length) (hi : index ∉ tbl.head) :
    (tbl.create data).2.values[index]? = tbl.values[index]? := by
  obtain ⟨-, -, -, -, hkept⟩ := tbl.create_spec data
  rcases hkept index (create_ne_of_unlisted hlt hi) with h | h
  · exact h
  · omega

theorem cell_lt {tbl : ValAllocTbl} (h : tbl.values[index]? = some v) : index < tbl.values.length :=
  (List.getElem?_eq_some_iff.mp h).1

/-- The block is reallocated only if the table grows. -/
theorem create_capacity {tbl : ValAllocTbl} (h : ¬ tbl.Grows) (data : ValData) :
    (tbl.create data).2.capacity = tbl.capacity := by
  show tbl.alloc.2.capacity = tbl.capacity
  unfold ValAllocTbl.Grows at h
  unfold ValAllocTbl.alloc
  cases hh : tbl.head with
  | cons index next => rfl
  | nil =>
    have hroom : tbl.values.length < tbl.capacity - 1 := by
      by_contra hfull
      exact h ⟨hh, hfull⟩
    dsimp only
    unfold ValAllocTbl.resize
    rw [if_pos hroom]

theorem newSlot_capacity {data : ValData} {w w' : World Machine Event} (hroom : ¬ w.state.tbl.Grows)
    (h : newSlot data w = .ok v w') : w'.state.tbl.capacity = w.state.tbl.capacity := by
  cases h
  exact create_capacity hroom data

theorem copyFn_capacity {orig : Nat} {fn : FnVal} {body : List AstNode} {w w' : World Machine Event}
    (hroom : ¬ w.state.tbl.Grows) (h : copyFn orig fn body w = .ok v w') :
    w'.state.tbl.capacity = w.state.tbl.capacity := by
  obtain ⟨event, hf⟩ := perform_eq_ok h
  have hcapacity := create_capacity hroom (.function w.state.fns.size)
  cases hcallback : fn.builtInCallback with
  | some callback =>
    simp only [hcallback, Option.some.injEq, Prod.mk.injEq] at hf
    rw [← hf.2.2]
    exact hcapacity
  | none =>
    simp only [hcallback, Option.some.injEq, Prod.mk.injEq] at hf
    rw [← hf.2.2]
    exact hcapacity

/-- A copy takes one slot at most. -/
theorem valCopyDeep_capacity {copy : Val} {w w' : World Machine Event} (hroom : ¬ w.state.tbl.Grows)
    (h : valCopyDeep v w = .ok copy w') : w'.state.tbl.capacity = w.state.tbl.capacity := by
  unfold valCopyDeep at h
  cases hd : v.data with
  | null =>
    rw [hd] at h
    cases h
    rfl
  | string s =>
    rw [hd] at h
    obtain ⟨text, w₁, hread, hcopy⟩ := bind_eq_ok h
    obtain ⟨-, hw₁⟩ := readOrThrow_eq_ok hread
    rw [hw₁] at hcopy
    obtain ⟨s', w₂, hstring, hslot⟩ := bind_eq_ok hcopy
    cases hstring
    have hcapacity := newSlot_capacity (by exact hroom) hslot
    exact hcapacity
  | array a =>
    rw [hd] at h
    obtain ⟨a', w₁, hvector, hslot⟩ := bind_eq_ok h
    cases hvector
    have hcapacity := newSlot_capacity (by exact hroom) hslot
    exact hcapacity
  | function f =>
    rw [hd] at h
    obtain ⟨fn, w₁, hread, hcopy⟩ := bind_eq_ok h
    obtain ⟨-, hw₁⟩ := readOrThrow_eq_ok hread
    rw [hw₁] at hcopy
    cases hcallback : fn.builtInCallback with
    | some callback =>
      rw [hcallback] at hcopy
      exact copyFn_capacity hroom hcopy
    | none =>
      rw [hcallback] at hcopy
      obtain ⟨body, w₂, hbody, hcopy'⟩ := bind_eq_ok hcopy
      unfold copyBody at hbody
      cases hcopies : parserAstDeepCopyAll fn.customBody with
      | ok copies =>
        rw [hcopies] at hbody
        cases hbody
        exact copyFn_capacity hroom hcopy'
      | error msg =>
        rw [hcopies] at hbody
        cases hbody
  | integer | float | boolean =>
    rw [hd] at h
    exact newSlot_capacity hroom h

/-- Another slot is emptied. -/
theorem cell_clear {tbl : ValAllocTbl} {j i : Nat} {u : Val} (hj : j ≠ i) :
    (tbl.store j u).values[i]? = tbl.values[i]? := List.getElem?_set_ne hj

theorem cell_of_clear {tbl : ValAllocTbl} {j i : Nat} {u u' : Val} (h : (tbl.store j u).values[i]? = some u') :
    tbl.values[i]? = some u' ∨ u' = u := by
  have hset : (tbl.values.set j u)[i]? = some u' := h
  by_cases hj : j = i
  · rw [hj, List.getElem?_set, if_pos rfl] at hset
    by_cases hlt : i < tbl.values.length
    · rw [if_pos hlt] at hset
      exact .inr (Option.some.inj hset).symm
    · rw [if_neg hlt] at hset
      cases hset
  · rw [List.getElem?_set_ne hj] at hset
    exact .inl hset

/-! ## A vector that is being filled -/

/-- No elementary change, but for a new element, concerns a vector that no slot holds. -/
theorem unslotted_invariant (a : Nat) (slots : List (Option Nat)) :
    Invariant (fun m => m.Unslotted a slots) (fun _ => True) (fun _ => True) (fun b => b ≠ a) where
  named _ _ _ _ := trivial
  plain _ _ := trivial
  string _ _ := trivial
  slot _ _ _ := trivial
  vector m hm := (Heap.lt_of_peek (Heap.read_eq_some.mp hm.read).2).ne'
  change m m' hm hc := by
    have hlt := Heap.lt_of_peek (Heap.read_eq_some.mp hm.read).2
    cases hc with
    | frame htbl hstrings hvectors hv =>
      exact ⟨hvectors ▸ hm.read, fun index v h => hm.cells index v (htbl ▸ h)⟩
    | string text => exact ⟨hm.read, hm.cells⟩
    | vector => exact ⟨Heap.read_alloc.trans ((if_neg hlt.ne).trans hm.read), hm.cells⟩
    | push b slots' slot hb hread => exact ⟨Heap.read_write.trans ((if_neg (Ne.symm hb)).trans hm.read), hm.cells⟩
    | slot data hs ha =>
      refine ⟨hm.read, fun index v h => ?_⟩
      rcases ValAllocTbl.create_values h with h | ⟨-, rfl⟩
      · exact hm.cells index v h
      · intro hdata
        exact (ha a hdata).1 rfl
    | list => exact ⟨hm.read, hm.cells⟩
    | freeString => exact ⟨hm.read, hm.cells⟩
    | freeVector j b u u' hv hp hu hb =>
      have hne : a ≠ b := fun he => hm.cells j u' hu (he ▸ hb)
      exact ⟨Heap.read_free.trans ((if_neg hne).trans hm.read), hm.cells⟩
    | clear j u u' hv hp hu =>
      refine ⟨hm.read, fun index v h => ?_⟩
      rcases cell_of_clear h with h | rfl
      · exact hm.cells index v h
      · rw [hu]
        exact fun he => ValData.noConfusion he

/-- A new vector. -/
theorem vectorInit_unslotted {w w' : World Machine Event} (ht : w.state.Tidy) (h : vectorInit w = .ok a w') :
    w'.state.Unslotted a [] := by
  cases h
  refine ⟨Heap.read_alloc.trans (if_pos rfl), fun index v hv hdata => ?_⟩
  exact absurd (ht.vectors index _ v hv hdata) (Nat.lt_irrefl _)

/-! ## A slot of an element -/

/-- No elementary change concerns a slot that nothing but vectors points to. -/
theorem sealed_invariant (index : Nat) (v : Val) (text : String) :
    Invariant (fun m => m.Sealed index v text) (fun u => u.selfPtr ≠ some index) (fun s => v.data ≠ .string s)
      (fun a => v.data ≠ .array a) where
  named _ u hm hu := hm.unnamed u hu
  plain u hu := by
    rw [hu]
    exact (Option.some_ne_none index).symm
  string m hm hs := absurd (Heap.lt_of_peek (Heap.read_eq_some.mp (hm.string _ hs).1).2) (Nat.lt_irrefl _)
  vector m hm ha := absurd (Heap.lt_of_peek (Heap.read_eq_some.mp (hm.vector _ ha).1).2) (Nat.lt_irrefl _)
  slot m data hm h := create_ne_of_unlisted (cell_lt hm.cell) hm.unlisted (Option.some.inj h).symm
  change m m' hm hc := by
    cases hc with
    | frame htbl hstrings hvectors hv =>
      refine ⟨htbl ▸ hm.cell, htbl ▸ hm.unlisted, hv, ?_, ?_⟩
      · rw [hstrings, htbl]
        exact hm.string
      · rw [hvectors, htbl]
        exact hm.vector
    | string text' =>
      refine ⟨hm.cell, hm.unlisted, hm.unnamed, fun s hs => ⟨?_, (hm.string s hs).2⟩, hm.vector⟩
      have hread := (hm.string s hs).1
      have hne := (Heap.lt_of_peek (Heap.read_eq_some.mp hread).2).ne
      exact Heap.read_alloc.trans ((if_neg hne).trans hread)
    | vector =>
      refine ⟨hm.cell, hm.unlisted, hm.unnamed, hm.string, fun a ha => ⟨?_, (hm.vector a ha).2⟩⟩
      have hread := (hm.vector a ha).1
      have hne := (Heap.lt_of_peek (Heap.read_eq_some.mp hread).2).ne
      exact Heap.read_alloc.trans ((if_neg hne).trans hread)
    | push b slots' slot hb hread =>
      refine ⟨hm.cell, hm.unlisted, hm.unnamed, hm.string, fun a ha => ⟨?_, (hm.vector a ha).2⟩⟩
      have hne : a ≠ b := fun he => hb (he ▸ ha)
      exact Heap.read_write.trans ((if_neg hne).trans (hm.vector a ha).1)
    | slot data hs ha =>
      have hhead : (m.tbl.create data).2.head = m.tbl.head.tail := (m.tbl.create_spec data).1
      refine ⟨(cell_create (cell_lt hm.cell) hm.unlisted).trans hm.cell, ?_, hm.unnamed, fun s hs' => ?_, fun a ha' => ?_⟩
      · show index ∉ (m.tbl.create data).2.head
        rw [hhead]
        exact fun hmem => hm.unlisted (List.mem_of_mem_tail hmem)
      · refine ⟨(hm.string s hs').1, fun j u hu hdata => ?_⟩
        rcases ValAllocTbl.create_values hu with hu | ⟨-, rfl⟩
        · exact (hm.string s hs').2 j u hu hdata
        · exact absurd hs' (hs s hdata).1
      · refine ⟨(hm.vector a ha').1, fun j u hu hdata => ?_⟩
        rcases ValAllocTbl.create_values hu with hu | ⟨-, rfl⟩
        · exact (hm.vector a ha').2 j u hu hdata
        · exact absurd ha' (ha a hdata).1
    | list j u hu hp =>
      refine ⟨hm.cell, fun hmem => ?_, hm.unnamed, hm.string, hm.vector⟩
      rcases List.mem_cons.mp hmem with rfl | hmem
      · exact hu hp
      · exact hm.unlisted hmem
    | freeString j s u u' hu hp hcell hs =>
      refine ⟨hm.cell, hm.unlisted, hm.unnamed, fun s' hs' => ⟨?_, (hm.string s' hs').2⟩, hm.vector⟩
      have hne : s' ≠ s := by
        rintro rfl
        obtain rfl := (hm.string s' hs').2 j u' hcell hs
        exact hu hp
      exact Heap.read_free.trans ((if_neg hne).trans (hm.string s' hs').1)
    | freeVector j a u u' hu hp hcell ha =>
      refine ⟨hm.cell, hm.unlisted, hm.unnamed, hm.string, fun a' ha' => ⟨?_, (hm.vector a' ha').2⟩⟩
      have hne : a' ≠ a := by
        rintro rfl
        obtain rfl := (hm.vector a' ha').2 j u' hcell ha
        exact hu hp
      exact Heap.read_free.trans ((if_neg hne).trans (hm.vector a' ha').1)
    | clear j u u' hu hp hnull =>
      have hj : j ≠ index := fun he => hu (he ▸ hp)
      refine ⟨(cell_clear hj).trans hm.cell, hm.unlisted, hm.unnamed, fun s hs => ?_, fun a ha => ?_⟩
      · refine ⟨(hm.string s hs).1, fun i w hw hdata => ?_⟩
        rcases cell_of_clear hw with hw | rfl
        · exact (hm.string s hs).2 i w hw hdata
        · rw [hnull] at hdata
          cases hdata
      · refine ⟨(hm.vector a ha).1, fun i w hw hdata => ?_⟩
        rcases cell_of_clear hw with hw | rfl
        · exact (hm.vector a ha).2 i w hw hdata
        · rw [hnull] at hdata
          cases hdata

variable {data : ValData} {copy : Val} {c : Content} {w w' : World Machine Event}

/-- A new value is sealed if nothing else holds its string or its vector. -/
theorem created_sealed (ht : m.Tidy)
    (hs : ∀ s, data = .string s → m.store.strings.read s = some text ∧
      ∀ (j : Nat) (u : Val), m.tbl.values[j]? = some u → u.data ≠ .string s)
    (ha : ∀ a, data = .array a → m.store.vectors.read a = some [] ∧
      ∀ (j : Nat) (u : Val), m.tbl.values[j]? = some u → u.data ≠ .array a) :
    ({ m with tbl := (m.tbl.create data).2, result := (m.tbl.create data).1 } : Machine).Sealed m.tbl.alloc.1
      (m.tbl.create data).1 text := by
  obtain ⟨hhead, hslot, -, hcell, -⟩ := m.tbl.create_spec data
  have hindex : m.tbl.alloc.1 < m.tbl.values.length ∨ m.tbl.head = [] := by
    rcases hslot with hmem | ⟨hnil, -⟩
    · exact .inl (ht.head _ (List.mem_of_mem_head? hmem))
    · exact .inr hnil
  refine ⟨hcell hindex, ?_, fun u hu hp => ?_, fun s hdata => ?_, fun a hdata => ?_⟩
  · show m.tbl.alloc.1 ∉ (m.tbl.create data).2.head
    rw [hhead]
    intro hmem
    rcases hslot with hfirst | ⟨hnil, -⟩
    · obtain ⟨next, hnext⟩ := List.head?_eq_some_iff.mp hfirst
      have hnodup := ht.nodup
      rw [hnext] at hnodup hmem
      exact (List.nodup_cons.mp hnodup).1 hmem
    · rw [hnil] at hmem
      cases hmem
  · obtain ⟨hlt, hni⟩ := ht.named u hu _ hp
    rcases hslot with hmem | ⟨-, hnew⟩
    · exact hni (List.mem_of_mem_head? hmem)
    · omega
  · refine ⟨(hs s hdata).1, fun j u hu hj => ?_⟩
    rcases ValAllocTbl.create_values hu with hu | ⟨hnew, -⟩
    · exact absurd hj ((hs s hdata).2 j u hu)
    · exact hnew
  · refine ⟨(ha a hdata).1, fun j u hu hj => ?_⟩
    rcases ValAllocTbl.create_values hu with hu | ⟨hnew, -⟩
    · exact absurd hj ((ha a hdata).2 j u hu)
    · exact hnew

theorem newSlot_secured (text : String) (ht : w.state.Tidy) (h : newSlot data w = .ok copy w')
    (hs : ∀ s, data = .string s → w.state.store.strings.read s = some text ∧
      ∀ (j : Nat) (u : Val), w.state.tbl.values[j]? = some u → u.data ≠ .string s)
    (ha : ∀ a, data = .array a → w.state.store.vectors.read a = some [] ∧
      ∀ (j : Nat) (u : Val), w.state.tbl.values[j]? = some u → u.data ≠ .array a)
    (hcontent : Machine.Says (.ofData data) text c) : w'.state.Secured copy c := by
  have hsealed := created_sealed ht hs ha
  cases h
  exact .slot _ text rfl hsealed hcontent

/-- The string and the vector that a copy is made of. -/
theorem tidy_string (ht : m.Tidy) (text : String) :
    ({ m with store := { m.store with strings := m.store.strings.alloc text } } : Machine).Tidy := by
  refine ⟨ht.nodup, ht.head, ht.named, fun index s v hv hs => ?_, ht.vectors⟩
  have hlt := ht.strings index s v hv hs
  show s < (m.store.strings.alloc text).size
  rw [Heap.size_alloc]
  omega

theorem tidy_vector (ht : m.Tidy) :
    ({ m with store := { m.store with vectors := m.store.vectors.alloc [] } } : Machine).Tidy := by
  refine ⟨ht.nodup, ht.head, ht.named, ht.strings, fun index a v hv ha => ?_⟩
  have hlt := ht.vectors index a v hv ha
  show a < (m.store.vectors.alloc []).size
  rw [Heap.size_alloc]
  omega

/-- The copy of data is secured. -/
theorem valCopyDeep_secured (ht : w.state.Tidy) (hc : w.state.Denotes v c) (hd : c.IsData)
    (h : valCopyDeep v w = .ok copy w') : w'.state.Secured copy c.copied := by
  cases hc with
  | integer hv =>
    rw [valCopyDeep_scalar hv (by simp) (by simp) (by simp) (by simp)] at h
    exact newSlot_secured "" ht h (fun s hs => by cases hs) (fun a ha => by cases ha) rfl
  | float hv =>
    rw [valCopyDeep_scalar hv (by simp) (by simp) (by simp) (by simp)] at h
    exact newSlot_secured "" ht h (fun s hs => by cases hs) (fun a ha => by cases ha) rfl
  | boolean hv =>
    rw [valCopyDeep_scalar hv (by simp) (by simp) (by simp) (by simp)] at h
    exact newSlot_secured "" ht h (fun s hs => by cases hs) (fun a ha => by cases ha) rfl
  | null hv =>
    unfold valCopyDeep at h
    rw [hv] at h
    cases h
    exact .null
  | @string _ s text hv hs =>
    unfold valCopyDeep at h
    rw [hv] at h
    obtain ⟨text', w₁, hread, h⟩ := bind_eq_ok h
    obtain ⟨htext, rfl⟩ := readOrThrow_eq_ok hread
    cases hs.symm.trans htext
    obtain ⟨s', w₂, hstring, hslot⟩ := bind_eq_ok h
    cases hstring
    refine newSlot_secured text (tidy_string ht text) hslot (fun s' hs' => ?_) (fun a ha => by cases ha) rfl
    cases hs'
    refine ⟨Heap.read_alloc.trans (if_pos rfl), fun j u hu hdata => ?_⟩
    exact absurd (ht.strings j _ u hu hdata) (Nat.lt_irrefl _)
  | @array _ a vs cs hv ha hlength hcs =>
    unfold valCopyDeep at h
    rw [hv] at h
    obtain ⟨a', w₂, hvector, hslot⟩ := bind_eq_ok h
    cases hvector
    refine newSlot_secured "" (tidy_vector ht) hslot (fun s hs => by cases hs) (fun a' ha' => ?_) rfl
    cases ha'
    refine ⟨Heap.read_alloc.trans (if_pos rfl), fun j u hu hdata => ?_⟩
    exact absurd (ht.vectors j _ u hu hdata) (Nat.lt_irrefl _)
  | function => cases hd

/-- A secured copy is in its slot, and says what has been left of the value. -/
theorem secured_denotes (h : m.Secured copy c) :
    ∃ u, m.slotValue copy.selfPtr = some u ∧ m.Denotes u c := by
  cases h with
  | null => exact ⟨nullVal, rfl, .null rfl⟩
  | slot index text hp hsealed hcontent =>
    refine ⟨copy, ?_, ?_⟩
    · rw [hp]
      exact hsealed.cell
    · unfold Machine.Says at hcontent
      cases hdata : copy.data with
      | integer i =>
        simp only [hdata] at hcontent
        exact hcontent ▸ .integer hdata
      | float num den =>
        simp only [hdata] at hcontent
        exact hcontent ▸ .float hdata
      | boolean b =>
        simp only [hdata] at hcontent
        exact hcontent ▸ .boolean hdata
      | string s =>
        simp only [hdata] at hcontent
        exact hcontent ▸ .string hdata (hsealed.string s hdata).1
      | array a =>
        simp only [hdata] at hcontent
        have hempty : m.elements a = some [] := by
          unfold Machine.elements
          rw [(hsealed.vector a hdata).1]
          rfl
        exact hcontent ▸ .array hdata hempty rfl fun p hp => nomatch hp
      | null =>
        simp only [hdata] at hcontent
      | function f =>
        simp only [hdata] at hcontent

/-! ## Filling a vector -/

section Fill

variable {vector : Nat} {α : Type} {x : Eval α} {xs : List (Eval Val)} {es : List Element} {cs : List Content}

/-- The computation keeps all invariants under which the vector may get elements. -/
def MayPush (vector : Nat) (x : Eval α) : Prop :=
  ∀ {I : Machine → Prop} {Q : Val → Prop} {S V : Nat → Prop}, Invariant I Q S V → V vector → Upholds I x fun _ => True

/-- The computation keeps all invariants. -/
def IsHarmless (x : Eval Val) : Prop :=
  ∀ {I : Machine → Prop} {Q : Val → Prop} {S V : Nat → Prop}, Invariant I Q S V → Upholds I x fun _ => True

/-- The slot of an element stays as it is while the vector that it is in is filled. -/
theorem Machine.Secured.kept (hs : w.state.Secured copy c) (hx : MayPush vector x)
    (hu : w.state.Unslotted vector slots) {r : α} (h : x w = .ok r w') : w'.state.Secured copy c := by
  cases hs with
  | null => exact .null
  | slot index text hp hsealed hcontent =>
    have hne : copy.data ≠ .array vector := hu.cells index copy hsealed.cell
    exact .slot index text hp (hx (sealed_invariant index copy text) hne w r w' hsealed h).1 hcontent

theorem pushElement_mayPush (value : Val) : MayPush vector (pushElement vector value) := by
  intro I Q S V hI hv
  have hread : Upholds I (Recorder.read id : Eval Machine) fun _ => True := by
    intro w m w' hm h
    cases h
    exact ⟨hm, trivial⟩
  exact hread.bind fun m _ => (valCopyDeep_upholds hI value).bind fun copy _ =>
    (vectorPush_upholds hI hv).bind fun _ _ => keeps_pure trivial

theorem fill_mayPush (hxs : ∀ x ∈ xs, IsHarmless x) : MayPush vector (fill vector xs) := by
  induction xs with
  | nil => exact fun hI hv => keeps_pure trivial
  | cons x xs ih =>
    obtain ⟨hx, hxs⟩ := List.forall_mem_cons.mp hxs
    exact fun hI hv => (hx hI).bind fun value _ => (pushElement_mayPush value hI hv).bind fun element _ =>
      (ih hxs hI hv).bind fun elements _ => keeps_pure trivial

/-- A new element of the vector. -/
theorem vectorPush_unslotted {slot : Option Nat} {r : Unit} (hu : w.state.Unslotted vector slots)
    (h : vectorPush vector slot w = .ok r w') : w'.state.Unslotted vector (slots ++ [slot]) := by
  obtain ⟨slots', hread, hw'⟩ := Option.map_eq_some_iff.mp (act_ok h)
  cases hu.read.symm.trans hread
  rw [← hw']
  refine ⟨?_, hu.cells⟩
  show (w.state.store.vectors.write vector (slots ++ [slot])).read vector = some (slots ++ [slot])
  rw [Heap.read_write, if_pos rfl, hread]
  rfl

theorem pushElement_secured {value : Val} {e : Element} (hu : w.state.Unslotted vector slots)
    (h : pushElement vector value w = .ok e w') : e.value = value ∧ e.evaluated = w.state ∧
      w'.state.Unslotted vector (slots ++ [e.copy.selfPtr]) ∧
      (w.state.Tidy → ∀ c, w.state.Denotes value c → c.IsData → w'.state.Secured e.copy c.copied) := by
  obtain ⟨m, w₁, hread, h⟩ := bind_eq_ok h
  cases hread
  obtain ⟨copy, w₂, hcopy, h⟩ := bind_eq_ok h
  obtain ⟨r, w₃, hpush, h⟩ := bind_eq_ok h
  cases h
  have hu₂ := (valCopyDeep_upholds (unslotted_invariant vector slots) value w copy w₂ hu hcopy).1
  refine ⟨rfl, rfl, vectorPush_unslotted hu₂ hpush, fun ht c hc hd => ?_⟩
  refine (valCopyDeep_secured ht hc hd hcopy).kept ?_ hu₂ hpush
  exact fun hI hv => vectorPush_upholds hI hv

/-- All elements are secured in the end. -/
theorem fill_secured (hxs : ∀ x ∈ xs, IsHarmless x) (hu : w.state.Unslotted vector slots)
    (h : fill vector xs w = .ok es w') : w'.state.Unslotted vector (slots ++ es.map fun e => e.copy.selfPtr) ∧
      ((∀ e ∈ es, e.evaluated.Tidy) → ∀ cs,
        List.Forall₂ (fun e c => e.evaluated.Denotes e.value c ∧ c.IsData) es cs →
          List.Forall₂ (fun e c => w'.state.Secured e.copy c.copied) es cs) := by
  induction xs generalizing w slots es with
  | nil =>
    cases h
    refine ⟨?_, fun _ cs hcs => ?_⟩
    · rw [List.map_nil, List.append_nil]
      exact hu
    · cases hcs
      exact .nil
  | cons x xs ih =>
    obtain ⟨hx, hxs⟩ := List.forall_mem_cons.mp hxs
    obtain ⟨value, w₁, hvalue, h⟩ := bind_eq_ok h
    obtain ⟨e, w₂, hpush, h⟩ := bind_eq_ok h
    obtain ⟨es', w₃, hfill, h⟩ := bind_eq_ok h
    cases h
    have hu₁ := (hx (unslotted_invariant vector slots) w value w₁ hu hvalue).1
    obtain ⟨hev, hem, hu₂, hsecured⟩ := pushElement_secured hu₁ hpush
    obtain ⟨hu₃, hrest⟩ := ih hxs hu₂ hfill
    refine ⟨?_, fun htidy cs hcs => ?_⟩
    · rw [List.map_cons, List.append_cons]
      exact hu₃
    · obtain ⟨ht, htidy⟩ := List.forall_mem_cons.mp htidy
      cases hcs with
      | cons hc hcs =>
        obtain ⟨hc, hd⟩ := hc
        rw [hev, hem] at hc
        rw [hem] at ht
        exact .cons ((hsecured ht _ hc hd).kept (fill_mayPush hxs) hu₂ hfill) (hrest htidy _ hcs)

/-- The block stays where it is when an element is added. -/
theorem pushElement_unmoved {value : Val} {e : Element} (h : pushElement vector value w = .ok e w')
    (hready : e.evaluated.Ready) : w'.state.tbl.Unmoved := by
  obtain ⟨m, w₁, hread, h⟩ := bind_eq_ok h
  cases hread
  obtain ⟨copy, w₂, hcopy, h⟩ := bind_eq_ok h
  obtain ⟨r, w₃, hpush, h⟩ := bind_eq_ok h
  cases h
  have hcapacity := valCopyDeep_capacity hready.room hcopy
  obtain ⟨slots', -, hw'⟩ := Option.map_eq_some_iff.mp (act_ok hpush)
  rw [← hw']
  exact hcapacity.trans hready.unmoved

theorem fill_unmoved (h : fill vector xs w = .ok es w') (hw : w.state.tbl.Unmoved)
    (hready : ∀ e ∈ es, e.evaluated.Ready) : w'.state.tbl.Unmoved := by
  induction xs generalizing w es with
  | nil =>
    cases h
    exact hw
  | cons x xs ih =>
    obtain ⟨value, w₁, hvalue, h⟩ := bind_eq_ok h
    obtain ⟨e, w₂, hpush, h⟩ := bind_eq_ok h
    obtain ⟨es', w₃, hfill, h⟩ := bind_eq_ok h
    cases h
    obtain ⟨he, hes⟩ := List.forall_mem_cons.mp hready
    exact ih hfill (pushElement_unmoved hpush he) hes

/-! ## Arrays -/

/-- The array says what has been left of its elements. -/
theorem denotes_array (hread : m.store.vectors.read a = some (es.map fun e => e.copy.selfPtr)) (hv : v.data = .array a)
    (h : List.Forall₂ (fun e c => m.Secured e.copy c.copied) es cs) : m.Denotes v (.array (cs.map Content.copied)) := by
  have hvalues : ∃ us, (es.map fun e => e.copy.selfPtr).mapM m.slotValue = some us ∧
      us.length = (cs.map Content.copied).length ∧ ∀ p ∈ us.zip (cs.map Content.copied), m.Denotes p.1 p.2 := by
    clear hread
    induction h with
    | nil => exact ⟨[], rfl, rfl, fun p hp => nomatch hp⟩
    | cons hs _ ih =>
      obtain ⟨u, hu, hdenotes⟩ := secured_denotes hs
      obtain ⟨us, hus, hlength, hall⟩ := ih
      refine ⟨u :: us, ?_, congrArg (· + 1) hlength, List.forall_mem_cons.mpr ⟨hdenotes, hall⟩⟩
      rw [List.map_cons, List.mapM_cons, hu, hus]
      rfl
  obtain ⟨us, hus, hlength, hall⟩ := hvalues
  refine .array hv ?_ hlength hall
  unfold Machine.elements
  rw [hread]
  exact hus

theorem copied_eq_iff : c.copied = c ↔ c.IsFlat := by
  cases c with
  | array elements =>
    constructor
    · intro h
      injection h with h
      exact h.symm
    · intro h
      exact congrArg Content.array h.symm
  | _ => exact iff_of_true rfl trivial

theorem map_copied_eq_iff : cs.map Content.copied = cs ↔ ∀ c ∈ cs, c.IsFlat := by
  induction cs with
  | nil => exact iff_of_true rfl fun c hc => absurd hc List.not_mem_nil
  | cons c cs ih => rw [List.map_cons, List.cons.injEq, copied_eq_iff, ih, List.forall_mem_cons]

theorem denotes_result (h : m.Denotes v c) (result : Val) : ({ m with result := result } : Machine).Denotes v c := by
  have hsame : SameReads m { m with result := result } :=
    ⟨fun _ _ hs => hs, fun _ _ ha => ha, fun _ _ hv => hv, fun _ fn hf => ⟨fn, hf, rfl, rfl, rfl⟩⟩
  exact denotes_of_same hsame h

/-- What an array of data says in the end. -/
theorem arrayOf_copied (hxs : ∀ x ∈ xs, IsHarmless x) (ht : w.state.Tidy) (h : arrayOf xs w = .ok (v, es) w')
    (htidy : ∀ e ∈ es, e.evaluated.Tidy)
    (hcs : List.Forall₂ (fun e c => e.evaluated.Denotes e.value c ∧ c.IsData) es cs) :
    w'.state.Denotes v (.array (cs.map Content.copied)) := by
  obtain ⟨vector, w₁, hinit, h⟩ := bind_eq_ok h
  obtain ⟨es', w₂, hfill, h⟩ := bind_eq_ok h
  obtain ⟨hu, hsecured⟩ := fill_secured hxs (vectorInit_unslotted ht hinit) hfill
  obtain ⟨v', w₃, hgive, h⟩ := bind_eq_ok h
  cases hgive
  cases h
  exact denotes_result (denotes_array hu.read rfl (hsecured htidy cs hcs)) _

theorem arrayOf_unmoved (h : arrayOf xs w = .ok (v, es) w') (hw : w.state.tbl.Unmoved)
    (hready : ∀ e ∈ es, e.evaluated.Ready) : w'.state.tbl.Unmoved := by
  obtain ⟨vector, w₁, hinit, h⟩ := bind_eq_ok h
  obtain ⟨es', w₂, hfill, h⟩ := bind_eq_ok h
  obtain ⟨v', w₃, hgive, h⟩ := bind_eq_ok h
  have hstart : w₁.state.tbl = w.state.tbl := by
    cases hinit
    rfl
  have hend : w₃.state.tbl = w₂.state.tbl := by
    cases hgive
    rfl
  cases h
  rw [hend]
  rw [← hstart] at hw
  exact fill_unmoved hfill hw hready

/-- In tidy states an array of data says what its elements said exactly if none of them is an array with
elements, and its pointers into the table are good. -/
theorem arrayOf_denotes (hxs : ∀ x ∈ xs, IsHarmless x) (ht : w.state.Tidy) (hw : w.state.tbl.Unmoved)
    (h : arrayOf xs w = .ok (v, es) w') (hready : ∀ e ∈ es, e.evaluated.Ready)
    (hcs : List.Forall₂ (fun e c => e.evaluated.Denotes e.value c ∧ c.IsData) es cs) :
    w'.state.tbl.Unmoved ∧ (w'.state.Denotes v (.array cs) ↔ ∀ c ∈ cs, c.IsFlat) := by
  have hcopied := arrayOf_copied hxs ht h (fun e he => (hready e he).tidy) hcs
  refine ⟨arrayOf_unmoved h hw hready, ?_⟩
  rw [← map_copied_eq_iff]
  constructor
  · intro hkept
    exact Content.array.inj (denotes_unique hcopied hkept)
  · intro hflat
    rw [hflat] at hcopied
    exact hcopied

end Fill

/-! ## Array literals and `vector` -/

section Literals

variable {rec : Nat → AstNode → Eval Val} {vector scope : Nat}

theorem pushElement_of_ok {value copy : Val} {w₁ w₂ : World Machine Event} {r : Unit}
    (hcopy : valCopyDeep value w = .ok copy w₁) (hpush : vectorPush vector copy.selfPtr w₁ = .ok r w₂) :
    pushElement vector value w = .ok ⟨value, w.state, copy⟩ w₂ := by
  have hread : (Recorder.read id : Eval Machine) w = .ok w.state w := rfl
  unfold pushElement
  rw [bind_ok hread, bind_ok hcopy, bind_ok hpush]
  rfl

theorem fill_of_evalElements {nodes : List AstNode} {r : Unit} (h : evalElements rec scope vector nodes w = .ok r w') :
    ∃ es, fill vector (nodes.map (callEval rec none scope)) w = .ok es w' := by
  induction nodes generalizing w with
  | nil =>
    cases h
    exact ⟨[], rfl⟩
  | cons node nodes ih =>
    obtain ⟨value, w₁, hvalue, h⟩ := bind_eq_ok h
    obtain ⟨copy, w₂, hcopy, h⟩ := bind_eq_ok h
    obtain ⟨r', w₃, hpush, h⟩ := bind_eq_ok h
    obtain ⟨es, hes⟩ := ih h
    refine ⟨⟨value, w₁.state, copy⟩ :: es, ?_⟩
    rw [List.map_cons, fill, bind_ok hvalue, bind_ok (pushElement_of_ok hcopy hpush), bind_ok hes]
    rfl

theorem fill_of_pushCopies {args : List Val} {r : Unit} (h : pushCopies vector args w = .ok r w') :
    ∃ es, fill vector (args.map pure) w = .ok es w' := by
  induction args generalizing w with
  | nil =>
    cases h
    exact ⟨[], rfl⟩
  | cons arg args ih =>
    obtain ⟨copy, w₂, hcopy, h⟩ := bind_eq_ok h
    obtain ⟨r', w₃, hpush, h⟩ := bind_eq_ok h
    obtain ⟨es, hes⟩ := ih h
    have hvalue : (pure arg : Eval Val) w = .ok arg w := rfl
    refine ⟨⟨arg, w.state, copy⟩ :: es, ?_⟩
    rw [List.map_cons, fill, bind_ok hvalue, bind_ok (pushElement_of_ok hcopy hpush), bind_ok hes]
    rfl

theorem arrayOf_of_fill {xs : List (Eval Val)} {es : List Element} {w₁ w₂ : World Machine Event}
    (hinit : vectorInit w = .ok vector w₁) (hfill : fill vector xs w₁ = .ok es w₂)
    (hgive : giveValue (.ofData (.array vector)) w₂ = .ok v w') : arrayOf xs w = .ok (v, es) w' := by
  unfold arrayOf
  rw [bind_ok hinit, bind_ok hfill, bind_ok hgive]
  rfl

/-- An array literal is an array of the values of its elements. -/
theorem arrayOf_of_evalArrayLit {nodes : List AstNode} (h : evalArrayLit rec scope nodes w = .ok v w') :
    ∃ es, arrayOf (nodes.map (callEval rec none scope)) w = .ok (v, es) w' := by
  obtain ⟨vector, w₁, hinit, h⟩ := bind_eq_ok h
  obtain ⟨r, w₂, helements, hgive⟩ := bind_eq_ok h
  obtain ⟨es, hfill⟩ := fill_of_evalElements helements
  exact ⟨es, arrayOf_of_fill hinit hfill hgive⟩

theorem arrayOf_of_builtinArray {args : List Val} (h : builtinArray args w = .ok v w') :
    ∃ es, arrayOf (args.map pure) w = .ok (v, es) w' := by
  obtain ⟨vector, w₁, hinit, h⟩ := bind_eq_ok h
  obtain ⟨r, w₂, hcopies, hgive⟩ := bind_eq_ok h
  obtain ⟨es, hfill⟩ := fill_of_pushCopies hcopies
  exact ⟨es, arrayOf_of_fill hinit hfill hgive⟩

theorem harmless_callEval (fuel : Nat) (node : AstNode) : IsHarmless (callEval (eval fuel) none scope node) :=
  fun hI => (callEval_upholds hI (eval_upholds hI fuel)).post fun _ _ => trivial

theorem harmless_pure (arg : Val) : IsHarmless (pure arg) := fun _ => keeps_pure trivial

end Literals

/-- Only a step that reallocates the table changes its capacity. -/
theorem Trans.capacity {event : Event} (h : Trans m event m') (hr : ¬ m.Reallocates event) :
    m'.tbl.capacity = m.tbl.capacity := by
  cases h with
  | newSlot data hd =>
    have hroom : ¬ m.tbl.Grows := hr
    exact create_capacity hroom data
  | copyBuiltin orig fn hf hb =>
    have hroom : ¬ m.tbl.Grows := hr
    exact create_capacity hroom _
  | copyCustom orig fn body hf hb =>
    have hroom : ¬ m.tbl.Grows := hr
    exact create_capacity hroom _
  | closeScope m₁ frame stack s hs hl hf =>
    obtain ⟨scopes, slots, hF, -⟩ := scopeFree_spec hf
    exact hF.capacity
  | store | value | newFn | call | callBody | «return» | openBlock | openLoop | loopIds | declare | param | setDefault
    | assign | resolve | use | arg | activate | builtin | rescope => rfl

/-- Every array literal and every array that `vector` makes is filled element by element. If the allocator was ready
for each element, the array says what the elements said when they had been evaluated, if and only if none of them is
an array with elements. -/
theorem array_keeps_elements (fuel scope : Nat) :
    (∀ nodes w v w', evalArrayLit (eval fuel) scope nodes w = .ok v w' →
      ∃ es, arrayOf (nodes.map (callEval (eval fuel) none scope)) w = .ok (v, es) w' ∧
        (w.state.Tidy → w.state.tbl.Unmoved → (∀ e ∈ es, e.evaluated.Ready) → ∀ cs,
          List.Forall₂ (fun e c => e.evaluated.Denotes e.value c ∧ c.IsData) es cs →
            w'.state.tbl.Unmoved ∧ (w'.state.Denotes v (.array cs) ↔ ∀ c ∈ cs, c.IsFlat))) ∧
    ∀ args w v w', builtinArray args w = .ok v w' →
      ∃ es, arrayOf (args.map pure) w = .ok (v, es) w' ∧
        (w.state.Tidy → w.state.tbl.Unmoved → (∀ e ∈ es, e.evaluated.Ready) → ∀ cs,
          List.Forall₂ (fun e c => e.evaluated.Denotes e.value c ∧ c.IsData) es cs →
            w'.state.tbl.Unmoved ∧ (w'.state.Denotes v (.array cs) ↔ ∀ c ∈ cs, c.IsFlat)) := by
  constructor
  · intro nodes w v w' h
    obtain ⟨es, hes⟩ := arrayOf_of_evalArrayLit h
    refine ⟨es, hes, fun ht hw hready cs hcs => arrayOf_denotes ?_ ht hw hes hready hcs⟩
    exact List.forall_mem_map.mpr fun node _ => harmless_callEval fuel node
  · intro args w v w' h
    obtain ⟨es, hes⟩ := arrayOf_of_builtinArray h
    refine ⟨es, hes, fun ht hw hready cs hcs => arrayOf_denotes ?_ ht hw hes hready hcs⟩
    exact List.forall_mem_map.mpr fun arg _ => harmless_pure arg

theorem valuesOf_eq_some {us : List Val} (h : m.valuesOf v = some us) : ∃ a, v.data = .array a ∧ m.elements a = some us := by
  unfold Machine.valuesOf at h
  split at h
  · rename_i a hdata
    exact ⟨a, hdata, h⟩
  · cases h

/-- An array with one element. -/
theorem denotes_singleton {u : Val} (h : m.valuesOf v = some [u]) (hu : m.Denotes u c) : m.Denotes v (.array [c]) := by
  obtain ⟨a, hdata, helements⟩ := valuesOf_eq_some h
  exact .array hdata helements rfl (List.forall_mem_singleton.mpr hu)

theorem exists_of_endsSuch {α : Type} {p : α → Machine → Bool} {r : EStateM.Result Err (World Machine Event) α}
    (h : endsSuch p r = true) : ∃ a w', r = .ok a w' ∧ p a w'.state = true := by
  cases r with
  | ok a w' => exact ⟨a, w', rfl, h⟩
  | error e w' => cases h

/-- The array in `array [array [1]]` loses its element. -/
theorem array_loses_elements : ∃ v w' es,
    evalArrayLit (eval 3) 0 [.arrayLit .unknown [.intLit .unknown 1]] startWorld = .ok v w' ∧
      arrayOf ([.arrayLit .unknown [.intLit .unknown 1]].map (callEval (eval 3) none 0)) startWorld = .ok (v, es) w' ∧
      List.Forall₂ (fun e c => e.evaluated.Denotes e.value c ∧ c.IsData) es [.array [.integer 1]] ∧
      ¬ w'.state.Denotes v (.array [.array [.integer 1]]) := by
  have hends : endsSuch losesOne (arrayOf
      ([.arrayLit .unknown [.intLit .unknown 1]].map (callEval (eval 3) none 0)) startWorld) = true := by
    decide +kernel
  have hreturns : returnsSuch (fun _ => true)
      (evalArrayLit (eval 3) 0 [.arrayLit .unknown [.intLit .unknown 1]] startWorld) = true := by
    decide +kernel
  obtain ⟨v, w', heval, -⟩ := exists_of_returnsSuch hreturns
  obtain ⟨es, hes⟩ := arrayOf_of_evalArrayLit heval
  rw [hes] at hends
  obtain ⟨hvalue, hcopy⟩ := Bool.and_eq_true_iff.mp hends
  obtain ⟨e, rfl, helement⟩ := List.map_eq_singleton_iff.mp (of_decide_eq_true hvalue)
  obtain ⟨us, hus, hone⟩ := Option.map_eq_some_iff.mp helement
  obtain ⟨u, rfl, hu⟩ := List.map_eq_singleton_iff.mp hone
  obtain ⟨us', hus', hempty⟩ := Option.map_eq_some_iff.mp (of_decide_eq_true hcopy)
  obtain ⟨u', rfl, hu'⟩ := List.map_eq_singleton_iff.mp hempty
  have hdata : Content.IsData (.array [.integer 1]) := .array _ (List.forall_mem_singleton.mpr (.integer 1))
  refine ⟨v, w', [e], heval, hes, .cons ⟨denotes_singleton hus (.integer hu), hdata⟩ .nil, fun hkept => ?_⟩
  obtain ⟨a, ha, helements⟩ := valuesOf_eq_some hu'
  have hlost : w'.state.Denotes v (.array [.array []]) :=
    denotes_singleton hus' (.array ha helements rfl fun p hp => nomatch hp)
  cases denotes_unique hlost hkept

end Blaze
