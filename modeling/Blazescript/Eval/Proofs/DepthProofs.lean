import Blazescript.Eval.Proofs.AlikeProofs
import Mathlib.Data.Finset.Card

/-!
# Proofs: freeing and printing under other names

`scope_free` frees, and `print_val_internal` prints, the same in two states that differ in names. The bounds on their
depths do not matter: every level of the one frees a function that had not been freed, and with one more level of the
other than there are vectors all is printed that can be.
-/

namespace Blaze

open Arena Running

variable {ρ : Naming} {n : Nat} {m m' m₁ : Machine} {v v' : Val} {i j s s' : Nat}

/-! ## The depth of `scope_free` -/

/-- The number of functions that have not been freed. -/
def Machine.liveFns (m : Machine) : Nat := ((Finset.range m.fns.size).filter fun f => m.fns.isLive f = true).card

theorem Machine.liveFns_le (m : Machine) : m.liveFns ≤ m.fns.size := by
  unfold liveFns
  exact (Finset.card_filter_le _ _).trans_eq (Finset.card_range _)

theorem Freed.liveFns_le {scopes slots : List Nat} (h : Freed m m₁ scopes slots) : m₁.liveFns ≤ m.liveFns := by
  unfold Machine.liveFns
  rw [h.fnSize]
  refine Finset.card_le_card fun f hf => ?_
  rw [Finset.mem_filter] at hf ⊢
  exact ⟨hf.1, h.fnLive f hf.2⟩

theorem liveFns_free {f : Nat} (hl : m.fns.isLive f = true) :
    ({ m with fns := m.fns.free f } : Machine).liveFns < m.liveFns := by
  unfold Machine.liveFns
  show ((Finset.range (m.fns.free f).size).filter fun g => (m.fns.free f).isLive g = true).card < _
  rw [Heap.size_free]
  refine Finset.card_lt_card ⟨fun g hg => ?_, fun hsub => ?_⟩
  · rw [Finset.mem_filter, Heap.isLive_free, Bool.and_eq_true] at hg
    exact Finset.mem_filter.mpr ⟨hg.1, hg.2.1⟩
  · have hmem := hsub (Finset.mem_filter.mpr ⟨Finset.mem_range.mpr (Heap.lt_of_isLive hl), hl⟩)
    rw [Finset.mem_filter, Heap.isLive_free, decide_eq_false (not_not_intro rfl), Bool.and_false] at hmem
    exact Bool.false_ne_true hmem.2

section Congr

variable {F G : Machine → Nat → Option Machine}

/-- Freeing a value calls the function that frees scopes with fewer functions only. -/
theorem valmapFreeValue_congr (hFG : ∀ m₁ s, m₁.liveFns < m.liveFns → F m₁ s = G m₁ s) (v : Val) :
    Machine.valmapFreeValue F m v = Machine.valmapFreeValue G m v := by
  unfold Machine.valmapFreeValue
  by_cases hv : v.data ≠ .null ∧ v.nofree = false
  · rw [if_pos hv, if_pos hv]
    cases v.selfPtr with
    | none => rfl
    | some index =>
      show Machine.valAllocFree F m index = Machine.valAllocFree G m index
      unfold Machine.valAllocFree
      refine congrArg (fun f => m.tbl.values[index]?.bind f) (funext fun u => congrArg (Option.map _) ?_)
      unfold Machine.valFreeForceNoRoot
      by_cases hn : u.nofree = true
      · rw [if_pos hn, if_pos hn]
      · rw [if_neg hn, if_neg hn]
        cases u.data with
        | function f =>
          show (m.fns.read f).bind _ = (m.fns.read f).bind _
          cases hread : m.fns.read f with
          | none => rfl
          | some fn =>
            rw [Option.bind_some, Option.bind_some]
            cases fn.builtInCallback with
            | some callback => rfl
            | none =>
              cases fn.scope with
              | none => rfl
              | some s =>
                exact hFG { m with tbl := m.tbl.pushFree index, fns := m.fns.free f } s
                  (liveFns_free (m := { m with tbl := m.tbl.pushFree index }) (Heap.read_eq_some.mp hread).1)
        | _ => rfl
  · rw [if_neg hv, if_neg hv]

theorem valmapFreeValues_congr (hF : FreesScopes F) (values : List Val) :
    ∀ {m : Machine}, (∀ m₁ s, m₁.liveFns < m.liveFns → F m₁ s = G m₁ s) →
      values.foldlM (Machine.valmapFreeValue F) m = values.foldlM (Machine.valmapFreeValue G) m := by
  induction values with
  | nil => exact fun _ => rfl
  | cons v values ih =>
    intro m hFG
    rw [List.foldlM_cons, List.foldlM_cons, ← valmapFreeValue_congr hFG]
    cases hv : Machine.valmapFreeValue F m v with
    | none => rfl
    | some m₁ =>
      obtain ⟨_, _, _, hfrees, -⟩ := valmapFreeValue_spec hF hv
      exact ih fun m₂ s hlt => hFG m₂ s (hlt.trans_le hfrees.freed.liveFns_le)

end Congr

/-- A bound above the number of functions is as good as any other. -/
theorem scopeFreeFrom_fuel (k : Nat) : ∀ {k' : Nat} {m : Machine} (s : Nat), m.liveFns < k → m.liveFns < k' →
    Machine.scopeFreeFrom k m s = Machine.scopeFreeFrom k' m s := by
  induction k with
  | zero => exact fun _ hk _ => absurd hk (Nat.not_lt_zero _)
  | succ k ih =>
    intro k' m s hk hk'
    obtain ⟨k', rfl⟩ : ∃ l, k' = l + 1 := ⟨k' - 1, by omega⟩
    unfold Machine.scopeFreeFrom
    refine congrArg (fun f => (m.scopes.read s).bind f) (funext fun scope => ?_)
    rw [valmapFreeValues_congr (G := Machine.scopeFreeFrom k') (freesScopes_scopeFreeFrom k) scope.valmap.values
      fun m₁ t hlt => ih t (by omega) (by omega)]

/-! ## Freeing -/

theorem ValData.Alike.null_iff {data data' : ValData} (h : data.Alike ρ data') : data = .null ↔ data' = .null := by
  cases h with
  | null => exact Iff.rfl
  | _ => exact iff_of_false (fun hd => by cases hd) fun hd => by cases hd

/-- Freeing scopes of one name leaves states that are alike. -/
def FreesAlike (ρ : Naming) (n : Nat) (F : Machine → Nat → Option Machine) : Prop :=
  ∀ m m' s s', m.Alike ρ n m' → ρ.scopes s s' → Option.Rel (Machine.Alike ρ n) (F m s) (F m' s')

section Free

variable {F : Machine → Nat → Option Machine} (hF : FreesAlike ρ n F)
include hF

theorem valFreeForceNoRoot_alike (h : m.Alike ρ n m') (hv : v.Alike ρ v') :
    Option.Rel (Machine.Alike ρ n) (Machine.valFreeForceNoRoot F m v) (Machine.valFreeForceNoRoot F m' v') := by
  unfold Machine.valFreeForceNoRoot
  rw [hv.nofree]
  by_cases hn : v'.nofree = true
  · rw [if_pos hn, if_pos hn]
    exact .some h
  rw [if_neg hn, if_neg hn]
  have hdata := hv.data
  generalize v.data = data at hdata ⊢
  generalize v'.data = data' at hdata ⊢
  cases hdata with
  | string hs =>
    simp only [h.strings.live hs]
    split_ifs
    · exact .some { h with strings := h.strings.free hs }
    · exact .none
  | array ha =>
    simp only [h.vectors.live ha]
    split_ifs
    · exact .some { h with vectors := h.vectors.free ha }
    · exact .none
  | @function f f' hf =>
    have hfreed : ({ m with fns := m.fns.free f } : Machine).Alike ρ n { m' with fns := m'.fns.free f' } :=
      { h with fns := h.fns.free hf }
    refine rel_bind (h.fns.read hf) fun fn fn' hfn => ?_
    rw [hfn.builtInCallback]
    cases fn'.builtInCallback with
    | some callback => exact .some h
    | none =>
      rcases rel_cases hfn.scope with ⟨hs, hs'⟩ | ⟨s, s', hs, hs', hss⟩
      · rw [hs, hs']
        exact .some hfreed
      · rw [hs, hs']
        exact hF _ _ s s' hfreed hss
  | _ => exact .some h

theorem valAllocFree_alike (h : m.Alike ρ n m') (hij : ρ.slots i j) :
    Option.Rel (Machine.Alike ρ n) (Machine.valAllocFree F m i) (Machine.valAllocFree F m' j) := by
  unfold Machine.valAllocFree
  obtain ⟨u, u', hu, hu', huu⟩ := h.tbl.cells hij
  rw [hu, hu', Option.bind_some, Option.bind_some]
  have hpushed : ({ m with tbl := m.tbl.pushFree i } : Machine).Alike ρ n { m' with tbl := m'.tbl.pushFree j } :=
    { h with tbl := h.tbl.pushFree hij }
  refine rel_map (valFreeForceNoRoot_alike hF hpushed huu) fun m₁ m₁' h₁ => ?_
  exact { h₁ with tbl := h₁.tbl.store hij ⟨.null, rfl, huu.selfPtr⟩ }

theorem valmapFreeValue_alike (h : m.Alike ρ n m') (hv : v.Alike ρ v') :
    Option.Rel (Machine.Alike ρ n) (Machine.valmapFreeValue F m v) (Machine.valmapFreeValue F m' v') := by
  unfold Machine.valmapFreeValue
  have hnull : (v.data ≠ .null ∧ v.nofree = false) ↔ (v'.data ≠ .null ∧ v'.nofree = false) := by
    rw [hv.nofree]
    exact and_congr_left fun _ => not_congr hv.data.null_iff
  by_cases hd : v'.data ≠ .null ∧ v'.nofree = false
  · rw [if_pos (hnull.mpr hd), if_pos hd]
    rcases rel_cases hv.selfPtr with ⟨hp, hp'⟩ | ⟨i, j, hp, hp', hij⟩
    · rw [hp, hp']
      exact .some h
    · rw [hp, hp']
      exact valAllocFree_alike hF h hij
  · rw [if_neg (mt hnull.mp hd), if_neg hd]
    exact .some h

theorem valmapFreeValues_alike {vs vs' : List Val} (hv : List.Forall₂ (Val.Alike ρ) vs vs') :
    ∀ {m m' : Machine}, m.Alike ρ n m' → Option.Rel (Machine.Alike ρ n) (vs.foldlM (Machine.valmapFreeValue F) m)
      (vs'.foldlM (Machine.valmapFreeValue F) m') := by
  induction hv with
  | nil => exact fun h => .some h
  | cons hv _ ih =>
    intro m m' h
    rw [List.foldlM_cons, List.foldlM_cons]
    exact rel_bind (valmapFreeValue_alike hF h hv) fun _ _ h₁ => ih h₁

end Free

theorem freesAlike_scopeFreeFrom (k : Nat) : FreesAlike ρ n (Machine.scopeFreeFrom k) := by
  induction k with
  | zero => exact fun _ _ _ _ _ _ => .none
  | succ k ih =>
    intro m m' s s' h hs
    unfold Machine.scopeFreeFrom
    refine rel_bind (h.scopes.read hs) fun scope scope' hsc => ?_
    refine rel_bind (valmapFreeValues_alike ih (Valmap.values_alike hsc.valmap) h) fun m₁ m₁' h₁ => ?_
    rw [h₁.scopes.live hs]
    split_ifs
    · refine .some { h₁ with scopes := h₁.scopes.free hs, rooted := ?_, rooted' := ?_ }
      · intro t p hp
        refine h₁.rooted t p ?_
        simpa [envOf, Machine.env] using hp
      · intro t p hp
        refine h₁.rooted' t p ?_
        simpa [envOf, Machine.env] using hp
    · exact .none

theorem scopeFree_alike (h : m.Alike ρ n m') (hs : ρ.scopes s s') :
    Option.Rel (Machine.Alike ρ n) (m.scopeFree s) (m'.scopeFree s') := by
  have hlt := m.liveFns_le
  have hlt' := m'.liveFns_le
  have hfuel : m.scopeFree s = Machine.scopeFreeFrom (m.fns.size + m'.fns.size + 1) m s :=
    scopeFreeFrom_fuel _ s (by omega) (by omega)
  have hfuel' : m'.scopeFree s' = Machine.scopeFreeFrom (m.fns.size + m'.fns.size + 1) m' s' :=
    scopeFreeFrom_fuel _ s' (by omega) (by omega)
  rw [hfuel, hfuel']
  exact freesAlike_scopeFreeFrom _ m m' s s' h hs

/-! ## The depth of `print_val_internal` -/

theorem mapM_congr {α β : Type} {f g : α → Option β} {l : List α} (h : ∀ a ∈ l, f a = g a) : l.mapM f = l.mapM g := by
  induction l with
  | nil => rfl
  | cons a l ih =>
    obtain ⟨ha, hl⟩ := List.forall_mem_cons.mp h
    rw [List.mapM_cons, List.mapM_cons, ha, ih hl]

theorem exists_of_mapM {α β : Type} {f : α → Option β} {l : List α} {bs : List β} (h : l.mapM f = some bs) :
    ∀ a ∈ l, ∃ b, f a = some b := by
  induction l generalizing bs with
  | nil => exact fun _ ha => absurd ha List.not_mem_nil
  | cons a l ih =>
    rw [List.mapM_cons] at h
    obtain ⟨b, hb, h⟩ := Option.bind_eq_some_iff.mp h
    obtain ⟨bs', hbs', -⟩ := Option.bind_eq_some_iff.mp h
    exact List.forall_mem_cons.mpr ⟨⟨b, hb⟩, ih hbs'⟩

/-- What is printed for the elements of an array. -/
def Machine.printElement (m : Machine) (k : Nat) (slot : Option Nat) : Option (List Output) :=
  (m.slotValue slot).bind (printValInternal m k true)

/-- What is printed for an array comes from its elements. -/
theorem printValInternal_array (m : Machine) (k : Nat) (q : Bool) {a : Nat} (hd : v.data = .array a) :
    printValInternal m (k + 1) q v = (m.store.vectors.read a).bind fun data =>
      (data.mapM (m.printElement k)).map fun elements =>
        [.text ("\x1b[34mArray (" ++ toString data.length ++ ")\x1b[0m [")] ++
          [.text ", "].intercalate elements ++ [.text "]"] := by
  unfold printValInternal
  rw [hd]
  rfl

/-- What does not print an array does not look at the bound. -/
theorem printValInternal_plain (m : Machine) (k k' : Nat) (q : Bool) (hd : ∀ a, v.data ≠ .array a) :
    printValInternal m (k + 1) q v = printValInternal m (k' + 1) q v := by
  unfold printValInternal
  cases hdata : v.data with
  | array a => exact absurd hdata (hd a)
  | _ => rfl

theorem printValInternal_succ (k : Nat) : ∀ {q : Bool} {v : Val} {out : List Output},
    printValInternal m k q v = some out → printValInternal m (k + 1) q v = some out := by
  induction k with
  | zero => exact fun h => by cases h
  | succ k ih =>
    intro q v out h
    by_cases hd : ∃ a, v.data = .array a
    · obtain ⟨a, hd⟩ := hd
      rw [printValInternal_array m k q hd] at h
      rw [printValInternal_array m (k + 1) q hd]
      obtain ⟨data, hread, h⟩ := Option.bind_eq_some_iff.mp h
      obtain ⟨elements, helements, hout⟩ := Option.map_eq_some_iff.mp h
      have hsame : data.mapM (m.printElement k) = data.mapM (m.printElement (k + 1)) := by
        refine mapM_congr fun slot hslot => ?_
        obtain ⟨b, hb⟩ := exists_of_mapM helements slot hslot
        obtain ⟨u, hu, hprint⟩ := Option.bind_eq_some_iff.mp hb
        unfold Machine.printElement
        rw [hu, Option.bind_some, Option.bind_some, hprint, ih hprint]
      rw [hread, Option.bind_some, ← hsame, helements, Option.map_some, hout]
    · exact (printValInternal_plain m (k + 1) k q fun a ha => hd ⟨a, ha⟩).trans h

/-- The vectors that are printed with a bound. -/
def Machine.printable (m : Machine) (k : Nat) : Finset Nat :=
  (Finset.range m.store.vectors.size).filter fun a => (printValInternal m k true (.ofData (.array a))).isSome = true

theorem mem_printable {k a : Nat} :
    a ∈ m.printable k ↔ (printValInternal m k true (.ofData (.array a))).isSome = true := by
  unfold Machine.printable
  rw [Finset.mem_filter, Finset.mem_range]
  refine ⟨fun h => h.2, fun h => ⟨?_, h⟩⟩
  cases k with
  | zero => cases h
  | succ k =>
    obtain ⟨out, hout⟩ := Option.isSome_iff_exists.mp h
    rw [printValInternal_array m k true rfl] at hout
    obtain ⟨data, hread, -⟩ := Option.bind_eq_some_iff.mp hout
    exact Heap.lt_of_isLive (Heap.read_eq_some.mp hread).1

theorem printable_subset (k : Nat) : m.printable k ⊆ m.printable (k + 1) := by
  intro a ha
  rw [mem_printable] at ha ⊢
  obtain ⟨out, hout⟩ := Option.isSome_iff_exists.mp ha
  rw [printValInternal_succ k hout]
  rfl

/-- Once no more vectors are printed, nothing more is. -/
theorem printValInternal_settled {k : Nat} (hk : m.printable (k + 2) ⊆ m.printable (k + 1)) (q : Bool) (v : Val) :
    printValInternal m (k + 2) q v = printValInternal m (k + 1) q v := by
  by_cases hd : ∃ a, v.data = .array a
  · obtain ⟨a, hd⟩ := hd
    have ha : ∀ k, printValInternal m (k + 1) q v = printValInternal m (k + 1) true (.ofData (.array a)) := by
      intro k
      rw [printValInternal_array m k q hd, printValInternal_array m k true rfl]
    rw [ha, ha]
    cases hprint : printValInternal m (k + 2) true (.ofData (.array a)) with
    | some out =>
      have hmem := hk (mem_printable.mpr (Option.isSome_iff_exists.mpr ⟨out, hprint⟩))
      obtain ⟨out', hout'⟩ := Option.isSome_iff_exists.mp (mem_printable.mp hmem)
      rw [hout', ← hprint, printValInternal_succ _ hout']
    | none =>
      cases hprint' : printValInternal m (k + 1) true (.ofData (.array a)) with
      | none => rfl
      | some out =>
        rw [printValInternal_succ _ hprint'] at hprint
        cases hprint
  · exact printValInternal_plain m (k + 1) k q fun a ha => hd ⟨a, ha⟩

theorem printable_settled {k : Nat} (hk : m.printable (k + 2) ⊆ m.printable (k + 1)) :
    m.printable (k + 3) ⊆ m.printable (k + 2) := by
  intro a ha
  have hsame : printValInternal m (k + 3) true (.ofData (.array a)) =
      printValInternal m (k + 2) true (.ofData (.array a)) := by
    rw [printValInternal_array m (k + 2) true rfl, printValInternal_array m (k + 1) true rfl]
    refine congrArg (fun f => (m.store.vectors.read a).bind f) (funext fun data => congrArg (Option.map _) ?_)
    refine mapM_congr fun slot _ => ?_
    exact congrArg (fun f => (m.slotValue slot).bind f) (funext fun u => printValInternal_settled hk true u)
  rw [mem_printable] at ha ⊢
  rw [← hsame]
  exact ha

/-- There are not more vectors to be printed than there are. -/
theorem printable_card (m : Machine) : ∀ k, (∃ l < k, m.printable (l + 2) ⊆ m.printable (l + 1)) ∨
    k ≤ (m.printable (k + 1)).card := by
  intro k
  induction k with
  | zero => exact .inr (Nat.zero_le _)
  | succ k ih =>
    rcases ih with ⟨l, hl, hsub⟩ | hcard
    · exact .inl ⟨l, by omega, hsub⟩
    · by_cases hsub : m.printable (k + 2) ⊆ m.printable (k + 1)
      · exact .inl ⟨k, Nat.lt_succ_self k, hsub⟩
      · have hlt := Finset.card_lt_card ⟨printable_subset (k + 1), hsub⟩
        exact .inr (by omega)

theorem exists_stable (m : Machine) :
    ∃ l ≤ m.store.vectors.size, m.printable (l + 2) ⊆ m.printable (l + 1) := by
  rcases printable_card m (m.store.vectors.size + 1) with ⟨l, hl, hsub⟩ | hcard
  · exact ⟨l, by omega, hsub⟩
  · have hle : (m.printable (m.store.vectors.size + 1 + 1)).card ≤ m.store.vectors.size :=
      (Finset.card_filter_le _ _).trans_eq (Finset.card_range _)
    omega

/-- With one more than there are vectors, the bound does not matter. -/
theorem printValInternal_fuel (m : Machine) {k : Nat} (hk : m.store.vectors.size + 1 ≤ k) (q : Bool) (v : Val) :
    printValInternal m k q v = printValInternal m (m.store.vectors.size + 1) q v := by
  obtain ⟨l, hl, hsub⟩ := exists_stable m
  have hall : ∀ j, m.printable (l + j + 2) ⊆ m.printable (l + j + 1) := by
    intro j
    induction j with
    | zero => exact hsub
    | succ j ih => exact printable_settled ih
  have hsame : ∀ j, printValInternal m (l + j + 1) q v = printValInternal m (l + 1) q v := by
    intro j
    induction j with
    | zero => rfl
    | succ j ih => exact (printValInternal_settled (hall j) q v).trans ih
  obtain ⟨j, rfl⟩ : ∃ j, k = l + j + 1 := ⟨k - l - 1, by omega⟩
  obtain ⟨i, hi⟩ : ∃ i, m.store.vectors.size = l + i := ⟨m.store.vectors.size - l, by omega⟩
  rw [hi, hsame, hsame]

/-! ## Printing -/

theorem Machine.Alike.sameValues (h : m.Alike ρ n m') : m.SameValues ρ m' :=
  ⟨h.fns.mono fun _ _ hfn => ⟨hfn.builtInCallback, hfn.customBody, hfn.paramNames⟩, h.strings, h.vectors, h.tbl.cells⟩

theorem slotValue_alike (h : m.SameValues ρ m') {slot slot' : Option Nat} (hs : Option.Rel ρ.slots slot slot') :
    Option.Rel (Val.Alike ρ) (m.slotValue slot) (m'.slotValue slot') := by
  rcases rel_cases hs with ⟨rfl, rfl⟩ | ⟨i, j, rfl, rfl, hij⟩
  · exact .some ⟨.null, rfl, .none⟩
  · obtain ⟨u, u', hu, hu', huu⟩ := h.cells hij
    show Option.Rel (Val.Alike ρ) m.tbl.values[i]? m'.tbl.values[j]?
    rw [hu, hu']
    exact .some huu

theorem mapM_alike {α β γ : Type} {R : α → β → Prop} {f : α → Option γ} {g : β → Option γ} {l : List α} {l' : List β}
    (hl : List.Forall₂ R l l') (hfg : ∀ a b, R a b → f a = g b) : l.mapM f = l'.mapM g := by
  induction hl with
  | nil => rfl
  | cons hab _ ih => rw [List.mapM_cons, List.mapM_cons, hfg _ _ hab, ih]

theorem printValInternal_alike (h : m.Alike ρ n m') (k : Nat) : ∀ (q : Bool) {v v' : Val}, v.Alike ρ v' →
    printValInternal m k q v = printValInternal m' k q v' := by
  induction k with
  | zero => exact fun _ _ _ _ => rfl
  | succ k ih =>
    intro q v v' hv
    have hdata := hv.data
    generalize hd : v.data = data at hdata
    generalize hd' : v'.data = data' at hdata
    cases hdata with
    | array ha =>
      rw [printValInternal_array m k q hd, printValInternal_array m' k q hd']
      rcases rel_cases (h.vectors.read ha) with ⟨hread, hread'⟩ | ⟨data, data', hread, hread', hslots⟩
      · rw [hread, hread']
        rfl
      · rw [hread, hread', Option.bind_some, Option.bind_some, hslots.length_eq]
        refine congrArg (Option.map _) (mapM_alike hslots fun slot slot' hs => ?_)
        unfold Machine.printElement
        rcases rel_cases (slotValue_alike h.sameValues hs) with ⟨hu, hu'⟩ | ⟨u, u', hu, hu', huu⟩
        · rw [hu, hu']
          rfl
        · rw [hu, hu', Option.bind_some, Option.bind_some]
          exact ih true huu
    | string hs =>
      unfold printValInternal
      simp only [hd, hd']
      rcases rel_cases (h.strings.read hs) with ⟨hread, hread'⟩ | ⟨text, text', hread, hread', rfl⟩
      · rw [hread, hread']
      · rw [hread, hread']
    | function hf =>
      unfold printValInternal
      simp only [hd, hd']
      rcases rel_cases (h.fns.read hf) with ⟨hread, hread'⟩ | ⟨fn, fn', hread, hread', hfn⟩
      · rw [hread, hread']
      · rw [hread, hread', Option.map_some, Option.map_some, hfn.builtInCallback]
    | _ =>
      unfold printValInternal
      simp only [hd, hd']

/-- `print_val`. -/
theorem printVal_alike (h : m.Alike ρ n m') (q : Bool) (hv : v.Alike ρ v') :
    printValInternal m (m.store.vectors.size + 1) q v = printValInternal m' (m'.store.vectors.size + 1) q v' := by
  have hle : m.store.vectors.size + 1 ≤ m.store.vectors.size + m'.store.vectors.size + 1 := by omega
  have hle' : m'.store.vectors.size + 1 ≤ m.store.vectors.size + m'.store.vectors.size + 1 := by omega
  rw [← printValInternal_fuel m hle q v, ← printValInternal_fuel m' hle' q v']
  exact printValInternal_alike h _ q hv

end Blaze
