import Blazescript.Eval.Proofs.SameEvalProofs
import Blazescript.Eval.Copying
import Blazescript.Eval.Scoping

/-!
# Proofs: calls under other names

A call of a function comes to the same in two states that differ in names, wherever it is made from.
-/

namespace Blaze

open Arena Running Tracing

variable {ρ : Naming} {n : Nat} {m m' : Machine} {v v' : Val} {s s' f f' : Nat}

/-! ## What values say -/

theorem rel_swap {α β : Type} {R : α → β → Prop} {o : Option α} {o' : Option β} (h : Option.Rel R o o') :
    Option.Rel (fun b a => R a b) o' o := by
  cases h with
  | none => exact .none
  | some h => exact .some h

theorem Val.Alike.swap (h : v.Alike ρ v') : v'.Alike ρ.swap v := by
  have hdata : v'.data.Alike ρ.swap v.data := by
    have hdata := h.data
    generalize v.data = data at hdata ⊢
    generalize v'.data = data' at hdata ⊢
    cases hdata with
    | integer => exact .integer _
    | float => exact .float _ _
    | string h => exact .string h
    | function h => exact .function h
    | null => exact .null
    | boolean => exact .boolean _
    | array h => exact .array h
  exact ⟨hdata, h.nofree.symm, rel_swap h.selfPtr⟩

theorem heapAlike_swap {α β : Type} {r : Nat → Nat → Prop} {R : α → β → Prop} {S : β → α → Prop} {h : Heap α}
    {h' : Heap β} (hh : Heap.Alike r R h h') (hRS : ∀ a b, R a b → S b a) : Heap.Alike (fun i j => r j i) S h' h := by
  refine ⟨⟨fun hi hj => hh.pairing.left hi hj, fun hi hj => hh.pairing.right hi hj⟩, fun hr => (hh.live hr).symm,
    fun hr => ?_⟩
  obtain ⟨a, b, ha, hb, hab⟩ := hh.content hr
  exact ⟨b, a, hb, ha, hRS a b hab⟩

theorem Machine.SameValues.swap (h : m.SameValues ρ m') : m'.SameValues ρ.swap m where
  fns := heapAlike_swap h.fns fun _ _ hfn => ⟨hfn.builtInCallback.symm, hfn.customBody.symm, hfn.paramNames.symm⟩
  strings := heapAlike_swap h.strings fun _ _ htext => htext.symm
  vectors := heapAlike_swap h.vectors fun _ _ hslots => (List.Forall₂.flip hslots).imp fun _ _ hslot => rel_swap hslot
  cells hr := by
    obtain ⟨v, v', hv, hv', hvv⟩ := h.cells hr
    exact ⟨v', v, hv', hv, hvv.swap⟩

/-- Two lists of options, one mapped like the other. -/
theorem mapM_rel {α β γ δ : Type} {R : α → β → Prop} {S : γ → δ → Prop} {g : α → Option γ} {g' : β → Option δ}
    {l : List α} {l' : List β} (hl : List.Forall₂ R l l') (hg : ∀ a b, R a b → Option.Rel S (g a) (g' b)) :
    Option.Rel (List.Forall₂ S) (l.mapM g) (l'.mapM g') := by
  induction hl with
  | nil => exact .some .nil
  | cons hab _ ih =>
    rw [List.mapM_cons, List.mapM_cons]
    exact rel_bind (hg _ _ hab) fun _ _ hc => rel_bind ih fun _ _ hcs => .some (.cons hc hcs)

theorem elements_alike (h : m.SameValues ρ m') {a a' : Nat} (ha : ρ.vectors a a') :
    Option.Rel (List.Forall₂ (Val.Alike ρ)) (m.elements a) (m'.elements a') :=
  rel_bind (h.vectors.read ha) fun _ _ hslots => mapM_rel hslots fun _ _ hslot => slotValue_alike h hslot

/-- What is in one list beside an element of another is beside what is like that element, too. -/
theorem mem_zip_alike {α β γ : Type} {R : α → β → Prop} {l : List α} {l' : List β} (hl : List.Forall₂ R l l') :
    ∀ {cs : List γ} {b : β} {c : γ}, (b, c) ∈ l'.zip cs → ∃ a, R a b ∧ (a, c) ∈ l.zip cs := by
  induction hl with
  | nil => exact fun h => by cases h
  | cons hab _ ih =>
    intro cs b c h
    cases cs with
    | nil => cases h
    | cons c' cs =>
      rw [List.zip_cons_cons] at h
      rcases List.mem_cons.mp h with heq | hmem
      · obtain ⟨rfl, rfl⟩ := Prod.mk.inj heq
        exact ⟨_, hab, List.mem_cons_self ..⟩
      · obtain ⟨a, ha, hmem'⟩ := ih hmem
        exact ⟨a, ha, List.mem_cons_of_mem _ hmem'⟩

theorem denotes_alike (h : m.SameValues ρ m') {c : Content} (hc : m.Denotes v c) :
    ∀ {v' : Val}, v.Alike ρ v' → m'.Denotes v' c := by
  induction hc with
  | integer hd =>
    intro v' hv
    have hdata := hd ▸ hv.data
    generalize hd' : v'.data = data' at hdata
    cases hdata with
    | integer => exact .integer hd'
  | float hd =>
    intro v' hv
    have hdata := hd ▸ hv.data
    generalize hd' : v'.data = data' at hdata
    cases hdata with
    | float => exact .float hd'
  | null hd =>
    intro v' hv
    have hdata := hd ▸ hv.data
    generalize hd' : v'.data = data' at hdata
    cases hdata with
    | null => exact .null hd'
  | boolean hd =>
    intro v' hv
    have hdata := hd ▸ hv.data
    generalize hd' : v'.data = data' at hdata
    cases hdata with
    | boolean => exact .boolean hd'
  | string hd hs =>
    intro v' hv
    have hdata := hd ▸ hv.data
    generalize hd' : v'.data = data' at hdata
    cases hdata with
    | string hname =>
      have hread := h.strings.read hname
      rw [hs] at hread
      generalize hs' : m'.store.strings.read _ = text' at hread
      cases hread with
      | some htext => exact .string hd' (htext ▸ hs')
  | function hd hf =>
    intro v' hv
    have hdata := hd ▸ hv.data
    generalize hd' : v'.data = data' at hdata
    cases hdata with
    | function hname =>
      have hread := h.fns.read hname
      rw [hf] at hread
      generalize hf' : m'.fns.read _ = fn' at hread
      cases hread with
      | some htext =>
        rw [htext.builtInCallback, htext.paramNames, htext.customBody]
        exact .function hd' hf'
  | array hd ha hlength _ ih =>
    intro v' hv
    have hdata := hd ▸ hv.data
    generalize hd' : v'.data = data' at hdata
    cases hdata with
    | array hname =>
      have helements := elements_alike h hname
      rw [ha] at helements
      generalize ha' : m'.elements _ = vs' at helements
      cases helements with
      | some hall =>
        refine .array hd' ha' (hall.length_eq.symm.trans hlength) fun p hp => ?_
        obtain ⟨u, hu, hmem⟩ := mem_zip_alike hall hp
        exact ih (u, p.2) hmem hu

theorem denotes_iff (h : m.SameValues ρ m') (hv : v.Alike ρ v') (c : Content) : m.Denotes v c ↔ m'.Denotes v' c :=
  ⟨fun hc => denotes_alike h hc hv, fun hc => denotes_alike h.swap hc hv.swap⟩

/-! ## Calls -/

/-- The function gets a scope at the end, on which the values do not depend. -/
theorem rescope_refines {copy copy' : Val} (hf : ρ.fns f f') (hcopy : copy.Alike ρ copy') :
    Refines (fun _ => False) (fun w w' => w.state.Alike ρ (n + 1) w'.state)
      (do rescope f s; pure copy : Eval Val) (do rescope f' s'; pure copy' : Eval Val)
      (fun v w v' w' => w.state.SameValues ρ w'.state ∧ ρ.Printed w.state w'.state ∧ v.Alike ρ v') ρ.SameError := by
  refine Refines.bind (Q := fun _ w _ w' => w.state.SameValues ρ w'.state ∧ ρ.Printed w.state w'.state) ?_
    fun _ _ => refines_pure fun _ _ h => ⟨h.1, h.2, hcopy⟩
  intro w w' hm
  have hframes := hm.frames
  unfold rescope act Recorder.perform
  rcases rel_cases (hm.fns.read hf) with ⟨hr, hr'⟩ | ⟨fn, fn', hr, hr', hfn⟩
  · simp only [hr, hr', Option.bind_none, Option.map_none]
    exact .error ⟨rfl, hm.stdout⟩
  cases hs : w.state.stack with
  | nil =>
    rw [hs] at hframes
    exact hframes.elim
  | cons frame stack =>
    cases hs' : w'.state.stack with
    | nil =>
      rw [hs, hs'] at hframes
      exact hframes.elim
    | cons frame' stack' =>
      simp only [hr, hr', Option.bind_some, Machine.withLocals, hs, hs', Option.map_some]
      have hvalues := hm.sameValues
      exact .ok ⟨{ hvalues with
        fns := hvalues.fns.write hf ⟨hfn.builtInCallback, hfn.customBody, hfn.paramNames⟩ }, hm.stdout⟩

/-- Calls of a function that is found in the same place come to the same, wherever they are made. -/
theorem SameCall.result {w w' : World Machine Event} {d d' : Nat} {identifier : String} {val val' : EntryPtr}
    (h : SameCall ρ w.state w'.state d d' identifier val val') (gas : Nat) (pos : Pos) {fn fn' : FnVal}
    (hf : w.state.calleeOf val = some (f, fn)) (hf' : w'.state.calleeOf val' = some (f', fn')) :
    SameResult w.state w'.state (callCustom (eval gas) gas s pos identifier val f fn w)
      (callCustom (eval gas) gas s' pos identifier val' f' fn' w') := by
  have hentry : val.Alike ρ.scopes val' := by
    have hresolve := scopeResolveIdentifier_alike (k := identifier) h.alike.scopes h.alike.rooted h.alike.rooted' h.chain
    rw [h.val, h.val'] at hresolve
    cases hresolve with
    | some hresolve =>
      cases hresolve with
      | some hentry => exact hentry
  have hfn : fn.Alike ρ fn' := by
    have hcallee : Option.Rel (fun g g' => ρ.fns g.1 g'.1 ∧ g.2.Alike ρ g'.2) (w.state.calleeOf val)
        (w'.state.calleeOf val') :=
      rel_bind (readEntry_alike h.alike.scopes hentry) fun _ _ he => fnOf_alike h.alike he.1
    rw [hf, hf'] at hcallee
    cases hcallee with
    | some hcallee => exact hcallee.2
  have hrefines : Refines (fun _ => False) (fun w w' => w.state.Alike ρ 1 w'.state)
      (callCustom (eval gas) gas s pos identifier val f fn) (callCustom (eval gas) gas s' pos identifier val' f' fn')
      (fun v w v' w' => ∃ ρ', ρ.Le ρ' ∧ w.state.SameValues ρ' w'.state ∧ ρ'.Printed w.state w'.state ∧ v.Alike ρ' v')
      ρ.SameError :=
    callCustom_refines (eval_same gas) gas pos identifier hentry hfn fun ρ' hle _ _ _ _ hg hcopy =>
      (rescope_refines hg hcopy).post fun _ _ _ _ hlast => ⟨ρ', hle, hlast⟩
  have hcall := hrefines w w' h.alike
  generalize callCustom (eval gas) gas s pos identifier val f fn w = r at hcall ⊢
  generalize callCustom (eval gas) gas s' pos identifier val' f' fn' w' = r' at hcall ⊢
  cases hcall with
  | ok hok =>
    obtain ⟨ρ', hle, hvalues, ⟨out, hout, hout'⟩, hv⟩ := hok
    rw [hle.printed, h.printed] at hout
    rw [hle.printed', h.printed'] at hout'
    exact .ok out hv.data.type (denotes_iff hvalues hv) hout hout'
  | error herror =>
    obtain ⟨rfl, out, hout, hout'⟩ := herror
    rw [h.printed] at hout
    rw [h.printed'] at hout'
    exact .error _ out hout hout'
  | unspecified hfalse => exact hfalse.elim

end Blaze
