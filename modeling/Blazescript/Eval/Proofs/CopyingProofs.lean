import Blazescript.Arena.Proofs.HeapProofs
import Blazescript.Eval.Copying
import Blazescript.Eval.Proofs.FlowProofs
import Blazescript.Syntax.Proofs.DeepCopyProofs

/-!
# Proofs: what a copy keeps

A copy says what the value says, except for arrays with elements and for functions with constants.
-/

namespace Blaze

open Arena Running Tracing

variable {m m' : Machine} {v copy : Val} {c c' : Content} {w w' w₁ : World Machine Event}

/-! ## Reading a value -/

theorem slotValue_of_same (h : SameReads m m') {slot : Option Nat} (hv : m.slotValue slot = some v) :
    m'.slotValue slot = some v := by
  cases slot with
  | none => exact hv
  | some index => exact h.values index v hv

theorem mapM_of_same (h : SameReads m m') {slots : List (Option Nat)} {vs : List Val}
    (hvs : slots.mapM m.slotValue = some vs) : slots.mapM m'.slotValue = some vs := by
  induction slots generalizing vs with
  | nil => exact hvs
  | cons slot slots ih =>
    rw [List.mapM_cons] at hvs ⊢
    obtain ⟨v, hv, hvs⟩ := Option.bind_eq_some_iff.mp hvs
    obtain ⟨vs', hvs', hcons⟩ := Option.bind_eq_some_iff.mp hvs
    rw [slotValue_of_same h hv]
    show (slots.mapM m'.slotValue).bind (fun vs => some (v :: vs)) = _
    rw [ih hvs']
    exact hcons

theorem elements_of_same (h : SameReads m m') {a : Nat} {vs : List Val} (ha : m.elements a = some vs) :
    m'.elements a = some vs := by
  unfold Machine.elements at ha ⊢
  obtain ⟨slots, hslots, hvs⟩ := Option.bind_eq_some_iff.mp ha
  rw [h.vectors a slots hslots]
  exact mapM_of_same h hvs

/-- What may be read in both states is the same. -/
theorem denotes_of_same (h : SameReads m m') (hc : m.Denotes v c) : m'.Denotes v c := by
  induction hc with
  | integer hv => exact .integer hv
  | float hv => exact .float hv
  | string hv hs => exact .string hv (h.strings _ _ hs)
  | function hv hf =>
    obtain ⟨fn', hf', hcallback, hparams, hbody⟩ := h.fns _ _ hf
    rw [← hcallback, ← hparams, ← hbody]
    exact .function hv hf'
  | null hv => exact .null hv
  | boolean hv => exact .boolean hv
  | array hv ha hlength _ ih => exact .array hv (elements_of_same h ha) hlength ih

/-- A value says one thing. -/
theorem denotes_unique (hc : m.Denotes v c) (hc' : m.Denotes v c') : c = c' := by
  induction hc generalizing c' with
  | integer hv =>
    cases hc' with
    | integer hv' =>
      cases hv.symm.trans hv'
      rfl
    | _ hv' => cases hv.symm.trans hv'
  | float hv =>
    cases hc' with
    | float hv' =>
      cases hv.symm.trans hv'
      rfl
    | _ hv' => cases hv.symm.trans hv'
  | string hv hs =>
    cases hc' with
    | string hv' hs' =>
      cases hv.symm.trans hv'
      cases hs.symm.trans hs'
      rfl
    | _ hv' => cases hv.symm.trans hv'
  | function hv hf =>
    cases hc' with
    | function hv' hf' =>
      cases hv.symm.trans hv'
      cases hf.symm.trans hf'
      rfl
    | _ hv' => cases hv.symm.trans hv'
  | null hv =>
    cases hc' with
    | null hv' => rfl
    | _ hv' => cases hv.symm.trans hv'
  | boolean hv =>
    cases hc' with
    | boolean hv' =>
      cases hv.symm.trans hv'
      rfl
    | _ hv' => cases hv.symm.trans hv'
  | @array v a vs cs hv ha hlength _ ih =>
    cases hc' with
    | @array _ _ _ cs' hv' ha' hlength' hcs' =>
      cases hv.symm.trans hv'
      cases ha.symm.trans ha'
      refine congrArg Content.array (List.ext_getElem (hlength.symm.trans hlength') fun i hi hi' => ?_)
      have hlt : i < (vs.zip cs').length := by
        rw [List.length_zip, hlength', Nat.min_self]
        exact hi'
      have hlt' : i < (vs.zip cs).length := by
        rw [List.length_zip, hlength, Nat.min_self]
        exact hi
      have hmem := List.getElem_mem hlt'
      have hmem' := List.getElem_mem hlt
      rw [List.getElem_zip] at hmem hmem'
      exact ih _ hmem (hcs' _ hmem')
    | _ hv' => cases hv.symm.trans hv'

/-! ## `val_copy_deep` -/

theorem newSlot_ok {data : ValData} (h : newSlot data w = .ok v w') :
    v.data = data ∧ w'.state.store = w.state.store ∧ w'.state.fns = w.state.fns := by
  cases h
  exact ⟨rfl, rfl, rfl⟩

/-- A scalar is copied as it is. -/
theorem valCopyDeep_scalar {data : ValData} (hdata : v.data = data) (hnull : data ≠ .null)
    (hs : ∀ s, data ≠ .string s) (ha : ∀ a, data ≠ .array a) (hf : ∀ f, data ≠ .function f) :
    valCopyDeep v = newSlot data := by
  unfold valCopyDeep
  rw [hdata]
  cases data with
  | null => exact absurd rfl hnull
  | string s => exact absurd rfl (hs s)
  | array a => exact absurd rfl (ha a)
  | function f => exact absurd rfl (hf f)
  | _ => rfl

theorem denotes_newFn {fns : Heap FnVal} {fn : FnVal} (hfns : m.fns = fns.alloc fn)
    (hv : v.data = .function fns.size) :
    m.Denotes v (.function fn.builtInCallback fn.paramNames fn.customBody) := by
  refine .function hv ?_
  rw [hfns, Heap.read_alloc, if_pos rfl]

/-- The copy of a built-in function is the function itself. -/
theorem copyFn_builtin {f : Nat} {fn : FnVal} {body : List AstNode} (hcallback : fn.builtInCallback ≠ none)
    (h : copyFn f fn body w = .ok copy w') :
    w'.state.Denotes copy (.function fn.builtInCallback fn.paramNames fn.customBody) := by
  obtain ⟨callback, hcallback⟩ := Option.ne_none_iff_exists'.mp hcallback
  unfold copyFn Recorder.perform at h
  simp only [hcallback] at h
  cases h
  have hfns : ∀ m : Machine, m.fns = w.state.fns.alloc fn →
      m.Denotes (w.state.tbl.create (.function w.state.fns.size)).1
        (.function fn.builtInCallback fn.paramNames fn.customBody) := fun m hm => denotes_newFn hm rfl
  exact hfns _ rfl

/-- The copy of a user function has the statements it is given. -/
theorem copyFn_custom {f : Nat} {fn : FnVal} {body : List AstNode} (hcallback : fn.builtInCallback = none)
    (h : copyFn f fn body w = .ok copy w') : w'.state.Denotes copy (.function none fn.paramNames body) := by
  unfold copyFn Recorder.perform at h
  simp only [hcallback] at h
  cases h
  have hfns : ∀ (m : Machine) (s : Nat),
      m.fns = w.state.fns.alloc { fn with customBody := body, scope := some s } →
        m.Denotes (w.state.tbl.create (.function w.state.fns.size)).1
          (.function fn.builtInCallback fn.paramNames body) := fun m s hm => denotes_newFn hm rfl
  rw [hcallback] at hfns
  exact hfns _ w.state.scopes.size rfl

theorem copyBody_ok {body copies : List AstNode} (h : copyBody body w = .ok copies w') :
    parserAstDeepCopyAll body = .ok copies ∧ w' = w := by
  unfold copyBody at h
  cases hbody : parserAstDeepCopyAll body with
  | error msg =>
    rw [hbody] at h
    cases h
  | ok copies' =>
    rw [hbody] at h
    cases h
    exact ⟨rfl, rfl⟩

/-- The copy says what the value says if and only if that survives. -/
theorem valCopyDeep_denotes (hc : w.state.Denotes v c) (h : valCopyDeep v w = .ok copy w') :
    w'.state.Denotes copy c ↔ c.Survives := by
  cases hc with
  | integer hv =>
    rw [valCopyDeep_scalar hv (by simp) (by simp) (by simp) (by simp)] at h
    exact iff_of_true (.integer (newSlot_ok h).1) trivial
  | float hv =>
    rw [valCopyDeep_scalar hv (by simp) (by simp) (by simp) (by simp)] at h
    exact iff_of_true (.float (newSlot_ok h).1) trivial
  | boolean hv =>
    rw [valCopyDeep_scalar hv (by simp) (by simp) (by simp) (by simp)] at h
    exact iff_of_true (.boolean (newSlot_ok h).1) trivial
  | null hv =>
    unfold valCopyDeep at h
    rw [hv] at h
    cases h
    exact iff_of_true (.null rfl) trivial
  | @string _ s text hv hs =>
    unfold valCopyDeep at h
    rw [hv] at h
    obtain ⟨text', w₁, hread, h⟩ := bind_eq_ok h
    obtain ⟨htext, rfl⟩ := readOrThrow_eq_ok hread
    cases hs.symm.trans htext
    obtain ⟨s', w₁, hstring, h⟩ := bind_eq_ok h
    cases hstring
    obtain ⟨hdata, hstore, -⟩ := newSlot_ok h
    refine iff_of_true (.string hdata ?_) trivial
    rw [hstore]
    exact Heap.read_alloc.trans (if_pos rfl)
  | @array _ a vs cs hv ha hlength hcs =>
    unfold valCopyDeep at h
    rw [hv] at h
    obtain ⟨a', w₁, hvector, h⟩ := bind_eq_ok h
    cases hvector
    obtain ⟨hdata, hstore, -⟩ := newSlot_ok h
    have helements : w'.state.elements w.state.store.vectors.size = some [] := by
      have hread : (w.state.store.vectors.alloc []).read w.state.store.vectors.size = some [] := by
        rw [Heap.read_alloc, if_pos rfl]
      unfold Machine.elements
      rw [hstore]
      exact congrArg (fun slots => Option.bind slots _) hread
    have hempty : w'.state.Denotes copy (.array []) := .array hdata helements rfl fun p hp => nomatch hp
    constructor
    · intro hsame
      exact Content.array.inj (denotes_unique hsame hempty)
    · intro hnil
      obtain rfl : cs = [] := hnil
      exact hempty
  | @function _ f fn hv hf =>
    unfold valCopyDeep at h
    rw [hv] at h
    obtain ⟨fn', w₁, hread, h⟩ := bind_eq_ok h
    obtain ⟨hfn, rfl⟩ := readOrThrow_eq_ok hread
    cases hf.symm.trans hfn
    cases hcallback : fn.builtInCallback with
    | some callback =>
      simp only [hcallback] at h
      have hcopy := copyFn_builtin (by rw [hcallback]; exact Option.some_ne_none _) h
      rw [hcallback] at hcopy
      exact iff_of_true hcopy trivial
    | none =>
      simp only [hcallback] at h
      obtain ⟨copies, w₂, hcopyBody, hcopyFn⟩ := bind_eq_ok h
      obtain ⟨hcopies, rfl⟩ := copyBody_ok hcopyBody
      have hcopy := copyFn_custom hcallback hcopyFn
      constructor
      · intro hsame copies' hcopies'
        cases hcopies.symm.trans hcopies'
        exact (Content.function.inj (denotes_unique hcopy hsame)).2.2
      · intro hbody
        rw [← hbody copies hcopies]
        exact hcopy

/-! ## Calls -/

/-- The end of a call, from the value of the last statement on. -/
theorem evalExprCall_of_lastValue {rec : Nat → AstNode → Eval Val} {gas scope : Nat} {pos : Pos} {identifier : String}
    {args : List AstNode} {last : Option Val}
    (h : lastValue rec gas scope pos identifier args w = .ok last w₁) :
    ∃ val, evalExprCall rec gas scope pos identifier args w = finishCall scope val last w₁ := by
  unfold lastValue at h
  unfold evalExprCall
  obtain ⟨resolved, w₂, hresolve, h⟩ := bind_eq_ok h
  rw [bind_ok hresolve]
  cases resolved with
  | none => cases h
  | some val =>
    refine ⟨val, ?_⟩
    obtain ⟨u, w₃, hbegin, h⟩ := bind_eq_ok h
    obtain ⟨v, w₄, hderef, h⟩ := bind_eq_ok h
    dsimp only
    rw [bind_ok hbegin, bind_ok hderef]
    cases hv : v.data with
    | function f₀ =>
      simp only [hv] at h
      obtain ⟨u', w₅, hargs, h⟩ := bind_eq_ok h
      obtain ⟨⟨f, fn⟩, w₆, hcallee, h⟩ := bind_eq_ok h
      obtain ⟨vals, w₇, hvals, h⟩ := bind_eq_ok h
      dsimp only at h ⊢
      rw [bind_ok hargs, bind_ok hcallee]
      cases hcallback : fn.builtInCallback with
      | some callback =>
        simp only [hcallback] at h
        cases h
      | none =>
        cases hscope : fn.scope with
        | none =>
          simp only [hcallback, hscope] at h
          cases h
        | some s =>
          simp only [hcallback, hscope] at h
          by_cases hlength : fn.paramNames.length ≠ vals.length
          · rw [if_pos hlength] at h
            cases h
          · rw [if_neg hlength] at h
            obtain ⟨u₁, w₈, hactivate, h⟩ := bind_eq_ok h
            obtain ⟨u₂, w₉, hbind, h⟩ := bind_eq_ok h
            dsimp only
            unfold callCustom
            rw [bind_ok hvals, if_neg hlength]
            simp only [hscope]
            rw [bind_ok hactivate, bind_ok hbind, bind_ok h]
            rfl
    | _ =>
      simp only [hv] at h
      cases h

theorem callee_ok {val : EntryPtr} {r : Nat × FnVal} (h : callee val w = .ok r w') : w'.state = w.state := by
  obtain ⟨u, w₁, huse, hread⟩ := bind_eq_ok h
  obtain ⟨-, rfl⟩ := readOrThrow_eq_ok hread
  exact (Option.some.inj (act_ok huse)).symm

theorem withLocals_ok {locals : Locals} (h : m.withLocals locals = some m') :
    m'.store = m.store ∧ m'.tbl = m.tbl ∧ m'.fns = m.fns := by
  unfold Machine.withLocals at h
  cases hs : m.stack with
  | nil =>
    rw [hs] at h
    cases h
  | cons frame stack =>
    rw [hs] at h
    cases h
    exact ⟨rfl, rfl, rfl⟩

/-- A function with another scope is the same function. -/
theorem rescope_same {f scope : Nat} {u : Unit} (h : rescope f scope w = .ok u w') :
    SameReads w.state w'.state ∧ SameReads w'.state w.state := by
  obtain ⟨fn, hfn, hlocals⟩ := Option.bind_eq_some_iff.mp (act_ok h)
  obtain ⟨hstore, htbl, hfns⟩ := withLocals_ok hlocals
  have hread : ∀ g, w'.state.fns.read g =
      if g = f then some { fn with scope := some w.state.scopes.size } else w.state.fns.read g := by
    intro g
    rw [hfns, Heap.read_write]
    by_cases hg : g = f
    · rw [if_pos hg, if_pos hg, hfn]
      rfl
    · rw [if_neg hg, if_neg hg]
  constructor
  · refine ⟨fun s text hs => by rw [hstore]; exact hs, fun a slots ha => by rw [hstore]; exact ha,
      fun index v hv => by rw [htbl]; exact hv, fun g gn hg => ?_⟩
    rw [hread]
    by_cases hgf : g = f
    · subst hgf
      cases hfn.symm.trans hg
      exact ⟨_, if_pos rfl, rfl, rfl, rfl⟩
    · exact ⟨gn, (if_neg hgf).trans hg, rfl, rfl, rfl⟩
  · refine ⟨fun s text hs => by rw [hstore] at hs; exact hs, fun a slots ha => by rw [hstore] at ha; exact ha,
      fun index v hv => by rw [htbl] at hv; exact hv, fun g gn hg => ?_⟩
    rw [hread] at hg
    by_cases hgf : g = f
    · subst hgf
      rw [if_pos rfl] at hg
      cases hg
      exact ⟨fn, hfn, rfl, rfl, rfl⟩
    · rw [if_neg hgf] at hg
      exact ⟨gn, hg, rfl, rfl, rfl⟩

/-- A call without a statement does not return. -/
theorem not_returnsLast_none {rec : Nat → AstNode → Eval Val} {gas scope : Nat} {pos : Pos} {identifier : String}
    {args : List AstNode} (h : lastValue rec gas scope pos identifier args w = .ok none w₁) :
    ¬ ReturnsLast (evalExprCall rec gas scope pos identifier args) w none w₁.state := by
  obtain ⟨val, hcall⟩ := evalExprCall_of_lastValue h
  rintro ⟨v, w', hv, -⟩
  cases hcall.symm.trans hv

/-- The call returns what the last statement gave if and only if there is one, and a copy of it says the same. -/
theorem call_returns_last {rec : Nat → AstNode → Eval Val} {gas scope : Nat} {pos : Pos} {identifier : String}
    {args : List AstNode} {last : Option Val}
    (hlast : lastValue rec gas scope pos identifier args w = .ok last w₁)
    (hdone : last ≠ none → ∃ v w', evalExprCall rec gas scope pos identifier args w = .ok v w') :
    ReturnsLast (evalExprCall rec gas scope pos identifier args) w last w₁.state ↔
      ∃ ret, last = some ret ∧ ∀ c, w₁.state.Denotes ret c → c.Survives := by
  obtain ⟨val, hcall⟩ := evalExprCall_of_lastValue hlast
  cases last with
  | none =>
    constructor
    · intro hreturns
      exact absurd hreturns (not_returnsLast_none hlast)
    · rintro ⟨ret, h, -⟩
      cases h
  | some ret =>
    obtain ⟨v, w', hv⟩ := hdone (Option.some_ne_none ret)
    have hfinish := hcall.symm.trans hv
    obtain ⟨copy, w₂, hcopy, hrest⟩ := bind_eq_ok hfinish
    obtain ⟨⟨f, fn⟩, w₃, hcallee, hrest⟩ := bind_eq_ok hrest
    obtain ⟨u, w₄, hrescope, hpure⟩ := bind_eq_ok hrest
    cases hpure
    have hsame : ∀ c, w'.state.Denotes v c ↔ w₂.state.Denotes v c := by
      intro c
      rw [← callee_ok hcallee]
      exact ⟨denotes_of_same (rescope_same hrescope).2, denotes_of_same (rescope_same hrescope).1⟩
    constructor
    · rintro ⟨v', w'', hv', hreturns⟩
      cases hv.symm.trans hv'
      refine ⟨ret, rfl, fun c hc => (valCopyDeep_denotes hc hcopy).mp ((hsame c).mp (hreturns c hc))⟩
    · rintro ⟨ret', hret, hsurvives⟩
      cases hret
      exact ⟨v, w', hv, fun c hc => (hsame c).mpr ((valCopyDeep_denotes hc hcopy).mpr (hsurvives c hc))⟩

theorem exists_of_returnsSuch {α : Type} {p : α → Bool} {r : EStateM.Result Err (World Machine Event) α}
    (h : returnsSuch p r = true) : ∃ a w', r = .ok a w' ∧ p a = true := by
  cases r with
  | ok a w' => exact ⟨a, w', rfl, h⟩
  | error e w' => cases h

/-- The call of `function f() { 1; }` returns what the statement gave. -/
theorem call_returns_last_one : ∃ last w₁,
    lastValue (eval 1) 2 0 .unknown "f" [] (worldWith [.intLit .unknown 1]) = .ok last w₁ ∧
    (ReturnsLast (evalExprCall (eval 1) 2 0 .unknown "f" []) (worldWith [.intLit .unknown 1]) last w₁.state ↔
      ∃ ret, last = some ret ∧ ∀ c, w₁.state.Denotes ret c → c.Survives) := by
  have hlast : returnsSuch Option.isSome
      (lastValue (eval 1) 2 0 .unknown "f" [] (worldWith [.intLit .unknown 1])) = true := by
    decide +kernel
  have hdone : returnsSuch (fun _ => true)
      (evalExprCall (eval 1) 2 0 .unknown "f" [] (worldWith [.intLit .unknown 1])) = true := by
    decide +kernel
  obtain ⟨last, w₁, hlast, -⟩ := exists_of_returnsSuch hlast
  obtain ⟨v, w', hv, -⟩ := exists_of_returnsSuch hdone
  exact ⟨last, w₁, hlast, call_returns_last hlast fun _ => ⟨v, w', hv⟩⟩

/-- The call of `function f() {}` has no value. -/
theorem call_returns_nothing : ¬ ∀ (fuel gas scope : Nat) (pos : Pos) (identifier : String) (args : List AstNode)
    (w w₁ : World Machine Event) (last : Option Val),
    lastValue (eval fuel) gas scope pos identifier args w = .ok last w₁ →
      (last ≠ none → ∃ v w', evalExprCall (eval fuel) gas scope pos identifier args w = .ok v w') →
        ReturnsLast (evalExprCall (eval fuel) gas scope pos identifier args) w last w₁.state := by
  intro hall
  have hnone : returnsSuch Option.isNone (lastValue (eval 1) 1 0 .unknown "f" [] (worldWith [])) = true := by
    decide +kernel
  obtain ⟨last, w₁, hlast, hisNone⟩ := exists_of_returnsSuch hnone
  obtain rfl := Option.isNone_iff_eq_none.mp hisNone
  exact not_returnsLast_none hlast (hall _ _ _ _ _ _ _ _ _ hlast fun h => absurd rfl h)

end Blaze
