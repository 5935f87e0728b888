import Blazescript.Environment.Proofs.EnvProofs
import Blazescript.Language.Represents

/-!
# Proofs: scopes and layers

Finding a name, assigning it and declaring it in the scopes does the same as in the layers.
-/

namespace Blaze

open Arena Environment Tracing

variable {m m' : Machine} {memory : Memory} {scopes : List Nat} {layers : List Layer} {layer : Layer} {s : Nat}
  {name : String} {v : Val} {value : Scalar}

/-! ## Layers -/

theorem Layer.vars_bind (layer : Layer) (name : String) (value : Scalar) (isConst : Bool) (k : String) :
    (layer.bind name value isConst).vars k = if k = name then some (value, isConst) else layer.vars k := rfl

theorem Layer.vars_next (layer : Layer) (k : Nat) (varname : String) (name : String) :
    (layer.next k (some varname)).vars name =
      if name = varname then some (.integer k, ((layer.vars varname).map Prod.snd).getD true) else layer.vars name := rfl

/-! ## States that differ elsewhere -/

theorem Machine.HasBuiltins.congr (h : m.HasBuiltins) (hbuiltins : m'.builtins = m.builtins)
    (hfns : m'.fns = m.fns) : m'.HasBuiltins := by
  refine ⟨fun name => ?_, fun name v hv => ?_⟩
  · rw [hbuiltins]
    exact h.lookup name
  · rw [hbuiltins] at hv
    rw [hfns]
    exact h.callback name v hv

theorem Machine.ScopeIs.congr (h : m.ScopeIs s layer) (hbuiltins : m'.builtins = m.builtins)
    (hlive : m'.scopes.isLive s = m.scopes.isLive s) (hvars : ∀ name, m'.env.vars s name = m.env.vars s name) :
    m'.ScopeIs s layer := by
  refine ⟨hlive.trans h.live, fun name v hv => ?_, fun name hn => ?_⟩
  · rw [hvars]
    rw [hbuiltins] at hv
    exact h.builtin name v hv
  · rw [hvars]
    exact h.vars name hn

/-- Other frames, another result, and other strings and vectors make no difference. -/
theorem Machine.Represents.congr (h : m.Represents memory scopes) (hscopes : m'.scopes = m.scopes)
    (hbuiltins : m'.builtins = m.builtins) (hfns : m'.fns = m.fns) (htbl : m'.tbl = m.tbl)
    (hout : m'.store.stdout = m.store.stdout) (herror : m'.store.evalFnError = m.store.evalFnError) : m'.Represents memory scopes := by
  have henv : m'.env = m.env := congrArg envOf hscopes
  refine ⟨?_, ?_, h.builtins.congr hbuiltins hfns, ?_, ?_, hout.trans h.out, htbl ▸ h.room, herror.trans h.error⟩
  · rw [henv]
    exact h.rooted
  · rw [henv]
    exact h.chain
  · refine h.layers.imp fun s layer hs => hs.congr hbuiltins ?_ fun name => ?_
    · rw [hscopes]
    · rw [henv]
  · have hreuses : m'.reuses = m.reuses := by
      unfold Machine.reuses
      rw [hscopes]
    rw [hreuses]
    exact h.replaces

theorem Machine.Represents.wrote {out : List Output} (h : m.Represents memory scopes) (hscopes : m'.scopes = m.scopes)
    (hbuiltins : m'.builtins = m.builtins) (hfns : m'.fns = m.fns) (htbl : m'.tbl = m.tbl)
    (hout : m'.store.stdout = m.store.stdout ++ out) (herror : m'.store.evalFnError = m.store.evalFnError) :
    m'.Represents { memory with out := memory.out ++ out } scopes := by
  have hsame : ({ m' with store := m.store } : Machine).Represents memory scopes :=
    h.congr hscopes hbuiltins hfns htbl rfl rfl
  refine ⟨hsame.rooted, hsame.chain, hsame.builtins.congr rfl rfl, ?_, hsame.replaces, ?_, hsame.room, herror.trans h.error⟩
  · exact hsame.layers.imp fun s layer hs => hs.congr rfl rfl fun _ => rfl
  · rw [hout, h.out]

theorem Machine.Represents.hasWritten {w : World Machine Event} (h : w.state.Represents memory scopes) :
    HasWritten w memory := ⟨h.out, h.room.unmoved⟩

theorem Machine.Represents.live (h : m.Represents memory scopes) (hs : s ∈ scopes) : m.scopes.isLive s = true := by
  obtain ⟨i, hi, rfl⟩ := List.getElem_of_mem hs
  exact (List.forall₂_iff_get.mp h.layers).2 i hi (h.layers.length_eq ▸ hi) |>.live

/-- The innermost scope, and the chain from it up. -/
theorem Machine.Represents.chain_eq {rest : List Nat} (h : m.Represents memory (s :: rest)) :
    Arena.chain m.env.parent s = s :: rest := h.chain s rfl

theorem Machine.Represents.head {rest : List Nat} (h : m.Represents memory (s :: rest)) :
    ∃ layer layers, memory.layers = layer :: layers ∧ m.ScopeIs s layer ∧ m.reuses s = layer.replaces ∧
      List.Forall₂ m.ScopeIs rest layers ∧ rest.map m.reuses = layers.map Layer.replaces := by
  have hlayers := h.layers
  have hreplaces := h.replaces
  cases hl : memory.layers with
  | nil =>
    rw [hl] at hlayers
    cases hlayers
  | cons layer layers =>
    rw [hl] at hlayers hreplaces
    obtain ⟨hhead, htail⟩ := List.forall₂_cons.mp hlayers
    obtain ⟨hhead', htail'⟩ := List.cons.inj hreplaces
    exact ⟨layer, layers, rfl, hhead, hhead', htail, htail'⟩

/-! ## Finding a name -/

theorem Machine.ScopeIs.cases (h : m.ScopeIs s layer) (hn : NotBuiltin name) :
    (m.env.vars s name = none ∧ layer.vars name = none) ∨
      ∃ v value isConst, m.env.vars s name = some (v, isConst) ∧ layer.vars name = some (value, isConst) ∧
        v.Is value := by
  have hrel := h.vars name hn
  cases hv : m.env.vars s name with
  | none =>
    cases hl : layer.vars name with
    | none => exact .inl ⟨rfl, rfl⟩
    | some b =>
      rw [hv, hl] at hrel
      cases hrel
  | some b =>
    cases hl : layer.vars name with
    | none =>
      rw [hv, hl] at hrel
      cases hrel
    | some b' =>
      rw [hv, hl] at hrel
      cases hrel with
      | some hb =>
        obtain ⟨his, hconst⟩ := hb
        refine .inr ⟨b.1, b'.1, b.2, rfl, ?_, his⟩
        rw [hconst]

/-- The scopes bind a name as the layers do: not at all, or the innermost scope that does is at the place of the
innermost layer. -/
theorem find_layers (h : List.Forall₂ m.ScopeIs scopes layers) (hn : NotBuiltin name) :
    (scopes.find? (fun s => (m.env.vars s name).isSome) = none ∧ lookupIn name layers = none) ∨
      ∃ s v value isConst, scopes.find? (fun s => (m.env.vars s name).isSome) = some s ∧
        m.env.vars s name = some (v, isConst) ∧ lookupIn name layers = some (value, isConst) ∧ v.Is value := by
  induction h with
  | nil => exact .inl ⟨rfl, rfl⟩
  | @cons s layer scopes layers hs _ ih =>
    rcases hs.cases hn with ⟨hv, hl⟩ | ⟨v, value, isConst, hv, hl, his⟩
    · have hfind : (s :: scopes).find? (fun s => (m.env.vars s name).isSome) =
          scopes.find? fun s => (m.env.vars s name).isSome := by
        rw [List.find?_cons_of_neg]
        rw [hv]
        exact Bool.false_ne_true
      have hlookup : lookupIn name (layer :: layers) = lookupIn name layers := by
        rw [lookupIn, hl]
        rfl
      rw [hfind, hlookup]
      exact ih
    · refine .inr ⟨s, v, value, isConst, ?_, hv, ?_, his⟩
      · rw [List.find?_cons_of_pos]
        rw [hv]
        rfl
      · rw [lookupIn, hl]
        rfl

/-- Looking a name up from the innermost scope. -/
theorem Machine.Represents.lookup {rest : List Nat} (h : m.Represents memory (s :: rest)) (hn : NotBuiltin name) :
    (m.env.binder s name = none ∧ m.env.find s name = none ∧ lookupIn name memory.layers = none) ∨
      ∃ t v value isConst, m.env.binder s name = some t ∧ m.env.find s name = some (v, isConst) ∧
        lookupIn name memory.layers = some (value, isConst) ∧ v.Is value := by
  have hbinder : m.env.binder s name = (s :: rest).find? fun s => (m.env.vars s name).isSome := by
    unfold Env.binder
    rw [h.chain_eq]
  rcases find_layers h.layers hn with ⟨hfind, hlookup⟩ | ⟨t, v, value, isConst, hfind, hv, hlookup, his⟩
  · rw [← hbinder] at hfind
    refine .inl ⟨hfind, ?_, hlookup⟩
    unfold Env.find
    rw [hfind]
    rfl
  · rw [← hbinder] at hfind
    exact .inr ⟨t, v, value, isConst, hfind, (Env.find_of_binder hfind).trans hv, hlookup, his⟩

/-! ## Binding a name -/

theorem forall₂_imp_of_mem {α β : Type} {R R' : α → β → Prop} {as : List α} {bs : List β} (h : List.Forall₂ R as bs)
    (hR : ∀ a ∈ as, ∀ b, R a b → R' a b) : List.Forall₂ R' as bs := by
  induction h with
  | nil => exact .nil
  | cons hab _ ih =>
    obtain ⟨ha, has⟩ := List.forall_mem_cons.mp hR
    exact .cons (ha _ hab) (ih has)

/-- A scope of which one name has been bound to another value. -/
theorem Machine.ScopeIs.bind {isConst : Bool} (h : m.ScopeIs s layer) (hn : NotBuiltin name)
    (hb : m.HasBuiltins) (hbuiltins : m'.builtins = m.builtins)
    (hlive : m'.scopes.isLive s = m.scopes.isLive s)
    (hvars : ∀ k, m'.env.vars s k = if k = name then some (v, isConst) else m.env.vars s k) (his : v.Is value) :
    m'.ScopeIs s (layer.bind name value isConst) := by
  refine ⟨hlive.trans h.live, fun k u hu => ?_, fun k hk => ?_⟩
  · rw [hbuiltins] at hu
    have hne : k ≠ name := by
      rintro rfl
      rw [(hb.lookup k).mpr hn] at hu
      cases hu
    rw [hvars, if_neg hne]
    exact h.builtin k u hu
  · rw [hvars]
    show Option.Rel SameBinding _ (if k = name then some (value, isConst) else layer.vars k)
    by_cases hkn : k = name
    · rw [if_pos hkn, if_pos hkn]
      exact .some ⟨his, rfl⟩
    · rw [if_neg hkn, if_neg hkn]
      exact h.vars k hk

theorem assignIn_layers (h : List.Forall₂ m.ScopeIs scopes layers) (hnodup : scopes.Nodup) (hn : NotBuiltin name)
    (hb : m.HasBuiltins) (hbuiltins : m'.builtins = m.builtins)
    (hlive : ∀ s, m'.scopes.isLive s = m.scopes.isLive s) {t : Nat}
    (hfind : scopes.find? (fun s => (m.env.vars s name).isSome) = some t)
    (hvars : ∀ s k, m'.env.vars s k = if s = t ∧ k = name then some (v, false) else m.env.vars s k)
    (his : v.Is value) : List.Forall₂ m'.ScopeIs scopes (assignIn name value layers) := by
  induction h with
  | nil => cases hfind
  | @cons s layer scopes layers hs hrest ih =>
    obtain ⟨hs', hnodup'⟩ := List.nodup_cons.mp hnodup
    rcases hs.cases hn with ⟨hv, hl⟩ | ⟨u, value', isConst, hv, hl, -⟩
    · rw [List.find?_cons_of_neg (by rw [hv]; exact Bool.false_ne_true)] at hfind
      have hne : s ≠ t := by
        rintro rfl
        exact hs' (List.mem_of_find?_eq_some hfind)
      rw [assignIn, hl, Option.isSome_none, if_neg Bool.false_ne_true]
      refine .cons (hs.congr hbuiltins (hlive s) fun k => ?_) (ih hnodup' hfind)
      rw [hvars, if_neg fun hc => hne hc.1]
    · rw [List.find?_cons_of_pos (by rw [hv]; rfl)] at hfind
      obtain rfl := Option.some.inj hfind
      rw [assignIn, hl, Option.isSome_some, if_pos rfl]
      refine .cons (hs.bind hn hb hbuiltins (hlive s) (fun k => ?_) his) ?_
      · rw [hvars]
        simp only [true_and]
      · refine forall₂_imp_of_mem hrest fun s' hmem layer' hs'' => ?_
        refine hs''.congr hbuiltins (hlive s') fun k => ?_
        have hne : s' ≠ s := fun hc => hs' (hc ▸ hmem)
        rw [hvars, if_neg fun hc => hne hc.1]

end Blaze
