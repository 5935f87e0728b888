import Blazescript.Eval.Bindings
import Blazescript.Eval.Proofs.ShapeProofs

/-!
# Proofs: what a step binds
-/

namespace Blaze

open Arena Environment Tracing

variable {m m' : Machine} {event : Event} {s : Nat} {name : String}

/-- What a declaration binds. -/
theorem declare_vars {h h' : Scopes Val} {t : Nat} {name' : String} {v : Val} {c : Bool}
    {r : ValmapSetStatus × Option Val × Scopes Val}
    (hd : scopeDeclareIdentifier h t name' v c = some r) (hh : h' = r.2.2) (s : Nat)
    (name : String) : (envOf h').vars s name = (envOf h).vars s name ∨
      s = t ∧ name = name' ∧ (envOf h).vars s name = none ∧
        (envOf h').vars s name = some (v, c) := by
  obtain ⟨-, -, -, henv, -⟩ := scopeDeclareIdentifier_spec hd
  rw [hh, henv]
  split_ifs with hold
  · exact .inl rfl
  · rw [Env.vars_bind]
    split_ifs with hc
    · obtain ⟨rfl, rfl⟩ := hc
      exact .inr ⟨rfl, rfl, by simpa using hold, rfl⟩
    · exact .inl rfl

/-- How a step changes what a scope that exists binds a name to. -/
theorem Trans.bindingChange (h : Trans m event m') (hw : m.Wf) (hs : s < m.scopes.size)
    (name : String) : BindingChange m event m' s name := by
  have hsame : m'.env = m.env → BindingChange m event m' s name := fun he =>
    .same (congrArg (fun env : Env String Val => env.vars s name) he)
  have halloc : ∀ scope, m'.scopes = m.scopes.alloc scope → BindingChange m event m' s name := by
    intro scope he
    refine .same ?_
    show (envOf m'.scopes).vars s name = (envOf m.scopes).vars s name
    rw [he, alloc_vars, if_neg (by omega)]
  cases h with
  | store | value | newSlot | copyBuiltin | call | callBody | «return» | resolve | use | arg
    | activate | builtin => exact hsame rfl
  | copyCustom | newFn | openBlock | openLoop | rescope => exact halloc _ rfl
  | loopIds frame stack t scope prevUniqueId uniqueId hs' hl hr =>
    obtain ⟨-, hp⟩ := Heap.read_eq_some.mp hr
    refine .same ?_
    simp only [Machine.env, envOf, Heap.peek_write]
    split_ifs with ht
    · simp [ht, hp]
    · rfl
  | closeScope m₁ frame stack t hs' hl hf =>
    obtain ⟨scopes, slots, hF, -⟩ := scopeFree_spec hf
    exact hsame hF.env
  | declare frame stack t name' v c r hs' hn hv hd =>
    rcases declare_vars hd rfl s name with he | ⟨rfl, rfl, hold, hnew⟩
    · exact .same he
    · exact .declared frame stack r.1 _ hs' hn rfl hold hnew
  | param frame stack f fn t name' v r hs' hr hn hv hd =>
    rcases declare_vars hd rfl s name with he | ⟨rfl, rfl, hold, hnew⟩
    · exact .same he
    · exact .param frame stack f fn r.1 v hs' hr hn rfl hold hnew
  | setDefault frame stack t name' v c scopes hs' hn hv hd =>
    obtain ⟨-, -, henv, -⟩ := scopeSetDefault_spec hd
    have hvars : (envOf scopes).vars s name = if s = t ∧ name = name' then
        some (v, ((m.env.vars t name').map Prod.snd).getD c) else m.env.vars s name := by
      rw [henv]
      rfl
    split_ifs at hvars with hc
    · obtain ⟨rfl, rfl⟩ := hc
      exact .set frame stack v c hs' hn rfl hvars
    · exact .same hvars
  | assign frame stack pos namePos name' node r hs' hn ha =>
    obtain ⟨-, henv, -⟩ := assignFrom_spec hw.rooted ha
    have henv₂ : envOf r.2 = (envAssign m.env frame.scope name' m.result).2 := congrArg Prod.snd henv
    by_cases hok : (envAssign m.env frame.scope name' m.result).1 = .setOk
    · obtain ⟨t, old, hb, hold, he⟩ := envAssign_ok hok
      have hvars : (envOf r.2).vars s name = if s = t ∧ name = name' then some (m.result, false)
          else m.env.vars s name := by
        rw [henv₂, he]
        rfl
      split_ifs at hvars with hc
      · obtain ⟨rfl, rfl⟩ := hc
        exact .assigned frame stack pos namePos node old r.1 hs' hn rfl (Env.mem_chain_of_binder hb)
          hold hvars
      · exact .same hvars
    · exact hsame (henv₂.trans (envAssign_rejected hok))

theorem lt_of_vars {b : Val × Bool} (h : m.env.vars s name = some b) : s < m.scopes.size := by
  obtain ⟨scope, hp, -⟩ := Option.bind_eq_some_iff.mp h
  exact Heap.lt_of_peek hp

/-- A name that is bound stays bound, with the same flag. -/
theorem Trans.keeps_flag (h : Trans m event m') (hw : m.Wf) {v : Val} {c : Bool}
    (hb : m.env.vars s name = some (v, c)) : ∃ v', m'.env.vars s name = some (v', c) := by
  cases h.bindingChange hw (lt_of_vars hb) name with
  | same he => exact ⟨v, he.trans hb⟩
  | declared _ _ _ _ _ _ _ hold => simp [hb] at hold
  | param _ _ _ _ _ _ _ _ _ _ hold => simp [hb] at hold
  | set _ _ v' _ _ _ _ hnew => exact ⟨v', by simpa [hb] using hnew⟩
  | assigned _ _ _ _ _ _ _ _ _ _ _ hold hnew =>
    rw [hb] at hold
    obtain ⟨-, rfl⟩ := Prod.mk.inj (Option.some.inj hold)
    exact ⟨_, hnew⟩

/-- A new scope binds the built-in functions. -/
theorem Trans.pristine_new (h : Trans m event m') (hw : m.Wf)
    (hlt : m.scopes.size < m'.scopes.size) : m'.Pristine m.scopes.size := by
  intro name
  rw [h.builtins]
  cases h.scopesChange hw with
  | same size => omega
  | wrote hmaps => have := hmaps.size; omega
  | freed t scopes slots m₁ he hF hs heq =>
    have := hF.size
    rw [heq] at hlt
    omega
  | opened p scope hp hparent hin hvars heq =>
    show (envOf m'.scopes).vars _ name = _
    rw [heq, alloc_vars, if_pos rfl, hvars]

end Blaze
