import Blazescript.Eval.Persistence
import Blazescript.Eval.Proofs.FilteringProofs
import Blazescript.Tracing.Proofs.HistoryProofs

/-!
# Proofs: what stays in a run
-/

namespace Blaze

open Arena Environment Tracing

variable {m m' m'' : Machine} {event : Event}

theorem Machine.Persists.refl (m : Machine) : m.Persists m where
  builtins := rfl
  scopes := le_rfl
  liveScope := fun _ _ h => h
  parent := fun _ _ _ => rfl
  names := fun _ _ v _ _ h => ⟨v, h⟩
  fns := le_rfl
  liveFn := fun _ _ h => h
  fn := fun _ fn _ h => ⟨fn, h, rfl, rfl⟩

theorem Machine.Persists.trans (h : m.Persists m') (h' : m'.Persists m'') : m.Persists m'' where
  builtins := h'.builtins.trans h.builtins
  scopes := h.scopes.trans h'.scopes
  liveScope := fun s hs hl => h.liveScope s hs (h'.liveScope s (lt_of_lt_of_le hs h.scopes) hl)
  parent := by
    intro s hs hl
    have hs' := lt_of_lt_of_le hs h.scopes
    exact (h'.parent s hs' hl).trans (h.parent s hs (h'.liveScope s hs' hl))
  names := by
    intro s name v isConst hl hv
    have hs := lt_of_vars hv
    obtain ⟨v', hv'⟩ := h.names s name v isConst (h'.liveScope s (lt_of_lt_of_le hs h.scopes) hl) hv
    exact h'.names s name v' isConst hl hv'
  fns := h.fns.trans h'.fns
  liveFn := fun f hf hl => h.liveFn f hf (h'.liveFn f (lt_of_lt_of_le hf h.fns) hl)
  fn := by
    intro f fn hl hf
    have hlt := Heap.lt_of_peek (Heap.read_eq_some.mp hf).2
    obtain ⟨fn', hf', hcallback, hparams⟩ := h.fn f fn (h'.liveFn f (lt_of_lt_of_le hlt h.fns) hl) hf
    obtain ⟨fn'', hf'', hcallback', hparams'⟩ := h'.fn f fn' hl hf'
    exact ⟨fn'', hf'', hcallback'.trans hcallback, hparams'.trans hparams⟩

/-- No function is ever forgotten. -/
theorem FnsChange.size_le {h' : Scopes Val} {fns' : Heap FnVal} (h : FnsChange m event h' fns') :
    m.fns.size ≤ fns'.size := by
  cases h with
  | same he size peek => exact size.ge
  | copied orig fn he hr hb heq =>
    rw [heq, Heap.size_alloc]
    exact Nat.le_succ _
  | made fn he hb hs hsize heq =>
    rw [heq, Heap.size_alloc]
    exact Nat.le_succ _
  | rescoped f fn he hr hsize heq => rw [heq, Heap.size_write]

/-- A freed function stays freed. -/
theorem Trans.liveFn_of (h : Trans m event m') {f : Nat} (hf : f < m.fns.size) (hl : m'.fns.isLive f = true) :
    m.fns.isLive f = true := by
  have halloc : ∀ fn : FnVal, (m.fns.alloc fn).isLive f = true → m.fns.isLive f = true := by
    intro fn hl
    rw [Heap.isLive_alloc, decide_eq_false (Nat.ne_of_lt hf), Bool.false_or] at hl
    exact hl
  cases h with
  | copyBuiltin orig fn hr hb => exact halloc _ hl
  | copyCustom orig fn body hr hb => exact halloc _ hl
  | newFn frame stack body paramNames hs => exact halloc _ hl
  | rescope frame stack g fn hs hc =>
    rw [Heap.isLive_write] at hl
    exact hl
  | closeScope m₁ frame stack s hs hfl hfree =>
    obtain ⟨scopes, slots, hF, -⟩ := scopeFree_spec hfree
    exact hF.fnLive f hl
  | store | value | newSlot | call | callBody | «return» | resolve | use | arg | activate | builtin
    | openBlock | openLoop | loopIds | declare | param | setDefault | assign => exact hl

/-- A step leaves what there is. -/
theorem Trans.persists (h : Trans m event m') (hw : m.Wf) : m.Persists m' := by
  have hscopes := h.scopesChange hw
  refine ⟨h.builtins, hscopes.size_le, fun s hs hl => hscopes.live_of hs hl, fun s hs _ => hscopes.parent hs,
    fun s name v isConst _ hv => h.keeps_flag hw hv, h.fnsChange.size_le, fun f hf hl => h.liveFn_of hf hl,
    fun f fn hl hf => ?_⟩
  have hpeek := (Heap.read_eq_some.mp hf).2
  obtain ⟨fn', hf', hparams, -⟩ := h.fn_text hpeek
  obtain ⟨gn, hgn, hcallback, -⟩ := h.fn_of (Heap.lt_of_peek hpeek) hf'
  rw [hpeek] at hgn
  obtain rfl := Option.some.inj hgn
  exact ⟨fn', Heap.read_eq_some.mpr ⟨hl, hf'⟩, hcallback, hparams⟩

/-- Whatever a program does, and however it ends: from any state of its run to any later one, what there is stays. -/
theorem run_persists (fuel : Nat) (root : AstNode) (stdin : List String) (strerror : String) :
    Ordered Machine.Persists (.initial root stdin strerror) (programSteps fuel root stdin strerror) := by
  have hpath := runProgram_path fuel root stdin strerror
  have hinit : (Machine.initial root stdin strerror).Wf := (initial_spec root stdin strerror).wf
  have hall := hpath.ordered hinit (fun _ _ _ hw ht => ht.wf hw) Machine.Persists.refl
    (fun _ _ _ h h' => h.trans h') fun _ _ _ hw ht => ht.persists hw
  exact hall.1

end Blaze
