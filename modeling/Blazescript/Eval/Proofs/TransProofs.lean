import Blazescript.Eval.Eval
import Blazescript.Eval.Proofs.ReleaseProofs
import Blazescript.Eval.Trans
import Blazescript.Tracing.Proofs.RecorderProofs

/-!
# Proofs: the evaluator refines the transition system

One lemma for each function of the evaluator: run with its frame innermost, it takes only steps of
the transition system, and returns with that frame innermost again and its result recorded.
-/

namespace Blaze

open Arena Environment Tracing

/-- The frame of a call of `eval` is innermost, with the given locals. -/
def Inside (scope : Nat) (node : AstNode) (stack : List Frame) (locals : Locals)
    (P : Machine → Prop) (m : Machine) : Prop :=
  m.stack = ⟨scope, node, locals⟩ :: stack ∧ P m

/-- The program takes only steps of the transition system while the frame runs. -/
abbrev FollowsIn (scope : Nat) (node : AstNode) (stack : List Frame) {α : Type}
    (P : Machine → Prop) (x : Eval α) (Q : α → Machine → Prop) : Prop :=
  Follows (TransAbove scope node stack) P x Q

/-- The evaluation of a node in a scope, from the call to the return. -/
def EvalFollows (rec : Nat → AstNode → Eval Val) : Prop :=
  ∀ scope node stack, FollowsIn scope node stack (Inside scope node stack .none fun _ => True)
    (rec scope node)
    fun v m => m.result = v ∧ ∃ locals, locals.activation = none ∧
      m.stack = ⟨scope, node, locals⟩ :: stack

theorem TransAbove.outer {scope scope' : Nat} {node node' : AstNode} {stack : List Frame}
    {locals : Locals} {m m' : Machine} {event : Event}
    (h : TransAbove scope' node' (⟨scope, node, locals⟩ :: stack) m event m') :
    TransAbove scope node stack m event m' := by
  obtain ⟨ht, ⟨inner, locals₁, h1⟩, inner', locals₂, h2⟩ := h
  exact ⟨ht, ⟨inner ++ [⟨scope', node', locals₁⟩], locals, by simp [h1]⟩,
    inner' ++ [⟨scope', node', locals₂⟩], locals, by simp [h2]⟩

section Step

variable {scope : Nat} {node : AstNode} {stack : List Frame} {α : Type} {l l' : Locals}
  {P P' : Machine → Prop}

/-- A step of the innermost frame. -/
theorem follows_step {Q : α → Machine → Prop} {f : Machine → Option (α × Event × Machine)}
    (h : ∀ m a event m', m.stack = ⟨scope, node, l⟩ :: stack → P m → f m = some (a, event, m') →
      Trans m event m' ∧ m'.stack = ⟨scope, node, l'⟩ :: stack ∧ Q a m') :
    FollowsIn scope node stack (Inside scope node stack l P) (Recorder.perform .undefined f)
      fun a => Inside scope node stack l' (Q a) := by
  refine follows_perform fun m a event m' ⟨hs, hP⟩ hf => ?_
  obtain ⟨ht, hs', hQ⟩ := h m a event m' hs hP hf
  exact ⟨⟨ht, ⟨[], l, hs⟩, [], l', hs'⟩, hs', hQ⟩

theorem follows_act {Q : Machine → Prop} {event : Event} {f : Machine → Option Machine}
    (h : ∀ m m', m.stack = ⟨scope, node, l⟩ :: stack → P m → f m = some m' →
      Trans m event m' ∧ m'.stack = ⟨scope, node, l'⟩ :: stack ∧ Q m') :
    FollowsIn scope node stack (Inside scope node stack l P) (act event f)
      fun _ => Inside scope node stack l' Q := by
  refine follows_step fun m a event' m' hs hP hf => ?_
  obtain ⟨m'', hm, heq⟩ := Option.map_eq_some_iff.mp hf
  simp only [Prod.mk.injEq, true_and] at heq
  obtain ⟨rfl, rfl⟩ := heq
  exact h m m'' hs hP hm

theorem follows_get {Q : α → Machine → Prop} {f : Machine → Option α}
    (h : ∀ m a, m.stack = ⟨scope, node, l⟩ :: stack → P m → f m = some a → Q a m) :
    FollowsIn scope node stack (Inside scope node stack l P)
      (Recorder.readOrThrow .undefined f) fun a => Inside scope node stack l (Q a) :=
  follows_readOrThrow fun m a ⟨hs, hP⟩ hf => ⟨hs, h m a hs hP hf⟩

theorem Inside.imp (h : ∀ m, P m → P' m) {m : Machine} (hm : Inside scope node stack l P m) :
    Inside scope node stack l P' m := ⟨hm.1, h m hm.2⟩

theorem Inside.any {m : Machine} (hm : Inside scope node stack l P m) :
    Inside scope node stack l (fun _ => True) m := ⟨hm.1, trivial⟩

/-! ## Values, strings and vectors -/

theorem giveValue_follows {v : Val} (hv : ∀ m, P m → v.Plain ∨ m.Bound v) :
    FollowsIn scope node stack (Inside scope node stack l P) (giveValue v)
      fun a => Inside scope node stack l fun m => m.result = a := by
  refine follows_step fun m a event m' hs hP hf => ?_
  simp only [Option.some.injEq, Prod.mk.injEq] at hf
  obtain ⟨rfl, rfl, rfl⟩ := hf
  exact ⟨.value m v (hv m hP), hs, rfl⟩

theorem plain_ofData {data : ValData} (h : ∀ f, data ≠ .function f) : (Val.ofData data).Plain :=
  ⟨rfl, h⟩

theorem plain_nullVal : nullVal.Plain := ⟨rfl, fun _ h => by cases h⟩

theorem givePlain_follows {data : ValData} (h : ∀ f, data ≠ .function f) :
    FollowsIn scope node stack (Inside scope node stack l P) (giveValue (.ofData data))
      fun a => Inside scope node stack l fun m => m.result = a :=
  giveValue_follows fun _ _ => .inl (plain_ofData h)

theorem giveNull_follows :
    FollowsIn scope node stack (Inside scope node stack l P) (giveValue nullVal)
      fun a => Inside scope node stack l fun m => m.result = a :=
  giveValue_follows fun _ _ => .inl plain_nullVal

theorem giveBlazeNull_follows :
    FollowsIn scope node stack (Inside scope node stack l P) (giveValue blazeNull)
      fun a => Inside scope node stack l fun m => m.result = a :=
  givePlain_follows fun _ h => by cases h

/-- A property that does not speak of the store. -/
def StoreFree (P : Machine → Prop) : Prop := ∀ m store, P m → P { m with store := store }

theorem storeFree_true : StoreFree fun _ => True := fun _ _ _ => trivial

theorem storeFree_result {v : Val} : StoreFree fun m => m.result = v := fun _ _ h => h

theorem Store.extends_of_eq {store store' : Store} (hstrings : store'.strings = store.strings)
    (hvectors : store'.vectors = store.vectors) : store.Extends store' := by
  refine ⟨fun s text hs => ?_, fun a ha => ?_⟩
  · rw [hstrings]
    exact hs
  · rw [hvectors]
    exact ha

theorem Store.extends_string (store : Store) (text : String) :
    store.Extends { store with strings := store.strings.alloc text } :=
  ⟨fun _ _ hs => Heap.read_alloc_of_read hs, fun _ ha => ha⟩

theorem Store.extends_vector (store : Store) :
    store.Extends { store with vectors := store.vectors.alloc [] } := by
  refine ⟨fun _ _ hs => hs, fun a ha => ?_⟩
  show (store.vectors.alloc []).isLive a = true
  rw [Heap.isLive_alloc, ha, Bool.or_true]

theorem Store.extends_push (store : Store) (a : Nat) (slots : List (Option Nat)) :
    store.Extends { store with vectors := store.vectors.write a slots } := by
  refine ⟨fun _ _ hs => hs, fun b hb => ?_⟩
  show (store.vectors.write a slots).isLive b = true
  rw [Heap.isLive_write]
  exact hb

/-- A step on the store leaves alone what does not speak of the store. -/
theorem updateStore_follows {f : Store → Store} (hP : StoreFree P)
    (hstore : ∀ store, (f store).strings = store.strings ∧ (f store).vectors = store.vectors) :
    FollowsIn scope node stack (Inside scope node stack l P) (updateStore f)
      fun _ => Inside scope node stack l P :=
  follows_act fun m m' hs hPm hf => by
    simp only [Option.some.injEq] at hf
    subst hf
    exact ⟨.store m _ (Store.extends_of_eq (hstore m.store).1 (hstore m.store).2), hs, hP _ _ hPm⟩

theorem newString_follows {s : String} (hP : StoreFree P) :
    FollowsIn scope node stack (Inside scope node stack l P) (newString s)
      fun _ => Inside scope node stack l P :=
  follows_step fun m a event m' hs hPm hf => by
    simp only [Option.some.injEq, Prod.mk.injEq] at hf
    obtain ⟨-, rfl, rfl⟩ := hf
    exact ⟨.store m _ (m.store.extends_string s), hs, hP _ _ hPm⟩

theorem vectorInit_follows (hP : StoreFree P) :
    FollowsIn scope node stack (Inside scope node stack l P) vectorInit
      fun _ => Inside scope node stack l P :=
  follows_step fun m a event m' hs hPm hf => by
    simp only [Option.some.injEq, Prod.mk.injEq] at hf
    obtain ⟨-, rfl, rfl⟩ := hf
    exact ⟨.store m _ m.store.extends_vector, hs, hP _ _ hPm⟩

theorem vectorPush_follows {vector : Nat} {element : Option Nat}
    (hP : StoreFree P) :
    FollowsIn scope node stack (Inside scope node stack l P) (vectorPush vector element)
      fun _ => Inside scope node stack l P :=
  follows_act fun m m' hs hPm hf => by
    obtain ⟨data, -, rfl⟩ := Option.map_eq_some_iff.mp hf
    exact ⟨.store m _ (m.store.extends_push vector _), hs, hP _ _ hPm⟩

theorem getStore_follows {f : Store → Option α} :
    FollowsIn scope node stack (Inside scope node stack l P) (getStore f)
      fun _ => Inside scope node stack l P :=
  follows_get fun _ _ _ hP _ => hP

theorem newSlot_follows {data : ValData} (hd : ∀ f, data ≠ .function f) :
    FollowsIn scope node stack (Inside scope node stack l P) (newSlot data)
      fun a => Inside scope node stack l fun m => m.result = a :=
  follows_step fun m a event m' hs _ hf => by
    simp only [Option.some.injEq, Prod.mk.injEq] at hf
    obtain ⟨rfl, rfl, rfl⟩ := hf
    exact ⟨.newSlot m data hd, hs, rfl⟩

/-! ## Functions -/

theorem copyBody_follows {body : List AstNode} :
    FollowsIn scope node stack (Inside scope node stack l P) (copyBody body)
      fun _ => Inside scope node stack l P := by
  unfold copyBody
  split
  · exact follows_pure fun _ h => h
  · exact follows_throw

theorem newFn_follows {body : List AstNode} {paramNames : List String} :
    FollowsIn scope node stack (Inside scope node stack l P) (newFn scope body paramNames)
      fun a => Inside scope node stack l fun m => m.result = a :=
  follows_step fun m a event m' hs _ hf => by
    simp only [Option.some.injEq, Prod.mk.injEq] at hf
    obtain ⟨rfl, rfl, rfl⟩ := hf
    exact ⟨.newFn m ⟨scope, node, l⟩ stack body paramNames hs, hs, rfl⟩

theorem copyFn_follows {orig : Nat} {fn : FnVal} {body : List AstNode}
    (hf : ∀ m, P m → m.fns.read orig = some fn) :
    FollowsIn scope node stack (Inside scope node stack l P) (copyFn orig fn body)
      fun a => Inside scope node stack l fun m => m.result = a :=
  follows_step fun m a event m' hs hP hc => by
    rcases hb : fn.builtInCallback with _ | callback
    · simp only [hb, Option.some.injEq, Prod.mk.injEq] at hc
      obtain ⟨rfl, rfl, rfl⟩ := hc
      exact ⟨.copyCustom m orig fn body (hf m hP) hb, hs, rfl⟩
    · simp only [hb, Option.some.injEq, Prod.mk.injEq] at hc
      obtain ⟨rfl, rfl, rfl⟩ := hc
      exact ⟨.copyBuiltin m orig fn (hf m hP) (by simp [hb]), hs, rfl⟩

theorem valCopyDeep_follows {orig : Val} :
    FollowsIn scope node stack (Inside scope node stack l P) (valCopyDeep orig)
      fun a => Inside scope node stack l fun m => m.result = a := by
  unfold valCopyDeep
  split
  · exact giveNull_follows
  · refine (getStore_follows (P := fun _ => True)).pre (fun _ h => h.any) |>.bind fun text => ?_
    exact (newString_follows storeFree_true).bind fun s => newSlot_follows fun f h => by cases h
  · refine ((vectorInit_follows storeFree_true).pre fun _ h => h.any).bind fun a => ?_
    exact newSlot_follows fun f h => by cases h
  · rename_i f hdata
    refine (follows_get (Q := fun fn m => m.fns.read f = some fn)
      fun _ _ _ _ h => h).bind fun fn => ?_
    split
    · exact copyFn_follows fun _ h => h
    · exact copyBody_follows.bind fun body => copyFn_follows fun _ h => h
  · rename_i hnull hstring harray hfunction
    exact newSlot_follows fun f h => hfunction f h

/-! ## Names -/

theorem derefEntry_follows {val : EntryPtr} :
    FollowsIn scope node stack (Inside scope node stack l P) (derefEntry val)
      fun v => Inside scope node stack l fun m => P m ∧
        ∃ isConst, readEntry m.scopes val = some (v, isConst) :=
  follows_get fun m v _ hP hf => by
    obtain ⟨⟨v', isConst⟩, hr, rfl⟩ := Option.map_eq_some_iff.mp hf
    exact ⟨hP, isConst, hr⟩

theorem bound_of_readEntry {m : Machine} {val : EntryPtr} {v : Val} {isConst : Bool}
    (hr : readEntry m.scopes val = some (v, isConst)) : m.Bound v := by
  obtain ⟨s, hs, hr⟩ := Option.bind_eq_some_iff.mp hr
  obtain ⟨hl, hp⟩ := Heap.read_eq_some.mp hs
  split_ifs at hr with hg
  obtain ⟨e, he, heq⟩ := Option.map_eq_some_iff.mp hr
  simp only [Prod.mk.injEq] at heq
  have hv : v ∈ s.valmap.values := by
    refine List.mem_map.mpr ⟨e, List.reduceOption_mem_iff.mpr ?_, heq.1⟩
    rw [Option.join_eq_some_iff] at he
    exact List.mem_of_getElem? he
  obtain ⟨name, c, hb⟩ := Valmap.mem_values.mp hv
  exact ⟨val.scope, name, c, hl, (vars_of_peek hp name).trans hb⟩

theorem declareIdentifier_follows {s : Nat} {name : String} {value : Val} {isConst : Bool}
    (hn : Frame.Declares ⟨scope, node, l⟩ name s) (hv : ∀ m, P m → value = m.result ∨ value.Plain) :
    FollowsIn scope node stack (Inside scope node stack l P)
      (declareIdentifier s name value isConst) fun _ => Inside scope node stack l fun _ => True :=
  follows_step fun m a event m' hs hP hf => by
    obtain ⟨r, hr, heq⟩ := Option.map_eq_some_iff.mp hf
    simp only [Prod.mk.injEq] at heq
    obtain ⟨-, rfl, rfl⟩ := heq
    exact ⟨.declare m _ stack s name value isConst r hs hn (hv m hP) hr, hs, trivial⟩

theorem setDefaultIn_follows {s : Nat} {name : String} {value : Val} {isConst : Bool}
    (hn : Frame.Declares ⟨scope, node, l⟩ name s) (hv : ∀ m, P m → value = m.result ∨ value.Plain) :
    FollowsIn scope node stack (Inside scope node stack l P)
      (setDefaultIn s name value isConst) fun _ => Inside scope node stack l fun _ => True :=
  follows_act fun m m' hs hP hf => by
    obtain ⟨scopes, hr, rfl⟩ := Option.map_eq_some_iff.mp hf
    exact ⟨.setDefault m _ stack s name value isConst scopes hs hn (hv m hP) hr, hs, trivial⟩

theorem assignIdentifier_follows {pos namePos : Pos} {name : String} {value : Val}
    {valueNode : AstNode} (hn : node = .assignment pos (.identifier namePos name) valueNode)
    (hv : ∀ m, P m → value = m.result) :
    FollowsIn scope node stack (Inside scope node stack l P) (assignIdentifier scope name value)
      fun _ => Inside scope node stack l fun m => m.result = value :=
  follows_step fun m a event m' hs hP hf => by
    obtain ⟨r, hr, heq⟩ := Option.map_eq_some_iff.mp hf
    simp only [Prod.mk.injEq] at heq
    obtain ⟨-, rfl, rfl⟩ := heq
    obtain rfl := hv m hP
    exact ⟨.assign m _ stack pos namePos name valueNode r hs hn hr, hs, rfl⟩

theorem resolveIdentifier_follows {s : Nat} {name : String} :
    FollowsIn scope node stack (Inside scope node stack l P) (resolveIdentifier s name)
      fun r => Inside scope node stack l fun m =>
        scopeResolveIdentifier m.scopes s name = some r :=
  follows_get fun _ _ _ _ hf => hf

/-! ## Frames -/

/-- A call of `eval`: on the return the frame below is as it was. -/
theorem callEval_follows {rec : Nat → AstNode → Eval Val} (hrec : EvalFollows rec)
    {body : Option Nat} {s : Nat} {child : AstNode}
    (hpush : ∀ m, m.stack = ⟨scope, node, l⟩ :: stack → P m →
      Trans m (.call body) { m with stack := ⟨s, child, .none⟩ :: m.stack }) :
    FollowsIn scope node stack (Inside scope node stack l P) (callEval rec body s child)
      fun v => Inside scope node stack l fun m => m.result = v := by
  have hbegin : FollowsIn scope node stack (Inside scope node stack l P)
      (act (.call body) fun m => some { m with stack := ⟨s, child, .none⟩ :: m.stack })
      fun _ => Inside s child (⟨scope, node, l⟩ :: stack) .none fun _ => True := by
    refine follows_perform fun m a event m' ⟨hs, hP⟩ hf => ?_
    simp only [Option.map_some, Option.some.injEq, Prod.mk.injEq, true_and] at hf
    obtain ⟨rfl, rfl⟩ := hf
    have hs' : (⟨s, child, .none⟩ :: m.stack) = ⟨s, child, .none⟩ :: ⟨scope, node, l⟩ :: stack :=
      congrArg _ hs
    exact ⟨⟨hpush m hs hP, ⟨[], l, hs⟩, [⟨s, child, .none⟩], l, hs'⟩, hs', trivial⟩
  refine hbegin.bind fun _ => ?_
  refine ((hrec s child (⟨scope, node, l⟩ :: stack)).conseq (fun _ _ _ h => h.outer)
    (fun _ h => h) fun _ _ h => h).bind fun v => ?_
  refine Follows.bind (Q := fun _ => Inside scope node stack l fun m => m.result = v) ?_
    fun _ => follows_pure fun _ h => h
  refine follows_perform fun m a event m' ⟨hv, l', ha, hs⟩ hf => ?_
  simp only [Option.map_some, Option.some.injEq, Prod.mk.injEq, true_and] at hf
  obtain ⟨rfl, rfl⟩ := hf
  have hpop : ({ m with stack := m.stack.tail } : Machine) =
      { m with stack := ⟨scope, node, l⟩ :: stack } := by rw [hs]; rfl
  rw [hpop]
  exact ⟨⟨.return m _ _ hs (by simp) ha, ⟨[⟨s, child, l'⟩], l, hs⟩, [], l, rfl⟩, rfl, hv⟩

theorem callChild_follows {rec : Nat → AstNode → Eval Val} (hrec : EvalFollows rec)
    {s : Nat} {child : AstNode} (hc : Frame.Calls ⟨scope, node, l⟩ child s) :
    FollowsIn scope node stack (Inside scope node stack l P) (callEval rec none s child)
      fun v => Inside scope node stack l fun m => m.result = v :=
  callEval_follows hrec fun m hs _ => .call m _ stack child s hs hc

theorem withLocals_eq {m : Machine} (hs : m.stack = ⟨scope, node, l⟩ :: stack) (l' : Locals) :
    m.withLocals l' = some { m with stack := ⟨scope, node, l'⟩ :: stack } := by
  simp [Machine.withLocals, hs]

theorem locals_eq {m : Machine} (hs : m.stack = ⟨scope, node, l⟩ :: stack) : m.locals = l := by
  simp [Machine.locals, hs]

theorem openBlock_follows :
    FollowsIn scope node stack (Inside scope node stack .none P) (openBlock scope)
      fun s => Inside scope node stack (.block s) fun _ => True := by
  refine follows_perform fun m s event m' ⟨hs, hP⟩ hf => ?_
  simp only [Machine.withLocals, hs, Option.map_some, Option.some.injEq, Prod.mk.injEq] at hf
  obtain ⟨rfl, rfl, rfl⟩ := hf
  exact ⟨⟨.openBlock m ⟨scope, node, .none⟩ stack hs rfl, ⟨[], _, hs⟩, [], _, rfl⟩, rfl, trivial⟩

theorem openLoop_follows :
    FollowsIn scope node stack (Inside scope node stack .none P) (openLoop scope)
      fun s => Inside scope node stack (.loop s) fun _ => True := by
  refine follows_perform fun m s event m' ⟨hs, hP⟩ hf => ?_
  simp only [Machine.withLocals, hs, Option.map_some, Option.some.injEq, Prod.mk.injEq] at hf
  obtain ⟨rfl, rfl, rfl⟩ := hf
  exact ⟨⟨.openLoop m ⟨scope, node, .none⟩ stack hs rfl, ⟨[], _, hs⟩, [], _, rfl⟩, rfl, trivial⟩

theorem setPrevUniqueId_follows {s counter : Nat} :
    FollowsIn scope node stack (Inside scope node stack (.loop s) P) (setPrevUniqueId s counter)
      fun _ => Inside scope node stack (.loop s) fun _ => True :=
  follows_act fun m m' hs _ hf => by
    obtain ⟨sc, hr, rfl⟩ := Option.map_eq_some_iff.mp hf
    exact ⟨.loopIds m _ stack s sc counter sc.uniqueId hs rfl hr, hs, trivial⟩

theorem setUniqueId_follows {s counter : Nat} :
    FollowsIn scope node stack (Inside scope node stack (.loop s) P) (setUniqueId s counter)
      fun _ => Inside scope node stack (.loop s) fun _ => True :=
  follows_act fun m m' hs _ hf => by
    obtain ⟨sc, hr, rfl⟩ := Option.map_eq_some_iff.mp hf
    exact ⟨.loopIds m _ stack s sc sc.prevUniqueId counter hs rfl hr, hs, trivial⟩

theorem closeScope_follows {s : Nat} (hl : l = .block s ∨ l = .loop s) :
    FollowsIn scope node stack (Inside scope node stack l P) (closeScope s)
      fun _ => Inside scope node stack .none fun _ => True :=
  follows_act fun m m' hs _ hf => by
    obtain ⟨m₁, h1, hf⟩ := Option.bind_eq_some_iff.mp hf
    obtain ⟨scopes, slots, hF, -⟩ := scopeFree_spec h1
    have hs₁ : ({ m₁ with result := nullVal } : Machine).stack = _ := hF.stack.trans hs
    rw [withLocals_eq hs₁, Option.some.injEq] at hf
    subst hf
    exact ⟨.closeScope m m₁ ⟨scope, node, l⟩ stack s hs hl h1, rfl, trivial⟩

/-! ## Calls -/

section Call

variable {val : EntryPtr} {args : List Val} {a : Option (Nat × Nat)}

theorem beginCall_follows {name : String} :
    FollowsIn scope node stack
      (Inside scope node stack .none fun m =>
        scopeResolveIdentifier m.scopes scope name = some (some val)) (beginCall val)
      fun _ => Inside scope node stack (.call val [] none) fun _ => True :=
  follows_act fun m m' hs hP hf => by
    rw [withLocals_eq hs, Option.some.injEq] at hf
    subst hf
    exact ⟨.resolve m _ stack name val hs rfl hP, rfl, trivial⟩

theorem useVal_follows :
    FollowsIn scope node stack (Inside scope node stack (.call val args a) P)
      (act (.use val) some) fun _ => Inside scope node stack (.call val args a) P :=
  follows_act fun m m' hs hP hf => by
    obtain rfl := Option.some.inj hf
    exact ⟨.use m _ stack val args a hs rfl, hs, hP⟩

theorem storeArg_follows {v : Val} :
    FollowsIn scope node stack
      (Inside scope node stack (.call val args none) fun m => m.result = v) (storeArg v)
      fun _ => Inside scope node stack (.call val (args ++ [v]) none) fun _ => True :=
  follows_act fun m m' hs hP hf => by
    simp only [locals_eq hs, withLocals_eq hs, Option.some.injEq] at hf
    subst hf hP
    exact ⟨.arg m _ stack val args hs rfl, rfl, trivial⟩

theorem callee_follows :
    FollowsIn scope node stack (Inside scope node stack (.call val args a) P) (callee val)
      fun r => Inside scope node stack (.call val args a) fun m =>
        P m ∧ m.calleeOf val = some r :=
  useVal_follows.bind fun _ => follows_get fun _ _ _ hP hf => ⟨hP, hf⟩

theorem callArgs_follows :
    FollowsIn scope node stack (Inside scope node stack (.call val args a) P) callArgs
      fun args' => Inside scope node stack (.call val args a) fun m => P m ∧ args' = args :=
  follows_get fun m args' hs hP hf => by
    simp only [locals_eq hs, Option.some.injEq] at hf
    exact ⟨hP, hf.symm⟩

theorem beginBuiltin_follows :
    FollowsIn scope node stack (Inside scope node stack (.call val args none) P) beginBuiltin
      fun args' => Inside scope node stack (.builtin args none) fun _ => args' = args :=
  follows_step fun m args' event m' hs _ hf => by
    simp only [locals_eq hs, withLocals_eq hs, Option.map_some, Option.some.injEq,
      Prod.mk.injEq] at hf
    obtain ⟨rfl, rfl, rfl⟩ := hf
    exact ⟨.builtin m _ stack val args hs rfl, rfl, rfl⟩

theorem activate_follows {f s : Nat} {Q : Machine → Prop}
    (hl : (∃ val args, l = .call val args none) ∨ ∃ args, l = .builtin args none)
    (ha : ∀ m, P m → m.Activates ⟨scope, node, l⟩ f s)
    (hQ : ∀ m stack, P m → Q { m with stack := stack }) :
    FollowsIn scope node stack (Inside scope node stack l P) (activate f s)
      fun _ => Inside scope node stack (l.activate (some (f, s))) Q :=
  follows_act fun m m' hs hP hf => by
    have hm : m' = { m with stack := ⟨scope, node, l.activate (some (f, s))⟩ :: stack } := by
      rcases hl with ⟨val, args, rfl⟩ | ⟨args, rfl⟩ <;>
        simpa only [locals_eq hs, withLocals_eq hs, Locals.activate, Option.some.injEq, eq_comm]
          using hf
    subst hm
    exact ⟨.activate m _ stack f s hs (ha m hP), rfl, hQ m _ hP⟩

theorem declareParam_follows {s : Nat} {name : String} {value : Val} (f : Nat) (fn : FnVal)
    (hr : ∀ m, P m → m.Runs ⟨scope, node, l⟩ f fn s) (hn : name ∈ fn.paramNames)
    (hv : ∀ m, P m → l.Passes m.result value) :
    FollowsIn scope node stack (Inside scope node stack l P) (declareParam s name value)
      fun _ => Inside scope node stack l fun m => ∃ m₀ scopes, P m₀ ∧ m = { m₀ with scopes } :=
  follows_step fun m status event m' hs hP hf => by
    obtain ⟨r, hd, heq⟩ := Option.map_eq_some_iff.mp hf
    simp only [Prod.mk.injEq] at heq
    obtain ⟨-, rfl, rfl⟩ := heq
    exact ⟨.param m _ stack f fn s name value r hs (hr m hP) hn (hv m hP) hd, hs, m, _, hP, rfl⟩

theorem rescope_follows {f : Nat} {Q : Machine → Prop}
    (hc : ∀ m fn, P m → m.fns.read f = some fn → m.Rescopes ⟨scope, node, l⟩ f fn)
    (hQ : ∀ m scopes fns stack, P m → Q { m with scopes := scopes, fns := fns, stack := stack }) :
    FollowsIn scope node stack (Inside scope node stack l P) (rescope f scope)
      fun _ => Inside scope node stack (l.activate none) Q :=
  follows_act fun m m' hs hP hf => by
    obtain ⟨fn, hr, hf⟩ := Option.bind_eq_some_iff.mp hf
    simp only [locals_eq hs, Machine.withLocals, hs, Option.some.injEq] at hf
    subst hf
    exact ⟨.rescope m _ stack f fn hs (hc m fn hP hr), rfl, hQ m _ _ _ hP⟩

end Call

end Step

end Blaze
