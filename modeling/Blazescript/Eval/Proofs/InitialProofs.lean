import Blazescript.Eval.Proofs.ValueProofs
import Blazescript.Eval.Release

/-!
# Proofs: the initial state

What holds once `scope_create_global` has returned.
-/

namespace Blaze

open Arena Environment Machine

/-- What allocating the built-in functions keeps. -/
structure OnlyBuiltins (m : Machine) : Prop where
  head : m.tbl.head = []
  scopes : m.scopes = .empty
  result : m.result = nullVal
  values : ∀ b ∈ m.builtins, b.2.nofree = true ∧
    (∃ index, b.2.selfPtr = some index ∧ index < m.tbl.values.length) ∧
    ∃ f, b.2.data = .function f ∧ f < m.fns.size
  fns : ∀ f fn, m.fns.peek f = some fn → ∃ callback, fn = ⟨some callback, [], [], none⟩

theorem OnlyBuiltins.add {m : Machine} (h : OnlyBuiltins m) (b : String × BuiltinFn) :
    OnlyBuiltins (m.addBuiltin b) ∧ (m.addBuiltin b).stack = m.stack := by
  rcases m.tbl.alloc_cases with ⟨index, next, h1, -⟩ | ⟨-, hindex, hhead, v, hvalues⟩
  · simp [h.head] at h1
  have hlen : (m.addBuiltin b).tbl.values.length = m.tbl.values.length + 1 := by
    simp [addBuiltin, ValAllocTbl.store, hvalues]
  have hsize : (m.addBuiltin b).fns.size = m.fns.size + 1 := by simp [addBuiltin]
  refine ⟨⟨hhead, h.scopes, h.result, fun b' hb => ?_, fun f fn hf => ?_⟩, rfl⟩
  · rw [hlen, hsize]
    rcases List.mem_append.mp hb with hb | hb
    · obtain ⟨hn, ⟨index, hi, hlt⟩, f, hf, hflt⟩ := h.values b' hb
      exact ⟨hn, ⟨index, hi, by omega⟩, f, hf, by omega⟩
    · obtain rfl := List.mem_singleton.mp hb
      exact ⟨rfl, ⟨m.tbl.alloc.1, rfl, by omega⟩, m.fns.size, rfl, by omega⟩
  · have hf' : (m.fns.alloc ⟨some b.2, [], [], none⟩).peek f = some fn := hf
    rw [Heap.peek_alloc] at hf'
    split_ifs at hf'
    · exact ⟨b.2, (Option.some.inj hf').symm⟩
    · exact h.fns f fn hf'

theorem OnlyBuiltins.addAll (bs : List (String × BuiltinFn)) :
    ∀ {m : Machine}, OnlyBuiltins m →
      OnlyBuiltins (bs.foldl addBuiltin m) ∧ (bs.foldl addBuiltin m).stack = m.stack := by
  induction bs with
  | nil => exact fun h => ⟨h, rfl⟩
  | cons b bs ih =>
    intro m h
    obtain ⟨h1, hs1⟩ := h.add b
    obtain ⟨h2, hs2⟩ := ih h1
    exact ⟨h2, hs2.trans hs1⟩

/-- The initial state: the global scope, which binds the built-in functions and the three names
`true`, `false` and `null`. -/
structure Initial (root : AstNode) (m : Machine) : Prop where
  head : m.tbl.head = []
  stack : m.stack = [⟨0, root, .none⟩]
  result : m.result = nullVal
  values : ∀ b ∈ m.builtins, b.2.nofree = true ∧
    (∃ index, b.2.selfPtr = some index ∧ index < m.tbl.values.length) ∧
    ∃ f, b.2.data = .function f ∧ f < m.fns.size
  fns : ∀ f fn, m.fns.peek f = some fn → ∃ callback, fn = ⟨some callback, [], [], none⟩
  scopes : m.scopes = Heap.empty.alloc (scopeCreateGlobal trueVal falseVal nullVal m.builtins)

theorem initial_spec (root : AstNode) (stdin : List String) (strerror : String) :
    Initial root (.initial root stdin strerror) := by
  have h0 : OnlyBuiltins (.empty root stdin strerror) :=
    ⟨rfl, rfl, rfl, by simp [Machine.empty], fun f fn h => by
      simp [Machine.empty, Heap.peek, Heap.empty] at h⟩
  obtain ⟨h, hs⟩ := OnlyBuiltins.addAll builtinFunctions h0
  unfold Machine.initial
  generalize builtinFunctions.foldl addBuiltin (.empty root stdin strerror) = m at h hs
  exact ⟨h.head, hs, h.result, h.values, h.fns, by simp only [h.scopes]⟩

/-! ## The program and the input -/

theorem foldl_addBuiltin_with (bs : List (String × BuiltinFn)) (m : Machine) (stack : List Frame)
    (store : Store) : bs.foldl addBuiltin { m with stack := stack, store := store } =
      { bs.foldl addBuiltin m with stack := stack, store := store } := by
  induction bs generalizing m with
  | nil => rfl
  | cons b bs ih => exact ih (m.addBuiltin b)

/-- The program and the input are in the stack and the store only. -/
theorem initial_with (root : AstNode) (stdin : List String) (strerror : String) :
    Machine.initial root stdin strerror = { Machine.initial (.root .unknown []) [] "" with
      stack := [⟨0, root, .none⟩], store := ⟨.empty, .empty, none, stdin, strerror, []⟩ } := by
  have hempty : Machine.empty root stdin strerror = { Machine.empty (.root .unknown []) [] "" with
      stack := [⟨0, root, .none⟩], store := ⟨.empty, .empty, none, stdin, strerror, []⟩ } := rfl
  unfold Machine.initial
  rw [hempty, foldl_addBuiltin_with]

theorem initial_store (root : AstNode) (stdin : List String) (strerror : String) :
    (Machine.initial root stdin strerror).store = ⟨.empty, .empty, none, stdin, strerror, []⟩ := by
  rw [initial_with]

/-- A name of the global scope that a built-in function is found under. -/
structure Resolves (m : Machine) (name : String) (callback : BuiltinFn) (ptr : EntryPtr) (f : Nat) (fn : FnVal) :
    Prop where
  found : scopeResolveIdentifier m.scopes 0 name = some (some ptr)
  entry : (readEntry m.scopes ptr).map (fun b => b.1.data) = some (.function f)
  read : m.fns.read f = some fn
  callback : fn.builtInCallback = some callback

theorem println_resolves (root : AstNode) (stdin : List String) (strerror : String) :
    ∃ ptr f fn, Resolves (.initial root stdin strerror) "println" .println ptr f fn := by
  rw [initial_with]
  refine ⟨⟨0, 0, 2⟩, 0, ⟨some .println, [], [], none⟩, ?_⟩
  constructor
  · show scopeResolveIdentifier (Machine.initial (.root .unknown []) [] "").scopes _ _ = _
    decide +kernel
  · show (readEntry (Machine.initial (.root .unknown []) [] "").scopes _).map _ = _
    decide +kernel
  · rfl
  · rfl

end Blaze
