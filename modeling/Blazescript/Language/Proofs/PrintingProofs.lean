import Blazescript.Language.Proofs.StatementsProofs

/-!
# Proofs: printing in programs without functions

Quiet expressions leave the scopes alone, so `print` and `println` are still where they were found when the
arguments have been evaluated.
-/

namespace Blaze

open Arena Environment Running Tracing

variable {P : Machine → Prop} {loops : List Nat} {stack : List Frame} {rest : List Nat} {scope : Nat}
  {m m' given : Machine} {memory : Memory} {v : Val} {value : Scalar} {pos : Pos} {name : String} {node : AstNode}
  {ptr : EntryPtr} {vs : List Val} {out : List Output} {outs : List (List Output)} {strings strings' : Heap String}
  {rec : Nat → AstNode → Eval Val} {callback : BuiltinFn}

/-! ## Quiet expressions -/

theorem simulates_evalBinexp {left right : AstNode} {operator : BinOperator} (hP : Lasting P)
    (hl : ∀ stack, Evaluates P stack scope rest left (rec scope left) (meaning left))
    (hr : ∀ stack, Evaluates P stack scope rest right (rec scope right) (meaning right)) :
    Simulates P stack (scope :: rest) (evalBinexp rec scope pos operator left right)
      (meaning (.binaryExpr pos operator left right)) Val.Is := by
  unfold evalBinexp meaning
  refine Simulates.bind ((hl stack).call hP none) fun l lv hl' => ?_
  refine Simulates.bind ((hr stack).call hP none) fun r rv hr' => ?_
  exact simulates_evalBinop hP hl' hr' operator

/-- A quiet expression keeps every property of the scopes, the built-in functions and the strings. -/
theorem quiet_means (h : Quiet node) : ∃ N, ∀ fuel ≥ N, ∀ P, Lasting P → ∀ stack scope rest,
    Evaluates P stack scope rest node (eval fuel scope node) (meaning node) := by
  induction h with
  | intLit pos intval =>
    refine ⟨1, fun fuel hfuel P hP stack scope rest => ?_⟩
    obtain ⟨fuel, rfl⟩ := Nat.exists_eq_add_of_le' hfuel
    unfold meaning
    exact (simulates_giveValue hP ⟨rfl, rfl⟩).evaluates
  | identifier pos symbol hn =>
    refine ⟨1, fun fuel hfuel P hP stack scope rest => ?_⟩
    obtain ⟨fuel, rfl⟩ := Nat.exists_eq_add_of_le' hfuel
    unfold meaning
    exact (simulates_evalIdentifier hP hn).evaluates
  | binaryExpr pos operator left right _ _ ihl ihr =>
    obtain ⟨n, hn⟩ := ihl
    obtain ⟨k, hk⟩ := ihr
    refine ⟨max n k + 1, fun fuel hfuel P hP stack scope rest => ?_⟩
    obtain ⟨f, rfl⟩ : ∃ f, fuel = f + 1 := ⟨fuel - 1, by omega⟩
    have hl : ∀ stack, Evaluates P stack scope rest left (eval f scope left) (meaning left) :=
      fun stack => hn f (by omega) P hP stack scope rest
    have hr : ∀ stack, Evaluates P stack scope rest right (eval f scope right) (meaning right) :=
      fun stack => hk f (by omega) P hP stack scope rest
    exact (simulates_evalBinexp hP hl hr).evaluates

/-! ## Arguments -/

theorem Prints.mono (h : Prints strings v out)
    (hstrings : ∀ s text, strings.read s = some text → strings'.read s = some text) : Prints strings' v out := by
  cases h with
  | scalar his => exact .scalar his
  | string hd hs => exact .string hd (hstrings _ _ hs)

theorem LoopScopes.congr (h : LoopScopes loops m) (hscopes : m'.scopes = m.scopes) : LoopScopes loops m' := by
  intro s hs
  rw [hscopes]
  exact h s hs

theorem meaningPrinted_quiet (h : Quiet node) (args : List AstNode) : meaningPrinted (node :: args) = (do
    let v ← meaning node
    let outs ← meaningPrinted args
    pure (v.printed :: outs)) := by
  cases h <;> rfl

/-- An argument has been evaluated: it is stored with the others. -/
theorem ArgsAt.stored {w w' : World Machine Event} {memory' : Memory}
    (h : ArgsAt loops stack scope rest node ptr given vs outs w memory)
    (hscopes : w'.state.scopes = w.state.scopes) (hbuiltins : w'.state.builtins = w.state.builtins)
    (hrep : w'.state.Represents memory' (scope :: rest))
    (hstrings : ∀ s text, w.state.store.strings.read s = some text → w'.state.store.strings.read s = some text)
    (hstack : w'.state.stack = callFrame scope node ptr vs :: stack) (hprints : Prints w'.state.store.strings v out) :
    ∃ a w'', storeArg v w' = .ok a w'' ∧
      ArgsAt loops stack scope rest node ptr given (vs ++ [v]) (outs ++ [out]) w'' memory' := by
  obtain ⟨a, w'', hstore, hstate⟩ := returns_storeArg hstack v w'.trace
  refine ⟨a, w'', hstore, ⟨h.memory.kept.congr ?_, hrep.congr ?_ ?_ ?_ ?_ ?_ ?_, ?_⟩, ?_, ?_, ?_⟩
  · rw [hstate]
    exact hscopes
  · rw [hstate]
  · rw [hstate]
  · rw [hstate]
  · rw [hstate]
  · rw [hstate]
  · rw [hstate]
  · rw [hstate]
    rfl
  · rw [hstate]
    exact hscopes.trans h.scopes
  · rw [hstate]
    exact hbuiltins.trans h.builtins
  · rw [hstate]
    refine List.rel_append (h.prints.imp fun u o hu => hu.mono hstrings) (.cons hprints .nil)

/-- A quiet argument. -/
theorem refines_quiet_arg {arg : AstNode} {fuel : Nat} (h : ∀ P, Lasting P → ∀ stack scope rest,
      Evaluates P stack scope rest arg (eval fuel scope arg) (meaning arg)) :
    Refines Unspecified (ArgsAt loops stack scope rest node ptr given vs outs)
      (do
        let val ← callEval (eval fuel) none scope arg
        storeArg val)
      (meaning arg)
      (fun _ w value memory => ∃ v,
        ArgsAt loops stack scope rest node ptr given (vs ++ [v]) (outs ++ [value.printed]) w memory) Stops := by
  intro w memory hw
  let same (m : Machine) : Prop := m.scopes = w.state.scopes ∧ m.builtins = w.state.builtins ∧
    m.store.strings = w.state.store.strings
  have hsame : Lasting same := by
    intro m m' hm hscopes hbuiltins hstrings
    exact ⟨hscopes.trans hm.1, hbuiltins.trans hm.2.1, hstrings.trans hm.2.2⟩
  have hcall := (h same hsame (callFrame scope node ptr vs :: stack) scope rest).call hsame none
  refine Refines.then_left hcall (fun v value w' memory' h' => ?_) w memory
    ⟨⟨rfl, rfl, rfl⟩, hw.memory.represents, hw.memory.stack⟩
  obtain ⟨his, ⟨hscopes, hbuiltins, hstrings⟩, hrep, hstack⟩ := h'
  have hkeep : ∀ s text, w.state.store.strings.read s = some text → w'.state.store.strings.read s = some text := by
    intro s text hs
    rw [hstrings]
    exact hs
  obtain ⟨a, w'', hstore, hat⟩ := hw.stored hscopes hbuiltins hrep hkeep hstack (.scalar his)
  exact ⟨a, w'', hstore, v, hat⟩

theorem takePlace_zero (h : memory.room = 0) : takePlace memory = .error .unspecified memory := by
  unfold takePlace
  rw [bind_ok (get_memory memory), h]
  rfl

theorem takePlace_succ {room : Nat} (h : memory.room = room + 1) :
    takePlace memory = .ok () { memory with room := room } := by
  unfold takePlace
  rw [bind_ok (get_memory memory), h]
  rfl

/-- A value takes the next slot, and the block stays where it is. -/
theorem ValAllocTbl.HasRoom.create {tbl : ValAllocTbl} {room : Nat} (h : tbl.HasRoom (room + 1)) (data : ValData) :
    (tbl.create data).2.HasRoom room := by
  have hroom := h.room
  have hlt : tbl.values.length < tbl.capacity - 1 := by omega
  have halloc : tbl.alloc = (tbl.values.length,
      { tbl with values := tbl.values ++ [⟨.integer 0, false, some tbl.values.length⟩] }) := by
    simp only [ValAllocTbl.alloc, ValAllocTbl.resize, h.head, if_pos hlt]
  unfold ValAllocTbl.create
  rw [halloc]
  refine ⟨h.unmoved, h.head, ?_⟩
  show (List.set _ _ _).length + room + 1 = tbl.capacity
  rw [List.length_set, List.length_append, List.length_singleton]
  omega

/-- The scopes are not concerned when a value takes a slot. -/
theorem Machine.Represents.placed {scopes : List Nat} {room : Nat} {data : ValData} (h : m.Represents memory scopes)
    (hroom : memory.room = room + 1) (hscopes : m'.scopes = m.scopes) (hbuiltins : m'.builtins = m.builtins)
    (hfns : m'.fns = m.fns) (htbl : m'.tbl = (m.tbl.create data).2) (hout : m'.store.stdout = m.store.stdout)
    (herror : m'.store.evalFnError = m.store.evalFnError) : m'.Represents { memory with room := room } scopes := by
  have hsame : ({ m' with tbl := m.tbl } : Machine).Represents memory scopes :=
    h.congr hscopes hbuiltins hfns rfl hout herror
  have hplace := h.room
  rw [hroom] at hplace
  refine ⟨hsame.rooted, hsame.chain, hsame.builtins.congr rfl rfl, ?_, hsame.replaces, hsame.out, ?_, hsame.error⟩
  · exact hsame.layers.imp fun s layer hs => hs.congr rfl rfl fun _ => rfl
  · rw [htbl]
    exact hplace.create data

/-- A string as an argument. -/
theorem string_arg {fuel room : Nat} {strval : String} {w : World Machine Event}
    (hw : ArgsAt loops stack scope rest node ptr given vs outs w memory) (hroom : memory.room = room + 1) : ∃ a w', (do
        let val ← callEval (eval (fuel + 1)) none scope (.string pos strval)
        storeArg val) w = .ok a w' ∧ ∃ v,
      ArgsAt loops stack scope rest node ptr given (vs ++ [v]) (outs ++ [[.text strval]]) w' { memory with room := room } := by
  have heval : Returns (callEval (eval (fuel + 1)) none scope (.string pos strval)) w.state _ :=
    returns_callEval (returns_string strval)
  obtain ⟨v, w', hcall, _, ⟨hdata, rfl⟩, hstate⟩ := heval w.trace
  have hscopes : w'.state.scopes = w.state.scopes := by rw [hstate]
  have hbuiltins : w'.state.builtins = w.state.builtins := by rw [hstate]
  have hstrings : w'.state.store.strings = w.state.store.strings.alloc strval := by rw [hstate]
  have hkeep : ∀ s text, w.state.store.strings.read s = some text → w'.state.store.strings.read s = some text := by
    intro s text hs
    rw [hstrings]
    exact Heap.read_alloc_of_read hs
  have hprints : Prints w'.state.store.strings v [.text strval] := by
    refine .string hdata ?_
    rw [hstrings, Heap.read_alloc, if_pos rfl]
  have hrep : w'.state.Represents { memory with room := room } (scope :: rest) := by
    have htbl : w'.state.tbl = (w.state.tbl.create (.string w.state.store.strings.size)).2 := by rw [hstate]
    refine hw.memory.represents.placed hroom hscopes hbuiltins ?_ htbl ?_ ?_
    · rw [hstate]
    · rw [hstate]
    · rw [hstate]
  have hstack : w'.state.stack = callFrame scope node ptr vs :: stack := by
    rw [hstate]
    exact hw.memory.stack
  obtain ⟨a, w'', hstore, hat⟩ := hw.stored hscopes hbuiltins hrep hkeep hstack hprints
  refine ⟨a, w'', ?_, v, hat⟩
  rw [bind_ok hcall]
  exact hstore

theorem refines_string_arg {strval : String} (fuel : Nat) :
    Refines Unspecified (ArgsAt loops stack scope rest node ptr given vs outs)
      (do
        let val ← callEval (eval (fuel + 1)) none scope (.string pos strval)
        storeArg val)
      takePlace
      (fun _ w _ memory => ∃ v,
        ArgsAt loops stack scope rest node ptr given (vs ++ [v]) (outs ++ [[.text strval]]) w memory) Stops := by
  intro w memory hw
  cases hroom : memory.room with
  | zero =>
    rw [takePlace_zero hroom]
    exact .unspecified rfl
  | succ room =>
    obtain ⟨a, w', harg, hat⟩ := string_arg hw hroom
    rw [harg, takePlace_succ hroom]
    exact .ok hat

/-- The arguments are evaluated in order. -/
theorem refines_evalArgs {args : List AstNode} (h : ∀ arg ∈ args, Printable arg) : ∃ N, ∀ fuel ≥ N,
    ∀ loops stack scope rest node ptr given vs outs,
      Refines Unspecified (ArgsAt loops stack scope rest node ptr given vs outs) (evalArgs (eval fuel) scope args)
        (meaningPrinted args) (fun _ w new memory => ∃ ws,
          ArgsAt loops stack scope rest node ptr given (vs ++ ws) (outs ++ new) w memory) Stops := by
  induction args with
  | nil =>
    refine ⟨0, fun fuel _ loops stack scope rest node ptr given vs outs => ?_⟩
    unfold evalArgs meaningPrinted
    refine refines_pure fun w memory hw => ⟨[], ?_⟩
    rw [List.append_nil, List.append_nil]
    exact hw
  | cons arg args ih =>
    obtain ⟨harg, hargs⟩ := List.forall_mem_cons.mp h
    obtain ⟨n, hn⟩ := ih hargs
    -- the arguments after the first one, of which `out` is printed
    have hrest : ∀ fuel ≥ n, ∀ loops stack scope rest node ptr given vs outs, ∀ out : List Output,
        Refines Unspecified
          (fun w memory => ∃ v, ArgsAt loops stack scope rest node ptr given (vs ++ [v]) (outs ++ [out]) w memory)
          (evalArgs (eval fuel) scope args)
          (do
            let outs ← meaningPrinted args
            pure (out :: outs))
          (fun _ w new memory => ∃ ws,
            ArgsAt loops stack scope rest node ptr given (vs ++ ws) (outs ++ new) w memory) Stops := by
      intro fuel hfuel loops stack scope rest node ptr given vs outs out
      refine Refines.of_exists fun v => ?_
      refine Refines.map_right (hn fuel hfuel loops stack scope rest node ptr given _ _) fun _ w new memory hw => ?_
      obtain ⟨ws, hat⟩ := hw
      rw [List.append_assoc, List.append_assoc] at hat
      exact ⟨v :: ws, hat⟩
    cases harg with
    | string pos strval =>
      refine ⟨n + 1, fun fuel hfuel loops stack scope rest node ptr given vs outs => ?_⟩
      obtain ⟨f, rfl⟩ : ∃ f, fuel = f + 1 := ⟨fuel - 1, by omega⟩
      unfold evalArgs
      rw [← bind_assoc]
      unfold meaningPrinted
      refine Refines.bind (refines_string_arg f) fun _ _ => ?_
      exact hrest (f + 1) (by omega) loops stack scope rest node ptr given vs outs [.text strval]
    | quiet hq =>
      obtain ⟨k, hk⟩ := quiet_means hq
      refine ⟨max n k, fun fuel hfuel loops stack scope rest node ptr given vs outs => ?_⟩
      unfold evalArgs
      rw [← bind_assoc, meaningPrinted_quiet hq]
      exact Refines.bind (refines_quiet_arg (hk fuel (by omega))) fun _ value =>
        hrest fuel (by omega) loops stack scope rest node ptr given vs outs value.printed

/-! ## The built-in functions -/

theorem Val.Is.printed (h : v.Is value) (m : Machine) (fuel : Nat) :
    printValInternal m (fuel + 1) false v = some value.printed := by
  unfold printValInternal
  rw [h.data]
  cases value <;> rfl

/-- What is written for an argument. -/
theorem Prints.read (h : Prints m.store.strings v out) : (match v.data with
    | .string s => (m.store.strings.read s).map fun text => [.text text]
    | _ => printValInternal m (m.store.vectors.size + 1) false v) = some out := by
  cases h with
  | @scalar value his =>
    have hprinted := his.printed m m.store.vectors.size
    rw [his.data]
    cases value <;> exact hprinted
  | @string s text hd hs =>
    rw [hd]
    show (m.store.strings.read s).map _ = _
    rw [hs]
    rfl

theorem returns_write (out : List Output) : Returns (writeOut out) m fun _ m' =>
    m' = { m with store := { m.store with stdout := m.store.stdout ++ out } } := by
  unfold writeOut updateStore
  exact returns_act rfl rfl

/-- The arguments are written with a space between two of them. -/
theorem returns_spaced (h : List.Forall₂ (Prints m.store.strings) vs outs) : Returns (printArgs vs) m fun _ m' =>
    m' = { m with store := { m.store with stdout := m.store.stdout ++ spaced outs } } := by
  induction vs generalizing m outs with
  | nil =>
    cases h
    refine returns_pure ?_
    rw [spaced, List.append_nil]
  | cons v vs ih =>
    cases h with
    | @cons _ out _ outs hv hvs =>
      unfold printArgs
      have hread : Returns (Recorder.readOrThrow .undefined fun m =>
          match v.data with
          | .string s => (m.store.strings.read s).map fun text => [.text text]
          | _ => printValInternal m (m.store.vectors.size + 1) false v : Eval (List Output)) m
          fun o m' => o = out ∧ m = m' := returns_readOrThrow hv.read ⟨rfl, rfl⟩
      refine hread.bind ?_
      rintro _ _ ⟨rfl, rfl⟩
      refine (returns_write _).bind ?_
      intro _ m₁ hm₁
      have hstrings : m₁.store.strings = m.store.strings := by rw [hm₁]
      have hvs' := hvs
      rw [← hstrings] at hvs'
      refine (ih hvs').post ?_
      intro _ m₂ hm₂
      rw [hm₂, hm₁]
      cases hvs with
      | nil => simp [spaced]
      | cons _ _ => simp [spaced]

theorem returns_print (h : List.Forall₂ (Prints m.store.strings) vs outs) (hne : vs ≠ []) (gas : Nat) (newline : Bool) :
    Returns (callBuiltin rec gas scope (printFn newline) vs) m fun v m' => v = nullVal ∧
      m' = { m with
        store := { m.store with stdout := m.store.stdout ++ (spaced outs ++ if newline then [.text "\n"] else []) }, result := nullVal } := by
  have hprint : Returns (builtinPrint vs) m fun v m' => v = nullVal ∧
      m' = { m with store := { m.store with stdout := m.store.stdout ++ spaced outs }, result := nullVal } := by
    have hvs : ¬ vs.isEmpty = true := by
      rw [List.isEmpty_iff]
      exact hne
    unfold builtinPrint
    rw [if_neg hvs]
    refine (returns_spaced h).bind ?_
    rintro _ _ rfl
    exact returns_giveValue ⟨rfl, rfl⟩
  cases newline with
  | false =>
    refine hprint.post ?_
    rintro v _ ⟨hv, rfl⟩
    refine ⟨hv, ?_⟩
    rw [if_neg Bool.false_ne_true, List.append_nil]
  | true =>
    refine hprint.bind ?_
    rintro v _ ⟨rfl, rfl⟩
    refine (returns_write _).bind ?_
    rintro _ _ rfl
    refine returns_pure ⟨rfl, ?_⟩
    rw [if_pos rfl, ← List.append_assoc]

/-- Without arguments, there is an error, and `println` still writes its newline. -/
theorem returns_print_nothing (gas : Nat) (newline : Bool) :
    Returns (callBuiltin rec gas scope (printFn newline) []) m fun _ m' =>
      m'.store.evalFnError = some "function println() requires at least 1 argument to be passed" ∧
        m'.store.stdout = (m.store.stdout ++ if newline then [.text "\n"] else []) ∧ m'.tbl = m.tbl := by
  have hfail : Returns (builtinPrint []) m fun _ m' =>
      m'.store.evalFnError = some "function println() requires at least 1 argument to be passed" ∧
        m'.store.stdout = m.store.stdout ∧ m'.tbl = m.tbl := by
    have hupdate : Returns (updateStore fun store =>
        { store with evalFnError := some "function println() requires at least 1 argument to be passed" }) m
        fun _ m' => m' = { m with store := { m.store with
          evalFnError := some "function println() requires at least 1 argument to be passed" } } := by
      unfold updateStore
      exact returns_act rfl rfl
    refine hupdate.bind ?_
    rintro _ _ rfl
    exact returns_giveValue ⟨rfl, rfl, rfl⟩
  cases newline with
  | false =>
    refine hfail.post ?_
    intro _ m' hm'
    rw [if_neg Bool.false_ne_true, List.append_nil]
    exact hm'
  | true =>
    refine hfail.bind ?_
    intro _ m₁ hm₁
    refine (returns_write _).bind ?_
    rintro _ _ rfl
    refine returns_pure ⟨hm₁.1, ?_, hm₁.2.2⟩
    rw [if_pos rfl, ← hm₁.2.1]

/-! ## Calls -/

/-- A built-in function is found in the innermost scope. -/
theorem Machine.Represents.builtin (h : m.Represents memory (scope :: rest))
    (hb : builtinFunctions.lookup name = some callback) : ∃ ptr v,
      scopeResolveIdentifier m.scopes scope name = some (some ptr) ∧ readEntry m.scopes ptr = some (v, true) ∧
        m.builtins.lookup name = some v := by
  have hlookup : ∃ v, m.builtins.lookup name = some v := by
    refine Option.ne_none_iff_exists'.mp fun hnone => ?_
    have hn := (h.builtins.lookup name).mp hnone
    rw [NotBuiltin, hb] at hn
    cases hn
  obtain ⟨v, hv⟩ := hlookup
  obtain ⟨layer, layers, -, hs, -⟩ := h.head
  have hvars := hs.builtin name v hv
  have hown : m.env.binder scope name = some scope := by
    unfold Env.binder
    rw [h.chain_eq, List.find?_cons_of_pos]
    rw [hvars]
    rfl
  obtain ⟨r, hr, hbinder, hentry⟩ := resolve_of_represents h name
  rw [hown] at hbinder
  obtain ⟨ptr, rfl, -⟩ := Option.map_eq_some_iff.mp hbinder.symm
  exact ⟨ptr, v, hr, (hentry ptr rfl).trans ((Env.find_of_binder hown).trans hvars), hv⟩

theorem Machine.HasBuiltins.fnOf (h : m.HasBuiltins) (hv : m.builtins.lookup name = some v)
    (hb : builtinFunctions.lookup name = some callback) :
    ∃ f fn, v.data = .function f ∧ m.fnOf v = some (f, fn) ∧ fn.builtInCallback = some callback := by
  obtain ⟨-, f, fn, callback', hdata, hread, hcallback, hb'⟩ := h.callback name v hv
  rw [hb] at hb'
  obtain rfl := Option.some.inj hb'
  refine ⟨f, fn, hdata, ?_, hcallback⟩
  unfold Machine.fnOf
  rw [hdata]
  dsimp only
  rw [hread]
  rfl

theorem returns_deref {isConst : Bool} (h : readEntry m.scopes ptr = some (v, isConst)) :
    Returns (derefVal ptr) m fun u m' => u = v ∧ m = m' := by
  have huse : Returns (act (.use ptr) some) m fun _ m' => m = m' := returns_act rfl rfl
  refine huse.bind ?_
  rintro _ _ rfl
  refine returns_readOrThrow ?_ ⟨rfl, rfl⟩
  rw [h]
  rfl

theorem returns_fnOf {isConst : Bool} {f : Nat} {fn : FnVal} (h : readEntry m.scopes ptr = some (v, isConst))
    (hf : m.fnOf v = some (f, fn)) : Returns (callee ptr) m fun r m' => r = (f, fn) ∧ m = m' := by
  have huse : Returns (act (.use ptr) some) m fun _ m' => m = m' := returns_act rfl rfl
  refine huse.bind ?_
  rintro _ _ rfl
  refine returns_readOrThrow ?_ ⟨rfl, rfl⟩
  rw [h]
  exact hf

/-- The function has been called. -/
theorem HasMemory.printed {w : World Machine Event}
    (h : HasMemory (LoopScopes loops) (callFrame scope node ptr vs :: stack) (scope :: rest) w memory)
    (hprints : List.Forall₂ (Prints w.state.store.strings) vs outs) (hne : vs ≠ []) (gas : Nat) (newline : Bool) :
    ∃ w₁ w₂, beginBuiltin w = .ok vs w₁ ∧ callBuiltin rec gas scope (printFn newline) vs w₁ = .ok nullVal w₂ ∧
      w₂.state.store.evalFnError = none ∧
      HasMemory (LoopScopes loops) (⟨scope, node, .builtin vs none⟩ :: stack) (scope :: rest) w₂
        { memory with out := memory.out ++ (spaced outs ++ if newline then [.text "\n"] else []) } := by
  obtain ⟨ws, w₁, hbegin, hws, hstate₁⟩ := returns_beginBuiltin h.stack w.trace
  rw [hws] at hbegin
  have hprints₁ : List.Forall₂ (Prints w₁.state.store.strings) vs outs := by
    rw [hstate₁]
    exact hprints
  obtain ⟨v, w₂, hcall, hv, hstate₂⟩ := @returns_print scope w₁.state vs outs rec hprints₁ hne gas newline w₁.trace
  rw [hv] at hcall
  rw [hstate₁] at hstate₂
  have herror : w₂.state.store.evalFnError = none := by
    rw [hstate₂]
    exact h.represents.error
  refine ⟨w₁, w₂, hbegin, hcall, herror, h.kept.congr ?_, h.represents.wrote ?_ ?_ ?_ ?_ ?_ ?_, ?_⟩
  · rw [hstate₂]
  · rw [hstate₂]
  · rw [hstate₂]
  · rw [hstate₂]
  · rw [hstate₂]
  · rw [hstate₂]
  · rw [hstate₂]
  · rw [hstate₂]

/-- The function has been called without arguments. -/
theorem HasMemory.printed_nothing {w : World Machine Event}
    (h : HasMemory (LoopScopes loops) (callFrame scope node ptr [] :: stack) (scope :: rest) w memory) (gas : Nat)
    (newline : Bool) : ∃ v w₁ w₂, beginBuiltin w = .ok [] w₁ ∧ callBuiltin rec gas scope (printFn newline) [] w₁ = .ok v w₂ ∧
      w₂.state.store.evalFnError = some "function println() requires at least 1 argument to be passed" ∧
      HasWritten w₂ { memory with out := memory.out ++ if newline then [.text "\n"] else [] } := by
  obtain ⟨ws, w₁, hbegin, hws, hstate₁⟩ := returns_beginBuiltin h.stack w.trace
  rw [hws] at hbegin
  obtain ⟨v, w₂, hcall, herror, hout, htbl⟩ := @returns_print_nothing scope w₁.state rec gas newline w₁.trace
  refine ⟨v, w₁, w₂, hbegin, hcall, herror, ?_, ?_⟩
  · rw [hout, hstate₁, ← h.represents.out]
  · rw [htbl, hstate₁]
    exact h.represents.room.unmoved

theorem printOut_nil (pos : Pos) (newline : Bool) (memory : Memory) : printOut pos newline [] memory =
    .error (.runtimeError pos "function println() requires at least 1 argument to be passed")
      { memory with out := memory.out ++ if newline then [.text "\n"] else [] } := rfl

theorem printOut_cons (pos : Pos) (newline : Bool) (out : List Output) (outs : List (List Output)) (memory : Memory) :
    printOut pos newline (out :: outs) memory = .ok .null
      { memory with out := memory.out ++ (spaced (out :: outs) ++ if newline then [.text "\n"] else []) } := rfl

/-- `print` and `println` do what they mean. -/
theorem means_print {args : List AstNode} (h : ∀ arg ∈ args, Printable arg) (pos : Pos) (newline : Bool) :
    ∃ N, ∀ fuel ≥ N, NodeMeans (eval fuel) (.exprCall pos (if newline then "println" else "print") args) := by
  obtain ⟨n, hn⟩ := refines_evalArgs h
  refine ⟨n + 1, fun fuel hfuel loops stack scope rest => ?_⟩
  obtain ⟨f, rfl⟩ : ∃ f, fuel = f + 1 := ⟨fuel - 1, by omega⟩
  have hb : builtinFunctions.lookup (if newline then "println" else "print") = some (printFn newline) := by
    cases newline <;> rfl
  have hname : decide ((if newline then "println" else "print") = "println") = newline := by
    cases newline <;> rfl
  show Evaluates _ _ _ _ _ (evalExprCall (eval f) f scope pos _ args) _
  unfold meaning
  rw [hname]
  generalize (if newline then "println" else "print") = name at hb
  generalize AstNode.exprCall pos name args = node
  intro w memory hw
  -- the function is found
  obtain ⟨ptr, v, hfound, hentry, hv⟩ := hw.represents.builtin hb
  obtain ⟨g, fn, hdata, -, -⟩ := hw.represents.builtins.fnOf hv hb
  have hresolve : resolveIdentifier scope name w = .ok (some ptr) w := readOrThrow_ok hfound
  let m₁ : Machine := { w.state with stack := callFrame scope node ptr [] :: stack }
  have hbegin : beginCall ptr w = .ok () ⟨m₁, ⟨.resolve ptr, w.state, m₁⟩ :: w.trace⟩ := by
    refine act_eq_ok ?_
    unfold Machine.withLocals
    rw [hw.stack]
    rfl
  have hderef : Returns (derefVal ptr) m₁ fun u m' => u = v ∧ m₁ = m' := returns_deref hentry
  obtain ⟨u, w₂, hderef', hu, hstate₂⟩ := hderef (⟨.resolve ptr, w.state, m₁⟩ :: w.trace)
  rw [hu] at hderef'
  unfold evalExprCall
  rw [bind_ok hresolve]
  dsimp only
  rw [bind_ok hbegin, bind_ok hderef', hdata]
  dsimp only
  -- the arguments are evaluated
  have hat : ArgsAt loops stack scope rest node ptr w.state [] [] w₂ memory := by
    refine ⟨⟨?_, ?_, ?_⟩, ?_, ?_, .nil⟩
    · rw [← hstate₂]
      exact hw.kept
    · rw [← hstate₂]
      exact hw.represents.congr rfl rfl rfl rfl rfl rfl
    · rw [← hstate₂]
      rfl
    · rw [← hstate₂]
    · rw [← hstate₂]
  refine Refines.bind (hn f (by omega) loops stack scope rest node ptr w.state [] []) (fun _ outs => ?_) w₂ memory hat
  -- the function is called
  refine Refines.of_exists fun ws => ?_
  rw [List.nil_append, List.nil_append]
  intro w₃ memory₃ hat₃
  have hentry₃ : readEntry w₃.state.scopes ptr = some (v, true) := by
    rw [hat₃.scopes]
    exact hentry
  have hv₃ : w₃.state.builtins.lookup name = some v := by
    rw [hat₃.builtins]
    exact hv
  obtain ⟨g₃, fn₃, -, hfn₃, hcallback⟩ := hat₃.memory.represents.builtins.fnOf hv₃ hb
  obtain ⟨r, w₄, hcallee, hr, hstate₄⟩ := returns_fnOf hentry₃ hfn₃ w₃.trace
  rw [hr] at hcallee
  have hmemory₄ : HasMemory (LoopScopes loops) (callFrame scope node ptr ws :: stack) (scope :: rest) w₄ memory₃ := by
    refine ⟨?_, ?_, ?_⟩
    · rw [← hstate₄]
      exact hat₃.memory.kept
    · rw [← hstate₄]
      exact hat₃.memory.represents
    · rw [← hstate₄]
      exact hat₃.memory.stack
  have hprints₄ := hat₃.prints
  rw [hstate₄] at hprints₄
  rw [bind_ok hcallee]
  dsimp only
  rw [hcallback]
  dsimp only
  cases hprints₄ with
  | nil =>
    obtain ⟨u, w₅, w₆, hbuiltin, hcall, herror, hout⟩ := @HasMemory.printed_nothing loops stack rest scope memory₃ node ptr (eval f) w₄ hmemory₄ f newline
    have hget : getStore (fun store => some store.evalFnError) w₆ =
        .ok (some "function println() requires at least 1 argument to be passed") w₆ :=
      readOrThrow_ok (congrArg some herror)
    rw [bind_ok hbuiltin, bind_ok hcall, bind_ok hget, printOut_nil]
    exact .error ⟨rfl, hout⟩
  | @cons u out us outs hu hus =>
    obtain ⟨w₅, w₆, hbuiltin, hcall, herror, hmemory₆⟩ := @HasMemory.printed loops stack rest scope memory₃ node ptr _ _ (eval f) w₄ hmemory₄ (.cons hu hus) (List.cons_ne_nil u us) f newline
    have hget : getStore (fun store => some store.evalFnError) w₆ = .ok none w₆ :=
      readOrThrow_ok (congrArg some herror)
    rw [bind_ok hbuiltin, bind_ok hcall, bind_ok hget, printOut_cons]
    exact .ok ⟨⟨rfl, rfl⟩, _, hmemory₆⟩

end Blaze
