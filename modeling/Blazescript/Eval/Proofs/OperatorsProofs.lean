import Blazescript.Arena.Proofs.HeapProofs
import Blazescript.Eval.Operators
import Blazescript.Running.Proofs.ComputationProofs

/-!
# Proofs: what the operators give

Every function under `eval_binexp` has the outcome that is stated for it.
-/

namespace Blaze

open Arena Running Tracing

variable {m : Machine} {operator : BinOperator} {left right v : Val} {pos leftPos rightPos : Pos}
  {w w' : World Machine Event} {x : Eval Val} {o : Outcome}

/-! ## One step at a time -/

theorem Gives.bind {α : Type} {x : Eval α} {f : α → Eval Val} {a : α} (hx : x w = .ok a w)
    (h : Gives o (f a) w) : Gives o (x >>= f) w := by
  have heq : (x >>= f) w = f a w := bind_ok hx
  unfold Gives at h ⊢
  rw [heq]
  exact h

theorem gives_giveValue (data : ValData) : Gives (.data data) (giveValue (.ofData data)) w := ⟨_, rfl⟩

theorem gives_undefined {α : Type} {x : Eval α} {f : α → Eval Val} (h : x w = .error .undefined w') :
    Gives .undefined (x >>= f) w := ⟨w', bind_error h⟩

theorem gives_throwFatal (msg : String) : Gives .fatal (throwFatal msg) w := ⟨msg, w, rfl⟩

theorem gives_throwRuntime (pos : Pos) (msg : String) : Gives .runtimeError (throwRuntime pos msg) w :=
  ⟨pos, msg, w, rfl⟩

theorem gives_ite {c : Prop} [Decidable c] {o o' : Outcome} {x y : Eval Val} (hx : c → Gives o x w)
    (hy : ¬ c → Gives o' y w) : Gives (if c then o else o') (if c then x else y) w := by
  by_cases h : c
  · rw [if_pos h, if_pos h]
    exact hx h
  · rw [if_neg h, if_neg h]
    exact hy h

/-! ## Strings -/

theorem stringify_eq_text {text : Option String} (h : m.stringify v = some text) : m.text v = text :=
  congrArg Option.join h

theorem hasText_of_readable (h : m.Readable v) : v.hasText = (m.text v).isSome := by
  obtain ⟨data, nofree, selfPtr⟩ := v
  cases data with
  | string s =>
    obtain ⟨text, htext⟩ := Option.isSome_iff_exists.mp h
    unfold Machine.text
    rw [htext]
    obtain ⟨text', -, rfl⟩ := Option.map_eq_some_iff.mp htext
    rfl
  | _ => rfl

/-- A string is read. -/
def readString (s : Nat) : Eval String := getStore fun store => store.strings.read s

theorem readString_ok {s : Nat} {text : String} (h : w.state.store.strings.read s = some text) :
    readString s w = .ok text w := by
  unfold readString getStore Recorder.readOrThrow
  simp only [h]

theorem readString_error {s : Nat} (h : w.state.store.strings.read s = none) :
    readString s w = .error .undefined w := by
  unfold readString getStore Recorder.readOrThrow
  simp only [h]

theorem valStringify_ok {text : Option String} (h : w.state.stringify v = some text) :
    valStringify v w = .ok text w := by
  obtain ⟨data, nofree, selfPtr⟩ := v
  cases data with
  | string s =>
    obtain ⟨text, hs, rfl⟩ := Option.map_eq_some_iff.mp h
    exact bind_ok (readString_ok hs)
  | _ =>
    obtain rfl := Option.some.inj h
    rfl

theorem valStringify_error (h : w.state.stringify v = none) : valStringify v w = .error .undefined w := by
  obtain ⟨data, nofree, selfPtr⟩ := v
  cases data with
  | string s => exact bind_error (readString_error (Option.map_eq_none_iff.mp h))
  | _ => cases h

theorem text_string {s : Nat} (h : v.data = .string s) : m.text v = m.store.strings.read s := by
  unfold Machine.text Machine.stringify
  rw [h]
  dsimp only
  cases m.store.strings.read s with
  | none => rfl
  | some text => rfl

/-- A format with one string. -/
theorem concatPart_eq (s : Nat) (parts : String → String × String) :
    (do
      let text ← readString s
      pure (some (parts text)) : Eval (Option (String × String))) w = match w.state.store.strings.read s with
    | some text => .ok (some (parts text)) w
    | none => .error .undefined w := by
  cases hs : w.state.store.strings.read s with
  | none => exact bind_error (readString_error hs)
  | some text => exact bind_ok (readString_ok hs)

/-- `eval_concat` has a format for each pair of types. -/
theorem concatParts_eq (hstring : left.isString || right.isString) :
    concatParts left right w = if left.hasText && right.hasText then
      match w.state.text left, w.state.text right with
      | some l, some r => .ok (some (l, r)) w
      | _, _ => .error .undefined w
    else .ok none w := by
  obtain ⟨leftData, leftNofree, leftSelf⟩ := left
  obtain ⟨rightData, rightNofree, rightSelf⟩ := right
  cases leftData with
  | string s =>
    have htext : w.state.text ⟨.string s, leftNofree, leftSelf⟩ = w.state.store.strings.read s := text_string rfl
    rw [htext]
    cases rightData with
    | string s' =>
      have htext' : w.state.text ⟨.string s', rightNofree, rightSelf⟩ = w.state.store.strings.read s' :=
        text_string rfl
      rw [htext']
      cases hs : w.state.store.strings.read s with
      | none => exact bind_error (readString_error hs)
      | some text =>
        refine (bind_ok (readString_ok hs)).trans ((concatPart_eq s' fun r => (text, r)).trans ?_)
        cases w.state.store.strings.read s' with
        | none => rfl
        | some text' => rfl
    | integer i =>
      refine (concatPart_eq s fun l => (l, toString i)).trans ?_
      cases w.state.store.strings.read s with
      | none => rfl
      | some text => rfl
    | boolean b =>
      refine (concatPart_eq s fun l => (l, if b then "true" else "false")).trans ?_
      cases w.state.store.strings.read s with
      | none => rfl
      | some text => rfl
    | null =>
      refine (concatPart_eq s fun l => (l, "null")).trans ?_
      cases w.state.store.strings.read s with
      | none => rfl
      | some text => rfl
    | _ => rfl
  | _ =>
    cases rightData with
    | string s =>
      have htext : w.state.text ⟨.string s, rightNofree, rightSelf⟩ = w.state.store.strings.read s := text_string rfl
      rw [htext]
      first
      | rfl
      | refine (concatPart_eq s fun r => (_, r)).trans ?_
        cases w.state.store.strings.read s with
        | none => rfl
        | some text => rfl
    | _ => cases hstring

theorem gives_evalConcat (hstring : left.isString || right.isString) :
    Gives (concatOutcome w.state left right) (evalConcat left right leftPos) w := by
  have hparts := concatParts_eq (w := w) hstring
  unfold concatOutcome
  by_cases htext : (left.hasText && right.hasText) = true
  · rw [if_pos htext] at hparts ⊢
    cases hl : w.state.text left with
    | none =>
      rw [hl] at hparts
      exact gives_undefined hparts
    | some l =>
      cases hr : w.state.text right with
      | none =>
        rw [hl, hr] at hparts
        exact gives_undefined hparts
      | some r =>
        rw [hl, hr] at hparts
        refine Gives.bind hparts ?_
        refine ⟨_, w.state.store.strings.size, _, rfl, rfl, ?_, fun s text hs => ?_⟩
        · exact Heap.read_alloc.trans (if_pos rfl)
        · have hlt := Heap.lt_of_isLive (Heap.read_eq_some.mp hs).1
          exact (Heap.read_alloc.trans (if_neg (Nat.ne_of_lt hlt))).trans hs
  · rw [if_neg htext] at hparts ⊢
    exact Gives.bind hparts (gives_throwRuntime _ _)

/-- The comparisons of two results of `val_stringify`. -/
theorem gives_strcmp (l r : Option String) (hne : operator.isEquality = true) :
    Gives (textOutcome operator (sameType left right) l r) (do
      let eq ← strcmpEq l r
      match operator with
        | .opCmpEq => giveBool eq
        | .opCmpEqS => giveBool (eq && left.data.type = right.data.type)
        | .opCmpNe => giveBool !eq
        | _ => giveBool (!eq && left.data.type = right.data.type)) w := by
  match l, r with
  | some l, some r =>
    have heq : strcmpEq (some l) (some r) w = .ok (decide (l = r)) w := rfl
    refine Gives.bind heq ?_
    cases operator with
    | opCmpEq => exact gives_giveValue _
    | opCmpEqS => exact gives_giveValue _
    | opCmpNe => exact gives_giveValue _
    | opCmpNeS => exact gives_giveValue _
    | _ => cases hne
  | none, r =>
    have herror : strcmpEq none r w = .error .undefined w := rfl
    have hundefined : textOutcome operator (sameType left right) none r = .undefined := if_pos hne
    rw [hundefined]
    exact gives_undefined herror
  | some l, none =>
    have herror : strcmpEq (some l) none w = .error .undefined w := rfl
    have hundefined : textOutcome operator (sameType left right) (some l) none = .undefined := if_pos hne
    rw [hundefined]
    exact gives_undefined herror

theorem textOutcome_fatal (h : operator.isEquality = false) (sameType : Bool) (l r : Option String) :
    textOutcome operator sameType l r = .fatal := by
  have hne : ¬ operator.isEquality = true := by
    rw [h]
    exact Bool.false_ne_true
  match l, r with
  | some l, some r =>
    cases operator with
    | opCmpEq => cases h
    | opCmpEqS => cases h
    | opCmpNe => cases h
    | opCmpNeS => cases h
    | _ => rfl
  | none, r => exact if_neg hne
  | some l, none => exact if_neg hne

/-- The string path. -/
theorem gives_evalBinexpString (hstring : left.isString || right.isString) :
    Gives (stringOutcome w.state operator left right) (evalBinexpString operator left right leftPos) w := by
  unfold stringOutcome evalBinexpString
  refine gives_ite (fun _ => gives_evalConcat hstring) fun _ => ?_
  cases hl : w.state.stringify left with
  | none => exact gives_undefined (valStringify_error hl)
  | some l =>
    refine Gives.bind (valStringify_ok hl) ?_
    cases hr : w.state.stringify right with
    | none => exact gives_undefined (valStringify_error hr)
    | some r =>
      refine Gives.bind (valStringify_ok hr) ?_
      cases operator with
      | opCmpEq => exact gives_strcmp l r rfl
      | opCmpEqS => exact gives_strcmp l r rfl
      | opCmpNe => exact gives_strcmp l r rfl
      | opCmpNeS => exact gives_strcmp l r rfl
      | _ =>
        dsimp only
        rw [textOutcome_fatal rfl]
        exact gives_throwFatal _

/-! ## Numbers -/

/-- The comparisons of the integers that `val_to_int` makes. -/
theorem gives_evalBinexpCmpGeneric (h : operator.isComparison = true) :
    Gives (if left.isString || right.isString then stringOutcome w.state operator left right
        else genericOutcome operator left right)
      (evalBinexpCmpGeneric operator left right leftPos) w := by
  unfold evalBinexpCmpGeneric
  refine gives_ite gives_evalBinexpString fun _ => ?_
  cases operator with
  | opCmpLt => exact gives_giveValue _
  | opCmpGt => exact gives_giveValue _
  | opCmpGe => exact gives_giveValue _
  | opCmpLe => exact gives_giveValue _
  | opCmpEq => exact gives_giveValue _
  | opCmpEqS => exact gives_giveValue _
  | opCmpNe =>
    show Gives (.data (.boolean !decide (valToInt left = valToInt right))) _ w
    rw [← decide_not]
    exact gives_giveValue _
  | opCmpNeS =>
    show Gives (.data (.boolean (!decide (valToInt left = valToInt right) && sameType left right))) _ w
    rw [← decide_not]
    exact gives_giveValue _
  | _ => cases h

theorem gives_giveInt (i : Int) : Gives (intOutcome i) (giveInt i) w := by
  refine gives_ite (fun _ => gives_giveValue _) fun _ => ⟨w, rfl⟩

theorem gives_evalBinexpInt (operator : BinOperator) (l r : Int) :
    Gives (arithmeticOutcome operator l r) (evalBinexpInt operator l r rightPos) w := by
  cases operator with
  | opPlus => exact gives_giveInt _
  | opMinus => exact gives_giveInt _
  | opTimes => exact gives_giveInt _
  | opDivide => exact gives_ite (fun _ => gives_throwRuntime _ _) fun _ => gives_giveValue _
  | opModulus =>
    refine gives_ite (fun _ => gives_throwRuntime _ _) fun _ => ?_
    exact gives_ite (fun _ => gives_giveInt _) fun _ => ⟨w, rfl⟩
  | _ => exact gives_throwFatal _

/-- Evaluated operands have the outcome that is stated for them. -/
theorem gives_evalBinop :
    Gives (outcome w.state operator left right) (evalBinop pos leftPos rightPos operator left right) w := by
  unfold outcome evalBinop
  by_cases hcmp : operator.isComparison = true
  · rw [if_pos hcmp, if_pos hcmp]
    exact gives_evalBinexpCmpGeneric hcmp
  · rw [if_neg hcmp, if_neg hcmp]
    obtain ⟨leftData, leftNofree, leftSelf⟩ := left
    obtain ⟨rightData, rightNofree, rightSelf⟩ := right
    cases leftData with
    | integer l =>
      cases rightData with
      | integer r => exact gives_evalBinexpInt _ _ _
      | _ => exact gives_ite gives_evalBinexpString fun _ => gives_throwRuntime _ _
    | _ => exact gives_ite gives_evalBinexpString fun _ => gives_throwRuntime _ _

/-! ## Outcomes and results -/

theorem Gives.settles (h : Gives o x w) : Settles x w ↔ o ≠ .undefined := by
  cases o with
  | data data =>
    obtain ⟨w', hx⟩ := h
    exact iff_of_true (.inl ⟨_, w', hx⟩) (by simp)
  | text s =>
    obtain ⟨v, s, w', hx, -⟩ := h
    exact iff_of_true (.inl ⟨v, w', hx⟩) (by simp)
  | runtimeError =>
    obtain ⟨pos, msg, w', hx⟩ := h
    exact iff_of_true (.inr ⟨_, w', hx, trivial⟩) (by simp)
  | fatal =>
    obtain ⟨msg, w', hx⟩ := h
    exact iff_of_true (.inr ⟨_, w', hx, trivial⟩) (by simp)
  | undefined =>
    obtain ⟨w', hx⟩ := h
    refine iff_of_false ?_ (by simp)
    rintro (⟨v, w'', hx'⟩ | ⟨e, w'', hx', he⟩)
    · cases hx.symm.trans hx'
    · cases hx.symm.trans hx'
      exact he

theorem Gives.returnsData {data : ValData} (h : Gives o x w) (hdata : ∀ s, data ≠ .string s) :
    ReturnsData x w data ↔ o = .data data := by
  have herror : ∀ e w', x w = .error e w' → ¬ ReturnsData x w data := by
    rintro e w' hx ⟨v, w'', hx', -⟩
    cases hx.symm.trans hx'
  cases o with
  | data data' =>
    obtain ⟨w', hx⟩ := h
    constructor
    · rintro ⟨v, w'', hx', hv⟩
      cases hx.symm.trans hx'
      exact congrArg Outcome.data hv
    · intro heq
      cases heq
      exact ⟨_, w', hx, rfl⟩
  | text text =>
    obtain ⟨v, s, w', hx, hv, -⟩ := h
    refine iff_of_false ?_ (by simp)
    rintro ⟨v', w'', hx', hv'⟩
    cases hx.symm.trans hx'
    exact hdata s (hv'.symm.trans hv)
  | runtimeError =>
    obtain ⟨pos, msg, w', hx⟩ := h
    exact iff_of_false (herror _ _ hx) (by simp)
  | fatal =>
    obtain ⟨msg, w', hx⟩ := h
    exact iff_of_false (herror _ _ hx) (by simp)
  | undefined =>
    obtain ⟨w', hx⟩ := h
    exact iff_of_false (herror _ _ hx) (by simp)

theorem Gives.returnsInt {i : Int} (h : Gives o x w) : ReturnsInt x w i ↔ o = .data (.integer i) :=
  h.returnsData fun _ h => nomatch h

theorem Gives.answers {b : Bool} (h : Gives o x w) : Answers x w b ↔ o = .data (.boolean b) :=
  h.returnsData fun _ h => nomatch h

theorem Gives.runtimeError (h : Gives o x w) :
    (∃ pos msg w', x w = .error (.runtimeError pos msg) w') ↔ o = .runtimeError := by
  cases o with
  | data data =>
    obtain ⟨w', hx⟩ := h
    refine iff_of_false ?_ (by simp)
    rintro ⟨pos, msg, w'', hx'⟩
    cases hx.symm.trans hx'
  | text text =>
    obtain ⟨v, s, w', hx, -⟩ := h
    refine iff_of_false ?_ (by simp)
    rintro ⟨pos, msg, w'', hx'⟩
    cases hx.symm.trans hx'
  | runtimeError => exact iff_of_true h rfl
  | fatal =>
    obtain ⟨msg, w', hx⟩ := h
    refine iff_of_false ?_ (by simp)
    rintro ⟨pos, msg', w'', hx'⟩
    cases hx.symm.trans hx'
  | undefined =>
    obtain ⟨w', hx⟩ := h
    refine iff_of_false ?_ (by simp)
    rintro ⟨pos, msg, w'', hx'⟩
    cases hx.symm.trans hx'

/-- A state with one string. -/
def oneString (text : String) : World Machine Event :=
  let m := Machine.initial (.root .unknown []) [] ""
  ⟨{ m with store := { m.store with strings := m.store.strings.alloc text } }, []⟩

end Blaze
