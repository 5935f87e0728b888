import Blazescript.Eval.Proofs.ComparisonProofs

/-!
# Proofs: concatenation

It agrees with `val_stringify`, although it has a format of its own for each pair of types.
-/

namespace Blaze

open Tracing

variable {m : Machine} {left right v s u : Val} {pos leftPos rightPos : Pos} {w w' : World Machine Event}
  {l r t : String}

theorem outcome_plus (hstring : (left.isString || right.isString) = true) :
    outcome m .opPlus left right = concatOutcome m left right := by
  obtain ⟨leftData, leftNofree, leftSelf⟩ := left
  obtain ⟨rightData, rightNofree, rightSelf⟩ := right
  cases leftData with
  | integer i =>
    cases rightData with
    | string s => rfl
    | _ => cases hstring
  | string s => rfl
  | _ => exact if_pos hstring

theorem readable_of_text (h : m.text v = some t) : m.Readable v := by
  unfold Machine.Readable
  rw [Option.join_eq_some_iff.mp h]
  rfl

theorem concatOutcome_texts (hl : m.text left = some l) (hr : m.text right = some r) :
    concatOutcome m left right = .text (l ++ r) := by
  unfold concatOutcome
  rw [hasText_of_readable (readable_of_text hl), hasText_of_readable (readable_of_text hr), hl, hr]
  rfl

theorem concatOutcome_refused (hl : m.Readable left) (hr : m.Readable right) :
    concatOutcome m left right = .runtimeError ↔ m.text left = none ∨ m.text right = none := by
  unfold concatOutcome
  rw [hasText_of_readable hl, hasText_of_readable hr]
  cases m.text left with
  | none => simp
  | some l =>
    cases m.text right with
    | none => simp
    | some r => simp

/-- The texts of before are still there. -/
theorem text_mono (hmono : ∀ s text, w.state.store.strings.read s = some text →
    w'.state.store.strings.read s = some text) (h : w.state.text v = some t) : w'.state.text v = some t := by
  obtain ⟨data, nofree, selfPtr⟩ := v
  cases data with
  | string s =>
    rw [text_string rfl] at h ⊢
    exact hmono s t h
  | _ => exact h

/-- The result of a concatenation. The texts of before are still there. -/
theorem plus_ok (pos leftPos rightPos : Pos) (hstring : (left.isString || right.isString) = true)
    (hl : w.state.text left = some l) (hr : w.state.text right = some r) :
    ∃ x s w', plus pos leftPos rightPos left right w = .ok x w' ∧ x.data = .string s ∧
      w'.state.store.strings.read s = some (l ++ r) ∧ ∀ v t, w.state.text v = some t → w'.state.text v = some t := by
  have hgives : Gives (outcome w.state .opPlus left right) (plus pos leftPos rightPos left right) w := gives_evalBinop
  rw [outcome_plus hstring, concatOutcome_texts hl hr] at hgives
  obtain ⟨x, s, w', hx, hdata, htext, hmono⟩ := hgives
  exact ⟨x, s, w', hx, hdata, htext, fun v t => text_mono hmono⟩

theorem returnsText_of_plus (hstring : (left.isString || right.isString) = true)
    (hl : w.state.text left = some l) (hr : w.state.text right = some r) :
    ReturnsText (plus pos leftPos rightPos left right) w (l ++ r) := by
  obtain ⟨x, s, w', hx, hdata, htext, -⟩ := plus_ok pos leftPos rightPos hstring hl hr
  exact ⟨x, s, w', hx, hdata, htext⟩

theorem isString_of_data {i : Nat} (h : v.data = .string i) : v.isString = true := by
  unfold Val.isString
  rw [h]

/-- What equality with a string answers. -/
theorem answers_equality {operator : BinOperator} (hequality : operator.isEquality = true) (hs : s.isString = true)
    (hv : w.state.text v = some l) (ht : w.state.text s = some t) (b : Bool) :
    Answers (evalBinop pos leftPos rightPos operator v s) w b ↔
      equalityOutcome operator (l = t) (sameType v s) = .data (.boolean b) := by
  have hcmp : operator.isComparison = true := by
    cases operator with
    | opCmpEq => rfl
    | opCmpEqS => rfl
    | opCmpNe => rfl
    | opCmpNeS => rfl
    | _ => cases hequality
  have hne : operator ≠ .opPlus := by
    rintro rfl
    cases hequality
  have houtcome : outcome w.state operator v s = equalityOutcome operator (l = t) (sameType v s) := by
    unfold outcome
    rw [if_pos hcmp, hs, Bool.or_true, if_pos rfl, stringOutcome_texts hne hv ht]
  rw [← houtcome]
  exact gives_evalBinop.answers

theorem sameType_strings (h : v.isString = true) (h' : s.isString = true) : sameType v s = true := by
  obtain ⟨data, nofree, selfPtr⟩ := v
  obtain ⟨data', nofree', selfPtr'⟩ := s
  cases data with
  | string s =>
    cases data' with
    | string s' => rfl
    | _ => cases h'
  | _ => cases h

/-- Concatenation agrees with string conversion. -/
theorem evalBinop_concatenates (pos leftPos rightPos : Pos) (w : World Machine Event) :
    Concatenates pos leftPos rightPos w where
  refused := by
    intro left right hstring hl hr
    have hgives : Gives (outcome w.state .opPlus left right) (plus pos leftPos rightPos left right) w :=
      gives_evalBinop
    rw [outcome_plus hstring] at hgives
    rw [← concatOutcome_refused hl hr]
    exact hgives.runtimeError
  texts := fun left right l r hstring hl hr => returnsText_of_plus hstring hl hr
  equality := by
    intro empty s v t u hempty hnil hs ht hu
    have hstring : (empty.isString || v.isString) = true := by rw [hempty, Bool.true_or]
    obtain ⟨x, i, w', hx, hdata, hread, hmono⟩ := plus_ok pos leftPos rightPos hstring hnil hu
    have hxs := isString_of_data hdata
    have hxt : w'.state.text x = some u := by rw [text_string hdata, hread, String.empty_append]
    refine ⟨x, w', hx, fun b => ?_⟩
    rw [answers_equality rfl hs hu ht, answers_equality rfl hs hxt (hmono s t ht), sameType_strings hxs hs]
    show Outcome.data (.boolean _) = _ ↔ Outcome.data (.boolean (_ && true)) = _
    rw [Bool.and_true]
  assoc := by
    intro s u v t l r hs ht hl hr
    have hus : (u.isString || s.isString) = true := by rw [hs, Bool.or_true]
    have hsv : (s.isString || v.isString) = true := by rw [hs, Bool.true_or]
    obtain ⟨x, i, w', hx, hdata, hread, hmono⟩ := plus_ok pos leftPos rightPos hus hl ht
    obtain ⟨y, j, w'', hy, hdata', hread', hmono'⟩ := plus_ok pos leftPos rightPos hsv ht hr
    refine ⟨x, w', y, w'', hx, hy, l ++ t ++ r, ?_, ?_⟩
    · have hxv : (x.isString || v.isString) = true := by rw [isString_of_data hdata, Bool.true_or]
      exact returnsText_of_plus hxv ((text_string hdata).trans hread) (hmono v r hr)
    · have huy : (u.isString || y.isString) = true := by rw [isString_of_data hdata', Bool.or_true]
      rw [String.append_assoc]
      exact returnsText_of_plus huy (hmono' u l hl) ((text_string hdata').trans hread')

end Blaze
