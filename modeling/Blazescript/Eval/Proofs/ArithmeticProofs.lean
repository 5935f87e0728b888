import Blazescript.Eval.Proofs.OperatorsProofs

/-!
# Proofs: arithmetic, and operands without a text

Where an operator neither returns a value nor reports an error: an overflow of `long long`, and a comparison
of a string with a value that has no text.
-/

namespace Blaze

open Tracing

variable {m : Machine} {operator : BinOperator} {left right : Val} {pos leftPos rightPos : Pos} {l r i : Int}
  {w : World Machine Event} {x : Eval Val} {o : Outcome}

/-! ## Overflow -/

theorem intOutcome_settles : intOutcome i ≠ .undefined ↔ InRange i := by
  unfold intOutcome
  by_cases h : InRange i
  · rw [if_pos h]
    exact iff_of_true (by simp) h
  · rw [if_neg h]
    exact iff_of_false (by simp) h

/-- The remainder of two integers is in their range, and there is one unless the quotient is too large. -/
theorem tmod_settles (hl : InRange l) (hr : InRange r) (hne : r ≠ 0) :
    InRange (l.tmod r) ∧ (l.tdiv r < 0x8000000000000000 ↔ ¬ (l = -0x8000000000000000 ∧ r = -1)) := by
  unfold InRange at hl hr ⊢
  have hquotient : (l.tdiv r).natAbs = l.natAbs / r.natAbs := Int.natAbs_tdiv l r
  have hremainder : (l.tmod r).natAbs = l.natAbs % r.natAbs := Int.natAbs_tmod l r
  have hmod : l.natAbs % r.natAbs < r.natAbs := Nat.mod_lt _ (Int.natAbs_pos.mpr hne)
  refine ⟨by omega, ?_⟩
  constructor
  · rintro hlt ⟨rfl, rfl⟩
    exact absurd hlt (by decide)
  · intro hmin
    by_cases hone : r.natAbs = 1
    · rcases Int.natAbs_eq r with hr | hr
      · obtain rfl : r = 1 := by omega
        rw [Int.tdiv_one]
        exact hl.2
      · obtain rfl : r = -1 := by omega
        rw [Int.tdiv_neg, Int.tdiv_one]
        omega
    · have hhalf : l.natAbs / r.natAbs ≤ l.natAbs / 2 := Nat.div_le_div_left (by omega) (by omega)
      omega

theorem arithmeticOutcome_settles (hl : InRange l) (hr : InRange r) :
    arithmeticOutcome operator l r ≠ .undefined ↔ ¬ Overflows operator l r := by
  cases operator with
  | opPlus => exact intOutcome_settles.trans not_not.symm
  | opMinus => exact intOutcome_settles.trans not_not.symm
  | opTimes => exact intOutcome_settles.trans not_not.symm
  | opDivide =>
    refine iff_of_true ?_ not_false
    unfold arithmeticOutcome
    by_cases h : r = 0
    · simp [h]
    · simp [h]
  | opModulus =>
    show (if r = 0 then _ else _) ≠ Outcome.undefined ↔ _
    by_cases h : r = 0
    · rw [if_pos h]
      refine iff_of_true (by simp) ?_
      rintro ⟨-, hr⟩
      omega
    · rw [if_neg h]
      obtain ⟨hmod, hdiv⟩ := tmod_settles hl hr h
      by_cases hlt : l.tdiv r < 0x8000000000000000
      · rw [if_pos hlt]
        exact iff_of_true (intOutcome_settles.mpr hmod) (hdiv.mp hlt)
      · rw [if_neg hlt]
        exact iff_of_false (by simp) fun h => hlt (hdiv.mpr h)
  | _ => exact iff_of_true (by simp [arithmeticOutcome]) not_false

/-- An operation that settles gives the exact result, or refuses to divide by zero. -/
theorem arithmeticOutcome_exact (hexact : operator.exact l r = some i)
    (h : arithmeticOutcome operator l r ≠ .undefined) :
    arithmeticOutcome operator l r = .runtimeError ∨
      InRange i ∧ arithmeticOutcome operator l r = .data (.integer i) := by
  have hint : ∀ j, intOutcome j ≠ .undefined → InRange j ∧ intOutcome j = .data (.integer j) :=
    fun j hj => ⟨intOutcome_settles.mp hj, if_pos (intOutcome_settles.mp hj)⟩
  cases operator with
  | opPlus =>
    obtain rfl := Option.some.inj hexact
    exact .inr (hint _ h)
  | opMinus =>
    obtain rfl := Option.some.inj hexact
    exact .inr (hint _ h)
  | opTimes =>
    obtain rfl := Option.some.inj hexact
    exact .inr (hint _ h)
  | opModulus =>
    obtain rfl := Option.some.inj hexact
    by_cases hzero : r = 0
    · exact .inl (if_pos hzero)
    · have hne : arithmeticOutcome .opModulus l r =
          if l.tdiv r < 0x8000000000000000 then intOutcome (l.tmod r) else .undefined := if_neg hzero
      rw [hne] at h ⊢
      by_cases hlt : l.tdiv r < 0x8000000000000000
      · rw [if_pos hlt] at h ⊢
        exact .inr (hint _ h)
      · rw [if_neg hlt] at h
        exact absurd rfl h
  | _ => cases hexact

/-- Integer arithmetic is exact or refused unless it overflows. -/
theorem evalBinexpInt_exact (hl : InRange l) (hr : InRange r) (hexact : operator.exact l r = some i)
    (rightPos : Pos) (w : World Machine Event) :
    ((∃ e w', evalBinexpInt operator l r rightPos w = .error e w' ∧ e.Reports) ∨
      InRange i ∧ ReturnsInt (evalBinexpInt operator l r rightPos) w i) ↔ ¬ Overflows operator l r := by
  have hgives : Gives (arithmeticOutcome operator l r) (evalBinexpInt operator l r rightPos) w :=
    gives_evalBinexpInt operator l r
  rw [← arithmeticOutcome_settles hl hr]
  constructor
  · rintro (herror | ⟨-, v, w', hx, -⟩)
    · exact hgives.settles.mp (.inr herror)
    · exact hgives.settles.mp (.inl ⟨v, w', hx⟩)
  · intro hsettles
    rcases arithmeticOutcome_exact hexact hsettles with herror | ⟨hi, hdata⟩
    · rw [herror] at hgives
      obtain ⟨pos, msg, w', hx⟩ := hgives
      exact .inl ⟨_, w', hx, trivial⟩
    · exact .inr ⟨hi, hgives.returnsInt.mpr hdata⟩

/-- The remainder of a negative integer. -/
theorem evalBinexpInt_exact_remainder :
    ((∃ e w', evalBinexpInt .opModulus (-7) 2 .unknown ⟨.initial (.root .unknown []) [] "", []⟩ = .error e w' ∧
        e.Reports) ∨
      InRange (-1) ∧ ReturnsInt (evalBinexpInt .opModulus (-7) 2 .unknown)
        ⟨.initial (.root .unknown []) [] "", []⟩ (-1)) ↔ ¬ Overflows .opModulus (-7) 2 :=
  evalBinexpInt_exact (by decide) (by decide) rfl .unknown _

/-- The largest integer has no successor, and the least no remainder by minus one. -/
theorem evalBinexpInt_overflow :
    (∀ w, ¬ ((∃ e w', evalBinexpInt .opPlus 0x7FFFFFFFFFFFFFFF 1 .unknown w = .error e w' ∧ e.Reports) ∨
      InRange 0x8000000000000000 ∧ ReturnsInt (evalBinexpInt .opPlus 0x7FFFFFFFFFFFFFFF 1 .unknown) w
        0x8000000000000000)) ∧
    ∀ w, evalBinexpInt .opModulus (-0x8000000000000000) (-1) .unknown w = .error .undefined w := by
  constructor
  · rintro w (⟨e, w', hx, he⟩ | ⟨hrange, -⟩)
    · have hover : evalBinexpInt .opPlus 0x7FFFFFFFFFFFFFFF 1 .unknown w = .error .undefined w := rfl
      cases hover.symm.trans hx
      exact he
    · exact absurd hrange (by decide)
  · exact fun w => rfl

/-! ## Operands without a text -/

theorem stringOutcome_settles (hl : m.Readable left) (hr : m.Readable right) :
    stringOutcome m operator left right ≠ .undefined ↔
      ¬ (operator.isEquality = true ∧ (m.text left = none ∨ m.text right = none)) := by
  unfold stringOutcome
  by_cases hplus : operator = .opPlus
  · rw [if_pos hplus, hplus]
    refine iff_of_true ?_ (fun h => Bool.false_ne_true h.1)
    unfold concatOutcome
    rw [hasText_of_readable hl, hasText_of_readable hr]
    cases m.text left with
    | none => simp
    | some l =>
      cases m.text right with
      | none => simp
      | some r => simp
  · rw [if_neg hplus]
    obtain ⟨l, hl⟩ := Option.isSome_iff_exists.mp hl
    obtain ⟨r, hr⟩ := Option.isSome_iff_exists.mp hr
    have hleft : m.text left = l := stringify_eq_text hl
    have hright : m.text right = r := stringify_eq_text hr
    rw [hl, hr, hleft, hright]
    dsimp only
    by_cases heq : operator.isEquality = true
    · match l, r with
      | some l, some r =>
        refine iff_of_true ?_ (by simp)
        cases operator with
        | opCmpEq => simp [textOutcome, equalityOutcome]
        | opCmpEqS => simp [textOutcome, equalityOutcome]
        | opCmpNe => simp [textOutcome, equalityOutcome]
        | opCmpNeS => simp [textOutcome, equalityOutcome]
        | _ => cases heq
      | none, r => exact iff_of_false (fun h => h (if_pos heq)) fun h => h ⟨heq, .inl rfl⟩
      | some l, none => exact iff_of_false (fun h => h (if_pos heq)) fun h => h ⟨heq, .inr rfl⟩
    · rw [textOutcome_fatal (by simpa using heq)]
      exact iff_of_true (by simp) fun h => heq h.1

theorem genericOutcome_settles (h : operator.isComparison = true) (left right : Val) :
    genericOutcome operator left right ≠ .undefined := by
  cases operator with
  | opPlus => cases h
  | opMinus => cases h
  | opDivide => cases h
  | opTimes => cases h
  | opModulus => cases h
  | _ => simp [genericOutcome, equalityOutcome]

theorem comparison_of_isEquality (h : operator.isEquality = true) : operator.isComparison = true := by
  cases operator with
  | opCmpEq => rfl
  | opCmpEqS => rfl
  | opCmpNe => rfl
  | opCmpNeS => rfl
  | _ => cases h

theorem not_overflows (h : operator.isComparison = true) (l r : Int) : ¬ Overflows operator l r := by
  cases operator with
  | opPlus => cases h
  | opMinus => cases h
  | opTimes => cases h
  | opModulus => cases h
  | _ => exact not_false

/-- Operators settle unless they compare a string with a value without a text, or overflow. -/
theorem evalBinop_settles (hl : w.state.Readable left) (hr : w.state.Readable right)
    (hleft : ∀ l, left.data = .integer l → InRange l) (hright : ∀ r, right.data = .integer r → InRange r)
    (pos leftPos rightPos : Pos) :
    Settles (evalBinop pos leftPos rightPos operator left right) w ↔
      ¬ (operator.isEquality = true ∧ w.state.Incomparable left right) ∧
      ∀ l r, left.data = .integer l → right.data = .integer r → ¬ Overflows operator l r := by
  rw [gives_evalBinop.settles]
  have hstring : (left.isString || right.isString) = true → (stringOutcome w.state operator left right ≠ .undefined ↔
      ¬ (operator.isEquality = true ∧ w.state.Incomparable left right)) := by
    intro hs
    rw [stringOutcome_settles hl hr]
    exact not_congr (and_congr_right fun _ => (and_iff_right hs).symm)
  unfold outcome
  by_cases hcmp : operator.isComparison = true
  · rw [if_pos hcmp, and_iff_left fun l r _ _ => not_overflows hcmp l r]
    by_cases hs : (left.isString || right.isString) = true
    · rw [if_pos hs]
      exact hstring hs
    · rw [if_neg hs]
      exact iff_of_true (genericOutcome_settles hcmp left right) fun h => hs h.2.1
  · rw [if_neg hcmp, and_iff_right fun h => hcmp (comparison_of_isEquality h.1)]
    split
    next l r hl hr =>
      rw [arithmeticOutcome_settles (hleft l hl) (hright r hr)]
      constructor
      · intro h l' r' hl' hr'
        cases hl.symm.trans hl'
        cases hr.symm.trans hr'
        exact h
      · exact fun h => h l r hl hr
    next hother =>
      refine iff_of_true ?_ fun l r hl hr => (hother l r hl hr).elim
      by_cases hs : (left.isString || right.isString) = true
      · rw [if_pos hs]
        exact (hstring hs).mpr fun h => hcmp (comparison_of_isEquality h.1)
      · rw [if_neg hs]
        simp

theorem evalBinop_settles_null :
    Settles (evalBinop .unknown .unknown .unknown .opCmpEq (.ofData (.string 0)) nullVal) (oneString "null") ↔
      ¬ (BinOperator.opCmpEq.isEquality = true ∧
        (oneString "null").state.Incomparable (.ofData (.string 0)) nullVal) ∧
      ∀ l r, (Val.ofData (.string 0)).data = .integer l → nullVal.data = .integer r → ¬ Overflows .opCmpEq l r := by
  have hl : (oneString "null").state.Readable (.ofData (.string 0)) := rfl
  have hr : (oneString "null").state.Readable nullVal := rfl
  refine evalBinop_settles hl hr ?_ ?_ .unknown .unknown .unknown
  · intro l h
    cases h
  · intro r h
    cases h

/-- A string cannot be compared with the result of a division. -/
theorem evalBinop_string_float :
    (oneString "a").state.Readable (.ofData (.string 0)) ∧ (oneString "a").state.Readable (.ofData (.float 1 2)) ∧
      ¬ Settles (evalBinop .unknown .unknown .unknown .opCmpEq (.ofData (.string 0)) (.ofData (.float 1 2)))
        (oneString "a") := by
  refine ⟨rfl, rfl, ?_⟩
  have hundefined : evalBinop .unknown .unknown .unknown .opCmpEq (.ofData (.string 0)) (.ofData (.float 1 2))
      (oneString "a") = .error .undefined (oneString "a") := rfl
  rintro (⟨v, w', hx⟩ | ⟨e, w', hx, he⟩)
  · cases hundefined.symm.trans hx
  · cases hundefined.symm.trans hx
    exact he

end Blaze
