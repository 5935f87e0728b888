import Blazescript.Eval.Proofs.SameStepProofs

/-!
# Proofs: the operators under other names

What the operators give depends on what the operands say, and not on what they are named.
-/

namespace Blaze

open Arena Running Tracing

variable {ρ : Naming} {n : Nat} {v v' left left' right right' : Val}

/-! ## What is read from a value -/

theorem ValData.Alike.type {data data' : ValData} (h : data.Alike ρ data') : data.type = data'.type := by
  cases h <;> rfl

theorem ValData.Alike.typeToStr {data data' : ValData} (h : data.Alike ρ data') : data.typeToStr = data'.typeToStr := by
  cases h <;> rfl

theorem ValData.Alike.integer_iff {data data' : ValData} (h : data.Alike ρ data') (i : Int) :
    data = .integer i ↔ data' = .integer i := by
  cases h with
  | integer => exact Iff.rfl
  | _ => exact iff_of_false (fun hd => by cases hd) fun hd => by cases hd

theorem isString_alike (hv : v.Alike ρ v') : v.isString = v'.isString := by
  have hdata := hv.data
  unfold Val.isString
  generalize v.data = data at hdata ⊢
  generalize v'.data = data' at hdata ⊢
  cases hdata <;> rfl

theorem valToInt_alike (hv : v.Alike ρ v') : valToInt v = valToInt v' := by
  have hdata := hv.data
  unfold valToInt
  generalize v.data = data at hdata ⊢
  generalize v'.data = data' at hdata ⊢
  cases hdata <;> rfl

theorem valIsTruthy_alike (hv : v.Alike ρ v') : valIsTruthy v = valIsTruthy v' := by
  have hdata := hv.data
  unfold valIsTruthy
  generalize v.data = data at hdata ⊢
  generalize v'.data = data' at hdata ⊢
  cases hdata <;> rfl

/-! ## Texts -/

/-- Any text made of the text of a string. -/
theorem readText_same {α : Type} {s s' : Nat} (hs : ρ.strings s s') (f : String → α) :
    SameEval ρ n (do let text ← getStore fun store => store.strings.read s; pure (f text))
      (do let text ← getStore fun store => store.strings.read s'; pure (f text)) fun _ a a' => a = a' :=
  (readString_same hs).bind fun _ _ _ _ htext => same_pure fun _ _ => congrArg f htext

theorem valStringify_same (hv : v.Alike ρ v') :
    SameEval ρ n (valStringify v) (valStringify v') fun _ text text' => text = text' := by
  have hdata := hv.data
  unfold valStringify
  generalize v.data = data at hdata ⊢
  generalize v'.data = data' at hdata ⊢
  cases hdata with
  | string hs => exact readText_same hs some
  | _ => exact same_pure fun _ _ => rfl

theorem concatParts_same (hl : left.Alike ρ left') (hr : right.Alike ρ right') :
    SameEval ρ n (concatParts left right) (concatParts left' right') fun _ parts parts' => parts = parts' := by
  have hleft := hl.data
  have hright := hr.data
  unfold concatParts
  generalize left.data = l at hleft ⊢
  generalize left'.data = l' at hleft ⊢
  generalize right.data = r at hright ⊢
  generalize right'.data = r' at hright ⊢
  cases hleft with
  | string hs =>
    cases hright with
    | string hs' =>
      refine (readString_same hs).bind fun _ hle text text' htext => ?_
      subst htext
      exact readText_same (hle.strings _ _ hs') fun text' => some (text, text')
    | integer i => exact readText_same hs fun text => some (text, toString i)
    | boolean b => exact readText_same hs fun text => some (text, if b then "true" else "false")
    | null => exact readText_same hs fun text => some (text, "null")
    | _ => exact same_pure fun _ _ => rfl
  | integer i =>
    cases hright with
    | string hs' => exact readText_same hs' fun text => some (toString i, text)
    | _ => exact same_pure fun _ _ => rfl
  | boolean b =>
    cases hright with
    | string hs' => exact readText_same hs' fun text => some (if b then "true" else "false", text)
    | _ => exact same_pure fun _ _ => rfl
  | null =>
    cases hright with
    | string hs' => exact readText_same hs' fun text => some ("null", text)
    | _ => exact same_pure fun _ _ => rfl
  | _ => cases hright <;> exact same_pure fun _ _ => rfl

/-! ## Operators -/

theorem giveBool_same (b : Bool) : SameEval ρ n (giveBool b) (giveBool b) ValsAlike :=
  giveValue_same (alike_ofData (.boolean b))

theorem giveInt_same (i : Int) : SameEval ρ n (giveInt i) (giveInt i) ValsAlike := by
  unfold giveInt
  by_cases h : -0x8000000000000000 ≤ i ∧ i < 0x8000000000000000
  · rw [if_pos h]
    exact giveValue_same (alike_ofData (.integer i))
  · rw [if_neg h]
    exact same_throw _

theorem evalConcat_same (hl : left.Alike ρ left') (hr : right.Alike ρ right') (leftPos : Pos) :
    SameEval ρ n (evalConcat left right leftPos) (evalConcat left' right' leftPos) ValsAlike := by
  unfold evalConcat
  refine (concatParts_same hl hr).bind fun _ _ parts parts' hparts => ?_
  subst hparts
  cases parts with
  | none => exact same_throw _
  | some parts => exact (newString_same _).bind fun _ _ _ _ hs => newSlot_same (.string hs)

theorem strcmpEq_same (leftStr rightStr : Option String) :
    SameEval ρ n (strcmpEq leftStr rightStr) (strcmpEq leftStr rightStr) fun _ eq eq' => eq = eq' := by
  unfold strcmpEq
  cases leftStr with
  | none => exact same_throw _
  | some l =>
    cases rightStr with
    | none => exact same_throw _
    | some r => exact same_pure fun _ _ => rfl

/-- What is made of a comparison of strings. -/
theorem strcmpBool_same (leftStr rightStr : Option String) (f : Bool → Bool) :
    SameEval ρ n (do let eq ← strcmpEq leftStr rightStr; giveBool (f eq))
      (do let eq ← strcmpEq leftStr rightStr; giveBool (f eq)) ValsAlike :=
  (strcmpEq_same leftStr rightStr).bind fun _ _ eq eq' heq => by
    subst heq
    exact giveBool_same _

theorem evalBinexpString_same (operator : BinOperator) (hl : left.Alike ρ left') (hr : right.Alike ρ right')
    (leftPos : Pos) :
    SameEval ρ n (evalBinexpString operator left right leftPos) (evalBinexpString operator left' right' leftPos)
      ValsAlike := by
  unfold evalBinexpString
  by_cases hplus : operator = .opPlus
  · rw [if_pos hplus, if_pos hplus]
    exact evalConcat_same hl hr leftPos
  · rw [if_neg hplus, if_neg hplus, hl.data.type, hr.data.type]
    refine (valStringify_same hl).bind fun _ hle leftStr leftStr' hleft => ?_
    refine (valStringify_same (hr.mono hle)).bind fun _ _ rightStr rightStr' hright => ?_
    subst hleft hright
    cases operator with
    | opCmpEq => exact strcmpBool_same leftStr rightStr id
    | opCmpEqS => exact strcmpBool_same leftStr rightStr fun eq => eq && left'.data.type = right'.data.type
    | opCmpNe => exact strcmpBool_same leftStr rightStr not
    | opCmpNeS => exact strcmpBool_same leftStr rightStr fun eq => !eq && left'.data.type = right'.data.type
    | _ => exact same_throw _

theorem evalBinexpCmpGeneric_same (operator : BinOperator) (hl : left.Alike ρ left') (hr : right.Alike ρ right')
    (leftPos : Pos) :
    SameEval ρ n (evalBinexpCmpGeneric operator left right leftPos) (evalBinexpCmpGeneric operator left' right' leftPos)
      ValsAlike := by
  unfold evalBinexpCmpGeneric
  rw [isString_alike hl, isString_alike hr, hl.data.type, hr.data.type, valToInt_alike hl, valToInt_alike hr]
  by_cases hstring : (left'.isString || right'.isString) = true
  · rw [if_pos hstring, if_pos hstring]
    exact evalBinexpString_same operator hl hr leftPos
  · rw [if_neg hstring, if_neg hstring]
    cases operator with
    | opCmpLt | opCmpGt | opCmpGe | opCmpLe | opCmpEq | opCmpEqS | opCmpNe | opCmpNeS => exact giveBool_same _
    | _ => exact same_throw _

theorem evalBinexpInt_same (operator : BinOperator) (l r : Int) (rightPos : Pos) :
    SameEval ρ n (evalBinexpInt operator l r rightPos) (evalBinexpInt operator l r rightPos) ValsAlike := by
  unfold evalBinexpInt
  cases operator with
  | opPlus | opMinus | opTimes => exact giveInt_same _
  | opDivide =>
    by_cases hr : r = 0
    · simp only [if_pos hr]
      exact same_throw _
    · simp only [if_neg hr]
      exact giveValue_same (alike_ofData (.float l r))
  | opModulus =>
    by_cases hr : r = 0
    · simp only [if_pos hr]
      exact same_throw _
    · simp only [if_neg hr]
      by_cases hq : l.tdiv r < 0x8000000000000000
      · simp only [if_pos hq]
        exact giveInt_same _
      · simp only [if_neg hq]
        exact same_throw _
  | _ => exact same_throw _

/-- The end of `evalBinop`, for operands that are not both integers. -/
theorem evalBinop_end {operator : BinOperator} (pos leftPos rightPos : Pos)
    (hoperator : ¬ operator.isComparison = true) (h : ∀ l r, left.data = .integer l → right.data = .integer r → False) :
    evalBinop pos leftPos rightPos operator left right =
      if left.isString || right.isString then evalBinexpString operator left right leftPos
      else
        throwRuntime pos ("unsupported binary operation (lhs: " ++ left.data.typeToStr ++ "(" ++
          toString left.data.type ++ "), rhs: " ++ right.data.typeToStr ++ "(" ++
          toString right.data.type ++ "))") := by
  unfold evalBinop
  rw [if_neg hoperator]
  split
  · rename_i l r hl hr
    exact (h l r hl hr).elim
  · rfl

theorem evalBinop_same (pos leftPos rightPos : Pos) (operator : BinOperator) (hl : left.Alike ρ left')
    (hr : right.Alike ρ right') :
    SameEval ρ n (evalBinop pos leftPos rightPos operator left right)
      (evalBinop pos leftPos rightPos operator left' right') ValsAlike := by
  by_cases hoperator : operator.isComparison = true
  · unfold evalBinop
    rw [if_pos hoperator, if_pos hoperator]
    exact evalBinexpCmpGeneric_same operator hl hr leftPos
  · by_cases hints : ∃ l r, left.data = .integer l ∧ right.data = .integer r
    · obtain ⟨l, r, hleft, hright⟩ := hints
      unfold evalBinop
      rw [if_neg hoperator, if_neg hoperator, hleft, hright, (hl.data.integer_iff l).mp hleft,
        (hr.data.integer_iff r).mp hright]
      exact evalBinexpInt_same operator l r rightPos
    · have hnot : ∀ l r, left.data = .integer l → right.data = .integer r → False :=
        fun l r h h' => hints ⟨l, r, h, h'⟩
      rw [evalBinop_end _ _ _ hoperator hnot, evalBinop_end _ _ _ hoperator fun l r h h' =>
        hnot l r ((hl.data.integer_iff l).mpr h) ((hr.data.integer_iff r).mpr h'), isString_alike hl, isString_alike hr,
        hl.data.type, hr.data.type, hl.data.typeToStr, hr.data.typeToStr]
      by_cases hstring : (left'.isString || right'.isString) = true
      · rw [if_pos hstring, if_pos hstring]
        exact evalBinexpString_same operator hl hr leftPos
      · rw [if_neg hstring, if_neg hstring]
        exact same_throw _

end Blaze
