import Blazescript.Eval.Proofs.OperatorsProofs

/-!
# Proofs: comparisons

The pairs of complementary operators, and how far the comparisons respect the values that are compared.
-/

namespace Blaze

open Tracing

variable {m : Machine} {operator : BinOperator} {left right : Val} {pos leftPos rightPos : Pos}
  {w : World Machine Event} {x x' : Eval Val} {o o' : Outcome} {b b' : Bool}

/-! ## Complementary operators -/

/-- When both outcomes are booleans, they differ. -/
def Negates (o o' : Outcome) : Prop := ∀ b b', o = .data (.boolean b) → o' = .data (.boolean b') → b' = !b

theorem negates_data : Negates (.data (.boolean b)) (.data (.boolean b')) ↔ b' = !b := by
  constructor
  · exact fun h => h b b' rfl rfl
  · rintro h _ _ ⟨⟩ ⟨⟩
    exact h

theorem negates_of_ne (h : ∀ b, o ≠ .data (.boolean b)) : Negates o o' :=
  fun b _ ho => absurd ho (h b)

theorem Gives.negates (h : Gives o x w) (h' : Gives o' x' w) :
    (∀ b b', Answers x w b → Answers x' w b' → b' = !b) ↔ Negates o o' := by
  constructor
  · exact fun hall b b' ho ho' => hall b b' (h.answers.mpr ho) (h'.answers.mpr ho')
  · exact fun hall b b' hx hx' => hall b b' (h.answers.mp hx) (h'.answers.mp hx')

/-- The strict operators both fail on values of different types. -/
theorem negates_strict (eq sameType : Bool) :
    Negates (equalityOutcome .opCmpEqS eq sameType) (equalityOutcome .opCmpNeS eq sameType) ↔ sameType = true := by
  refine negates_data.trans ?_
  cases eq with
  | true => cases sameType <;> decide
  | false => cases sameType <;> decide

theorem negates_equality (eq sameType : Bool) :
    Negates (equalityOutcome .opCmpEq eq sameType) (equalityOutcome .opCmpNe eq sameType) := negates_data.mpr rfl

theorem textOutcome_none (l r : Option String) (sameType : Bool) (h : l = none ∨ r = none) (b : Bool) :
    textOutcome operator sameType l r ≠ .data (.boolean b) := by
  have hif : (if operator.isEquality then Outcome.undefined else .fatal) ≠ .data (.boolean b) := by
    split <;> simp
  match l, r, h with
  | none, r, _ => exact hif
  | some l, none, _ => exact hif

/-- A string and a value without a text are not compared. -/
theorem stringOutcome_incomparable (hne : operator ≠ .opPlus) (h : m.text left = none ∨ m.text right = none)
    (b : Bool) : stringOutcome m operator left right ≠ .data (.boolean b) := by
  unfold stringOutcome
  rw [if_neg hne]
  cases hl : m.stringify left with
  | none => simp
  | some l =>
    cases hr : m.stringify right with
    | none => simp
    | some r =>
      rw [stringify_eq_text hl, stringify_eq_text hr] at h
      exact textOutcome_none l r _ h b

/-- The outcome of a comparison of two texts. -/
theorem stringOutcome_texts {l r : String} (hne : operator ≠ .opPlus) (hl : m.text left = some l)
    (hr : m.text right = some r) :
    stringOutcome m operator left right = equalityOutcome operator (l = r) (sameType left right) := by
  unfold stringOutcome
  rw [if_neg hne, Option.join_eq_some_iff.mp hl, Option.join_eq_some_iff.mp hr]
  rfl

/-- The outcomes of complementary operators on the string path. -/
theorem stringOutcome_complementary (m : Machine) (left right : Val) :
    (∀ p ∈ complementary, Negates (stringOutcome m p.1 left right) (stringOutcome m p.2 left right)) ↔
      sameType left right = true ∨ m.text left = none ∨ m.text right = none := by
  by_cases hnone : m.text left = none ∨ m.text right = none
  · refine iff_of_true (fun p hp => negates_of_ne (stringOutcome_incomparable ?_ hnone)) (.inr hnone)
    rintro hplus
    revert hp
    rw [← Prod.mk.eta (p := p), hplus]
    simp [complementary]
  · obtain ⟨hl, hr⟩ := not_or.mp hnone
    obtain ⟨l, hl⟩ := Option.ne_none_iff_exists'.mp hl
    obtain ⟨r, hr⟩ := Option.ne_none_iff_exists'.mp hr
    rw [or_iff_left hnone]
    constructor
    · intro h
      have hstrict := h (.opCmpEqS, .opCmpNeS) (by simp [complementary])
      rw [stringOutcome_texts (by decide) hl hr, stringOutcome_texts (by decide) hl hr] at hstrict
      exact (negates_strict _ _).mp hstrict
    · intro hsame
      have htexts : ∀ operator, operator ≠ .opPlus → stringOutcome m operator left right =
          equalityOutcome operator (l = r) (sameType left right) := fun operator hne => stringOutcome_texts hne hl hr
      refine List.forall_mem_cons.mpr ⟨?_, List.forall_mem_cons.mpr ⟨?_, List.forall_mem_cons.mpr ⟨?_,
        List.forall_mem_cons.mpr ⟨?_, fun p hp => nomatch hp⟩⟩⟩⟩
      · rw [htexts _ (by decide), htexts _ (by decide)]
        exact negates_equality _ _
      · rw [htexts _ (by decide), htexts _ (by decide)]
        exact (negates_strict _ _).mpr hsame
      · rw [htexts _ (by decide)]
        exact negates_of_ne fun b => by simp [equalityOutcome]
      · rw [htexts _ (by decide)]
        exact negates_of_ne fun b => by simp [equalityOutcome]

/-- The outcomes of complementary operators on the generic path. -/
theorem genericOutcome_complementary (left right : Val) :
    (∀ p ∈ complementary, Negates (genericOutcome p.1 left right) (genericOutcome p.2 left right)) ↔
      sameType left right = true := by
  constructor
  · intro h
    exact (negates_strict _ _).mp (h (.opCmpEqS, .opCmpNeS) (by simp [complementary]))
  · intro hsame
    refine List.forall_mem_cons.mpr ⟨?_, List.forall_mem_cons.mpr ⟨?_, List.forall_mem_cons.mpr ⟨?_,
      List.forall_mem_cons.mpr ⟨?_, fun p hp => nomatch hp⟩⟩⟩⟩
    · exact negates_equality _ (sameType left right)
    · exact (negates_strict _ _).mpr hsame
    · refine negates_data.mpr ?_
      rw [← decide_not]
      exact decide_eq_decide.mpr not_lt.symm
    · refine negates_data.mpr ?_
      rw [← decide_not]
      exact decide_eq_decide.mpr not_lt.symm

/-- The outcomes of complementary operators. -/
theorem outcome_complementary (m : Machine) (left right : Val) :
    (∀ p ∈ complementary, Negates (outcome m p.1 left right) (outcome m p.2 left right)) ↔
      sameType left right = true ∨ m.Incomparable left right := by
  have hcmp : ∀ p ∈ complementary, p.1.isComparison = true ∧ p.2.isComparison = true := by decide
  have houtcome : ∀ operator : BinOperator, operator.isComparison = true → outcome m operator left right =
      if left.isString || right.isString then stringOutcome m operator left right
      else genericOutcome operator left right := fun operator h => if_pos h
  have hpairs : (∀ p ∈ complementary, Negates (outcome m p.1 left right) (outcome m p.2 left right)) ↔
      ∀ p ∈ complementary, Negates
        (if left.isString || right.isString then stringOutcome m p.1 left right else genericOutcome p.1 left right)
        (if left.isString || right.isString then stringOutcome m p.2 left right
          else genericOutcome p.2 left right) := by
    refine forall₂_congr fun p hp => ?_
    rw [houtcome _ (hcmp p hp).1, houtcome _ (hcmp p hp).2]
  rw [hpairs]
  unfold Machine.Incomparable
  by_cases hs : (left.isString || right.isString) = true
  · simp only [if_pos hs]
    rw [and_iff_right hs]
    exact stringOutcome_complementary m left right
  · simp only [if_neg hs]
    rw [or_iff_left fun h => hs h.1]
    exact genericOutcome_complementary left right

/-- The operators of a pair are each other's negation on values of one type, and where one of them is not
defined. -/
theorem evalBinop_complementary (pos leftPos rightPos : Pos) (left right : Val) (w : World Machine Event) :
    (∀ p ∈ complementary, ∀ b b', Answers (evalBinop pos leftPos rightPos p.1 left right) w b →
      Answers (evalBinop pos leftPos rightPos p.2 left right) w b' → b' = !b) ↔
    sameType left right = true ∨ w.state.Incomparable left right := by
  rw [← outcome_complementary]
  exact forall₂_congr fun p _ => gives_evalBinop.negates gives_evalBinop

/-- `1 === "1"` and `1 !== "1"` are both false. -/
theorem evalBinop_strict_false :
    Answers (evalBinop .unknown .unknown .unknown .opCmpEqS (.ofData (.integer 1)) (.ofData (.string 0)))
      (oneString "1") false ∧
    Answers (evalBinop .unknown .unknown .unknown .opCmpNeS (.ofData (.integer 1)) (.ofData (.string 0)))
      (oneString "1") false := ⟨⟨_, _, rfl, rfl⟩, _, _, rfl, rfl⟩

/-! ## Values -/

/-- The outcomes of comparisons of integers agree with an order if less and greater do. -/
theorem generic_orders (left right : Val) (p q : Rat) :
    (∀ o ∈ orders, genericOutcome o.1 left right = .data (.boolean (o.2 p q))) ↔
      (p < q ↔ valToInt left < valToInt right) ∧ (p > q ↔ valToInt left > valToInt right) := by
  have hdata : ∀ (c c' : Prop) [Decidable c] [Decidable c'],
      Outcome.data (.boolean c) = .data (.boolean c') ↔ (c' ↔ c) := by
    intro c c' _ _
    rw [Outcome.data.injEq, ValData.boolean.injEq, decide_eq_decide]
    exact Iff.comm
  constructor
  · intro h
    have hlt := h (.opCmpLt, fun p q => p < q) List.mem_cons_self
    have hgt := h (.opCmpGt, fun p q => p > q) (List.mem_cons_of_mem _ List.mem_cons_self)
    exact ⟨(hdata _ _).mp hlt, (hdata _ _).mp hgt⟩
  · rintro ⟨hlt, hgt⟩
    refine List.forall_mem_cons.mpr ⟨(hdata _ _).mpr hlt, List.forall_mem_cons.mpr ⟨(hdata _ _).mpr hgt,
      List.forall_mem_cons.mpr ⟨(hdata _ _).mpr ?_, List.forall_mem_cons.mpr ⟨(hdata _ _).mpr ?_,
        List.forall_mem_cons.mpr ⟨(hdata _ _).mpr ?_, fun o ho => nomatch ho⟩⟩⟩⟩⟩
    · rw [← not_lt, ← not_lt]
      exact not_congr hgt
    · rw [ge_iff_le, ge_iff_le, ← not_lt, ← not_lt]
      exact not_congr hlt
    · rw [le_antisymm_iff, le_antisymm_iff, ← not_lt, ← not_lt, ← not_lt, ← not_lt]
      exact and_congr (not_congr hgt) (not_congr hlt)

/-- The outcomes of the comparisons of a machine, for values that are no strings. -/
theorem outcome_generic (hstring : (left.isString || right.isString) = false) (hcmp : operator.isComparison = true) :
    outcome m operator left right = genericOutcome operator left right := by
  unfold outcome
  rw [if_pos hcmp, hstring]
  rfl

theorem orders_comparison : ∀ o ∈ orders, o.1.isComparison = true := by
  intro o ho
  simp only [orders, List.mem_cons, List.not_mem_nil, or_false] at ho
  rcases ho with rfl | rfl | rfl | rfl | rfl
  all_goals rfl

/-- Two numbers. -/
theorem respects_numbers {p q : Rat} (hstring : (left.isString || right.isString) = false)
    (hl : left.rational = some p) (hr : right.rational = some q) :
    Respects m left right (fun operator b => outcome m operator left right = .data (.boolean b)) ↔
      (valToInt left = valToInt right → sameType left right = true → Same m left right) ∧
      (p < q ↔ valToInt left < valToInt right) ∧ (p > q ↔ valToInt left > valToInt right) := by
  have hstrict : outcome m .opCmpEqS left right = .data (.boolean true) ↔
      valToInt left = valToInt right ∧ sameType left right = true := by
    rw [outcome_generic hstring rfl]
    show Outcome.data (.boolean (_ && _)) = _ ↔ _
    rw [Outcome.data.injEq, ValData.boolean.injEq, Bool.and_eq_true, decide_eq_true_eq]
  rw [← generic_orders]
  constructor
  · intro h
    refine ⟨fun heq htype => h.strict (hstrict.mpr ⟨heq, htype⟩), fun o ho => ?_⟩
    rw [← outcome_generic (m := m) hstring (orders_comparison o ho)]
    exact h.order p q hl hr o ho
  · rintro ⟨hsame, horders⟩
    refine ⟨fun h => hsame (hstrict.mp h).1 (hstrict.mp h).2, fun p' q' hp hq o ho => ?_⟩
    cases hl.symm.trans hp
    cases hr.symm.trans hq
    rw [outcome_generic hstring (orders_comparison o ho)]
    exact horders o ho

/-- Values that are not both numbers. -/
theorem respects_others (hrational : left.rational = none ∨ right.rational = none) :
    Respects m left right (fun operator b => outcome m operator left right = .data (.boolean b)) ↔
      (outcome m .opCmpEqS left right = .data (.boolean true) → Same m left right) := by
  constructor
  · exact fun h => h.strict
  · refine fun h => ⟨h, fun p q hp hq => ?_⟩
    rcases hrational with hnone | hnone
    · cases hnone.symm.trans hp
    · cases hnone.symm.trans hq

/-- Values of different types are never strictly equal. -/
theorem strict_types (hne : sameType left right = false) :
    outcome m .opCmpEqS left right ≠ .data (.boolean true) := by
  have hequality : ∀ eq : Bool, equalityOutcome .opCmpEqS eq (sameType left right) ≠ .data (.boolean true) := by
    intro eq
    rw [hne]
    show Outcome.data (.boolean (eq && false)) ≠ _
    rw [Bool.and_false]
    simp
  show (if left.isString || right.isString then stringOutcome m .opCmpEqS left right
    else genericOutcome .opCmpEqS left right) ≠ _
  split
  · by_cases hnone : m.text left = none ∨ m.text right = none
    · exact stringOutcome_incomparable (by decide) hnone true
    · obtain ⟨hl, hr⟩ := not_or.mp hnone
      obtain ⟨l, hl⟩ := Option.ne_none_iff_exists'.mp hl
      obtain ⟨r, hr⟩ := Option.ne_none_iff_exists'.mp hr
      rw [stringOutcome_texts (by decide) hl hr]
      exact hequality _
  · exact hequality _

/-- Strings that are strictly equal have one text. -/
theorem same_of_strings {s s' : Nat} {n n' : Bool} {p p' : Option Nat}
    (h : outcome m .opCmpEqS ⟨.string s, n, p⟩ ⟨.string s', n', p'⟩ = .data (.boolean true)) :
    Same m ⟨.string s, n, p⟩ ⟨.string s', n', p'⟩ := by
  have h : stringOutcome m .opCmpEqS ⟨.string s, n, p⟩ ⟨.string s', n', p'⟩ = .data (.boolean true) := h
  by_cases hnone : m.text ⟨.string s, n, p⟩ = none ∨ m.text ⟨.string s', n', p'⟩ = none
  · exact absurd h (stringOutcome_incomparable (by decide) hnone true)
  · obtain ⟨hl, hr⟩ := not_or.mp hnone
    obtain ⟨l, hl⟩ := Option.ne_none_iff_exists'.mp hl
    obtain ⟨r, hr⟩ := Option.ne_none_iff_exists'.mp hr
    rw [stringOutcome_texts (by decide) hl hr] at h
    have hboth : (decide (l = r) && sameType _ _) = true := ValData.boolean.inj (Outcome.data.inj h)
    have heq : l = r := of_decide_eq_true (Bool.and_eq_true_iff.mp hboth).1
    rw [text_string rfl] at hl hr
    rw [← heq] at hr
    exact .string rfl rfl hl hr

theorem same_function {f g : Nat} {n n' : Bool} {p p' : Option Nat}
    (h : Same m ⟨.function f, n, p⟩ ⟨.function g, n', p'⟩) : f = g := by
  cases h with
  | function h h' =>
    cases h
    cases h'
    rfl
  | integer h _ => cases h
  | float h _ _ => cases h
  | string h _ _ _ => cases h
  | null h _ => cases h
  | boolean h _ => cases h
  | array h _ _ _ _ => cases h

/-- The outcomes of comparisons respect values that `val_to_int` is faithful to. -/
theorem outcome_respects (m : Machine) (left right : Val) :
    Respects m left right (fun operator b => outcome m operator left right = .data (.boolean b)) ↔
      m.Faithful left right := by
  obtain ⟨leftData, leftNofree, leftSelf⟩ := left
  obtain ⟨rightData, rightNofree, rightSelf⟩ := right
  cases leftData with
  | integer i =>
    cases rightData with
    | integer j =>
      rw [respects_numbers rfl rfl rfl]
      refine iff_of_true ⟨fun heq _ => ?_, Int.cast_lt, Int.cast_lt⟩ trivial
      have heq : i = j := heq
      exact .integer rfl (congrArg ValData.integer heq.symm)
    | float n d =>
      rw [respects_numbers rfl rfl rfl]
      exact and_iff_right fun _ htype => nomatch htype
    | _ => exact iff_of_true ((respects_others (.inr rfl)).mpr fun h => absurd h (strict_types rfl)) trivial
  | float n d =>
    cases rightData with
    | integer j =>
      rw [respects_numbers rfl rfl rfl]
      exact and_iff_right fun _ htype => nomatch htype
    | float n' d' =>
      rw [respects_numbers rfl rfl rfl]
      constructor
      · rintro ⟨-, hlt, hgt⟩
        exact le_antisymm (not_lt.mp fun h => absurd (hgt.mp h) (lt_irrefl _))
          (not_lt.mp fun h => absurd (hlt.mp h) (lt_irrefl _))
      · intro heq
        have heq : (n / d : Rat) = n' / d' := heq
        refine ⟨fun _ _ => .float rfl rfl heq, ?_, ?_⟩
        · rw [heq]
          exact iff_of_false (lt_irrefl _) (lt_irrefl _)
        · rw [heq]
          exact iff_of_false (lt_irrefl _) (lt_irrefl _)
    | _ => exact iff_of_true ((respects_others (.inr rfl)).mpr fun h => absurd h (strict_types rfl)) trivial
  | string s =>
    cases rightData with
    | string s' =>
      refine iff_of_true ((respects_others (.inl rfl)).mpr fun h => ?_) trivial
      exact same_of_strings h
    | _ => exact iff_of_true ((respects_others (.inl rfl)).mpr fun h => absurd h (strict_types rfl)) trivial
  | function f =>
    cases rightData with
    | function g =>
      rw [respects_others (.inl rfl)]
      constructor
      · intro h
        exact same_function (h rfl)
      · intro heq _
        have heq : f = g := heq
        exact .function rfl (congrArg ValData.function heq.symm)
    | _ => exact iff_of_true ((respects_others (.inl rfl)).mpr fun h => absurd h (strict_types rfl)) trivial
  | null =>
    cases rightData with
    | null => exact iff_of_true ((respects_others (.inl rfl)).mpr fun _ => .null rfl rfl) trivial
    | _ => exact iff_of_true ((respects_others (.inl rfl)).mpr fun h => absurd h (strict_types rfl)) trivial
  | boolean b =>
    cases rightData with
    | boolean b' =>
      refine iff_of_true ((respects_others (.inl rfl)).mpr fun h => ?_) trivial
      have hb : b = b' := by
        revert h
        cases b with
        | true => cases b' <;> simp [outcome, genericOutcome, equalityOutcome, valToInt, BinOperator.isComparison,
            BinOperator.code, Val.isString]
        | false => cases b' <;> simp [outcome, genericOutcome, equalityOutcome, valToInt, BinOperator.isComparison,
            BinOperator.code, Val.isString]
      exact .boolean rfl (congrArg ValData.boolean hb.symm)
    | _ => exact iff_of_true ((respects_others (.inl rfl)).mpr fun h => absurd h (strict_types rfl)) trivial
  | array a =>
    cases rightData with
    | array a' =>
      rw [respects_others (.inl rfl)]
      exact ⟨fun h => h rfl, fun h _ => h⟩
    | _ => exact iff_of_true ((respects_others (.inl rfl)).mpr fun h => absurd h (strict_types rfl)) trivial

theorem evalBinop_respects (pos leftPos rightPos : Pos) (left right : Val) (w : World Machine Event) :
    Respects w.state left right
      (fun operator b => Answers (evalBinop pos leftPos rightPos operator left right) w b) ↔
    w.state.Faithful left right := by
  have hgives : ∀ operator b, Answers (evalBinop pos leftPos rightPos operator left right) w b ↔
      outcome w.state operator left right = .data (.boolean b) := fun operator b => gives_evalBinop.answers
  simp only [hgives]
  exact outcome_respects w.state left right

/-- Two divisions with different results are equal in every way. -/
theorem evalBinop_quotients :
    Answers (evalBinop .unknown .unknown .unknown .opCmpEqS (.ofData (.float 1 2)) (.ofData (.float 1 3)))
      (oneString "") true ∧
    ¬ Same (oneString "").state (.ofData (.float 1 2)) (.ofData (.float 1 3)) ∧
    Answers (evalBinop .unknown .unknown .unknown .opCmpLt (.ofData (.integer 2)) (.ofData (.float 9 2)))
      (oneString "") false := by
  refine ⟨⟨_, _, rfl, rfl⟩, ?_, ⟨_, _, rfl, rfl⟩⟩
  intro h
  cases h with
  | float h h' hq =>
    cases h
    cases h'
    norm_num at hq
  | integer h _ => cases h
  | string h _ _ _ => cases h
  | function h _ => cases h
  | null h _ => cases h
  | boolean h _ => cases h
  | array h _ _ _ _ => cases h

end Blaze
