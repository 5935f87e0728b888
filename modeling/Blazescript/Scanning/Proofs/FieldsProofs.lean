import Blazescript.Scanning.Fields
import Mathlib.Tactic

/-!
# Proofs: fields and numerals
-/

namespace Scanning

section Fields

variable {α : Type} [DecidableEq α] {sep : α} {w xs : List α}

theorem fieldsFrom_append (h : sep ∉ w) : ∀ acc, fieldsFrom sep acc (w ++ xs) = fieldsFrom sep (acc ++ w) xs := by
  induction w with
  | nil =>
    intro acc
    rw [List.append_nil, List.nil_append]
  | cons x w ih =>
    intro acc
    rw [List.mem_cons, not_or] at h
    rw [List.cons_append, fieldsFrom, if_pos (Ne.symm h.1), ih h.2, List.append_assoc]
    rfl

/-- A separator at the front does not count. -/
theorem fields_sep (xs : List α) : fields sep (sep :: xs) = fields sep xs := by
  unfold fields
  rw [fieldsFrom, if_neg (not_not.mpr rfl)]
  rfl

/-- The first field, and what follows the separator after it. -/
theorem fields_cons (hne : w ≠ []) (h : sep ∉ w) (xs : List α) : fields sep (w ++ sep :: xs) = w :: fields sep xs := by
  unfold fields
  rw [fieldsFrom_append h, List.nil_append, fieldsFrom, if_neg (not_not.mpr rfl), if_neg]
  rw [List.isEmpty_iff]
  exact hne

/-- The last field. -/
theorem fields_last (hne : w ≠ []) (h : sep ∉ w) : fields sep w = [w] := by
  have hlast : fieldsFrom sep [] (w ++ []) = fieldsFrom sep ([] ++ w) [] := fieldsFrom_append h []
  rw [List.append_nil, List.nil_append] at hlast
  unfold fields
  rw [hlast, fieldsFrom, if_neg]
  rw [List.isEmpty_iff]
  exact hne

theorem fields_replicate (n : Nat) (xs : List α) : fields sep (List.replicate n sep ++ xs) = fields sep xs := by
  induction n with
  | zero => rfl
  | succ n ih => rw [List.replicate_succ, List.cons_append, fields_sep, ih]

/-- What stands before the first separator. -/
theorem takeWhile_sep (h : sep ∉ w) : (w ++ [sep]).takeWhile (· ≠ sep) = w := by
  rw [List.takeWhile_append_of_pos, List.takeWhile_cons_of_neg (by simp), List.append_nil]
  intro x hx
  rw [decide_eq_true_iff]
  rintro rfl
  exact h hx

end Fields

section Numerals

variable {b n : Nat}

theorem digitValue_digitChar (h : n < 16) : digitValue n.digitChar = some n := by
  have hall : ∀ d < 16, digitValue (Nat.digitChar d) = some d := by decide
  exact hall n h

theorem readFrom_append (cs ds : List Char) : ∀ value,
    readFrom b value (cs ++ ds) = (readFrom b value cs).bind fun value => readFrom b value ds := by
  induction cs with
  | nil => exact fun value => rfl
  | cons c cs ih =>
    intro value
    rw [List.cons_append, readFrom, readFrom]
    cases digitValue c with
    | none => rfl
    | some digit =>
      rw [Option.bind_some, Option.bind_some]
      by_cases h : digit < b
      · rw [if_pos h, if_pos h, ih]
      · rw [if_neg h, if_neg h]
        rfl

/-- The digits of a number make the number. -/
theorem readFrom_toDigits (hb : 1 < b) (hb' : b ≤ 16) (n : Nat) : readFrom b 0 (Nat.toDigits b n) = some n := by
  induction n using Nat.strong_induction_on with
  | _ n ih =>
    have hdigit : ∀ value d, d < b → readFrom b value [d.digitChar] = some (value * b + d) := by
      intro value d hd
      rw [readFrom, digitValue_digitChar (by omega), Option.bind_some, if_pos hd, readFrom]
    by_cases hn : n < b
    · rw [Nat.toDigits_of_lt_base hn, hdigit 0 n hn, Nat.zero_mul, Nat.zero_add]
    · have hdiv : n / b < n := Nat.div_lt_self (by omega) hb
      rw [Nat.toDigits_of_base_le hb (by omega), readFrom_append, ih (n / b) hdiv, Option.bind_some,
        hdigit _ _ (Nat.mod_lt n (by omega)), Nat.div_add_mod']

/-- Zeros in front of a number do not count. -/
theorem readFrom_zeros (hb : 0 < b) (k : Nat) (cs : List Char) :
    readFrom b 0 (List.replicate k '0' ++ cs) = readFrom b 0 cs := by
  induction k with
  | zero => rfl
  | succ k ih =>
    have hzero : digitValue '0' = some 0 := rfl
    rw [List.replicate_succ, List.cons_append, readFrom, hzero, Option.bind_some, if_pos hb, Nat.zero_mul, ih]

theorem readNumeral_padded (hb : 1 < b) (hb' : b ≤ 16) (k n : Nat) :
    readNumeral b (List.replicate k '0' ++ Nat.toDigits b n) = some n := by
  unfold readNumeral
  rw [if_neg]
  · rw [readFrom_zeros (by omega), readFrom_toDigits hb hb']
  · rw [List.isEmpty_iff, List.append_eq_nil_iff]
    exact fun h => Nat.toDigits_ne_nil h.2

theorem exists_digit_of_mem {c : Char} (hb : 1 < b) (hb' : b ≤ 16) : ∀ n, c ∈ Nat.toDigits b n →
    ∃ d < 16, c = Nat.digitChar d := by
  intro n
  induction n using Nat.strong_induction_on with
  | _ n ih =>
    intro hc
    by_cases hn : n < b
    · rw [Nat.toDigits_of_lt_base hn, List.mem_singleton] at hc
      exact ⟨n, by omega, hc⟩
    · rw [Nat.toDigits_of_base_le hb (by omega), List.mem_append, List.mem_singleton] at hc
      rcases hc with hc | hc
      · exact ih (n / b) (Nat.div_lt_self (by omega) hb) hc
      · exact ⟨n % b, lt_of_lt_of_le (Nat.mod_lt n (by omega)) hb', hc⟩

/-- A character that is no digit is none of a number. -/
theorem not_mem_toDigits {c : Char} (hb : 1 < b) (hb' : b ≤ 16) (hc : ∀ d < 16, c ≠ Nat.digitChar d) (n : Nat) :
    c ∉ Nat.toDigits b n := by
  intro h
  obtain ⟨d, hd, rfl⟩ := exists_digit_of_mem hb hb' n h
  exact hc d hd rfl

end Numerals

end Scanning
