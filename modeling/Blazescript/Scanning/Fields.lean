import Mathlib.Data.List.Basic

/-!
# Fields and numerals

How a text in columns is read: it is cut at a separator, and the digits in a field make a number.
-/

namespace Scanning

section Fields

variable {α : Type} [DecidableEq α]

/-- The parts of a list between separators, when the first one has begun. Empty parts are left out. -/
def fieldsFrom (sep : α) : List α → List α → List (List α)
  | acc, [] => if acc.isEmpty then [] else [acc]
  | acc, x :: xs =>
    if x ≠ sep then fieldsFrom sep (acc ++ [x]) xs
    else if acc.isEmpty then fieldsFrom sep [] xs
    else acc :: fieldsFrom sep [] xs

def fields (sep : α) (xs : List α) : List (List α) := fieldsFrom sep [] xs

end Fields

/-- The value of a digit, in small letters from ten on. -/
def digitValue (c : Char) : Option Nat :=
  if c.isDigit then some (c.toNat - 48) else if 97 ≤ c.toNat ∧ c.toNat ≤ 102 then some (c.toNat - 87) else none

/-- The number that the digits make, when some have been read. -/
def readFrom (base : Nat) : Nat → List Char → Option Nat
  | value, [] => some value
  | value, c :: cs => (digitValue c).bind fun digit =>
      if digit < base then readFrom base (value * base + digit) cs else none

/-- The number that the digits make, if there are any. -/
def readNumeral (base : Nat) (digits : List Char) : Option Nat :=
  if digits.isEmpty then none else readFrom base 0 digits

end Scanning
