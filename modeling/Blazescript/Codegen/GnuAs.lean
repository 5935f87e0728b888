import Mathlib.Data.List.Basic

/-!
# The operand of `.string`

How the GNU assembler reads it: a double quote ends the string, and a backslash begins an escape.
-/

namespace Blaze

/-- Up to some number of digits, as an octal number. The assembler takes any decimal digit. -/
def octalEscape : Nat → Nat → List Char → Nat × List Char
  | n + 1, number, c :: cs =>
    if c.isDigit then octalEscape n (number * 8 + (c.toNat - 48)) cs else (number, c :: cs)
  | _, number, cs => (number, cs)

/-- The value of a hexadecimal digit. -/
def hexDigit (c : Char) : Option Nat :=
  if c.isDigit then some (c.toNat - 48)
  else if 'a' ≤ c ∧ c ≤ 'f' then some (c.toNat - 87)
  else if 'A' ≤ c ∧ c ≤ 'F' then some (c.toNat - 55)
  else none

/-- All the hexadecimal digits. -/
def hexEscape : Nat → List Char → Nat × List Char
  | number, c :: cs =>
    match hexDigit c with
    | some digit => hexEscape (number * 16 + digit) cs
    | none => (number, c :: cs)
  | number, [] => (number, [])

/-- The byte for an escape, from the character after the backslash on, and what follows it. Other
characters stand for themselves. -/
def decodeEscape (c : Char) (cs : List Char) : Char × List Char :=
  if c.isDigit then
    let (number, rest) := octalEscape 3 0 (c :: cs)
    (Char.ofNat (number % 256), rest)
  else if c = 'x' ∨ c = 'X' then
    let (number, rest) := hexEscape 0 cs
    (Char.ofNat (number % 256), rest)
  else
    (if c = 'b' then '\x08' else if c = 'f' then '\x0c' else if c = 'n' then '\n' else if c = 'r' then '\r'
      else if c = 't' then '\t' else if c = 'v' then '\x0b' else c, cs)

/-- The bytes up to the quote that ends the string, and what follows it. No text is read in more steps than
it has characters. -/
def decodeChars : Nat → List Char → Option (List Char × List Char)
  | 0, _ => none
  | _, [] => none
  | _ + 1, '"' :: cs => some ([], cs)
  | _ + 1, ['\\'] => none
  | n + 1, '\\' :: c :: cs =>
    let (byte, rest) := decodeEscape c cs
    (decodeChars n rest).map fun (bytes, rest) => (byte :: bytes, rest)
  | n + 1, c :: cs => (decodeChars n cs).map fun (bytes, rest) => (c :: bytes, rest)

/-- The bytes of a string operand, and what follows it. -/
def decodeOperand (operand : List Char) : Option (List Char × List Char) :=
  match operand with
  | '"' :: cs => decodeChars cs.length cs
  | _ => none

end Blaze
