import Mathlib.Data.List.ReduceOption

/-!
# Linear probing

A cyclic array of slots, each empty or holding an entry, searched from the home slot of a key on
until the key or an empty slot is met. The entries, their keys and the hash function are arbitrary:
`key` reads the key of an entry and `home` gives the slot where the search for a key starts.
-/

namespace Probing

variable {ε κ : Type}

/-- The slot after `i` in a cyclic array of `n` slots. -/
def next (n i : Nat) : Nat := if i + 1 ≥ n then 0 else i + 1

section Search

variable [DecidableEq κ] (key : ε → κ)

/-- The first slot from `i` on that is empty or holds the key `k`; `none` if it is not met within
`fuel` slots. -/
def probe (k : κ) (slots : List (Option ε)) : Nat → Nat → Option Nat
  | 0, _ => none
  | fuel + 1, i =>
    match slots[i]? with
    | none => none
    | some none => some i
    | some (some e) =>
      if key e = k then some i else probe k slots fuel (next slots.length i)

/-- The entry found for the key `k`. -/
def lookup (home : κ → Nat) (slots : List (Option ε)) (k : κ) : Option ε :=
  (probe key k slots slots.length (home k)).bind fun i => slots[i]?.join

/-- Writes the entry `e` into the slot where the search for its key ends. -/
def put (home : κ → Nat) (slots : List (Option ε)) (e : ε) : Option (List (Option ε)) :=
  (probe key (key e) slots slots.length (home (key e))).map fun i => slots.set i (some e)

end Search

/-- The probe-chain invariant: an entry is separated from its home slot by occupied slots only, no
key occurs twice, and there is an empty slot, at which every search ends. -/
structure WF (key : ε → κ) (home : κ → Nat) (slots : List (Option ε)) : Prop where
  home_lt : ∀ k, home k < slots.length
  reach : ∀ (j : Nat) (e : ε), slots[j]? = some (some e) → ∃ d < slots.length,
    (home (key e) + d) % slots.length = j ∧
      ∀ c < d, ∃ e', slots[(home (key e) + c) % slots.length]? = some (some e')
  inj : ∀ (i j : Nat) (e e' : ε), slots[i]? = some (some e) → slots[j]? = some (some e') → key e = key e' → i = j
  free : none ∈ slots

end Probing
