import Blazescript.Arena.Block

/-!
# Proofs: a block of cells

Values that fit replace the cells they are written to.
-/

namespace Arena

variable {α : Type} {cells as : List α} {off : Nat}

theorem length_storeAt (cells as : List α) (off : Nat) : (storeAt cells off as).length = cells.length := by
  induction as generalizing off with
  | nil => rfl
  | cons a as ih =>
    rw [storeAt, List.length_set]
    exact ih (off + 1)

theorem storeAt_eq (h : off + as.length ≤ cells.length) :
    storeAt cells off as = cells.take off ++ (as ++ cells.drop (off + as.length)) := by
  induction as generalizing off with
  | nil => exact (List.take_append_drop off cells).symm
  | cons a as ih =>
    rw [List.length_cons] at h
    have hoff : off < cells.length := by omega
    have htake : (cells.take off).length = off := List.length_take_of_le (by omega)
    have hset : off - (cells.take off).length = 0 := by omega
    rw [storeAt, ih (by omega), List.take_succ_eq_append_getElem hoff, List.append_assoc,
      List.set_append_right _ _ (by omega), hset, List.length_cons, Nat.add_right_comm, Nat.add_assoc]
    rfl

/-- The cells up to the last one that is written. -/
theorem take_storeAt (h : off + as.length ≤ cells.length) :
    (storeAt cells off as).take (off + as.length) = cells.take off ++ as := by
  have htake : (cells.take off).length = off := List.length_take_of_le (by omega)
  rw [storeAt_eq h, ← List.append_assoc]
  refine List.take_left' ?_
  rw [List.length_append, htake]

end Arena
