import Mathlib.Data.Nat.Digits.Lemmas

/-! Decimal digits of a natural number as they are written, the most significant first. -/

namespace Decimal

def digits (n : Nat) : List Nat := if n = 0 then [0] else (Nat.digits 10 n).reverse

/-- The number that digits denote, read from the left. -/
def value (ds : List Nat) : Nat := ds.foldl (fun v d => 10 * v + d) 0

theorem value_digits (n : Nat) : value (digits n) = n := by
  unfold digits
  split
  · next h => simp [value, h]
  · have hfold := Nat.ofDigits_eq_foldr 10 (Nat.digits 10 n)
    rw [Nat.ofDigits_digits] at hfold
    rw [value, List.foldl_reverse]
    simpa [Nat.add_comm] using hfold.symm

theorem digits_ne_nil (n : Nat) : digits n ≠ [] := by
  unfold digits
  split
  · simp
  · next h => simpa using Nat.digits_ne_nil_iff_ne_zero.mpr h

theorem lt_of_mem_digits {n d : Nat} (h : d ∈ digits n) : d < 10 := by
  unfold digits at h
  split at h
  · rw [List.mem_singleton.mp h]
    exact Nat.zero_lt_succ 9
  · exact Nat.digits_lt_base (Nat.one_lt_succ_succ 8) (List.mem_reverse.mp h)

theorem length_digits_le {n k : Nat} (hk : 0 < k) (h : n < 10 ^ k) : (digits n).length ≤ k := by
  unfold digits
  split
  · exact hk
  · rw [List.length_reverse]
    exact (Nat.digits_length_le_iff (Nat.one_lt_succ_succ 8) n).mpr h

end Decimal
