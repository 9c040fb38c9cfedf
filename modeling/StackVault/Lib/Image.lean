import Mathlib.Algebra.Group.Nat.Defs
import Mathlib.Data.List.TakeWhile

/-! The bytes of a file: the little-endian number and the NUL-terminated string at an offset. -/

namespace Image

abbrev Bytes := List (BitVec 8)

/-- The little-endian number of the bytes. -/
def number : Bytes → Nat
  | [] => 0
  | b :: bs => b.toNat + 256 * number bs

/-- The number of the `k` bytes from offset `o` on. -/
def word (bs : Bytes) (o k : Nat) : Nat := number ((bs.drop o).take k)

/-- The bytes from offset `o` on, up to the next NUL. -/
def string (bs : Bytes) (o : Nat) : Bytes := (bs.drop o).takeWhile (· ≠ 0)

section Image
variable {bs : Bytes} {o k n : Nat}

theorem number_lt : ∀ bs : Bytes, number bs < 256 ^ bs.length
  | [] => Nat.one_pos
  | b :: bs => by
    have ih := number_lt bs
    have hb := b.isLt
    simp only [number, List.length_cons, Nat.pow_succ]
    omega

theorem word_lt : word bs o k < 256 ^ k :=
  Nat.lt_of_lt_of_le (number_lt _) (Nat.pow_le_pow_right (by decide) (List.length_take_le _ _))

theorem zero_notMem_string : 0 ∉ string bs o := fun h => by
  simpa using List.mem_takeWhile_imp h

/-- A number inside the file is the same when more bytes follow. -/
theorem word_append (h : o + k ≤ bs.length) (cs : Bytes) : word (bs ++ cs) o k = word bs o k := by
  have hlen : k ≤ (bs.drop o).length := by
    rw [List.length_drop]
    omega
  rw [word, word, List.drop_append_of_le_length (by omega), List.take_append_of_le_length hlen]

/-- A string that has a NUL behind it ends inside the file. -/
theorem string_lt (h : bs[o + n]? = some 0) : o + (string bs o).length < bs.length := by
  have hlt := (List.getElem?_eq_some_iff.mp h).1
  have hlen : (string bs o).length ≤ (bs.drop o).length := (List.takeWhile_sublist _).length_le
  rw [List.length_drop] at hlen
  by_contra hle
  -- The whole rest of the file would be the string.
  have hwhole : (string bs o).length = (bs.drop o).length := by
    rw [List.length_drop]
    omega
  have heq : string bs o = bs.drop o := (List.takeWhile_sublist _).eq_of_length hwhole
  have hmem : (0 : BitVec 8) ∈ bs.drop o := by
    refine List.mem_of_getElem? (i := n) ?_
    rw [List.getElem?_drop]
    exact h
  rw [← heq] at hmem
  exact zero_notMem_string hmem

/-- And a string that ends inside the file has a NUL behind it. -/
theorem string_end (h : o + (string bs o).length < bs.length) : bs[o + (string bs o).length]? = some 0 := by
  have hsplit : bs.drop o = string bs o ++ (bs.drop o).dropWhile (· ≠ 0) := List.takeWhile_append_dropWhile.symm
  have hget : (bs.drop o)[(string bs o).length]? = ((bs.drop o).dropWhile (· ≠ 0))[0]? := by
    refine (congrArg (fun l : Bytes => l[(string bs o).length]?) hsplit).trans ?_
    rw [List.getElem?_append_right (Nat.le_refl _), Nat.sub_self]
  rw [← List.getElem?_drop, hget]
  cases hrest : (bs.drop o).dropWhile (· ≠ 0) with
  | nil =>
    have hlen := congrArg List.length hsplit
    rw [hrest, List.append_nil, List.length_drop] at hlen
    omega
  | cons c rest =>
    have hc := List.head?_dropWhile_not (fun b : BitVec 8 => decide (b ≠ 0)) (bs.drop o)
    rw [hrest] at hc
    simpa using hc

/-- A string that ends inside the file is the same when more bytes follow. -/
theorem string_append (h : o + (string bs o).length < bs.length) (cs : Bytes) : string (bs ++ cs) o = string bs o := by
  have hshort : ¬(string bs o).length = (bs.drop o).length := by
    rw [List.length_drop]
    omega
  rw [string, List.drop_append_of_le_length (by omega), List.takeWhile_append]
  exact if_neg hshort

theorem string_lt_iff : o + (string bs o).length < bs.length ↔ ∃ n, bs[o + n]? = some 0 :=
  ⟨fun h => ⟨_, string_end h⟩, fun ⟨_, h⟩ => string_lt h⟩

end Image

end Image
