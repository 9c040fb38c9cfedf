import StackVault.Memset

/-! The word loops of `glibc_memset` do what one byte after another would. What every loop keeps is the memory that
    the whole call is to leave: what is written so far, with the addresses still to go filled. -/

namespace StackVault
open Memory

/-! ### One word of one byte -/

theorem byteAt_splat (c : BitVec 32) : ∀ k < 8, byteAt (splat c) k = c.setWidth 8 := by
  intro k hk
  rcases (by omega : k = 0 ∨ k = 1 ∨ k = 2 ∨ k = 3 ∨ k = 4 ∨ k = 5 ∨ k = 6 ∨ k = 7) with
    rfl | rfl | rfl | rfl | rfl | rfl | rfl | rfl <;>
  · ext i hi
    simp only [byteAt, splat, BitVec.getElem_extractLsb', BitVec.getLsbD_or, BitVec.getLsbD_shiftLeft,
      BitVec.getLsbD_setWidth,
      BitVec.getElem_setWidth]
    grind

/-! ### The loops -/

section Loops
variable {c : BitVec 32} {cccc : BitVec 64} {s t : Cursor} {fuel n : Nat}

/-- Memory when the `len` bytes still to go are filled. -/
def Cursor.filled (c : BitVec 32) (s : Cursor) : Mem := fill s.mem ⟨s.dstp, s.len⟩ (c.setWidth 8)

namespace Cursor

/-- Bytes are written in front, and the counts move past them. -/
theorem filled_advance {k : Addr} (h : k ≤ s.len) :
    filled c ⟨fill s.mem ⟨s.dstp, k⟩ (c.setWidth 8), s.dstp + k, s.len - k⟩ = s.filled c := fill_split h

theorem filled_put (h : 0 < s.len) : (s.put c).filled c = s.filled c := by
  unfold put
  rw [fill_one (by decide)]
  exact filled_advance (by bv_omega)

end Cursor

theorem align_filled {fuel : Nat} (c : BitVec 32) (s : Cursor) (hlen : (8 - s.dstp.toNat % 8) % 8 ≤ s.len.toNat)
    (hf : (8 - s.dstp.toNat % 8) % 8 < fuel) :
    ∃ t, align c fuel s = some t ∧ t.filled c = s.filled c := by
  induction fuel generalizing s with
  | zero => exact absurd hf (Nat.not_lt_zero _)
  | succ fuel ih =>
    unfold align
    by_cases h0 : s.dstp % 8 = 0
    · exact ⟨s, if_neg (not_not.mpr h0), rfl⟩
    · rw [if_pos h0]
      have hmod : s.dstp.toNat % 8 ≠ 0 := fun h => h0 (BitVec.eq_of_toNat_eq h)
      have hdstp : (s.put c).dstp.toNat % 8 = (s.dstp.toNat + 1) % 8 := by
        show (s.dstp + 1).toNat % 8 = _
        bv_omega
      have hput : (s.put c).len.toNat = s.len.toNat - 1 := by
        show (s.len - 1).toNat = _
        bv_omega
      obtain ⟨t, ht, hfilled⟩ := ih (s.put c) (by omega) (by omega)
      exact ⟨t, ht, hfilled.trans (Cursor.filled_put (by bv_omega))⟩

theorem lastBytes_filled {fuel : Nat} (c : BitVec 32) (s : Cursor) (hf : s.len.toNat < fuel) :
    ∃ t, lastBytes c fuel s = some t ∧ t.mem = s.filled c := by
  induction fuel generalizing s with
  | zero => exact absurd hf (Nat.not_lt_zero _)
  | succ fuel ih =>
    unfold lastBytes
    by_cases h0 : 0 < s.len
    · rw [if_pos h0]
      have hput : (s.put c).len.toNat = s.len.toNat - 1 := by
        show (s.len - 1).toNat = _
        bv_omega
      obtain ⟨t, ht, hmem⟩ := ih (s.put c) (by bv_omega)
      exact ⟨t, ht, hmem.trans (Cursor.filled_put h0)⟩
    · have hlen : s.len = 0 := by bv_omega
      refine ⟨s, if_neg h0, ?_⟩
      rw [Cursor.filled, hlen, fill_zero]

/-- The unrolled loop is the plain one, eight words at a time. -/
theorem eightWordLoop_eq (n : Nat) (s : Cursor) : eightWordLoop cccc n s = wordLoop cccc (8 * n) s := by
  induction n generalizing s with
  | zero => rfl
  | succ n ih =>
    have hadd : ∀ k l : Addr, s.dstp + k + l = s.dstp + (k + l) := fun k l => BitVec.add_assoc _ _ _
    rw [Nat.mul_succ, eightWordLoop, ih]
    simp only [wordLoop, hadd]
    rfl

theorem wordLoop_filled {l : Addr} (h : 8 * n ≤ l.toNat) :
    Cursor.filled c { wordLoop (splat c) n s with len := l - BitVec.ofNat 64 (8 * n) } =
    Cursor.filled c { s with len := l } := by
  induction n generalizing s l with
  | zero =>
    rw [Nat.mul_zero, show l - BitVec.ofNat 64 0 = l from BitVec.sub_zero l]
    rfl
  | succ n ih =>
    have hl := l.isLt
    have hsub : (l - 8).toNat = l.toNat - 8 := by bv_omega
    have hlen : l - BitVec.ofNat 64 (8 * (n + 1)) = l - 8 - BitVec.ofNat 64 (8 * n) := by bv_omega
    rw [hlen]
    unfold wordLoop
    rw [ih (by omega), store64_fill (by decide) (byteAt_splat c)]
    exact Cursor.filled_advance (s := { s with len := l }) (by bv_omega)

/-- What the division by the width of a step leaves over. -/
theorem umod_eq_sub (l k : Addr) : l % k = l - BitVec.ofNat 64 (k.toNat * (l / k).toNat) := by
  have hl := l.isLt
  have hdiv := Nat.div_add_mod l.toNat k.toNat
  apply BitVec.eq_of_toNat_eq
  rw [BitVec.toNat_umod, BitVec.toNat_sub, BitVec.toNat_ofNat, BitVec.toNat_udiv]
  generalize k.toNat * (l.toNat / k.toNat) = q at *
  omega

@[simp] theorem wordLoop_len (cccc : BitVec 64) (n : Nat) (s : Cursor) : (wordLoop cccc n s).len = s.len := by
  induction n generalizing s with
  | zero => rfl
  | succ n ih => exact ih _

/-- A loop of `j` words an iteration, and the count that it leaves. -/
theorem loop_filled {k : Addr} {j : Nat} (hk : k.toNat = 8 * j) {t : Cursor}
    (ht : t = wordLoop (splat c) (j * (s.len / k).toNat) s) :
    Cursor.filled c { t with len := t.len % k } = s.filled c := by
  have hle : 8 * (j * (s.len / k).toNat) ≤ s.len.toNat := by
    rw [← Nat.mul_assoc, ← hk]
    exact Nat.mul_div_le _ _
  subst ht
  rw [wordLoop_len, umod_eq_sub, hk, Nat.mul_assoc]
  exact wordLoop_filled hle

end Loops

/-- `glibc_memset` returns, and has filled the `len` bytes at `dstpp` with the low byte of `c` and written no other,
    wherever the range lies and however it is aligned. -/
theorem glibcMemset_fills {fuel : Nat} (mem : Mem) (dstpp : Addr) (c : BitVec 32) (len : Addr) (hf : 8 ≤ fuel) :
    glibcMemset fuel mem dstpp c len = some (fill mem ⟨dstpp, len⟩ (c.setWidth 8), dstpp) := by
  -- Whatever the words have left, the last loop fills.
  have hlast : ∀ s : Cursor, s.len.toNat < 8 → s.filled c = fill mem ⟨dstpp, len⟩ (c.setWidth 8) →
      (lastBytes c fuel s >>= fun s => some (s.mem, dstpp)) = some (fill mem ⟨dstpp, len⟩ (c.setWidth 8), dstpp) := by
    intro s hs hfilled
    obtain ⟨t, ht, hmem⟩ := lastBytes_filled c s (Nat.lt_of_lt_of_le hs hf)
    rw [ht]
    exact congrArg (fun m => some (m, dstpp)) (hmem.trans hfilled)
  unfold glibcMemset
  by_cases h8 : 8 ≤ len
  · obtain ⟨s, hs, halign⟩ :=
      align_filled c ⟨mem, dstpp, len⟩ (by dsimp only; bv_omega) (Nat.lt_of_lt_of_le (Nat.mod_lt _ (by decide)) hf)
    simp only [if_pos h8, hs, eightWordLoop_eq]
    refine hlast _ (Nat.mod_lt _ (by decide)) ?_
    exact ((loop_filled rfl (by rw [Nat.one_mul])).trans (loop_filled rfl rfl)).trans halign
  · rw [if_neg h8]
    exact hlast ⟨mem, dstpp, len⟩ (by dsimp only; bv_omega) rfl

theorem glibcMemset_fills_sample : glibcMemset 8 (fun _ => 7) 0xfffffffffffffff3 0x130 0xdd =
    some (fill (fun _ => 7) ⟨0xfffffffffffffff3, 0xdd⟩ 0x30, 0xfffffffffffffff3) :=
  glibcMemset_fills (fun _ => 7) 0xfffffffffffffff3 0x130 0xdd (Nat.le_refl 8)

/-! ### The hook -/

theorem clearBytes_fills {preRbp i : Addr} {mem : Mem} {fuel : Nat} (h : i ≤ preRbp - 64)
    (hf : (preRbp - 64 - i).toNat < fuel) :
    clearBytes preRbp fuel i mem = some (fill mem ⟨i, preRbp - 64 - i⟩ 0x30) := by
  induction fuel generalizing i mem with
  | zero => exact absurd hf (Nat.not_lt_zero _)
  | succ fuel ih =>
    unfold clearBytes
    by_cases hlt : i < preRbp - 64
    · have hsub : preRbp - 64 - (i + 1) = preRbp - 64 - i - 1 := sub_add_eq_sub_sub _ _ _
      rw [if_pos hlt, ih (by bv_omega) (by bv_omega), fill_one (by decide), hsub]
      exact congrArg some (fill_split (by bv_omega))
    · have hlen : preRbp - 64 - i = 0 := by bv_omega
      rw [if_neg hlt, hlen, fill_zero]

/-- The hook ends. It has cleared the frame of the function that returns but for 64 bytes at either end, and has
    written nothing else; a frame without room between the two is left as it is. -/
theorem func_exit_fills {fuel : Nat} (rbp : Addr) (mem : Mem) (hf : 2 ^ 64 ≤ fuel) : cygProfileFuncExit fuel rbp mem =
    some (if rbp + 64 ≤ load64 mem rbp - 64 then fill mem ⟨rbp + 64, load64 mem rbp - 64 - (rbp + 64)⟩ 0x30
      else mem) := by
  unfold cygProfileFuncExit
  split
  · next h => exact clearBytes_fills h (by bv_omega)
  · next h =>
    obtain ⟨fuel, rfl⟩ : ∃ k, fuel = k + 1 := ⟨fuel - 1, by omega⟩
    unfold clearBytes
    exact if_neg (by bv_omega)

end StackVault
