import Mathlib.Data.BitVec
import Mathlib.Data.List.Pairwise

/-! Byte memories over machine words. A memory is a function on `w`-bit addresses, a range is the
    addresses that a pointer and a length reach, and the two bulk updates, `fill` and `blit`, act on
    one range. Addresses wrap round at `2 ^ w`; `Range.Fits` says that a range does not. -/

namespace Memory

/-- The `len` addresses from `start` on. -/
structure Range (w : Nat) where
  start : BitVec w
  len : BitVec w
  deriving DecidableEq, Repr

namespace Range
variable {w : Nat} {r s : Range w} {x : BitVec w}

instance : Membership (BitVec w) (Range w) := ⟨fun r x => x - r.start < r.len⟩

theorem mem_def : x ∈ r ↔ x - r.start < r.len := Iff.rfl

instance (x : BitVec w) (r : Range w) : Decidable (x ∈ r) := inferInstanceAs (Decidable (x - r.start < r.len))

/-- The range does not wrap round. -/
def Fits (r : Range w) : Prop := r.start.toNat + r.len.toNat ≤ 2 ^ w

instance (r : Range w) : Decidable r.Fits := inferInstanceAs (Decidable (_ ≤ _))

/-- No address lies in both ranges. -/
def Apart (r s : Range w) : Prop := ∀ x, x ∈ r → x ∉ s

/-- Every address of `r` is one of `s`. -/
def Inside (r s : Range w) : Prop := ∀ x, x ∈ r → x ∈ s

theorem mem_iff (h : r.Fits) : x ∈ r ↔ r.start.toNat ≤ x.toNat ∧ x.toNat < r.start.toNat + r.len.toNat := by
  have hx := x.isLt
  have hs := r.start.isLt
  have hl := r.len.isLt
  unfold Fits at h
  rw [mem_def, BitVec.lt_def]
  by_cases hle : r.start.toNat ≤ x.toNat
  · rw [BitVec.toNat_sub_of_le (BitVec.le_def.mpr hle)]
    omega
  · have hsub : (x - r.start).toNat = 2 ^ w - r.start.toNat + x.toNat := by
      rw [BitVec.toNat_sub, Nat.mod_eq_of_lt (by omega)]
    omega

/-- The addresses from `o` up to `o'`. -/
theorem mem_upto {o o' : BitVec w} (h : o ≤ o') : x ∈ (⟨o, o' - o⟩ : Range w) ↔ o ≤ x ∧ x < o' := by
  have hsub : (o' - o).toNat = o'.toNat - o.toNat := BitVec.toNat_sub_of_le h
  have ho' := o'.isLt
  rw [BitVec.le_def] at h
  rw [mem_iff (by unfold Fits; dsimp only; omega), BitVec.le_def, BitVec.lt_def]
  dsimp only
  omega

theorem offset_mem {k : BitVec w} : r.start + k ∈ r ↔ k < r.len := by
  rw [mem_def, BitVec.add_comm, BitVec.add_sub_cancel]

theorem mem_shift {d : BitVec w} : x ∈ (⟨r.start - d, r.len⟩ : Range w) ↔ x + d ∈ r := by
  have h : x - (r.start - d) = x + d - r.start := by rw [sub_sub_eq_add_sub]
  rw [mem_def, mem_def, h]

theorem not_mem_of_len (h : r.len = 0) : x ∉ r := by
  rw [mem_def, h, BitVec.lt_def]
  simp

theorem start_mem (h : 0 < r.len.toNat) : r.start ∈ r := by
  rw [mem_def, BitVec.sub_self, BitVec.lt_def]
  simpa using h

theorem Apart.symm (h : r.Apart s) : s.Apart r := fun x hs hr => h x hr hs

theorem Apart.shift (h : r.Apart s) (d : BitVec w) : Apart ⟨r.start - d, r.len⟩ ⟨s.start - d, s.len⟩ := fun x hr hs =>
  h (x + d) (mem_shift.mp hr) (mem_shift.mp hs)

instance : Std.Symm (Apart (w := w)) := ⟨fun _ _ h => h.symm⟩

theorem apart_of_le (hr : r.Fits) (hs : s.Fits) (h : r.start.toNat + r.len.toNat ≤ s.start.toNat) : r.Apart s :=
  fun x hxr hxs => by
    rw [mem_iff hr] at hxr
    rw [mem_iff hs] at hxs
    omega

theorem apart_of_le_or_le (hr : r.Fits) (hs : s.Fits)
    (h : r.start.toNat + r.len.toNat ≤ s.start.toNat ∨ s.start.toNat + s.len.toNat ≤ r.start.toNat) : r.Apart s := by
  rcases h with h | h
  · exact apart_of_le hr hs h
  · exact (apart_of_le hs hr h).symm

/-- Of two non-empty ranges that are apart, one ends where the other has not begun. -/
theorem Apart.le_or_le (h : r.Apart s) (hr : r.Fits) (hs : s.Fits) (hr0 : 0 < r.len.toNat) (hs0 : 0 < s.len.toNat) :
    r.start.toNat + r.len.toNat ≤ s.start.toNat ∨ s.start.toNat + s.len.toNat ≤ r.start.toNat := by
  have h1 := h r.start (start_mem hr0)
  have h2 := h.symm s.start (start_mem hs0)
  rw [mem_iff hs] at h1
  rw [mem_iff hr] at h2
  omega

/-- Ranges that do not wrap, one ending where the other has not begun. -/
def Beside (r s : Range w) : Prop :=
  r.Fits ∧ s.Fits ∧ (r.start.toNat + r.len.toNat ≤ s.start.toNat ∨ s.start.toNat + s.len.toNat ≤ r.start.toNat)

instance (r s : Range w) : Decidable (r.Beside s) := inferInstanceAs (Decidable (_ ∧ _ ∧ _))

theorem Beside.apart (h : r.Beside s) : r.Apart s := apart_of_le_or_le h.1 h.2.1 h.2.2

theorem inside_of_le (hr : r.Fits) (hs : s.Fits) (h1 : s.start.toNat ≤ r.start.toNat)
    (h2 : r.start.toNat + r.len.toNat ≤ s.start.toNat + s.len.toNat) : r.Inside s := fun x hx => by
  rw [mem_iff hr] at hx
  rw [mem_iff hs]
  omega

/-- A part of a range. -/
theorem mem_of_part {a k n l : BitVec w} (h : k.toNat + n.toNat ≤ l.toNat) (hx : x ∈ (⟨a + k, n⟩ : Range w)) :
    x ∈ (⟨a, l⟩ : Range w) := by
  rw [mem_def, BitVec.lt_def] at hx ⊢
  have hoff : x - a = x - (a + k) + k := by rw [sub_add_eq_sub_sub, sub_add_cancel]
  have hl := l.isLt
  dsimp only at hx ⊢
  rw [hoff, BitVec.toNat_add, Nat.mod_eq_of_lt (by omega)]
  omega

end Range

section Update
variable {w : Nat} {β : Type*}

/-- Every address of `r` holds `b`. -/
def fill (m : BitVec w → β) (r : Range w) (b : β) : BitVec w → β := fun x => if x ∈ r then b else m x

/-- Address `r.start + k` holds `src k`, for each offset `k` of `r`. -/
def blit (m : BitVec w → β) (r : Range w) (src : BitVec w → β) : BitVec w → β :=
  fun x => if x ∈ r then src (x - r.start) else m x

variable {m : BitVec w → β} {r : Range w} {b : β} {src : BitVec w → β} {x : BitVec w}

theorem fill_of_mem (h : x ∈ r) : fill m r b x = b := if_pos h

theorem fill_of_not_mem (h : x ∉ r) : fill m r b x = m x := if_neg h

theorem blit_of_mem (h : x ∈ r) : blit m r src x = src (x - r.start) := if_pos h

theorem blit_of_not_mem (h : x ∉ r) : blit m r src x = m x := if_neg h

/-- Copying a range's own bytes over it changes nothing else and puts those bytes there. -/
theorem blit_apply {m₀ : BitVec w → β} (h : ∀ k, k < r.len → src k = m₀ (r.start + k)) :
    blit m r src x = if x ∈ r then m₀ x else m x := by
  by_cases hx : x ∈ r
  · rw [blit_of_mem hx, if_pos hx, h _ hx, BitVec.add_comm, BitVec.sub_add_cancel]
  · rw [blit_of_not_mem hx, if_neg hx]

end Update

/-! ### Lists of ranges -/

section Lists
variable {w : Nat} {rs : List (Range w)} {x : BitVec w}

/-- Some range of the list has the address. -/
def Covers (rs : List (Range w)) (x : BitVec w) : Prop := ∃ r ∈ rs, x ∈ r

instance (rs : List (Range w)) (x : BitVec w) : Decidable (Covers rs x) :=
  inferInstanceAs (Decidable (∃ r ∈ rs, x ∈ r))

@[simp] theorem covers_nil : ¬Covers ([] : List (Range w)) x := fun ⟨_, h, _⟩ => by cases h

@[simp] theorem covers_cons {r : Range w} : Covers (r :: rs) x ↔ x ∈ r ∨ Covers rs x := by
  simp [Covers]

@[simp] theorem covers_append {ss : List (Range w)} : Covers (rs ++ ss) x ↔ Covers rs x ∨ Covers ss x := by
  simp [Covers, or_and_right, exists_or]

theorem covers_map {α : Type*} {f : α → Range w} {as : List α} : Covers (as.map f) x ↔ ∃ a ∈ as, x ∈ f a := by
  simp [Covers]

theorem Covers.mono {ss : List (Range w)} (hsub : rs ⊆ ss) (hx : Covers rs x) : Covers ss x := by
  obtain ⟨r, hr, hxr⟩ := hx
  exact ⟨r, hsub hr, hxr⟩

theorem not_covers_of_beside {ss : List (Range w)} (h : ∀ r ∈ rs, ∀ s ∈ ss, r.Beside s) (hx : Covers rs x) :
    ¬Covers ss x := by
  obtain ⟨r, hr, hxr⟩ := hx
  rintro ⟨s, hs, hxs⟩
  exact (h r hr s hs).apart x hxr hxs

end Lists

/-! ### Ranges in order -/

section Ordered
variable {w : Nat}

/-- The ranges follow one another from `o` on and stay within `len`. -/
def Ordered (len : Nat) : Nat → List (Range w) → Prop
  | o, [] => o ≤ len
  | o, r :: rs => o ≤ r.start.toNat ∧ Ordered len (r.start.toNat + r.len.toNat) rs

theorem Ordered.le {len : Nat} : ∀ {rs : List (Range w)} {o : Nat}, Ordered len o rs → o ≤ len
  | [], _, h => h
  | _ :: _, _, h => le_trans h.1 (le_trans (Nat.le_add_right _ _) h.2.le)

theorem Ordered.bounds {len : Nat} : ∀ {rs : List (Range w)} {o : Nat}, Ordered len o rs →
    ∀ r ∈ rs, o ≤ r.start.toNat ∧ r.start.toNat + r.len.toNat ≤ len
  | [], _, _, _, h => by cases h
  | s :: rs, o, h, r, hr => by
    rcases List.mem_cons.mp hr with rfl | hr
    · exact ⟨h.1, h.2.le⟩
    · obtain ⟨h1, h2⟩ := Ordered.bounds h.2 r hr
      exact ⟨le_trans h.1 (le_trans (Nat.le_add_right _ _) h1), h2⟩

theorem Ordered.ascending {len : Nat} : ∀ {rs : List (Range w)} {o : Nat}, Ordered len o rs →
    rs.Pairwise fun r s => r.start ≤ s.start
  | [], _, _ => List.Pairwise.nil
  | r :: rs, o, h => by
    refine List.pairwise_cons.mpr ⟨fun s hs => ?_, h.2.ascending⟩
    obtain ⟨hle, -⟩ := h.2.bounds s hs
    exact BitVec.le_def.mpr (le_trans (Nat.le_add_right _ _) hle)

theorem Ordered.apart {len : Nat} (hlen : len ≤ 2 ^ w) : ∀ {rs : List (Range w)} {o : Nat}, Ordered len o rs →
    rs.Pairwise Range.Apart
  | [], _, _ => List.Pairwise.nil
  | r :: rs, o, h => by
    refine List.pairwise_cons.mpr ⟨fun s hs => ?_, h.2.apart hlen⟩
    obtain ⟨hlo, hup⟩ := h.2.bounds s hs
    exact Range.apart_of_le (h.2.le.trans hlen) (hup.trans hlen) hlo

/-- Non-empty ranges that are apart and begin one after another are in order. -/
theorem ordered_of_ascending {len : Nat} : ∀ {rs : List (Range w)} {o : Nat}, o ≤ len →
    rs.Pairwise (fun r s => r.start ≤ s.start) → rs.Pairwise Range.Apart → (∀ r ∈ rs, r.Fits ∧ 0 < r.len.toNat) →
    (∀ r ∈ rs, o ≤ r.start.toNat ∧ r.start.toNat + r.len.toNat ≤ len) → Ordered len o rs
  | [], _, ho, _, _, _, _ => ho
  | r :: rs, o, ho, hasc, hap, hfit, hin => by
    obtain ⟨hle, hasc⟩ := List.pairwise_cons.mp hasc
    obtain ⟨hapart, hap⟩ := List.pairwise_cons.mp hap
    obtain ⟨hr, hr0⟩ := hfit r List.mem_cons_self
    obtain ⟨h1, h2⟩ := hin r List.mem_cons_self
    refine ⟨h1, ordered_of_ascending h2 hasc hap (fun s hs => hfit s (List.mem_cons_of_mem _ hs)) fun s hs => ?_⟩
    obtain ⟨hs', hs0⟩ := hfit s (List.mem_cons_of_mem _ hs)
    have hstart := hle s hs
    rw [BitVec.le_def] at hstart
    refine ⟨?_, (hin s (List.mem_cons_of_mem _ hs)).2⟩
    rcases (hapart s hs).le_or_le hr hs' hr0 hs0 with hlt | hlt <;> omega

end Ordered

/-! ### Eight-byte words -/

section Load
variable {w : Nat} {m m' : BitVec w → BitVec 8} {a : BitVec w}

/-- The little-endian eight-byte word at `a`. -/
def load64 (m : BitVec w → BitVec 8) (a : BitVec w) : BitVec 64 :=
  m (a + 7) ++ m (a + 6) ++ m (a + 5) ++ m (a + 4) ++ m (a + 3) ++ m (a + 2) ++ m (a + 1) ++ m a

theorem load64_congr (hw : 4 ≤ w) (h : ∀ x ∈ (⟨a, 8⟩ : Range w), m x = m' x) : load64 m a = load64 m' a := by
  have hpow : 2 ^ 4 ≤ 2 ^ w := Nat.pow_le_pow_right (by decide) hw
  have at_ : ∀ k : Nat, k < 8 → m (a + BitVec.ofNat w k) = m' (a + BitVec.ofNat w k) := fun k hk => by
    refine h _ (Range.offset_mem.mpr (BitVec.lt_def.mpr ?_))
    show (BitVec.ofNat w k).toNat < (BitVec.ofNat w 8).toNat
    rw [BitVec.toNat_ofNat, BitVec.toNat_ofNat, Nat.mod_eq_of_lt (by omega), Nat.mod_eq_of_lt (by omega)]
    exact hk
  have h0 : m a = m' a := by simpa using at_ 0 (by decide)
  unfold load64
  rw [h0, show m (a + 1) = m' (a + 1) from at_ 1 (by decide), show m (a + 2) = m' (a + 2) from at_ 2 (by decide),
    show m (a + 3) = m' (a + 3) from at_ 3 (by decide), show m (a + 4) = m' (a + 4) from at_ 4 (by decide),
    show m (a + 5) = m' (a + 5) from at_ 5 (by decide), show m (a + 6) = m' (a + 6) from at_ 6 (by decide),
    show m (a + 7) = m' (a + 7) from at_ 7 (by decide)]

/-- Byte `k` of a little-endian word. -/
def byteAt (v : BitVec 64) (k : Nat) : BitVec 8 := v.extractLsb' (8 * k) 8

/-- The little-endian eight-byte word `v` put at `a`. -/
def store64 (m : BitVec w → BitVec 8) (a : BitVec w) (v : BitVec 64) : BitVec w → BitVec 8 :=
  blit m ⟨a, 8⟩ fun k => byteAt v k.toNat

theorem byteAt_xor {u v : BitVec 64} {k : Nat} : byteAt (u ^^^ v) k = byteAt u k ^^^ byteAt v k := by
  ext i hi
  simp [byteAt]

theorem byteAt_load64 {k : Nat} (hk : k < 8) : byteAt (load64 m a) k = m (a + BitVec.ofNat w k) := by
  rcases (by omega : k = 0 ∨ k = 1 ∨ k = 2 ∨ k = 3 ∨ k = 4 ∨ k = 5 ∨ k = 6 ∨ k = 7) with
    rfl | rfl | rfl | rfl | rfl | rfl | rfl | rfl <;>
  · unfold byteAt load64
    ext i hi
    simp only [BitVec.getElem_extractLsb', BitVec.getLsbD_append]
    grind

theorem eq_of_byteAt {u v : BitVec 64} (h : ∀ k < 8, byteAt u k = byteAt v k) : u = v := by
  ext i hi
  have hbyte := congrArg (fun b => b.getLsbD (i % 8)) (h (i / 8) (by omega))
  simpa [byteAt, Nat.mod_lt, Nat.div_add_mod, hi] using hbyte

theorem load64_store64 {v : BitVec 64} (hw : 4 ≤ w) : load64 (store64 m a v) a = v := by
  have hpow : 2 ^ 4 ≤ 2 ^ w := Nat.pow_le_pow_right (by decide) hw
  refine eq_of_byteAt fun k hk => ?_
  have hmod : (BitVec.ofNat w k).toNat = k := by
    rw [BitVec.toNat_ofNat]
    exact Nat.mod_eq_of_lt (by omega)
  have height : (BitVec.ofNat w 8).toNat = 8 := by
    rw [BitVec.toNat_ofNat]
    exact Nat.mod_eq_of_lt (by omega)
  have hmem : a + BitVec.ofNat w k ∈ (⟨a, 8⟩ : Range w) := Range.offset_mem.mpr (BitVec.lt_def.mpr (by
    rw [hmod]
    exact height.symm ▸ hk))
  rw [byteAt_load64 hk, store64, blit_of_mem hmem]
  dsimp only
  rw [BitVec.add_comm, BitVec.add_sub_cancel, hmod]

end Load

/-! ### Four-byte words -/

section Load32
variable {w : Nat} {m m' : BitVec w → BitVec 8} {a : BitVec w}

/-- The little-endian four-byte word at `a`. -/
def load32 (m : BitVec w → BitVec 8) (a : BitVec w) : BitVec 32 := m (a + 3) ++ m (a + 2) ++ m (a + 1) ++ m a

/-- The little-endian four-byte word `v` put at `a`. -/
def store32 (m : BitVec w → BitVec 8) (a : BitVec w) (v : BitVec 32) : BitVec w → BitVec 8 :=
  blit m ⟨a, 4⟩ fun k => v.extractLsb' (8 * k.toNat) 8

theorem load32_congr (hw : 3 ≤ w) (h : ∀ x ∈ (⟨a, 4⟩ : Range w), m x = m' x) : load32 m a = load32 m' a := by
  have hpow : 2 ^ 3 ≤ 2 ^ w := Nat.pow_le_pow_right (by decide) hw
  have at_ : ∀ k : Nat, k < 4 → m (a + BitVec.ofNat w k) = m' (a + BitVec.ofNat w k) := fun k hk => by
    refine h _ (Range.offset_mem.mpr (BitVec.lt_def.mpr ?_))
    show (BitVec.ofNat w k).toNat < (BitVec.ofNat w 4).toNat
    rw [BitVec.toNat_ofNat, BitVec.toNat_ofNat, Nat.mod_eq_of_lt (by omega), Nat.mod_eq_of_lt (by omega)]
    exact hk
  have h0 : m a = m' a := by simpa using at_ 0 (by decide)
  unfold load32
  rw [h0, show m (a + 1) = m' (a + 1) from at_ 1 (by decide), show m (a + 2) = m' (a + 2) from at_ 2 (by decide),
    show m (a + 3) = m' (a + 3) from at_ 3 (by decide)]

theorem extract_load32 {k : Nat} (hk : k < 4) : (load32 m a).extractLsb' (8 * k) 8 = m (a + BitVec.ofNat w k) := by
  rcases (by omega : k = 0 ∨ k = 1 ∨ k = 2 ∨ k = 3) with rfl | rfl | rfl | rfl <;>
  · unfold load32
    ext i hi
    simp only [BitVec.getElem_extractLsb', BitVec.getLsbD_append]
    grind

theorem eq_of_extract {u v : BitVec 32} (h : ∀ k < 4, u.extractLsb' (8 * k) 8 = v.extractLsb' (8 * k) 8) : u = v := by
  ext i hi
  have hbyte := congrArg (fun b => b.getLsbD (i % 8)) (h (i / 8) (by omega))
  simpa [Nat.mod_lt, Nat.div_add_mod, hi] using hbyte

theorem load32_store32 {v : BitVec 32} (hw : 3 ≤ w) : load32 (store32 m a v) a = v := by
  have hpow : 2 ^ 3 ≤ 2 ^ w := Nat.pow_le_pow_right (by decide) hw
  refine eq_of_extract fun k hk => ?_
  have hmod : (BitVec.ofNat w k).toNat = k := by
    rw [BitVec.toNat_ofNat]
    exact Nat.mod_eq_of_lt (by omega)
  have hfour : (BitVec.ofNat w 4).toNat = 4 := by
    rw [BitVec.toNat_ofNat]
    exact Nat.mod_eq_of_lt (by omega)
  have hmem : a + BitVec.ofNat w k ∈ (⟨a, 4⟩ : Range w) := Range.offset_mem.mpr (BitVec.lt_def.mpr (by
    rw [hmod]
    exact hfour.symm ▸ hk))
  rw [extract_load32 hk, store32, blit_of_mem hmem]
  dsimp only
  rw [BitVec.add_comm, BitVec.add_sub_cancel, hmod]

theorem store32_of_not_mem {v : BitVec 32} {x : BitVec w} (h : x ∉ (⟨a, 4⟩ : Range w)) : store32 m a v x = m x :=
  blit_of_not_mem h

theorem store64_of_not_mem {v : BitVec 64} {x : BitVec w} (h : x ∉ (⟨a, 8⟩ : Range w)) : store64 m a v x = m x :=
  blit_of_not_mem h

end Load32

/-! ### Filling in pieces -/

section Fill
variable {w : Nat} {β : Type*} {m : BitVec w → β} {a k n : BitVec w} {b : β}

@[simp] theorem fill_zero : fill m ⟨a, 0⟩ b = m := funext fun _ => fill_of_not_mem (Range.not_mem_of_len rfl)

/-- A range is its first `k` addresses and the rest. -/
theorem mem_split {x : BitVec w} (h : k ≤ n) :
    x ∈ (⟨a, n⟩ : Range w) ↔ x ∈ (⟨a, k⟩ : Range w) ∨ x ∈ (⟨a + k, n - k⟩ : Range w) := by
  have hsub : (n - k).toNat = n.toNat - k.toNat := BitVec.toNat_sub_of_le h
  have hx : x - (a + k) = x - a - k := sub_add_eq_sub_sub x a k
  rw [BitVec.le_def] at h
  rw [Range.mem_def, Range.mem_def, Range.mem_def]
  dsimp only
  rw [hx, BitVec.lt_def, BitVec.lt_def, BitVec.lt_def, hsub]
  by_cases hk : k.toNat ≤ (x - a).toNat
  · have hxk : (x - a - k).toNat = (x - a).toNat - k.toNat := BitVec.toNat_sub_of_le (BitVec.le_def.mpr hk)
    omega
  · have hlt := k.isLt
    omega

/-- To fill a range is to fill its first `k` addresses and then the rest. -/
theorem fill_split (h : k ≤ n) : fill (fill m ⟨a, k⟩ b) ⟨a + k, n - k⟩ b = fill m ⟨a, n⟩ b := by
  funext x
  unfold fill
  by_cases h1 : x ∈ (⟨a, k⟩ : Range w) <;> by_cases h2 : x ∈ (⟨a + k, n - k⟩ : Range w) <;> simp [mem_split h, h1, h2]

theorem fill_one (hw : 1 ≤ w) : (fun x => if x = a then b else m x) = fill m ⟨a, 1⟩ b := by
  funext x
  have hone : (1 : BitVec w).toNat = 1 := BitVec.toNat_one (by omega)
  have hmem : x ∈ (⟨a, 1⟩ : Range w) ↔ x = a := by
    rw [Range.mem_def, BitVec.lt_def, hone, Nat.lt_one_iff]
    constructor
    · intro h
      exact sub_eq_zero.mp (BitVec.eq_of_toNat_eq (h.trans BitVec.toNat_zero.symm))
    · rintro rfl
      rw [BitVec.sub_self, BitVec.toNat_zero]
  simp only [fill, hmem]

/-- A word whose bytes are all `b` fills eight addresses with `b`. -/
theorem store64_fill {m : BitVec w → BitVec 8} {v : BitVec 64} {b : BitVec 8} (hw : 4 ≤ w)
    (h : ∀ k < 8, byteAt v k = b) :
    store64 m a v = fill m ⟨a, 8⟩ b := by
  have hpow : 2 ^ 4 ≤ 2 ^ w := Nat.pow_le_pow_right (by decide) hw
  have height : (BitVec.ofNat w 8).toNat = 8 := by
    rw [BitVec.toNat_ofNat]
    exact Nat.mod_eq_of_lt (by omega)
  funext x
  unfold store64
  by_cases hx : x ∈ (⟨a, 8⟩ : Range w)
  · rw [blit_of_mem hx, fill_of_mem hx]
    exact h _ (height ▸ BitVec.lt_def.mp hx)
  · rw [blit_of_not_mem hx, fill_of_not_mem hx]

end Fill

end Memory
