import StackVault.Theorems.Restoring
import StackVault.Theorems.Trace

/-! Two places where machine arithmetic decides what is given back. `find_in_stack_buf` adds two words
    that the user chooses before it compares the sum, and counts the segments with an `int`; `cmp` cuts the
    difference of two addresses to an `int`. The answers are right as long as the sum does not wrap and the
    range is among the first `2 ^ 31` segments, and as long as the cut difference keeps its sign. -/

namespace StackVault
open Memory

/-! ### The look-up -/

/-- The test of the look-up, in machine arithmetic. -/
def StackBuf.Admits (e : StackBuf) (addr len : Addr) : Prop := e.start ≤ addr ∧ addr + len ≤ e.start + e.len

instance (e : StackBuf) (addr len : Addr) : Decidable (e.Admits addr len) := inferInstanceAs (Decidable (_ ∧ _))

/-- The segment contains the range `[addr, addr + len)`. -/
def StackBuf.Contains (e : StackBuf) (addr len : Addr) : Prop :=
  e.start.toNat ≤ addr.toNat ∧ addr.toNat + len.toNat ≤ e.start.toNat + e.len.toNat

/-- A saved segment: neither its user range nor its copy wraps, and its copy is not at the null pointer. -/
structure StackBuf.Plain (e : StackBuf) : Prop where
  range : e.start.toNat + e.len.toNat < 2 ^ 64
  copy : e.buf.toNat + e.len.toNat < 2 ^ 64
  buf : e.buf ≠ 0

/-- What the callers trust: an address that is found starts `len` bytes inside the copy of a segment, at the
    place of `addr`, and a null pointer says that no segment contains the range. -/
def FindsSource (segs : List StackBuf) (addr len : Addr) : Prop :=
  (findInStackBuf addr len segs ≠ 0 → ∃ e ∈ segs, findInStackBuf addr len segs = e.buf + (addr - e.start) ∧
    e.Holds (findInStackBuf addr len segs) len) ∧
  (findInStackBuf addr len segs = 0 → ∀ e ∈ segs, ¬e.Contains addr len)

section Lookup
variable {segs : List StackBuf} {e : StackBuf} {addr len : Addr}

theorem findInSegs_eq_find? : findInSegs addr len segs =
    ((segs.find? fun e => e.Admits addr len).map fun e => e.buf + (addr - e.start)).getD 0 := by
  induction segs with
  | nil => rfl
  | cons e segs ih =>
    rw [findInSegs, List.find?_cons]
    by_cases he : e.start ≤ addr ∧ addr + len ≤ e.start + e.len
    · have hadm : e.Admits addr len := he
      rw [if_pos he, decide_eq_true hadm]
      rfl
    · have hadm : ¬e.Admits addr len := he
      rw [if_neg he, decide_eq_false hadm]
      exact ih

theorem find_eq_find? : findInStackBuf addr len segs =
    (((reached segs).find? fun e => e.Admits addr len).map fun e => e.buf + (addr - e.start)).getD 0 :=
  findInSegs_eq_find?

namespace StackBuf.Plain

theorem end_toNat (h : e.Plain) : (e.start + e.len).toNat = e.start.toNat + e.len.toNat := by
  rw [BitVec.toNat_add, Nat.mod_eq_of_lt h.range]

theorem admits_iff (h : e.Plain) (hsum : addr.toNat + len.toNat < 2 ^ 64) :
    e.Admits addr len ↔ e.Contains addr len := by
  rw [Admits, Contains, BitVec.le_def, BitVec.le_def, h.end_toNat, BitVec.toNat_add, Nat.mod_eq_of_lt hsum]

/-- The place of `addr` in the copy of a segment that contains the range. -/
theorem place (h : e.Plain) (hin : e.Contains addr len) :
    (e.buf + (addr - e.start)).toNat = e.buf.toNat + (addr.toNat - e.start.toNat) := by
  obtain ⟨hlo, hup⟩ := hin
  have hcopy := h.copy
  rw [BitVec.toNat_add, BitVec.toNat_sub_of_le (BitVec.le_def.mpr hlo), Nat.mod_eq_of_lt (by omega)]

/-- Where the copy holds `len` bytes at the place of `addr`, the segment contains the range. -/
theorem contains_of_holds (h : e.Plain) (hh : e.Holds (e.buf + (addr - e.start)) len) : e.Contains addr len := by
  obtain ⟨hlo, hup⟩ := hh
  have hr := h.range
  have hc := h.copy
  have ha := addr.isLt
  have hs := e.start.isLt
  simp only [BitVec.toNat_add, BitVec.toNat_sub] at hlo hup
  unfold Contains
  omega

theorem buf_pos (h : e.Plain) : 0 < e.buf.toNat :=
  Nat.pos_of_ne_zero fun h0 => h.buf (BitVec.eq_of_toNat_eq h0)

theorem place_ne_zero (h : e.Plain) (hin : e.Contains addr len) : e.buf + (addr - e.start) ≠ 0 := by
  intro h0
  have hplace := h.place hin
  have hpos := h.buf_pos
  rw [h0] at hplace
  simp only [BitVec.ofNat_eq_ofNat, BitVec.toNat_zero] at hplace
  omega

theorem holds_of_contains (h : e.Plain) (hin : e.Contains addr len) : e.Holds (e.buf + (addr - e.start)) len := by
  have hplace := h.place hin
  obtain ⟨hlo, hup⟩ := hin
  unfold Holds
  omega

end StackBuf.Plain

/-- Without a wrap the test is the containment, and the answer is right where the range is not in a segment
    that the index does not come to. -/
theorem finds_source_of_sum (hsegs : ∀ e ∈ segs, e.Plain) (hsum : addr.toNat + len.toNat < 2 ^ 64) :
    FindsSource segs addr len ↔
      ((∃ e ∈ segs, e.Contains addr len) → ∃ e ∈ reached segs, e.Contains addr len) := by
  rw [FindsSource, find_eq_find?]
  cases hfind : (reached segs).find? fun e => e.Admits addr len with
  | none =>
    have hfirst : ¬∃ e ∈ reached segs, e.Contains addr len := by
      rintro ⟨e, he, hin⟩
      have hnot := List.find?_eq_none.mp hfind e he
      exact hnot (decide_eq_true (((hsegs e (mem_of_reached he)).admits_iff hsum).mpr hin))
    constructor
    · rintro ⟨-, hout⟩ ⟨e, he, hin⟩
      exact absurd hin (hout rfl e he)
    · intro h
      exact ⟨fun h0 => absurd rfl h0, fun _ e he hin => hfirst (h ⟨e, he, hin⟩)⟩
  | some e =>
    have he := List.mem_of_find?_eq_some hfind
    have he' := mem_of_reached he
    have hadm : e.Admits addr len := by simpa using List.find?_some hfind
    have hin := ((hsegs e he').admits_iff hsum).mp hadm
    simp only [Option.map_some, Option.getD_some]
    refine iff_of_true ⟨fun _ => ⟨e, he', rfl, (hsegs e he').holds_of_contains hin⟩, ?_⟩ fun _ => ⟨e, he, hin⟩
    exact fun h0 => absurd h0 ((hsegs e he').place_ne_zero hin)

/-- When the sum wraps no segment contains the range, so only a null pointer is right. -/
theorem finds_source_of_wrap (hsegs : ∀ e ∈ segs, e.Plain) (hsum : 2 ^ 64 ≤ addr.toNat + len.toNat) :
    FindsSource segs addr len ↔ findInStackBuf addr len segs = 0 := by
  have hout : ∀ e ∈ segs, ¬e.Contains addr len := fun e he hin => by
    have hr := (hsegs e he).range
    have hup := hin.2
    omega
  constructor
  · rintro ⟨hfound, -⟩
    by_contra h0
    obtain ⟨e, he, hp, hh⟩ := hfound h0
    rw [hp] at hh
    exact hout e he ((hsegs e he).contains_of_holds hh)
  · intro h0
    exact ⟨fun h => absurd h0 h, fun _ => hout⟩

/-- A segment that is admitted has a null place only when the place wraps to it. -/
theorem place_eq_zero_iff (h : e.Plain) (hlo : e.start ≤ addr) :
    e.buf + (addr - e.start) = 0 ↔ addr.toNat + e.buf.toNat = e.start.toNat + 2 ^ 64 := by
  have hpos := h.buf_pos
  have hb := e.buf.isLt
  have ha := addr.isLt
  have hsub := BitVec.toNat_sub_of_le hlo
  rw [BitVec.le_def] at hlo
  rw [← BitVec.toNat_inj, BitVec.toNat_add, hsub]
  simp only [BitVec.ofNat_eq_ofNat, BitVec.toNat_zero]
  omega

end Lookup

/-- The answer is right exactly when one of the first `2 ^ 31` segments contains the range if any does, and,
    where the end of the range wraps, none of them passes the test (or the first that does has its place
    wrap to the null pointer). -/
theorem finds_source_iff {segs : List StackBuf} {addr len : Addr} (hsegs : ∀ e ∈ segs, e.Plain) :
    FindsSource segs addr len ↔
      ((∃ e ∈ segs, e.Contains addr len) → ∃ e ∈ reached segs, e.Contains addr len) ∧
      (2 ^ 64 ≤ addr.toNat + len.toNat → ∀ e, (reached segs).find? (fun e => e.Admits addr len) = some e →
        addr.toNat + e.buf.toNat = e.start.toNat + 2 ^ 64) := by
  by_cases hsum : addr.toNat + len.toNat < 2 ^ 64
  · rw [finds_source_of_sum hsegs hsum]
    exact ⟨fun h => ⟨h, fun hwrap => absurd hsum (Nat.not_lt_of_le hwrap)⟩, And.left⟩
  · have hwrap := Nat.le_of_not_lt hsum
    have hout : ¬∃ e ∈ segs, e.Contains addr len := by
      rintro ⟨e, he, hin⟩
      have hr := (hsegs e he).range
      have hup := hin.2
      omega
    have hzero : findInStackBuf addr len segs = 0 ↔
        ∀ e, (reached segs).find? (fun e => e.Admits addr len) = some e →
          addr.toNat + e.buf.toNat = e.start.toNat + 2 ^ 64 := by
      rw [find_eq_find?]
      cases hfind : (reached segs).find? fun e => e.Admits addr len with
      | none => simp
      | some e =>
        have he := mem_of_reached (List.mem_of_find?_eq_some hfind)
        have hadm : e.Admits addr len := by simpa using List.find?_some hfind
        simp only [Option.map_some, Option.getD_some, Option.some.injEq, forall_eq']
        exact place_eq_zero_iff (hsegs e he) hadm.1
    rw [finds_source_of_wrap hsegs hwrap, hzero]
    exact ⟨fun h => ⟨fun hin => absurd hin hout, fun _ => h⟩, fun h => h.2 hwrap⟩

/-- A segment whose copy is a page, found for a cell inside it. -/
theorem finds_source_iff_page :
    FindsSource [⟨0xffff880000000000, fun _ => 0, 0x1000, 0x100, ⟨(0, 0), []⟩⟩] 0x1010 8 := by
  refine (finds_source_iff fun e he => ?_).mpr ⟨fun h => ?_, fun h => absurd h (by decide)⟩
  · rcases List.mem_singleton.mp he with rfl
    exact ⟨by decide, by decide, by decide⟩
  · rwa [reached_eq (by decide)]

/-- From the end of the frame on, a length of almost `2 ^ 64` wraps back into the segment. -/
theorem finds_source_wrapped :
    ¬FindsSource [⟨0xffff880000000000, fun _ => 0, 0x1000, 0x100, ⟨(0, 0), []⟩⟩] 0x1010 0xffffffffffffffff := by
  rintro ⟨hfound, -⟩
  obtain ⟨e, he, -, hh⟩ := hfound (by decide)
  rcases List.mem_singleton.mp he with rfl
  exact absurd hh (by decide)

/-! ### The comparator -/

/-- What the walk of `restore_stack_buf` needs: the comparator has the sign of the order of the addresses, for
    every pair of holes, and the sorted list is ascending. -/
def SortsByAddress (env : Env) (hs : List Hole) : Prop :=
  (∀ a ∈ hs, ∀ b ∈ hs, (cmp a b < 0 ↔ a.start < b.start) ∧ (cmp a b = 0 ↔ a.start = b.start)) ∧
  (env.listSort cmp hs).Pairwise fun a b => a.start ≤ b.start

/-- How far `b` lies in front of `a`. -/
def Hole.distance (a b : Hole) : Nat := a.start.toNat - b.start.toNat

section Comparator
variable {a b : Hole} {env : Env} {hs : List Hole}

/-- The comparator reads the low 32 bits of the distance only. -/
theorem cmp_of_lt (h : b.start < a.start) : cmp a b = (a.distance b : Int).bmod (2 ^ 32) := by
  have hsub := BitVec.toNat_sub_of_le (BitVec.le_of_lt h)
  rw [cmp, BitVec.toInt_setWidth, hsub]
  rfl

theorem cmp_of_gt (h : a.start < b.start) : cmp a b = (-(b.distance a : Int)).bmod (2 ^ 32) := by
  have hb := b.start.isLt
  rw [cmp, BitVec.toInt_setWidth, BitVec.toNat_sub, Int.bmod_def, Int.bmod_def, Hole.distance]
  rw [BitVec.lt_def] at h
  omega

theorem cmp_of_eq (h : a.start = b.start) : cmp a b = 0 := by
  rw [cmp, h, BitVec.sub_self]
  rfl

/-- The cut distance keeps its sign, in both orders, exactly when it is positive as an `int`. -/
theorem cmp_signs_iff (h : b.start < a.start) :
    (0 < cmp a b ∧ cmp b a < 0) ↔ 0 < a.distance b % 2 ^ 32 ∧ a.distance b % 2 ^ 32 < 2 ^ 31 := by
  rw [cmp_of_lt h, cmp_of_gt h, Int.bmod_def, Int.bmod_def]
  omega

theorem cmp_sign_of_lt (h : a.start < b.start) (hd : 0 < b.distance a % 2 ^ 32 ∧ b.distance a % 2 ^ 32 < 2 ^ 31) :
    cmp a b < 0 :=
  ((cmp_signs_iff h).mpr hd).2

/-- On holes whose distances keep their sign the comparator is the order of the addresses. -/
theorem cmp_sign
    (hd : ∀ a ∈ hs, ∀ b ∈ hs, b.start < a.start → 0 < a.distance b % 2 ^ 32 ∧ a.distance b % 2 ^ 32 < 2 ^ 31)
    (ha : a ∈ hs) (hb : b ∈ hs) : (cmp a b < 0 ↔ a.start < b.start) ∧ (cmp a b = 0 ↔ a.start = b.start) := by
  rcases Nat.lt_trichotomy a.start.toNat b.start.toNat with hlt | heq | hgt
  · have hneg := cmp_sign_of_lt hlt (hd b hb a ha hlt)
    have hne : a.start ≠ b.start := fun h => hlt.ne (congrArg BitVec.toNat h)
    exact ⟨iff_of_true hneg hlt, iff_of_false hneg.ne hne⟩
  · have heq := BitVec.eq_of_toNat_eq heq
    have hzero := cmp_of_eq heq
    rw [heq]
    exact ⟨iff_of_false (by omega) (BitVec.lt_irrefl _), iff_of_true hzero rfl⟩
  · have hpos := ((cmp_signs_iff hgt).mpr (hd a ha b hb hgt)).1
    have hne : a.start ≠ b.start := fun h => hgt.ne' (congrArg BitVec.toNat h)
    exact ⟨iff_of_false (by omega) (BitVec.not_lt.mpr (Nat.le_of_lt hgt)), iff_of_false (by omega) hne⟩

/-- A comparator with the sign of the order is consistent, so the list comes out ascending. -/
theorem Env.SortOk.ascending_of_sign (hsort : env.SortOk)
    (h : ∀ a ∈ hs, ∀ b ∈ hs, (cmp a b < 0 ↔ a.start < b.start) ∧ (cmp a b = 0 ↔ a.start = b.start)) :
    (env.listSort cmp hs).Pairwise fun a b => a.start ≤ b.start := by
  have hle : ∀ a ∈ hs, ∀ b ∈ hs, cmp a b ≤ 0 ↔ a.start ≤ b.start := fun a ha b hb => by
    rw [le_iff_lt_or_eq, (h a ha b hb).1, (h a ha b hb).2, BitVec.le_def, le_iff_lt_or_eq, BitVec.toNat_inj]
    rfl
  have hsorted := hsort.sorted cmp hs
    (fun a ha b hb => by rw [hle a ha b hb, hle b hb a ha]; exact BitVec.le_total _ _)
    (fun a ha b hb d hd => by rw [hle a ha b hb, hle b hb d hd, hle a ha d hd]; exact BitVec.le_trans)
  refine hsorted.imp_of_mem fun {a b} ha hb hab => ?_
  exact (hle a ((hsort.perm cmp hs).mem_iff.mp ha) b ((hsort.perm cmp hs).mem_iff.mp hb)).mp hab

end Comparator

/-- The holes are ordered by address exactly when any two of different address are apart by a distance whose
    low 32 bits are a positive `int`. -/
theorem sorts_by_address_iff {env : Env} {hs : List Hole} (hsort : env.SortOk) : SortsByAddress env hs ↔
    ∀ a ∈ hs, ∀ b ∈ hs, b.start < a.start → 0 < a.distance b % 2 ^ 32 ∧ a.distance b % 2 ^ 32 < 2 ^ 31 := by
  constructor
  · rintro ⟨hsign, -⟩ a ha b hb hlt
    obtain ⟨hneg, hzero⟩ := hsign a ha b hb
    have hpos : 0 < cmp a b := by
      rcases lt_trichotomy (cmp a b) 0 with h | h | h
      · exact absurd (hneg.mp h) (BitVec.not_lt.mpr (BitVec.le_of_lt hlt))
      · exact absurd (congrArg BitVec.toNat (hzero.mp h)) (Nat.ne_of_gt hlt)
      · exact h
    exact (cmp_signs_iff hlt).mp ⟨hpos, (hsign b hb a ha).1.mpr hlt⟩
  · intro hd
    have hsign : ∀ a ∈ hs, ∀ b ∈ hs, (cmp a b < 0 ↔ a.start < b.start) ∧ (cmp a b = 0 ↔ a.start = b.start) :=
      fun a ha b hb => cmp_sign hd ha hb
    exact ⟨hsign, hsort.ascending_of_sign hsign⟩

/-- Two holes of one copy, found in descending order. -/
theorem sorts_by_address_iff_copy : SortsByAddress Env.sample [⟨0xffff880000000040, 8⟩, ⟨0xffff880000000010, 8⟩] :=
  (sorts_by_address_iff Env.sample_sortOk).mpr (by decide)

/-- Copies two gigabytes apart: the lower hole is taken for the greater, and the list stays descending. -/
theorem sorts_by_address_apart : ¬SortsByAddress Env.sample [⟨0xffff880080000000, 8⟩, ⟨0xffff880000000000, 8⟩] ∧
    ¬(Env.sample.listSort cmp [⟨0xffff880080000000, 8⟩, ⟨0xffff880000000000, 8⟩]).Pairwise fun a b =>
    a.start ≤ b.start := by
  have hdesc : ¬(Env.sample.listSort cmp [⟨0xffff880080000000, 8⟩, ⟨0xffff880000000000, 8⟩]).Pairwise
      fun a b => a.start ≤ b.start := by decide
  exact ⟨fun h => hdesc h.2, hdesc⟩

end StackVault
