import StackVault.Theorems.Saving
import Mathlib.Tactic.Abel

/-! What `restore_stack_buf` does. Inside one segment everything depends on offsets into its copy: a
    walk that meets the holes in ascending order gives back every byte from where it stands to the end,
    the holes left out. The loop over the elements gives back one segment after another and empties the
    array. -/

namespace StackVault
open Memory

/-- A hole as a range of offsets into the copy. -/
def StackBuf.holeAt (e : StackBuf) (h : Hole) : Span := ⟨h.start - e.buf, h.len⟩

/-- Restoring the segment gives its saved byte back to this address: it is no hole. -/
def StackBuf.GivesBack (e : StackBuf) (x : Addr) : Prop :=
  x ∈ e.span ∧ ¬Covers (e.holeList.holes.map e.holeAt) (x - e.start)

instance (e : StackBuf) (x : Addr) : Decidable (e.GivesBack x) := inferInstanceAs (Decidable (_ ∧ _))

/-- Memory once the segment is restored. -/
def StackBuf.giveBack (e : StackBuf) (mem : Mem) : Mem := fun x => if e.GivesBack x then e.data (x - e.start) else mem x

/-! ### The comparator -/

/-- Holes less than `2 ^ 31` bytes apart are compared by their addresses. -/
theorem cmp_eq {a b : Hole} (h1 : a.start.toNat < b.start.toNat + 2 ^ 31)
    (h2 : b.start.toNat < a.start.toNat + 2 ^ 31) :
    cmp a b = (a.start.toNat : Int) - b.start.toNat := by
  have ha := a.start.isLt
  have hb := b.start.isLt
  rw [cmp, BitVec.toInt_setWidth, BitVec.toNat_sub, Int.bmod_def]
  omega

theorem Env.SortOk.ascending {env : Env} (hsort : env.SortOk) {hs : List Hole} (lo : Nat)
    (h : ∀ a ∈ hs, lo ≤ a.start.toNat ∧ a.start.toNat < lo + 2 ^ 31) :
    (env.listSort cmp hs).Pairwise fun a b => a.start ≤ b.start := by
  have hcmp : ∀ a ∈ hs, ∀ b ∈ hs, cmp a b = (a.start.toNat : Int) - b.start.toNat := fun a ha b hb => by
    have h1 := h a ha
    have h2 := h b hb
    exact cmp_eq (by omega) (by omega)
  have hsorted := hsort.sorted cmp hs (fun a ha b hb => by rw [hcmp a ha b hb, hcmp b hb a ha]; omega)
    (fun a ha b hb d hd => by rw [hcmp a ha b hb, hcmp b hb d hd, hcmp a ha d hd]; omega)
  refine hsorted.imp_of_mem fun {a b} ha hb hab => ?_
  rw [hcmp a ((hsort.perm cmp hs).mem_iff.mp ha) b ((hsort.perm cmp hs).mem_iff.mp hb)] at hab
  rw [BitVec.le_def]
  omega

section Walk
variable {e : StackBuf} {mem : Mem}

theorem copyBack_offsets (hbuf : e.buf.toNat + e.len.toNat < 2 ^ 64) {o o' : Addr} (h : o ≤ o') (h' : o' ≤ e.len) :
    copyBack e mem (e.start + o) (e.buf + o) (o' - o) =
      .ok fun x => if o ≤ x - e.start ∧ x - e.start < o' then e.data (x - e.start) else mem x := by
  have hoff : ∀ x, x - (e.start + o) = x - e.start - o := fun x => by abel
  have hmem : ∀ x, x ∈ (⟨e.start + o, o' - o⟩ : Span) ↔ o ≤ x - e.start ∧ x - e.start < o' := fun x => by
    rw [← Range.mem_upto h, Range.mem_def, Range.mem_def]
    exact iff_of_eq (congrArg (· < o' - o) (hoff x))
  unfold copyBack
  by_cases h0 : o' - o = 0
  · rw [if_pos h0]
    congr 1
    funext x
    rw [if_neg fun hx => Range.not_mem_of_len h0 ((hmem x).mpr hx)]
  · have hholds : e.Holds (e.buf + o) (o' - o) := by
      have hsub : (o' - o).toNat = o'.toNat - o.toNat := BitVec.toNat_sub_of_le h
      rw [BitVec.le_def] at h h'
      have hadd : (e.buf + o).toNat = e.buf.toNat + o.toNat := by
        rw [BitVec.toNat_add, Nat.mod_eq_of_lt (by omega)]
      unfold StackBuf.Holds
      omega
    rw [if_neg h0, if_pos hholds]
    congr 1
    funext x
    by_cases hx : o ≤ x - e.start ∧ x - e.start < o'
    · rw [if_pos hx, blit_of_mem ((hmem x).mpr hx), StackBuf.read]
      congr 1
      dsimp only
      abel
    · rw [if_neg hx, blit_of_not_mem (mt (hmem x).mp hx)]

theorem restoreWalk_ordered (hbuf : e.buf.toNat + e.len.toNat < 2 ^ 64) :
    ∀ (hs : List Hole) (o : Addr) (mem : Mem), Ordered e.len.toNat o.toNat (hs.map e.holeAt) →
      restoreWalk e hs (e.buf + o) (e.start + o) mem = .ok fun x =>
        if (o ≤ x - e.start ∧ x - e.start < e.len) ∧ ¬Covers (hs.map e.holeAt) (x - e.start) then e.data (x - e.start)
        else mem x
  | [], o, mem, h => by
    have hlen : e.buf + e.len - (e.buf + o) = e.len - o := by abel
    unfold restoreWalk
    rw [hlen, copyBack_offsets hbuf (BitVec.le_def.mpr h) (BitVec.le_refl _)]
    simp
  | h :: hs, o, mem, hord => by
    obtain ⟨hle, hrest⟩ := hord
    have hend := hrest.le
    have hlt := e.len.isLt
    simp only [StackBuf.holeAt] at hle hrest hend
    have hlen : h.start - (e.buf + o) = (h.start - e.buf) - o := by abel
    have hfrm : h.start + h.len = e.buf + ((h.start - e.buf) + h.len) := by abel
    have hdst : e.start + o + ((h.start - e.buf) - o + h.len) = e.start + ((h.start - e.buf) + h.len) := by abel
    have hsum : ((h.start - e.buf) + h.len).toNat = (h.start - e.buf).toNat + h.len.toNat := by
      rw [BitVec.toNat_add, Nat.mod_eq_of_lt (by omega)]
    unfold restoreWalk
    simp only [hlen]
    rw [copyBack_offsets hbuf (BitVec.le_def.mpr hle) (BitVec.le_def.mpr (by omega))]
    simp only [bind, Except.bind]
    rw [hfrm, hdst, restoreWalk_ordered hbuf hs _ _ (by rw [hsum]; exact hrest)]
    congr 1
    funext x
    -- The hole just stepped over ends before every hole that is left.
    have hhole : x - e.start ∈ e.holeAt h ↔
        (h.start - e.buf).toNat ≤ (x - e.start).toNat ∧ (x - e.start).toNat < (h.start - e.buf).toNat + h.len.toNat :=
      Range.mem_iff (by unfold Range.Fits StackBuf.holeAt; dsimp only; omega)
    have hnext : Covers (hs.map e.holeAt) (x - e.start) →
        (h.start - e.buf).toNat + h.len.toNat ≤ (x - e.start).toNat := by
      rintro ⟨r, hr, hxr⟩
      obtain ⟨h1, h2⟩ := hrest.bounds r hr
      rw [Range.mem_iff (by unfold Range.Fits; omega)] at hxr
      omega
    simp only [List.map_cons, covers_cons, hhole, BitVec.le_def, BitVec.lt_def, hsum] at hnext ⊢
    by_cases hC : Covers (hs.map e.holeAt) (x - e.start)
    · have := hnext hC
      rw [if_neg (fun h' => h'.2 hC), if_neg (by omega), if_neg (fun h' => h'.2 (Or.inr hC))]
    · simp only [hC, not_false_eq_true, and_true, or_false]
      split
      · rw [if_pos (by omega)]
      · split
        · rw [if_pos (by omega)]
        · rw [if_neg (by omega)]

theorem copyBack_holds {mem' : Mem} {dst frm len : Addr} (h : copyBack e mem dst frm len = .ok mem') :
    len = 0 ∨ e.Holds frm len := by
  unfold copyBack at h
  split at h
  · next h0 => exact Or.inl h0
  · split at h
    · next hholds => exact Or.inr hholds
    · cases h

/-- A walk that succeeds has met the holes in order and inside the copy. -/
theorem ordered_of_walk (hbuf : e.buf.toNat + e.len.toNat < 2 ^ 64) :
    ∀ (hs : List Hole) (frm dst : Addr) (mem mem' : Mem), (∀ h ∈ hs, h.start.toNat + h.len.toNat < 2 ^ 64) →
      e.buf ≤ frm →
      restoreWalk e hs frm dst mem = .ok mem' →
      Ordered e.len.toNat (frm.toNat - e.buf.toNat) (hs.map e.holeAt)
  | [], frm, dst, mem, mem', _, hfrm, hwalk => by
    rw [BitVec.le_def] at hfrm
    have hend : (e.buf + e.len).toNat = e.buf.toNat + e.len.toNat := by
      rw [BitVec.toNat_add, Nat.mod_eq_of_lt hbuf]
    rcases copyBack_holds hwalk with h0 | ⟨-, hup⟩
    · show frm.toNat - e.buf.toNat ≤ e.len.toNat
      rw [← sub_eq_zero.mp h0, hend]
      omega
    · show frm.toNat - e.buf.toNat ≤ e.len.toNat
      omega
  | h :: hs, frm, dst, mem, mem', hfit, hfrm, hwalk => by
    obtain ⟨mem₁, hcopy, hwalk⟩ := bind_eq_ok.mp hwalk
    have hh := hfit h List.mem_cons_self
    have hle : frm.toNat ≤ h.start.toNat := by
      rcases copyBack_holds hcopy with h0 | ⟨-, hup⟩
      · rw [sub_eq_zero.mp h0]
      · -- The bytes up to the hole lie in the copy, so the hole does not begin before them.
        have hsum : frm + (h.start - frm) = h.start := by abel
        have hnat := congrArg BitVec.toNat hsum
        rw [BitVec.toNat_add, Nat.mod_eq_of_lt (by omega)] at hnat
        omega
    rw [BitVec.le_def] at hfrm
    have hnext : (h.start + h.len).toNat = h.start.toNat + h.len.toNat := by rw [BitVec.toNat_add, Nat.mod_eq_of_lt hh]
    have hoff : (h.start - e.buf).toNat = h.start.toNat - e.buf.toNat :=
      BitVec.toNat_sub_of_le (BitVec.le_def.mpr (hfrm.trans hle))
    have hrest := ordered_of_walk hbuf hs _ _ _ _ (fun h' hh' => hfit h' (List.mem_cons_of_mem _ hh'))
      (BitVec.le_def.mpr (by omega)) hwalk
    refine ⟨?_, ?_⟩
    · simp only [StackBuf.holeAt, hoff]
      omega
    · have hsame : (e.holeAt h).start.toNat + (e.holeAt h).len.toNat = (h.start + h.len).toNat - e.buf.toNat := by
        simp only [StackBuf.holeAt, hoff]
        omega
      rw [hsame]
      exact hrest

end Walk

/-! ### One segment -/

section Segment
variable {env : Env} {e : StackBuf} {p : SbufPtr} {i : Nat} {mem : Mem}

/-- The segment can be restored, and then every byte of it that is no hole is given back. -/
def StackBuf.Restorable (env : Env) (p : SbufPtr) (i : Nat) (e : StackBuf) : Prop :=
  ∀ mem, restoreSegment env p i e mem = .ok (e.giveBack mem)

theorem covers_perm {rs ss : List Span} (h : rs.Perm ss) {x : Addr} : Covers rs x ↔ Covers ss x := by
  simp only [Covers, h.mem_iff]

theorem restorable_of_no_holes (hsort : env.listSort cmp [] = []) (h : e.holeList = { home := (p, i), holes := [] }) :
    e.Restorable env p i := fun mem => by
  have hlen : e.buf + e.len - e.buf = e.len := by abel
  have hgive : ∀ x, e.GivesBack x ↔ x ∈ e.span := fun x => by simp [StackBuf.GivesBack, h]
  unfold restoreSegment
  rw [h, if_pos rfl, hsort, restoreWalk, hlen]
  unfold copyBack
  by_cases h0 : e.len = 0
  · rw [if_pos h0]
    congr 1
    funext x
    exact (if_neg fun hx => Range.not_mem_of_len (r := e.span) h0 ((hgive x).mp hx)).symm
  · rw [if_neg h0, if_pos ⟨le_refl _, le_refl _⟩]
    congr 1
    funext x
    by_cases hx : x ∈ e.span
    · have hx' : x ∈ (⟨e.start, e.len⟩ : Span) := hx
      rw [blit_of_mem hx', StackBuf.read, StackBuf.giveBack, if_pos ((hgive x).mpr hx)]
      congr 1
      dsimp only
      abel
    · rw [StackBuf.giveBack, if_neg (mt (hgive x).mp hx)]
      exact blit_of_not_mem hx

theorem restorable_of_ordered (hbuf : e.buf.toNat + e.len.toNat < 2 ^ 64) (hhome : e.holeList.home = (p, i))
    (hperm : (env.listSort cmp e.holeList.holes).Perm e.holeList.holes)
    (hord : Ordered e.len.toNat 0 ((env.listSort cmp e.holeList.holes).map e.holeAt)) :
    e.Restorable env p i := fun mem => by
  have key := restoreWalk_ordered hbuf _ 0 mem hord
  rw [add_zero, add_zero] at key
  unfold restoreSegment
  rw [if_pos hhome, key]
  congr 1
  funext x
  have hiff : ((0 ≤ x - e.start ∧ x - e.start < e.len) ∧
      ¬Covers ((env.listSort cmp e.holeList.holes).map e.holeAt) (x - e.start)) ↔ e.GivesBack x := by
    have h0 : (0 : Addr) ≤ x - e.start := BitVec.le_def.mpr (Nat.zero_le _)
    rw [covers_perm (hperm.map e.holeAt), StackBuf.GivesBack, Range.mem_def]
    simp only [h0, true_and, StackBuf.span]
  exact if_congr hiff rfl rfl

theorem ordered_of_restore {mem' : Mem} (hbuf : e.buf.toNat + e.len.toNat < 2 ^ 64)
    (hperm : (env.listSort cmp e.holeList.holes).Perm e.holeList.holes)
    (hfit : ∀ h ∈ e.holeList.holes, h.start.toNat + h.len.toNat < 2 ^ 64)
    (hres : restoreSegment env p i e mem = .ok mem') :
    Ordered e.len.toNat 0 ((env.listSort cmp e.holeList.holes).map e.holeAt) := by
  unfold restoreSegment at hres
  split at hres
  · have hord := ordered_of_walk hbuf _ _ _ _ _ (fun h hh => hfit h (hperm.mem_iff.mp hh)) (BitVec.le_refl _) hres
    rwa [Nat.sub_self] at hord
  · cases hres

end Segment

/-! ### All segments -/

/-- The segments are given back one after another. -/
def giveBackAll (segs : List StackBuf) (mem : Mem) : Mem := segs.foldl (fun m e => e.giveBack m) mem

theorem giveBackAll_of_none : ∀ {segs : List StackBuf} {mem : Mem} {x : Addr}, (∀ e ∈ segs, ¬e.GivesBack x) →
    giveBackAll segs mem x = mem x
  | [], _, _, _ => rfl
  | e :: segs, mem, x, h => by
    show giveBackAll segs (e.giveBack mem) x = mem x
    rw [giveBackAll_of_none fun f hf => h f (List.mem_cons_of_mem _ hf)]
    exact if_neg (h e List.mem_cons_self)

theorem giveBackAll_of_mem : ∀ {segs : List StackBuf} {mem : Mem} {x : Addr} {e : StackBuf},
    segs.Pairwise (fun e f => e.span.Apart f.span) → e ∈ segs → e.GivesBack x →
    giveBackAll segs mem x = e.data (x - e.start)
  | f :: segs, mem, x, e, hap, he, hx => by
    obtain ⟨hf, hap⟩ := List.pairwise_cons.mp hap
    show giveBackAll segs (f.giveBack mem) x = e.data (x - e.start)
    rcases List.mem_cons.mp he with rfl | he
    · rw [giveBackAll_of_none fun g hg hgx => hf g hg x hx.1 hgx.1]
      exact if_pos hx
    · exact giveBackAll_of_mem hap he hx

section Loop
variable {env : Env} {p : SbufPtr}

theorem restoreLoop_ok : ∀ {is : List Nat} {b : Sbuf} (mem : Mem), is.Nodup →
    (∀ i ∈ is, (b.entry i).Restorable env p i) →
    ∃ b', restoreLoop env p is b mem = .ok (b', giveBackAll (is.map b.entry) mem) ∧ b'.cur = b.cur - is.length ∧
      b'.cap = b.cap
  | [], b, mem, _, _ => ⟨b, rfl, rfl, rfl⟩
  | i :: is, b, mem, hnd, h => by
    obtain ⟨hi, hnd⟩ := List.nodup_cons.mp hnd
    have hother : ∀ j ∈ is, (b.restored env i).entry j = b.entry j := fun j hj =>
      if_neg fun hji : j = i => hi (hji ▸ hj)
    obtain ⟨b', hloop, hcur, hcap⟩ := restoreLoop_ok (b := b.restored env i) ((b.entry i).giveBack mem) hnd
      fun j hj => by rw [hother j hj]; exact h j (List.mem_cons_of_mem _ hj)
    refine ⟨b', ?_, ?_, hcap⟩
    · simp only [restoreLoop, h i List.mem_cons_self mem, bind, Except.bind]
      rw [hloop, List.map_congr_left hother]
      rfl
    · rw [hcur, List.length_cons]
      show b.cur - 1 - is.length = b.cur - (is.length + 1)
      omega

/-- The first `2 ^ 31` segments are given back, and the others are left in the array. -/
theorem restoreStackBuf_first {heap : Heap} (mem : Mem) {b : Sbuf} (hb : heap.sbufs p = some b)
    (h : ∀ i < b.cur, (b.entry i).Restorable env p i) :
    ∃ b', restoreStackBuf env heap mem (some p) =
        .ok (heap.set p (some b'), giveBackAll (b.segs.take (2 ^ 31)) mem) ∧
      b'.cur = b.cur - 2 ^ 31 ∧ b'.cap = b.cap := by
  obtain ⟨b', hloop, hcur, hcap⟩ := restoreLoop_ok mem (List.nodup_range (n := min b.cur (2 ^ 31)))
    fun i hi => h i (Nat.lt_of_lt_of_le (List.mem_range.mp hi) (Nat.min_le_left _ _))
  refine ⟨b', ?_, ?_, hcap⟩
  · simp only [restoreStackBuf, Heap.deref_some hb, hloop, bind, Except.bind, pure, Except.pure]
    rw [Sbuf.segs, ← List.map_take, List.take_range, Nat.min_comm]
  · rw [hcur, List.length_range]
    omega

/-- Every segment is given back, and the array is left empty, where the loop's index comes to them all. -/
theorem restoreStackBuf_ok {heap : Heap} (mem : Mem) {b : Sbuf} (hb : heap.sbufs p = some b)
    (hlen : b.cur ≤ 2 ^ 31) (h : ∀ i < b.cur, (b.entry i).Restorable env p i) :
    ∃ b', restoreStackBuf env heap mem (some p) = .ok (heap.set p (some b'), giveBackAll b.segs mem) ∧
      b'.cur = 0 ∧ b'.cap = b.cap := by
  obtain ⟨b', hres, hcur, hcap⟩ := restoreStackBuf_first mem hb h
  rw [List.take_of_length_le (by rwa [Sbuf.length_segs])] at hres
  exact ⟨b', hres, by omega, hcap⟩

/-- However the walks go, a loop that returns has counted `cur` down once for each element. -/
theorem restoreLoop_cur : ∀ {is : List Nat} {b b' : Sbuf} {mem mem' : Mem},
    restoreLoop env p is b mem = .ok (b', mem') →
    b'.cur = b.cur - is.length ∧ b'.cap = b.cap
  | [], b, b', mem, mem', h => by cases h; exact ⟨rfl, rfl⟩
  | i :: is, b, b', mem, mem', h => by
    obtain ⟨mem₁, -, h⟩ := bind_eq_ok.mp h
    obtain ⟨hcur, hcap⟩ := restoreLoop_cur h
    refine ⟨?_, hcap⟩
    rw [hcur, List.length_cons]
    show b.cur - 1 - is.length = b.cur - (is.length + 1)
    omega

theorem restoreStackBuf_inv {heap heap' : Heap} {mem mem' : Mem} {sbuf : Option SbufPtr}
    (h : restoreStackBuf env heap mem sbuf = .ok (heap', mem')) :
    ∃ p b b', sbuf = some p ∧ heap.sbufs p = some b ∧ heap' = heap.set p (some b') ∧
      b'.cur = b.cur - 2 ^ 31 ∧ b'.cap = b.cap := by
  unfold restoreStackBuf at h
  cases hd : heap.deref sbuf with
  | error f => rw [hd] at h; cases h
  | ok x =>
    obtain ⟨p, b⟩ := x
    rw [hd] at h
    obtain ⟨⟨b', mem''⟩, hloop, h⟩ := bind_eq_ok.mp h
    cases h
    obtain ⟨hp, hb⟩ := Heap.deref_eq_ok.mp hd
    obtain ⟨hcur, hcap⟩ := restoreLoop_cur hloop
    refine ⟨p, b, b', hp, hb, rfl, ?_, hcap⟩
    rw [hcur, List.length_range]
    omega

end Loop

end StackVault
