import StackVault.Theorems.Restoring

/-! Restoring around holes. The walk over a segment goes from one hole to the next with differences of
    unsigned addresses, so it depends on the order in which `list_sort` puts them. Holes that are apart come
    out one after another, whatever order they were recorded in, and are stepped over. The loop over the
    segments counts them with an `int`, and leaves those after the first `2 ^ 31` as they are. -/

namespace StackVault
open Memory

/-- The kernel addresses of a hole. -/
def Hole.span (h : Hole) : Span := ⟨h.start, h.len⟩

/-- Element `i` of the array `p`, with holes that are non-empty, disjoint and inside its copy. -/
structure StackBuf.Pierced (p : SbufPtr) (i : Nat) (e : StackBuf) : Prop where
  home : e.holeList.home = (p, i)
  fits : e.buf.toNat + e.len.toNat < 2 ^ 64
  short : e.len.toNat < 2 ^ 31
  nonempty : ∀ h ∈ e.holeList.holes, 0 < h.len.toNat
  inside : ∀ h ∈ e.holeList.holes, e.Holds h.start h.len
  apart : e.holeList.holes.Pairwise fun a b => a.span.Apart b.span

section Ordered
variable {e : StackBuf} {hs : List Hole} {h : Hole}

theorem StackBuf.Holds.holeAt (hin : e.Holds h.start h.len) : (e.holeAt h).start.toNat + e.buf.toNat = h.start.toNat ∧
    (e.holeAt h).start.toNat + (e.holeAt h).len.toNat ≤ e.len.toNat := by
  obtain ⟨hlo, hup⟩ := hin
  have hsub : (h.start - e.buf).toNat = h.start.toNat - e.buf.toNat := BitVec.toNat_sub_of_le (BitVec.le_def.mpr hlo)
  simp only [StackBuf.holeAt, hsub]
  omega

/-- Disjoint holes of the copy that begin one after another are in order. -/
theorem ordered_holeAt (hne : ∀ h ∈ hs, 0 < h.len.toNat) (hin : ∀ h ∈ hs, e.Holds h.start h.len)
    (hap : hs.Pairwise fun a b => a.span.Apart b.span) (hasc : hs.Pairwise fun a b => a.start ≤ b.start) :
    Ordered e.len.toNat 0 (hs.map e.holeAt) := by
  refine ordered_of_ascending (Nat.zero_le _) (List.pairwise_map.mpr (hasc.imp_of_mem fun {a b} ha hb hab => ?_))
    (List.pairwise_map.mpr (hap.imp fun hab => hab.shift e.buf)) ?_ ?_
  · obtain ⟨ha', -⟩ := (hin a ha).holeAt
    obtain ⟨hb', -⟩ := (hin b hb).holeAt
    rw [BitVec.le_def] at hab ⊢
    omega
  · intro o ho
    obtain ⟨h, hh, rfl⟩ := List.mem_map.mp ho
    obtain ⟨-, hup⟩ := (hin h hh).holeAt
    exact ⟨le_trans hup (le_of_lt e.len.isLt), hne h hh⟩
  · intro o ho
    obtain ⟨h, hh, rfl⟩ := List.mem_map.mp ho
    exact ⟨Nat.zero_le _, (hin h hh).holeAt.2⟩

end Ordered

section Restore
variable {env : Env} {p : SbufPtr} {i : Nat} {e : StackBuf} {b : Sbuf} {heap : Heap}

theorem StackBuf.Pierced.restorable (h : e.Pierced p i) (hsort : env.SortOk) : e.Restorable env p i := by
  have hperm := hsort.perm cmp e.holeList.holes
  have hnear : ∀ a ∈ e.holeList.holes, e.buf.toNat ≤ a.start.toNat ∧ a.start.toNat < e.buf.toNat + 2 ^ 31 := by
    intro a ha
    obtain ⟨hlo, hup⟩ := h.inside a ha
    have hpos := h.nonempty a ha
    have hshort := h.short
    exact ⟨hlo, by omega⟩
  refine restorable_of_ordered h.fits h.home hperm (ordered_holeAt (fun a ha => ?_) (fun a ha => ?_) ?_
    (hsort.ascending e.buf.toNat hnear))
  · exact h.nonempty a (hperm.mem_iff.mp ha)
  · exact h.inside a (hperm.mem_iff.mp ha)
  · exact (hperm.pairwise_iff fun hab => hab.symm).mpr h.apart

theorem StackBuf.covers_holes {x : Addr} : Covers (e.holeList.holes.map e.holeAt) (x - e.start) ↔
    ∃ h ∈ e.holeList.holes, e.buf + (x - e.start) ∈ h.span := by
  rw [covers_map]
  refine exists_congr fun h => and_congr_right fun _ => ?_
  rw [add_comm]
  exact Range.mem_shift (r := h.span)

/-- What `restore_stack_buf` is to do with the array: every segment's copy is read inside its bounds, each byte
    of a segment that is no hole gets its saved value, no other byte changes, and the array is left empty. -/
def RestoresAround (env : Env) (heap : Heap) (p : SbufPtr) (b : Sbuf) (mem : Mem) : Prop :=
  ∃ b' mem', restoreStackBuf env heap mem (some p) = .ok (heap.set p (some b'), mem') ∧ b'.cur = 0 ∧
    (∀ e ∈ b.segs, ∀ x ∈ e.span, (∀ h ∈ e.holeList.holes, e.buf + (x - e.start) ∉ h.span) →
      mem' x = e.data (x - e.start)) ∧
    ∀ x, (∀ e ∈ b.segs, x ∈ e.span → ∃ h ∈ e.holeList.holes, e.buf + (x - e.start) ∈ h.span) → mem' x = mem x

theorem restoresAround (hsort : env.SortOk) (hb : heap.sbufs p = some b) (hlen : b.cur ≤ 2 ^ 31)
    (happart : b.segs.Pairwise fun e f => e.span.Apart f.span)
    (hpierced : ∀ i < b.cur, (b.entry i).Pierced p i) (mem : Mem) : RestoresAround env heap p b mem := by
  obtain ⟨b', hres, hcur, -⟩ := restoreStackBuf_ok mem hb hlen fun i hi => (hpierced i hi).restorable hsort
  refine ⟨b', _, hres, hcur, fun e he x hx hfree => ?_, fun x hkept => ?_⟩
  · refine giveBackAll_of_mem happart he ⟨hx, fun hcov => ?_⟩
    obtain ⟨h, hh, hin⟩ := StackBuf.covers_holes.mp hcov
    exact hfree h hh hin
  · exact giveBackAll_of_none fun e he hgive => hgive.2 (StackBuf.covers_holes.mpr (hkept e he hgive.1))

/-- From element `2 ^ 31` on the segments are left in the array. -/
theorem RestoresAround.cur_le {mem : Mem} (hb : heap.sbufs p = some b) (h : RestoresAround env heap p b mem) :
    b.cur ≤ 2 ^ 31 := by
  obtain ⟨b', mem', hres, hzero, -⟩ := h
  obtain ⟨q, b₁, b₂, hq, hb₁, hset, hcur, -⟩ := restoreStackBuf_inv hres
  cases hq
  obtain rfl : b = b₁ := Option.some.inj (hb.symm.trans hb₁)
  have hsame : some b' = some b₂ := by
    have hat := congrArg (fun h' : Heap => h'.sbufs p) hset
    simpa using hat
  rw [← Option.some.inj hsame, hzero] at hcur
  omega

/-- Whatever the memory, an array is restored around its holes exactly when it has at most `2 ^ 31` segments. -/
theorem restore_around_holes_iff (hsort : env.SortOk) (hb : heap.sbufs p = some b)
    (happart : b.segs.Pairwise fun e f => e.span.Apart f.span)
    (hpierced : ∀ i < b.cur, (b.entry i).Pierced p i) (mem : Mem) :
    RestoresAround env heap p b mem ↔ b.cur ≤ 2 ^ 31 :=
  ⟨fun h => h.cur_le hb, fun hlen => restoresAround hsort hb hlen happart hpierced mem⟩

end Restore

/-- Two segments, the first with two holes that were recorded from the end of it. -/
def punctured : Sbuf where
  cur := 2
  cap := 2
  entry i :=
    if i = 0 then { buf := 0x8000, data := fun _ => 0x41, start := 0x100, len := 16,
                    holeList := { home := (0, 0), holes := [⟨0x800c, 4⟩, ⟨0x8004, 8⟩] } }
    else { buf := 0x9000, data := fun _ => 0x42, start := 0x200, len := 8, holeList := { home := (0, i), holes := [] } }

theorem restore_around_holes_punctured :
    RestoresAround Env.sample { next := 1, sbufs := fun _ => some punctured } 0 punctured fun _ => 0 := by
  have hfirst : (punctured.entry 0).Pierced 0 0 := by
    refine ⟨rfl, by decide, by decide, by decide, by decide, ?_⟩
    exact List.pairwise_pair.mpr (Range.Apart.symm (Range.apart_of_le (by decide) (by decide) (by decide)))
  have hsecond : (punctured.entry 1).Pierced 0 1 := by
    refine ⟨rfl, by decide, by decide, ?_, ?_, List.Pairwise.nil⟩
    · exact fun _ h => (List.not_mem_nil h).elim
    · exact fun _ h => (List.not_mem_nil h).elim
  have hpierced : ∀ i < punctured.cur, (punctured.entry i).Pierced 0 i
    | 0, _ => hfirst
    | 1, _ => hsecond
  refine (restore_around_holes_iff Env.sample_sortOk rfl ?_ hpierced fun _ => 0).mpr (by decide)
  exact List.pairwise_pair.mpr (Range.apart_of_le (by decide) (by decide) (by decide))

/-- One segment more than the index of the loop counts: a byte each, from address 0 on. -/
def vast : Sbuf where
  cur := 2 ^ 31 + 1
  cap := 2 ^ 31 + 1
  entry i :=
    { buf := 0xffff880000000000 + BitVec.ofNat 64 i, data := fun _ => 0x41, start := BitVec.ofNat 64 i, len := 1,
      holeList := { home := (0, i), holes := [] } }

/-- The segments are in order and have no holes, yet one is left in the array. -/
theorem vast_left : (vast.segs.Pairwise fun e f => e.span.Apart f.span) ∧
    (∀ i < vast.cur, (vast.entry i).Pierced 0 i) ∧
    ¬RestoresAround Env.sample { next := 1, sbufs := fun _ => some vast } 0 vast fun _ => 0 := by
  have hone : BitVec.toNat (1 : Addr) = 1 := rfl
  have hbase : BitVec.toNat (0xffff880000000000 : Addr) = 0xffff880000000000 := rfl
  refine ⟨?_, fun i hi => ?_, fun h => absurd (h.cur_le rfl) (by decide)⟩
  · refine List.pairwise_map.mpr (List.pairwise_lt_range.imp_of_mem fun {i j} hi hj hij => ?_)
    have hj' : j < 2 ^ 31 + 1 := List.mem_range.mp hj
    refine Range.apart_of_le ?_ ?_ ?_
    all_goals
      simp only [vast, StackBuf.span, Range.Fits, BitVec.toNat_ofNat, hone]
      omega
  · have hi' : i < 2 ^ 31 + 1 := hi
    refine ⟨rfl, ?_, ?_, fun _ h => (List.not_mem_nil h).elim, fun _ h => (List.not_mem_nil h).elim, .nil⟩
    · simp only [vast, BitVec.toNat_add, BitVec.toNat_ofNat, hone, hbase]
      omega
    · simp only [vast, hone]
      omega

end StackVault
