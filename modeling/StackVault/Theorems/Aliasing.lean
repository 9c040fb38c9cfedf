import StackVault.Theorems.Holes
import StackVault.Theorems.WriteThrough
import StackVault.Theorems.Accounted

/-! Pointer parameters that share memory. Each chain adds its holes without a look at those already there,
    so one cell or target reached twice is two holes over the same bytes. The walk of a decrypt goes over
    the holes of one segment if and only if they follow one another. -/

namespace StackVault
open Memory

/-- An array of one segment, saved from `m`, without holes. -/
structure Sbuf.Alone (m : Mem) (p : SbufPtr) (b : Sbuf) : Prop where
  cur : b.cur = 1
  saved : (b.entry 0).Saves m
  fits : (b.entry 0).buf.toNat + (b.entry 0).len.toNat < 2 ^ 64
  span : (b.entry 0).start.toNat + (b.entry 0).len.toNat < 2 ^ 64
  live : (b.entry 0).buf ≠ 0
  unholed : (b.entry 0).holeList = { home := (p, 0), holes := [] }

/-- In the order in which `list_sort` puts their places in the copy, no range begins before the end of the one
    before it. -/
def InSequence (env : Env) (e : StackBuf) (rs : List Span) : Prop :=
  Ordered e.len.toNat 0 ((env.listSort cmp (rs.map (copyOf e.buf e.span))).map e.holeAt)

/-- A decrypt, whatever the callee has made of memory, leaves the ranges as they are and gives back every
    other byte of the segment. -/
def KeepsRanges (env : Env) (m : Mem) (p : SbufPtr) (heap : Heap) (e : StackBuf) (rs : List Span) : Prop :=
  ∀ mem, ∃ heap' mem', restoreStackBuf env heap mem (some p) = .ok (heap', mem') ∧
    ∀ x, mem' x = if x ∈ e.span ∧ ¬Covers rs x then m x else mem x

section Copies
variable {env : Env} {e : StackBuf} {r : Span} {rs : List Span} {x : Addr}

theorem copyOf_holds (hfits : e.buf.toNat + e.len.toNat < 2 ^ 64) (hr : e.HasRange r) :
    e.Holds (copyOf e.buf e.span r).start (copyOf e.buf e.span r).len := by
  obtain ⟨hlo, hup⟩ := hr
  have hsub : (r.start - e.start).toNat = r.start.toNat - e.start.toNat :=
    BitVec.toNat_sub_of_le (BitVec.le_def.mpr hlo)
  have hadd : (e.buf + (r.start - e.start)).toNat = e.buf.toNat + (r.start - e.start).toNat := by
    rw [BitVec.toNat_add, Nat.mod_eq_of_lt (by omega)]
  simp only [StackBuf.Holds, copyOf, StackBuf.span, hadd, hsub]
  omega

theorem mem_copyOf : x ∈ (copyOf e.buf e.span r).span ↔ x - e.buf + e.start ∈ r := by
  have hoff : x - (e.buf + (r.start - e.start)) = x - e.buf + e.start - r.start := by abel
  rw [Range.mem_def, Range.mem_def, ← hoff]
  rfl

theorem holeAt_copyOf : e.holeAt (copyOf e.buf e.span r) = ⟨r.start - e.start, r.len⟩ := by
  rw [StackBuf.holeAt, copyOf, add_sub_cancel_left]
  rfl

theorem covers_copies : Covers ((rs.map (copyOf e.buf e.span)).map e.holeAt) (x - e.start) ↔ Covers rs x := by
  rw [List.map_map, covers_map]
  refine exists_congr fun r => and_congr_right fun _ => ?_
  rw [Function.comp_apply, holeAt_copyOf, Range.mem_shift, sub_add_cancel]

/-- In a segment of less than `2 ^ 31` bytes, ranges that have bytes are in sequence if and only if they are apart. -/
theorem inSequence_iff_apart (hsort : env.SortOk) (hfits : e.buf.toNat + e.len.toNat < 2 ^ 64)
    (hin : ∀ r ∈ rs, e.HasRange r) (hshort : e.len.toNat < 2 ^ 31) (hne : ∀ r ∈ rs, 0 < r.len.toNat) :
    InSequence env e rs ↔ rs.Pairwise Range.Apart := by
  have hperm := hsort.perm cmp (rs.map (copyOf e.buf e.span))
  have hholds : ∀ a ∈ rs.map (copyOf e.buf e.span), 0 < a.len.toNat ∧ e.Holds a.start a.len := by
    intro a ha
    obtain ⟨r, hr, rfl⟩ := List.mem_map.mp ha
    exact ⟨hne r hr, copyOf_holds hfits (hin r hr)⟩
  constructor
  · intro hseq
    have hap := ((hperm.map e.holeAt).pairwise_iff Range.Apart.symm).mp (hseq.apart (le_of_lt e.len.isLt))
    rw [List.map_map, List.pairwise_map] at hap
    refine hap.imp fun {r s} hrs x hx => ?_
    have hxs := hrs (x - e.start)
    simp only [Function.comp_apply, holeAt_copyOf, Range.mem_shift, sub_add_cancel] at hxs
    exact hxs hx
  · intro hap
    refine ordered_holeAt (fun a ha => (hholds a (hperm.mem_iff.mp ha)).1)
      (fun a ha => (hholds a (hperm.mem_iff.mp ha)).2)
      ((hperm.pairwise_iff fun hab => hab.symm).mpr (List.pairwise_map.mpr (hap.imp fun {r s} hrs x hx => ?_)))
      (hsort.ascending e.buf.toNat fun a ha => ?_)
    · rw [mem_copyOf] at hx ⊢
      exact hrs _ hx
    · obtain ⟨hpos, hlo, hup⟩ := hholds a ha
      exact ⟨hlo, by omega⟩

end Copies

namespace Sbuf.Alone
variable {env : Env} {m mem mem' : Mem} {p : SbufPtr} {b : Sbuf} {heap heap' : Heap} {rs : List Span} {r : Span}

theorem segs (h : b.Alone m p) : b.segs = [b.entry 0] := by
  rw [Sbuf.segs, h.cur]
  rfl

theorem reached_segs (h : b.Alone m p) : reached b.segs = b.segs :=
  reached_eq (by rw [Sbuf.length_segs, h.cur]; decide)

theorem savedOf (h : b.Alone m p) : SavedOf m b.segs := by
  have hall : ∀ {P : StackBuf → Prop}, P (b.entry 0) → ∀ e ∈ b.segs, P e := fun hP e he => by
    rw [h.segs] at he
    rwa [List.mem_singleton.mp he]
  refine ⟨⟨hall h.fits, ?_⟩, hall h.saved, hall h.span, ?_, hall h.live⟩
  · rw [h.segs]
    exact List.pairwise_singleton _ _
  · rw [h.segs]
    exact List.pairwise_singleton _ _

theorem holeOf (h : b.Alone m p) (hr : (b.entry 0).HasRange r) :
    StackVault.holeOf b.segs r = copyOf (b.entry 0).buf (b.entry 0).span r := by
  have hmem : b.entry 0 ∈ reached b.segs := by
    rw [h.reached_segs]
    exact Sbuf.mem_segs.mpr ⟨0, by rw [h.cur]; exact Nat.one_pos, rfl⟩
  obtain ⟨f, hf, -, hfind⟩ := h.savedOf.found hmem hr
  rw [h.segs] at hf
  rw [StackVault.holeOf, hfind, List.mem_singleton.mp hf]
  rfl

/-- The segment with the ranges as holes. -/
def holed (p : SbufPtr) (b : Sbuf) (rs : List Span) : StackBuf :=
  { b.entry 0 with holeList := { home := (p, 0), holes := rs.map (copyOf (b.entry 0).buf (b.entry 0).span) } }

theorem entry_zero (h : b.Alone m p) (hin : ∀ r ∈ rs, (b.entry 0).HasRange r) :
    (b.withHoles (rs.map (StackVault.holeOf b.segs))).entry 0 = holed p b rs := by
  rw [List.map_congr_left fun r hr => h.holeOf (hin r hr)]
  simp only [Sbuf.withHoles, if_true, holed, h.unholed, List.nil_append]

/-- A decrypt walks the holes of the one segment. -/
theorem restores_iff (h : b.Alone m p) (hsort : env.SortOk) (hin : ∀ r ∈ rs, (b.entry 0).HasRange r)
    (hlive : heap.sbufs p = some (b.withHoles (rs.map (StackVault.holeOf b.segs)))) :
    KeepsRanges env m p heap (b.entry 0) rs ↔ InSequence env (b.entry 0) rs := by
  have hentry := h.entry_zero hin
  have hcur : (b.withHoles (rs.map (StackVault.holeOf b.segs))).cur = 1 := h.cur
  have hperm := hsort.perm cmp (rs.map (copyOf (b.entry 0).buf (b.entry 0).span))
  constructor
  · intro hkeeps
    obtain ⟨heap', mem', hres, -⟩ := hkeeps m
    rw [restoreStackBuf, Heap.deref_some hlive] at hres
    obtain ⟨x, hloop, -⟩ := bind_eq_ok.mp hres
    have hrange : List.range (min (b.withHoles (rs.map (StackVault.holeOf b.segs))).cur (2 ^ 31)) = [0] := by
      rw [hcur]
      rfl
    rw [hrange] at hloop
    obtain ⟨mem₁, hfirst, -⟩ := bind_eq_ok.mp hloop
    rw [hentry] at hfirst
    refine ordered_of_restore (e := holed p b rs) h.fits hperm ?_ hfirst
    intro a ha
    obtain ⟨r, hr, rfl⟩ := List.mem_map.mp ha
    exact lt_of_le_of_lt (copyOf_holds h.fits (hin r hr)).2 h.fits
  · intro hseq mem
    have hrest : ∀ i < (b.withHoles (rs.map (StackVault.holeOf b.segs))).cur,
        ((b.withHoles (rs.map (StackVault.holeOf b.segs))).entry i).Restorable env p i := by
      intro i hi
      obtain rfl : i = 0 := by omega
      rw [hentry]
      exact restorable_of_ordered (e := holed p b rs) h.fits rfl hperm hseq
    obtain ⟨b', hres, -, -⟩ := restoreStackBuf_ok mem hlive (by rw [hcur]; decide) hrest
    refine ⟨_, _, hres, fun x => ?_⟩
    have hsegs : (b.withHoles (rs.map (StackVault.holeOf b.segs))).segs = [holed p b rs] := by
      rw [Sbuf.segs, hcur, ← hentry]
      rfl
    have hgive : (holed p b rs).GivesBack x ↔ x ∈ (b.entry 0).span ∧ ¬Covers rs x :=
      and_congr_right fun _ => not_congr covers_copies
    rw [hsegs]
    by_cases hx : (holed p b rs).GivesBack x
    · rw [if_pos (hgive.mp hx), ← h.saved.at hx.1]
      exact if_pos hx
    · rw [if_neg (mt hgive.mpr hx)]
      exact if_neg hx

end Sbuf.Alone

/-- Aliasing. After a chase that returned, over a frame that was saved as one segment and holds all cells and
    targets, the decrypt leaves these as the callee left them and restores every other byte, if and only if
    they are in sequence: in a frame of less than `2 ^ 31` bytes, and with targets that have bytes, if and only
    if no two of them share a byte. -/
theorem aliasing_restores_iff {env : Env} {m : Mem} {p : SbufPtr} {b : Sbuf} {c c' : Chase} {plt plt' : List Para}
    {ret : Int} (hsort : env.SortOk) (hb : c.heap.sbufs p = some b) (hone : b.Alone m p)
    (hin : ∀ r ∈ exposed m plt, (b.entry 0).HasRange r)
    (hret : restorePointers env (some p) plt c = .ok (ret, plt', c')) :
    (KeepsRanges env m p c'.heap (b.entry 0) (exposed m plt) ↔ InSequence env (b.entry 0) (exposed m plt)) ∧
    ((b.entry 0).len.toNat < 2 ^ 31 → (∀ r ∈ exposed m plt, 0 < r.len.toNat) →
      (KeepsRanges env m p c'.heap (b.entry 0) (exposed m plt) ↔ (exposed m plt).Pairwise Range.Apart)) := by
  obtain ⟨-, hc', -⟩ := restorePointers_returns hb hret
  have hlies : SavedOf.Lies (reached b.segs) (exposed m plt) := fun r hr =>
    ⟨b.entry 0, by rw [hone.reached_segs, hone.segs]; exact List.mem_cons_self, hin r hr⟩
  have hhome : (b.entry 0).holeList.home = (p, 0) := by rw [hone.unholed]
  rw [hone.savedOf.pointers (fun _ => hhome) hlies] at hc'
  have hlive : c'.heap.sbufs p = some (b.withHoles ((exposed m plt).map (holeOf b.segs))) := by
    rw [hc']
    exact Heap.set_sbufs_self
  have hiff := hone.restores_iff hsort hin hlive
  exact ⟨hiff, fun hshort hne => hiff.trans (inSequence_iff_apart hsort hone.fits hin hshort hne)⟩

/-! ### One segment with pointers -/

theorem whole_alone : whole.Alone pointedMem 0 := ⟨rfl, fun _ _ => rfl, by decide, by decide, by decide, rfl⟩

theorem aliasing_restores_whole :
    ∃ ret plt' c', restorePointers Env.sample (some 0) [⟨0x4008, 4, 1⟩] .whole = .ok (ret, plt', c') ∧
    KeepsRanges Env.sample pointedMem 0 c'.heap (whole.entry 0) (exposed pointedMem [⟨0x4008, 4, 1⟩]) := by
  have hret : ∃ ret plt' c', restorePointers Env.sample (some 0) [⟨0x4008, 4, 1⟩] .whole = .ok (ret, plt', c') :=
    ⟨_, _, _, rfl⟩
  obtain ⟨ret, plt', c', hret⟩ := hret
  have hexp : exposed pointedMem [⟨0x4008, 4, 1⟩] = [⟨0x4008, 8⟩, ⟨0x4010, 4⟩] := by decide
  have hin : ∀ r ∈ exposed pointedMem [⟨0x4008, 4, 1⟩], (whole.entry 0).HasRange r := by
    rw [hexp]
    exact List.forall_mem_cons.mpr ⟨⟨by decide, by decide⟩, List.forall_mem_singleton.mpr ⟨by decide, by decide⟩⟩
  refine ⟨ret, plt', c', hret,
    ((aliasing_restores_iff Env.sample_sortOk rfl whole_alone hin hret).2 (by decide) ?_).mpr ?_⟩
  · rw [hexp]
    decide
  · rw [hexp]
    exact List.pairwise_pair.mpr (Range.apart_of_le (by decide) (by decide) (by decide))

/-- The same pointer twice. -/
def twice : List Para := [⟨0x4008, 4, 1⟩, ⟨0x4008, 4, 1⟩]

/-- Two holes over one cell: the walk goes back over the first, and leaves the copy of the segment. -/
theorem aliased_pointers_fault : segments twice 0x4000 0x4020 = [⟨0x4000, 0x20⟩] ∧
    (∀ r ∈ exposed pointedMem twice, (whole.entry 0).HasRange r) ∧
    (∃ ret plt' c', restorePointers Env.sample (some 0) twice .whole = .ok (ret, plt', c') ∧
      ¬KeepsRanges Env.sample pointedMem 0 c'.heap (whole.entry 0) (exposed pointedMem twice)) ∧
    ∃ e c, jsysEncryptStack Env.sample 40 (.frame 0x1010 0x4000 0x4020) twice { loaded with mem := pointedMem } =
      some (.ok e) ∧
      jsysDecryptStack Env.sample (.frame 0x1010 0x4000 0x4020) e.state = .error c ∧ c.fault = .outOfBounds := by
  have hexec : ∃ ret plt' c' crash, restorePointers Env.sample (some 0) twice .whole = .ok (ret, plt', c') ∧
      restoreStackBuf Env.sample c'.heap pointedMem (some 0) = .error crash := ⟨_, _, _, _, rfl, rfl⟩
  obtain ⟨ret, plt', c', crash, hret, hcrash⟩ := hexec
  refine ⟨by decide, ?_, ⟨ret, plt', c', hret, fun hkeeps => ?_⟩, ⟨_, _, rfl, rfl, rfl⟩⟩
  · have hexp : exposed pointedMem twice = [⟨0x4008, 8⟩, ⟨0x4010, 4⟩, ⟨0x4008, 8⟩, ⟨0x4010, 4⟩] := by decide
    rw [hexp]
    intro r hr
    simp only [List.mem_cons, List.not_mem_nil, or_false] at hr
    rcases hr with rfl | rfl | rfl | rfl <;> exact ⟨by decide, by decide⟩
  · obtain ⟨heap', mem', hres, -⟩ := hkeeps pointedMem
    rw [hcrash] at hres
    cases hres

end StackVault
