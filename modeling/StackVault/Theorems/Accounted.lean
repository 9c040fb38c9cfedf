import StackVault.Theorems.Confidential
import StackVault.Theorems.Counted
import StackVault.Theorems.Exposed

/-! What a chase writes, whether it goes to its end or stops part of the way. A range is written back only
    when the look-up has found it, and the look-up reads what was saved; so the ranges that the chase writes
    are among those that the parameter list exposes, and each is a part of one segment. -/

namespace StackVault
open Memory

/-- The look-up of the range gives bytes. -/
def Found (segs : List StackBuf) (r : Span) : Prop := ∃ src, lookUp segs r = .ok src

/-- A range that the look-up takes for a part of a segment does not wrap round. -/
def FindsUnwrapped (segs : List StackBuf) (rs : List Span) : Prop :=
  ∀ r ∈ rs, findInStackBuf r.start r.len segs ≠ 0 → r.start.toNat + r.len.toNat < 2 ^ 64

/-- Copies of their own for segments of `m`. -/
structure CopiesOf (m : Mem) (segs : List StackBuf) : Prop where
  separate : Separate segs
  data : ∀ e ∈ segs, e.Saves m
  span : ∀ e ∈ segs, e.start.toNat + e.len.toNat < 2 ^ 64

theorem SavedOf.copiesOf {m : Mem} {segs : List StackBuf} (h : SavedOf m segs) : CopiesOf m segs :=
  ⟨h.separate, h.data, h.span⟩

section Trails
variable {m : Mem} {segs : List StackBuf} {home : Prop} [Decidable home] {x y size : Addr} {r : Span}
  {rs ss : List Span} {src : Addr → Byte} {tmp : Para}

theorem Found.ne_zero (h : Found segs r) : findInStackBuf r.start r.len segs ≠ 0 := by
  obtain ⟨src, hl⟩ := h
  exact (kread_inv hl).1

theorem findsUnwrapped_cons : FindsUnwrapped segs (r :: rs) ↔
    (findInStackBuf r.start r.len segs ≠ 0 → r.start.toNat + r.len.toNat < 2 ^ 64) ∧ FindsUnwrapped segs rs :=
  List.forall_mem_cons

theorem findsUnwrapped_append : FindsUnwrapped segs (rs ++ ss) ↔ FindsUnwrapped segs rs ∧ FindsUnwrapped segs ss :=
  List.forall_mem_append

theorem writeBackTrail_logs : (writeBackTrail segs home r).Logs fun s => s = r ∧ Found segs s := by
  intro s hs
  unfold writeBackTrail at hs
  cases hl : lookUp segs r with
  | error f =>
    rw [hl] at hs
    cases hs
  | ok src =>
    rw [hl] at hs
    obtain rfl := List.mem_singleton.mp hs
    exact ⟨rfl, src, hl⟩

theorem cellTrail_logs : (cellTrail segs home x).Logs fun s => s = ⟨x, 8⟩ ∧ Found segs s :=
  writeBackTrail_logs.bind fun _ _ => Trail.Logs.pure

theorem targetTrail_logs : (targetTrail segs home x size).Logs fun s => s = ⟨x, size⟩ ∧ Found segs s := by
  unfold targetTrail
  split
  · exact Trail.Logs.pure
  · exact writeBackTrail_logs.bind fun _ _ => Trail.Logs.pure

namespace CopiesOf

/-- What a range that is found and does not wrap is a part of. -/
theorem part (h : CopiesOf m segs) (hfound : Found segs r) (hr : r.start.toNat + r.len.toNat < 2 ^ 64) :
    ∃ e ∈ segs, e.HasRange r ∧ holeOf segs r = ⟨e.buf + (r.start - e.start), r.len⟩ ∧
      e.Holds (holeOf segs r).start (holeOf segs r).len := by
  obtain ⟨e, he, hlo, hup, hfind⟩ := find_inv hfound.ne_zero
  have hrsum : (r.start + r.len).toNat = r.start.toNat + r.len.toNat := by rw [BitVec.toNat_add, Nat.mod_eq_of_lt hr]
  have hesum : (e.start + e.len).toNat = e.start.toNat + e.len.toNat := by
    rw [BitVec.toNat_add, Nat.mod_eq_of_lt (h.span e he)]
  rw [BitVec.le_def, hrsum, hesum] at hup
  obtain ⟨-, hholds⟩ := h.separate.place he hlo hup
  rw [holeOf, hfind]
  exact ⟨e, he, ⟨BitVec.le_def.mp hlo, hup⟩, rfl, hholds⟩

theorem cell_result (h : CopiesOf m segs) (hx : FindsUnwrapped segs [⟨x, 8⟩])
    (hok : (cellTrail segs home x).result = .ok y) :
    y = load64 m x := by
  obtain ⟨src, hw, hy⟩ := Trail.bind_result_eq_ok hok
  cases hy
  have hl := writeBackTrail_ok hw
  have hfound : Found segs ⟨x, 8⟩ := ⟨src, hl⟩
  exact load64_shift (h.separate.lookUp_saved h.span h.data (hx _ List.mem_cons_self hfound.ne_zero) hl)

theorem chase_result (h : CopiesOf m segs) : ∀ {n : Nat} {x : Addr}, FindsUnwrapped segs (cells m n x) →
    (chaseTrail segs home n x).result = .ok y → y = follow m n x
  | 0, _, _, hok => (Except.ok.inj hok).symm
  | n + 1, x, hx, hok => by
    obtain ⟨hcell, hrest⟩ := findsUnwrapped_cons.mp hx
    obtain ⟨z, hz, hok⟩ := Trail.bind_result_eq_ok hok
    rw [h.cell_result (List.forall_mem_singleton.mpr hcell) hz] at hok
    have hy := h.chase_result hrest hok
    exact hy

theorem chase_logs (h : CopiesOf m segs) : ∀ {n : Nat} {x : Addr}, FindsUnwrapped segs (cells m n x) →
    (chaseTrail segs home n x).Logs fun s => s ∈ cells m n x ∧ Found segs s
  | 0, _, _ => Trail.Logs.pure
  | n + 1, x, hx => by
    obtain ⟨hcell, hrest⟩ := findsUnwrapped_cons.mp hx
    refine (cellTrail_logs.mono fun s hs => ⟨hs.1 ▸ List.mem_cons_self, hs.2⟩).bind fun y hy => ?_
    rw [h.cell_result (List.forall_mem_singleton.mpr hcell) hy]
    exact (h.chase_logs hrest).mono fun s hs => ⟨List.mem_cons_of_mem _ hs.1, hs.2⟩

theorem pointer_logs (h : CopiesOf m segs) (hp : tmp.pointer ≠ 0) (hx : FindsUnwrapped segs (tmp.exposed m)) :
    (pointerTrail segs home tmp).Logs fun s => s ∈ tmp.exposed m ∧ Found segs s := by
  rw [Para.exposed, if_neg hp] at hx ⊢
  obtain ⟨hcells, -⟩ := findsUnwrapped_append.mp hx
  by_cases h0 : findInStackBuf tmp.addr 8 segs = 0
  · rw [pointerTrail, if_pos h0]
    exact Trail.Logs.pure
  · rw [pointerTrail_found segs home hp h0]
    refine ((h.chase_logs hcells).mono fun s hs => ⟨List.mem_append_left _ hs.1, hs.2⟩).bind fun z hz => ?_
    rw [h.chase_result hcells hz]
    exact (targetTrail_logs.mono fun s hs => ⟨List.mem_append_right _ (hs.1 ▸ List.mem_cons_self), hs.2⟩).bind
      fun _ _ => Trail.Logs.pure

/-- A chase logs nothing that is not exposed, and nothing that is not found. -/
theorem pointers_logs (h : CopiesOf m segs) : ∀ {plt : List Para}, FindsUnwrapped segs (exposed m plt) →
    (pointersTrail segs home plt).Logs fun s => s ∈ exposed m plt ∧ Found segs s
  | [], _ => Trail.Logs.pure
  | tmp :: rest, hx => by
    obtain ⟨hhead, hrest⟩ := findsUnwrapped_append.mp hx
    have hlater : ∀ s, s ∈ exposed m rest ∧ Found segs s → s ∈ exposed m (tmp :: rest) ∧ Found segs s := fun s hs =>
      ⟨List.mem_append_right _ hs.1, hs.2⟩
    unfold pointersTrail
    split
    · exact ((h.pointers_logs hrest).mono hlater).bind fun _ _ => Trail.Logs.pure
    · next h0 =>
      refine ((h.pointer_logs h0 hhead).mono fun s hs => ⟨List.mem_append_left _ hs.1, hs.2⟩).bind fun found _ => ?_
      cases found with
      | false => exact Trail.Logs.pure
      | true => exact ((h.pointers_logs hrest).mono hlater).bind fun _ _ => Trail.Logs.pure

end CopiesOf
end Trails

/-! ### The account -/

section Account
variable {env : Env} {m : Mem} {p : SbufPtr} {b : Sbuf} {c c' d : Chase} {arg x : Addr} {ret : Int} {ts : List Addr}
  {r : Span} {fuel : Nat}

/-- The chase from `c` on has come to `d`, and the depths that it has counted down are those of `ts`: it has found what
    it has written back, each range has a hole, and the rest of memory is as it was. -/
structure Accounts (m : Mem) (p : SbufPtr) (b : Sbuf) (c : Chase) (ts : List Addr) (d : Chase) : Prop where
  live : d.heap.sbufs p = some (b.withHoles (d.written.map (holeOf b.segs)))
  found : ∀ r ∈ d.written, Found b.segs r
  mem : ∀ x, ¬Covers (ts.map depthSpan) x → d.mem x = if Covers d.written x then m x else c.mem x

theorem CopiesOf.accounts (h : CopiesOf m b.segs) (hb : c.heap.sbufs p = some b) (hnew : c.written = [])
    (hreach : User.Reaches env (some p) c ts d) (hwrap : ∀ r ∈ d.written, r.start.toNat + r.len.toNat < 2 ^ 64) :
    Accounts m p b c ts d := by
  induction hreach with
  | start =>
    refine ⟨?_, ?_, fun x _ => ?_⟩
    · rw [hnew, List.map_nil, Sbuf.withHoles_nil]
      exact hb
    · rw [hnew]
      exact fun r hr => absurd hr List.not_mem_nil
    · rw [hnew, if_neg covers_nil]
  | @write ts d d' q b' y len hreach hd hw ih =>
    obtain ⟨src, hk, -, rfl⟩ := writeBack_inv hw
    have hold := ih fun r hr => hwrap r (List.mem_append_left _ hr)
    obtain ⟨hq, hb'⟩ := Heap.deref_eq_ok.mp hd
    obtain rfl : p = q := Option.some.inj hq
    obtain rfl : b.withHoles (d.written.map (holeOf b.segs)) = b' := Option.some.inj (hold.live.symm.trans hb')
    -- The look-up and what it reads do not depend on the holes that are there.
    have hsame := b.sameBytes_withHoles (d.written.map (holeOf b.segs))
    rw [hsame.find, hsame.kread] at hk
    have hl : lookUp b.segs ⟨y, len⟩ = .ok src := hk
    have hsrc :=
      h.separate.lookUp_saved h.span h.data (hwrap _ (List.mem_append_right _ (List.mem_singleton_self _))) hl
    refine ⟨?_, fun r hr => ?_, fun x hx => ?_⟩
    · refine Heap.set_sbufs_self.trans (congrArg some ?_)
      rw [hsame.find, Sbuf.addHole_withHoles, List.map_append]
      rfl
    · rcases List.mem_append.mp hr with hr | hr
      · exact hold.found r hr
      · exact List.mem_singleton.mp hr ▸ ⟨src, hl⟩
    · refine (blit_apply hsrc).trans ?_
      rw [hold.mem x hx]
      by_cases hr : x ∈ (⟨y, len⟩ : Span)
      · rw [if_pos hr, if_pos ⟨_, List.mem_append_right _ (List.mem_singleton_self _), hr⟩]
      · rw [if_neg hr]
        exact if_congr (by simp [covers_append, covers_cons, covers_nil, hr]) rfl rfl
  | @count ts d hreach tmp ih =>
    have hold := ih hwrap
    refine ⟨hold.live, hold.found, fun x hx => ?_⟩
    rw [List.map_append, covers_append, not_or] at hx
    have hoff : x ∉ depthSpan tmp := fun hxt => hx.2 ⟨_, List.mem_singleton_self _, hxt⟩
    exact (store32_of_not_mem hoff).trans (hold.mem x hx.1)

/-- Whatever `restore_pointers` returns, and wherever the list lies, it has changed user memory on the ranges of its
    new holes and on the depths of pointer entries of the list. Each hole is the place of its range in the copy of one
    segment, and the range has got the saved bytes, but for depths that lie in it. -/
theorem writes_accounted (h : CopiesOf m b.segs) (hb : c.heap.sbufs p = some b) (hnew : c.written = [])
    (hret : User.restorePointers env (some p) arg fuel c = some (.ok (ret, c')))
    (hwrap : ∀ r ∈ c'.written, r.start.toNat + r.len.toNat < 2 ^ 64) :
    ∃ ts : List Addr, c'.heap.sbufs p = some (b.withHoles (c'.written.map (holeOf b.segs))) ∧
      (∀ r ∈ c'.written, ∃ e ∈ b.segs, e.HasRange r ∧ holeOf b.segs r = ⟨e.buf + (r.start - e.start), r.len⟩ ∧
        e.Holds (holeOf b.segs r).start (holeOf b.segs r).len ∧
        ∀ k, k < r.len → ¬Covers (ts.map depthSpan) (r.start + k) →
        c'.mem (r.start + k) = e.read (holeOf b.segs r).start k) ∧
      (∀ x, ¬Covers (c'.written ++ ts.map depthSpan) x → c'.mem x = c.mem x) ∧
      -- The entries are those of the list as the call comes to them, or of the list at the start when it spares it.
      (∀ t ∈ ts, ∃ m' : Mem, (∀ x, ¬Covers (c'.written ++ ts.map depthSpan) x → m' x = c.mem x) ∧
        User.PointerAt arg m' t) ∧
      (Formed arg c.mem → (∀ r ∈ c'.written, Clear arg c.mem r) →
        ∀ t ∈ ts, User.PointerAt arg c.mem t ∧ ∀ r ∈ c'.written, ∀ x ∈ r, x ∉ depthSpan t) := by
  obtain ⟨ts, hwalks⟩ := User.restoreFrom_walks hret
  have hacc := h.accounts hb hnew hwalks.reaches hwrap
  refine ⟨ts, hacc.live, fun r hr => ?_, fun x hx => ?_, fun t ht => ?_, fun hform hclear t ht => ?_⟩
  · obtain ⟨e, he, hrange, hhole, hholds⟩ := h.part (hacc.found r hr) (hwrap r hr)
    refine ⟨e, he, hrange, hhole, hholds, fun k hk hoff => ?_⟩
    have hin : r.start - e.start + k < e.len := by
      have hsub : (r.start - e.start).toNat = r.start.toNat - e.start.toNat :=
        BitVec.toNat_sub_of_le (BitVec.le_def.mpr hrange.1)
      have hlo := hrange.1
      have hup := hrange.2
      have hlen := e.len.isLt
      rw [BitVec.lt_def] at hk ⊢
      rw [BitVec.toNat_add, hsub, Nat.mod_eq_of_lt (by omega)]
      omega
    have haddr : e.start + (r.start - e.start + k) = r.start + k := by abel
    rw [hacc.mem _ hoff, if_pos ⟨r, hr, Range.offset_mem.mpr hk⟩, StackBuf.read, hhole, add_sub_cancel_left,
      h.data e he _ hin, haddr]
  · rw [covers_append, not_or] at hx
    rw [hacc.mem x hx.2, if_neg hx.1]
  · obtain ⟨pre, d, hpre, hwritten, hreach, hpointer⟩ := hwalks.pointers t ht
    refine ⟨d.mem, fun x hx => ?_, hpointer⟩
    rw [covers_append, not_or] at hx
    have hd := h.accounts hb hnew hreach fun r hr => hwrap r (hwritten.mem hr)
    have hoff : ¬Covers (pre.map depthSpan) x := fun hpx => hx.2 (hpx.mono (hpre.map depthSpan).subset)
    rw [hd.mem x hoff, if_neg fun hdx => hx.1 (hdx.mono hwritten.subset)]
  · obtain ⟨j, -, hj, rfl, h0⟩ := hwalks.keeps hform rfl rfl (fun _ _ _ => rfl) hclear t ht
    refine ⟨⟨j, hj, rfl, h0⟩, fun r hr x hxr hxt => hclear r hr x hxr ?_⟩
    exact covers_listSpans_of_depth (mem_depthSpans.mpr ⟨j, hj, hxt⟩)

end Account

/-! ### One segment with pointers -/

/-- The frame `[0x4000, 0x4020)` of `pointedMem`, saved as one segment. -/
def whole : Sbuf where
  cur := 1
  cap := 32
  entry _ := { buf := 0x8000, data := fun k => pointedMem (0x4000 + k), start := 0x4000, len := 0x20,
               holeList := { home := (0, 0), holes := [] } }

theorem whole_segs : whole.segs = [whole.entry 0] := rfl

theorem whole_savedOf : SavedOf pointedMem whole.segs := by
  rw [whole_segs]
  refine ⟨⟨List.forall_mem_singleton.mpr (by decide), List.pairwise_singleton _ _⟩, ?_,
    List.forall_mem_singleton.mpr (by decide),
    List.pairwise_singleton _ _, List.forall_mem_singleton.mpr (by decide)⟩
  exact List.forall_mem_singleton.mpr fun _ _ => rfl

/-- The chase over it, with the frame cleared. -/
def Chase.whole : Chase :=
  { mem := fun _ => 0x30, heap := { next := 2, sbufs := fun _ => some StackVault.whole }, written := [] }

/-- The same with a list in memory, outside the frame. -/
def Chase.listed (plt : List Para) : Chase := { Chase.whole with mem := putList 0x7000 0x7010 plt fun _ => 0x30 }

/-- A pointer of the frame, and one whose cell lies outside it. -/
def stray : List Para := [⟨0x4008, 4, 1⟩, ⟨0x9000, 4, 1⟩]

theorem listSpans_stray :
    listSpans 0x7000 (Chase.listed stray).mem = [⟨0x7000, 4⟩, ⟨0x7008, 8⟩, ⟨0x7010, 20⟩, ⟨0x7028, 20⟩] :=
  LaidApart.listSpans_putList (by decide)

theorem formed_stray : Formed 0x7000 (Chase.listed stray).mem :=
  Formed.of_beside (by rw [Chase.listed, LaidApart.depthSpans_putList (by decide)]; decide)

/-- It is given up at the second entry, behind the write-backs of the first one. -/
theorem stray_given_up : ∃ c', User.restorePointers Env.sample (some 0) 0x7000 4 (.listed stray) = some (.ok (-1, c')) ∧
    c'.written = [⟨0x4008, 8⟩, ⟨0x4010, 4⟩] ∧ c'.mem 0x7020 = 0 ∧ c'.mem 0x7038 = 0 := ⟨_, rfl, rfl, rfl, rfl⟩

theorem writes_accounted_stray :
    ∃ c', User.restorePointers Env.sample (some 0) 0x7000 4 (.listed stray) = some (.ok (-1, c')) ∧
    ∃ ts : List Addr, c'.heap.sbufs 0 = some (whole.withHoles (c'.written.map (holeOf whole.segs))) ∧
      (∀ x, ¬Covers (c'.written ++ ts.map depthSpan) x → c'.mem x = (Chase.listed stray).mem x) ∧
      ∀ t ∈ ts, User.PointerAt 0x7000 (Chase.listed stray).mem t := by
  obtain ⟨c', hret, hwritten, -⟩ := stray_given_up
  have hwrap : ∀ r ∈ c'.written, r.start.toNat + r.len.toNat < 2 ^ 64 := by
    rw [hwritten]
    decide
  have hspares : Spares 0x7000 (Chase.listed stray).mem c'.written :=
    .of_beside (by rw [hwritten, listSpans_stray]; decide)
  have hclear : ∀ r ∈ c'.written, Clear 0x7000 (Chase.listed stray).mem r := fun r hr x hxr hx =>
    hspares x hx ⟨r, hr, hxr⟩
  obtain ⟨ts, hlive, -, hkept, -, hspared⟩ := writes_accounted whole_savedOf.copiesOf rfl rfl hret hwrap
  exact ⟨c', hret, ts, hlive, hkept, fun t ht => (hspared formed_stray hclear t ht).1⟩

/-- Both entries have been counted down, in ranges of no hole. -/
theorem counted_unaccounted :
    ∃ c', User.restorePointers Env.sample (some 0) 0x7000 4 (.listed stray) = some (.ok (-1, c')) ∧
    c'.heap.sbufs 0 = some (whole.withHoles [⟨0x8008, 8⟩, ⟨0x8010, 4⟩]) ∧ c'.written = [⟨0x4008, 8⟩, ⟨0x4010, 4⟩] ∧
    ∀ x ∈ [(0x7020 : Addr), 0x7038], ¬Covers c'.written x ∧ (Chase.listed stray).mem x = 1 ∧ c'.mem x = 0 := by
  obtain ⟨c', hret, hwritten, hfirst, hsecond⟩ := stray_given_up
  obtain ⟨ts, hwalks⟩ := User.restoreFrom_walks hret
  have hacc := whole_savedOf.copiesOf.accounts rfl rfl hwalks.reaches (by rw [hwritten]; decide)
  refine ⟨c', hret, ?_, hwritten, ?_⟩
  · rw [hacc.live, hwritten]
    rfl
  · rw [hwritten]
    refine List.forall_mem_cons.mpr
      ⟨⟨?_, by decide, hfirst⟩, List.forall_mem_singleton.mpr ⟨?_, by decide, hsecond⟩⟩
    · decide
    · decide

end StackVault
