import StackVault.Theorems.Frame
import StackVault.Theorems.Layout

/-! The scan over arbitrary lists, whose sizes may wrap round and which may lie in the frame themselves. Whether
    it ends depends on the skips alone: from a position the loop goes up to the lowest address at which it skips,
    clears what is below, and goes on from where that skip lands, with the list that memory then holds. The scan
    ends inside the frame exactly when this chain of skips comes to an end and leaves no gap outside the frame. -/

namespace StackVault
open Memory

/-! ### Ended loops -/

section Ended
variable {env : Env} {plt : List Para} {userRsp userRbp : Addr} {segs : List Span} {v v' : Saved} {p : SbufPtr}
  {b : Sbuf}

/-- With memory for every save none of them faults, and the array that is left lists their ranges. -/
theorem saveAll_lists (halloc : env.AllocOk) : ∀ (segs : List Span) {v : Saved} {p : SbufPtr} {b : Sbuf},
    v.stackBuf = some p → v.heap.sbufs p = some b → ∃ v' p' b', saveAll env segs v = .ok v' ∧
      v'.stackBuf = some p' ∧ v'.heap.sbufs p' = some b' ∧ b'.segs.map StackBuf.span = b.segs.map StackBuf.span ++ segs
  | [], v, p, b, hp, hb => ⟨v, p, b, rfl, hp, hb, by rw [List.append_nil]⟩
  | r :: rs, v, p, b, hp, hb => by
    have hsave : ∃ w q c, save env r v = .ok w ∧ w.stackBuf = some q ∧ w.heap.sbufs q = some c ∧
        c.segs.map StackBuf.span = b.segs.map StackBuf.span ++ [r] := by
      by_cases hfull : b.cur = b.cap
      · have hcopy := copy_full v.mem r.start r.len halloc hb hfull
        rw [← hp] at hcopy
        exact ⟨_, _, _, save_of_copy hcopy, rfl, Heap.set_sbufs_self, by rw [Sbuf.spans_push, Sbuf.spans_doubled]; rfl⟩
      · have hcopy := copy_room v.mem r.start r.len halloc hb hfull
        rw [← hp] at hcopy
        exact ⟨_, _, _, save_of_copy hcopy, hp, Heap.set_sbufs_self, Sbuf.spans_push⟩
    obtain ⟨w, q, c, hw, hq, hc, hspans⟩ := hsave
    obtain ⟨v', p', b', hv', hp', hb', hall⟩ := saveAll_lists halloc rs hq hc
    refine ⟨v', p', b', by simp only [saveAll, hw]; exact hv', hp', hb', ?_⟩
    rw [hall, hspans, List.append_assoc, List.singleton_append]

theorem scan_ok_inv {fuel : Nat} (h : scan env plt userRbp fuel (.start userRsp v) = some (.ok v')) :
    ∃ segs, cut plt userRbp fuel userRsp userRsp = some segs ∧ saveAll env segs v = .ok v' := by
  rcases scanWith_stopped h with ⟨segs, hsegs⟩ | ⟨segs, c, hr, -⟩
  · have hcut := (cutWith_const v.mem).symm.trans hsegs
    exact ⟨segs, hcut, Option.some.inj ((scan_of_cut (l := .start userRsp v) hcut).symm.trans h)⟩
  · cases hr

end Ended

/-! ### Chains of skips -/

/-- The lowest address from `j` on at which the scan skips. -/
def NextSkip (plt : List Para) (userRbp j h : Addr) : Prop :=
  j ≤ h ∧ h ≤ userRbp ∧ contains h plt ≠ 0 ∧ ∀ k, j ≤ k → k < h → contains k plt = 0

/-- From `j` on, with memory as it is there, the chain of skips ends, and `ok` holds of the addresses between
    one landing and the next skip. -/
inductive Passes (read : Mem → List Para) (userRbp : Addr) (ok : Addr → Prop) : Mem → Addr → Prop
  | past {m : Mem} {j : Addr} (hj : userRbp < j) : Passes read userRbp ok m j
  | last {m : Mem} {j : Addr} (hj : j ≤ userRbp) (hno : ∀ k, j ≤ k → k ≤ userRbp → contains k (read m) = 0)
      (hok : ∀ x, j ≤ x → x < userRbp → ok x) : Passes read userRbp ok m j
  | skip {m : Mem} {j h : Addr} (hnext : NextSkip (read m) userRbp j h) (hok : ∀ x, j ≤ x → x < h → ok x)
      (hrest : Passes read userRbp ok (cleared (pending j h) m) (h + contains h (read m))) : Passes read userRbp ok m j

section Passes
variable {read : Mem → List Para} {userRbp i j h prevRsp : Addr} {ok : Addr → Prop} {m : Mem} {fuel : Nat}
  {segs : List Span}

/-- The loop goes up to an address before which it does not skip. -/
theorem cutWith_up (hup : h ≤ userRbp) (hc : cutWith read userRbp fuel m h prevRsp = some segs) :
    ∀ n (i : Addr), i.toNat + n = h.toNat → (∀ k, i ≤ k → k < h → contains k (read m) = 0) →
      cutWith read userRbp (fuel + n) m i prevRsp = some segs
  | 0, i, hn, _ => by
    obtain rfl : i = h := BitVec.eq_of_toNat_eq hn
    exact hc
  | n + 1, i, hn, hno => by
    have hlt : i < h := BitVec.lt_def.mpr (by omega)
    have hne : i ≠ userRbp := by bv_omega
    have hi : contains i (read m) = 0 := hno i (BitVec.le_refl i) hlt
    rw [← Nat.add_assoc]
    unfold cutWith
    rw [if_pos (by bv_omega)]
    simp only [hi, ne_eq, not_true_eq_false, if_false, if_neg hne]
    exact cutWith_up hup hc n (i + 1) (by bv_omega) fun k hk => hno k (by bv_omega)

theorem cutWith_done (hi : userRbp < i) : cutWith read userRbp (fuel + 1) m i prevRsp = some [] := by
  unfold cutWith
  rw [if_neg (by bv_omega)]

theorem Passes.cut (hb : userRbp.toNat + 1 < 2 ^ 64) (hp : Passes read userRbp ok m j) :
    ∃ fuel segs, cutWith read userRbp fuel m j j = some segs ∧ ∀ x, Covers segs x → ok x := by
  induction hp with
  | past hj => exact ⟨1, [], cutWith_done hj, fun x hx => absurd hx covers_nil⟩
  | @last m j hj hno hok =>
    have hend : cutWith read userRbp 2 m userRbp j = some (pending j userRbp ++ []) := by
      unfold cutWith
      have hzero : contains userRbp (read m) = 0 := hno userRbp hj (BitVec.le_refl _)
      simp only [hzero, ne_eq, not_true_eq_false, if_false, if_pos (BitVec.le_refl userRbp), if_true]
      rw [cutWith_done (by bv_omega), Option.map_some]
    have hle := BitVec.le_def.mp hj
    refine ⟨_, _, cutWith_up (BitVec.le_refl _) hend (userRbp.toNat - j.toNat) j (by omega)
      fun k hk hlt => hno k hk (by bv_omega), fun x hx => ?_⟩
    rw [List.append_nil, covers_pending hj] at hx
    exact hok x hx.1 hx.2
  | @skip m j h hnext hok _ ih =>
    obtain ⟨hjh, hup, hs, hno⟩ := hnext
    obtain ⟨fuel, segs, hc, hin⟩ := ih
    have hskip : cutWith read userRbp (fuel + 1) m h j = some (pending j h ++ segs) := by
      unfold cutWith
      simp only [if_pos hup, if_pos hs, hc, Option.map_some]
    have hle := BitVec.le_def.mp hjh
    refine ⟨_, _, cutWith_up hup hskip (h.toNat - j.toNat) j (by omega) hno, fun x hx => ?_⟩
    rcases covers_append.mp hx with hx | hx
    · rw [covers_pending hjh] at hx
      exact hok x hx.1 hx.2
    · exact hin x hx

/-- A walk that ends has followed a chain that ends. -/
theorem passes_of_cut : ∀ (fuel : Nat) {m : Mem} {i prevRsp : Addr} {segs : List Span}, prevRsp ≤ i →
    (∀ k, prevRsp ≤ k → k < i → contains k (read m) = 0) → i ≤ userRbp ∨ prevRsp = i →
    cutWith read userRbp fuel m i prevRsp = some segs → (∀ x, Covers segs x → ok x) → Passes read userRbp ok m prevRsp
  | 0, _, _, _, _, _, _, _, hc, _ => by cases hc
  | fuel + 1, m, i, prevRsp, segs, hp, hno, hor, hc, hin => by
    by_cases hi : i ≤ userRbp
    · unfold cutWith at hc
      simp only [if_pos hi] at hc
      by_cases hs : contains i (read m) = 0
      · have hupto : ∀ k, prevRsp ≤ k → k ≤ i → contains k (read m) = 0 := by
          intro k hk hle
          by_cases hk' : k < i
          · exact hno k hk hk'
          · obtain rfl : k = i := by bv_omega
            exact hs
        simp only [hs, ne_eq, not_true_eq_false, if_false] at hc
        by_cases he : i = userRbp
        · -- The loop flushes at the end of the frame, which no skip comes before.
          subst he
          simp only [if_true, Option.map_eq_some_iff] at hc
          obtain ⟨rest, -, rfl⟩ := hc
          exact Passes.last hp hupto fun x h1 h2 =>
            hin x (covers_append.mpr (Or.inl ((covers_pending hp).mpr ⟨h1, h2⟩)))
        · simp only [if_neg he] at hc
          exact passes_of_cut fuel (by bv_omega) (fun k hk hlt => hupto k hk (by bv_omega))
            (Or.inl (by bv_omega)) hc hin
      · -- The loop skips at `i`, the lowest address from `prev_rsp` on at which it does.
        simp only [ne_eq, hs, not_false_eq_true, if_true, Option.map_eq_some_iff] at hc
        obtain ⟨rest, hr, rfl⟩ := hc
        refine Passes.skip ⟨hp, hi, hs, hno⟩
          (fun x h1 h2 => hin x (covers_append.mpr (Or.inl ((covers_pending hp).mpr ⟨h1, h2⟩)))) ?_
        exact passes_of_cut fuel (BitVec.le_refl _) (fun k hk hlt => by bv_omega) (Or.inr rfl) hr fun x hx =>
          hin x (covers_append.mpr (Or.inr hx))
    · obtain rfl := hor.resolve_left hi
      exact Passes.past (BitVec.not_le.mp hi)

theorem passes_iff (hb : userRbp.toNat + 1 < 2 ^ 64) : Passes read userRbp ok m j ↔
    ∃ fuel segs, cutWith read userRbp fuel m j j = some segs ∧ ∀ x, Covers segs x → ok x :=
  ⟨Passes.cut hb, fun ⟨fuel, _, hc, hin⟩ =>
    passes_of_cut fuel (BitVec.le_refl _) (fun k hk hlt => by bv_omega) (Or.inr rfl) hc hin⟩

end Passes

/-! ### Scans -/

/-- For every save buffer, and however the allocations go, the scan over the list at `arg` in memory `m` ends as
    saves of ranges whose addresses all have `ok`: no other byte is read into a segment or changed. -/
def Stays (ok : Addr → Prop) (m : Mem) (arg userRsp userRbp : Addr) : Prop :=
  ∀ (env : Env) (stackBuf : Option SbufPtr) (heap : Heap), ∃ fuel segs,
    User.scan env arg userRbp fuel (.start userRsp ⟨stackBuf, heap, m⟩) = some (saveAll env segs ⟨stackBuf, heap, m⟩) ∧
    ∀ x, Covers segs x → ok x

section Stays
variable {ok : Addr → Prop} {m : Mem} {arg userRsp userRbp : Addr}

/-- A buffer to scan with. -/
def Saved.sample (mem : Mem) : Saved := ⟨some 0, (initStackBuf Env.sample 32 loaded.heap).2, mem⟩

/-- With memory for every save a scan that has ended is the saves of the ranges of its walk. -/
theorem scan_sample_inv {fuel : Nat} {r : Except Crash Saved}
    (h : User.scan Env.sample arg userRbp fuel (.start userRsp (.sample m)) = some r) :
    ∃ segs v', cutWith (listAt arg) userRbp fuel m userRsp userRsp = some segs ∧
      saveAll Env.sample segs (.sample m) = .ok v' ∧ r = .ok v' := by
  rcases scanWith_stopped h with ⟨segs, hcut⟩ | ⟨segs, c, -, hc⟩
  · obtain ⟨v', -, -, hall, -⟩ := saveAll_lists Env.sample_allocOk segs (v := .sample m) rfl rfl
    have hr := (scanWith_of_cut (l := .start userRsp (.sample m)) hcut).symm.trans h
    exact ⟨segs, v', hcut, hall, (Option.some.inj hr).symm.trans hall⟩
  · obtain ⟨v', -, -, hall, -⟩ := saveAll_lists Env.sample_allocOk segs (v := .sample m) rfl rfl
    cases hall.symm.trans hc

theorem stays_iff : Stays ok m arg userRsp userRbp ↔
    userRbp.toNat + 1 < 2 ^ 64 ∧ Passes (listAt arg) userRbp ok m userRsp := by
  constructor
  · intro h
    obtain ⟨fuel, segs, hscan, hin⟩ := h Env.sample (some 0) (initStackBuf Env.sample 32 loaded.heap).2
    obtain ⟨segs', w, hcut, hall', hw⟩ := scan_sample_inv hscan
    -- The ranges can be read off the buffer, so they are those of the walk.
    obtain ⟨v', p, b, hall, hp, hb, hspans⟩ := saveAll_lists Env.sample_allocOk segs (v := .sample m) rfl rfl
    obtain ⟨w', q, c, hall'', hq, hc, hspans'⟩ := saveAll_lists Env.sample_allocOk segs' (v := .sample m) rfl rfl
    obtain rfl : w = w' := Except.ok.inj (hall'.symm.trans hall'')
    obtain rfl : v' = w := Except.ok.inj (hall.symm.trans hw)
    obtain rfl : p = q := Option.some.inj (hp.symm.trans hq)
    obtain rfl : b = c := Option.some.inj (hb.symm.trans hc)
    have hlt : userRbp.toNat + 1 < 2 ^ 64 := scanWith_ok_lt (hscan.trans (congrArg some hall))
    refine ⟨hlt, (passes_iff hlt).mpr ⟨fuel, segs, ?_, hin⟩⟩
    rw [List.append_cancel_left (hspans.symm.trans hspans')]
    exact hcut
  · rintro ⟨hb, hp⟩ env stackBuf heap
    obtain ⟨fuel, segs, hcut, hin⟩ := (passes_iff hb).mp hp
    exact ⟨fuel, segs, scanWith_of_cut (l := .start userRsp ⟨stackBuf, heap, m⟩) hcut, hin⟩

end Stays

/-- Without wrapping, only the last address keeps the scan from its end, and it stays in the frame. -/
theorem passes_of_noWrap {userRbp : Addr} {m : Mem} {arg : Addr} (userRsp : Addr) (hw : NoWrap (listAt arg m))
    (hout : OutsideFrame arg m userRsp userRbp) (hb : userRbp.toNat + 1 < 2 ^ 64) :
    Passes (listAt arg) userRbp (fun x => userRsp ≤ x ∧ x < userRbp) m userRsp := by
  have hin : ∀ x, Covers (segments (listAt arg m) userRsp userRbp) x → userRsp ≤ x ∧ x < userRbp := fun x hx =>
    (segments_inner userRsp hw hb).bounds hx
  have hspares : Spares arg m (segments (listAt arg m) userRsp userRbp) := fun x hx hc => hout x hx (hin x hc)
  exact (passes_iff hb).mpr ⟨_, _, hspares.cut_iff.mpr (cut_segments userRsp hw hb), hin⟩

/-- The scan of a frame ends and stays in it if and only if the frame does not end at the last address and
    the chain of skips from its begin on ends and leaves no gap outside it; so it does whenever the list lies
    outside the frame and no by-value entry wraps round. -/
theorem scan_contained_iff (m : Mem) (arg userRsp userRbp : Addr) :
    (Stays (fun x => userRsp ≤ x ∧ x < userRbp) m arg userRsp userRbp ↔
      userRbp.toNat + 1 < 2 ^ 64 ∧ Passes (listAt arg) userRbp (fun x => userRsp ≤ x ∧ x < userRbp) m userRsp) ∧
    (NoWrap (listAt arg m) → OutsideFrame arg m userRsp userRbp →
      (Stays (fun x => userRsp ≤ x ∧ x < userRbp) m arg userRsp userRbp ↔ userRbp.toNat + 1 < 2 ^ 64)) :=
  ⟨stays_iff, fun hw hout => stays_iff.trans (and_iff_left_of_imp (passes_of_noWrap userRsp hw hout))⟩

/-- A skip from `0x1008` back to `0x1000`, where the scan came from. -/
def backwards : List Para := [⟨0x1008, 0xfffffffffffffff8, 0⟩]

/-- The list in memory. -/
def backwardsMem : Mem := putList 0x9000 0x9010 backwards fun _ => 0x41

theorem listAt_backwards {m : Mem} (hm : ∀ x, 0x1010 ≤ x → m x = backwardsMem x) : listAt 0x9000 m = backwards := by
  have hspans : listSpans 0x9000 backwardsMem = [⟨0x9000, 4⟩, ⟨0x9008, 8⟩, ⟨0x9010, 20⟩] :=
    LaidApart.listSpans_putList (by decide)
  have hsame : SameList 0x9000 backwardsMem m := by
    rintro x ⟨r, hr, hx⟩
    rw [hspans] at hr
    simp only [List.mem_cons, List.not_mem_nil, or_false] at hr
    refine hm x ?_
    rcases hr with rfl | rfl | rfl <;> rw [Range.mem_iff (by decide)] at hx <;> bv_omega
  exact hsame.listAt.trans (LaidApart.listAt_putList (by decide))

/-- A frame that ends at the last address is scanned without end, and so is one with a skip that wraps
    round to its begin. -/
theorem scan_endless :
    (∀ env m arg stackBuf heap fuel v',
      User.scan env arg 0xffffffffffffffff fuel (.start 0xfffffffffffffff0 ⟨stackBuf, heap, m⟩) ≠
      some (.ok v')) ∧
    (∀ m arg, ¬Stays (fun x => 0xfffffffffffffff0 ≤ x ∧ x < 0xffffffffffffffff) m arg 0xfffffffffffffff0
      0xffffffffffffffff) ∧
    ¬Stays (fun x => 0x1000 ≤ x ∧ x < 0x1010) backwardsMem 0x9000 0x1000 0x1010 := by
  refine ⟨fun env m arg stackBuf heap fuel v' hscan => absurd (scanWith_ok_lt hscan) (by decide),
    fun m arg h => absurd (stays_iff.mp h).1 (by decide), fun h => ?_⟩
  -- A chain of skips from `0x1000` has another one from `0x1000` in it.
  have hno : ∀ m j, Passes (listAt 0x9000) 0x1010 (fun x => 0x1000 ≤ x ∧ x < 0x1010) m j →
      (∀ x, 0x1010 ≤ x → m x = backwardsMem x) → j ≠ 0x1000 := by
    intro m j hp
    induction hp with
    | past hj =>
      rintro - rfl
      exact absurd hj (by decide)
    | last hj hno hok =>
      rintro hm rfl
      rw [listAt_backwards hm] at hno
      exact absurd (hno 0x1008 (by decide) (by decide)) (by decide)
    | @skip m j h hnext hok hrest ih =>
      rintro hm rfl
      rw [listAt_backwards hm] at ih hnext
      obtain ⟨hle, hup, hs, -⟩ := hnext
      obtain ⟨p, hp, -, rfl, -⟩ := contains_ne_zero hs
      obtain rfl := List.mem_singleton.mp hp
      refine ih (fun x hx => ?_) (by decide)
      rw [← hm x hx, cleared, if_neg]
      rw [covers_pending hle]
      bv_omega
  exact hno _ 0x1000 (stays_iff.mp h).2 (fun _ _ => rfl) rfl

end StackVault
