import StackVault.Theorems.Walk

/-! By-value parameters over arbitrary lists. `contains` answers for the address of an entry and no other,
    and the first entry with an address answers for all of them; so the scan keeps the entries that it
    comes to the begin of. Every by-value byte of a frame survives, whatever the rest of memory, exactly when
    such entries, without overlaps, have them all. A list that lies in the frame itself may be cleared before
    the scan has come to all its entries. -/

namespace StackVault
open Memory

/-- Memory when the saves stopped. -/
def memAfter : Except Crash Saved → Mem
  | .ok v => v.mem
  | .error c => c.mem

/-- Saves that stop have cleared the ranges up to some one. -/
theorem saveAll_after (env : Env) : ∀ (segs : List Span) (v : Saved),
    ∃ done, done <+: segs ∧ memAfter (saveAll env segs v) = cleared done v.mem
  | [], v => ⟨[], List.nil_prefix, (cleared_nil v.mem).symm⟩
  | r :: rs, v => by
    rcases save_cases env r v with ⟨w, hw, hmem⟩ | ⟨f, hf⟩
    · obtain ⟨done, hdone, hafter⟩ := saveAll_after env rs w
      refine ⟨r :: done, List.cons_prefix_cons.mpr ⟨rfl, hdone⟩, ?_⟩
      have hfirst : w.mem = cleared [r] v.mem := by
        rw [hmem]
        funext x
        simp [fill, cleared]
      rw [show r :: done = [r] ++ done from rfl, cleared_append, ← hfirst, ← hafter]
      simp only [saveAll, hw]
      rfl
    · refine ⟨[], List.nil_prefix, ?_⟩
      rw [cleared_nil]
      simp only [saveAll, hf]
      rfl

/-- For every save buffer, and however the allocations go, the scan over the list at `arg` in memory `m` ends, and
    each byte of the frame that the list passes by value has its value. -/
def Survives (m : Mem) (arg userRsp userRbp : Addr) : Prop :=
  ∀ (env : Env) (stackBuf : Option SbufPtr) (heap : Heap), ∃ fuel r,
    User.scan env arg userRbp fuel (.start userRsp ⟨stackBuf, heap, m⟩) = some r ∧
    ∀ x, userRsp ≤ x → x < userRbp → ByValue (listAt arg m) x → memAfter r x = m x

/-- A byte of the frame that the list passes by value is a `'0'` already. -/
def Spent (m : Mem) (arg userRsp userRbp x : Addr) : Prop :=
  userRsp ≤ x → x < userRbp → ByValue (listAt arg m) x → m x = 0x30

/-- Tiles that begin in the frame have all its by-value bytes. -/
def Tiled (plt : List Para) (userRsp userRbp : Addr) : Prop :=
  ∃ tiles, Tiles plt tiles ∧ (∀ e ∈ tiles, userRsp ≤ e.addr) ∧
    ∀ x, userRsp ≤ x → x < userRbp → ByValue plt x → ∃ e ∈ tiles, x ∈ e.span

section Survive
variable {m : Mem} {arg userRsp userRbp : Addr}

theorem survives_iff : Survives m arg userRsp userRbp ↔
    userRbp.toNat + 1 < 2 ^ 64 ∧ Passes (listAt arg) userRbp (Spent m arg userRsp userRbp) m userRsp := by
  constructor
  · intro h
    obtain ⟨fuel, r, hscan, hsame⟩ := h Env.sample (some 0) (initStackBuf Env.sample 32 loaded.heap).2
    obtain ⟨segs, v', hcut, hall, rfl⟩ := scan_sample_inv hscan
    have hb := scanWith_ok_lt hscan
    refine ⟨hb, (passes_iff hb).mpr ⟨fuel, segs, hcut, fun x hx h1 h2 hval => ?_⟩⟩
    rw [← hsame x h1 h2 hval]
    exact (congrFun (saveAll_mem hall) x).trans (if_pos hx)
  · rintro ⟨hb, hp⟩ env stackBuf heap
    obtain ⟨fuel, segs, hcut, hok⟩ := (passes_iff hb).mp hp
    obtain ⟨done, hdone, hafter⟩ := saveAll_after env segs ⟨stackBuf, heap, m⟩
    refine ⟨fuel, _, scanWith_of_cut (l := .start userRsp ⟨stackBuf, heap, m⟩) hcut, fun x h1 h2 hval => ?_⟩
    refine (congrFun hafter x).trans ?_
    rw [cleared]
    by_cases hx : Covers done x
    · obtain ⟨r, hr, hxr⟩ := hx
      rw [if_pos ⟨r, hr, hxr⟩, hok x ⟨r, hdone.mem hr, hxr⟩ h1 h2 hval]
    · exact if_neg hx

/-- Whatever the bytes off the list are. -/
theorem survive_always_iff (hw : NoWrap (listAt arg m)) (hout : OutsideFrame arg m userRsp userRbp) :
    (∀ m', SameList arg m m' → Survives m' arg userRsp userRbp) ↔
      userRbp.toNat + 1 < 2 ^ 64 ∧ Tiled (listAt arg m) userRsp userRbp := by
  have hcut : ∀ {m'}, SameList arg m m' → userRbp.toNat + 1 < 2 ^ 64 → cutWith (listAt arg) userRbp
      (userRbp.toNat - userRsp.toNat + 2) m' userRsp userRsp = some (segments (listAt arg m) userRsp userRbp) := by
    intro m' hsame hb
    have hspares : Spares arg m' (segments (listAt arg m) userRsp userRbp) := fun x hx hc =>
      hout x (hsame.spans ▸ hx) ((segments_inner userRsp hw hb).bounds hc)
    rw [hspares.cut_iff, hsame.listAt]
    exact cut_segments userRsp hw hb
  constructor
  · intro h
    -- A memory without a `'0'` in the frame tells which bytes are cleared.
    have hsame : SameList arg m fun x => if userRsp ≤ x ∧ x < userRbp then 0x41 else m x :=
      fun x hx => if_neg (hout x hx)
    obtain ⟨hb, hp⟩ := survives_iff.mp (h _ hsame)
    refine ⟨hb, ?_⟩
    by_cases hle : userRsp ≤ userRbp
    · obtain ⟨tiles, htiles, hin, hcov⟩ := segments_tiles hw hb hle
      refine ⟨tiles, htiles, hin, fun x h1 h2 hx => (hcov x h1 h2).resolve_left fun hc => ?_⟩
      obtain ⟨fuel, segs, hcut', hok⟩ := (passes_iff hb).mp hp
      obtain rfl := cutWith_unique hcut' (hcut hsame hb)
      have hspent : (if userRsp ≤ x ∧ x < userRbp then 0x41 else m x) = 0x30 := hok x hc h1 h2 (hsame.listAt ▸ hx)
      rw [if_pos ⟨h1, h2⟩] at hspent
      exact absurd hspent (by decide)
    · exact ⟨[], Tiles.nil, fun _ h => (List.not_mem_nil h).elim, fun x h1 h2 => by bv_omega⟩
  · rintro ⟨hb, tiles, htiles, hin, hcov⟩ m' hsame
    refine survives_iff.mpr ⟨hb, (passes_iff hb).mpr ⟨_, _, hcut hsame hb, fun x hx h1 h2 hval => ?_⟩⟩
    rw [hsame.listAt] at hval
    exact absurd hx (segments_avoid_tiles hw hb htiles hin hcov (hcov x h1 h2 hval))

/-- By-value parameters survive the scan if and only if the frame does not end at the last address, the chain of
    skips from its begin on ends, and none of their bytes in a gap of it is other than `'0'`. With a list outside
    the frame they do so in every memory if and only if their bytes can be tiled: by entries that begin in the frame,
    each the first with its address, of which any two have one range or no byte in common. -/
theorem values_survive_iff (m : Mem) (arg userRsp userRbp : Addr) :
    (Survives m arg userRsp userRbp ↔
      userRbp.toNat + 1 < 2 ^ 64 ∧ Passes (listAt arg) userRbp (Spent m arg userRsp userRbp) m userRsp) ∧
    (NoWrap (listAt arg m) → OutsideFrame arg m userRsp userRbp →
      ((∀ m', SameList arg m m' → Survives m' arg userRsp userRbp) ↔
        userRbp.toNat + 1 < 2 ^ 64 ∧ Tiled (listAt arg m) userRsp userRbp)) :=
  ⟨survives_iff, survive_always_iff⟩

end Survive

/-! ### Two lists -/

/-- Two parameters that meet, one of them listed twice. -/
def meeting : List Para := [⟨0x1008, 8, 0⟩, ⟨0x1004, 4, 0⟩, ⟨0x1008, 4, 0⟩]

theorem meeting_tiled : Tiled meeting 0x1000 0x1010 := by
  have hapart : Range.Apart (⟨0x1008, 8⟩ : Span) ⟨0x1004, 4⟩ :=
    Range.apart_of_le_or_le (by decide) (by decide) (by decide)
  refine ⟨[⟨0x1008, 8, 0⟩, ⟨0x1004, 4, 0⟩], ⟨by decide, ?_⟩, by decide, ?_⟩
  · rintro e he f hf
    simp only [List.mem_cons, List.not_mem_nil, or_false] at he hf
    rcases he with rfl | rfl <;> rcases hf with rfl | rfl
    · exact Or.inl rfl
    · exact Or.inr hapart
    · exact Or.inr hapart.symm
    · exact Or.inl rfl
  · rintro x - - ⟨p, hp, -, hx⟩
    simp only [meeting, List.mem_cons, List.not_mem_nil, or_false] at hp
    rcases hp with rfl | rfl | rfl
    · exact ⟨⟨0x1008, 8, 0⟩, by simp, hx⟩
    · exact ⟨⟨0x1004, 4, 0⟩, by simp, hx⟩
    · exact ⟨⟨0x1008, 8, 0⟩, by
        simp, Range.inside_of_le (s := ⟨0x1008, 8⟩) (by decide) (by decide) (by decide) (by decide) x hx⟩

/-- The list in memory. -/
def meetingMem : Mem := putList 0x9000 0x9010 meeting fun _ => 0x41

theorem values_survive_sample : ∀ m', SameList 0x9000 meetingMem m' → Survives m' 0x9000 0x1000 0x1010 := by
  have hlist : listAt 0x9000 meetingMem = meeting := LaidApart.listAt_putList (by decide)
  have hspans : listSpans 0x9000 meetingMem =
      [⟨0x9000, 4⟩, ⟨0x9008, 8⟩, ⟨0x9010, 20⟩, ⟨0x9028, 20⟩, ⟨0x9040, 20⟩] := LaidApart.listSpans_putList (by decide)
  have hw : NoWrap (listAt 0x9000 meetingMem) := by
    rw [hlist]
    intro p hp _
    simp only [meeting, List.mem_cons, List.not_mem_nil, or_false] at hp
    rcases hp with rfl | rfl | rfl <;> decide
  have hout : OutsideFrame 0x9000 meetingMem 0x1000 0x1010 := by
    rintro x ⟨r, hr, hx⟩
    rw [hspans] at hr
    simp only [List.mem_cons, List.not_mem_nil, or_false] at hr
    rcases hr with rfl | rfl | rfl | rfl | rfl <;> rw [Range.mem_iff (by decide)] at hx <;> bv_omega
  refine ((values_survive_iff meetingMem 0x9000 0x1000 0x1010).2 hw hout).mpr ⟨by decide, ?_⟩
  rw [hlist]
  exact meeting_tiled

/-- A byte that the walk clears does not survive. -/
theorem not_survives {m : Mem} {arg userRsp userRbp x : Addr} {fuel : Nat} {segs : List Span}
    (hcut : cutWith (listAt arg) userRbp fuel m userRsp userRsp = some segs) (hx : Covers segs x) (h1 : userRsp ≤ x)
    (h2 : x < userRbp) (hval : ByValue (listAt arg m) x) (hne : m x ≠ 0x30) : ¬Survives m arg userRsp userRbp :=
    fun h => by
  obtain ⟨hb, hp⟩ := survives_iff.mp h
  obtain ⟨fuel', segs', hcut', hok⟩ := (passes_iff hb).mp hp
  obtain rfl := cutWith_unique hcut hcut'
  exact hne (hok x hx h1 h2 hval)

/-- The second parameter begins inside the first one. -/
def overlapMem : Mem := putList 0x9000 0x9010 [⟨0x1004, 4, 0⟩, ⟨0x1006, 4, 0⟩] fun _ => 0x41

/-- The entries lie at the begin of the frame. -/
def framedMem : Mem := putList 0x9000 0x1000 [⟨0x1040, 4, 0⟩, ⟨0x1050, 4, 0⟩] fun _ => 0x41

/-- The first parameter is skipped as a whole, and the last two bytes of the second are cleared. And where the
    bytes before the first one are those of the entries, the second entry is cleared before the scan comes to it. -/
theorem overlap_cleared :
    (∃ fuel v', User.scan Env.sample 0x9000 0x1010 fuel (.start 0x1000 (.sample overlapMem)) = some (.ok v') ∧
      v'.mem 0x1008 = 0x30) ∧
    ¬Survives overlapMem 0x9000 0x1000 0x1010 ∧ ¬Survives framedMem 0x9000 0x1000 0x1060 := by
  have hcut : cutWith (listAt 0x9000) 0x1010 20 overlapMem 0x1000 0x1000 =
    some [⟨0x1000, 4⟩, ⟨0x1008, 8⟩] := by decide +kernel
  have hcut' : cutWith (listAt 0x9000) 0x1060 100 framedMem 0x1000 0x1000 = some [⟨0x1000, 0x40⟩, ⟨0x1044, 0x1c⟩] := by
    decide +kernel
  refine ⟨?_, not_survives (x := 0x1008) hcut (by decide) (by decide) (by decide) ?_ (by decide),
    not_survives (x := 0x1050) hcut' (by decide) (by decide) (by decide) ?_ (by decide)⟩
  · obtain ⟨v', -, -, hall, -⟩ := saveAll_lists Env.sample_allocOk [⟨0x1000, 4⟩, ⟨0x1008, 8⟩]
      (v := .sample overlapMem) rfl rfl
    refine ⟨20, v', (scanWith_of_cut (l := .start 0x1000 (.sample overlapMem)) hcut).trans (congrArg some hall), ?_⟩
    exact (congrFun (saveAll_mem hall) 0x1008).trans (if_pos (by decide))
  · have hlist : listAt 0x9000 overlapMem = [⟨0x1004, 4, 0⟩, ⟨0x1006, 4, 0⟩] :=
      LaidApart.listAt_putList (by decide)
    rw [hlist]
    exact ⟨⟨0x1006, 4, 0⟩, by simp, rfl, by decide⟩
  · have hlist : listAt 0x9000 framedMem = [⟨0x1040, 4, 0⟩, ⟨0x1050, 4, 0⟩] :=
      LaidApart.listAt_putList (by decide)
    rw [hlist]
    exact ⟨⟨0x1050, 4, 0⟩, by simp, rfl, by decide⟩

end StackVault
