import StackVault.UserList
import StackVault.Theorems.Saving

/-! What the list in memory depends on. The functions that read it come to the bytes of its head and to twenty
    bytes of each entry, so memory may change elsewhere and the list is read as before. A scan that clears none
    of these bytes is the scan with the list as a value. -/

namespace StackVault
open Memory

/-- The bytes of the list at `arg`. -/
def listSpans (arg : Addr) (m : Mem) : List Span :=
  [⟨arg, 4⟩, ⟨arg + 8, 8⟩] ++ (List.range (sizeAt m arg)).map fun i => ⟨entryAddr (plistAt m arg) i, 20⟩

/-- `pointer` of the entry at `tmp`. -/
def depthSpan (tmp : Addr) : Span := ⟨tmp + 16, 4⟩

/-- The depths of the list at `arg`. -/
def depthSpans (arg : Addr) (m : Mem) : List Span :=
  (List.range (sizeAt m arg)).map fun i => depthSpan (entryAddr (plistAt m arg) i)

/-- Two memories have the same bytes on the list. -/
def SameList (arg : Addr) (m m' : Mem) : Prop := ∀ x, Covers (listSpans arg m) x → m' x = m x

section Congr
variable {arg tmp x : Addr} {m m' : Mem} {i : Nat}

theorem mem_entry {k n : Addr} (h : k.toNat + n.toNat ≤ 20) (hx : x ∈ (⟨tmp + k, n⟩ : Span)) : x ∈ (⟨tmp, 20⟩ : Span) :=
  Range.mem_of_part h hx

theorem paraAt_congr (h : ∀ x ∈ (⟨tmp, 20⟩ : Span), m' x = m x) : paraAt m' tmp = paraAt m tmp := by
  have haddr : load64 m' tmp = load64 m tmp := load64_congr (by decide) fun x hx =>
    h x (Range.mem_of_part (k := 0) (n := 8) (by decide) (by rwa [add_zero]))
  have hsize : load64 m' (tmp + 8) = load64 m (tmp + 8) :=
    load64_congr (by decide) fun x hx => h x (mem_entry (by decide) hx)
  have hdepth : load32 m' (tmp + 16) = load32 m (tmp + 16) :=
    load32_congr (by decide) fun x hx => h x (mem_entry (by decide) hx)
  rw [paraAt, paraAt, haddr, hsize, hdepth]

theorem head_congr (h : ∀ x, x ∈ (⟨arg, 4⟩ : Span) ∨ x ∈ (⟨arg + 8, 8⟩ : Span) → m' x = m x) :
    sizeAt m' arg = sizeAt m arg ∧ plistAt m' arg = plistAt m arg := by
  have hload : load32 m' arg = load32 m arg := load32_congr (by decide) fun x hx => h x (Or.inl hx)
  have hplist : load64 m' (arg + 8) = load64 m (arg + 8) := load64_congr (by decide) fun x hx => h x (Or.inr hx)
  exact ⟨by rw [sizeAt, hload, sizeAt], hplist⟩

theorem covers_listSpans_of_head (h : x ∈ (⟨arg, 4⟩ : Span) ∨ x ∈ (⟨arg + 8, 8⟩ : Span)) :
    Covers (listSpans arg m) x := by
  rcases h with h | h
  · exact ⟨_, List.mem_cons_self, h⟩
  · exact ⟨_, List.mem_cons_of_mem _ List.mem_cons_self, h⟩

namespace SameList

theorem sizeAt (h : SameList arg m m') : StackVault.sizeAt m' arg = StackVault.sizeAt m arg :=
  (head_congr fun x hx => h x (covers_listSpans_of_head hx)).1

theorem plistAt (h : SameList arg m m') : StackVault.plistAt m' arg = StackVault.plistAt m arg :=
  (head_congr fun x hx => h x (covers_listSpans_of_head hx)).2

theorem spans (h : SameList arg m m') : listSpans arg m' = listSpans arg m := by
  rw [listSpans, h.sizeAt, h.plistAt, listSpans]

theorem depthSpans (h : SameList arg m m') : StackVault.depthSpans arg m' = StackVault.depthSpans arg m := by
  rw [StackVault.depthSpans, h.sizeAt, h.plistAt, StackVault.depthSpans]

theorem listAt (h : SameList arg m m') : StackVault.listAt arg m' = StackVault.listAt arg m := by
  rw [StackVault.listAt, h.sizeAt, h.plistAt]
  refine List.map_congr_left fun i hi => paraAt_congr fun x hx => h x ?_
  exact ⟨_, List.mem_append_right _ (List.mem_map_of_mem hi), hx⟩

end SameList

theorem length_listAt : (listAt arg m).length = sizeAt m arg := by rw [listAt, List.length_map, List.length_range]

theorem listAt_get (hi : i < sizeAt m arg) : (listAt arg m)[i]? = some (paraAt m (entryAddr (plistAt m arg) i)) := by
  rw [listAt, List.getElem?_map, List.getElem?_range hi, Option.map_some]

theorem paraAt_mem (hi : i < sizeAt m arg) : paraAt m (entryAddr (plistAt m arg) i) ∈ listAt arg m :=
  List.mem_map_of_mem (List.mem_range.mpr hi)

theorem mem_depthSpans :
    Covers (depthSpans arg m) x ↔ ∃ i < sizeAt m arg, x ∈ depthSpan (entryAddr (plistAt m arg) i) := by
  rw [depthSpans, covers_map]
  simp only [List.mem_range]

/-- The bytes of a depth are those of the word that is read there. -/
theorem depth_byte (hx : x ∈ depthSpan tmp) : ∃ k < 4, m x = (load32 m (tmp + 16)).extractLsb' (8 * k) 8 := by
  have hk : (x - (tmp + 16)).toNat < 4 := BitVec.lt_def.mp (Range.mem_def.mp hx)
  refine ⟨_, hk, ?_⟩
  rw [extract_load32 hk, BitVec.ofNat_toNat, BitVec.setWidth_eq, add_sub_cancel]

/-- The depths are 0 if and only if no entry is a pointer. -/
theorem depths_zero_iff : (∀ x, Covers (depthSpans arg m) x → m x = 0) ↔ AllByValue (listAt arg m) := by
  constructor
  · intro hzero q hq
    obtain ⟨i, hi, rfl⟩ := List.mem_map.mp hq
    refine eq_of_extract fun k hk => ?_
    have hbyte : m (entryAddr (plistAt m arg) i + 16 + BitVec.ofNat 64 k) = 0 :=
      hzero _
        (mem_depthSpans.mpr ⟨i, List.mem_range.mp hi, Range.offset_mem.mpr (by show BitVec.ofNat 64 k < 4; bv_omega)⟩)
    have hzero' : (0 : BitVec 32).extractLsb' (8 * k) 8 = 0 := BitVec.extractLsb'_zero
    exact (extract_load32 hk).trans (hbyte.trans hzero'.symm)
  · intro hv x hx
    obtain ⟨i, hi, hx⟩ := mem_depthSpans.mp hx
    obtain ⟨k, -, hbyte⟩ := depth_byte (m := m) hx
    have hdepth : load32 m (entryAddr (plistAt m arg) i + 16) = 0 := hv _ (paraAt_mem hi)
    rw [hbyte, hdepth]
    exact BitVec.extractLsb'_zero

theorem covers_listSpans_of_depth (h : Covers (depthSpans arg m) x) : Covers (listSpans arg m) x := by
  obtain ⟨i, hi, hx⟩ := mem_depthSpans.mp h
  exact ⟨_, List.mem_append_right _ (List.mem_map_of_mem (List.mem_range.mpr hi)), mem_entry (by decide) hx⟩

end Congr

/-! ### Lists that are not written over -/

/-- No byte of the list lies in the frame. -/
def OutsideFrame (arg : Addr) (m : Mem) (userRsp userRbp : Addr) : Prop :=
  ∀ x, Covers (listSpans arg m) x → ¬(userRsp ≤ x ∧ x < userRbp)

/-- No byte of the list lies in a range. -/
def Spares (arg : Addr) (m : Mem) (segs : List Span) : Prop := ∀ x, Covers (listSpans arg m) x → ¬Covers segs x

theorem SameList.spares {arg : Addr} {m m' : Mem} {segs : List Span} (h : SameList arg m m') (hs : Spares arg m segs) :
    Spares arg m' segs := fun x hx => hs x (h.spans ▸ hx)

theorem Spares.of_beside {arg : Addr} {m : Mem} {segs : List Span}
    (h : ∀ r ∈ listSpans arg m, ∀ s ∈ segs, Range.Beside r s) : Spares arg m segs := fun _ => not_covers_of_beside h

theorem OutsideFrame.of_beside {arg userRsp userRbp : Addr} {m : Mem} (hle : userRsp ≤ userRbp)
    (h : ∀ r ∈ listSpans arg m, Range.Beside r ⟨userRsp, userRbp - userRsp⟩) : OutsideFrame arg m userRsp userRbp := by
  intro x hx hframe
  have hbeside : ∀ r ∈ listSpans arg m, ∀ s ∈ [(⟨userRsp, userRbp - userRsp⟩ : Span)], r.Beside s := fun r hr s hs =>
    List.mem_singleton.mp hs ▸ h r hr
  exact not_covers_of_beside hbeside hx ⟨_, List.mem_singleton_self _, by rw [Range.mem_def]; bv_omega⟩

section Spares
variable {read : Mem → List Para} {arg userRbp i prevRsp : Addr} {m : Mem} {segs : List Span} {fuel : Nat}
  {plt : List Para}

theorem Spares.alongPrefix {pre : List Span} (h : Spares arg m segs) (hpre : pre <+: segs) :
    SameList arg m (cleared pre m) :=
  fun x hx => if_neg fun hpx => h x hx (hpx.mono hpre.subset)

theorem Spares.sameList (h : Spares arg m segs) : SameList arg m (cleared segs m) := h.alongPrefix List.prefix_rfl

/-- A list that is read alike behind each of the ranges of a walk is walked as a value. -/
theorem cutWith_iff (hread : ∀ pre, pre <+: segs → read (cleared pre m) = plt) :
    cutWith read userRbp fuel m i prevRsp = some segs ↔ cut plt userRbp fuel i prevRsp = some segs := by
  induction fuel generalizing m i prevRsp segs with
  | zero => simp [cutWith, cut]
  | succ fuel ih =>
    have hnow : read m = plt := by
      have hread := hread [] List.nil_prefix
      rwa [cleared_nil] at hread
    have hrest : ∀ rest, pending prevRsp i ++ rest = segs → ∀ pre, pre <+: rest →
        read (cleared pre (cleared (pending prevRsp i) m)) = plt := by
      rintro rest rfl pre hpre
      rw [← cleared_append]
      exact hread _ ((List.prefix_append_right_inj _).mpr hpre)
    unfold cutWith cut
    rw [hnow]
    by_cases hi : i ≤ userRbp
    · simp only [if_pos hi]
      -- Both walks flush at the same places, and go on alike with the rest of the ranges.
      by_cases hs : contains i plt ≠ 0
      · simp only [if_pos hs, Option.map_eq_some_iff]
        exact exists_congr fun rest => and_congr_left fun hsegs => ih (hrest rest hsegs)
      · simp only [if_neg hs]
        by_cases he : i = userRbp
        · simp only [if_pos he, Option.map_eq_some_iff]
          exact exists_congr fun rest => and_congr_left fun hsegs => ih (hrest rest hsegs)
        · simp only [if_neg he]
          exact ih hread
    · simp only [if_neg hi]

/-- A walk that clears no byte of the list is the walk with the list that was there at its start. -/
theorem Spares.cut_iff (h : Spares arg m segs) : cutWith (listAt arg) userRbp fuel m i prevRsp = some segs ↔
    cut (listAt arg m) userRbp fuel i prevRsp = some segs :=
  cutWith_iff fun _ hpre => (h.alongPrefix hpre).listAt

end Spares

/-! ### A list laid out -/

/-- Memory with the entry at `tmp`. -/
def putPara (tmp : Addr) (p : Para) (m : Mem) : Mem :=
  store32 (store64 (store64 m tmp p.addr) (tmp + 8) p.size) (tmp + 16) p.pointer

/-- Memory with the entries from `plist` on. -/
def putParas : Addr → List Para → Mem → Mem
  | _, [], m => m
  | plist, p :: plt, m => putPara plist p (putParas (plist + 24) plt m)

/-- Memory with the list at `arg` and its entries from `plist` on. -/
def putList (arg plist : Addr) (plt : List Para) (m : Mem) : Mem :=
  store64 (store32 (putParas plist plt m) arg (BitVec.ofNat 32 plt.length)) (arg + 8) plist

section Laid
variable {arg plist tmp x : Addr} {m : Mem} {p : Para} {plt : List Para} {i : Nat}

/-- An entry is written to its first 20 bytes. -/
theorem putPara_of_not_mem (h : x ∉ (⟨tmp, 20⟩ : Span)) : putPara tmp p m x = m x := by
  have haddr : x ∉ (⟨tmp, 8⟩ : Span) := fun hx =>
    h (Range.mem_of_part (k := 0) (n := 8) (by decide) (by rwa [add_zero]))
  rw [putPara, store32_of_not_mem fun hx => h (mem_entry (by decide) hx),
    store64_of_not_mem fun hx => h (mem_entry (by decide) hx), store64_of_not_mem haddr]

/-- It is read back as it was written. -/
theorem paraAt_putPara : paraAt (putPara tmp p m) tmp = p := by
  have haddr : load64 (putPara tmp p m) tmp = p.addr := by
    refine (load64_congr (by decide) fun x hx => ?_).trans (load64_store64 (m := m) (by decide))
    rw [Range.mem_def] at hx
    rw [putPara, store32_of_not_mem fun h => by rw [Range.mem_def] at h; bv_omega,
      store64_of_not_mem fun h => by rw [Range.mem_def] at h; bv_omega]
  have hsize : load64 (putPara tmp p m) (tmp + 8) = p.size := by
    refine (load64_congr (by decide) fun x hx => ?_).trans (load64_store64 (m := store64 m tmp p.addr) (by decide))
    rw [Range.mem_def] at hx
    rw [putPara, store32_of_not_mem fun h => by rw [Range.mem_def] at h; bv_omega]
  have hpointer : load32 (putPara tmp p m) (tmp + 16) = p.pointer := load32_store32 (by decide)
  rw [paraAt, haddr, hsize, hpointer]

theorem entryAddr_succ : entryAddr plist (i + 1) = entryAddr (plist + 24) i := by
  unfold entryAddr
  bv_omega

/-- The first entry shares no byte with a later one. -/
theorem entry_apart {k : Addr} (hk : k.toNat < 24 * 2 ^ 31) (hx : x ∈ (⟨tmp + 24 + k, 20⟩ : Span)) :
    x ∉ (⟨tmp, 20⟩ : Span) := by
  rw [Range.mem_def] at hx ⊢
  dsimp only at hx ⊢
  have hd : x - tmp = x - (tmp + 24 + k) + (k + 24) := by
    rw [add_assoc, sub_add_eq_sub_sub, add_comm k, sub_add_cancel]
  rw [hd]
  generalize x - (tmp + 24 + k) = e at hx
  have hoff : (k + 24).toNat = k.toNat + 24 := by bv_omega
  generalize k + 24 = l at hoff
  have hsum : (e + l).toNat = e.toNat + l.toNat := by bv_omega
  bv_omega

theorem paraAt_putParas (hlen : plt.length < 2 ^ 31) (h : plt[i]? = some p) :
    paraAt (putParas plist plt m) (entryAddr plist i) = p := by
  induction plt generalizing plist i with
  | nil => cases h
  | cons q plt ih =>
    rw [List.length_cons] at hlen
    cases i with
    | zero =>
      rw [entryAddr, Nat.mul_zero, BitVec.add_zero, putParas, paraAt_putPara]
      exact Option.some.inj h
    | succ i =>
      rw [List.getElem?_cons_succ] at h
      have hi : i < plt.length := (List.getElem?_eq_some_iff.mp h).1
      have hoff : (BitVec.ofNat 64 (24 * i)).toNat = 24 * i := Nat.mod_eq_of_lt (by omega)
      have hread : paraAt (putParas (plist + 24) plt m) (entryAddr (plist + 24) i) = p := ih (by omega) h
      rw [entryAddr_succ, ← hread, putParas]
      exact paraAt_congr fun x hx => putPara_of_not_mem (entry_apart (by omega) hx)

/-- The array of that many entries shares no byte with the head of the list. -/
def LaidApart (arg plist : Addr) (n : Nat) : Prop :=
  n < 2 ^ 31 ∧ Range.Beside (⟨arg, 16⟩ : Span) ⟨plist, BitVec.ofNat 64 (24 * n)⟩

instance : Decidable (LaidApart arg plist i) := inferInstanceAs (Decidable (_ ∧ _))

/-- Outside the 16 bytes of its head, a list laid out is its entries. -/
theorem putList_of_not_mem (h : x ∉ (⟨arg, 16⟩ : Span)) : putList arg plist plt m x = putParas plist plt m x := by
  have hsize : x ∉ (⟨arg, 4⟩ : Span) := fun hx =>
    h (Range.mem_of_part (k := 0) (n := 4) (by decide) (by rwa [add_zero]))
  rw [putList, store64_of_not_mem fun hx => h (Range.mem_of_part (by decide) hx), store32_of_not_mem hsize]

theorem plistAt_putList : plistAt (putList arg plist plt m) arg = plist := load64_store64 (by decide)

namespace LaidApart

theorem sizeAt_putList (h : LaidApart arg plist plt.length) : sizeAt (putList arg plist plt m) arg = plt.length := by
  have hload : load32 (putList arg plist plt m) arg = BitVec.ofNat 32 plt.length := by
    refine (load32_congr (by decide) fun x hx => ?_).trans (load32_store32 (m := putParas plist plt m) (by decide))
    rw [Range.mem_def] at hx
    rw [putList, store64_of_not_mem fun h => by rw [Range.mem_def] at h; bv_omega]
  have hlen := h.1
  rw [sizeAt, hload, BitVec.toInt_ofNat', Int.bmod_eq_of_le (by omega) (by omega), Int.toNat_natCast]

/-- The entries lie where the head does not, so they are as they were written. -/
theorem putList_of_entry (h : LaidApart arg plist plt.length) (hi : i < plt.length)
    (hx : x ∈ (⟨entryAddr plist i, 20⟩ : Span)) : putList arg plist plt m x = putParas plist plt m x := by
  have hlen := h.1
  have hin : x ∈ (⟨plist, BitVec.ofNat 64 (24 * plt.length)⟩ : Span) := by
    refine Range.mem_of_part ?_ hx
    rw [BitVec.toNat_ofNat, BitVec.toNat_ofNat, Nat.mod_eq_of_lt (by omega), Nat.mod_eq_of_lt (by omega)]
    show 24 * i + 20 ≤ 24 * plt.length
    omega
  exact putList_of_not_mem fun hx => h.2.apart x hx hin

theorem listAt_putList (h : LaidApart arg plist plt.length) : listAt arg (putList arg plist plt m) = plt := by
  refine List.ext_getElem? fun i => ?_
  by_cases hi : i < plt.length
  · obtain ⟨q, hq⟩ : ∃ q, plt[i]? = some q := ⟨_, List.getElem?_eq_getElem hi⟩
    have hread : paraAt (putParas plist plt m) (entryAddr plist i) = q := paraAt_putParas h.1 hq
    rw [listAt_get (h.sizeAt_putList.symm ▸ hi), plistAt_putList, hq, ← hread]
    exact congrArg some (paraAt_congr fun x hx => h.putList_of_entry hi hx)
  · rw [List.getElem?_eq_none (Nat.le_of_not_lt hi), List.getElem?_eq_none]
    rw [length_listAt, h.sizeAt_putList]
    exact Nat.le_of_not_lt hi

theorem listSpans_putList (h : LaidApart arg plist plt.length) : listSpans arg (putList arg plist plt m) =
    [⟨arg, 4⟩, ⟨arg + 8, 8⟩] ++ (List.range plt.length).map fun i => ⟨entryAddr plist i, 20⟩ := by
  rw [listSpans, h.sizeAt_putList, plistAt_putList]

theorem depthSpans_putList (h : LaidApart arg plist plt.length) : depthSpans arg (putList arg plist plt m) =
    (List.range plt.length).map fun i => depthSpan (entryAddr plist i) := by
  rw [depthSpans, h.sizeAt_putList, plistAt_putList]

end LaidApart

end Laid

end StackVault
