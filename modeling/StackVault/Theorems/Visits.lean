import StackVault.Theorems.Areas

/-! Ranges of any length and in any order, and what `encrypt_stack` does with the areas of one. The walk tests neither
    the order of the two addresses nor the number of areas, so what it notes is right for the ranges of
    `areas_partition` only. -/

namespace StackVault.Pages

/-! ### The loop over the areas -/

section Loop
variable {dev : DevMem} {s : Fin 10 → Sarea} {is : List (Fin 10)} {p p' : Physical} {r : Int}

/-- A page starts at a multiple of 4096, so its offset, cut to an `int`, is never taken for an error. -/
theorem pos_ne_neg_one (pageFrame : BitVec 64) : (pageFrame * 4096).setWidth 32 ≠ (-1 : BitVec 32) := by
  intro h
  have hmod := congrArg (fun b : BitVec 32 => b.toNat % 4096) h
  simp only [BitVec.toNat_setWidth, BitVec.toNat_mul] at hmod
  have h4096 : (4096 : BitVec 64).toNat = 4096 := rfl
  have hneg : (-1 : BitVec 32).toNat = 0xffffffff := rfl
  rw [h4096, hneg] at hmod
  omega

theorem pos_eq_neg_one_iff (i : Fin 10) (tmp : Sarea) :
    (dev.lseek i tmp).setWidth 32 = (-1 : BitVec 32) ↔ dev.seeks i = false := by
  unfold DevMem.lseek
  cases h : dev.seeks i
  · rw [if_neg Bool.false_ne_true]
    exact iff_of_true rfl rfl
  · rw [if_pos rfl]
    exact iff_of_false (pos_ne_neg_one _) (by simp)

/-- The steps of the loop: an unused area is passed over, one that cannot be opened or sought ends the loop, and the
    page of any other is gone over. -/
theorem encryptAreas_cons {i : Fin 10} : dev.encryptAreas s (i :: is) p =
    if (s i).len = -1 then dev.encryptAreas s is p
    else if dev.opens i = true ∧ dev.seeks i = true then dev.encryptAreas s is (dev.encryptPage (s i) p) else
      (-1, p) := by
  rw [DevMem.encryptAreas]
  by_cases hlen : (s i).len = -1
  · rw [if_pos hlen, if_neg (not_not.mpr hlen)]
  · rw [if_neg hlen, if_pos hlen]
    by_cases hopen : dev.opens i = true
    · rw [if_pos hopen]
      by_cases hseek : dev.seeks i = true
      · have hpos : ¬(dev.lseek i (s i)).setWidth 32 = (-1 : BitVec 32) := by
          rw [pos_eq_neg_one_iff, hseek]
          simp
        exact (if_neg hpos).trans (if_pos ⟨hopen, hseek⟩).symm
      · have hpos := (pos_eq_neg_one_iff i (s i)).mpr (by simpa using hseek : dev.seeks i = false)
        exact (if_pos hpos).trans (if_neg fun h : _ ∧ _ => hseek h.2).symm
    · rw [if_neg hopen, if_neg fun h => hopen h.1]

/-- The loop returns 0 only when it has visited every area in use. -/
theorem visits_all (h : dev.encryptAreas s is p = (0, p')) : (∀ a ∈ p.accessed, a ∈ p'.accessed) ∧
    ∀ i ∈ is, (s i).len ≠ -1 → ∃ a ∈ p'.accessed, a.pageFrame = (s i).pageFrame := by
  induction is generalizing p with
  | nil =>
    rw [DevMem.encryptAreas, Prod.mk.injEq] at h
    rw [h.2]
    exact ⟨fun a ha => ha, fun i hi => by simp at hi⟩
  | cons i is ih =>
    rw [encryptAreas_cons] at h
    split_ifs at h with hlen hok
    · obtain ⟨hkeep, hall⟩ := ih h
      refine ⟨hkeep, fun j hj hused => ?_⟩
      rcases List.mem_cons.mp hj with rfl | hj
      · exact absurd hlen hused
      · exact hall j hj hused
    · obtain ⟨hkeep, hall⟩ := ih h
      refine ⟨fun a ha => hkeep a (List.mem_append_left _ ha), fun j hj hused => ?_⟩
      rcases List.mem_cons.mp hj with rfl | hj
      · exact ⟨_, hkeep _ (List.mem_append_right _ (List.mem_singleton_self _)), rfl⟩
      · exact hall j hj hused
    · simp at h

variable (dev p) in
/-- Without an area in use it returns 0 and has visited nothing. -/
theorem visits_none (h : ∀ i ∈ is, (s i).len = -1) : dev.encryptAreas s is p = (0, p) := by
  induction is with
  | nil => rfl
  | cons i is ih =>
    rw [encryptAreas_cons, if_pos (h i List.mem_cons_self)]
    exact ih fun j hj => h j (List.mem_cons_of_mem _ hj)

end Loop

/-! ### Covered or refused -/

/-- The array describes no byte outside the range: each byte of an area in use is the physical byte of an address of
    the range. -/
def DescribesOnly (pm : Pagemap) (topAddr bottomAddr : Addr) (ret : Fin 10 → Sarea) : Prop :=
  ∀ k, (ret k).len ≠ -1 → ∀ j < (ret k).len.toNat, ∃ x, topAddr.toNat ≤ x ∧ x < bottomAddr.toNat ∧
    (ret k).pageFrame = frame pm x ∧ (ret k).offset.toNat + j = x % 4096

/-- A range is covered or refused: `get_stack_areas` comes back from it, having written inside its array only, and
    describes no byte outside it, and `encrypt_stack` returns an error or visits every page of it. -/
def CoversOrRefuses (pm : Pagemap) (topAddr bottomAddr : Addr) : Prop := ∀ old,
  (∃ ret, getStackAreas (some old) (some pm) topAddr bottomAddr = .ok ret ∧ DescribesOnly pm topAddr bottomAddr ret) ∧
  ∀ dev mem buffer r p', encryptStack dev (some old) (some pm) topAddr bottomAddr ⟨mem, buffer, []⟩ = .ok (r, p') →
    r ≠ 0 ∨ ∀ x, topAddr.toNat ≤ x → x < bottomAddr.toNat → ∃ a ∈ p'.accessed, a.pageFrame = frame pm x

/-- A range of at most ten pages with neighbouring ones in different frames. -/
structure Plain (pm : Pagemap) (topAddr bottomAddr : Addr) : Prop where
  order : topAddr < bottomAddr
  pages : (bottomAddr.toNat - 1) / 4096 - topAddr.toNat / 4096 < 10
  differ : NeighboursDiffer pm topAddr.toNat bottomAddr.toNat

section Ranges
variable {pm : Pagemap} {topAddr bottomAddr : Addr} {ret : Fin 10 → Sarea} {m : Nat}

theorem Partitions.len_ne (h : Partitions pm topAddr bottomAddr ret m) {k : Fin 10} (hk : k < m) :
    (ret k).len ≠ -1 := by
  intro hlen
  have hin := h.inPage k hk
  rw [hlen] at hin
  have hneg : (-1 : BitVec 64).toNat = 2 ^ 64 - 1 := rfl
  omega

theorem Partitions.lt_of_used (h : Partitions pm topAddr bottomAddr ret m) {k : Fin 10} (hk : (ret k).len ≠ -1) :
    k < m := by
  by_contra hge
  exact hk (h.unused k (Nat.le_of_not_lt hge))

theorem Partitions.lt_bottom (h : Partitions pm topAddr bottomAddr ret m) {k : Fin 10} (hk : k < m) {j : Nat}
    (hj : j < (ret k).len.toNat) :
    areaStart topAddr.toNat (List.ofFn ret) k + j < bottomAddr.toNat := by
  have hget : (List.ofFn ret)[k.val]? = some (ret k) := by
    rw [List.getElem?_eq_getElem (by simp), List.getElem_ofFn]
  have hsucc : areaStart topAddr.toNat (List.ofFn ret) (k + 1) = _ := areaStart_succ hget
  have hmono : areaStart topAddr.toNat (List.ofFn ret) (k + 1) ≤ areaStart topAddr.toNat (List.ofFn ret) m :=
    areaStart_mono hk
  rw [h.consecutive] at hmono
  omega

theorem encryptStack_eq_ok {dev : DevMem} {old : Fin 10 → Sarea} {p p' : Physical} {r : Int}
    (hrun : getStackAreas (some old) (some pm) topAddr bottomAddr = .ok ret) :
    encryptStack dev (some old) (some pm) topAddr bottomAddr p = .ok (r, p') ↔
      dev.encryptAreas ret (List.finRange 10) p = (r, p') := by
  rw [encryptStack, hrun]
  exact ⟨Except.ok.inj, congrArg Except.ok⟩

theorem coversOrRefuses_of_plain (h : Plain pm topAddr bottomAddr) : CoversOrRefuses pm topAddr bottomAddr := by
  intro old
  obtain ⟨ret, m, hrun, hpart⟩ := areas_partition old pm h.order h.pages h.differ
  refine ⟨⟨ret, hrun, fun k hk j hj => ?_⟩, fun dev mem buffer r p' henc => ?_⟩
  · have hkm := hpart.lt_of_used hk
    obtain ⟨hframe, hoff⟩ := hpart.bytes k hkm j hj
    refine ⟨_, ?_, hpart.lt_bottom hkm hj, hframe, hoff⟩
    unfold areaStart
    omega
  · rw [encryptStack_eq_ok hrun] at henc
    by_cases hr : r = 0
    · rw [hr] at henc
      refine Or.inr fun x hlo hx => ?_
      obtain ⟨⟨k, j⟩, ⟨hk, hj, heq⟩, -⟩ := hpart.once x hlo hx
      obtain ⟨a, ha, hframe⟩ := (visits_all henc).2 k (List.mem_finRange k) (hpart.len_ne hk)
      exact ⟨a, ha, by rw [hframe, heq, (hpart.bytes k hk j hj).1]⟩
    · exact Or.inl hr

/-- An area without the unused mark stays in its page, when each of its bytes is a byte of the range. -/
theorem DescribesOnly.inPage (h : DescribesOnly pm topAddr bottomAddr ret) {k : Fin 10} (hk : (ret k).len ≠ -1)
    (hpos : 0 < (ret k).len.toNat) : (ret k).InPage := by
  obtain ⟨x, -, -, -, hx⟩ := h k hk ((ret k).len.toNat - 1) (by omega)
  unfold Sarea.InPage
  omega

theorem Tiles.pos {hi lo : Nat} {as : List Sarea} (h : Tiles pm hi lo as) :
    ∀ a ∈ as, 0 < a.len.toNat ∧ a.len.toNat ≤ hi - lo := by
  induction as generalizing lo with
  | nil => simp
  | cons b as ih =>
    obtain ⟨hpos, -, -, -, -, h⟩ := h
    have hle := h.le
    intro a ha
    rcases List.mem_cons.mp ha with rfl | ha
    · exact ⟨hpos, by omega⟩
    · obtain ⟨h1, h2⟩ := ih h a ha
      exact ⟨h1, by omega⟩

/-- An area as long as the range is the only one. -/
theorem Tiles.eq_singleton {hi lo : Nat} {as : List Sarea} (h : Tiles pm hi lo as) {a : Sarea} (ha : a ∈ as)
    (hlen : hi - lo ≤ a.len.toNat) : as = [a] := by
  cases as with
  | nil => simp at ha
  | cons b as =>
    obtain ⟨hpos, -, -, -, -, h⟩ := h
    have hle := h.le
    rcases List.mem_cons.mp ha with rfl | ha
    · cases as with
      | nil => rfl
      | cons c as =>
        have := h.pos c List.mem_cons_self
        omega
    · have := h.pos a ha
      omega

/-- Where every byte that is described lies in the range and every page is visited, no area leaves its page. -/
theorem plain_of_covers (hlt : topAddr < bottomAddr) (h : CoversOrRefuses pm topAddr bottomAddr) :
    Plain pm topAddr bottomAddr := by
  obtain ⟨as, hne, htiles, hrun⟩ := getStackAreas_tiles (fun _ => ⟨0, 0, 0⟩) pm hlt
  obtain ⟨⟨ret, hret, honly⟩, hvisit⟩ := h fun _ => ⟨0, 0, 0⟩
  rw [BitVec.lt_def] at hlt
  split_ifs at hrun with hlen
  · rw [hret, Except.ok.injEq] at hrun
    have hin : ∀ a ∈ as, a.InPage := fun a ha => by
      obtain ⟨k, hk, hka⟩ := List.mem_iff_getElem.mp ha
      have hretk : ret ⟨k, by omega⟩ = a := by
        rw [hrun, ← hka]
        exact fill_of_lt (k := ⟨k, by omega⟩) hk
      rw [← hretk]
      refine honly.inPage (fun hmark => ?_) (by rw [hretk]; exact (htiles.pos a ha).1)
      -- An area with the unused mark for its length fills the address space, and nothing is visited.
      rw [hretk] at hmark
      have hneg : (-1 : BitVec 64).toNat = 2 ^ 64 - 1 := rfl
      have hbot := bottomAddr.isLt
      have hsingle := htiles.eq_singleton ha (by rw [hmark, hneg]; omega)
      have hunused : ∀ i ∈ List.finRange 10, (ret i).len = -1 := fun i _ => by
        rw [hrun]
        rcases Nat.lt_or_ge i.val as.length with hi | hi
        · rw [fill_of_lt hi]
          have heq : as[i.val] = a := by simp [hsingle]
          exact (congrArg Sarea.len heq).trans hmark
        · rw [fill_of_le hi]
      have hnone := visits_none ⟨0, fun _ => true, fun _ => true⟩ ⟨fun _ => 0, fun _ => 0, []⟩ hunused
      rcases hvisit _ _ _ _ _ ((encryptStack_eq_ok hret).mpr hnone) with h0 | hall
      · exact h0 rfl
      · obtain ⟨a, hmem, -⟩ := hall _ (Nat.le_refl _) hlt
        simp at hmem
    have hge := htiles.length_ge hlt hin
    exact ⟨hlt, by omega, htiles.neighboursDiffer hin⟩
  · rw [hret] at hrun
    cases hrun

/-! ### Ranges in the wrong order -/

/-- The walk over bytes of one frame only moves on. -/
theorem walkRange_same {n t : Nat} {tmpAddr : Addr} {w : AreaWalk} (htmp : tmpAddr.toNat = t) (hfit : t + n < 2 ^ 64)
    (hsame : ∀ x, t ≤ x → x < t + n → frame pm x = w.prePageNum) :
    walkRange (some pm) n tmpAddr w = .ok (tmpAddr + BitVec.ofNat 64 n, w) := by
  induction n generalizing t tmpAddr with
  | zero => simp [walkRange]
  | succ n ih =>
    simp only [walkRange, get_page_frame_number_eq htmp, bind, Except.bind]
    rw [if_neg (not_not.mpr (hsame t (Nat.le_refl _) (by omega))), ih (toNat_succ htmp (by omega)) (by omega)
      (fun x h1 h2 => hsame x (by omega) (by omega))]
    rw [BitVec.add_assoc, Nat.add_comm n 1, BitVec.ofNat_add]
    rfl

theorem append_keeps {w : AreaWalk} {tmpAddr : Addr} (hi : 0 < w.i) (h : w.append tmpAddr = .ok ret) :
    ret 0 = w.ret 0 := by
  unfold AreaWalk.append at h
  split_ifs at h with hlt
  rw [← Except.ok.inj h]
  exact Function.update_of_ne (fun h0 => Nat.ne_of_lt hi (congrArg Fin.val h0)) _ _

/-- What is written to the array later leaves its first element as it is. -/
theorem walkRange_keeps {n i : Nat} {tmpAddr topAddr : Addr} {prePageNum offset : BitVec 64} {ret ret' : Fin 10 → Sarea}
    (hi : 0 < i) (h :
      (walkRange (some pm) n tmpAddr { ret, i, topAddr, prePageNum, offset } >>= fun p => p.2.append p.1) = .ok ret') :
    ret' 0 = ret 0 := by
  induction n generalizing i tmpAddr topAddr prePageNum offset ret with
  | zero => exact append_keeps hi h
  | succ n ih =>
    simp only [walkRange, get_page_frame_number_eq rfl, bind, Except.bind] at h
    split_ifs at h with hpage
    · cases happ : AreaWalk.append { ret, i, topAddr, prePageNum, offset } tmpAddr with
      | error e => simp [happ] at h
      | ok ret₁ =>
        simp only [happ] at h
        exact (ih (Nat.succ_pos i) h).trans (append_keeps hi happ)
    · exact ih hi h

/-- The first area ends at the first change of the frame, or with the range. -/
theorem walkRange_first {n t : Nat} {tmpAddr topAddr : Addr} {prePageNum offset : BitVec 64} {ret ret' : Fin 10 → Sarea}
    (htmp : tmpAddr.toNat = t) (hfit : t + n < 2 ^ 64)
    (h : (walkRange (some pm) n tmpAddr { ret, i := 0, topAddr, prePageNum, offset } >>= fun p => p.2.append p.1) =
      .ok ret') :
    ∃ d ≤ n, (ret' 0).len = BitVec.ofNat 64 (t + d) - topAddr ∧ (d < n → frame pm (t + d) ≠ prePageNum) ∧
      ∀ x, t ≤ x → x < t + d → frame pm x = prePageNum := by
  induction n generalizing t tmpAddr with
  | zero =>
    refine ⟨0, Nat.le_refl _, ?_, fun h0 => absurd h0 (Nat.lt_irrefl _), fun x h1 h2 => by omega⟩
    rw [← Except.ok.inj h, Nat.add_zero, ← htmp, BitVec.ofNat_toNat, BitVec.setWidth_eq]
    rfl
  | succ n ih =>
    simp only [walkRange, get_page_frame_number_eq htmp, bind, Except.bind] at h
    split_ifs at h with hpage
    · have hret := walkRange_keeps (Nat.succ_pos 0) h
      refine ⟨0, Nat.zero_le _, ?_, fun _ => hpage, fun x h1 h2 => by omega⟩
      rw [hret, Nat.add_zero, ← htmp, BitVec.ofNat_toNat, BitVec.setWidth_eq]
      rfl
    · obtain ⟨d, hd, hlen, hchange, hsame⟩ := ih (toNat_succ htmp (by omega)) (by omega) h
      rw [show t + 1 + d = t + (d + 1) by omega] at hlen hchange hsame
      refine ⟨d + 1, Nat.succ_le_succ hd, hlen, fun hlt => hchange (Nat.lt_of_succ_lt_succ hlt), fun x h1 h2 => ?_⟩
      rcases Nat.lt_or_ge t x with hx | hx
      · exact hsame x hx h2
      · rw [Nat.le_antisymm hx h1]
        exact not_not.mp hpage

/-- The two ranges in the wrong order for which the length of the only area comes out as 0 or as the unused mark:
    `top_addr + 1` wraps, and the walk goes over the whole address space without a change of the frame. -/
structure Unnoticed (pm : Pagemap) (topAddr bottomAddr : Addr) : Prop where
  top : topAddr.toNat = 2 ^ 64 - 1
  bottom : 2 ^ 64 - 2 ≤ bottomAddr.toNat
  same : ∀ x < 2 ^ 64, frame pm x = frame pm 0

variable (topAddr) in
theorem len_of_steps (d : Nat) : topAddr + 1 + BitVec.ofNat 64 d - topAddr = BitVec.ofNat 64 (d + 1) := by
  rw [Nat.add_comm d 1, BitVec.ofNat_add, BitVec.add_assoc, BitVec.add_comm topAddr, BitVec.add_sub_cancel]
  rfl

/-- Otherwise the first area describes a byte. -/
theorem unnoticed_of_covers (hge : bottomAddr.toNat ≤ topAddr.toNat) (h : CoversOrRefuses pm topAddr bottomAddr) :
    Unnoticed pm topAddr bottomAddr := by
  obtain ⟨⟨ret, hret, honly⟩, -⟩ := h fun _ => ⟨0, 0, 0⟩
  have hbot := bottomAddr.isLt
  have htop := topAddr.isLt
  obtain ⟨d, hd, hlen, hchange, hsame⟩ := walkRange_first
    (rfl : (topAddr + 1).toNat = (topAddr + 1).toNat) (by omega) hret
  rw [BitVec.ofNat_add, BitVec.ofNat_toNat, BitVec.setWidth_eq, len_of_steps] at hlen
  have hsame : ∀ x, (topAddr + 1).toNat ≤ x → x < (topAddr + 1).toNat + d → frame pm x = frame pm topAddr.toNat := hsame
  have hneg : (-1 : BitVec 64).toNat = 2 ^ 64 - 1 := rfl
  have hd' : 2 ^ 64 - 2 ≤ d := by
    by_contra hlt
    have hlen' : (ret 0).len.toNat = d + 1 := by rw [hlen, BitVec.toNat_ofNat, Nat.mod_eq_of_lt (by omega)]
    obtain ⟨x, h1, h2, -⟩ := honly 0 (fun hmark => by rw [hmark, hneg] at hlen'; omega) 0 (by omega)
    omega
  have htop' : topAddr.toNat = 2 ^ 64 - 1 := by
    by_contra hne
    have := toNat_succ (rfl : topAddr.toNat = topAddr.toNat) (by omega)
    omega
  have htmp : (topAddr + 1).toNat = 0 := by
    rw [BitVec.toNat_add, htop']
    rfl
  rw [htmp] at hsame hd
  have hall : ∀ x < 2 ^ 64, frame pm x = frame pm topAddr.toNat := fun x hx => by
    rcases Nat.lt_or_ge x d with hlt | hge'
    · exact hsame x (Nat.zero_le _) (by omega)
    · exact frame_congr (by omega)
  exact ⟨htop', by omega, fun x hx => (hall x hx).trans (hall 0 (by omega)).symm⟩

theorem covers_of_unnoticed (h : Unnoticed pm topAddr bottomAddr) : CoversOrRefuses pm topAddr bottomAddr := by
  intro old
  obtain ⟨htop, hbottom, hsame⟩ := h
  have hbot := bottomAddr.isLt
  have htmp : (topAddr + 1).toNat = 0 := by
    rw [BitVec.toNat_add, htop]
    rfl
  have hempty : ∀ x, topAddr.toNat ≤ x → ¬x < bottomAddr.toNat := fun x h1 h2 => by omega
  refine ⟨⟨Function.update (fun k => { old k with len := -1 }) 0
    ⟨frame pm topAddr.toNat, topAddr % 4096, BitVec.ofNat 64 (bottomAddr.toNat + 1)⟩, ?_, fun k hk j hj => ?_⟩,
    fun dev mem buffer r p' _ => Or.inr fun x h1 h2 => absurd h2 (hempty x h1)⟩
  · simp only [getStackAreas, get_page_frame_number_eq rfl, bind, Except.bind, htmp, Nat.sub_zero]
    rw [walkRange_same htmp (by omega) fun x _ hx => (hsame x (by omega)).trans (hsame _ topAddr.isLt).symm]
    rw [← len_of_steps topAddr]
    rfl
  · by_cases h0 : k = 0
    · rw [h0, Function.update_self] at hk hj
      rcases (show bottomAddr.toNat = 2 ^ 64 - 2 ∨ bottomAddr.toNat = 2 ^ 64 - 1 by omega) with hb | hb
      · rw [hb] at hk
        exact absurd rfl hk
      · rw [hb] at hj
        exact absurd hj (Nat.not_lt_zero j)
    · rw [Function.update_of_ne h0] at hk
      exact absurd rfl hk

end Ranges

/-- A range is covered or refused exactly when it is in order, of at most ten pages and with neighbouring pages in
    different frames; or when it is one of two in the wrong order for which the mistake shows nowhere. -/
theorem covers_or_refuses_iff (pm : Pagemap) (topAddr bottomAddr : Addr) :
    CoversOrRefuses pm topAddr bottomAddr ↔ Plain pm topAddr bottomAddr ∨ Unnoticed pm topAddr bottomAddr := by
  constructor
  · intro h
    rcases Nat.lt_or_ge topAddr.toNat bottomAddr.toNat with hlt | hge
    · exact Or.inl (plain_of_covers hlt h)
    · exact Or.inr (unnoticed_of_covers hge h)
  · rintro (h | h)
    · exact coversOrRefuses_of_plain h
    · exact covers_of_unnoticed h

/-- Eleven pages, each in a frame of its own, and an empty range. -/
theorem covers_or_refuses_fails : ¬CoversOrRefuses (fun q => BitVec.ofNat 56 q) 0x1000 0xc000 ∧
    ¬CoversOrRefuses (fun q => BitVec.ofNat 56 q) 0x1000 0x1000 := by
  refine ⟨fun h => ?_, fun h => ?_⟩
  · exact absurd (plain_of_covers (by decide) h).pages (by decide)
  · exact absurd (unnoticed_of_covers (by decide) h).top (by decide)

/-! ### Read and written back -/

/-- The physical byte belongs to the area. -/
def Sarea.Has (a : Sarea) (x : Nat) : Prop :=
  a.len ≠ -1 ∧ (a.pageFrame * 4096).toNat + a.offset.toNat ≤ x ∧
    x < (a.pageFrame * 4096).toNat + a.offset.toNat + a.len.toNat

/-- `encrypt_stack` leaves the bytes outside the areas as they are, and writes every page that it read back to its
    place. -/
def KeepsOutside (dev : DevMem) (s : Fin 10 → Sarea) : Prop := ∀ mem buffer,
  let p := (dev.encryptAreas s (List.finRange 10) ⟨mem, buffer, []⟩).2
  (∀ x, (∀ k, ¬(s k).Has x) → p.mem x = mem x) ∧ ∀ a ∈ p.accessed, 0 < a.count → a.written_at = a.read_at

/-- The area is in use and the loop comes to it: no area up to it is refused. -/
def Reached (dev : DevMem) (s : Fin 10 → Sarea) (k : Fin 10) : Prop :=
  (s k).len ≠ -1 ∧ ∀ j ≤ k, (s j).len ≠ -1 → dev.opens j = true ∧ dev.seeks j = true

section Accesses
variable {dev : DevMem} {s : Fin 10 → Sarea} {is : List (Fin 10)} {p : Physical}

/-- The areas that the loop goes over. -/
def goneOver (dev : DevMem) (s : Fin 10 → Sarea) : List (Fin 10) → List (Fin 10)
  | [] => []
  | i :: is =>
    if (s i).len = -1 then goneOver dev s is
    else if dev.opens i = true ∧ dev.seeks i = true then i :: goneOver dev s is else []

/-- The access to the page of an area: it is written behind the bytes that were read. -/
def access (dev : DevMem) (tmp : Sarea) : Access :=
  let at_page := (tmp.pageFrame * 4096).toNat
  ⟨tmp.pageFrame, at_page, min 4096 (dev.size - at_page), at_page + min 4096 (dev.size - at_page)⟩

theorem encryptPage_accessed (tmp : Sarea) : (dev.encryptPage tmp p).accessed = p.accessed ++ [access dev tmp] := by
  simp [DevMem.encryptPage, DevMem.read, access]

theorem accessed_eq : (dev.encryptAreas s is p).2.accessed = p.accessed ++ (goneOver dev s is).map
    fun i => access dev (s i) := by
  induction is generalizing p with
  | nil => simp [DevMem.encryptAreas, goneOver]
  | cons i is ih =>
    rw [encryptAreas_cons, goneOver]
    split_ifs with hlen hok
    · exact ih
    · rw [ih, encryptPage_accessed, List.map_cons, List.append_assoc, List.singleton_append]
    · simp

theorem mem_goneOver (his : is.Pairwise (· < ·)) {k : Fin 10} : k ∈ goneOver dev s is ↔
    k ∈ is ∧ (s k).len ≠ -1 ∧ ∀ j ∈ is, j ≤ k → (s j).len ≠ -1 → dev.opens j = true ∧ dev.seeks j = true := by
  induction is with
  | nil => simp [goneOver]
  | cons i is ih =>
    obtain ⟨hlt, his⟩ := List.pairwise_cons.mp his
    rw [goneOver]
    split_ifs with hlen hok
    · rw [ih his]
      constructor
      · rintro ⟨hk, hused, hok⟩
        refine ⟨List.mem_cons_of_mem _ hk, hused, fun j hj hjk hjused => ?_⟩
        rcases List.mem_cons.mp hj with rfl | hj
        · exact absurd hlen hjused
        · exact hok j hj hjk hjused
      · rintro ⟨hk, hused, hok⟩
        rcases List.mem_cons.mp hk with rfl | hk
        · exact absurd hlen hused
        · exact ⟨hk, hused, fun j hj => hok j (List.mem_cons_of_mem _ hj)⟩
    · rw [List.mem_cons, ih his]
      constructor
      · rintro (rfl | ⟨hk, hused, hall⟩)
        · refine ⟨List.mem_cons_self, hlen, fun j hj hjk hjused => ?_⟩
          rcases List.mem_cons.mp hj with rfl | hj
          · exact hok
          · exact absurd (hlt j hj) (Fin.not_lt.mpr hjk)
        · refine ⟨List.mem_cons_of_mem _ hk, hused, fun j hj hjk hjused => ?_⟩
          rcases List.mem_cons.mp hj with rfl | hj
          · exact hok
          · exact hall j hj hjk hjused
      · rintro ⟨hk, hused, hall⟩
        rcases List.mem_cons.mp hk with rfl | hk
        · exact Or.inl rfl
        · exact Or.inr ⟨hk, hused, fun j hj => hall j (List.mem_cons_of_mem _ hj)⟩
    · refine iff_of_false (by simp) ?_
      rintro ⟨hk, hused, hall⟩
      refine hok (hall i List.mem_cons_self ?_ hlen)
      rcases List.mem_cons.mp hk with rfl | hk
      · exact Fin.le_refl _
      · exact Fin.le_of_lt (hlt k hk)

theorem mem_goneOver_finRange {k : Fin 10} : k ∈ goneOver dev s (List.finRange 10) ↔ Reached dev s k := by
  rw [mem_goneOver (List.pairwise_lt_finRange 10), Reached]
  simp [List.mem_finRange]

/-- A page that begins behind the end of the memory is neither read nor written. -/
theorem encryptPage_mem {tmp : Sarea} (h : dev.size ≤ (tmp.pageFrame * 4096).toNat) :
    (dev.encryptPage tmp p).mem = p.mem := by
  funext x
  simp only [DevMem.encryptPage, DevMem.read, DevMem.write]
  exact if_neg (by omega)

theorem mem_eq_of_behind (h : ∀ k ∈ goneOver dev s is, dev.size ≤ ((s k).pageFrame * 4096).toNat) :
    (dev.encryptAreas s is p).2.mem = p.mem := by
  induction is generalizing p with
  | nil => rfl
  | cons i is ih =>
    rw [encryptAreas_cons]
    rw [goneOver] at h
    split_ifs at h ⊢ with hlen hok
    · exact ih h
    · rw [ih fun k hk => h k (List.mem_cons_of_mem _ hk), encryptPage_mem (h i List.mem_cons_self)]
    · rfl

end Accesses

/-- Nothing outside the areas is changed, and no page goes to another place, exactly when no page is read: every
    area that the loop comes to begins behind the end of the memory. -/
theorem keeps_outside_iff (dev : DevMem) (s : Fin 10 → Sarea) :
    KeepsOutside dev s ↔ ∀ k, Reached dev s k → dev.size ≤ ((s k).pageFrame * 4096).toNat := by
  constructor
  · intro h k hk
    by_contra hlt
    obtain ⟨-, hback⟩ := h (fun _ => 0) fun _ => 0
    have hmem : access dev (s k) ∈ (dev.encryptAreas s (List.finRange 10) ⟨fun _ => 0, fun _ => 0, []⟩).2.accessed := by
      rw [accessed_eq]
      exact List.mem_append_right _ (List.mem_map_of_mem (mem_goneOver_finRange.mpr hk))
    have hcount : 0 < (access dev (s k)).count := by
      simp only [access]
      omega
    have hplace := hback _ hmem hcount
    simp only [access] at hplace
    omega
  · intro h mem buffer
    have hbehind : ∀ k ∈ goneOver dev s (List.finRange 10), dev.size ≤ ((s k).pageFrame * 4096).toNat :=
      fun k hk => h k (mem_goneOver_finRange.mp hk)
    refine ⟨fun x _ => congrFun (mem_eq_of_behind hbehind) x, fun a ha hcount => ?_⟩
    rw [accessed_eq, List.nil_append, List.mem_map] at ha
    obtain ⟨k, hk, rfl⟩ := ha
    have hsize := hbehind k hk
    simp only [access] at hcount
    omega

/-- One area in the second page of a memory of four pages: the page is read there and written to the third. -/
theorem keeps_outside_fails :
    ¬KeepsOutside ⟨0x4000, fun _ => true, fun _ => true⟩ fun k => if k = 0 then ⟨1, 0x100, 0x10⟩ else ⟨0, 0, -1⟩ := by
  intro h
  obtain ⟨hkeep, -⟩ := h (fun x => if x = 0x1000 then 1 else 0) fun _ => 0
  have hout := hkeep 0x2000 fun k hk => by
    obtain ⟨hused, hlo, hup⟩ := hk
    by_cases h0 : k = 0
    · subst h0
      exact absurd hup (by decide)
    · simp [h0] at hused
  exact absurd hout (by decide)

end StackVault.Pages
