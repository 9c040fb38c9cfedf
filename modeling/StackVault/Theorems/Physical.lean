import StackVault.Theorems.Robust
import StackVault.Theorems.Visits

/-! What the rounds of the server do to physical memory, whatever they receive. A request reaches `encrypt_stack` only
    when its last token starts with an `e`; that token is also the end of the range, and it is no number. So the range
    ends at address 0 and one page is gone over, which is written back behind the place it was read at. Bytes move,
    and none is encrypted. -/

namespace StackVault
open Pages Transition

/-- A round that comes to its end, with a reply or without. -/
def Serves (s : Machine) (io : Visit) (t : Machine) : Prop :=
  ∃ fuel replied, serveRound fuel io s = some (.ok (t, replied))

/-- The request has an `e` in front of its last token, and the page map of its process has the frame for its `rsp`. -/
def GoesOver (s : Machine) (io : Visit) (pageFrame : BitVec 64) : Prop :=
  ∃ r str pm, parseRequest io.mallocName (io.fill s.str) = .ok (r, str) ∧ r.p.headD 0 = ch 'e' ∧
    io.pagemap (r.pid.setWidth 32) = some pm ∧ pageFrame = frame pm r.rsp.toNat

/-! ### One page -/

section Page
variable {dev : DevMem} {tmp : Sarea} {p p' : Physical} {x : Nat} {old : Fin 10 → Sarea} {pm : Pagemap} {topAddr : Addr}
  {malloc : Option (Fin 10 → Sarea)} {pagemap : Option Pagemap} {ret : Int} {s : Fin 10 → Sarea} {is : List (Fin 10)}

/-- Going over a page leaves a byte as it is, or puts the one there that is a page below it. -/
theorem encryptPage_cell (dev : DevMem) (tmp : Sarea) (p : Physical) (x : Nat) :
    (dev.encryptPage tmp p).mem x = p.mem x ∨
    (4096 ≤ x ∧ (dev.encryptPage tmp p).mem x = p.mem (x - 4096)) := by
  have hcell : ∀ at_page count, at_page = (tmp.pageFrame * 4096).toNat → count = min 4096 (dev.size - at_page) →
      (dev.encryptPage tmp p).mem x = if at_page + count ≤ x ∧ x < at_page + count + 4096 ∧ x < dev.size then
        if x - (at_page + count) < count then p.mem (at_page + (x - (at_page + count)))
        else p.buffer (x - (at_page + count))
      else p.mem x := by
    rintro _ _ rfl rfl
    rfl
  rw [hcell _ _ rfl rfl]
  generalize (tmp.pageFrame * 4096).toNat = at_page
  split_ifs with h hread
  · -- A byte is written only if a whole page was read.
    have hwhole : min 4096 (dev.size - at_page) = 4096 := by omega
    have hplace : at_page + (x - (at_page + 4096)) = x - 4096 := by omega
    rw [hwhole] at h ⊢
    rw [hplace]
    exact Or.inr ⟨by omega, rfl⟩
  · omega
  · exact Or.inl rfl

theorem encryptAreas_unused (h : ∀ k ∈ is, (s k).len = -1) : dev.encryptAreas s is p = (0, p) := by
  induction is with
  | nil => rfl
  | cons i is ih =>
    rw [encryptAreas_cons, if_pos (h i List.mem_cons_self)]
    exact ih fun k hk => h k (List.mem_cons_of_mem _ hk)

/-- With one area, the first, at most its page is gone over. -/
theorem encryptAreas_first (dev : DevMem) (p : Physical) (h : ∀ k : Fin 9, (s k.succ).len = -1) :
    (dev.encryptAreas s (List.finRange 10) p).2 = p ∨
    (dev.encryptAreas s (List.finRange 10) p).2 = dev.encryptPage (s 0) p := by
  have hrest : ∀ q, dev.encryptAreas s ((List.finRange 9).map Fin.succ) q = (0, q) := fun q => by
    refine encryptAreas_unused fun k hk => ?_
    obtain ⟨j, -, rfl⟩ := List.mem_map.mp hk
    exact h j
  rw [List.finRange_succ, encryptAreas_cons]
  split_ifs
  · exact Or.inl (congrArg Prod.snd (hrest p))
  · exact Or.inr (congrArg Prod.snd (hrest _))
  · exact Or.inl rfl

/-- A range that ends at address 0 is one area of one byte. -/
theorem getStackAreas_eq (old : Fin 10 → Sarea) (pm : Pagemap) (topAddr : Addr) :
    ∃ ret, getStackAreas (some old) (some pm) topAddr 0 = .ok ret ∧ (ret 0).pageFrame = frame pm topAddr.toNat ∧
      ∀ k : Fin 9, (ret k.succ).len = -1 := by
  have hzero : (0 : Addr).toNat - (topAddr + 1).toNat = 0 := Nat.zero_sub _
  simp only [getStackAreas, hzero, get_page_frame_number_eq rfl, bind, Except.bind, walkRange, AreaWalk.append]
  exact ⟨_, rfl, rfl, fun k => rfl⟩

theorem encryptStack_zero (h : Pages.encryptStack dev malloc pagemap topAddr 0 p = .ok (ret, p')) :
    p' = p ∨ ∃ pm tmp, pagemap = some pm ∧ tmp.pageFrame = frame pm topAddr.toNat ∧ p' = dev.encryptPage tmp p := by
  obtain ⟨s, hs, h⟩ := bind_eq_ok.mp h
  obtain ⟨hmalloc, hpagemap⟩ := (getStackAreas_zero _ _ _).mp ⟨s, hs⟩
  obtain ⟨old, rfl⟩ := Option.isSome_iff_exists.mp hmalloc
  obtain ⟨pm, rfl⟩ := Option.isSome_iff_exists.mp hpagemap
  obtain ⟨s', hs', hframe, hunused⟩ := getStackAreas_eq old pm topAddr
  obtain rfl : s' = s := Except.ok.inj (hs'.symm.trans hs)
  obtain rfl : (dev.encryptAreas s' (List.finRange 10) p).2 = p' := congrArg Prod.snd (Except.ok.inj h)
  rcases encryptAreas_first dev p hunused with heq | heq
  · exact Or.inl heq
  · exact Or.inr ⟨pm, s' 0, rfl, hframe, heq⟩

end Page

/-! ### Rounds -/

section Rounds
variable {s t : Machine} {io : Visit} {tr : List (Machine × Visit)}

/-- The token that the dispatch looks at is the one that `rbp` is read from. -/
theorem rbp_zero {r : Request} {str : Buffer} (hparse : parseRequest io.mallocName (io.fill s.str) = .ok (r, str))
    (he : r.p.headD 0 = ch 'e') : r.rbp = 0 := by
  obtain ⟨hmalloc, op, name, pid, rsp, rbp, hfive⟩ := five_of_parse hparse
  obtain ⟨r', str', hok, hmade⟩ := parseRequest_five hfive
  rw [hmalloc, hok] at hparse
  cases hparse
  rw [hmade.rbp_eq]
  exact atol_e (hmade.p_eq ▸ he)

/-- A round goes over the page that its request asks for, or leaves physical memory as it is. -/
theorem Serves.phys (h : Serves s io t) : t.phys = s.phys ∨
    ∃ tmp, GoesOver s io tmp.pageFrame ∧ t.phys = io.dev.encryptPage tmp s.phys := by
  obtain ⟨fuel, replied, h⟩ := h
  obtain ⟨r, str, hparse⟩ := serveRound_parse h
  simp only [serveRound, hparse] at h
  split_ifs at h with he hvalue hd
  · obtain ⟨set, -, h⟩ := Option.map_eq_some_iff.mp h
    obtain ⟨ht, -, h⟩ := bind_eq_ok (x := set).mp h
    obtain ⟨⟨ret, phys⟩, henc, h⟩ := bind_eq_ok.mp h
    cases h
    rcases encryptStack_zero (rbp_zero hparse he ▸ henc) with heq | ⟨pm, tmp, hpm, hframe, heq⟩
    · exact Or.inl heq
    · exact Or.inr ⟨tmp, ⟨r, str, pm, hparse, he, hpm, hframe⟩, heq⟩
  · cases h
  · obtain ⟨value, -, h⟩ := Option.map_eq_some_iff.mp h
    cases h
    exact Or.inl rfl
  · cases h
    exact Or.inl rfl

end Rounds

/-- After any rounds, whatever was received, a byte of physical memory is one that was there before them, some whole
    number of pages below it, and that is no more pages than the rounds have gone over; and they have gone over at most
    one page each, that of the `rsp` of a request whose `rbp` starts with an `e`. -/
theorem pages_only_move {s t : Machine} {tr : List (Machine × Visit)} (hr : Run Serves s tr t) : ∃ rounds new,
    rounds.Sublist tr ∧ t.phys.accessed = s.phys.accessed ++ new ∧
    List.Forall₂ (fun e a => GoesOver e.1 e.2 a.pageFrame) rounds new ∧
    ∀ x, ∃ k ≤ new.length, 4096 * k ≤ x ∧ t.phys.mem x = s.phys.mem (x - 4096 * k) := by
  induction hr with
  | nil => exact ⟨[], [], List.Sublist.refl _, (List.append_nil _).symm, .nil, fun x =>
      ⟨0, Nat.le_refl _, Nat.zero_le _, rfl⟩⟩
  | @snoc tr u t io hr hs ih =>
    obtain ⟨rounds, new, hsub, haccessed, hover, hmem⟩ := ih
    rcases hs.phys with heq | ⟨tmp, hgoes, heq⟩
    · rw [heq]
      exact ⟨rounds, new, hsub.trans (List.sublist_append_left _ _), haccessed, hover, hmem⟩
    · refine ⟨rounds ++ [(u, io)], new ++ [access io.dev tmp], hsub.append (List.Sublist.refl _), ?_, ?_, fun x => ?_⟩
      · rw [heq, encryptPage_accessed, haccessed, List.append_assoc]
      · exact List.rel_append hover (.cons hgoes .nil)
      · rw [heq, List.length_append, List.length_singleton]
        rcases encryptPage_cell io.dev tmp u.phys x with hx | ⟨hle, hx⟩
        · obtain ⟨k, hk, hle, hkx⟩ := hmem x
          exact ⟨k, Nat.le_succ_of_le hk, hle, hx.trans hkx⟩
        · -- The byte comes from the page below, and there from some pages further below.
          obtain ⟨k, hk, hle', hkx⟩ := hmem (x - 4096)
          refine ⟨k + 1, Nat.succ_le_succ hk, by omega, hx.trans (hkx.trans ?_)⟩
          rw [Nat.sub_sub, Nat.mul_succ, Nat.add_comm]

/-- A request whose last token is an `e`, in a system with four pages. -/
def Visit.page : Visit where
  received := some ⟨"e f 1 4096 e ".toList.map ch, by decide⟩
  mallocName := true
  mallocValue := true
  padding _ := 0
  hashval := 0
  mallocPair := true
  mallocAreas := some fun _ => ⟨7, 7, 7⟩
  pagemap _ := some fun q => BitVec.ofNat 56 q
  dev := ⟨0x4000, fun _ => true, fun _ => true⟩

theorem pages_only_move_sample : ∃ (t : Machine) (rounds : List (Machine × Visit)) (new : List Access),
    rounds.Sublist [(Machine.sample, Visit.page)] ∧
    t.phys.accessed = Machine.sample.phys.accessed ++ new ∧
    List.Forall₂ (fun e a => GoesOver e.1 e.2 a.pageFrame) rounds new ∧
    ∀ x, ∃ k ≤ new.length, 4096 * k ≤ x ∧ t.phys.mem x = Machine.sample.phys.mem (x - 4096 * k) := by
  have hparse : ∃ r str, parseRequest Visit.page.mallocName (Visit.page.fill Machine.sample.str) = .ok (r, str) ∧
      r.p.headD 0 = ch 'e' ∧ r.rbp = 0 ∧ r.funcName.strlen < 2 ^ 32 := ⟨_, _, rfl, rfl, rfl, by decide⟩
  obtain ⟨r, str, hparse, he, hrbp, hname⟩ := hparse
  obtain ⟨t, fuel, hserve⟩ := (serveRound_e hparse he hrbp hname).mpr ⟨rfl, Or.inl rfl, rfl, rfl⟩
  exact ⟨t, pages_only_move (Run.nil.snoc ⟨fuel, true, hserve⟩)⟩

end StackVault
