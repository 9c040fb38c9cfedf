import StackVault.Theorems.Saving

/-! The scan of a whole frame, started at `user_rsp` with an empty save buffer: it ends, it has saved
    exactly the segments of the frame, and these are what it has cleared. -/

namespace StackVault
open Memory

/-- The start of the scan. -/
def Scan.start (userRsp : Addr) (v : Saved) : Scan := { v with i := userRsp, prevRsp := userRsp }

section Clearing
variable {env : Env} {plt : List Para} {userRsp userRbp : Addr} {v : Saved} {p : Nat} {b : Sbuf}

theorem Progress.start (hp : v.stackBuf = some p) (hb : v.heap.sbufs p = some b) (hcur : b.cur = 0)
    (hcap : 0 < b.cap) (hold : p < v.heap.next) : Progress v.mem [] v p b where
  ptr := hp
  live := hb
  room := by omega
  cap := hcap
  old := hold
  spans := by rw [Sbuf.segs_eq_nil.mpr hcur, List.map_nil]
  data e he := by rw [Sbuf.segs_eq_nil.mpr hcur] at he; cases he
  mem x := by rw [if_neg covers_nil]

theorem Steady.start (hp : v.stackBuf = some p) (hb : v.heap.sbufs p = some b) (hcur : b.cur = 0) :
    Steady env v.heap b.cap p v b where
  ptr := hp
  live := hb
  cap := rfl
  next := by rw [hcur, Nat.add_zero]
  others _ _ := rfl
  item i hi := by omega

/-- The scan ends with the segments of the frame saved and cleared. -/
theorem scan_ends (userRsp : Addr) (halloc : env.AllocOk) (hw : NoWrap plt) (hb : userRbp.toNat + 1 < 2 ^ 64)
    (hp : v.stackBuf = some p) (hlive : v.heap.sbufs p = some b) (hcur : b.cur = 0) (hcap : 0 < b.cap)
    (hold : p < v.heap.next) :
    ∃ fuel v' p' b', scan env plt userRbp fuel (.start userRsp v) = some (.ok v') ∧
      Progress v.mem (segments plt userRsp userRbp) v' p' b' ∧
      ((Steady env v.heap b.cap p v' b' ∧ p' = p) ∨ Moved b.cap p v' p' b') := by
  have hinner := segments_inner userRsp hw hb
  obtain ⟨v', p', b', hall, hprog, hcase⟩ := (Progress.start hp hlive hcur hcap hold).saveAll halloc
    hinner.apart (Or.inl ⟨Steady.start hp hlive hcur, rfl⟩)
  exact ⟨_, v', p', b', (scan_of_cut (l := .start userRsp v) (cut_segments _ hw hb)).trans (congrArg some hall),
    hprog, hcase⟩

/-- What an exact scan leaves: `mem` is memory before it, `mem'` after it, `segs` the segments it saved. -/
structure ExactlyCleared (plt : List Para) (userRsp userRbp : Addr) (mem mem' : Mem) (segs : List StackBuf) : Prop where
  nonempty : ∀ e ∈ segs, 0 < e.len.toNat
  ascending : segs.Pairwise fun e f => e.start.toNat + e.len.toNat ≤ f.start.toNat
  disjoint : segs.Pairwise fun e f => ∀ x, x ∈ e.span → x ∉ f.span
  inside : ∀ e ∈ segs, userRsp.toNat ≤ e.start.toNat ∧ e.start.toNat + e.len.toNat ≤ userRbp.toNat
  saved : ∀ e ∈ segs, ∀ k, k < e.len → e.data k = mem (e.start + k)
  filled : ∀ e ∈ segs, ∀ x ∈ e.span, mem' x = 0x30
  covered : ∀ x, userRsp ≤ x → x < userRbp → ¬ByValue plt x → ∃! e, e ∈ segs ∧ x ∈ e.span
  kept : ∀ x, (∀ e ∈ segs, x ∉ e.span) → mem' x = mem x

theorem mem_map_span {segs : List StackBuf} {x : Addr} :
    Covers (segs.map StackBuf.span) x ↔ ∃ e ∈ segs, x ∈ e.span := by
  simp [Covers]

theorem Inner.segs {segs : List StackBuf} (h : Inner userRsp userRbp (segs.map StackBuf.span)) :
    (∀ e ∈ segs, 0 < e.len.toNat) ∧ segs.Pairwise (fun e f => e.start.toNat + e.len.toNat ≤ f.start.toNat) ∧
      segs.Pairwise (fun e f => ∀ x, x ∈ e.span → x ∉ f.span) ∧
      ∀ e ∈ segs, userRsp.toNat ≤ e.start.toNat ∧ e.start.toNat + e.len.toNat ≤ userRbp.toNat :=
  ⟨fun _ he => h.nonempty _ (List.mem_map_of_mem he), List.pairwise_map.mp h.ascending, List.pairwise_map.mp h.apart,
    fun _ he => ⟨h.lower _ (List.mem_map_of_mem he), h.upper _ (List.mem_map_of_mem he)⟩⟩

theorem Progress.exactlyCleared {m : Mem} {v' : Saved} {p' : Nat} {b' : Sbuf} (hw : NoWrap plt)
    (hb : userRbp.toNat + 1 < 2 ^ 64) (hle : userRsp ≤ userRbp)
    (h : Progress m (segments plt userRsp userRbp) v' p' b') :
    ExactlyCleared plt userRsp userRbp m v'.mem b'.segs := by
  have hin := segments_inner userRsp hw hb
  rw [← h.spans] at hin
  obtain ⟨hne, hasc, hdisj, hinside⟩ := hin.segs
  have hcov : ∀ x, Covers (segments plt userRsp userRbp) x ↔ ∃ e ∈ b'.segs, x ∈ e.span := fun x => by
    rw [← h.spans, mem_map_span]
  refine ⟨hne, hasc, hdisj, hinside, h.data, fun e he x hx => ?_, fun x h1 h2 hnot => ?_, fun x hx => ?_⟩
  · rw [h.mem, if_pos ((hcov x).mpr ⟨e, he, hx⟩)]
  · obtain ⟨e, he, hx⟩ := (hcov x).mp ((segments_cover hw hb hle h1 h2).resolve_right hnot)
    refine ⟨e, ⟨he, hx⟩, fun f ⟨hf, hxf⟩ => ?_⟩
    by_contra hne
    have hsymm : Std.Symm fun e f : StackBuf => ∀ x, x ∈ e.span → x ∉ f.span := ⟨fun _ _ h => Range.Apart.symm h⟩
    exact hdisj.forall hf he hne x hxf hx
  · rw [h.mem, if_neg fun hc => ?_]
    obtain ⟨e, he, hxe⟩ := (hcov x).mp hc
    exact hx e he hxe

/-- The scan loop is exact: over every memory, frame and parameter list it ends, however it has to grow
    the save buffer, and it has saved and cleared each byte of the frame that no by-value entry has. -/
theorem scan_exact (halloc : env.AllocOk) (hw : NoWrap plt) (hle : userRsp ≤ userRbp)
    (hb : userRbp.toNat < 2 ^ 64 - 1) (hfresh : v.heap.Fresh) (hp : v.stackBuf = some p)
    (hlive : v.heap.sbufs p = some b) (hcur : b.cur = 0) (hcap : 0 < b.cap) :
    (∃ fuel r, scan env plt userRbp fuel (.start userRsp v) = some r) ∧
    ∀ fuel r, scan env plt userRbp fuel (.start userRsp v) = some r →
      ∃ v' p' b', r = .ok v' ∧ v'.stackBuf = some p' ∧ v'.heap.sbufs p' = some b' ∧
        ExactlyCleared plt userRsp userRbp v.mem v'.mem b'.segs := by
  have hb' : userRbp.toNat + 1 < 2 ^ 64 := by omega
  obtain ⟨fuel, v', p', b', hscan, hprog, -⟩ :=
    scan_ends userRsp halloc hw hb' hp hlive hcur hcap (hfresh.lt hlive)
  refine ⟨⟨fuel, _, hscan⟩, fun fuel' r hr => ⟨v', p', b', scan_unique hr hscan, hprog.ptr, hprog.live, ?_⟩⟩
  exact hprog.exactlyCleared hw hb' hle

end Clearing

/-- The frame `[0x1000, 0x1010)` with a parameter in the middle of it, over a fresh buffer. -/
theorem scan_exact_sample :
    let v : Saved := ⟨some 0, (initStackBuf Env.sample 32 loaded.heap).2, fun x => x.setWidth 8⟩
    let plt : List Para := [⟨0x100c, 8, 1⟩, ⟨0x1004, 4, 0⟩]
    (∃ fuel r, scan Env.sample plt 0x1010 fuel (.start 0x1000 v) = some r) ∧
    ∀ fuel r, scan Env.sample plt 0x1010 fuel (.start 0x1000 v) = some r →
      ∃ v' p' b', r = .ok v' ∧ v'.stackBuf = some p' ∧ v'.heap.sbufs p' = some b' ∧
        ExactlyCleared plt 0x1000 0x1010 v.mem v'.mem b'.segs := by
  intro v plt
  have hw : NoWrap plt := by
    intro p hp _
    simp only [plt, List.mem_cons, List.not_mem_nil, or_false] at hp
    rcases hp with rfl | rfl <;> decide
  have hfresh : v.heap.Fresh := fun q hq => if_neg (Nat.ne_of_gt hq)
  exact scan_exact Env.sample_allocOk hw (by decide) (by decide) hfresh rfl rfl rfl (by decide)

end StackVault
