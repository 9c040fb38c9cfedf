import StackVault.Lib.Twofold
import StackVault.Theorems.Layout
import StackVault.Theorems.Trace

/-! The chase with the list in memory. While nothing is written over the list, its entries are read as they were
    at the start, but for the depths that the chase itself has counted down; so the chase with the list as a value
    is followed step by step, and memory is the same but for the depths, which are those of the value. -/

namespace StackVault
open Memory Twofold

/-! ### Counting down -/

/-- The head of the list is not among the depths of its entries. -/
def Formed (arg : Addr) (m : Mem) : Prop :=
  ∀ x, x ∈ (⟨arg, 4⟩ : Span) ∨ x ∈ (⟨arg + 8, 8⟩ : Span) → ¬Covers (depthSpans arg m) x

theorem SameList.formed {arg : Addr} {m m' : Mem} (h : SameList arg m m') (hf : Formed arg m) : Formed arg m' :=
  fun x hx hd => hf x hx (h.depthSpans ▸ hd)

theorem Formed.of_beside {arg : Addr} {m : Mem}
    (h : ∀ r ∈ [⟨arg, 4⟩, ⟨arg + 8, 8⟩], ∀ s ∈ depthSpans arg m, Range.Beside r s) : Formed arg m := fun x hx => by
  refine not_covers_of_beside h ?_
  rcases hx with hx | hx
  · exact ⟨_, List.mem_cons_self, hx⟩
  · exact ⟨_, List.mem_cons_of_mem _ List.mem_cons_self, hx⟩

section Depths
variable {arg tmp plist x : Addr} {m : Mem} {v : BitVec 32} {i j : Nat}

theorem sizeAt_lt (m : Mem) (arg : Addr) : sizeAt m arg < 2 ^ 31 := by
  have := BitVec.toInt_lt (x := load32 m arg)
  unfold sizeAt
  omega

/-- How far a byte of an entry is from the begin of the array. -/
theorem offset_of_mem {k n : Addr} (hi : i < 2 ^ 31) (hk : k.toNat + n.toNat ≤ 20)
    (hx : x ∈ (⟨entryAddr plist i + k, n⟩ : Span)) :
    24 * i + k.toNat ≤ (x - plist).toNat ∧ (x - plist).toNat < 24 * i + k.toNat + n.toNat := by
  rw [Range.mem_def, BitVec.lt_def] at hx
  dsimp only at hx
  have hoff : x - plist = x - (entryAddr plist i + k) + BitVec.ofNat 64 (24 * i) + k := by
    unfold entryAddr
    abel
  rw [hoff, BitVec.toNat_add, BitVec.toNat_add, BitVec.toNat_ofNat]
  omega

/-- The depth of an entry lies in no other entry. -/
theorem depth_apart (hi : i < 2 ^ 31) (hj : j < 2 ^ 31) (hne : i ≠ j) (hx : x ∈ depthSpan (entryAddr plist i)) :
    x ∉ (⟨entryAddr plist j, 20⟩ : Span) := by
  intro hx'
  have h1 := offset_of_mem hi (by decide) hx
  have h2 := offset_of_mem (k := 0) (n := 20) hj (by decide) (by rwa [add_zero])
  simp only [BitVec.reduceToNat] at h1 h2
  omega

theorem depth_apart_fields (hx : x ∈ depthSpan tmp) : x ∉ (⟨tmp, 8⟩ : Span) ∧ x ∉ (⟨tmp + 8, 8⟩ : Span) := by
  simp only [depthSpan, Range.mem_def, BitVec.lt_def] at hx ⊢
  bv_omega

theorem paraAt_counted : paraAt (store32 m (tmp + 16) v) tmp = { paraAt m tmp with pointer := v } := by
  have haddr : load64 (store32 m (tmp + 16) v) tmp = load64 m tmp := load64_congr (by decide) fun x hx =>
    store32_of_not_mem fun hd => (depth_apart_fields hd).1 hx
  have hsize : load64 (store32 m (tmp + 16) v) (tmp + 8) = load64 m (tmp + 8) := load64_congr (by decide) fun x hx =>
    store32_of_not_mem fun hd => (depth_apart_fields hd).2 hx
  rw [paraAt, haddr, hsize, load32_store32 (by decide), paraAt]

theorem paraAt_other (hi : i < 2 ^ 31) (hj : j < 2 ^ 31) (hne : i ≠ j) :
    paraAt (store32 m (entryAddr plist i + 16) v) (entryAddr plist j) = paraAt m (entryAddr plist j) :=
  paraAt_congr fun _ hx => store32_of_not_mem fun hd => depth_apart hi hj hne hd hx

end Depths

/-! ### The chase beside the list as a value -/

/-- `d` is the chase `c` with the list `plt` in memory: as it was in `m₀` at the start, but for its depths. -/
structure Tracks (arg : Addr) (m₀ : Mem) (plt : List Para) (c d : Chase) : Prop where
  size : sizeAt d.mem arg = sizeAt m₀ arg
  plist : plistAt d.mem arg = plistAt m₀ arg
  list : listAt arg d.mem = plt
  off : ∀ x, ¬Covers (depthSpans arg m₀) x → d.mem x = c.mem x
  heap : d.heap = c.heap
  written : d.written = c.written

/-- No byte of the range is one of the list. -/
def Clear (arg : Addr) (m : Mem) (r : Span) : Prop := ∀ x ∈ r, ¬Covers (listSpans arg m) x

namespace Tracks
variable {arg x len : Addr} {m₀ : Mem} {plt pre rest : List Para} {tmp : Para} {c d : Chase} {src : Addr → Byte}
  {r : Span}

theorem start (arg : Addr) (c : Chase) : Tracks arg c.mem (listAt arg c.mem) c c :=
  ⟨rfl, rfl, rfl, fun _ _ => rfl, rfl, rfl⟩

theorem spans (h : Tracks arg m₀ plt c d) : listSpans arg d.mem = listSpans arg m₀ := by
  rw [listSpans, h.size, h.plist, listSpans]

theorem length (h : Tracks arg m₀ plt c d) : plt.length = sizeAt m₀ arg := by
  rw [← h.list, length_listAt, h.size]

/-- A range off the list is written. -/
theorem write (h : Tracks arg m₀ plt c d) (hr : Clear arg m₀ r) {heap : Heap} {written : List Span} :
    Tracks arg m₀ plt ⟨blit c.mem r src, heap, written⟩ ⟨blit d.mem r src, heap, written⟩ := by
  have hsame : SameList arg d.mem (blit d.mem r src) := fun x hx => blit_of_not_mem fun hxr => hr x hxr (h.spans ▸ hx)
  refine ⟨hsame.sizeAt.trans h.size, hsame.plistAt.trans h.plist, hsame.listAt.trans h.list, fun x hx => ?_, rfl, rfl⟩
  by_cases hxr : x ∈ r
  · exact (blit_of_mem hxr).trans (blit_of_mem hxr).symm
  · exact (blit_of_not_mem hxr).trans ((h.off x hx).trans (blit_of_not_mem hxr).symm)

/-- A word off the list is the same. -/
theorem load (h : Tracks arg m₀ plt c d) (hr : Clear arg m₀ ⟨x, 8⟩) : load64 d.mem x = load64 c.mem x :=
  load64_congr (by decide) fun y hy => h.off y fun hd => hr y hy (covers_listSpans_of_depth hd)

/-- The entry that comes after `pre`. -/
theorem entry (h : Tracks arg m₀ (pre ++ tmp :: rest) c d) :
    pre.length < sizeAt d.mem arg ∧ paraAt d.mem (entryAddr (plistAt m₀ arg) pre.length) = tmp := by
  have hlt : pre.length < sizeAt d.mem arg := by
    have hlen := h.length
    rw [List.length_append, List.length_cons] at hlen
    rw [h.size]
    omega
  refine ⟨hlt, ?_⟩
  have hget : (listAt arg d.mem)[pre.length]? = some tmp := by rw [h.list]; simp
  rw [listAt_get hlt, h.plist] at hget
  exact Option.some.inj hget

/-- There is one while the size of the list is not reached. -/
theorem next (h : Tracks arg m₀ (pre ++ rest) c d) (hlt : pre.length < sizeAt d.mem arg) :
    ∃ tmp post, rest = tmp :: post ∧ paraAt d.mem (entryAddr (plistAt d.mem arg) pre.length) = tmp := by
  cases rest with
  | nil =>
    have hlen := h.length
    rw [List.append_nil, ← h.size] at hlen
    exact absurd hlt (hlen ▸ Nat.lt_irrefl _)
  | cons tmp post =>
    rw [h.plist]
    exact ⟨tmp, post, rfl, h.entry.2⟩

/-- The depth of that entry is counted down. -/
theorem count (h : Tracks arg m₀ (pre ++ tmp :: rest) c d) (hform : Formed arg m₀) :
    Tracks arg m₀ (pre ++ { tmp with pointer := tmp.pointer - 1 } :: rest) c
      (User.countDown (entryAddr (plistAt m₀ arg) pre.length) d) := by
  obtain ⟨hlt, hentry⟩ := h.entry
  have hdepth : User.depthAt d.mem (entryAddr (plistAt m₀ arg) pre.length) = tmp.pointer := congrArg Para.pointer hentry
  have hkept : ∀ x, ¬Covers (depthSpans arg m₀) x →
      (User.countDown (entryAddr (plistAt m₀ arg) pre.length) d).mem x = d.mem x := fun x hx =>
    store32_of_not_mem fun hd => hx (mem_depthSpans.mpr ⟨pre.length, h.size ▸ hlt, hd⟩)
  obtain ⟨hsize, hplist⟩ := head_congr fun x hx => hkept x (hform x hx)
  rw [h.plist] at hplist
  refine ⟨hsize.trans h.size, hplist, ?_, fun x hx => (hkept x hx).trans (h.off x hx), h.heap, h.written⟩
  have hlen : (pre ++ { tmp with pointer := tmp.pointer - 1 } :: rest).length = sizeAt d.mem arg := by
    rw [h.size, ← h.length]
    simp
  have hbound := sizeAt_lt d.mem arg
  refine List.ext_getElem? fun i => ?_
  by_cases hi : i < sizeAt d.mem arg
  · have hold : (pre ++ tmp :: rest)[i]? = some (paraAt d.mem (entryAddr (plistAt m₀ arg) i)) := by
      rw [← h.list, listAt_get hi, h.plist]
    rw [listAt_get (hsize.symm ▸ hi), hplist]
    rcases Nat.lt_trichotomy i pre.length with hlt' | rfl | hgt
    · rw [User.countDown, paraAt_other (by omega) (by omega) (by omega), ← hold, List.getElem?_append_left hlt',
        List.getElem?_append_left hlt']
    · rw [User.countDown, paraAt_counted, hentry, hdepth]
      simp
    · rw [User.countDown, paraAt_other (by omega) (by omega) (by omega), ← hold, List.getElem?_append_right (by omega),
        List.getElem?_append_right (by omega)]
      obtain ⟨k, hk⟩ := Nat.exists_eq_succ_of_ne_zero (n := i - pre.length) (by omega)
      rw [hk]
      rfl
  · rw [List.getElem?_eq_none (by rw [length_listAt, hsize]; omega), List.getElem?_eq_none (by omega)]

end Tracks

/-! ### The chase step by step -/

/-- The faults are the same. -/
def SameFault (e e' : Crash) : Prop := e'.fault = e.fault

/-- Tests that the loops over a list come to. -/
def steps : List Para → Nat
  | [] => 1
  | tmp :: rest => tmp.pointer.toNat + 1 + steps rest

section Follow
variable {env : Env} {arg x k size len : Addr} {m₀ : Mem} {p : SbufPtr} {b : Sbuf} {c₀ c d : Chase} {ws : List Span}
  {plt pre rest : List Para} {tmp : Para} {fuel : Nat}

theorem writeBack_follows (h : Tracks arg m₀ plt c d)
    (hr : ∀ src, kread b.segs k len = .ok src → Clear arg m₀ ⟨x, len⟩) :
    Ends SameFault (Tracks arg m₀ plt) (writeBack env p b x k len c) (writeBack env p b x k len d) := by
  unfold writeBack
  rw [h.heap, h.written]
  cases hk : kread b.segs k len with
  | error f => exact .error rfl
  | ok src =>
    dsimp only
    split_ifs
    · exact .error rfl
    · exact .error rfl
    · exact .ok (h.write (hr src hk))

variable (env) in
/-- A cell is written back alike, and holds the same address then. -/
theorem restoreCell_follows (h : Tracks arg m₀ plt (Chase.after p b c₀ ws) d)
    (hlog : (cellTrail b.segs ((b.entry 0).holeList.home = (p, 0)) x).Logs (Clear arg m₀)) :
    Ends SameFault (fun c' d' => Tracks arg m₀ plt c' d' ∧ Clear arg m₀ ⟨x, 8⟩ ∧
        c' = Chase.after p b c₀ (ws ++ (cellTrail b.segs ((b.entry 0).holeList.home = (p, 0)) x).log) ∧
        (cellTrail b.segs ((b.entry 0).holeList.home = (p, 0)) x).result = .ok (load64 c'.mem x))
      (restoreCell env (some p) x (Chase.after p b c₀ ws)) (restoreCell env (some p) x d) := by
  have htell : (restoreCell env (some p) x (Chase.after p b c₀ ws)).map _ = _ := restoreCell_tell
  have hsame := b.sameBytes_withHoles (ws.map (holeOf b.segs))
  have hfollows : Ends SameFault (Tracks arg m₀ plt) (restoreCell env (some p) x (Chase.after p b c₀ ws))
      (restoreCell env (some p) x d) := by
    unfold restoreCell
    rw [h.heap, Chase.after_deref]
    dsimp only
    refine writeBack_follows h fun src hk => ?_
    rw [hsame.find, hsame.kread] at hk
    exact hlog _ (Trail.mem_log_bind_left (mem_writeBackTrail hk))
  refine hfollows.imp fun c' d' hc ht => ?_
  rw [hc] at htell
  obtain ⟨hres, hafter, -⟩ := Trail.tellWhile_eq_ok htell.symm
  refine ⟨ht, ?_, hafter, hres⟩
  obtain ⟨src, hw, -⟩ := Trail.bind_result_eq_ok hres
  exact hlog _ (Trail.mem_log_bind_left (mem_writeBackTrail (writeBackTrail_ok hw)))

variable (env) in
/-- The inner loop: `n` is what the list has left of the depth of the entry after `pre`. -/
theorem chase_follows (hform : Formed arg m₀) : ∀ {n fuel : Nat} {x : Addr} {ws : List Span} {tmp : Para} {d : Chase},
    tmp.pointer.toNat = n → n < fuel → Tracks arg m₀ (pre ++ tmp :: rest) (Chase.after p b c₀ ws) d →
    (chaseTrail b.segs ((b.entry 0).holeList.home = (p, 0)) n x).Logs (Clear arg m₀) →
    ∃ r, User.chase env (some p) (entryAddr (plistAt m₀ arg) pre.length) fuel x d = some r ∧
      Ends SameFault (fun u w => w.1 = u.1 ∧ Tracks arg m₀ (pre ++ { tmp with pointer := 0 } :: rest) u.2 w.2 ∧
          u.2 = Chase.after p b c₀ (ws ++ (chaseTrail b.segs ((b.entry 0).holeList.home = (p, 0)) n x).log) ∧
          (chaseTrail b.segs ((b.entry 0).holeList.home = (p, 0)) n x).result = .ok u.1)
        (chase env (some p) n x (Chase.after p b c₀ ws)) r
  | _, 0, _, _, _, _, _, hlt, _, _ => absurd hlt (Nat.not_lt_zero _)
  | 0, fuel + 1, x, ws, tmp, d, hn, _, h, _ => by
    have h0 : tmp.pointer = 0 := BitVec.eq_of_toNat_eq hn
    have hdepth : User.depthAt d.mem (entryAddr (plistAt m₀ arg) pre.length) = 0 :=
      (congrArg Para.pointer h.entry.2).trans h0
    unfold User.chase
    rw [if_pos hdepth]
    refine ⟨_, rfl, .ok ⟨rfl, ?_, by rw [chaseTrail, Trail.pure_log, List.append_nil], rfl⟩⟩
    rw [← h0]
    exact h
  | n + 1, fuel + 1, x, ws, tmp, d, hn, hlt, h, hlog => by
    have h0 : tmp.pointer ≠ 0 := fun h0 => by
      rw [h0] at hn
      exact absurd hn (Nat.succ_ne_zero n).symm
    have hdepth : User.depthAt d.mem (entryAddr (plistAt m₀ arg) pre.length) ≠ 0 := fun hz =>
      h0 ((congrArg Para.pointer h.entry.2).symm.trans hz)
    unfold User.chase
    rw [if_neg hdepth]
    unfold chaseTrail at hlog ⊢
    obtain ⟨hcell, hrest⟩ := hlog.of_bind
    have hstep := restoreCell_follows env h hcell
    cases hc : restoreCell env (some p) x (Chase.after p b c₀ ws) with
    | error e =>
      rw [hc] at hstep
      obtain ⟨e', he', hf⟩ := hstep.of_error
      rw [he']
      refine ⟨_, rfl, ?_⟩
      unfold chase
      rw [hc]
      exact .error hf
    | ok c' =>
      rw [hc] at hstep
      obtain ⟨d', hd', ht, hclear, hafter, hres⟩ := hstep.of_ok
      rw [hd', Trail.bind_of_ok hres]
      -- The depth is counted down after the cell has been written back, and before the next address is read.
      have hcount := ht.count hform
      rw [hafter] at hcount hres ⊢
      obtain ⟨r, hr, hends⟩ := chase_follows hform
        (show (tmp.pointer - 1).toNat = n by bv_omega) (show n < fuel by omega) hcount (hrest _ hres)
      dsimp only
      rw [hcount.load hclear]
      refine ⟨r, hr, ?_⟩
      unfold chase
      rw [hc, hafter, List.append_assoc] at *
      exact hends

variable (env) in
theorem restoreTarget_follows (h : Tracks arg m₀ plt (Chase.after p b c₀ ws) d)
    (hlog : (targetTrail b.segs ((b.entry 0).holeList.home = (p, 0)) x size).Logs (Clear arg m₀)) :
    Ends SameFault (Tracks arg m₀ plt) (restoreTarget env (some p) x size (Chase.after p b c₀ ws))
      (restoreTarget env (some p) x size d) := by
  have hsame := b.sameBytes_withHoles (ws.map (holeOf b.segs))
  unfold restoreTarget
  rw [h.heap, Chase.after_deref]
  dsimp only
  rw [hsame.find]
  split_ifs with h0
  · refine writeBack_follows h fun src hk => ?_
    rw [hsame.kread] at hk
    unfold targetTrail at hlog
    rw [if_neg h0] at hlog
    exact hlog _ (Trail.mem_log_bind_left (mem_writeBackTrail hk))
  · exact .ok h

variable (env) in
/-- One entry. -/
theorem restorePointer_follows (hform : Formed arg m₀) (h0 : tmp.pointer ≠ 0) (hfuel : tmp.pointer.toNat ≤ fuel)
    (h : Tracks arg m₀ (pre ++ tmp :: rest) (Chase.after p b c₀ ws) d)
    (hlog : (pointerTrail b.segs ((b.entry 0).holeList.home = (p, 0)) tmp).Logs (Clear arg m₀)) :
    ∃ r, User.restorePointer env (some p) fuel (entryAddr (plistAt m₀ arg) pre.length) d = some r ∧
      Ends SameFault (fun u w =>
          (u = none ∧ w.1 = false ∧
            Tracks arg m₀ (pre ++ { tmp with pointer := tmp.pointer - 1 } :: rest) (Chase.after p b c₀ ws) w.2) ∨
          ∃ c', u = some c' ∧ w.1 = true ∧ Tracks arg m₀ (pre ++ { tmp with pointer := 0 } :: rest) c' w.2)
        (restorePointer env (some p) tmp (Chase.after p b c₀ ws)) r := by
  have hentry := h.entry.2
  have haddr : load64 d.mem (entryAddr (plistAt m₀ arg) pre.length) = tmp.addr := congrArg Para.addr hentry
  have hsize : load64 d.mem (entryAddr (plistAt m₀ arg) pre.length + 8) = tmp.size := congrArg Para.size hentry
  have hcount := h.count hform
  have hfind := (b.sameBytes_withHoles (ws.map (holeOf b.segs))).find tmp.addr 8
  unfold User.restorePointer restorePointer
  dsimp only
  rw [haddr, hsize, hcount.heap, Chase.after_deref]
  dsimp only
  rw [hfind]
  by_cases hz : findInStackBuf tmp.addr 8 b.segs = 0
  · rw [if_pos hz, if_pos hz]
    exact ⟨_, rfl, .ok (Or.inl ⟨rfl, rfl, hcount⟩)⟩
  · rw [if_neg hz, if_neg hz]
    unfold pointerTrail at hlog
    rw [if_neg hz] at hlog
    obtain ⟨hcell, hlog⟩ := hlog.of_bind
    have hstep := restoreCell_follows env hcount hcell
    cases hc : restoreCell env (some p) tmp.addr (Chase.after p b c₀ ws) with
    | error e =>
      rw [hc] at hstep
      obtain ⟨e', he', hf⟩ := hstep.of_error
      rw [he']
      exact ⟨_, rfl, .error hf⟩
    | ok c₁ =>
      rw [hc] at hstep
      obtain ⟨d₁, hd₁, ht, hclear, hafter, hres⟩ := hstep.of_ok
      obtain ⟨hchain, hlog⟩ := (hlog _ hres).of_bind
      have hpred : (tmp.pointer - 1).toNat < fuel := by bv_omega
      rw [hd₁]
      dsimp only
      rw [ht.load hclear]
      rw [hafter] at ht hchain hlog ⊢
      obtain ⟨r, hr, hends⟩ := chase_follows env hform rfl hpred ht hchain
      rw [hr]
      refine ⟨_, rfl, hends.bind ?_⟩
      rintro ⟨a, c₂⟩ ⟨a', d₂⟩ ⟨ha, ht, hafter, hres⟩
      dsimp only at ha ht hafter ⊢
      rw [hafter] at ht ⊢
      rw [ha]
      refine (restoreTarget_follows env ht (hlog _ hres).of_bind.1).bind fun c₃ d₃ ht => ?_
      exact .ok (Or.inr ⟨c₃, rfl, rfl, ht⟩)

variable (env) in
/-- The list from the entry after `pre` on. -/
theorem restoreFrom_follows (hform : Formed arg m₀) :
    ∀ {rest pre : List Para} {fuel : Nat} {ws : List Span} {d : Chase},
    steps rest ≤ fuel → Tracks arg m₀ (pre ++ rest) (Chase.after p b c₀ ws) d →
    (pointersTrail b.segs ((b.entry 0).holeList.home = (p, 0)) rest).Logs (Clear arg m₀) →
    ∃ r, User.restoreFrom env (some p) arg fuel pre.length d = some r ∧
      Ends SameFault (fun u w => w.1 = u.1 ∧ Tracks arg m₀ (pre ++ u.2.1) u.2.2 w.2)
        (restorePointers env (some p) rest (Chase.after p b c₀ ws)) r
  | [], pre, 0, _, _, hf, _, _ => absurd hf (by decide)
  | [], pre, fuel + 1, ws, d, _, h, _ => by
    have hlen := h.length
    rw [List.append_nil] at hlen
    unfold User.restoreFrom
    rw [if_neg (by rw [h.size]; omega)]
    exact ⟨_, rfl, .ok ⟨rfl, h⟩⟩
  | tmp :: rest, pre, 0, _, _, hf, _, _ => absurd hf (by simp [steps])
  | tmp :: rest, pre, fuel + 1, ws, d, hf, h, hlog => by
    obtain ⟨hlt, hentry⟩ := h.entry
    have hdepth : User.depthAt d.mem (entryAddr (plistAt m₀ arg) pre.length) = tmp.pointer :=
      congrArg Para.pointer hentry
    unfold steps at hf
    unfold User.restoreFrom restorePointers
    rw [if_pos hlt]
    dsimp only
    rw [h.plist, hdepth]
    unfold pointersTrail at hlog
    by_cases h0 : tmp.pointer = 0
    · rw [if_pos h0] at hlog
      rw [if_pos h0, if_pos h0]
      rw [List.append_cons] at h
      obtain ⟨r, hr, hends⟩ := restoreFrom_follows hform (show steps rest ≤ fuel by omega) h hlog.of_bind.1
      rw [List.length_append, List.length_singleton] at hr
      exact ⟨r, hr, hends.map_left fun u w hw => ⟨hw.1, by rw [List.append_cons]; exact hw.2⟩⟩
    · rw [if_neg h0] at hlog
      rw [if_neg h0, if_neg h0]
      obtain ⟨hpointer, hlog⟩ := hlog.of_bind
      obtain ⟨r, hr, hends⟩ := restorePointer_follows env hform h0 (show tmp.pointer.toNat ≤ fuel by omega) h hpointer
      rw [hr]
      have htell : restorePointer env (some p) tmp (Chase.after p b c₀ ws) = _ := restorePointer_tell
      cases hc : restorePointer env (some p) tmp (Chase.after p b c₀ ws) with
      | error e =>
        rw [hc] at hends
        obtain ⟨e', rfl, hf⟩ := hends.of_error
        exact ⟨_, rfl, .error hf⟩
      | ok u =>
        rw [hc] at hends htell
        obtain ⟨⟨found, d'⟩, rfl, hw⟩ := hends.of_ok
        rcases hw with ⟨rfl, hfound, ht⟩ | ⟨c', rfl, hfound, ht⟩
        · dsimp only at hfound ht
          rw [hfound]
          exact ⟨_, rfl, .ok ⟨rfl, ht⟩⟩
        · dsimp only at hfound ht
          obtain ⟨⟨found', c''⟩, hs, hsome⟩ := map_eq_ok.mp htell.symm
          obtain ⟨hres, hafter, -⟩ := Trail.tellWhile_eq_ok hs
          dsimp only at hres hafter hsome
          cases found' with
          | false => cases hsome
          | true =>
            obtain rfl : c'' = c' := Option.some.inj hsome
            rw [hfound]
            rw [hafter, List.append_cons] at ht
            obtain ⟨r, hr, hends⟩ :=
              restoreFrom_follows hform (show steps rest ≤ fuel by omega) ht (hlog _ hres).of_bind.1
            rw [List.length_append, List.length_singleton] at hr
            rw [hafter]
            exact ⟨r, hr, hends.map_left fun u w hw => ⟨hw.1, by rw [List.append_cons]; exact hw.2⟩⟩

end Follow

/-! ### More iterations -/

section Mono
variable {env : Env} {sbuf : Option SbufPtr} {arg tmp : Addr}

theorem User.chase_mono : ∀ {fuel fuel' : Nat} {x : Addr} {c : Chase} {r : Except Crash (Addr × Chase)}, fuel ≤ fuel' →
    User.chase env sbuf tmp fuel x c = some r → User.chase env sbuf tmp fuel' x c = some r
  | 0, _, _, _, _, _, h => by cases h
  | fuel + 1, 0, _, _, _, hf, _ => by omega
  | fuel + 1, fuel' + 1, x, c, r, hf, h => by
    unfold User.chase at h ⊢
    by_cases h0 : User.depthAt c.mem tmp = 0
    · rw [if_pos h0] at h ⊢
      exact h
    · rw [if_neg h0] at h ⊢
      cases hc : restoreCell env sbuf x c with
      | error e => rwa [hc] at h
      | ok c' =>
        rw [hc] at h
        exact User.chase_mono (by omega) h

theorem User.restorePointer_mono {fuel fuel' : Nat} {c : Chase} {r : Except Crash (Bool × Chase)} (hf : fuel ≤ fuel')
    (h : User.restorePointer env sbuf fuel tmp c = some r) : User.restorePointer env sbuf fuel' tmp c = some r := by
  unfold User.restorePointer at h ⊢
  dsimp only at h ⊢
  split at h
  · exact h
  · split at h
    · rw [if_pos ‹_›]
      exact h
    · rw [if_neg ‹_›]
      split at h
      · exact h
      · obtain ⟨x, hx, rfl⟩ := Option.map_eq_some_iff.mp h
        rw [User.chase_mono hf hx, Option.map_some]

theorem User.restoreFrom_mono : ∀ {fuel fuel' i : Nat} {c : Chase} {r : Except Crash (Int × Chase)}, fuel ≤ fuel' →
    User.restoreFrom env sbuf arg fuel i c = some r → User.restoreFrom env sbuf arg fuel' i c = some r
  | 0, _, _, _, _, _, h => by cases h
  | fuel + 1, 0, _, _, _, hf, _ => by omega
  | fuel + 1, fuel' + 1, i, c, r, hf, h => by
    have hf' : fuel ≤ fuel' := by omega
    unfold User.restoreFrom at h ⊢
    by_cases hi : i < sizeAt c.mem arg
    · rw [if_pos hi] at h ⊢
      dsimp only at h ⊢
      by_cases h0 : User.depthAt c.mem (entryAddr (plistAt c.mem arg) i) = 0
      · rw [if_pos h0] at h ⊢
        exact User.restoreFrom_mono hf' h
      · rw [if_neg h0] at h ⊢
        split at h
        · cases h
        · next e he =>
          rw [User.restorePointer_mono hf' he]
          exact h
        · next c' he =>
          rw [User.restorePointer_mono hf' he]
          exact h
        · next c' he =>
          rw [User.restorePointer_mono hf' he]
          exact User.restoreFrom_mono hf' h
    · rw [if_neg hi] at h ⊢
      exact h

/-- The loop has one result, whatever number of iterations was enough for it. -/
theorem User.restoreFrom_unique {fuel fuel' i : Nat} {c : Chase} {r r' : Except Crash (Int × Chase)}
    (h : User.restoreFrom env sbuf arg fuel i c = some r) (h' : User.restoreFrom env sbuf arg fuel' i c = some r') :
    r = r' :=
  Option.some.inj ((User.restoreFrom_mono (Nat.le_max_left fuel fuel') h).symm.trans
    (User.restoreFrom_mono (Nat.le_max_right fuel fuel') h'))

end Mono

/-! ### Wherever the list lies -/

namespace User

/-- From `c` the chase comes to a place by write-backs of what the look-up finds, and by counting down the depths of the
    entries `ts`, in this order. -/
inductive Reaches (env : Env) (sbuf : Option SbufPtr) (c : Chase) : List Addr → Chase → Prop where
  | start : Reaches env sbuf c [] c
  | write {ts : List Addr} {d d' : Chase} {p : SbufPtr} {b : Sbuf} {x len : Addr} (h : Reaches env sbuf c ts d)
      (hd : d.heap.deref sbuf = .ok (p, b)) (hw : writeBack env p b x (findInStackBuf x len b.segs) len d = .ok d') :
      Reaches env sbuf c ts d'
  | count {ts : List Addr} {d : Chase} (h : Reaches env sbuf c ts d) (tmp : Addr) :
      Reaches env sbuf c (ts ++ [tmp]) (countDown tmp d)

section Reaches
variable {env : Env} {sbuf : Option SbufPtr} {arg tmp x a : Addr} {ts ts' : List Addr} {c d e : Chase} {fuel i : Nat}
  {ret : Int} {found : Bool}

namespace Reaches

theorem trans (h : Reaches env sbuf c ts d) (h' : Reaches env sbuf d ts' e) : Reaches env sbuf c (ts ++ ts') e := by
  induction h' with
  | start =>
    rw [List.append_nil]
    exact h
  | write _ hd hw ih => exact ih.write hd hw
  | count _ tmp ih =>
    rw [← List.append_assoc]
    exact ih.count tmp

theorem cell (h : restoreCell env sbuf x c = .ok d) : Reaches env sbuf c [] d := by
  obtain ⟨p, b, hd, hw⟩ := restoreCell_inv h
  exact Reaches.start.write hd hw

theorem target {size : Addr} (h : restoreTarget env sbuf x size c = .ok d) : Reaches env sbuf c [] d := by
  rcases restoreTarget_inv h with rfl | ⟨p, b, hd, hw⟩
  · exact .start
  · exact Reaches.start.write hd hw

theorem counted (tmp : Addr) (c : Chase) : Reaches env sbuf c (List.replicate 1 tmp) (countDown tmp c) :=
  Reaches.start.count tmp

theorem more {n k : Nat} (h : Reaches env sbuf c (List.replicate n tmp) d)
    (h' : Reaches env sbuf d (List.replicate k tmp) e) :
    Reaches env sbuf c (List.replicate (n + k) tmp) e := by
  rw [List.replicate_add]
  exact h.trans h'

/-- What has been written back stays on record. -/
theorem written (h : Reaches env sbuf c ts d) : c.written <+: d.written := by
  induction h with
  | start => exact List.prefix_rfl
  | write _ _ hw ih =>
    obtain ⟨src, -, -, rfl⟩ := writeBack_inv hw
    exact ih.trans (List.prefix_append _ _)
  | count _ _ ih => exact ih

/-- The heap keeps everything but the holes. -/
theorem holed {p : Nat} (h : Reaches env (some p) c ts d) : Holed p c.heap d.heap := by
  have hR : KeptByWrites env (some p) fun c c' => Holed p c.heap c'.heap := holed_write
  induction h with
  | start => exact hR.refl c
  | write _ hd hw ih => exact hR.trans ih (hR.write hd hw)
  | count _ _ ih => exact ih

end Reaches

theorem chase_reaches : ∀ {fuel : Nat} {x : Addr} {c : Chase}, User.chase env sbuf tmp fuel x c = some (.ok (a, d)) →
    ∃ n, Reaches env sbuf c (List.replicate n tmp) d
  | 0, _, _, h => by cases h
  | fuel + 1, x, c, h => by
    unfold User.chase at h
    split at h
    · cases h
      exact ⟨0, .start⟩
    · split at h
      · cases h
      · next c' hc =>
        obtain ⟨n, hn⟩ := chase_reaches h
        exact ⟨0 + (1 + n), Reaches.more (Reaches.cell hc) (Reaches.more (Reaches.counted tmp c') hn)⟩

/-- An entry counts down its own depth only. -/
theorem restorePointer_reaches (h : User.restorePointer env sbuf fuel tmp c = some (.ok (found, d))) :
    ∃ n, Reaches env sbuf c (List.replicate n tmp) d := by
  unfold User.restorePointer at h
  dsimp only at h
  split at h
  · cases h
  · split at h
    · cases h
      exact ⟨1, .counted tmp c⟩
    · split at h
      · cases h
      · next c₁ hc =>
        obtain ⟨r, hr, h⟩ := Option.map_eq_some_iff.mp h
        obtain ⟨⟨a, c₂⟩, rfl, hrest⟩ := bind_eq_ok.mp h
        obtain ⟨c₃, htarget, hpure⟩ := bind_eq_ok.mp hrest
        cases hpure
        obtain ⟨n, hn⟩ := chase_reaches hr
        exact ⟨1 + (0 + (n + 0)), Reaches.more (.counted tmp c) (Reaches.more (Reaches.cell hc)
          (Reaches.more hn (Reaches.target htarget)))⟩

/-- `t` is a pointer entry of the list. -/
def PointerAt (arg : Addr) (m : Mem) (t : Addr) : Prop :=
  ∃ j, j < sizeAt m arg ∧ t = entryAddr (plistAt m arg) j ∧ depthAt m t ≠ 0

/-- The loop over the entries, from number `i` on: each entry that it does not pass by is a pointer of the list as it
    finds it there, and counts its own depth down. -/
inductive Walks (env : Env) (sbuf : Option SbufPtr) (arg : Addr) : Nat → Chase → List Addr → Chase → Prop where
  | done (i : Nat) (c : Chase) : Walks env sbuf arg i c [] c
  | entry {i j n : Nat} {c d e : Chase} {ts : List Addr} (hij : i ≤ j) (hj : j < sizeAt c.mem arg)
      (h0 : depthAt c.mem (entryAddr (plistAt c.mem arg) j) ≠ 0)
      (h : Reaches env sbuf c (List.replicate n (entryAddr (plistAt c.mem arg) j)) d)
      (rest : Walks env sbuf arg (j + 1) d ts e) :
      Walks env sbuf arg i c (List.replicate n (entryAddr (plistAt c.mem arg) j) ++ ts) e

namespace Walks

theorem mono {j : Nat} (h : Walks env sbuf arg j c ts e) (hij : i ≤ j) : Walks env sbuf arg i c ts e := by
  cases h with
  | done => exact .done i c
  | entry hjk hk h0 hd rest => exact .entry (hij.trans hjk) hk h0 hd rest

theorem reaches (h : Walks env sbuf arg i c ts e) : Reaches env sbuf c ts e := by
  induction h with
  | done => exact .start
  | entry _ _ _ hd _ ih => exact hd.trans ih

/-- Each entry is a pointer of the list at a place that the chase comes to. -/
theorem pointers (h : Walks env sbuf arg i c ts e) : ∀ t ∈ ts, ∃ pre d, pre <+: ts ∧ d.written <+: e.written ∧
    Reaches env sbuf c pre d ∧ PointerAt arg d.mem t := by
  induction h with
  | done => exact fun t ht => absurd ht List.not_mem_nil
  | @entry i j n c d e ts hij hj h0 hd rest ih =>
    intro t ht
    rcases List.mem_append.mp ht with ht | ht
    · obtain rfl := List.eq_of_mem_replicate ht
      exact ⟨[], c, List.nil_prefix, hd.written.trans rest.reaches.written, .start, j, hj, rfl, h0⟩
    · obtain ⟨pre, d', hpre, hwritten, hreach, hpointer⟩ := ih t ht
      exact ⟨_, d', (List.prefix_append_right_inj _).mpr hpre, hwritten, hd.trans hreach, hpointer⟩

end Walks

/-- Either no entry from number `i` on is a pointer, or the loop comes to the first one that is. -/
theorem restoreFrom_first : ∀ {fuel i : Nat}, User.restoreFrom env sbuf arg fuel i c = some (.ok (ret, e)) →
    ((∀ j, i ≤ j → j < sizeAt c.mem arg → depthAt c.mem (entryAddr (plistAt c.mem arg) j) = 0) ∧ e = c) ∨
      ∃ j fuel' found d, i ≤ j ∧ j < sizeAt c.mem arg ∧ depthAt c.mem (entryAddr (plistAt c.mem arg) j) ≠ 0 ∧
        User.restorePointer env sbuf fuel' (entryAddr (plistAt c.mem arg) j) c = some (.ok (found, d)) ∧
        (e = d ∨ User.restoreFrom env sbuf arg fuel' (j + 1) d = some (.ok (ret, e)))
  | 0, _, h => by cases h
  | fuel + 1, i, h => by
    unfold User.restoreFrom at h
    split at h
    · next hi =>
      dsimp only at h
      split at h
      · next h0 =>
        rcases restoreFrom_first h with ⟨hv, rfl⟩ | ⟨j, fuel', found, d, hij, hrest⟩
        · refine Or.inl ⟨fun j hij hj => ?_, rfl⟩
          rcases Nat.eq_or_lt_of_le hij with rfl | hlt
          · exact h0
          · exact hv j hlt hj
        · exact Or.inr ⟨j, fuel', found, d, by omega, hrest⟩
      · next h0 =>
        refine Or.inr ?_
        split at h
        · cases h
        · cases h
        · next d hd =>
          cases h
          exact ⟨i, fuel, false, _, Nat.le_refl i, hi, h0, hd, Or.inl rfl⟩
        · next d hd => exact ⟨i, fuel, true, d, Nat.le_refl i, hi, h0, hd, Or.inr h⟩
    · next hi =>
      cases h
      exact Or.inl ⟨fun j hij hj => by omega, rfl⟩

theorem restoreFrom_walks : ∀ {fuel i : Nat} {c : Chase}, User.restoreFrom env sbuf arg fuel i c = some (.ok (ret, e)) →
    ∃ ts, Walks env sbuf arg i c ts e
  | 0, _, _, h => by cases h
  | fuel + 1, i, c, h => by
    unfold User.restoreFrom at h
    split at h
    · next hi =>
      dsimp only at h
      split at h
      · obtain ⟨ts, hts⟩ := restoreFrom_walks h
        exact ⟨ts, hts.mono (Nat.le_succ i)⟩
      · next h0 =>
        split at h
        · cases h
        · cases h
        · next d hd =>
          cases h
          obtain ⟨n, hn⟩ := restorePointer_reaches hd
          exact ⟨_, .entry (Nat.le_refl i) hi h0 hn (.done _ _)⟩
        · next d hd =>
          obtain ⟨n, hn⟩ := restorePointer_reaches hd
          obtain ⟨ts, hts⟩ := restoreFrom_walks h
          exact ⟨_, .entry (Nat.le_refl i) hi h0 hn hts⟩
    · cases h
      exact ⟨[], .done _ _⟩

/-- A list that has no pointer entry then changes nothing. -/
theorem restoreFrom_byValue {r : Except Crash (Int × Chase)} (hv : AllByValue (listAt arg c.mem)) : ∀ {fuel i : Nat},
    User.restoreFrom env sbuf arg fuel i c = some r → r = .ok (0, c)
  | 0, _, h => by cases h
  | fuel + 1, i, h => by
    unfold User.restoreFrom at h
    split at h
    · next hi =>
      have h0 : depthAt c.mem (entryAddr (plistAt c.mem arg) i) = 0 := hv _ (paraAt_mem hi)
      dsimp only at h
      rw [if_pos h0] at h
      exact restoreFrom_byValue hv h
    · exact (Option.some.inj h).symm

theorem restoreFrom_returns (hv : AllByValue (listAt arg c.mem)) : ∀ {fuel i : Nat}, sizeAt c.mem arg - i < fuel →
    User.restoreFrom env sbuf arg fuel i c = some (.ok (0, c))
  | 0, i, hf => absurd hf (Nat.not_lt_zero _)
  | fuel + 1, i, hf => by
    unfold User.restoreFrom
    by_cases hi : i < sizeAt c.mem arg
    · have h0 : depthAt c.mem (entryAddr (plistAt c.mem arg) i) = 0 := hv _ (paraAt_mem hi)
      rw [if_pos hi]
      dsimp only
      rw [if_pos h0]
      exact restoreFrom_returns hv (by omega)
    · rw [if_neg hi]

/-- A chase that writes nothing over the list changes of it the depths that it counts down. -/
theorem Reaches.keeps {m₀ : Mem} (h : Reaches env sbuf c ts d) (hclear : ∀ r ∈ d.written, Clear arg m₀ r)
    (hx : Covers (listSpans arg m₀) x) (ht : ∀ t ∈ ts, x ∉ depthSpan t) : d.mem x = c.mem x := by
  induction h with
  | start => rfl
  | @write ts d d' p b y len h hd hw ih =>
    obtain ⟨src, -, -, rfl⟩ := writeBack_inv hw
    have hoff : x ∉ (⟨y, len⟩ : Span) :=
      fun hxr => hclear _ (List.mem_append_right _ (List.mem_singleton_self _)) x hxr hx
    exact (blit_of_not_mem hoff).trans (ih (fun r hr => hclear r (List.mem_append_left _ hr)) ht)
  | @count ts d h tmp ih =>
    have hoff : x ∉ depthSpan tmp := ht tmp (List.mem_append_right _ (List.mem_singleton_self _))
    exact (store32_of_not_mem hoff).trans (ih hclear fun t hts => ht t (List.mem_append_left _ hts))

/-- A chase that counts down one entry leaves the head of the list and the other depths as they were. -/
theorem Reaches.keeps_others {m₀ : Mem} {j n : Nat} (hform : Formed arg m₀)
    (h : Reaches env sbuf c (List.replicate n (entryAddr (plistAt m₀ arg) j)) d) (hj : j < sizeAt m₀ arg)
    (hclear : ∀ r ∈ d.written, Clear arg m₀ r) :
    (sizeAt d.mem arg = sizeAt c.mem arg ∧ plistAt d.mem arg = plistAt c.mem arg) ∧
      ∀ k, k ≠ j → k < sizeAt m₀ arg →
        depthAt d.mem (entryAddr (plistAt m₀ arg) k) = depthAt c.mem (entryAddr (plistAt m₀ arg) k) := by
  have hbound := sizeAt_lt m₀ arg
  constructor
  · refine head_congr fun x hx => h.keeps hclear (covers_listSpans_of_head hx) fun t ht hxt => ?_
    exact hform x hx (mem_depthSpans.mpr ⟨j, hj, List.eq_of_mem_replicate ht ▸ hxt⟩)
  · intro k hkj hk
    refine load32_congr (by decide) fun x hx => ?_
    refine h.keeps hclear (covers_listSpans_of_depth (mem_depthSpans.mpr ⟨k, hk, hx⟩)) fun t ht hxt => ?_
    rw [List.eq_of_mem_replicate ht] at hxt
    exact depth_apart (by omega) (by omega) hkj.symm hxt (mem_entry (by decide) hx)

/-- Then the depths are those of pointers of the list, each behind the ones before it. -/
theorem Walks.keeps {m₀ : Mem} (hform : Formed arg m₀) (h : Walks env sbuf arg i c ts e)
    (hsize : sizeAt c.mem arg = sizeAt m₀ arg) (hplist : plistAt c.mem arg = plistAt m₀ arg)
    (hdepth : ∀ k, i ≤ k → k < sizeAt m₀ arg →
      depthAt c.mem (entryAddr (plistAt m₀ arg) k) = depthAt m₀ (entryAddr (plistAt m₀ arg) k))
    (hclear : ∀ r ∈ e.written, Clear arg m₀ r) :
    ∀ t ∈ ts, ∃ j, i ≤ j ∧ j < sizeAt m₀ arg ∧ t = entryAddr (plistAt m₀ arg) j ∧ depthAt m₀ t ≠ 0 := by
  induction h with
  | done => exact fun t ht => absurd ht List.not_mem_nil
  | @entry i j n c d e ts hij hj h0 hd rest ih =>
    rw [hplist] at hd h0 ⊢
    rw [hsize] at hj
    obtain ⟨⟨hsize', hplist'⟩, hothers⟩ := hd.keeps_others hform hj fun r hr => hclear r (rest.reaches.written.mem hr)
    have hlater : ∀ k, j + 1 ≤ k → k < sizeAt m₀ arg →
        depthAt d.mem (entryAddr (plistAt m₀ arg) k) = depthAt m₀ (entryAddr (plistAt m₀ arg) k) := fun k hjk hk =>
      (hothers k (by omega) hk).trans (hdepth k (by omega) hk)
    intro t ht
    rcases List.mem_append.mp ht with ht | ht
    · obtain rfl := List.eq_of_mem_replicate ht
      exact ⟨j, hij, hj, rfl, hdepth j hij hj ▸ h0⟩
    · obtain ⟨k, hk, hrest⟩ := ih (hsize'.trans hsize) (hplist'.trans hplist) hlater hclear t ht
      exact ⟨k, by omega, hrest⟩

theorem chase_depth : ∀ {fuel : Nat} {x : Addr} {c : Chase}, User.chase env sbuf tmp fuel x c = some (.ok (a, d)) →
    depthAt d.mem tmp = 0
  | 0, _, _, h => by cases h
  | fuel + 1, x, c, h => by
    unfold User.chase at h
    split at h
    · next h0 =>
      cases h
      exact h0
    · split at h
      · cases h
      · exact chase_depth h

/-- An entry whose depth is not written over is left with another depth. -/
theorem restorePointer_depth (h : User.restorePointer env sbuf fuel tmp c = some (.ok (found, d)))
    (hclear : ∀ r ∈ d.written, ∀ x ∈ r, x ∉ depthSpan tmp) (h0 : depthAt c.mem tmp ≠ 0) :
    depthAt d.mem tmp ≠ depthAt c.mem tmp := by
  unfold User.restorePointer at h
  dsimp only at h
  split at h
  · cases h
  · split at h
    · cases h
      have hdepth : depthAt (countDown tmp c).mem tmp = depthAt c.mem tmp - 1 := load32_store32 (by decide)
      rw [hdepth]
      bv_omega
    · split at h
      · cases h
      · next c₁ hc =>
        obtain ⟨r, hr, h⟩ := Option.map_eq_some_iff.mp h
        obtain ⟨⟨a, c₂⟩, rfl, hrest⟩ := bind_eq_ok.mp h
        obtain ⟨c₃, htarget, hpure⟩ := bind_eq_ok.mp hrest
        cases hpure
        have hzero : depthAt c₂.mem tmp = 0 := chase_depth hr
        suffices hkept : depthAt d.mem tmp = depthAt c₂.mem tmp by
          rw [hkept, hzero]
          exact Ne.symm h0
        rcases restoreTarget_inv htarget with rfl | ⟨p, b, -, hw⟩
        · rfl
        · obtain ⟨src, -, -, rfl⟩ := writeBack_inv hw
          refine load32_congr (by decide) fun x hx => blit_of_not_mem fun hxr => ?_
          exact hclear _ (List.mem_append_right _ (List.mem_singleton_self _)) x hxr hx

/-- A chase that writes nothing over the list leaves it as it was only if no entry is a pointer. -/
theorem restoreFrom_same (hform : Formed arg c.mem) (h : User.restoreFrom env sbuf arg fuel 0 c = some (.ok (ret, e)))
    (hclear : ∀ r ∈ e.written, Clear arg c.mem r) (hsame : SameList arg c.mem e.mem) :
    AllByValue (listAt arg c.mem) := by
  rcases restoreFrom_first h with ⟨hv, -⟩ | ⟨j, fuel', found, d, -, hj, h0, hd, hrest⟩
  · intro q hq
    obtain ⟨i, hi, rfl⟩ := List.mem_map.mp hq
    exact hv i (Nat.zero_le i) (List.mem_range.mp hi)
  · exfalso
    have hentry : ∀ x ∈ depthSpan (entryAddr (plistAt c.mem arg) j), Covers (listSpans arg c.mem) x := fun x hx =>
      covers_listSpans_of_depth (mem_depthSpans.mpr ⟨j, hj, hx⟩)
    obtain ⟨ts, hts⟩ : ∃ ts, Walks env sbuf arg (j + 1) d ts e := by
      rcases hrest with rfl | hrest
      · exact ⟨[], .done _ _⟩
      · exact restoreFrom_walks hrest
    have hclear' : ∀ r ∈ d.written, Clear arg c.mem r := fun r hr => hclear r (hts.reaches.written.mem hr)
    obtain ⟨n, hn⟩ := restorePointer_reaches hd
    have hbound := sizeAt_lt c.mem arg
    obtain ⟨⟨hsize, hplist⟩, hothers⟩ := hn.keeps_others hform hj hclear'
    have hlater := hts.keeps hform hsize hplist (fun k hjk hk => hothers k (by omega) hk) hclear
    -- The entries behind it have depths of their own.
    have hkept : depthAt e.mem (entryAddr (plistAt c.mem arg) j) = depthAt d.mem (entryAddr (plistAt c.mem arg) j) :=
      load32_congr (by decide) fun x hx => hts.reaches.keeps hclear (hentry x hx) fun t ht hxt => by
        obtain ⟨k, hjk, hk, rfl, -⟩ := hlater t ht
        exact depth_apart (i := k) (j := j) (by omega) (by omega) (by omega) hxt (mem_entry (by decide) hx)
    have hback : depthAt e.mem (entryAddr (plistAt c.mem arg) j) = depthAt c.mem (entryAddr (plistAt c.mem arg) j) :=
      load32_congr (by decide) fun x hx => hsame x (hentry x hx)
    exact restorePointer_depth hd (fun r hr x hxr hx => hclear' r hr x hxr (hentry x hx)) h0 (hkept.symm.trans hback)

end Reaches

end User

/-! ### The whole list -/

section Whole
variable {env : Env} {arg : Addr} {p : SbufPtr} {b : Sbuf} {c d : Chase} {fuel : Nat} {plt' : List Para} {ret : Int}

/-- While it writes nothing over the list, `restore_pointers` does what it does with the list as a value, and leaves
    the depths of that value in the list. -/
theorem restorePointers_follows (env : Env) (hform : Formed arg c.mem) (hb : c.heap.sbufs p = some b)
    (hlog : (pointersTrail b.segs ((b.entry 0).holeList.home = (p, 0)) (listAt arg c.mem)).Logs (Clear arg c.mem))
    (hfuel : steps (listAt arg c.mem) ≤ fuel) :
    ∃ r, User.restorePointers env (some p) arg fuel c = some r ∧
      Ends SameFault (fun u w => w.1 = u.1 ∧ Tracks arg c.mem u.2.1 u.2.2 w.2)
        (restorePointers env (some p) (listAt arg c.mem) c) r := by
  have hstart : Tracks arg c.mem ([] ++ listAt arg c.mem) (Chase.after p b c []) c := by
    rw [Chase.after_nil hb, List.nil_append]
    exact .start arg c
  have h := restoreFrom_follows env hform hfuel hstart hlog
  rw [Chase.after_nil hb] at h
  exact h

theorem restorePointers_ends {r : Except Crash (Int × Chase)} (hform : Formed arg c.mem) (hb : c.heap.sbufs p = some b)
    (hlog : (pointersTrail b.segs ((b.entry 0).holeList.home = (p, 0)) (listAt arg c.mem)).Logs (Clear arg c.mem))
    (h : User.restorePointers env (some p) arg fuel c = some r) :
    Ends SameFault (fun u w => w.1 = u.1 ∧ Tracks arg c.mem u.2.1 u.2.2 w.2)
      (restorePointers env (some p) (listAt arg c.mem) c) r := by
  obtain ⟨r', hr', hends⟩ := restorePointers_follows env hform hb hlog (Nat.le_refl _)
  obtain rfl : r = r' := User.restoreFrom_unique h hr'
  exact hends

end Whole

end StackVault
