import StackVault.Theorems.Confidential
import StackVault.Theorems.Exposed
import StackVault.Theorems.Holes
import StackVault.Theorems.UserCalls

/-! Parameters by value and by pointer in one call. What the chase exposes becomes holes, all of them in
    the hole list of the first element of the array, whichever segment they are cut from. A decrypt can
    walk that list if and only if the holes lie in the first segment and come out of the sort in order;
    then the callee's writes to the parameters are kept and every other byte of the frame is given back. -/

namespace StackVault
open Memory Transition

/-- What a mixed call leaves: the array `b` of its scan, whose copies the `kmalloc` calls from `n` on have
    made, has got the exposed ranges as holes of its first element. -/
structure Punched (env : Env) (m : Mem) (userRsp userRbp : Addr) (plt : List Para) (n : Nat) (p : SbufPtr) (b : Sbuf)
    (s : State) : Prop where
  saved : SavedOf m b.segs
  few : b.cur ≤ 32
  spans : b.segs.map StackBuf.span = segments plt userRsp userRbp
  item : ∀ i < b.cur, (b.entry i).buf = env.kmalloc (n + i) ∧ (b.entry i).holeList = { home := (p, i), holes := [] }
  live : s.heap.sbufs p = some (b.withHoles ((exposed m plt).map (holeOf b.segs)))
  top : 0 < s.sbufStackTop ∧ s.sbufStackTop ≤ 16
  slot : ∀ h, s.sbufStack ⟨s.sbufStackTop - 1, h⟩ = some p
  record : ∃ c rest, s.callStack = c :: rest
  mapped : s.Mapped env
  init : s.init = true

/-- It says nothing about user memory. -/
theorem Punched.congr {env : Env} {m : Mem} {userRsp userRbp : Addr} {plt : List Para} {n : Nat} {p : SbufPtr}
    {b : Sbuf} {s t : State} (h : Punched env m userRsp userRbp plt n p b s) (hg : t.toGlobals = s.toGlobals) :
    Punched env m userRsp userRbp plt n p b t := by
  obtain ⟨g, m₁⟩ := t
  obtain ⟨g', m₂⟩ := s
  cases hg
  exact ⟨h.saved, h.few, h.spans, h.item, h.live, h.top, h.slot, h.record, h.mapped, h.init⟩

section Encrypt
variable {env : Env} {fuel : Nat} {userRsp userRbp arg x : Addr} {regs : Regs} {plt : List Para} {m mem : Mem}
  {g g₀ : Globals} {name : String} {p n : Nat} {b : Sbuf} {v : Saved} {segs : List StackBuf} {ws : List Span}

theorem Progress.savedOf {done : List Span} {h₀ : Heap} {c p₀ : Nat} (h : Progress m done v p b)
    (hst : Steady env h₀ c p₀ v b) (halloc : env.AllocOk) (hin : Inner userRsp userRbp done) (hsep : Separate b.segs) :
    SavedOf m b.segs := by
  have hin' := hin
  rw [← h.spans] at hin'
  obtain ⟨-, -, hapart, hinside⟩ := hin'.segs
  refine ⟨hsep, h.data, fun e he => lt_of_le_of_lt (hinside e he).2 userRbp.isLt, hapart, fun e he => ?_⟩
  obtain ⟨i, hi, rfl⟩ := Sbuf.mem_segs.mp he
  rw [(hst.item i hi).1]
  exact halloc _

theorem Mixed.cur_le (h : Mixed m userRsp userRbp plt)
    (hspans : b.segs.map StackBuf.span = segments plt userRsp userRbp) : b.cur ≤ 32 := by
  have hlen := h.few
  rwa [← hspans, List.length_map, Sbuf.length_segs] at hlen

/-- The look-up comes to all segments of an array of so few. -/
theorem Sbuf.reached_segs (hfew : b.cur ≤ 32) : reached b.segs = b.segs :=
  reached_eq (by rw [Sbuf.length_segs]; exact hfew.trans (by decide))

theorem Mixed.heldIn (h : Mixed m userRsp userRbp plt)
    (hspans : b.segs.map StackBuf.span = segments plt userRsp userRbp) :
    SavedOf.Held (reached b.segs) (exposed m plt) := by
  intro r hr
  refine ⟨h.nonempty r (List.mem_append_right _ hr), ?_⟩
  rw [Sbuf.reached_segs (h.cur_le hspans)]
  obtain ⟨s, hs, hrange⟩ := h.held r hr
  rw [← hspans] at hs
  obtain ⟨e, he, rfl⟩ := List.mem_map.mp hs
  exact ⟨e, he, hrange⟩

/-- The scan of a mixed call ends with an array of separate copies, and the chase that comes then writes back what is
    exposed and nothing else. -/
theorem Buffers.Ready.chased (h : Buffers.Ready env regs g₀ g name p b) (halloc : env.AllocOk)
    (hmix : Mixed m regs.userRsp regs.userRbp plt) (hb : regs.userRbp.toNat + 1 < 2 ^ 64)
    (hsep : SeparateCopies env regs plt { g₀ with mem := m }) :
    ∃ fuel v b', scan env plt regs.userRbp fuel (.start regs.userRsp (g.scanFrom h.top m)) = some (.ok v) ∧
      Progress m (segments plt regs.userRsp regs.userRbp) v p b' ∧ Steady env (g.scanFrom h.top m).heap b.cap p v b' ∧
      SavedOf m b'.segs ∧ callTrail p b' plt = ⟨exposed m plt, .ok (0, plt.map fun q => { q with pointer := 0 })⟩ := by
  have hw := hmix.noWrap
  have hcap := h.cap
  have hinner := segments_inner regs.userRsp hw hb
  obtain ⟨fuel₀, v, p', b', hscan, hprog, hcase⟩ :=
    frame_scan regs.userRsp m halloc hw hb h.fresh h.top h.slot h.cur (by omega)
  obtain ⟨hst, rfl⟩ : Steady env (g.scanFrom h.top m).heap b.cap p v b' ∧ p' = p := by
    rcases hcase with hst | hmv
    · exact hst
    · have h1 := hmv.above
      have h2 := hprog.cur_eq
      have h3 := hmix.few
      omega
  have hsaved := hprog.savedOf hst halloc hinner (hsep g fuel₀ v p' b' h.top h.set hscan hprog.ptr hprog.live)
  have hhome : b'.segs ≠ [] → (b'.entry 0).holeList.home = (p', 0) := fun hne => by
    have hcur : 0 < b'.cur := Nat.pos_of_ne_zero fun hz => hne (Sbuf.segs_eq_nil.mpr hz)
    rw [(hst.item 0 hcur).2]
  exact ⟨fuel₀, v, b', hscan, hprog, hst, hsaved, hsaved.pointers hhome (hmix.heldIn hprog.spans).lies⟩

/-- After the chase memory is cleared where the segments are, but for what the parameters expose. -/
theorem SavedOf.after_mem {b' : Sbuf} (hsaved : SavedOf m b'.segs) (hmix : Mixed m userRsp userRbp plt)
    (hprog : Progress m (segments plt userRsp userRbp) v p b')
    (htrail : callTrail p b' plt = ⟨exposed m plt, .ok (0, plt.map fun q => { q with pointer := 0 })⟩) (x : Addr) :
    (v.after p b' plt).mem x =
      if Covers (segments plt userRsp userRbp) x ∧ ¬Covers (exposed m plt) x then 0x30 else m x := by
  have hheld := hmix.heldIn hprog.spans
  have hreplay : (v.after p b' plt).mem x = if Covers (exposed m plt) x then m x else v.mem x := by
    rw [Saved.after, htrail]
    refine replay_saved fun r hr k hk => ?_
    obtain ⟨-, f, hf, hrange⟩ := hheld r hr
    obtain ⟨src, hl, hsrc⟩ := hsaved.lookUp hf hrange
    rw [bytesOf_ok hl, hsrc k hk]
  rw [hreplay, hprog.mem]
  by_cases hx : Covers (exposed m plt) x <;> simp [hx]

/-- Once the scan has ended, the call leaves the array with the holes. -/
theorem Buffers.Ready.left (h : Buffers.Ready env regs g₀ g name p b) (hm : g₀.Mapped env) {b' : Sbuf}
    (hmix : Mixed m regs.userRsp regs.userRbp plt) (hprog : Progress m (segments plt regs.userRsp regs.userRbp) v p b')
    (hst : Steady env (g.scanFrom h.top m).heap b.cap p v b') (hsaved : SavedOf m b'.segs)
    (htrail : callTrail p b' plt = ⟨exposed m plt, .ok (0, plt.map fun q => { q with pointer := 0 })⟩) :
    ∃ e, v.outcome p b' plt (⟨regs.userRsp, regs.userRbp, name⟩ :: g.callStack) g = .ok e ∧
      e.paraList = (plt.map fun q => { q with pointer := 0 }) ∧ e.state.mem = (v.after p b' plt).mem ∧
      Punched env m regs.userRsp regs.userRbp plt (g.heap.next + 2) p b' e.state := by
  have hmapped : g.Mapped env := setup_mapped h.set hm
  have hinit : g.init = true := (setup_inv h.set).1
  unfold Saved.outcome
  rw [htrail]
  refine ⟨_, rfl, rfl, rfl, hsaved, hmix.cur_le hprog.spans, hprog.spans, hst.item, ?_, ⟨Nat.succ_pos _, h.top⟩,
    fun _ => h.slot.ptr, ⟨_, _, rfl⟩, hmapped, hinit⟩
  show (v.after p b' plt).heap.sbufs p = _
  rw [Saved.after, htrail]
  exact Heap.set_sbufs_self

/-- A mixed call returns. -/
theorem Buffers.Ready.punched (h : Buffers.Ready env regs g₀ g name p b) (halloc : env.AllocOk) (hm : g₀.Mapped env)
    (hmix : Mixed m regs.userRsp regs.userRbp plt) (hb : regs.userRbp.toNat + 1 < 2 ^ 64)
    (hsep : SeparateCopies env regs plt { g₀ with mem := m }) :
    ∃ e b', Punched env m regs.userRsp regs.userRbp plt (g.heap.next + 2) p b' e.state ∧
      (∀ x, e.state.mem x =
        if Covers (segments plt regs.userRsp regs.userRbp) x ∧ ¬Covers (exposed m plt) x then 0x30 else m x) ∧
      e.paraList = (plt.map fun q => { q with pointer := 0 }) ∧
      (∃ fuel, jsysEncryptStack env fuel regs plt { g₀ with mem := m } = some (.ok e)) ∧
      ∀ fuel r, jsysEncryptStack env fuel regs plt { g₀ with mem := m } = some r → r = .ok e := by
  obtain ⟨fuel₀, v, b', hscan, hprog, hst, hsaved, htrail⟩ := h.chased halloc hmix hb hsep
  obtain ⟨e, hout, hlist, hmem, hp⟩ := h.left hm hmix hprog hst hsaved htrail
  have hcall := encryptFrame_tell name halloc h.depth h.top hscan hprog.ptr hprog.live
  rw [hout, ← h.call] at hcall
  refine ⟨e, b', hp, fun x => by
    rw [hmem, hsaved.after_mem hmix hprog htrail], hlist, ⟨fuel₀, hcall⟩, fun fuel r hr => ?_⟩
  rw [h.call] at hr
  rw [encryptFrame_outcome halloc h.depth h.top hscan hprog.ptr hprog.live hr, hout]

/-- A range that is exposed lies in segments. -/
theorem Mixed.covers_exposed (hmix : Mixed m userRsp userRbp plt) (hb : userRbp.toNat + 1 < 2 ^ 64) {r : Span}
    (hr : r ∈ exposed m plt) (hx : x ∈ r) : Covers (segments plt userRsp userRbp) x := by
  obtain ⟨s, hs, hlo, hup⟩ := hmix.held r hr
  have hupper := (segments_inner userRsp hmix.noWrap hb).upper s hs
  have hlast := userRbp.isLt
  have hs64 : s.start.toNat + s.len.toNat ≤ 2 ^ 64 := by omega
  have hr64 : r.start.toNat + r.len.toNat ≤ 2 ^ 64 := by omega
  rw [Range.mem_iff hr64] at hx
  exact ⟨s, hs, (Range.mem_iff hs64).mpr (by omega)⟩

/-- What the chase writes back in a mixed call is apart from a list that no segment comes to. -/
theorem Buffers.Ready.clear_mixed (h : Buffers.Ready env regs g₀ g name p b) (halloc : env.AllocOk)
    (hmix : Mixed m regs.userRsp regs.userRbp plt) (hb : regs.userRbp.toNat + 1 < 2 ^ 64)
    (hsep : SeparateCopies env regs plt { g₀ with mem := m })
    (hspares : Spares arg m (segments plt regs.userRsp regs.userRbp)) {q : SbufPtr} {b' : Sbuf}
    (hscan : scan env plt regs.userRbp fuel (.start regs.userRsp (g.scanFrom h.top m)) = some (.ok v))
    (hptr : v.stackBuf = some q) (hlive : v.heap.sbufs q = some b') : (callTrail q b' plt).Logs (Clear arg m) := by
  obtain ⟨fuel₀, v', b'', hscan', hprog, -, -, htrail⟩ := h.chased halloc hmix hb hsep
  obtain rfl : v = v' := Except.ok.inj (scan_unique hscan hscan')
  obtain rfl : q = p := Option.some.inj (hptr.symm.trans hprog.ptr)
  obtain rfl : b' = b'' := Option.some.inj (hlive.symm.trans hprog.live)
  rw [htrail]
  exact fun r hr x hx hl => hspares x hl (hmix.covers_exposed hb hr hx)

/-- The same call with its list in memory, where no segment comes to it: the depths of the list are 0 then. -/
theorem Buffers.Ready.punchedAt (h : Buffers.Ready env regs g₀ g name p b) (halloc : env.AllocOk) (hm : g₀.Mapped env)
    (hacc : Accepts env regs) (hform : Formed arg m)
    (hspares : Spares arg m (segments (listAt arg m) regs.userRsp regs.userRbp))
    (hmix : Mixed m regs.userRsp regs.userRbp (listAt arg m)) (hb : regs.userRbp.toNat + 1 < 2 ^ 64)
    (hsep : SeparateCopies env regs (listAt arg m) { g₀ with mem := m }) :
    ∃ e b', Punched env m regs.userRsp regs.userRbp (listAt arg m) (g.heap.next + 2) p b' e.state ∧
      (∀ x, e.state.mem x = if Covers (depthSpans arg m) x then 0
        else if Covers (segments (listAt arg m) regs.userRsp regs.userRbp) x ∧
          ¬Covers (exposed m (listAt arg m)) x then 0x30
        else m x) ∧
      listSpans arg e.state.mem = listSpans arg m ∧
      listAt arg e.state.mem = (listAt arg m).map (fun q => { q with pointer := 0 }) ∧
      (∃ fuel, User.jsysEncryptStack env fuel regs arg { g₀ with mem := m } = some (.ok e)) ∧
      ∀ fuel r, User.jsysEncryptStack env fuel regs arg { g₀ with mem := m } = some r → r = .ok e := by
  obtain ⟨e, b', hp, hmem, hlist, -, huniq⟩ := h.punched halloc hm hmix hb hsep
  obtain ⟨r, ⟨_, hr⟩, -, ⟨fuel, r', hr'⟩, hends⟩ := h.follows halloc hm hacc hmix.noWrap hb hform hspares
    fun _ _ _ _ hscan hptr hlive => h.clear_mixed halloc hmix hb hsep hspares hscan hptr hlive
  rw [huniq _ r hr] at hends
  obtain ⟨e', rfl, hfollows⟩ := (hends fuel r' hr').of_ok
  have hv : AllByValue e.paraList := by
    rw [hlist]
    intro q hq
    obtain ⟨q', -, rfl⟩ := List.mem_map.mp hq
    rfl
  refine ⟨e', b', hp.congr hfollows.globals, fun x => ?_, by rw [listSpans, hfollows.size, hfollows.plist, listSpans],
    hfollows.list.trans hlist, ⟨fuel, hr'⟩, fun fuel' r₂ hr₂ => User.encrypt_unique hr₂ hr'⟩
  by_cases hx : Covers (depthSpans arg m) x
  · rw [if_pos hx, hfollows.depths hv hx]
  · rw [if_neg hx, hfollows.off x hx, hmem]

end Encrypt

/-! ### The holes -/

section Holes
variable {m : Mem} {segs : List StackBuf} {e e₀ : StackBuf} {r : Span} {rs : List Span} {sorted : List Hole} {x : Addr}

theorem SavedOf.hole_mem (h : SavedOf m segs) (he : e ∈ reached segs) (hr : e.HasRange r) (h0 : 0 < r.len.toNat) :
    (holeOf segs r).start ∈ e.copy := by
  obtain ⟨hplace, hholds⟩ := h.separate.place (mem_of_reached he) (BitVec.le_def.mpr hr.1) hr.2
  rw [holeOf, h.find he hr h0, h.separate.mem_copy (mem_of_reached he), hplace]
  have := hr.1
  have := hr.2
  omega

theorem SavedOf.holeAt (h : SavedOf m segs) (he : e ∈ reached segs) (hr : e.HasRange r) (h0 : 0 < r.len.toNat) :
    e.holeAt (holeOf segs r) = ⟨r.start - e.start, r.len⟩ := by
  rw [StackBuf.holeAt, holeOf, h.find he hr h0, add_sub_cancel_left]

theorem SavedOf.le_hole (h : SavedOf m segs) (he₀ : e₀ ∈ reached segs) (hheld : SavedOf.Held (reached segs) rs)
    (hperm : sorted.Perm (rs.map (holeOf segs))) (hin : ∀ r ∈ rs, e₀.HasRange r) : ∀ a ∈ sorted, e₀.buf ≤ a.start := by
  intro a ha
  obtain ⟨r, hr, rfl⟩ := List.mem_map.mp (hperm.mem_iff.mp ha)
  exact BitVec.le_def.mpr ((h.separate.mem_copy (mem_of_reached he₀)).mp (h.hole_mem he₀ (hin r hr) (hheld r hr).1)).1

/-- A hole that the walk takes for one of the first segment is one: copies do not overlap. -/
theorem SavedOf.hasRange_of_ordered (h : SavedOf m segs) (he₀ : e₀ ∈ reached segs)
    (hheld : SavedOf.Held (reached segs) rs) (hperm : sorted.Perm (rs.map (holeOf segs)))
    (hord : Ordered e₀.len.toNat 0 (sorted.map e₀.holeAt)) :
    ∀ r ∈ rs, e₀.HasRange r := by
  intro r hr
  obtain ⟨h0, e, he, hrange⟩ := hheld r hr
  obtain ⟨-, hup⟩ := hord.bounds (e₀.holeAt (holeOf segs r))
    (List.mem_map_of_mem (hperm.mem_iff.mpr (List.mem_map_of_mem hr)))
  have hmem : (holeOf segs r).start ∈ e₀.copy := by
    rw [Range.mem_def, BitVec.lt_def]
    simp only [StackBuf.holeAt, holeOf, StackBuf.copy] at hup ⊢
    omega
  rwa [← h.separate.eq_of_mem (mem_of_reached he) (mem_of_reached he₀) (h.hole_mem he hrange h0) hmem]

theorem SavedOf.hole_holds (h : SavedOf m segs) (he : e ∈ reached segs) (hr : e.HasRange r) (h0 : 0 < r.len.toNat) :
    e.Holds (holeOf segs r).start (holeOf segs r).len := by
  obtain ⟨-, hholds⟩ := h.separate.place (mem_of_reached he) (BitVec.le_def.mpr hr.1) hr.2
  rw [holeOf, h.find he hr h0]
  exact hholds

theorem SavedOf.hole_span (h : SavedOf m segs) (he : e ∈ reached segs) (hr : e.HasRange r) (h0 : 0 < r.len.toNat) :
    (holeOf segs r).span = ⟨r.start - (e.start - e.buf), r.len⟩ := by
  rw [Hole.span, holeOf, h.find he hr h0, sub_sub_eq_add_sub, ← add_sub_assoc, add_comm e.buf]

theorem SavedOf.ordered_of_sorted (h : SavedOf m segs) (he₀ : e₀ ∈ reached segs)
    (hheld : SavedOf.Held (reached segs) rs) (hap : rs.Pairwise Range.Apart)
    (hperm : sorted.Perm (rs.map (holeOf segs))) (hin : ∀ r ∈ rs, e₀.HasRange r)
    (hasc : sorted.Pairwise fun a b => a.start ≤ b.start) : Ordered e₀.len.toNat 0 (sorted.map e₀.holeAt) := by
  refine ordered_holeAt (fun a ha => ?_) (fun a ha => ?_) ?_ hasc
  · obtain ⟨r, hr, rfl⟩ := List.mem_map.mp (hperm.mem_iff.mp ha)
    exact (hheld r hr).1
  · obtain ⟨r, hr, rfl⟩ := List.mem_map.mp (hperm.mem_iff.mp ha)
    exact h.hole_holds he₀ (hin r hr) (hheld r hr).1
  · refine (hperm.pairwise_iff fun hab => hab.symm).mpr
      (List.pairwise_map.mpr (hap.imp_of_mem fun {r s} hr hs hrs => ?_))
    rw [h.hole_span he₀ (hin r hr) (hheld r hr).1, h.hole_span he₀ (hin s hs) (hheld s hs).1]
    exact hrs.shift _

/-- The first segment can be walked if and only if it has all the ranges and the sort gives their copies
    in the order of their addresses. -/
theorem SavedOf.ordered_iff (h : SavedOf m segs) (he₀ : e₀ ∈ reached segs) (hheld : SavedOf.Held (reached segs) rs)
    (hap : rs.Pairwise Range.Apart) (hperm : sorted.Perm (rs.map (holeOf segs))) :
    Ordered e₀.len.toNat 0 (sorted.map e₀.holeAt) ↔
      (∀ r ∈ rs, e₀.HasRange r) ∧ sorted.Pairwise fun a b => a.start ≤ b.start := by
  constructor
  · intro hord
    have hin := h.hasRange_of_ordered he₀ hheld hperm hord
    refine ⟨hin, (List.pairwise_map.mp hord.ascending).imp_of_mem fun {a b} ha hb hab => ?_⟩
    have h1 := h.le_hole he₀ hheld hperm hin a ha
    have h2 := h.le_hole he₀ hheld hperm hin b hb
    simp only [StackBuf.holeAt] at hab
    bv_omega
  · rintro ⟨hin, hasc⟩
    exact h.ordered_of_sorted he₀ hheld hap hperm hin hasc

end Holes

/-! ### The decrypt -/

namespace Punched
variable {env : Env} {m mem mem' : Mem} {userRsp userRbp x : Addr} {plt : List Para} {n : Nat} {p : SbufPtr} {b : Sbuf}
  {s : State} {heap' : Heap} {regs : Regs}

/-- The first element, once it has the holes. -/
def first (m : Mem) (plt : List Para) (p : SbufPtr) (b : Sbuf) : StackBuf :=
  { b.entry 0 with holeList := { home := (p, 0), holes := (exposed m plt).map (holeOf b.segs) } }

/-- The first element can be walked. -/
def InOrder (env : Env) (m : Mem) (plt : List Para) (b : Sbuf) : Prop :=
  Ordered (b.entry 0).len.toNat 0 ((env.listSort cmp ((exposed m plt).map (holeOf b.segs))).map (b.entry 0).holeAt)

theorem entry_zero (h : Punched env m userRsp userRbp plt n p b s) (hcur : 0 < b.cur) :
    (b.withHoles ((exposed m plt).map (holeOf b.segs))).entry 0 = first m plt p b := by
  have hnone := (h.item 0 hcur).2
  simp only [Sbuf.withHoles, if_true, first, hnone, List.nil_append]

theorem first_mem (hcur : 0 < b.cur) : b.entry 0 ∈ b.segs := Sbuf.mem_segs.mpr ⟨0, hcur, rfl⟩

theorem first_reached (h : Punched env m userRsp userRbp plt n p b s) (hcur : 0 < b.cur) :
    b.entry 0 ∈ reached b.segs := by
  rw [Sbuf.reached_segs h.few]
  exact first_mem hcur

theorem first_fits (h : Punched env m userRsp userRbp plt n p b s) (hcur : 0 < b.cur) :
    (first m plt p b).buf.toNat + (first m plt p b).len.toNat < 2 ^ 64 :=
  h.saved.separate.fits (b.entry 0) (first_mem hcur)

/-- With its holes in order, every element can be restored. -/
theorem restorable (h : Punched env m userRsp userRbp plt n p b s) (hsort : env.SortOk)
    (hord : 0 < b.cur → InOrder env m plt b) :
    ∀ i < b.cur, ((b.withHoles ((exposed m plt).map (holeOf b.segs))).entry i).Restorable env p i := by
  intro i hi
  by_cases h0 : i = 0
  · subst h0
    rw [h.entry_zero hi]
    exact restorable_of_ordered (h.first_fits hi) rfl (hsort.perm _ _) (hord hi)
  · have hentry : (b.withHoles ((exposed m plt).map (holeOf b.segs))).entry i = b.entry i := if_neg h0
    rw [hentry]
    exact restorable_of_no_holes (hsort.nil cmp) (h.item i hi).2

/-- A decrypt that returns has walked the first element. -/
theorem inOrder (h : Punched env m userRsp userRbp plt n p b s) (hsort : env.SortOk)
    (hheld : SavedOf.Held (reached b.segs) (exposed m plt)) (hcur : 0 < b.cur)
    (hres : restoreStackBuf env s.heap mem (some p) = .ok (heap', mem')) : InOrder env m plt b := by
  obtain ⟨k, hk⟩ := Nat.exists_eq_succ_of_ne_zero hcur.ne'
  rw [restoreStackBuf, Heap.deref_some h.live] at hres
  obtain ⟨⟨b', mem₁⟩, hloop, -⟩ := bind_eq_ok.mp hres
  have hmin : min b.cur (2 ^ 31) = k + 1 := by
    have := h.few
    omega
  have hrange : List.range (min (b.withHoles ((exposed m plt).map (holeOf b.segs))).cur (2 ^ 31)) =
      0 :: (List.range k).map Nat.succ := by
    rw [← List.range_succ_eq_map]
    exact congrArg List.range hmin
  rw [hrange] at hloop
  obtain ⟨mem₂, hfirst, -⟩ := bind_eq_ok.mp hloop
  rw [h.entry_zero hcur] at hfirst
  refine ordered_of_restore (h.first_fits hcur) (hsort.perm _ _) ?_ hfirst
  intro a ha
  obtain ⟨r, hr, rfl⟩ := List.mem_map.mp ha
  obtain ⟨h0, e, he, hrange⟩ := hheld r hr
  obtain ⟨-, -, hup⟩ := h.saved.separate.place (mem_of_reached he) (BitVec.le_def.mpr hrange.1) hrange.2
  rw [holeOf, h.saved.find he hrange h0]
  exact lt_of_le_of_lt hup (h.saved.separate.fits e (mem_of_reached he))

theorem gives_back (h : Punched env m userRsp userRbp plt n p b s)
    (hheld : SavedOf.Held (reached b.segs) (exposed m plt))
    (hin : 0 < b.cur → ∀ r ∈ exposed m plt, (b.entry 0).HasRange r) :
    ∀ e ∈ (b.withHoles ((exposed m plt).map (holeOf b.segs))).segs, e.GivesBack x ↔
    x ∈ e.span ∧ ¬Covers (exposed m plt) x := by
  intro e he
  obtain ⟨i, hi, rfl⟩ := Sbuf.mem_segs.mp he
  have hi' : i < b.cur := hi
  have hcur : 0 < b.cur := by omega
  by_cases h0 : i = 0
  · subst h0
    rw [h.entry_zero hcur]
    have hholes : ∀ y, Covers ((first m plt p b).holeList.holes.map (first m plt p b).holeAt) (y - (b.entry 0).start) ↔
        Covers (exposed m plt) y := by
      intro y
      have hlist : (first m plt p b).holeList.holes = (exposed m plt).map (holeOf b.segs) := rfl
      rw [hlist, List.map_map, covers_map]
      refine exists_congr fun r => and_congr_right fun hr => ?_
      have hat : (first m plt p b).holeAt (holeOf b.segs r) = ⟨r.start - (b.entry 0).start, r.len⟩ :=
        SavedOf.holeAt (e := b.entry 0) h.saved (h.first_reached hcur) (hin hcur r hr) (hheld r hr).1
      rw [Function.comp_apply, hat, Range.mem_shift, sub_add_cancel]
    exact and_congr_right fun _ => not_congr (hholes x)
  · have hentry : (b.withHoles ((exposed m plt).map (holeOf b.segs))).entry i = b.entry i := if_neg h0
    rw [hentry, StackBuf.GivesBack, (h.item i hi').2]
    refine and_congr_right fun hx => iff_of_true covers_nil ?_
    rintro ⟨r, hr, hxr⟩
    have hrange := hin hcur r hr
    have hxr' : x ∈ (b.entry 0).span := by
      rw [h.saved.mem_span (first_mem hcur)]
      rw [Range.mem_iff (le_of_lt (lt_of_le_of_lt hrange.2 (h.saved.span _ (first_mem hcur))))] at hxr
      have := hrange.1
      have := hrange.2
      omega
    -- Elements of one array differ in the head of their hole lists.
    have heq := h.saved.eq_of_mem (Sbuf.mem_segs.mpr ⟨i, hi', rfl⟩) (first_mem hcur) hx hxr'
    have hhome := congrArg (fun e : StackBuf => e.holeList.home.2) heq
    simp only [(h.item i hi').2, (h.item 0 hcur).2] at hhome
    exact h0 hhome

/-- Every byte of the frame that no parameter has is given back, and no other byte is touched. -/
theorem restores (h : Punched env m userRsp userRbp plt n p b s) (hmix : Mixed m userRsp userRbp plt)
    (hb : userRbp.toNat + 1 < 2 ^ 64) (hle : userRsp ≤ userRbp) (hsort : env.SortOk)
    (hord : 0 < b.cur → InOrder env m plt b) (mem : Mem) :
    ∃ heap', restoreStackBuf env s.heap mem (some p) = .ok (heap', fun x =>
      if (userRsp ≤ x ∧ x < userRbp) ∧ ¬Covers (valueSpans plt ++ exposed m plt) x then m x else mem x) := by
  have hheld := hmix.heldIn h.spans
  have hin : 0 < b.cur → ∀ r ∈ exposed m plt, (b.entry 0).HasRange r := fun hcur =>
    h.saved.hasRange_of_ordered (h.first_reached hcur) hheld (hsort.perm _ _) (hord hcur)
  obtain ⟨b', hres, -, -⟩ := restoreStackBuf_ok mem h.live (h.few.trans (by decide)) (h.restorable hsort hord)
  have hsame : b.SameBytes (b.withHoles ((exposed m plt).map (holeOf b.segs))) := b.sameBytes_withHoles _
  have hspans := hsame.spans.trans h.spans
  have hinner := segments_inner userRsp hmix.noWrap hb
  have hcover : ∀ x, Covers (segments plt userRsp userRbp) x ↔ (userRsp ≤ x ∧ x < userRbp) ∧ ¬ByValue plt x := by
    refine fun x => ⟨fun hx => ⟨hinner.bounds hx, fun hv => ?_⟩, fun hx => ?_⟩
    · refine segments_avoid hmix.noWrap hb hmix.distinct (fun q hq h0 => ?_) hv hx
      exact BitVec.le_def.mpr (hmix.inside q.span (List.mem_append_left _ (span_mem_valueSpans hq h0))).1
    · exact (segments_cover hmix.noWrap hb hle hx.1.1 hx.1.2).resolve_right hx.2
  suffices hmem : giveBackAll (b.withHoles ((exposed m plt).map (holeOf b.segs))).segs mem = fun x =>
      if (userRsp ≤ x ∧ x < userRbp) ∧ ¬Covers (valueSpans plt ++ exposed m plt) x then m x else mem x from
    ⟨_, by rw [hres, hmem]⟩
  rw [← hspans] at hinner
  funext x
  have hgive : ∀ e ∈ (b.withHoles ((exposed m plt).map (holeOf b.segs))).segs,
      e.GivesBack x ↔ x ∈ e.span ∧ ¬Covers (exposed m plt) x := h.gives_back hheld hin
  have hiff : ((userRsp ≤ x ∧ x < userRbp) ∧ ¬Covers (valueSpans plt ++ exposed m plt) x) ↔
      Covers (segments plt userRsp userRbp) x ∧ ¬Covers (exposed m plt) x := by
    rw [hcover, covers_append, not_or, covers_valueSpans]
    exact and_assoc.symm
  by_cases hx : Covers (segments plt userRsp userRbp) x ∧ ¬Covers (exposed m plt) x
  · rw [if_pos (hiff.mpr hx)]
    obtain ⟨hseg, hexp⟩ := hx
    rw [← hspans, mem_map_span] at hseg
    obtain ⟨e, he, hxe⟩ := hseg
    rw [giveBackAll_of_mem hinner.segs.2.2.1 he ((hgive e he).mpr ⟨hxe, hexp⟩)]
    exact (hsame.saves h.saved.data e he).at hxe
  · rw [if_neg (mt hiff.mp hx)]
    refine giveBackAll_of_none fun e he hge => hx ?_
    obtain ⟨hxe, hexp⟩ := (hgive e he).mp hge
    rw [← hspans, mem_map_span]
    exact ⟨⟨e, he, hxe⟩, hexp⟩

end Punched

/-! ### When parameters are written through -/

/-- The encrypt with the list at `arg` returns and leaves memory outside the frame, but for the ranges `free`; a decrypt
    after the callee has made of memory what it likes gives back every byte of the frame that no parameter has, and
    leaves every other one. -/
def WritesThrough (env : Env) (regs : Regs) (arg : Addr) (free : List Span) (s : State) : Prop :=
  ∃ fuel e, User.jsysEncryptStack env fuel regs arg s = some (.ok e) ∧
    (∀ x, ¬(regs.userRsp ≤ x ∧ x < regs.userRbp) → ¬Covers free x → e.state.mem x = s.mem x) ∧
    ∀ regs' mem, (nameOf env regs').isSome → ∃ t, jsysDecryptStack env regs' { e.state with mem } = .ok (0, t) ∧
      ∀ x, t.mem x = if (regs.userRsp ≤ x ∧ x < regs.userRbp) ∧
        ¬Covers (valueSpans (listAt arg s.mem) ++ exposed s.mem (listAt arg s.mem)) x then s.mem x else mem x

/-- The first segment has all the ranges. -/
def InFirst (segs rs : List Span) : Prop := ∀ s, segs.head? = some s → ∀ r ∈ rs,
  s.start.toNat ≤ r.start.toNat ∧ r.start.toNat + r.len.toNat ≤ s.start.toNat + s.len.toNat

/-- The place of the range `r` in a copy at `buf` of the segment `s`. -/
def copyOf (buf : Addr) (s r : Span) : Hole := ⟨buf + (r.start - s.start), r.len⟩

/-- In a copy at `buf` of the first segment, `list_sort` puts the ranges in the order of their addresses. -/
def Sorts (env : Env) (buf : Addr) (segs rs : List Span) : Prop := ∀ s, segs.head? = some s →
  (env.listSort cmp (rs.map (copyOf buf s))).Pairwise fun a b => a.start ≤ b.start

/-- The `kmalloc` call that makes the copy of the first segment of the next encrypt. -/
def Globals.firstCopy (g : Globals) : Nat := if g.init then g.heap.next + 2 else g.heap.next + 19

section Iff
variable {env : Env} {m : Mem} {userRsp userRbp : Addr} {plt : List Para} {n : Nat} {p : SbufPtr} {b : Sbuf} {s : State}

theorem Punched.head (h : Punched env m userRsp userRbp plt n p b s) :
    (segments plt userRsp userRbp).head? = if 0 < b.cur then some (b.entry 0).span else none := by
  rw [← h.spans, Sbuf.segs, List.map_map]
  cases hcur : b.cur with
  | zero => rfl
  | succ k => rw [List.range_succ_eq_map]; rfl

theorem Punched.inOrder_iff (h : Punched env m userRsp userRbp plt n p b s) (hmix : Mixed m userRsp userRbp plt)
    (hsort : env.SortOk) : (0 < b.cur → InOrder env m plt b) ↔
      InFirst (segments plt userRsp userRbp) (exposed m plt) ∧
        Sorts env (env.kmalloc n) (segments plt userRsp userRbp) (exposed m plt) := by
  have hheld := hmix.heldIn h.spans
  have hap := (List.pairwise_append.mp hmix.apart).2.1
  unfold InFirst Sorts
  rw [h.head]
  by_cases hcur : 0 < b.cur
  · have hbuf : (b.entry 0).buf = env.kmalloc n := (h.item 0 hcur).1
    have hcopy : (∀ r ∈ exposed m plt, (b.entry 0).HasRange r) →
        (exposed m plt).map (holeOf b.segs) = (exposed m plt).map (copyOf (env.kmalloc n) (b.entry 0).span) :=
        fun hin =>
      List.map_congr_left fun r hr => by
        rw [holeOf, h.saved.find (h.first_reached hcur) (hin r hr) (hheld r hr).1, hbuf]
        rfl
    rw [if_pos hcur, forall_prop_of_true hcur, InOrder,
      h.saved.ordered_iff (h.first_reached hcur) hheld hap (hsort.perm _ _)]
    simp only [Option.some.injEq, forall_eq']
    exact and_congr_right fun hin => by rw [hcopy hin]
  · rw [if_neg hcur]
    simp [hcur]

/-- In a frame of less than `2 ^ 31` bytes the comparator tells the holes apart. -/
theorem Punched.sorts (h : Punched env m userRsp userRbp plt n p b s) (hmix : Mixed m userRsp userRbp plt)
    (hb : userRbp.toNat + 1 < 2 ^ 64) (hsort : env.SortOk) (hsmall : userRbp.toNat < userRsp.toNat + 2 ^ 31)
    (hin : InFirst (segments plt userRsp userRbp) (exposed m plt)) :
    Sorts env (env.kmalloc n) (segments plt userRsp userRbp) (exposed m plt) := by
  have hinner := segments_inner userRsp hmix.noWrap hb
  intro s hs
  have hseg := hs
  rw [h.head] at hs
  by_cases hcur : 0 < b.cur
  · rw [if_pos hcur] at hs
    cases hs
    have hbuf : (b.entry 0).buf = env.kmalloc n := (h.item 0 hcur).1
    have hfit := h.saved.separate.fits _ (first_mem hcur)
    have hlo := hinner.lower _ (List.mem_of_mem_head? hseg)
    have hup := hinner.upper _ (List.mem_of_mem_head? hseg)
    refine hsort.ascending (b.entry 0).buf.toNat fun a ha => ?_
    obtain ⟨r, hr, rfl⟩ := List.mem_map.mp ha
    have hrange : (b.entry 0).HasRange r := hin _ hseg r hr
    obtain ⟨hplace, -⟩ := h.saved.separate.place (first_mem hcur) (BitVec.le_def.mpr hrange.1) hrange.2
    have h1 := hrange.1
    have h2 := hrange.2
    have hstart : (copyOf (env.kmalloc n) (b.entry 0).span r).start =
        (b.entry 0).buf + (r.start - (b.entry 0).start) := by
      rw [hbuf]
      rfl
    rw [hstart, hplace]
    simp only [StackBuf.span] at hlo hup
    have := (hmix.nonempty r (List.mem_append_right _ hr))
    omega
  · rw [if_neg hcur] at hs
    cases hs

end Iff

section Runs
variable {π : Type} [DecidableEq π] {env : Env} {mems : π → Mem} {tr : List (Logged π × (π × Op))} {L : Logged π}
  {fuel : Nat} {regs regs' : Regs} {arg : Addr} {plt : List Para} {m mem : Mem} {g₀ g : Globals} {name : String}
  {p n : Nat} {b : Sbuf} {s : State}

theorem firstCopy_setup (halloc : env.AllocOk) (hf : g₀.heap.Fresh) (hset : setup env g₀ = .ok g) :
    g.heap.next + 2 = g₀.firstCopy := by
  unfold Globals.firstCopy
  cases hi : g₀.init with
  | true =>
    rw [(setup_inv hset).2.2.2.1 hi]
    rfl
  | false =>
    rw [setup_next halloc hf hi hset]
    rfl

theorem Punched.decrypt {userRsp userRbp : Addr} (h : Punched env m userRsp userRbp plt n p b s)
    (hname : (nameOf env regs').isSome) (mem : Mem) :
    ∃ t : Heap × Mem → State, (∀ x, (t x).mem = x.2) ∧
      jsysDecryptStack env regs' { s with mem } = (restoreStackBuf env s.heap mem (some p)).map fun x => (0, t x) := by
  obtain ⟨c, rest, hcs⟩ := h.record
  have hdec := decrypt_eq (s := { s with mem }) h.mapped h.init hname hcs h.top
  rw [h.slot] at hdec
  exact ⟨_, fun _ => rfl, hdec⟩

/-- But for the depths of the list, parameters are written through if and only if the holes can be walked. -/
theorem Buffers.Ready.writesThrough_iff (h : Buffers.Ready env regs g₀ g name p b) (halloc : env.AllocOk)
    (hsort : env.SortOk) (hf : g₀.heap.Fresh) (hm : g₀.Mapped env) (hacc : Accepts env regs) (hform : Formed arg m)
    (hspares : Spares arg m (segments (listAt arg m) regs.userRsp regs.userRbp))
    (hmix : Mixed m regs.userRsp regs.userRbp (listAt arg m))
    (hsep : SeparateCopies env regs (listAt arg m) { g₀ with mem := m }) :
    WritesThrough env regs arg (depthSpans arg m) { g₀ with mem := m } ↔ regs.userRbp.toNat + 1 < 2 ^ 64 ∧
      InFirst (segments (listAt arg m) regs.userRsp regs.userRbp) (exposed m (listAt arg m)) ∧
      Sorts env (env.kmalloc g₀.firstCopy) (segments (listAt arg m) regs.userRsp regs.userRbp)
      (exposed m (listAt arg m)) := by
  constructor
  · rintro ⟨fuel, e, he, -, hall⟩
    have hb : regs.userRbp.toNat + 1 < 2 ^ 64 := by
      obtain ⟨_, _, _, _, _, _, -, -, hret⟩ := User.accepted_inv (s := { g₀ with mem := m }) hm hacc he
      exact hret.last
    obtain ⟨e', b', hp, -, -, -, -, huniq⟩ := h.punchedAt halloc hm hacc hform hspares hmix hb hsep
    cases huniq fuel _ he
    refine ⟨hb, ?_⟩
    rw [← firstCopy_setup halloc hf h.set]
    refine (hp.inOrder_iff hmix hsort).mp fun hcur => ?_
    obtain ⟨t, ht, -⟩ := hall regs m hacc.1
    obtain ⟨t', -, hdec⟩ := hp.decrypt hacc.1 m
    rw [hdec] at ht
    obtain ⟨⟨heap', mem'⟩, hres, -⟩ := map_eq_ok.mp ht
    exact hp.inOrder hsort (hmix.heldIn hp.spans) hcur hres
  · rintro ⟨hb, hfirst⟩
    obtain ⟨e, b', hp, hmem, -, -, ⟨fuel, he⟩, -⟩ := h.punchedAt halloc hm hacc hform hspares hmix hb hsep
    rw [← firstCopy_setup halloc hf h.set] at hfirst
    refine ⟨fuel, e, he, fun x hx hd => ?_, fun regs' mem hname => ?_⟩
    · have hinner := segments_inner regs.userRsp hmix.noWrap hb
      rw [hmem, if_neg hd, if_neg fun hc => hx (hinner.bounds hc.1)]
    obtain ⟨heap', hres⟩ := hp.restores hmix hb hacc.2 hsort ((hp.inOrder_iff hmix hsort).mpr hfirst) mem
    obtain ⟨t, htmem, hdec⟩ := hp.decrypt hname mem
    rw [hres, Except.map] at hdec
    refine ⟨_, hdec, fun x => ?_⟩
    rw [htmem]

end Runs

/-! ### Two calls -/

/-- The pointer of `pointed`, with a by-value parameter after its target and not before its cell. -/
def pointedFirst : List Para := [⟨0x4018, 4, 0⟩, ⟨0x4008, 4, 1⟩]

theorem Mixed.of_ranges {m : Mem} {userRsp userRbp : Addr} {plt : List Para} (rs es segs : List Span)
    (hrs : valueSpans plt ++ exposed m plt = rs) (hes : exposed m plt = es)
    (hsegs : segments plt userRsp userRbp = segs) (hne : ∀ r ∈ rs, 0 < r.len.toNat)
    (hap : rs.Pairwise fun r s => r.start.toNat + r.len.toNat ≤ s.start.toNat ∨
      s.start.toNat + s.len.toNat ≤ r.start.toNat)
    (hin : ∀ r ∈ rs, userRsp.toNat ≤ r.start.toNat ∧ r.start.toNat + r.len.toNat ≤ userRbp.toNat)
    (hheld : ∀ r ∈ es, ∃ s ∈ segs, s.start.toNat ≤ r.start.toNat ∧
      r.start.toNat + r.len.toNat ≤ s.start.toNat + s.len.toNat)
    (hfew : segs.length ≤ 32) : Mixed m userRsp userRbp plt := by
  subst hrs hes hsegs
  have hfit : ∀ r ∈ valueSpans plt ++ exposed m plt, r.Fits := fun r hr => (hin r hr).2.trans (le_of_lt userRbp.isLt)
  exact ⟨hne, hap.imp_of_mem fun hr hs => Range.apart_of_le_or_le (hfit _ hr) (hfit _ hs), hin, hheld, hfew⟩

/-- Memory with the list `plt` outside the frame, at `0x9000`. -/
def listed (plt : List Para) : Mem := putList 0x9000 0x9010 plt pointedMem

theorem listAt_first : listAt 0x9000 (listed pointedFirst) = pointedFirst := LaidApart.listAt_putList (by decide)

theorem listSpans_first :
    listSpans 0x9000 (listed pointedFirst) = [⟨0x9000, 4⟩, ⟨0x9008, 8⟩, ⟨0x9010, 20⟩, ⟨0x9028, 20⟩] :=
  LaidApart.listSpans_putList (by decide)

theorem depthSpans_first : depthSpans 0x9000 (listed pointedFirst) = [⟨0x9020, 4⟩, ⟨0x9038, 4⟩] :=
  LaidApart.depthSpans_putList (by decide)

end StackVault
