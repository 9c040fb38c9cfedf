import StackVault.Theorems.Book
import StackVault.Theorems.Counted

/-! Whole calls with the list in memory. When neither the scan nor the chase writes over the list, the call does what
    it does with the list as a value, and leaves in the list the depths of the value that comes back. -/

namespace StackVault
open Memory Twofold

/-- `e'` is the call `e` with the list at `arg` in memory, which was `m` before it. -/
structure InMemory (arg : Addr) (m : Mem) (e : Encrypted) (e' : User.Encrypted) : Prop where
  ret : e'.ret = e.ret
  restored : e'.restored = e.restored
  written : e'.written = e.written
  globals : e'.state.toGlobals = e.state.toGlobals
  size : sizeAt e'.state.mem arg = sizeAt m arg
  plist : plistAt e'.state.mem arg = plistAt m arg
  list : listAt arg e'.state.mem = e.paraList
  off : ∀ x, ¬Covers (depthSpans arg m) x → e'.state.mem x = e.state.mem x

/-- The depths in the list are those that come back: 0, when no entry that comes back is a pointer. -/
theorem InMemory.depths {arg x : Addr} {m : Mem} {e : Encrypted} {e' : User.Encrypted} (h : InMemory arg m e e')
    (hv : AllByValue e.paraList) (hx : Covers (depthSpans arg m) x) : e'.state.mem x = 0 := by
  have hspans : depthSpans arg e'.state.mem = depthSpans arg m := by rw [depthSpans, h.size, h.plist, depthSpans]
  exact depths_zero_iff.mpr (h.list.symm ▸ hv) x (hspans.symm ▸ hx)

/-- A by-value list has nothing to write back. -/
theorem pointersTrail_byValue {segs : List StackBuf} {home : Prop} [Decidable home] :
    ∀ {plt : List Para}, AllByValue plt →
    pointersTrail segs home plt = ⟨[], .ok (0, plt)⟩
  | [], _ => rfl
  | tmp :: rest, hv => by
    unfold pointersTrail
    rw [if_pos (hv tmp List.mem_cons_self), pointersTrail_byValue fun p hp => hv p (List.mem_cons_of_mem _ hp)]
    rfl

section Frames
variable {env : Env} {fuel fuel' fuel₀ : Nat} {userRsp userRbp arg : Addr} {name : String} {g : Globals} {mem : Mem}
  {v : Saved} {p : SbufPtr} {b : Sbuf} {regs : Regs} {s : State} {segs : List Span}

/-- The list is cleared nowhere, so the scan that reads it again and again is the scan with the list as a value. -/
theorem scan_spared {stackBuf : Option SbufPtr} {heap : Heap}
    (hcut : cut (listAt arg mem) userRbp fuel userRsp userRsp = some segs) (hspares : Spares arg mem segs) :
      User.scan env arg userRbp fuel (.start userRsp ⟨stackBuf, heap, mem⟩) =
      scan env (listAt arg mem) userRbp fuel (.start userRsp ⟨stackBuf, heap, mem⟩) := by
  rw [User.scan, scanWith_of_cut (l := .start userRsp ⟨stackBuf, heap, mem⟩) (hspares.cut_iff.mpr hcut),
    scan_of_cut (l := .start userRsp ⟨stackBuf, heap, mem⟩) hcut]

theorem User.encryptFrame_mono {r : Except Crash User.Encrypted} (hf : fuel ≤ fuel')
    (h : User.encryptFrame env fuel userRsp userRbp arg name g mem = some r) :
    User.encryptFrame env fuel' userRsp userRbp arg name g mem = some r := by
  unfold User.encryptFrame at h ⊢
  split at h
  · rw [if_pos ‹_›]
    exact h
  · rw [if_neg ‹_›]
    split at h
    · rw [if_pos ‹_›]
      exact h
    · rw [if_neg ‹_›]
      split at h
      · next ht =>
        rw [dif_pos ht]
        dsimp only at h ⊢
        split at h
        · cases h
        · next e he =>
          rw [show User.scan env arg userRbp fuel' _ = _ from scanWith_mono hf he]
          exact h
        · next v hv =>
          rw [show User.scan env arg userRbp fuel' _ = _ from scanWith_mono hf hv]
          obtain ⟨x, hx, rfl⟩ := Option.map_eq_some_iff.mp h
          dsimp only
          rw [show User.restorePointers env v.stackBuf arg fuel' _ = _ from
            User.restoreFrom_mono hf hx, Option.map_some]
      · rw [dif_neg ‹_›]
        exact h

theorem User.encryptFrame_unique {r r' : Except Crash User.Encrypted}
    (h : User.encryptFrame env fuel userRsp userRbp arg name g mem = some r)
    (h' : User.encryptFrame env fuel' userRsp userRbp arg name g mem = some r') : r = r' :=
  Option.some.inj ((User.encryptFrame_mono (Nat.le_max_left fuel fuel') h).symm.trans
    (User.encryptFrame_mono (Nat.le_max_right fuel fuel') h'))

/-- A whole call with the list in memory has one result, whatever number of iterations was enough for it. -/
theorem User.encrypt_unique {r r' : Except Crash User.Encrypted}
    (h : User.jsysEncryptStack env fuel regs arg s = some r)
    (h' : User.jsysEncryptStack env fuel' regs arg s = some r') : r = r' := by
  unfold User.jsysEncryptStack at h h'
  cases hset : setup env s.toGlobals with
  | error f =>
    rw [hset] at h h'
    exact Option.some.inj (h.symm.trans h')
  | ok g =>
    rw [hset] at h h'
    dsimp only at h h'
    cases hmapper : g.mapper with
    | none =>
      rw [hmapper] at h h'
      exact Option.some.inj (h.symm.trans h')
    | some mapper =>
      rw [hmapper] at h h'
      dsimp only at h h'
      cases hname : getFuncName mapper regs.ip with
      | none =>
        rw [hname] at h h'
        exact Option.some.inj (h.symm.trans h')
      | some name =>
        rw [hname] at h h'
        dsimp only at h h'
        by_cases hlt : regs.userRbp < regs.userRsp
        · rw [if_pos hlt] at h h'
          exact Option.some.inj (h.symm.trans h')
        · rw [if_neg hlt] at h h'
          exact User.encryptFrame_unique h h'

variable (name) in
/-- A call whose scan has ended at `v`, from enough iterations on. -/
theorem User.encryptFrame_of_scan (halloc : env.AllocOk) (hcs : g.callStackTop < 64) (ht : g.sbufStackTop < 16)
    (hscan : User.scan env arg userRbp fuel (.start userRsp (g.scanFrom ht mem)) = some (.ok v)) :
    User.encryptFrame env fuel userRsp userRbp arg name g mem =
      (User.restorePointers env v.stackBuf arg fuel { mem := v.mem, heap := v.heap, written := [] }).map fun r =>
      r.map fun x =>
        { ret := 0, restored := some x.1, written := x.2.written,
          state := { g with callStack := ⟨userRsp, userRbp, name⟩ :: g.callStack,
                            sbufStackTop := g.sbufStackTop + 1, heap := x.2.heap, mem := x.2.mem } } := by
  unfold User.encryptFrame
  rw [if_neg (not_or.mpr ⟨halloc _, halloc _⟩), if_neg (Nat.not_le_of_lt hcs), dif_pos ht]
  have hscan' : User.scan env arg userRbp fuel
      { i := userRsp, prevRsp := userRsp, stackBuf := g.sbufStack ⟨g.sbufStackTop, ht⟩,
        heap := { g.heap with next := g.heap.next + 2 }, mem } = some (.ok v) := hscan
  dsimp only
  rw [hscan']

theorem User.encrypt_accepted (hm : s.Mapped env) (hset : setup env s.toGlobals = .ok g)
    (hn : nameOf env regs = some name) (hacc : Accepts env regs) :
    User.jsysEncryptStack env fuel regs arg s =
    User.encryptFrame env fuel regs.userRsp regs.userRbp arg name g s.mem := by
  unfold User.jsysEncryptStack
  rw [hset]
  simp only [setup_mapper hset hm]
  rw [show getFuncName env.exe regs.ip = some name from hn]
  exact if_neg (BitVec.not_lt.mpr hacc.2)

/-- What an accepted call that returned has done: it has cleared the ranges of its walk, and gone over the list. -/
structure User.Returned (env : Env) (fuel : Nat) (userRsp userRbp arg : Addr) (name : String) (g : Globals) (mem : Mem)
    (e : User.Encrypted) (segs : List Span) (v : Saved) (ret : Int) (c : Chase) : Prop where
  depth : g.callStackTop < 64
  top : g.sbufStackTop < 16
  walk : cutWith (listAt arg) userRbp fuel mem userRsp userRsp = some segs
  saved : saveAll env segs (g.scanFrom top mem) = .ok v
  last : userRbp.toNat + 1 < 2 ^ 64
  pointers : User.restorePointers env v.stackBuf arg fuel { mem := v.mem, heap := v.heap, written := [] } =
    some (.ok (ret, c))
  ret_eq : e.ret = 0
  restored_eq : e.restored = some ret
  written_eq : e.written = c.written
  state_eq : e.state = { g with callStack := ⟨userRsp, userRbp, name⟩ :: g.callStack,
                                sbufStackTop := g.sbufStackTop + 1,
                                heap := c.heap, mem := c.mem }

/-- Where the chase finds no pointer in the list, the call has cleared its ranges and done no more. -/
theorem User.Returned.byValue {e : User.Encrypted} {ret : Int} {c : Chase}
    (h : User.Returned env fuel userRsp userRbp arg name g mem e segs v ret c)
    (hv : AllByValue (listAt arg (cleared segs mem))) :
    e.state.heap = v.heap ∧ e.state.mem = cleared segs mem := by
  have hmem : v.mem = cleared segs mem := saveAll_mem h.saved
  have hdone :=
    User.restoreFrom_byValue (c := { mem := v.mem, heap := v.heap, written := [] }) (hmem.symm ▸ hv) h.pointers
  rw [h.state_eq, (Prod.mk.inj (Except.ok.inj hdone)).2]
  exact ⟨rfl, hmem⟩

theorem User.encryptFrame_inv {e : User.Encrypted}
    (h : User.encryptFrame env fuel userRsp userRbp arg name g mem = some (.ok e)) :
    ∃ segs v ret c, User.Returned env fuel userRsp userRbp arg name g mem e segs v ret c := by
  unfold User.encryptFrame at h
  split at h
  · cases h
  · split at h
    · cases h
    · next hcs =>
      split at h
      · next ht =>
        dsimp only at h
        split at h
        · cases h
        · cases h
        · next v hscan =>
          obtain ⟨r, hr, he⟩ := Option.map_eq_some_iff.mp h
          obtain ⟨⟨ret, c⟩, rfl, rfl⟩ := map_eq_ok.mp he
          have hscan' : scanWith env (listAt arg) userRbp fuel (.start userRsp (g.scanFrom ht mem)) =
            some (.ok v) := hscan
          obtain ⟨segs, hsegs⟩ | ⟨_, _, hr, -⟩ := scanWith_stopped hscan'
          · have hall : scanWith env (listAt arg) userRbp fuel (.start userRsp (g.scanFrom ht mem)) = _ :=
              scanWith_of_cut hsegs
            exact ⟨segs, v, ret, c, Nat.lt_of_not_le hcs, ht, hsegs, Option.some.inj (hall.symm.trans hscan'),
              scanWith_ok_lt hscan', hr, rfl, rfl, rfl, rfl⟩
          · cases hr
      · cases h

/-- An accepted call that returned. -/
theorem User.accepted_inv {e : User.Encrypted} (hm : s.Mapped env) (hacc : Accepts env regs)
    (he : User.jsysEncryptStack env fuel regs arg s = some (.ok e)) :
    ∃ g name segs v ret c, setup env s.toGlobals = .ok g ∧ nameOf env regs = some name ∧
      User.Returned env fuel regs.userRsp regs.userRbp arg name g s.mem e segs v ret c := by
  obtain ⟨name, hn⟩ := Option.isSome_iff_exists.mp hacc.1
  cases hset : setup env s.toGlobals with
  | error f =>
    unfold User.jsysEncryptStack at he
    rw [hset] at he
    cases he
  | ok g =>
    rw [User.encrypt_accepted hm hset hn hacc] at he
    obtain ⟨segs, v, ret, c, hret⟩ := User.encryptFrame_inv he
    exact ⟨g, name, segs, v, ret, c, rfl, hn, hret⟩

theorem User.accepted_mapped {e : User.Encrypted} (hm : s.Mapped env) (hacc : Accepts env regs)
    (he : User.jsysEncryptStack env fuel regs arg s = some (.ok e)) : e.state.Mapped env ∧ e.state.init = true := by
  obtain ⟨g, _, _, _, _, _, hset, -, hret⟩ := User.accepted_inv hm hacc he
  have hinit := (setup_inv hset).1
  rw [hret.state_eq]
  exact ⟨(setup_mapper hset hm).trans (if_pos hinit).symm, hinit⟩

variable (name) in
/-- A call that clears no byte of its list, and whose chase writes none. -/
theorem encryptFrame_follows (halloc : env.AllocOk) (hcs : g.callStackTop < 64) (ht : g.sbufStackTop < 16)
    (hcut : cut (listAt arg mem) userRbp fuel₀ userRsp userRsp = some segs) (hspares : Spares arg mem segs)
    (hscan : scan env (listAt arg mem) userRbp fuel (.start userRsp (g.scanFrom ht mem)) = some (.ok v))
    (hptr : v.stackBuf = some p) (hb : v.heap.sbufs p = some b) (hform : Formed arg mem)
    (hlog : (callTrail p b (listAt arg mem)).Logs (Clear arg mem)) :
    (∃ fuel r, User.encryptFrame env fuel userRsp userRbp arg name g mem = some r) ∧
    ∀ fuel r, User.encryptFrame env fuel userRsp userRbp arg name g mem = some r →
      Ends SameFault (InMemory arg mem)
      (v.outcome p b (listAt arg mem) (⟨userRsp, userRbp, name⟩ :: g.callStack) g) r := by
  have hall : scan env (listAt arg mem) userRbp fuel₀ (.start userRsp (g.scanFrom ht mem)) = _ := scan_of_cut hcut
  have hv : saveAll env segs (g.scanFrom ht mem) = .ok v := scan_unique hall hscan
  have hscan₀ : scan env (listAt arg mem) userRbp fuel₀ (.start userRsp (g.scanFrom ht mem)) = some (.ok v) :=
    hall.trans (congrArg some hv)
  have hmem : v.mem = cleared segs mem := saveAll_mem hv
  have hsame : SameList arg mem v.mem := by
    rw [hmem]
    exact hspares.sameList
  have huser : ∀ fuel, fuel₀ ≤ fuel →
      User.scan env arg userRbp fuel (.start userRsp (g.scanFrom ht mem)) = some (.ok v) :=
    fun fuel hf => scanWith_mono hf ((scan_spared hcut hspares).trans hscan₀)
  have hform' : Formed arg v.mem := hsame.formed hform
  have hlog' : (callTrail p b (listAt arg v.mem)).Logs (Clear arg v.mem) := by
    rw [hsame.listAt]
    refine hlog.mono fun r hr x hx hl => hr x hx ?_
    rwa [hsame.spans] at hl
  obtain ⟨r₀, hr₀, hends⟩ :=
    restorePointers_follows env (c := { mem := v.mem, heap := v.heap, written := [] }) hform' hb hlog'
      (Nat.le_max_right fuel₀ _)
  have hcall :=
    User.encryptFrame_of_scan name halloc hcs ht (huser _ (Nat.le_max_left fuel₀ (steps (listAt arg v.mem))))
  rw [hptr, hr₀, Option.map_some] at hcall
  refine ⟨⟨_, _, hcall⟩, fun fuel r hr => ?_⟩
  rw [User.encryptFrame_unique hr hcall]
  have hbase := encryptFrame_of_scan name halloc hcs ht hscan
  rw [encryptFrame_tell name halloc hcs ht hscan hptr hb, hptr] at hbase
  rw [Option.some.inj hbase]
  dsimp only at hends
  rw [hsame.listAt] at hends
  refine hends.bind fun u w hw => ?_
  obtain ⟨hret, htracks⟩ := hw
  refine .ok ⟨rfl, congrArg some hret, htracks.written, ?_, htracks.size.trans hsame.sizeAt,
    htracks.plist.trans hsame.plistAt, htracks.list, fun x hx => htracks.off x fun hd => hx ?_⟩
  · exact congrArg (fun heap => { g with callStack := ⟨userRsp, userRbp, name⟩ :: g.callStack,
                                         sbufStackTop := g.sbufStackTop + 1, heap }) htracks.heap
  · rwa [hsame.depthSpans] at hd

/-- The same for a whole call, when no range that the chase may write back has a byte of the list. -/
theorem Buffers.Ready.follows {g₀ : Globals} {b₀ : Sbuf} {p₀ : Nat} (h : Buffers.Ready env regs g₀ g name p₀ b₀)
    (halloc : env.AllocOk) (hm : g₀.Mapped env) (hacc : Accepts env regs) (hw : NoWrap (listAt arg mem))
    (hb : regs.userRbp.toNat + 1 < 2 ^ 64) (hform : Formed arg mem)
    (hspares : Spares arg mem (segments (listAt arg mem) regs.userRsp regs.userRbp))
    (hlog : ∀ fuel v p b, scan env (listAt arg mem) regs.userRbp fuel (.start regs.userRsp (g.scanFrom h.top mem)) =
      some (.ok v) → v.stackBuf = some p → v.heap.sbufs p = some b →
      (callTrail p b (listAt arg mem)).Logs (Clear arg mem)) :
    ∃ r, (∃ fuel, jsysEncryptStack env fuel regs (listAt arg mem) { g₀ with mem } = some r) ∧
      (∀ fuel r₁, jsysEncryptStack env fuel regs (listAt arg mem) { g₀ with mem } = some r₁ → r₁ = r) ∧
      (∃ fuel r', User.jsysEncryptStack env fuel regs arg { g₀ with mem } = some r') ∧
      ∀ fuel r', User.jsysEncryptStack env fuel regs arg { g₀ with mem } = some r' →
      Ends SameFault (InMemory arg mem) r r' := by
  obtain ⟨name', hn⟩ := Option.isSome_iff_exists.mp hacc.1
  have hcap := h.cap
  obtain ⟨fuel₀, v, p, b, hscan, hprog, -⟩ :=
    frame_scan regs.userRsp mem halloc hw hb h.fresh h.top h.slot h.cur (by omega)
  have hcall : ∀ fuel, User.jsysEncryptStack env fuel regs arg { g₀ with mem } =
      User.encryptFrame env fuel regs.userRsp regs.userRbp arg name' g mem := fun fuel =>
    User.encrypt_accepted (s := { g₀ with mem }) hm h.set hn hacc
  have hbase : ∀ fuel, jsysEncryptStack env fuel regs (listAt arg mem) { g₀ with mem } =
      encryptFrame env fuel regs.userRsp regs.userRbp (listAt arg mem) name' g mem := fun fuel =>
    encrypt_accepted (s := { g₀ with mem }) hm h.set hn hacc
  obtain ⟨⟨fuel, r', hr'⟩, hends⟩ := encryptFrame_follows name' halloc h.depth h.top
    (cut_segments regs.userRsp hw hb) hspares hscan hprog.ptr hprog.live hform
    (hlog fuel₀ v p b hscan hprog.ptr hprog.live)
  exact ⟨_, ⟨fuel₀, (hbase fuel₀).trans (encryptFrame_tell name' halloc h.depth h.top hscan hprog.ptr hprog.live)⟩,
    fun fuel₁ r₁ hr₁ => encryptFrame_outcome halloc h.depth h.top hscan hprog.ptr hprog.live
    ((hbase fuel₁).symm.trans hr₁),
    ⟨fuel, r', (hcall fuel).trans hr'⟩, fun fuel r' hr' => hends fuel r' ((hcall fuel).symm.trans hr')⟩

/-- A by-value call that clears no byte of its list returns. -/
theorem Buffers.Ready.returnsAt {g₀ : Globals} {b₀ : Sbuf} {p₀ : Nat} (h : Buffers.Ready env regs g₀ g name p₀ b₀)
    (halloc : env.AllocOk) (hm : g₀.Mapped env) (hacc : Accepts env regs) (hv : AllByValue (listAt arg mem))
    (hw : NoWrap (listAt arg mem)) (hb : regs.userRbp.toNat + 1 < 2 ^ 64) (hform : Formed arg mem)
    (hspares : Spares arg mem (segments (listAt arg mem) regs.userRsp regs.userRbp)) :
    ∃ fuel e, User.jsysEncryptStack env fuel regs arg { g₀ with mem } = some (.ok e) := by
  have hcap := h.cap
  obtain ⟨fuel₀, e, he⟩ :=
    frame_returns regs.userRsp name mem halloc hv hw hb h.fresh h.depth h.top h.slot h.cur (by omega)
  obtain ⟨r, -, huniq, ⟨fuel, r', hr'⟩, hends⟩ := h.follows halloc hm hacc hw hb hform hspares fun _ _ p b _ _ _ => by
    rw [callTrail, pointersTrail_byValue hv]
    exact fun r hr => absurd hr List.not_mem_nil
  obtain rfl : .ok e = r := huniq fuel₀ _ ((h.call fuel₀ _ mem).trans he)
  obtain ⟨e', rfl, -⟩ := (hends fuel r' hr').of_ok
  exact ⟨fuel, e', hr'⟩

end Frames

/-- The module just loaded, before an accepted call. -/
theorem loaded_ready {regs : Regs} (hacc : Accepts Env.sample regs) :
    loaded.Mapped Env.sample ∧ ∃ g name p b, Buffers.Ready Env.sample regs loaded g name p b := by
  have hbook : Book Env.sample (.start fun _ : Unit => fun _ => 0) := Book.start
  exact ⟨hbook.mapped, hbook.buffers.ready hbook.fits hbook.mapped Env.sample_allocOk hacc (Nat.zero_lt_succ 63)
    (Nat.zero_lt_succ 15)⟩

end StackVault
