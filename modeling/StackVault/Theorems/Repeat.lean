import StackVault.Theorems.Growth
import StackVault.Theorems.Walk
import StackVault.Theorems.WriteThrough

/-! A parameter list used twice. `restore_pointers` counts the depth of an entry down in the list of the
    caller, so a pointer entry comes back as a by-value entry for its cell, and the next encrypt with the
    list skips the cell and leaves the target cleared; and a list that lies in the frame is cleared with it.
    Lists without pointers that the scan leaves alone stay as they are, and the second call does to the frame
    what the first one did. -/

namespace StackVault
open Memory Transition

/-- The first encrypt returned `e` from the state `s`; the callee has made of memory what it likes, a
    decrypt has returned, the frame is back as it was, and the list, where it is not in the frame, as the
    first call left it. The list is as before the first call, a second encrypt with it returns when allocations
    succeed, leaves the frame as the first one left it, and changes the list no more than that. -/
def Repeats (env : Env) (regs : Regs) (arg : Addr) (s : State) (e : User.Encrypted) : Prop :=
  SameList arg s.mem e.state.mem ∧ ∀ regs' w ret t m,
    jsysDecryptStack env regs' { e.state with mem := w } = .ok (ret, t) →
    (∀ x, regs.userRsp ≤ x → x < regs.userRbp → m x = s.mem x) →
    (∀ x, Covers (listSpans arg s.mem) x → ¬(regs.userRsp ≤ x ∧ x < regs.userRbp) → m x = e.state.mem x) →
    (env.AllocOk → ∃ fuel e₂, User.jsysEncryptStack env fuel regs arg { t with mem := m } = some (.ok e₂)) ∧
    ∀ fuel e₂, User.jsysEncryptStack env fuel regs arg { t with mem := m } = some (.ok e₂) →
      SameList arg m e₂.state.mem ∧ ∀ x, regs.userRsp ≤ x → x < regs.userRbp → e₂.state.mem x = e.state.mem x

/-- Each byte of the list that is cleared has been that before. -/
def Unharmed (arg : Addr) (m : Mem) (segs : List Span) : Prop :=
  ∀ x, Covers (listSpans arg m) x → Covers segs x → m x = 0x30

section Repeat
variable {env : Env} {fuel : Nat} {regs : Regs} {arg : Addr} {s t : State} {e : User.Encrypted} {m m' : Mem}
  {segs pre : List Span}

namespace Unharmed

theorem alongPrefix (h : Unharmed arg m segs) (hpre : pre <+: segs) : SameList arg m (cleared pre m) := by
  intro x hx
  by_cases hc : Covers pre x
  · obtain ⟨r, hr, hxr⟩ := hc
    rw [cleared, if_pos ⟨r, hr, hxr⟩, h x hx ⟨r, hpre.mem hr, hxr⟩]
  · rw [cleared, if_neg hc]

theorem of_same (h : SameList arg m (cleared segs m)) : Unharmed arg m segs := fun x hx hc =>
  (h x hx).symm.trans (if_pos hc)

theorem congr (h : Unharmed arg m segs) (hsame : SameList arg m m') : Unharmed arg m' segs := fun x hx hc => by
  rw [hsame.spans] at hx
  rw [hsame x hx, h x hx hc]

/-- The walk reads the list alike all the way, so it is the one with the list as a value. -/
theorem cut_iff (h : Unharmed arg m segs) {userRbp i prevRsp : Addr} :
    cutWith (listAt arg) userRbp fuel m i prevRsp = some segs ↔
    cut (listAt arg m) userRbp fuel i prevRsp = some segs :=
  cutWith_iff fun _ hpre => (h.alongPrefix hpre).listAt

end Unharmed

/-- A call whose walk ends with the list by value returns, from a live element of `sbuf_stack`. -/
theorem byValue_returnsAt {g : Globals} {p : SbufPtr} {b : Sbuf} (halloc : env.AllocOk) (hm : g.Mapped env)
    (hinit : g.init = true) (hacc : Accepts env regs)
    (hwalk : cutWith (listAt arg) regs.userRbp fuel m regs.userRsp regs.userRsp = some segs)
    (hv : AllByValue (listAt arg (cleared segs m))) (hcs : g.callStackTop < 64) (ht : g.sbufStackTop < 16)
    (hslot : g.Slot ⟨g.sbufStackTop, ht⟩ p b) :
    ∃ fuel e, User.jsysEncryptStack env fuel regs arg { g with mem := m } = some (.ok e) := by
  obtain ⟨name, hn⟩ := Option.isSome_iff_exists.mp hacc.1
  obtain ⟨v, -, -, hall, -⟩ := saveAll_lists halloc segs (v := g.scanFrom ht m) hslot.ptr hslot.live
  have hscan : User.scan env arg regs.userRbp fuel (.start regs.userRsp (g.scanFrom ht m)) = some (.ok v) :=
    (scanWith_of_cut (l := .start regs.userRsp (g.scanFrom ht m)) hwalk).trans (congrArg some hall)
  have hmem : v.mem = cleared segs m := saveAll_mem hall
  have hmax := Nat.le_max_left fuel (sizeAt v.mem arg + 1)
  have hcall : User.jsysEncryptStack env (max fuel (sizeAt v.mem arg + 1)) regs arg { g with mem := m } = _ :=
    User.encrypt_accepted (s := { g with mem := m }) hm (setup_done hinit) hn hacc
  have hchase : User.restoreFrom env v.stackBuf arg (max fuel (sizeAt v.mem arg + 1)) 0
      { mem := v.mem, heap := v.heap, written := [] } =
      some (.ok (0, { mem := v.mem, heap := v.heap, written := [] })) :=
    User.restoreFrom_returns (hmem.symm ▸ hv) (by dsimp only; omega)
  have hbase := User.encryptFrame_of_scan name halloc hcs ht (scanWith_mono hmax hscan)
  rw [User.restorePointers, hchase] at hbase
  exact ⟨_, _, hcall.trans hbase⟩

/-- After an accepted encrypt and a decrypt such a call returns. -/
theorem encrypt_again {regs' : Regs} {w : Mem} {ret : Int} (halloc : env.AllocOk) (hm : s.Mapped env)
    (hacc : Accepts env regs) {fuel₁ : Nat} {arg₁ : Addr}
    (he : User.jsysEncryptStack env fuel₁ regs arg₁ s = some (.ok e))
    (hdec : jsysDecryptStack env regs' { e.state with mem := w } = .ok (ret, t))
    (hwalk : cutWith (listAt arg) regs.userRbp fuel m regs.userRsp regs.userRsp = some segs)
    (hv : AllByValue (listAt arg (cleared segs m))) :
    ∃ fuel e₂, User.jsysEncryptStack env fuel regs arg { t with mem := m } = some (.ok e₂) := by
  obtain ⟨g, _, _, _, _, _, -, -, hret⟩ := User.accepted_inv hm hacc he
  have hstate := hret.state_eq
  have htop := hret.top
  rcases decrypt_cases hdec with ⟨hnil, -⟩ | ⟨c, rest, _, _, heap, mem, hlt, hrec, -, -, -, -, hres, rfl⟩
  · rw [hstate] at hnil
    exact absurd hnil (List.cons_ne_nil _ _)
  obtain ⟨q, b, b', hq, -, hheap, -⟩ := restoreStackBuf_inv hres
  have hrest : rest = g.callStack := by
    rw [hstate] at hrec
    exact (List.cons.inj hrec).2.symm
  obtain ⟨hmapped, hinit⟩ := User.accepted_mapped hm hacc he
  refine byValue_returnsAt (p := q) (b := b') halloc hmapped hinit hacc hwalk hv (hrest ▸ hret.depth)
    (by rw [hstate]; exact htop) ⟨hq, ?_⟩
  -- The element is reset where it stands.
  rw [hheap]
  exact Heap.set_sbufs_self

section Returned
variable {g : Globals} {name : String} {v : Saved} {c : Chase} {ret : Int}

/-- An encrypt whose list has no pointer, and is not changed by being cleared, repeats. -/
theorem repeats_of_unharmed (hm : s.Mapped env) (hacc : Accepts env regs)
    (he : User.jsysEncryptStack env fuel regs arg s = some (.ok e))
    (hret : User.Returned env fuel regs.userRsp regs.userRbp arg name g s.mem e segs v ret c)
    (hv : AllByValue (listAt arg s.mem)) (hun : Unharmed arg s.mem segs) : Repeats env regs arg s e := by
  have hsame : SameList arg s.mem (cleared segs s.mem) := hun.alongPrefix List.prefix_rfl
  obtain ⟨-, hmem⟩ := hret.byValue (hsame.listAt.symm ▸ hv)
  have hcut := hun.cut_iff.mp hret.walk
  refine ⟨fun x hx => (congrFun hmem x).trans (hsame x hx), fun regs' w ret t m hdec hback hlist => ?_⟩
  have hsame' : SameList arg s.mem m := fun x hx => by
    by_cases hin : regs.userRsp ≤ x ∧ x < regs.userRbp
    · exact hback x hin.1 hin.2
    · exact (hlist x hx hin).trans ((congrFun hmem x).trans (hsame x hx))
  have hun' := hun.congr hsame'
  have hv' : AllByValue (listAt arg (cleared segs m)) := by
    rw [(hun'.alongPrefix List.prefix_rfl).listAt, hsame'.listAt]
    exact hv
  have hwalk' : cutWith (listAt arg) regs.userRbp fuel m regs.userRsp regs.userRsp = some segs :=
    hun'.cut_iff.mpr (hsame'.listAt.symm ▸ hcut)
  refine ⟨fun halloc => encrypt_again halloc hm hacc he hdec hwalk' hv', fun fuel₂ e₂ he₂ => ?_⟩
  have hm₂ : t.Mapped env := decrypt_mapped (s := { e.state with mem := w }) (User.accepted_mapped hm hacc he).1 hdec
  obtain ⟨_, _, segs₂, _, _, _, -, -, hret₂⟩ := User.accepted_inv (s := { t with mem := m }) hm₂ hacc he₂
  obtain rfl : segs₂ = segs := cutWith_unique hret₂.walk hwalk'
  obtain ⟨-, hmem₂⟩ := hret₂.byValue hv'
  refine ⟨fun x hx => (congrFun hmem₂ x).trans (hun'.alongPrefix List.prefix_rfl x hx), fun x h1 h2 => ?_⟩
  rw [hmem₂, hmem, cleared, cleared]
  simp only [hback x h1 h2]

/-- An encrypt that leaves its list as it is has found it by value, and cleared no byte of it to another one. -/
theorem unharmed_of_same (hret : User.Returned env fuel regs.userRsp regs.userRbp arg name g m e segs v ret c)
    (hlist : AllByValue (listAt arg (cleared segs m)) ∨
      (Formed arg m ∧ Spares arg m segs ∧ ∀ r ∈ e.written, Clear arg m r)) (hsame : SameList arg m e.state.mem) :
    AllByValue (listAt arg m) ∧ Unharmed arg m segs := by
  rcases hlist with hv | ⟨hform, hspares, hclear⟩
  · have hsame' : SameList arg m (cleared segs m) := (hret.byValue hv).2 ▸ hsame
    exact ⟨hsame'.listAt ▸ hv, Unharmed.of_same hsame'⟩
  · have hmem : v.mem = cleared segs m := saveAll_mem hret.saved
    have hscan : SameList arg m v.mem := hmem ▸ hspares.sameList
    have hlist : listAt arg v.mem = listAt arg m := hscan.listAt
    have hstate : e.state.mem = c.mem := by rw [hret.state_eq]
    have hkept : SameList arg v.mem c.mem := fun x hx => by
      have hx' : Covers (listSpans arg m) x := hscan.spans ▸ hx
      exact hstate ▸ (hsame x hx').trans (hscan x hx').symm
    have hpointers := User.restoreFrom_same (c := { mem := v.mem, heap := v.heap, written := [] })
      (hscan.formed hform) hret.pointers
      (fun r hr x hx hl => hclear r (hret.written_eq ▸ hr) x hx (hscan.spans ▸ hl)) hkept
    exact ⟨hlist ▸ hpointers, fun x hx hs => absurd hs (hspares x hx)⟩

end Returned

variable {π : Type} [DecidableEq π] {mems : π → Mem} {tr : List (Logged π × (π × Op))} {L : Logged π}

/-- After any run, with the list anywhere in memory: an accepted encrypt that has returned can be repeated with its list
    when no entry of it is a pointer, and no byte of it is changed by being cleared. Where the chase finds the list by
    value, or nothing is written over it, it can only then. -/
theorem repeats_iff (hr : Run (LoggedStep env) (.start mems) tr L) (p : π) (hacc : Accepts env regs)
    (he : User.jsysEncryptStack env fuel regs arg (L.view p) = some (.ok e)) :
    ∃ segs, cutWith (listAt arg) regs.userRbp fuel (L.mems p) regs.userRsp regs.userRsp = some segs ∧
      (NoWrap (listAt arg (L.mems p)) → OutsideFrame arg (L.mems p) regs.userRsp regs.userRbp →
        Spares arg (L.mems p) segs) ∧
      (AllByValue (listAt arg (L.mems p)) ∧ Unharmed arg (L.mems p) segs → Repeats env regs arg (L.view p) e) ∧
      (AllByValue (listAt arg (cleared segs (L.mems p))) ∨
          (Formed arg (L.mems p) ∧ Spares arg (L.mems p) segs ∧ ∀ r ∈ e.written, Clear arg (L.mems p) r) →
        (Repeats env regs arg (L.view p) e ↔ AllByValue (listAt arg (L.mems p)) ∧ Unharmed arg (L.mems p) segs)) := by
  have hm : (L.view p).Mapped env := (Stacked.of_run hr).mapped
  obtain ⟨g, name, segs, v, ret, c, -, -, hret⟩ := User.accepted_inv hm hacc he
  have hwalk : cutWith (listAt arg) regs.userRbp fuel (L.mems p) regs.userRsp regs.userRsp = some segs := hret.walk
  have hrepeats : AllByValue (listAt arg (L.mems p)) ∧ Unharmed arg (L.mems p) segs →
      Repeats env regs arg (L.view p) e := fun h => repeats_of_unharmed hm hacc he hret h.1 h.2
  refine ⟨segs, hwalk, fun hw hout x hx hs => ?_, hrepeats, fun hlist => ⟨fun h => ?_, hrepeats⟩⟩
  · have hsegs := segments_inner regs.userRsp hw hret.last
    have hspares : Spares arg (L.mems p) (segments (listAt arg (L.mems p)) regs.userRsp regs.userRbp) := fun x hx hs =>
      hout x hx (hsegs.bounds hs)
    rw [cutWith_unique hwalk (hspares.cut_iff.mpr (cut_segments regs.userRsp hw hret.last))] at hs
    exact hspares x hx hs
  · exact unharmed_of_same hret hlist h.1

end Repeat

theorem repeats_sample : ∃ fuel e, User.jsysEncryptStack Env.sample fuel (.frame 0x1010 0x4000 0x4010) 0x9000
      { loaded with mem := framedList } = some (.ok e) ∧
    Repeats Env.sample (.frame 0x1010 0x4000 0x4010) 0x9000 { loaded with mem := framedList } e := by
  obtain ⟨fuel, e, he⟩ := framedList_returns
  obtain ⟨segs, -, hspares, hrepeats, -⟩ := repeats_iff
    (Run.nil : Run (LoggedStep Env.sample) (.start fun _ : Unit => framedList) [] _) () (by decide) he
  have hoff := hspares framedList_byValue.2 outside_framedList
  exact ⟨fuel, e, he, hrepeats ⟨framedList_byValue.1, fun x hx hs => absurd hs (hoff x hx)⟩⟩

/-- In the frame `[0x4000, 0x4020)`, a pointer at `0x4008` to the four bytes at `0x4010`. -/
def pointer : List Para := [⟨0x4008, 4, 1⟩]

theorem listAt_pointer : listAt 0x9000 (listed pointer) = pointer := LaidApart.listAt_putList (by decide)

theorem spans_pointer : listSpans 0x9000 (listed pointer) = [⟨0x9000, 4⟩, ⟨0x9008, 8⟩, ⟨0x9010, 20⟩] :=
  LaidApart.listSpans_putList (by decide)

theorem depths_pointer : depthSpans 0x9000 (listed pointer) = [⟨0x9020, 4⟩] := LaidApart.depthSpans_putList (by decide)

theorem listed_pointer : Mixed (listed pointer) 0x4000 0x4020 (listAt 0x9000 (listed pointer)) := by
  rw [listAt_pointer]
  exact Mixed.of_ranges [⟨0x4008, 8⟩, ⟨0x4010, 4⟩] [⟨0x4008, 8⟩, ⟨0x4010, 4⟩] [⟨0x4000, 0x20⟩] (by decide)
    (by decide) (by decide) (by decide) (by decide) (by decide) (by decide) (by decide)

/-- The first encrypt leaves the target of the pointer as it is, and `[(0x4008, 4, 0)]` as the list. The decrypt gives
    the frame back. -/
theorem pointer_restored : ∃ fuel e t,
    User.jsysEncryptStack Env.sample fuel (.frame 0x1010 0x4000 0x4020) 0x9000 { loaded with mem := listed pointer } =
      some (.ok e) ∧
    jsysDecryptStack Env.sample (.frame 0x1010 0x4000 0x4020) e.state = .ok (0, t) ∧
    (∀ x, 0x4000 ≤ x → x < 0x4020 → t.mem x = listed pointer x) ∧ SameList 0x9000 e.state.mem t.mem ∧
    listSpans 0x9000 e.state.mem = listSpans 0x9000 (listed pointer) ∧ listAt 0x9000 e.state.mem = [⟨0x4008, 4, 0⟩] ∧
    e.state.mem 0x4010 = listed pointer 0x4010 ∧ e.state.mem 0x9020 = 0 := by
  have hbook : Book Env.sample (.start fun _ : Unit => pointedMem) := Book.start
  have hacc : Accepts Env.sample (.frame 0x1010 0x4000 0x4020) := by decide
  obtain ⟨g, name, p, b, hready, hsep⟩ := sample_ready (listed pointer)
  have hform : Formed 0x9000 (listed pointer) := Formed.of_beside (by rw [depths_pointer]; decide)
  have hspares : Spares 0x9000 (listed pointer) (segments (listAt 0x9000 (listed pointer)) 0x4000 0x4020) :=
    Spares.of_beside (by rw [spans_pointer, listAt_pointer]; decide)
  have hsep' := hsep _ listed_pointer.noWrap listed_pointer.few
  obtain ⟨e, b', hp, hmem, hspans, hlist, ⟨fuel, he⟩, huniq⟩ :=
    hready.punchedAt Env.sample_allocOk hbook.mapped hacc hform hspares listed_pointer (by decide) hsep'
  have hfirst : InFirst (segments (listAt 0x9000 (listed pointer)) 0x4000 0x4020)
      (exposed (listed pointer) (listAt 0x9000 (listed pointer))) := by
    rw [listAt_pointer]
    intro s hs
    obtain rfl : (⟨0x4000, 0x20⟩ : Span) = s := Option.some.inj hs
    decide
  have hsorts := hp.sorts listed_pointer (by decide) Env.sample_sortOk (by decide) hfirst
  rw [firstCopy_setup Env.sample_allocOk hbook.buffers.fresh hready.set] at hsorts
  obtain ⟨fuel', e', he', -, hall⟩ := (hready.writesThrough_iff Env.sample_allocOk Env.sample_sortOk hbook.buffers.fresh
    hbook.mapped hacc hform hspares listed_pointer hsep').mpr ⟨by decide, hfirst, hsorts⟩
  cases huniq fuel' _ he'
  obtain ⟨t, hdec, ht⟩ := hall (.frame 0x1010 0x4000 0x4020) e.state.mem (by decide)
  have hin : ∀ x : Addr, Covers (listSpans 0x9000 (listed pointer)) x → ¬(0x4000 ≤ x ∧ x < 0x4020) :=
    OutsideFrame.of_beside (by decide) (by rw [spans_pointer]; decide)
  have hexposed : ∀ x : Addr, 0x4000 ≤ x → x < 0x4020 →
      Covers (exposed (listed pointer) (listAt 0x9000 (listed pointer))) x →
      e.state.mem x = listed pointer x := fun x h1 h2 hx => by
    rw [hmem, if_neg fun hd => hin x (covers_listSpans_of_depth hd) ⟨h1, h2⟩]
    exact if_neg fun h => h.2 hx
  refine ⟨fuel, e, t, he, hdec, fun x h1 h2 => ?_, fun x hx => ?_, hspans, ?_, ?_, ?_⟩
  · rw [ht]
    by_cases hx : Covers (exposed (listed pointer) (listAt 0x9000 (listed pointer))) x
    · exact (if_neg fun h => h.2 (covers_append.mpr (Or.inr hx))).trans (hexposed x h1 h2 hx)
    · refine if_pos ⟨⟨h1, h2⟩, fun h => hx ?_⟩
      have hvalue : valueSpans (listAt 0x9000 (listed pointer)) = [] := by
        rw [listAt_pointer]
        decide
      have h' : Covers (valueSpans (listAt 0x9000 (listed pointer)) ++
          exposed (listed pointer) (listAt 0x9000 (listed pointer))) x := h
      rwa [hvalue, List.nil_append] at h'
  · rw [hspans] at hx
    rw [ht]
    exact if_neg fun h => hin x hx h.1
  · rw [hlist, listAt_pointer]
    rfl
  · exact hexposed 0x4010 (by decide) (by decide) (by rw [listAt_pointer]; decide)
  · rw [hmem, if_pos (by rw [depths_pointer]; decide)]

/-- So the second encrypt takes the pointer for a parameter by value, and clears the target. -/
theorem target_cleared : ∃ fuel e t fuel₂ e₂,
    User.jsysEncryptStack Env.sample fuel (.frame 0x1010 0x4000 0x4020) 0x9000 { loaded with mem := listed pointer } =
      some (.ok e) ∧
    jsysDecryptStack Env.sample (.frame 0x1010 0x4000 0x4020) e.state = .ok (0, t) ∧
    (∀ x, 0x4000 ≤ x → x < 0x4020 → t.mem x = listed pointer x) ∧
    User.jsysEncryptStack Env.sample fuel₂ (.frame 0x1010 0x4000 0x4020) 0x9000 t = some (.ok e₂) ∧
    listAt 0x9000 t.mem = [⟨0x4008, 4, 0⟩] ∧ e.state.mem 0x4010 = listed pointer 0x4010 ∧ e₂.state.mem 0x4010 = 0x30 ∧
    ¬Repeats Env.sample (.frame 0x1010 0x4000 0x4020) 0x9000 { loaded with mem := listed pointer } e := by
  obtain ⟨fuel, e, t, he, hdec, hback, hsame, hspans, hlist, htarget, hdepth⟩ := pointer_restored
  have hbook : Book Env.sample (.start fun _ : Unit => pointedMem) := Book.start
  have hm : Globals.Mapped Env.sample loaded := hbook.mapped
  have hacc : Accepts Env.sample (.frame 0x1010 0x4000 0x4020) := by decide
  have hlist' : listAt 0x9000 t.mem = [⟨0x4008, 4, 0⟩] := hsame.listAt.trans hlist
  have hspares : Spares 0x9000 t.mem (segments (listAt 0x9000 t.mem) 0x4000 0x4020) :=
    Spares.of_beside (by rw [hsame.spans, hspans, spans_pointer, hlist']; decide)
  have hwalk := hspares.cut_iff.mpr (cut_segments 0x4000 (by rw [hlist']; unfold NoWrap; decide) (by decide))
  have hv : AllByValue (listAt 0x9000 (cleared (segments (listAt 0x9000 t.mem) 0x4000 0x4020) t.mem)) := by
    rw [hspares.sameList.listAt, hlist']
    unfold AllByValue
    decide
  obtain ⟨fuel₂, e₂, he₂⟩ := encrypt_again (s := { loaded with mem := listed pointer }) (m := t.mem) Env.sample_allocOk
    hm hacc he hdec hwalk hv
  have hm₂ : t.Mapped Env.sample := decrypt_mapped
    (User.accepted_mapped (s := { loaded with mem := listed pointer }) hm hacc he).1 hdec
  obtain ⟨_, _, segs, _, _, _, -, -, hret⟩ := User.accepted_inv (s := t) hm₂ hacc he₂
  obtain rfl := cutWith_unique hret.walk hwalk
  refine ⟨fuel, e, t, fuel₂, e₂, he, hdec, hback, he₂, hlist', htarget, ?_, fun hrep => ?_⟩
  · rw [(hret.byValue hv).2, hlist']
    rfl
  · -- The list itself has changed: its depth was 1.
    have hkept := hrep.1 0x9020 (by show Covers (listSpans 0x9000 (listed pointer)) 0x9020; rw [spans_pointer]; decide)
    rw [hdepth] at hkept
    exact absurd hkept (by decide)

end StackVault
