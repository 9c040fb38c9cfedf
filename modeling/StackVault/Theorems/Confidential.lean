import StackVault.Theorems.Book
import StackVault.Theorems.Trace

/-! Two runs of an encrypt. The scan reads no memory to decide anything: from two memories it leaves
    arrays that differ in the saved bytes only. The trail of the chase reads those bytes where it writes
    them back. So two memories that agree outside the frame, on the by-value entries and on what the
    first call writes back cannot be told apart by what the call leaves. -/

namespace StackVault
open Memory Transition

/-! ### The scan from two memories -/

/-- The segment without its saved bytes. -/
def StackBuf.bare (e : StackBuf) : StackBuf := { e with data := fun _ => 0 }

def Sbuf.bare (b : Sbuf) : Sbuf := { b with entry := fun i => (b.entry i).bare }

/-- The heap without saved bytes. -/
def Heap.bare (h : Heap) : Heap := { h with sbufs := fun q => (h.sbufs q).map Sbuf.bare }

section Bare
variable {env : Env} {h : Heap} {p : SbufPtr} {b : Sbuf} {e : StackBuf} {n : Nat} {x : Option Sbuf}

theorem Heap.bare_set : (h.set p x).bare = h.bare.set p (x.map Sbuf.bare) := by
  refine congrArg (Heap.mk h.next) (funext fun q => ?_)
  by_cases hq : q = p
  · simp only [Heap.set, if_pos hq]
  · simp only [Heap.set, if_neg hq]
    rfl

theorem Heap.bare_next : Heap.bare { h with next := n } = { h.bare with next := n } := rfl

theorem Sbuf.bare_push : (b.push e).bare = b.bare.push e.bare := by
  refine congrArg (Sbuf.mk (b.cur + 1) b.cap) (funext fun i => ?_)
  by_cases hi : i = b.cur
  · simp [Sbuf.push, Sbuf.bare, hi]
  · simp [Sbuf.push, Sbuf.bare, hi]

theorem Sbuf.bare_doubled : (b.doubled env n).bare = b.bare.doubled env n := by
  refine congrArg (Sbuf.mk b.cur (2 * b.cap)) (funext fun i => ?_)
  by_cases hi : i < b.cur
  · simp [Sbuf.doubled, Sbuf.bare, StackBuf.bare, hi]
  · have hi' : ¬i < b.bare.cur := hi
    simp only [Sbuf.doubled, if_neg hi, if_neg hi']
    rfl

theorem Heap.bare_live (hb : h.sbufs p = some b) : h.bare.sbufs p = some b.bare := by
  simp only [Heap.bare, hb, Option.map_some]

/-- What `copy_stack_buf` does apart from the bytes it copies depends on no bytes. -/
theorem copy_bare (mem : Mem) (buf len : Addr) (halloc : env.AllocOk) (hb : h.sbufs p = some b) :
    copyStackBuf env h.bare (fun _ => 0) (some p) buf len =
      (copyStackBuf env h mem (some p) buf len).map fun x => (x.1, x.2.1, x.2.2.bare) := by
  by_cases hfull : b.cur = b.cap
  · have hfull' : b.bare.cur = b.bare.cap := hfull
    rw [copy_full mem buf len halloc hb hfull, copy_full _ buf len halloc (Heap.bare_live hb) hfull']
    simp only [Except.map, Heap.bare_set, Heap.bare_next, Option.map_some, Option.map_none, Sbuf.bare_push,
      Sbuf.bare_doubled]
    rfl
  · have hroom : b.bare.cur ≠ b.bare.cap := hfull
    rw [copy_room mem buf len halloc hb hfull, copy_room _ buf len halloc (Heap.bare_live hb) hroom]
    simp only [Except.map, Heap.bare_set, Option.map_some, Sbuf.bare_push]
    rfl

/-- Two scans in progress that differ in the saved bytes and in memory only. -/
def Saved.Twin (v w : Saved) : Prop := v.stackBuf = w.stackBuf ∧ v.heap.bare = w.heap.bare

end Bare

section Twin
variable {env : Env} {m m' : Mem} {done segs : List Span} {v w v' w' : Saved} {p q : Nat} {b c : Sbuf} {r : Span}

theorem Saved.Twin.save (h : v.Twin w) (halloc : env.AllocOk) (hv : Progress m done v p b) (hw : Progress m' done w q c)
    (h1 : StackVault.save env r v = .ok v') (h2 : StackVault.save env r w = .ok w') : v'.Twin w' := by
  obtain ⟨ret, hc1⟩ := save_eq_ok h1
  obtain ⟨ret', hc2⟩ := save_eq_ok h2
  have hb1 := copy_bare v.mem r.start r.len halloc hv.live
  have hb2 := copy_bare w.mem r.start r.len halloc hw.live
  rw [← hv.ptr, hc1] at hb1
  rw [← hw.ptr, hc2, ← h.1, ← h.2, hb1] at hb2
  obtain ⟨-, hptr, hheap⟩ : ret = ret' ∧ v'.stackBuf = w'.stackBuf ∧ v'.heap.bare = w'.heap.bare := by
    simpa [Except.map] using hb2
  exact ⟨hptr, hheap⟩

theorem Saved.Twin.saveAll (halloc : env.AllocOk) : ∀ {segs done : List Span} {v w : Saved} {p q : Nat} {b c : Sbuf},
    v.Twin w → Progress m done v p b → Progress m' done w q c → (done ++ segs).Pairwise Range.Apart →
      StackVault.saveAll env segs v = .ok v' → StackVault.saveAll env segs w = .ok w' → v'.Twin w'
  | [], _, v, w, _, _, _, _, h, _, _, _, h1, h2 => by
    cases h1
    cases h2
    exact h
  | r :: rs, done, v, w, p, q, b, c, h, hv, hw, hap, h1, h2 => by
    have hr : ∀ d ∈ done, d.Apart r := fun d hd => (List.pairwise_append.mp hap).2.2 d hd r List.mem_cons_self
    obtain ⟨v₁, p₁, b₁, hs1, hv₁, -⟩ := hv.save halloc hr
    obtain ⟨w₁, q₁, c₁, hs2, hw₁, -⟩ := hw.save halloc hr
    simp only [StackVault.saveAll, hs1, hs2, Except.bind] at h1 h2
    exact Saved.Twin.saveAll halloc (h.save halloc hv hw hs1 hs2) hv₁ hw₁ (by simpa using hap) h1 h2

theorem Saved.Twin.arrays (h : v.Twin w) (hv : Progress m done v p b) (hw : Progress m' done w q c) :
    p = q ∧ b.bare = c.bare := by
  have hptr := h.1
  rw [hv.ptr, hw.ptr] at hptr
  cases hptr
  have hb := Heap.bare_live hv.live
  rw [h.2, Heap.bare_live hw.live] at hb
  exact ⟨rfl, (Option.some.inj hb).symm⟩

end Twin

/-! ### The chase from two memories -/

/-- Segments that differ in the saved bytes only. -/
def Twins (segs segs' : List StackBuf) : Prop := segs.map StackBuf.bare = segs'.map StackBuf.bare

/-- A look-up of the range gives the same bytes. -/
def SameBytesAt (r : Span) (segs segs' : List StackBuf) : Prop := ∀ k, k < r.len → bytesOf segs r k = bytesOf segs' r k

section Trails
variable {segs segs' : List StackBuf} {home : Prop} [Decidable home] {x p len size : Addr} {tmp : Para} {r : Span}
  {b c : Sbuf}

theorem Sbuf.twins (h : b.bare = c.bare) : Twins b.segs c.segs := by
  have hsegs : ∀ b : Sbuf, b.segs.map StackBuf.bare = b.bare.segs := fun b => by
    simp only [Sbuf.segs, List.map_map]
    rfl
  rw [Twins, hsegs, hsegs, h]

namespace Twins

theorem find (h : Twins segs segs') : findInStackBuf x len segs = findInStackBuf x len segs' := by
  have hbare : ∀ l : List StackBuf, findInStackBuf x len (l.map StackBuf.bare) = findInStackBuf x len l :=
    fun _ => find_map fun _ => ⟨rfl, rfl, rfl⟩
  rw [← hbare, h, hbare]

theorem lookUp (h : Twins segs segs') :
    (∃ f, StackVault.lookUp segs r = .error f ∧ StackVault.lookUp segs' r = .error f) ∨
      ∃ src src', StackVault.lookUp segs r = .ok src ∧ StackVault.lookUp segs' r = .ok src' := by
  have hbare : ∀ l : List StackBuf, (StackVault.lookUp l r).map (fun _ => ()) =
      (kread (l.map StackBuf.bare) (findInStackBuf r.start r.len l) r.len).map (fun _ => ()) := fun l => by
    rw [kread_map (g := StackBuf.bare) fun _ => ⟨rfl, rfl, rfl⟩, StackVault.lookUp, kread]
    split
    · rfl
    · cases l.find? fun e => decide (e.Holds (findInStackBuf r.start r.len l) r.len) <;> rfl
  have heq : (StackVault.lookUp segs r).map (fun _ => ()) = (StackVault.lookUp segs' r).map (fun _ => ()) := by
    rw [hbare, hbare, h, h.find]
  cases h1 : StackVault.lookUp segs r with
  | error f =>
    cases h2 : StackVault.lookUp segs' r with
    | error f' =>
      rw [h1, h2] at heq
      cases heq
      exact Or.inl ⟨f, rfl, rfl⟩
    | ok src' =>
      rw [h1, h2] at heq
      cases heq
  | ok src =>
    cases h2 : StackVault.lookUp segs' r with
    | error f' =>
      rw [h1, h2] at heq
      cases heq
    | ok src' => exact Or.inr ⟨src, src', rfl, rfl⟩

end Twins

theorem cellTrail_reads : Trail.ReadsLogged Twins SameBytesAt fun segs => cellTrail segs home x := by
  intro segs segs' hT h
  dsimp only at h ⊢
  unfold cellTrail writeBackTrail at h ⊢
  rcases hT.lookUp (r := ⟨x, 8⟩) with ⟨f, h1, h2⟩ | ⟨src, src', h1, h2⟩
  · rw [h1, h2]
  · rw [h1] at h
    rw [h1, h2]
    by_cases hh : home
    · simp only [if_pos hh] at h ⊢
      have hsame := h ⟨x, 8⟩ (List.mem_append_left _ List.mem_cons_self)
      unfold SameBytesAt at hsame
      rw [bytesOf_ok h1, bytesOf_ok h2] at hsame
      have hload : load64 src 0 = load64 src' 0 := load64_congr (by decide) fun y hy => by
        rw [Range.mem_def, sub_zero] at hy
        exact hsame y hy
      simp only [Bind.bind, hload]
    · simp only [if_neg hh]

theorem targetTrail_reads : Trail.ReadsLogged Twins SameBytesAt fun segs => targetTrail segs home x size := by
  refine Trail.ReadsLogged.ite (fun _ _ hT => by rw [hT.find]) Trail.ReadsLogged.const fun segs segs' hT _ => ?_
  unfold writeBackTrail
  rcases hT.lookUp (r := ⟨x, size⟩) with ⟨f, h1, h2⟩ | ⟨src, src', h1, h2⟩
  · rw [h1, h2]
  · rw [h1, h2]
    by_cases hh : home
    · simp only [if_pos hh]
      rfl
    · simp only [if_neg hh]

theorem chaseTrail_reads : ∀ {n : Nat} {x : Addr}, Trail.ReadsLogged Twins SameBytesAt
    fun segs => chaseTrail segs home n x
  | 0, _ => Trail.ReadsLogged.const
  | _ + 1, _ => cellTrail_reads.bind fun _ => chaseTrail_reads

theorem pointerTrail_reads : Trail.ReadsLogged Twins SameBytesAt fun segs => pointerTrail segs home tmp :=
  Trail.ReadsLogged.ite (fun _ _ hT => by rw [hT.find]) Trail.ReadsLogged.const
    (cellTrail_reads.bind fun _ => chaseTrail_reads.bind fun _ => targetTrail_reads.bind fun _ =>
      Trail.ReadsLogged.const)

theorem pointersTrail_reads : ∀ {plt : List Para},
    Trail.ReadsLogged Twins SameBytesAt fun segs => pointersTrail segs home plt
  | [] => Trail.ReadsLogged.const
  | tmp :: rest => by
    unfold pointersTrail
    by_cases h0 : tmp.pointer = 0
    · simp only [if_pos h0]
      exact pointersTrail_reads.bind fun _ => Trail.ReadsLogged.const
    · simp only [if_neg h0]
      refine pointerTrail_reads.bind fun found => ?_
      cases found with
      | false => exact Trail.ReadsLogged.const
      | true => exact pointersTrail_reads.bind fun _ => Trail.ReadsLogged.const

theorem replay_eq {ws : List Span} {mem : Mem} (h : ∀ r ∈ ws, SameBytesAt r segs segs') :
    replay segs ws mem = replay segs' ws mem := by
  induction ws generalizing mem with
  | nil => rfl
  | cons r ws ih =>
    have hblit : blit mem r (bytesOf segs r) = blit mem r (bytesOf segs' r) := by
      funext x
      by_cases hx : x ∈ r
      · rw [blit_of_mem hx, blit_of_mem hx, h r List.mem_cons_self _ hx]
      · rw [blit_of_not_mem hx, blit_of_not_mem hx]
    show replay segs ws (blit mem r (bytesOf segs r)) = replay segs' ws (blit mem r (bytesOf segs' r))
    rw [hblit]
    exact ih fun s hs => h s (List.mem_cons_of_mem _ hs)

end Trails

/-! ### Two calls -/

/-- The user ranges that `restore_pointers` wrote, whether the call returned or not. -/
def writtenBack : Except Crash Encrypted → List Span
  | .error c => c.written
  | .ok e => e.written

/-- The calls end alike, have written the same ranges and leave the same user memory. -/
def SameView : Except Crash Encrypted → Except Crash Encrypted → Prop
  | .error c, .error c' => c.fault = c'.fault ∧ c.written = c'.written ∧ c.mem = c'.mem
  | .ok e, .ok e' => e.ret = e'.ret ∧ e.restored = e'.restored ∧ e.paraList = e'.paraList ∧ e.written = e'.written ∧
      e.state.mem = e'.state.mem
  | _, _ => False

/-- The segments that the call saves have separate copies. -/
def SeparateCopies (env : Env) (regs : Regs) (plt : List Para) (s : State) : Prop :=
  ∀ g fuel v p b, ∀ ht : g.sbufStackTop < 16, setup env s.toGlobals = .ok g →
    scan env plt regs.userRbp fuel (.start regs.userRsp (g.scanFrom ht s.mem)) = some (.ok v) →
    v.stackBuf = some p → v.heap.sbufs p = some b → Separate b.segs

section Calls
variable {env : Env} {fuel : Nat} {userRsp userRbp : Addr} {regs : Regs} {plt : List Para} {m₁ m₂ : Mem}
  {g g₀ : Globals} {opens : List Opened} {p : Nat} {b b₁ b₂ : Sbuf} {v v₁ v₂ : Saved} {cs : List CsItem}
  {r₁ : Except Crash Encrypted}

/-- Memories that agree outside the frame and on the by-value entries agree once it is cleared. -/
theorem cleared_eq (hw : NoWrap plt) (hb : userRbp.toNat + 1 < 2 ^ 64) (hle : userRsp ≤ userRbp)
    (hframe : ∀ x, ¬(userRsp ≤ x ∧ x < userRbp) → m₁ x = m₂ x) (hvalue : ∀ x, ByValue plt x → m₁ x = m₂ x) :
    cleared (segments plt userRsp userRbp) m₁ = cleared (segments plt userRsp userRbp) m₂ := by
  funext x
  unfold cleared
  by_cases hx : Covers (segments plt userRsp userRbp) x
  · rw [if_pos hx, if_pos hx]
  · rw [if_neg hx, if_neg hx]
    by_cases hin : userRsp ≤ x ∧ x < userRbp
    · exact hvalue x ((segments_cover hw hb hle hin.1 hin.2).resolve_left hx)
    · exact hframe x hin

theorem Separate.of_twins {segs segs' : List StackBuf} (h : Separate segs) (ht : Twins segs segs') :
    Separate segs' := by
  have hcopy : segs'.map StackBuf.copy = segs.map StackBuf.copy := by
    have hbare : ∀ l : List StackBuf, (l.map StackBuf.bare).map StackBuf.copy = l.map StackBuf.copy := fun l => by
      rw [List.map_map]
      rfl
    rw [← hbare, ← ht, hbare]
  refine ⟨fun e he => ?_, ?_⟩
  · have hmem : e.copy ∈ segs.map StackBuf.copy := hcopy ▸ List.mem_map_of_mem he
    obtain ⟨f, hf, hfe⟩ := List.mem_map.mp hmem
    have hfit := h.fits f hf
    have hbuf : f.buf = e.buf := congrArg Range.start hfe
    have hlen : f.len = e.len := congrArg Range.len hfe
    rwa [hbuf, hlen] at hfit
  · have hap := List.pairwise_map.mpr h.apart
    rw [← hcopy] at hap
    exact List.pairwise_map.mp hap

theorem sameBytesAt {done : List Span} {r : Span} (h₁ : Progress m₁ done v₁ p b₁) (h₂ : Progress m₂ done v₂ p b₂)
    (hin : Inner userRsp userRbp done) (ht : Twins b₁.segs b₂.segs) (hsep : Separate b₁.segs)
    (hr : r.start.toNat + r.len.toNat < 2 ^ 64) (hagree : ∀ x ∈ r, m₁ x = m₂ x) : SameBytesAt r b₁.segs b₂.segs := by
  have hspan : ∀ {m v p b}, Progress m done v p b → ∀ e ∈ b.segs, e.start.toNat + e.len.toNat < 2 ^ 64 := by
    intro m v p b h e he
    have hup := hin.upper e.span (h.spans ▸ List.mem_map_of_mem he)
    exact lt_of_le_of_lt hup userRbp.isLt
  intro k hk
  rcases ht.lookUp (r := r) with ⟨f, hl₁, hl₂⟩ | ⟨src, src', hl₁, hl₂⟩
  · simp only [bytesOf, hl₁, hl₂]
  · rw [bytesOf_ok hl₁, bytesOf_ok hl₂, hsep.lookUp_saved (hspan h₁) h₁.data hr hl₁ k hk,
      (hsep.of_twins ht).lookUp_saved (hspan h₂) h₂.data hr hl₂ k hk]
    exact hagree _ (Range.offset_mem.mpr hk)

theorem writtenBack_outcome : writtenBack (v.outcome p b plt cs g) = (callTrail p b plt).log := by
  unfold Saved.outcome
  cases (callTrail p b plt).result <;> exact List.nil_append _

/-- Two calls whose scans differ in saved bytes only, those of the ranges written back apart. -/
theorem outcome_sameView (cs : List CsItem) (g : Globals) (hb : b₁.bare = b₂.bare) (hmem : v₁.mem = v₂.mem)
    (hsame : ∀ r ∈ (callTrail p b₁ plt).log, SameBytesAt r b₁.segs b₂.segs) :
    SameView (v₁.outcome p b₁ plt cs g) (v₂.outcome p b₂ plt cs g) := by
  have hhome : (b₂.entry 0).holeList.home = (b₁.entry 0).holeList.home := by
    show (b₂.bare.entry 0).holeList.home = (b₁.bare.entry 0).holeList.home
    rw [hb]
  have htrail : callTrail p b₁ plt = callTrail p b₂ plt := by
    unfold callTrail
    simp only [hhome]
    exact pointersTrail_reads b₁.segs b₂.segs (Sbuf.twins hb) hsame
  have hafter : (v₁.after p b₁ plt).mem = (v₂.after p b₂ plt).mem := by
    unfold Saved.after Chase.after
    dsimp only
    rw [← htrail, hmem]
    exact replay_eq hsame
  have hwritten : (v₁.after p b₁ plt).written = (v₂.after p b₂ plt).written :=
    congrArg (fun t : Trail Span Fault (Int × List Para) => [] ++ t.log) htrail
  unfold Saved.outcome
  rw [← htrail]
  cases (callTrail p b₁ plt).result with
  | error f => exact ⟨rfl, hwritten, hafter⟩
  | ok x => exact ⟨rfl, rfl, rfl, hwritten, hafter⟩

theorem frame_scans (userRsp : Addr) (halloc : env.AllocOk) (hw : NoWrap plt) (hb : userRbp.toNat + 1 < 2 ^ 64)
    (hf : g.heap.Fresh) (ht : g.sbufStackTop < 16) (hs : g.Slot ⟨g.sbufStackTop, ht⟩ p b) (hcur : b.cur = 0)
    (hcap : 0 < b.cap) (m₁ m₂ : Mem) :
    ∃ fuel v₁ v₂ p' b₁ b₂, scan env plt userRbp fuel (.start userRsp (g.scanFrom ht m₁)) = some (.ok v₁) ∧
      scan env plt userRbp fuel (.start userRsp (g.scanFrom ht m₂)) = some (.ok v₂) ∧
      Progress m₁ (segments plt userRsp userRbp) v₁ p' b₁ ∧ Progress m₂ (segments plt userRsp userRbp) v₂ p' b₂ ∧
      b₁.bare = b₂.bare := by
  have hcut := cut_segments userRsp hw hb
  have hap := (segments_inner userRsp hw hb).apart
  have hold := Nat.lt_add_right 2 (hf.lt hs.live)
  have start : ∀ m, Progress m [] (g.scanFrom ht m) p b :=
    fun m => Progress.start (v := g.scanFrom ht m) hs.ptr hs.live hcur hcap hold
  have steady : ∀ m, Steady env (g.scanFrom ht m).heap b.cap p (g.scanFrom ht m) b := fun m =>
    Steady.start (v := g.scanFrom ht m) hs.ptr hs.live hcur
  obtain ⟨v₁, p₁, b₁, hall₁, h₁, -⟩ := (start m₁).saveAll halloc hap (Or.inl ⟨steady m₁, rfl⟩)
  obtain ⟨v₂, p₂, b₂, hall₂, h₂, -⟩ := (start m₂).saveAll halloc hap (Or.inl ⟨steady m₂, rfl⟩)
  have htwin : v₁.Twin v₂ := Saved.Twin.saveAll halloc (v := g.scanFrom ht m₁) (w := g.scanFrom ht m₂) ⟨rfl, rfl⟩
    (start m₁) (start m₂) hap hall₁ hall₂
  obtain ⟨rfl, hbare⟩ := htwin.arrays h₁ h₂
  exact ⟨_, v₁, v₂, p₁, b₁, b₂, (scan_of_cut (l := .start userRsp (g.scanFrom ht m₁)) hcut).trans (congrArg some hall₁),
    (scan_of_cut (l := .start userRsp (g.scanFrom ht m₂)) hcut).trans (congrArg some hall₂), h₁, h₂, hbare⟩

theorem Buffers.Ready.confidential {name : String} (h : Buffers.Ready env regs g₀ g name p b) (halloc : env.AllocOk)
    (hle : regs.userRsp ≤ regs.userRbp) (hw : NoWrap plt) (hb : regs.userRbp.toNat + 1 < 2 ^ 64)
    (hsep : SeparateCopies env regs plt { g₀ with mem := m₁ })
    (hframe : ∀ x, ¬(regs.userRsp ≤ x ∧ x < regs.userRbp) → m₁ x = m₂ x) (hvalue : ∀ x, ByValue plt x → m₁ x = m₂ x)
    (hcall : jsysEncryptStack env fuel regs plt { g₀ with mem := m₁ } = some r₁)
    (hwritten : ∀ r ∈ writtenBack r₁, r.start.toNat + r.len.toNat < 2 ^ 64 ∧ ∀ x ∈ r, m₁ x = m₂ x) :
    (∃ fuel r₂, jsysEncryptStack env fuel regs plt { g₀ with mem := m₂ } = some r₂) ∧
      ∀ fuel r₂, jsysEncryptStack env fuel regs plt { g₀ with mem := m₂ } = some r₂ → SameView r₁ r₂ := by
  have hcap := h.cap
  have hinner := segments_inner regs.userRsp hw hb
  obtain ⟨fuel₀, v₁, v₂, p', b₁, b₂, hscan₁, hscan₂, hp₁, hp₂, hbare⟩ :=
    frame_scans regs.userRsp halloc hw hb h.fresh h.top h.slot h.cur (by omega) m₁ m₂
  rw [h.call] at hcall
  obtain rfl := encryptFrame_outcome halloc h.depth h.top hscan₁ hp₁.ptr hp₁.live hcall
  rw [writtenBack_outcome] at hwritten
  have hmem : v₁.mem = v₂.mem := by rw [hp₁.mem_eq, hp₂.mem_eq, cleared_eq hw hb hle hframe hvalue]
  have hseparate := hsep g fuel₀ v₁ p' b₁ h.top h.set hscan₁ hp₁.ptr hp₁.live
  have hview := outcome_sameView (⟨regs.userRsp, regs.userRbp, name⟩ :: g.callStack) g hbare hmem fun r hr =>
    sameBytesAt hp₁ hp₂ hinner (Sbuf.twins hbare) hseparate (hwritten r hr).1 (hwritten r hr).2
  refine ⟨⟨fuel₀, _, (h.call fuel₀ plt m₂).trans
    (encryptFrame_tell name halloc h.depth h.top hscan₂ hp₂.ptr hp₂.live)⟩, fun fuel r₂ hr₂ => ?_⟩
  rw [h.call] at hr₂
  rw [encryptFrame_outcome halloc h.depth h.top hscan₂ hp₂.ptr hp₂.live hr₂]
  exact hview

end Calls

section Runs
variable {π : Type} [DecidableEq π] {env : Env} {mems : π → Mem} {tr : List (Logged π × (π × Op))} {L : Logged π}
  {fuel : Nat} {regs : Regs} {plt : List Para} {m₁ m₂ : Mem} {r₁ : Except Crash Encrypted}

/-- Confidentiality. After any run, take two memories that agree outside the frame, on the by-value
    entries and on the ranges that the encrypt from the first one writes back: the encrypt from the second
    one writes back the same ranges, ends the same way and leaves the same user memory. -/
theorem encrypt_confidential (halloc : env.AllocOk) (hr : Run (LoggedStep env) (.start mems) tr L)
    (hc : Meets (Bounded env) tr) (hacc : Accepts env regs) (hroom : L.opens.length < 16) (hw : NoWrap plt)
    (hb : regs.userRbp.toNat + 1 < 2 ^ 64) (hsep : SeparateCopies env regs plt { L.toGlobals with mem := m₁ })
    (hframe : ∀ x, ¬(regs.userRsp ≤ x ∧ x < regs.userRbp) → m₁ x = m₂ x) (hvalue : ∀ x, ByValue plt x → m₁ x = m₂ x)
    (hcall : jsysEncryptStack env fuel regs plt { L.toGlobals with mem := m₁ } = some r₁)
    (hwritten : ∀ r ∈ writtenBack r₁, r.start.toNat + r.len.toNat < 2 ^ 64 ∧ ∀ x ∈ r, m₁ x = m₂ x) :
    (∃ fuel r₂, jsysEncryptStack env fuel regs plt { L.toGlobals with mem := m₂ } = some r₂) ∧
      ∀ fuel r₂, jsysEncryptStack env fuel regs plt { L.toGlobals with mem := m₂ } = some r₂ → SameView r₁ r₂ := by
  have h := Book.of_run halloc hr hc
  have htop : L.sbufStackTop < 16 := h.length ▸ hroom
  have hcs : L.callStackTop < 64 := Nat.lt_of_lt_of_le (h.depth ▸ htop) (by decide)
  obtain ⟨g, name, p, b, hready⟩ := h.buffers.ready h.fits h.mapped halloc hacc hcs htop
  exact hready.confidential halloc hacc.2 hw hb hsep hframe hvalue hcall hwritten

end Runs

/-! ### An example -/

section Sample
variable {regs : Regs} {plt : List Para} {g g₀ : Globals} {name : String} {p c : Nat} {b : Sbuf} {h₀ : Heap} {v : Saved}

theorem sample_kmalloc {n : Nat} (h : n < 0x100000) : (Env.sample.kmalloc n).toNat = 0x800000000000 + n * 0x1000 := by
  show (0x800000000000 + n % 0x100000 * 0x1000) % 2 ^ 64 = _
  omega

/-- Segments of a page at most have separate copies, each in a page of its own. -/
theorem Steady.separate_sample (h : Steady Env.sample h₀ c p v b) (hnext : h₀.next + b.cur ≤ 0x100000)
    (hlen : ∀ e ∈ b.segs, e.len.toNat ≤ 0x1000) : Separate b.segs := by
  have hbuf : ∀ i < b.cur, (b.entry i).buf.toNat = 0x800000000000 + (h₀.next + i) * 0x1000 := fun i hi => by
    rw [(h.item i hi).1, sample_kmalloc (by omega)]
  have hfit : ∀ i < b.cur, (b.entry i).buf.toNat + (b.entry i).len.toNat < 2 ^ 64 := fun i hi => by
    have h1 := hbuf i hi
    have h2 := hlen _ (Sbuf.mem_segs.mpr ⟨i, hi, rfl⟩)
    omega
  constructor
  · intro e he
    obtain ⟨i, hi, rfl⟩ := Sbuf.mem_segs.mp he
    exact hfit i hi
  · refine List.pairwise_map.mpr (List.pairwise_lt_range.imp_of_mem fun {i j} hi hj hij => ?_)
    have hi' := List.mem_range.mp hi
    have hj' := List.mem_range.mp hj
    refine Range.apart_of_le (le_of_lt (hfit i hi')) (le_of_lt (hfit j hj')) ?_
    have h1 := hbuf i hi'
    have h2 := hbuf j hj'
    have h3 := hlen _ (Sbuf.mem_segs.mpr ⟨i, hi', rfl⟩)
    simp only [StackBuf.copy]
    omega

theorem Buffers.Ready.separate_sample {mem : Mem} (h : Buffers.Ready Env.sample regs g₀ g name p b) (hw : NoWrap plt)
    (hb : regs.userRbp.toNat + 1 < 2 ^ 64) (hsegs : (segments plt regs.userRsp regs.userRbp).length ≤ 32)
    (hframe : regs.userRbp.toNat ≤ regs.userRsp.toNat + 0x1000) (hnext : g.heap.next + 34 ≤ 0x100000) :
    SeparateCopies Env.sample regs plt { g₀ with mem } := by
  intro g' fuel v q b' ht hset hscan hptr hlive
  have hset' := hset.symm.trans h.set
  cases hset'
  have hcap := h.cap
  have hinner := segments_inner regs.userRsp hw hb
  obtain ⟨fuel₀, v₀, q₀, b₀, hscan₀, hprog, hcase⟩ :=
    frame_scan regs.userRsp mem Env.sample_allocOk hw hb h.fresh h.top h.slot h.cur (by omega)
  cases scan_unique hscan hscan₀
  rw [hprog.ptr] at hptr
  cases hptr
  rw [hprog.live] at hlive
  cases hlive
  have hcur := hprog.cur_eq
  rcases hcase with ⟨hst, rfl⟩ | hmv
  · have hnext' : (g.scanFrom h.top mem).heap.next = g.heap.next + 2 := rfl
    refine hst.separate_sample (by omega) fun e he => ?_
    have hmem : e.span ∈ segments plt regs.userRsp regs.userRbp := hprog.spans ▸ List.mem_map_of_mem he
    have h1 := hinner.lower _ hmem
    have h2 := hinner.upper _ hmem
    have hlen : e.span.len = e.len := rfl
    rw [hlen] at h2
    omega
  · have := hmv.above
    omega

theorem setup_next {env : Env} (halloc : env.AllocOk) (hf : g₀.heap.Fresh) (hi : g₀.init = false)
    (hs : setup env g₀ = .ok g) : g.heap.next = g₀.heap.next + 17 := by
  obtain ⟨hnext, -, -⟩ := initSlots_spec halloc 16 { g₀.heap with next := g₀.heap.next + 1 } (hf.later (Nat.le_succ _))
  rw [setup_eq halloc hi] at hs
  generalize initSlots env 16 _ = made at hs hnext
  cases hs
  rw [hnext]

end Sample

/-- The frame `[0x4000, 0x4020)`, with a pointer at `0x4008` to four bytes at `0x4010`. -/
def pointed : List Para := [⟨0x4004, 4, 0⟩, ⟨0x4008, 4, 1⟩]

def pointedMem : Mem := fun x =>
  if x = 0x4008 then 0x10 else if x = 0x4009 then 0x40 else if x ∈ (⟨0x4008, 8⟩ : Span) then 0 else 0x41

theorem pointed_noWrap : NoWrap pointed := by
  intro p hp _
  simp only [pointed, List.mem_cons, List.not_mem_nil, or_false] at hp
  rcases hp with rfl | rfl <;> decide

/-- The same with another byte at `0x4018`. -/
def pointedMem' : Mem := fun x => if x = 0x4018 then 0x42 else pointedMem x

/-- A first call, of the frame `[0x4000, 0x4020)`, finds the module ready and its copies separate. -/
theorem sample_ready (mem : Mem) :
    ∃ g name p b, Buffers.Ready Env.sample (.frame 0x1010 0x4000 0x4020) loaded g name p b ∧ ∀ plt, NoWrap plt →
      (segments plt 0x4000 0x4020).length ≤ 32 →
      SeparateCopies Env.sample (.frame 0x1010 0x4000 0x4020) plt { loaded with mem } := by
  have hbook : Book Env.sample (.start fun _ : Unit => mem) := Book.start
  obtain ⟨g, name, p, b, hready⟩ := hbook.buffers.ready hbook.fits hbook.mapped Env.sample_allocOk
    (show Accepts Env.sample (.frame 0x1010 0x4000 0x4020) by decide) (Nat.zero_lt_succ 63) (Nat.zero_lt_succ 15)
  have hnext := setup_next Env.sample_allocOk hbook.buffers.fresh rfl hready.set
  refine ⟨g, name, p, b, hready, fun plt hw hsegs => hready.separate_sample hw (by decide) hsegs (by decide) ?_⟩
  rw [hnext]
  exact Nat.le_of_ble_eq_true rfl

theorem pointed_separate {mem : Mem} :
    SeparateCopies Env.sample (.frame 0x1010 0x4000 0x4020) pointed { loaded with mem } := by
  obtain ⟨-, -, -, -, -, hsep⟩ := sample_ready mem
  exact hsep pointed pointed_noWrap (by decide)

theorem encrypt_confidential_sample : ∃ fuel r₁ r₂,
    jsysEncryptStack Env.sample 40 (.frame 0x1010 0x4000 0x4020) pointed { loaded with mem := pointedMem } = some r₁ ∧
    jsysEncryptStack Env.sample fuel (.frame 0x1010 0x4000 0x4020) pointed { loaded with mem := pointedMem' } =
    some r₂ ∧
    writtenBack r₁ = [⟨0x4008, 8⟩, ⟨0x4010, 4⟩] ∧ SameView r₁ r₂ := by
  have hexec : ∃ r₁, jsysEncryptStack Env.sample 40 (.frame 0x1010 0x4000 0x4020) pointed
      { loaded with mem := pointedMem } = some r₁ ∧ writtenBack r₁ = [⟨0x4008, 8⟩, ⟨0x4010, 4⟩] := ⟨_, rfl, rfl⟩
  obtain ⟨r₁, hcall, hwritten⟩ := hexec
  have hother : ∀ x : Addr, x ≠ 0x4018 → pointedMem x = pointedMem' x := fun x hx => (if_neg hx).symm
  obtain ⟨⟨fuel, r₂, hcall₂⟩, hview⟩ := encrypt_confidential Env.sample_allocOk
    (Run.nil : Run (LoggedStep Env.sample) (.start fun _ : Unit => pointedMem) [] _) meets_nil
    (show Accepts Env.sample (.frame 0x1010 0x4000 0x4020) by decide)
    (Nat.zero_lt_succ 15) pointed_noWrap (by decide) pointed_separate
    (fun x hx => hother x (by rintro rfl; exact hx (by decide)))
    (fun x hx => hother x (by
      rintro rfl
      obtain ⟨p, hp, hp0, hxp⟩ := hx
      simp only [pointed, List.mem_cons, List.not_mem_nil, or_false] at hp
      rcases hp with rfl | rfl
      · exact absurd hxp (by decide)
      · exact absurd hp0 (by decide)))
    hcall (by
      rw [hwritten]
      intro r hr
      simp only [List.mem_cons, List.not_mem_nil, or_false] at hr
      rcases hr with rfl | rfl
      · exact ⟨by decide, fun x hx => hother x (by rintro rfl; exact absurd hx (by decide))⟩
      · exact ⟨by decide, fun x hx => hother x (by rintro rfl; exact absurd hx (by decide))⟩)
  exact ⟨fuel, r₁, r₂, hcall, hcall₂, hwritten, hview fuel r₂ hcall₂⟩

end StackVault
