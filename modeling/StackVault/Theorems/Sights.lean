import StackVault.Theorems.Unseen

/-! What a callee learns. After an encrypt the bytes that it took from the frame are in one array, which the top of
    `sbuf_stack` has passed. Two modules whose encrypts started from memories that the call cannot tell apart then
    go the same way for as long as that array is not decrypted: through calls of any kind, from any process. -/

namespace StackVault
open Memory Transition Twofold

/-! ### The arrays that two encrypts leave -/

section Arrays
variable {env : Env} {m m₁ m₂ : Mem} {D : Set SbufPtr} {h h' : Heap} {p q : SbufPtr} {x y : Option Sbuf}
  {v v' v₁ v₂ : Saved} {b b₁ b₂ : Sbuf} {done segs : List Span}

/-- An array of `D` may be written apart. -/
theorem Heap.Alike.hide (ha : h.Alike D h') (hp : p ∈ D) : (h.set p x).Alike D (h'.set p y) := by
  refine ⟨ha.next, ha.old, fun q hq => ?_⟩
  have hqp : q ≠ p := by
    rintro rfl
    exact hq hp
  rw [Heap.set_sbufs_ne hqp, Heap.set_sbufs_ne hqp]
  exact ha.same q hq

/-- Of the arrays that are not the one in use, the saves keep those they find and free those they made. -/
theorem Progress.saveAll_others (halloc : env.AllocOk) {v : Saved} {p : Nat} {b : Sbuf} (h : Progress m done v p b)
    (hap : (done ++ segs).Pairwise Range.Apart) (hall : StackVault.saveAll env segs v = .ok v')
    (hq : v'.stackBuf = some q) :
    (q = p ∨ v.heap.next ≤ (q : Nat)) ∧
      ∀ r, r ≠ q → (r ≠ p ∧ v'.heap.sbufs r = v.heap.sbufs r) ∨ v'.heap.sbufs r = none := by
  induction segs generalizing done v p b with
  | nil =>
    cases hall
    rw [h.ptr] at hq
    cases hq
    exact ⟨Or.inl rfl, fun r hr => Or.inl ⟨hr, rfl⟩⟩
  | cons r rs ih =>
    have hr : ∀ d ∈ done, d.Apart r := fun d hd => (List.pairwise_append.mp hap).2.2 d hd r List.mem_cons_self
    obtain ⟨v₁, p₁, b₁, hsave, hp₁, hcase⟩ := h.save halloc hr
    simp only [StackVault.saveAll, hsave, Except.bind] at hall
    obtain ⟨hplace, hothers⟩ := ih hp₁ (by simpa using hap) hall
    rcases hcase with ⟨-, rfl, -, hn, ho⟩ | ⟨-, rfl, hn, hfree, ho⟩
    · refine ⟨hplace.imp_right fun hle => by omega, fun s hs => ?_⟩
      rcases hothers s hs with ⟨hne, heq⟩ | hnone
      · exact Or.inl ⟨hne, heq.trans (ho s hne)⟩
      · exact Or.inr hnone
    · refine ⟨Or.inr ?_, fun s hs => ?_⟩
      · rcases hplace with rfl | hle
        · exact Nat.le_refl _
        · omega
      · rcases hothers s hs with ⟨hne, heq⟩ | hnone
        · by_cases hsp : s = p
          · rw [hsp] at heq ⊢
            exact Or.inr (heq.trans hfree)
          · exact Or.inl ⟨hsp, heq.trans (ho s hsp hne)⟩
        · exact Or.inr hnone

theorem Heap.bare_none (h : Heap) (q : SbufPtr) : h.bare.sbufs q = none ↔ h.sbufs q = none := Option.map_eq_none_iff

/-- Two scans of one frame, from two memories over one heap, leave heaps that agree but for the array in use. -/
theorem Saved.Twin.alike {v w v' w' : Saved} {p : Nat} {b c b' : Sbuf} {m' : Mem} (halloc : env.AllocOk)
    (hheap : v.heap = w.heap) (hv : Progress m [] v p b) (hw : Progress m' [] w p c) (hap : segs.Pairwise Range.Apart)
    (h1 : StackVault.saveAll env segs v = .ok v') (h2 : StackVault.saveAll env segs w = .ok w') (ht : v'.Twin w')
    (hq : Progress m done v' q b') :
    v'.heap.Alike {q} w'.heap := by
  obtain ⟨-, ho1⟩ := hv.saveAll_others halloc hap h1 hq.ptr
  obtain ⟨-, ho2⟩ := hw.saveAll_others halloc hap h2 (ht.1 ▸ hq.ptr)
  have hbare : ∀ r, v'.heap.sbufs r = none ↔ w'.heap.sbufs r = none := fun r => by
    rw [← Heap.bare_none, ht.2, Heap.bare_none]
  have hnext : v'.heap.bare.next = w'.heap.bare.next := by rw [ht.2]
  refine ⟨hnext, fun r hr => hr ▸ hq.old, fun r hr => ?_⟩
  rcases ho1 r hr with ⟨-, heq1⟩ | hnone
  · rcases ho2 r hr with ⟨-, heq2⟩ | hnone
    · rw [heq1, heq2, hheap]
    · rw [hnone]
      exact (hbare r).mpr hnone
  · rw [hnone]
    exact ((hbare r).mp hnone).symm

end Arrays

/-! ### Two encrypts -/

section Encrypts
variable {env : Env} {fuel : Nat} {regs : Regs} {plt : List Para} {m₁ m₂ : Mem} {g g₀ : Globals} {opens : List Opened}
  {p : Nat} {b b₁ b₂ : Sbuf} {v₁ v₂ : Saved} {cs : List CsItem} {q : SbufPtr} {e₁ : Encrypted} {name : String}

/-- Two calls whose scans differ in saved bytes only leave modules that differ in the array with these bytes only. -/
theorem outcome_alike (hheap : v₁.heap.Alike {p} v₂.heap)
    (hview : SameView (v₁.outcome p b₁ plt cs g) (v₂.outcome p b₂ plt cs g))
    (hout : v₁.outcome p b₁ plt cs g = .ok e₁) :
    ∃ e₂, v₂.outcome p b₂ plt cs g = .ok e₂ ∧ e₁.Alike {p} e₂ ∧ e₁.state.init = g.init ∧
      e₁.state.sbufStack = g.sbufStack ∧ e₁.state.sbufStackTop = g.sbufStackTop + 1 := by
  rw [hout] at hview
  cases hout₂ : v₂.outcome p b₂ plt cs g with
  | error f =>
    rw [hout₂] at hview
    exact hview.elim
  | ok e₂ =>
    rw [hout₂] at hview
    obtain ⟨hret, hrestored, hlist, hwritten, hmem⟩ := hview
    have hlog : (callTrail p b₁ plt).log = (callTrail p b₂ plt).log := by
      rw [← writtenBack_outcome, ← writtenBack_outcome, hout, hout₂]
      exact hwritten
    have hheap' : (v₁.after p b₁ plt).heap.Alike {p} (v₂.after p b₂ plt).heap := by
      unfold Saved.after Chase.after
      dsimp only
      rw [← hlog, ← hheap.next]
      exact (hheap.later (Nat.le_add_right _ _)).hide rfl
    unfold Saved.outcome at hout hout₂
    cases h1 : (callTrail p b₁ plt).result with
    | error f =>
      rw [h1] at hout
      cases hout
    | ok x =>
      cases h2 : (callTrail p b₂ plt).result with
      | error f =>
        rw [h2] at hout₂
        cases hout₂
      | ok y =>
        rw [h1] at hout
        rw [h2] at hout₂
        cases hout
        cases hout₂
        exact ⟨_, rfl, ⟨hret, hrestored, hlist, hwritten, ⟨⟨hheap', rfl, rfl, rfl, rfl, rfl⟩, hmem⟩⟩, rfl, rfl, rfl⟩

/-- The scans of one frame from two memories leave heaps that agree but for the array with the saved bytes: the one that
    the scans began with, or a new one. -/
theorem scans_alike {userRsp userRbp : Addr} (halloc : env.AllocOk) (hw : NoWrap plt) (hb : userRbp.toNat + 1 < 2 ^ 64)
    (hf : g.heap.Fresh) (ht : g.sbufStackTop < 16) (hs : g.Slot ⟨g.sbufStackTop, ht⟩ p b) (hcur : b.cur = 0)
    (hcap : 0 < b.cap) (hscan₁ : scan env plt userRbp fuel (.start userRsp (g.scanFrom ht m₁)) = some (.ok v₁))
    (hscan₂ : scan env plt userRbp fuel (.start userRsp (g.scanFrom ht m₂)) = some (.ok v₂))
    (hp : Progress m₁ (segments plt userRsp userRbp) v₁ q b₁) :
    v₁.heap.Alike {q} v₂.heap ∧ (q = p ∨ g.heap.next ≤ (q : Nat)) := by
  have hcut := cut_segments userRsp hw hb
  have hap := (segments_inner userRsp hw hb).apart
  have hold := Nat.lt_add_right 2 (hf.lt hs.live)
  have start : ∀ m, Progress m [] (g.scanFrom ht m) p b :=
    fun m => Progress.start (v := g.scanFrom ht m) hs.ptr hs.live hcur hcap hold
  have hall₁ := scan_unique (scan_of_cut (l := .start userRsp (g.scanFrom ht m₁)) hcut) hscan₁
  have hall₂ := scan_unique (scan_of_cut (l := .start userRsp (g.scanFrom ht m₂)) hcut) hscan₂
  have htwin : v₁.Twin v₂ := Saved.Twin.saveAll halloc (v := g.scanFrom ht m₁) (w := g.scanFrom ht m₂) ⟨rfl, rfl⟩
    (start m₁) (start m₂) hap hall₁ hall₂
  refine ⟨htwin.alike (v := g.scanFrom ht m₁) (w := g.scanFrom ht m₂) halloc rfl (start m₁) (start m₂) hap hall₁
    hall₂ hp, ?_⟩
  exact ((start m₁).saveAll_others halloc hap hall₁ hp.ptr).1.imp_right fun hle => (Nat.le_add_right _ 2).trans hle

/-- The encrypt from the other memory returns too, and the array with the saved bytes is all that differs. -/
theorem Buffers.Ready.alike (h : Buffers.Ready env regs g₀ g name p b) (hg : Buffers opens g) (hi : g.init = true)
    (halloc : env.AllocOk) (hle : regs.userRsp ≤ regs.userRbp) (hw : NoWrap plt) (hb : regs.userRbp.toNat + 1 < 2 ^ 64)
    (hsep : SeparateCopies env regs plt { g₀ with mem := m₁ })
    (hframe : ∀ x, ¬(regs.userRsp ≤ x ∧ x < regs.userRbp) → m₁ x = m₂ x) (hvalue : ∀ x, ByValue plt x → m₁ x = m₂ x)
    (hcall : jsysEncryptStack env fuel regs plt { g₀ with mem := m₁ } = some (.ok e₁))
    (hwritten : ∀ r ∈ e₁.written, r.start.toNat + r.len.toNat < 2 ^ 64 ∧ ∀ x ∈ r, m₁ x = m₂ x) :
    ∃ fuel e₂ q, jsysEncryptStack env fuel regs plt { g₀ with mem := m₂ } = some (.ok e₂) ∧ e₁.Alike {q} e₂ ∧
      e₁.state.init = true ∧ e₁.state.sbufStackTop = g.sbufStackTop + 1 ∧
      e₁.state.Clear {q} (g.sbufStackTop + 1) := by
  have hcap := h.cap
  have hinner := segments_inner regs.userRsp hw hb
  obtain ⟨fuel₀, v₁, v₂, q, b₁, b₂, hscan₁, hscan₂, hp₁, hp₂, hbare⟩ :=
    frame_scans regs.userRsp halloc hw hb h.fresh h.top h.slot h.cur (by omega) m₁ m₂
  obtain ⟨hheap, hplace⟩ := scans_alike halloc hw hb h.fresh h.top h.slot h.cur (by omega) hscan₁ hscan₂ hp₁
  rw [h.call] at hcall
  have hout := (encryptFrame_outcome halloc h.depth h.top hscan₁ hp₁.ptr hp₁.live hcall).symm
  have hlogged : e₁.written = (callTrail q b₁ plt).log := by
    rw [← writtenBack_outcome, hout]
    rfl
  rw [hlogged] at hwritten
  have hmem : v₁.mem = v₂.mem := by rw [hp₁.mem_eq, hp₂.mem_eq, cleared_eq hw hb hle hframe hvalue]
  have hseparate := hsep g fuel₀ v₁ q b₁ h.top h.set hscan₁ hp₁.ptr hp₁.live
  have hview := outcome_sameView (⟨regs.userRsp, regs.userRbp, name⟩ :: g.callStack) g hbare hmem fun r hr =>
    sameBytesAt hp₁ hp₂ hinner (Sbuf.twins hbare) hseparate (hwritten r hr).1 (hwritten r hr).2
  obtain ⟨e₂, hout₂, halike, hinit, hslots, htop⟩ := outcome_alike hheap hview hout
  refine ⟨fuel₀, e₂, q, (h.call fuel₀ plt m₂).trans ?_, halike, hinit.trans hi, htop, fun i hti q' hq' => ?_⟩
  · rw [encryptFrame_tell name halloc h.depth h.top hscan₂ hp₂.ptr hp₂.live, hout₂]
  · rintro rfl
    rw [hslots] at hq'
    obtain ⟨p', b', hs⟩ := hg.live hi i
    obtain rfl : p' = q' := Option.some.inj (hs.ptr.symm.trans hq')
    have hold := hg.fresh.lt hs.live
    rcases hplace with rfl | hnew
    · have hsame := hg.inj i _ p' hs.ptr h.slot.ptr
      have hval : i.val = g.sbufStackTop := congrArg Fin.val hsame
      omega
    · exact Nat.not_lt_of_le hnew hold

end Encrypts

/-! ### Runs of what is called -/

/-- A decrypt leaves the first `k` elements of `sbuf_stack` alone. -/
def Above {π : Type} (k : Nat) (L : Logged π) (l : π × Op) : Prop := ∀ regs, l.2 = .decrypt regs → k < L.sbufStackTop

/-- Two systems that differ in the arrays of `D` only, which only the first `k` elements of `sbuf_stack` may name. -/
structure Hidden {π : Type} (D : Set SbufPtr) (k : Nat) (L M : Logged π) : Prop where
  alike : L.toGlobals.Alike D M.toGlobals
  mems : L.mems = M.mems
  init : L.init = true
  clear : L.Clear D k
  above : k ≤ L.sbufStackTop

/-- What can be seen of the runs from a system: the memories before each operation, the operation, and the memories at
    the end. The log is of no account. -/
def Sights {π : Type} [DecidableEq π] (env : Env) (k : Nat) (S : System π) :
    Set (List ((π → Mem) × (π × Op)) × (π → Mem)) :=
  {o | ∃ opens tr M, Run (LoggedStep env) ⟨S, opens⟩ tr M ∧ Meets (Above k) tr ∧
    o = (tr.map fun e => (e.1.mems, e.2), M.mems)}

section Runs
variable {π : Type} {env : Env} {D : Set SbufPtr} {k : Nat} {L M L' : Logged π} {S T : System π} {l : π × Op}

theorem Globals.Clear.mono {g : Globals} {j : Nat} (h : g.Clear D k) (hj : k ≤ j) : g.Clear D j :=
  fun i hi => h i (hj.trans hi)

namespace Hidden

theorem symm (h : Hidden D k L M) : Hidden D k M L where
  alike := h.alike.symm
  mems := h.mems.symm
  init := h.alike.init ▸ h.init
  clear i hi := h.alike.sbufStack ▸ h.clear i hi
  above := h.alike.sbufStackTop ▸ h.above

theorem view (h : Hidden D k L M) (p : π) : (L.view p).Alike D (M.view p) := ⟨h.alike, congrFun h.mems p⟩

variable [DecidableEq π]

/-- The system after a call that leaves alike states. -/
theorem put (h : Hidden D k L M) {p : π} {s t : State} {o o' : List (π × Opened)} (hst : s.Alike D t)
    (hi : s.init = true) (hslots : s.sbufStack = L.sbufStack) (htop : k ≤ s.sbufStackTop) :
    Hidden D k { L.put p s with opens := o } { M.put p t with opens := o' } where
  alike := hst.toAlike
  mems := by
    funext q
    show (if q = p then s.mem else L.mems q) = if q = p then t.mem else M.mems q
    rw [hst.mem, h.mems]
  init := hi
  clear i hle := by
    show Outside D (s.sbufStack i)
    rw [hslots]
    exact h.clear i hle
  above := htop

/-- An encrypt of a module that is set up leaves the pointers in `sbuf_stack` as they are, and does not lower its
    top. -/
theorem encrypt_keeps {fuel : Nat} {regs : Regs} {plt : List Para} {s : State} {e : Encrypted} (hi : s.init = true)
    (he : jsysEncryptStack env fuel regs plt s = some (.ok e)) :
    e.state.init = true ∧ e.state.sbufStack = s.sbufStack ∧ s.sbufStackTop ≤ e.state.sbufStackTop := by
  unfold jsysEncryptStack at he
  rw [setup_done hi] at he
  dsimp only at he
  split at he
  · cases he
  · split at he
    · cases he
      exact ⟨hi, rfl, Nat.le_refl _⟩
    · split at he
      · cases he
        exact ⟨hi, rfl, Nat.le_refl _⟩
      · obtain ⟨-, -, -, c, -, -, -, -, -, hst⟩ := encryptFrame_inv he
        rw [hst]
        exact ⟨hi, rfl, Nat.le_succ _⟩

/-- One operation, whatever it is, is taken by both. -/
theorem step (h : Hidden D k L M) (ha : Above k L l) (hs : LoggedStep env L l L') :
    ∃ M', LoggedStep env M l M' ∧ Hidden D k L' M' := by
  obtain ⟨p, op⟩ := l
  obtain ⟨t, ht, rfl⟩ := hs
  have habove := h.above
  cases op with
  | encrypt regs plt =>
    obtain ⟨fuel, e, he, rfl⟩ := ht
    obtain ⟨r, hr, hboth⟩ := of_some ((h.view p).encrypt h.init (h.clear.mono h.above)) he
    obtain ⟨e', rfl, hee⟩ := hboth.of_ok rfl
    obtain ⟨hi, hslots, htop⟩ := encrypt_keeps (s := L.view p) h.init he
    exact ⟨_, ⟨e'.state, ⟨fuel, e', hr, rfl⟩, rfl⟩, h.put hee.state hi hslots (h.above.trans htop)⟩
  | decrypt regs =>
    obtain ⟨ret, he⟩ := ht
    have hlt : k < L.sbufStackTop := ha regs rfl
    obtain ⟨x, hx, -, hxt⟩ := ((h.view p).decrypt (h.clear.mono (Nat.le_sub_one_of_lt hlt))).of_ok he
    refine ⟨_, ⟨x.2, ⟨x.1, hx⟩, rfl⟩, h.put hxt ?_ ?_ ?_⟩
    all_goals rcases decrypt_cases he with ⟨-, -, rfl⟩ | ⟨_, _, _, _, heap, mem, -, -, -, -, hpos, -, -, rfl⟩
    · exact h.init
    · exact h.init
    · rfl
    · rfl
    · exact h.above
    · exact Nat.le_sub_one_of_lt hlt
  | write addr byte =>
    cases ht
    refine ⟨_, ⟨_, rfl, rfl⟩, h.put ⟨h.alike, ?_⟩ h.init rfl h.above⟩
    funext x
    show (if x = addr then byte else L.mems p x) = if x = addr then byte else M.mems p x
    rw [h.mems]

/-- Whatever is seen of the one is seen of the other. -/
theorem sights_subset (h : ∀ o o', Hidden D k ⟨S, o⟩ ⟨T, o'⟩) : Sights env k S ⊆ Sights env k T := by
  rintro _ ⟨opens, tr, N, hr, hP, rfl⟩
  have hstep : ∀ (L : Logged π) l L' M, Hidden D k L M → Above k L l → LoggedStep env L l L' →
      Above k M l ∧ ∃ M', LoggedStep env M l M' ∧ Hidden D k L' M' :=
    fun L l L' M hLM ha hs => ⟨fun regs hop => hLM.alike.sbufStackTop ▸ ha regs hop, hLM.step ha hs⟩
  obtain ⟨tr', N', hr', hP', hsame, hend⟩ := hr.lockstep (fun L => L.mems) (fun L => L.mems) (h opens opens)
    (fun _ _ hLM => hLM.mems.symm) hstep hP
  exact ⟨opens, tr', N', hr', hP', Prod.ext hsame.symm hend.mems⟩

end Hidden

variable [DecidableEq π]

/-- Non-interference. After any run, let a process encrypt a frame, from its memory or from one that agrees with it
    outside the frame, on the by-value entries and on what the encrypt writes back. The two calls end alike, and until
    that frame is decrypted the runs from the one are the runs from the other, memory by memory. -/
theorem callee_sights {mems : π → Mem} {tr : List (Logged π × (π × Op))} {fuel : Nat} {regs : Regs} {plt : List Para}
    {m₁ m₂ : Mem} {e₁ : Encrypted} (p : π) (halloc : env.AllocOk) (hr : Run (LoggedStep env) (.start mems) tr L)
    (hc : Meets (Bounded env) tr) (hacc : Accepts env regs) (hroom : L.opens.length < 16) (hw : NoWrap plt)
    (hb : regs.userRbp.toNat + 1 < 2 ^ 64) (hsep : SeparateCopies env regs plt { L.toGlobals with mem := m₁ })
    (hframe : ∀ x, ¬(regs.userRsp ≤ x ∧ x < regs.userRbp) → m₁ x = m₂ x) (hvalue : ∀ x, ByValue plt x → m₁ x = m₂ x)
    (hcall : jsysEncryptStack env fuel regs plt { L.toGlobals with mem := m₁ } = some (.ok e₁))
    (hwritten : ∀ r ∈ e₁.written, r.start.toNat + r.len.toNat < 2 ^ 64 ∧ ∀ x ∈ r, m₁ x = m₂ x) :
    ∃ fuel e₂, jsysEncryptStack env fuel regs plt { L.toGlobals with mem := m₂ } = some (.ok e₂) ∧
      SameView (.ok e₁) (.ok e₂) ∧
      Sights env (L.sbufStackTop + 1) (L.put p e₁.state) = Sights env (L.sbufStackTop + 1) (L.put p e₂.state) := by
  have h := Book.of_run halloc hr hc
  have htop : L.sbufStackTop < 16 := h.length ▸ hroom
  have hcs : L.callStackTop < 64 := Nat.lt_of_lt_of_le (h.depth ▸ htop) (by decide)
  obtain ⟨g, name, q, b, hready⟩ := h.buffers.ready h.fits h.mapped halloc hacc hcs htop
  obtain ⟨hi, -, hsame, -, -⟩ := setup_inv hready.set
  obtain ⟨fuel₂, e₂, r, hcall₂, he, hinit, htop', hclear⟩ :=
    hready.alike (h.buffers.setup halloc h.fits.unset hready.set) hi
      halloc hacc.2 hw hb hsep hframe hvalue hcall hwritten
  rw [hsame] at htop' hclear
  have hhidden : ∀ o o', Hidden {r} (L.sbufStackTop + 1) ⟨L.put p e₁.state, o⟩ ⟨L.put p e₂.state, o'⟩ := fun o o' =>
    { alike := he.state.toAlike
      mems := by
        funext q
        show (if q = p then e₁.state.mem else L.mems q) = if q = p then e₂.state.mem else L.mems q
        rw [he.state.mem]
      init := hinit
      clear := hclear
      above := Nat.le_of_eq htop'.symm }
  refine ⟨fuel₂, e₂, hcall₂, ⟨he.ret, he.restored, he.paraList, he.written, he.state.mem⟩, ?_⟩
  exact Set.Subset.antisymm (Hidden.sights_subset hhidden) (Hidden.sights_subset fun o o' => (hhidden o' o).symm)

end Runs

theorem callee_sights_sample : ∃ fuel e₁ e₂,
    jsysEncryptStack Env.sample 40 (.frame 0x1010 0x4000 0x4020) pointed { loaded with mem := pointedMem } =
    some (.ok e₁) ∧
    jsysEncryptStack Env.sample fuel (.frame 0x1010 0x4000 0x4020) pointed { loaded with mem := pointedMem' } =
      some (.ok e₂) ∧
    SameView (.ok e₁) (.ok e₂) ∧ Sights Env.sample 1 ((Logged.start fun _ : Unit => pointedMem).put () e₁.state) =
      Sights Env.sample 1 ((Logged.start fun _ : Unit => pointedMem).put () e₂.state) := by
  have hexec : ∃ e₁, jsysEncryptStack Env.sample 40 (.frame 0x1010 0x4000 0x4020) pointed
      { loaded with mem := pointedMem } = some (.ok e₁) ∧ e₁.written = [⟨0x4008, 8⟩, ⟨0x4010, 4⟩] := ⟨_, rfl, rfl⟩
  obtain ⟨e₁, hcall, hwritten⟩ := hexec
  have hother : ∀ x : Addr, x ≠ 0x4018 → pointedMem x = pointedMem' x := fun x hx => (if_neg hx).symm
  obtain ⟨fuel, e₂, hcall₂, hview, hsights⟩ := callee_sights () Env.sample_allocOk
    (Run.nil : Run (LoggedStep Env.sample) (.start fun _ : Unit => pointedMem) [] _) meets_nil
    (show Accepts Env.sample (.frame 0x1010 0x4000 0x4020) by decide)
    (Nat.zero_lt_succ 15) pointed_noWrap (by decide) pointed_separate
    (fun x hx => hother x (by rintro rfl; exact hx (by decide)))
    (fun x hx => hother x (by
      rintro rfl
      obtain ⟨p, hp, hp0, hxp⟩ := hx
      simp only [pointed, List.mem_cons, List.not_mem_nil, or_false] at hp
      rcases hp with rfl | rfl
      · exact absurd hxp (by decide)
      · exact absurd hp0 (by decide)))
    hcall (by
      rw [hwritten]
      intro r hr
      simp only [List.mem_cons, List.not_mem_nil, or_false] at hr
      rcases hr with rfl | rfl
      · exact ⟨by decide, fun x hx => hother x (by rintro rfl; exact absurd hx (by decide))⟩
      · exact ⟨by decide, fun x hx => hother x (by rintro rfl; exact absurd hx (by decide))⟩)
  exact ⟨fuel, e₁, e₂, hcall, hcall₂, hview, hsights⟩

end StackVault
