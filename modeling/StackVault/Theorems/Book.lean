import StackVault.Theorems.Frame
import StackVault.Theorems.Restoring
import StackVault.Theorems.Stacks

/-! The sixteen save buffers over whole runs. Each element of `sbuf_stack` names a live array of its
    own, made for 32 segments. As long as no encrypt saves more, an array is pushed to where it is: those
    at or above the top are empty, the one of an open encrypt holds what that encrypt saved. -/

namespace StackVault
open Memory Transition

/-- The array holds the segments that the encrypt saved. With parameters by value they have no holes. -/
structure Opened.KeptIn (o : Opened) (p : Nat) (b : Sbuf) : Prop where
  inner : Inner o.regs.userRsp o.regs.userRbp (segments o.paraList o.regs.userRsp o.regs.userRbp)
  spans : b.segs.map StackBuf.span = segments o.paraList o.regs.userRsp o.regs.userRbp
  data : ∀ e ∈ b.segs, e.Saves o.before
  few : b.cur ≤ 32
  holes : AllByValue o.paraList → ∀ i < b.cur, (b.entry i).holeList = { home := (p, i), holes := [] }

structure Buffers (opens : List Opened) (g : Globals) : Prop where
  fresh : g.heap.Fresh
  live : g.init = true → ∀ i, ∃ p b, g.Slot i p b
  cap : ∀ i p b, g.Slot i p b → b.cap = 32
  inj : ∀ i j p, g.sbufStack i = some p → g.sbufStack j = some p → i = j
  idle : ∀ i p b, g.Slot i p b → g.sbufStackTop ≤ i.val → b.cur = 0
  held : ∀ o ∈ opens, ∀ i p b, g.Slot i p b → i.val = o.slot → o.KeptIn p b

/-! ### Setting up -/

section Setup
variable {env : Env} {g g' : Globals}

/-- Each of the first `n` elements gets the array that the next `kmalloc` call makes. -/
theorem initSlots_spec (halloc : env.AllocOk) : ∀ (n : Nat) (h : Heap), h.Fresh →
    (initSlots env n h).2.next = h.next + n ∧ (initSlots env n h).2.Fresh ∧
      ∀ i : Fin 16, (initSlots env n h).1 i = (if i.val < n then some (h.next + i.val) else none) ∧
        (i.val < n → (initSlots env n h).2.sbufs (h.next + i.val) =
          some { cur := 0, cap := 32, entry := fun _ => default })
  | 0, h, hf => ⟨rfl, hf, fun i => ⟨rfl, fun hi => (Nat.not_lt_zero _ hi).elim⟩⟩
  | n + 1, h, hf => by
    obtain ⟨hn, hf', hslot⟩ := initSlots_spec halloc n h hf
    simp only [initSlots, initStackBuf, if_neg (halloc _), Heap.set_next, hn]
    refine ⟨rfl, fun q hq => ?_, fun i => ⟨?_, fun hi => ?_⟩⟩
    · have hq' : h.next + n + 1 ≤ (q : Nat) := hq
      have hne : (q : Nat) ≠ h.next + n := by omega
      rw [Heap.set_sbufs_ne hne]
      exact hf' q (by rw [hn]; exact Nat.le_of_succ_le hq')
    · by_cases hi : i.val = n
      · rw [if_pos hi, if_pos (by omega), hi]
      · rw [if_neg hi, (hslot i).1]
        exact if_congr (by omega) rfl rfl
    · by_cases hi' : i.val = n
      · rw [hi', Heap.set_sbufs_self]
      · have hne : h.next + i.val ≠ h.next + n := by omega
        rw [Heap.set_sbufs_ne hne]
        exact (hslot i).2 (by omega)

theorem setup_eq (halloc : env.AllocOk) (hi : g.init = false) :
    setup env g = .ok { g with heap := (initSlots env 16 { g.heap with next := g.heap.next + 1 }).2,
                               sbufStack := (initSlots env 16 { g.heap with next := g.heap.next + 1 }).1,
                               mapper := some env.exe, init := true } := by
  rw [setup, if_neg (by rw [hi]; exact Bool.false_ne_true), if_neg (halloc _)]

theorem setup_ok (g : Globals) (halloc : env.AllocOk) : ∃ g', setup env g = .ok g' := by
  cases hi : g.init with
  | true => exact ⟨g, setup_done hi⟩
  | false => exact ⟨_, setup_eq halloc hi⟩

theorem Buffers.setup {opens : List Opened} (h : Buffers opens g) (halloc : env.AllocOk)
    (hnil : g.init = false → opens = []) (hs : setup env g = .ok g') : Buffers opens g' := by
  cases hi : g.init with
  | true => rwa [(setup_inv hs).2.2.2.1 hi]
  | false =>
    obtain ⟨-, hfresh, hslot⟩ :=
      initSlots_spec halloc 16 { g.heap with next := g.heap.next + 1 } (h.fresh.later (Nat.le_succ _))
    rw [setup_eq halloc hi] at hs
    generalize initSlots env 16 _ = made at hs hfresh hslot
    cases hs
    have hptr : ∀ i, made.1 i = some (g.heap.next + 1 + i.val) := fun i => by rw [(hslot i).1, if_pos i.isLt]
    have hmade : ∀ i p b, made.1 i = some p → made.2.sbufs p = some b →
        b = { cur := 0, cap := 32, entry := fun _ => default } := by
      intro i p b hp hb
      rw [hptr i] at hp
      rw [← Option.some.inj hp, (hslot i).2 i.isLt] at hb
      exact (Option.some.inj hb).symm
    refine ⟨hfresh, fun _ i => ⟨_, _, hptr i, (hslot i).2 i.isLt⟩, fun i p b hs => ?_, fun i j p h1 h2 => ?_,
      fun i p b hs _ => ?_, fun o ho => ?_⟩
    · rw [hmade i p b hs.ptr hs.live]
    · have hij := ((hptr i).symm.trans h1).trans (h2.symm.trans (hptr j))
      have := Option.some.inj hij
      exact Fin.ext (by omega)
    · rw [hmade i p b hs.ptr hs.live]
    · rw [hnil hi] at ho
      cases ho

end Setup

/-! ### Pushing and popping -/

namespace Buffers
variable {opens : List Opened} {g : Globals} {i : Fin 16} {p : Nat} {b b' : Sbuf} {heap' : Heap}

theorem replaced (cs : List CsItem) (top : Nat) (h : Buffers opens g) (hs : g.Slot i p b)
    (hothers : ∀ q, q ≠ p → heap'.sbufs q = g.heap.sbufs q) (hlive : heap'.sbufs p = some b') (j : Fin 16) (q : Nat)
    (c : Sbuf) :
    Globals.Slot { g with heap := heap', callStack := cs, sbufStackTop := top } j q c ↔
      (j = i ∧ q = p ∧ c = b') ∨ (j ≠ i ∧ g.Slot j q c) := by
  constructor
  · rintro ⟨hptr, hb⟩
    have hptr' : g.sbufStack j = some q := hptr
    have hb' : heap'.sbufs q = some c := hb
    by_cases hj : j = i
    · have hq := hs.ptr
      rw [← hj, hptr'] at hq
      cases hq
      rw [hlive] at hb'
      cases hb'
      exact Or.inl ⟨hj, rfl, rfl⟩
    · have hq : q ≠ p := fun hq => hj (h.inj j i p (hq ▸ hptr') hs.ptr)
      exact Or.inr ⟨hj, hptr', by rw [← hothers q hq]; exact hb'⟩
  · rintro (⟨rfl, rfl, rfl⟩ | ⟨hj, hjs⟩)
    · exact ⟨hs.ptr, hlive⟩
    · have hq : q ≠ p := fun hq => hj (h.inj j i p (hq ▸ hjs.ptr) hs.ptr)
      exact ⟨hjs.ptr, (hothers q hq).trans hjs.live⟩

theorem replaced_live {cs : List CsItem} {top : Nat} (h : Buffers opens g) (hs : g.Slot i p b)
    (hothers : ∀ q, q ≠ p → heap'.sbufs q = g.heap.sbufs q) (hlive : heap'.sbufs p = some b') (hi : g.init = true)
    (j : Fin 16) : ∃ q c, Globals.Slot { g with heap := heap', callStack := cs, sbufStackTop := top } j q c := by
  by_cases hj : j = i
  · exact ⟨p, b', (h.replaced cs top hs hothers hlive j p b').mpr (Or.inl ⟨hj, rfl, rfl⟩)⟩
  · obtain ⟨q, c, hq⟩ := h.live hi j
    exact ⟨q, c, (h.replaced cs top hs hothers hlive j q c).mpr (Or.inr ⟨hj, hq⟩)⟩

theorem push (cs : List CsItem) (h : Buffers opens g) (hslots : ∀ o ∈ opens, o.slot < g.sbufStackTop)
    (hi : i.val = g.sbufStackTop) (hs : g.Slot i p b) (hfresh : heap'.Fresh)
    (hothers : ∀ q, q ≠ p → heap'.sbufs q = g.heap.sbufs q) (hlive : heap'.sbufs p = some b') (hcap : b'.cap = 32)
    {o : Opened} (ho : o.slot = g.sbufStackTop) (hK : o.KeptIn p b') :
    Buffers (o :: opens) { g with heap := heap', callStack := cs, sbufStackTop := g.sbufStackTop + 1 } := by
  have hrep := h.replaced cs (g.sbufStackTop + 1) hs hothers hlive
  refine ⟨hfresh, fun hinit => h.replaced_live hs hothers hlive hinit, fun j q c hj => ?_, h.inj,
    fun j q c hj hle => ?_,
    fun x hx j q c hj hjx => ?_⟩
  · rcases (hrep j q c).mp hj with ⟨-, -, rfl⟩ | ⟨-, hj⟩
    · exact hcap
    · exact h.cap j q c hj
  · have hle' : g.sbufStackTop + 1 ≤ j.val := hle
    rcases (hrep j q c).mp hj with ⟨rfl, -, -⟩ | ⟨-, hj⟩
    · omega
    · exact h.idle j q c hj (by omega)
  · rcases (hrep j q c).mp hj with ⟨rfl, rfl, rfl⟩ | ⟨hne, hj⟩
    · rcases List.mem_cons.mp hx with rfl | hx
      · exact hK
      · have := hslots x hx
        omega
    · rcases List.mem_cons.mp hx with rfl | hx
      · exact (hne (Fin.ext (by omega))).elim
      · exact h.held x hx j q c hj hjx

theorem pop {o : Opened} (cs : List CsItem) (h : Buffers (o :: opens) g) (hslots : ∀ x ∈ opens, x.slot < i.val)
    (hi : i.val + 1 = g.sbufStackTop) (hs : g.Slot i p b) (hfresh : heap'.Fresh)
    (hothers : ∀ q, q ≠ p → heap'.sbufs q = g.heap.sbufs q) (hlive : heap'.sbufs p = some b') (hcap : b'.cap = 32)
    (hcur : b'.cur = 0) :
    Buffers opens { g with heap := heap', callStack := cs, sbufStackTop := g.sbufStackTop - 1 } := by
  have hrep := h.replaced cs (g.sbufStackTop - 1) hs hothers hlive
  refine ⟨hfresh, fun hinit => h.replaced_live hs hothers hlive hinit, fun j q c hj => ?_, h.inj,
    fun j q c hj hle => ?_,
    fun x hx j q c hj hjx => ?_⟩
  · rcases (hrep j q c).mp hj with ⟨-, -, rfl⟩ | ⟨-, hj⟩
    · exact hcap
    · exact h.cap j q c hj
  · have hle' : g.sbufStackTop - 1 ≤ j.val := hle
    rcases (hrep j q c).mp hj with ⟨-, -, rfl⟩ | ⟨hne, hj⟩
    · exact hcur
    · have : j.val ≠ i.val := fun he => hne (Fin.ext he)
      exact h.idle j q c hj (by omega)
  · rcases (hrep j q c).mp hj with ⟨rfl, -, -⟩ | ⟨-, hj⟩
    · have := hslots x hx
      omega
    · exact h.held x (List.mem_cons_of_mem _ hx) j q c hj hjx

/-- What the buffers need of the log. -/
structure Fits (opens : List Opened) (g : Globals) : Prop where
  unset : g.init = false → opens = []
  slots : ∀ o ∈ opens, o.slot < g.sbufStackTop

section Encrypt
variable {env : Env} {fuel : Nat} {regs : Regs} {plt : List Para} {s : State} {e : Encrypted}

/-- An accepted encrypt that returned has run over the next element of `sbuf_stack`, an empty array. -/
theorem encrypt_scanned (h : Buffers opens s.toGlobals) (hl : Fits opens s.toGlobals) (hm : s.Mapped env)
    (halloc : env.AllocOk) (hacc : Accepts env regs) (hw : NoWrap plt) (hb : regs.userRbp.toNat + 1 < 2 ^ 64)
    (he : jsysEncryptStack env fuel regs plt s = some (.ok e)) :
    ∃ (g : Globals) (ht : g.sbufStackTop < 16) (p : Nat) (b : Sbuf) (v : Saved) (p' : Nat) (b' : Sbuf) (ret : Int)
      (c : Chase) (record : CsItem), Buffers opens g ∧ g.sbufStackTop = s.sbufStackTop ∧ g.init = true ∧
      g.mapper = some env.exe ∧ g.Slot ⟨g.sbufStackTop, ht⟩ p b ∧ b.cap = 32 ∧
      Progress s.mem (segments plt regs.userRsp regs.userRbp) v p' b' ∧
      ((Steady env (g.scanFrom ht s.mem).heap 32 p v b' ∧ p' = p) ∨ Moved 32 p v p' b') ∧
      restorePointers env (some p') plt { mem := v.mem, heap := v.heap, written := [] } = .ok (ret, e.paraList, c) ∧
      e.state = { g with callStack := record :: g.callStack, sbufStackTop := g.sbufStackTop + 1,
                         heap := c.heap, mem := c.mem } := by
  obtain ⟨g, hset, hcase⟩ := encrypt_cases hm he
  rcases hcase with ⟨hna, -⟩ | ⟨name, -, -, hframe⟩
  · exact absurd hacc hna
  obtain ⟨hinit, -, htop, -, -⟩ := setup_inv hset
  have hg := h.setup halloc hl.unset hset
  have ht : g.sbufStackTop < 16 := (encryptFrame_inv hframe).1
  obtain ⟨p, b, hs⟩ := hg.live hinit ⟨g.sbufStackTop, ht⟩
  have hcap := hg.cap _ _ _ hs
  have hcur := hg.idle _ _ _ hs (Nat.le_refl _)
  obtain ⟨v, p', b', ret, c, hprog, hcase, hrp, hst⟩ :=
    frame_saved halloc hw hb hg.fresh ht hs hcur (by omega) hframe
  rw [hcap] at hcase
  exact ⟨g, ht, p, b, v, p', b', ret, c, _, hg, htop, hinit, setup_mapper hset hm, hs, hcap, hprog, hcase, hrp, hst⟩

/-- An accepted encrypt with a buffer large enough keeps its segments in the next element. -/
theorem encrypt (h : Buffers opens s.toGlobals) (hl : Fits opens s.toGlobals) (hm : s.Mapped env) (halloc : env.AllocOk)
    (hacc : Accepts env regs) (hw : NoWrap plt) (hb : regs.userRbp.toNat + 1 < 2 ^ 64)
    (hlen : (segments plt regs.userRsp regs.userRbp).length ≤ 32)
    (he : jsysEncryptStack env fuel regs plt s = some (.ok e)) :
    Buffers ({ regs, paraList := plt, before := s.mem, slot := s.sbufStackTop } :: opens) e.state.toGlobals ∧
      (AllByValue plt → e.state.mem = cleared (segments plt regs.userRsp regs.userRbp) s.mem) := by
  obtain ⟨g, ht, p, b, v, p', b', ret, c, record, hg, htop, -, -, hs, hcap, hprog, hcase, hrp, hst⟩ :=
    encrypt_scanned h hl hm halloc hacc hw hb he
  have hsteady : Steady env (g.scanFrom ht s.mem).heap 32 p v b' ∧ p' = p := by
    rcases hcase with hst | hmv
    · exact hst
    · have h1 := hmv.above
      have h2 := hprog.cur_eq
      omega
  obtain ⟨hsteady, rfl⟩ := hsteady
  have hholed : Holed p' v.heap c.heap := holed_write.pointers hrp
  obtain ⟨b'', hlive, hsame⟩ := hholed.here b' hsteady.live
  have hothers : ∀ q, q ≠ p' → c.heap.sbufs q = g.heap.sbufs q := fun q hq =>
    (hholed.others q hq).trans (hsteady.others q hq)
  have hold : p' < g.heap.next := hg.fresh.lt hs.live
  have hnext : g.heap.next ≤ c.heap.next := by
    have h1 : v.heap.next = g.heap.next + 2 + b'.cur := hsteady.next
    have h2 := hholed.next
    omega
  have hfresh : c.heap.Fresh := fun q hq => by
    have hq' : g.heap.next ≤ (q : Nat) := hnext.trans hq
    have hne : (q : Nat) ≠ p' := by omega
    rw [hothers q hne]
    exact hg.fresh q hq'
  have hvalue : AllByValue plt → c = { mem := v.mem, heap := v.heap, written := [] } := fun hv =>
    restorePointers_unchanged hv hrp
  have hkept : Opened.KeptIn { regs, paraList := plt, before := s.mem, slot := g.sbufStackTop } p' b'' := by
    have hfew : b''.cur ≤ 32 := by
      rw [hsame.cur, hprog.cur_eq]
      exact hlen
    refine ⟨segments_inner _ hw hb, hsame.spans.trans hprog.spans, hsame.saves hprog.data, hfew, fun hv i hi => ?_⟩
    have hb'' : b'' = b' := by
      rw [hvalue hv, hsteady.live] at hlive
      exact (Option.some.inj hlive).symm
    rw [hb''] at hi ⊢
    exact (hsteady.item i hi).2
  rw [hst, ← htop]
  refine ⟨?_, fun hv => ?_⟩
  · exact hg.push _ (fun o ho => htop ▸ hl.slots o ho) rfl hs hfresh hothers hlive (hsame.cap.trans hsteady.cap)
      rfl hkept
  · show c.mem = _
    rw [hvalue hv]
    exact hprog.mem_eq

/-- What an accepted call starts its scan from: the empty array `b` at the next element of `sbuf_stack`. -/
structure Ready (env : Env) (regs : Regs) (g₀ g : Globals) (name : String) (p : Nat) (b : Sbuf) : Prop where
  set : StackVault.setup env g₀ = .ok g
  fresh : g.heap.Fresh
  depth : g.callStackTop < 64
  top : g.sbufStackTop < 16
  slot : g.Slot ⟨g.sbufStackTop, top⟩ p b
  cap : b.cap = 32
  cur : b.cur = 0
  call : ∀ fuel plt mem, jsysEncryptStack env fuel regs plt { g₀ with mem } =
    encryptFrame env fuel regs.userRsp regs.userRbp plt name g mem

theorem ready {g₀ : Globals} (h : Buffers opens g₀) (hl : Fits opens g₀) (hm : g₀.Mapped env) (halloc : env.AllocOk)
    (hacc : Accepts env regs) (hcs : g₀.callStackTop < 64) (ht : g₀.sbufStackTop < 16) :
    ∃ g name p b, Ready env regs g₀ g name p b := by
  obtain ⟨g, hset⟩ := setup_ok g₀ halloc
  obtain ⟨hinit, hcs', htop, -, -⟩ := setup_inv hset
  have hg := h.setup halloc hl.unset hset
  have ht' : g.sbufStackTop < 16 := htop ▸ ht
  obtain ⟨p, b, hs⟩ := hg.live hinit ⟨g.sbufStackTop, ht'⟩
  obtain ⟨name, hn⟩ := Option.isSome_iff_exists.mp hacc.1
  refine ⟨g, name, p, b, hset, hg.fresh, ?_, ht', hs, hg.cap _ _ _ hs, hg.idle _ _ _ hs (Nat.le_refl _),
    fun fuel plt mem => encrypt_accepted (s := { g₀ with mem }) hm hset hn hacc⟩
  rwa [Globals.callStackTop, hcs']

theorem encrypt_returns (h : Buffers opens s.toGlobals) (hl : Fits opens s.toGlobals) (hm : s.Mapped env)
    (halloc : env.AllocOk) (hacc : Accepts env regs) (hv : AllByValue plt) (hw : NoWrap plt)
    (hb : regs.userRbp.toNat + 1 < 2 ^ 64) (hcs : s.callStackTop < 64) (ht : s.sbufStackTop < 16) :
    ∃ fuel e, jsysEncryptStack env fuel regs plt s = some (.ok e) := by
  obtain ⟨g, name, p, b, hr⟩ := h.ready hl hm halloc hacc hcs ht
  have hcap := hr.cap
  obtain ⟨fuel, e, he⟩ := frame_returns regs.userRsp name s.mem halloc hv hw hb hr.fresh hr.depth hr.top hr.slot hr.cur
    (by omega)
  exact ⟨fuel, e, (hr.call fuel plt s.mem).trans he⟩

end Encrypt

end Buffers

/-! ### Runs -/

section Book
variable {π : Type} {env : Env} {mems : π → Mem} {L M : Logged π} {l : π × Op}

structure Book (env : Env) (L : Logged π) : Prop extends Stacked env L where
  buffers : Buffers (L.opens.map Prod.snd) L.toGlobals

/-- An accepted encrypt does not wrap round, and fits the buffer it finds. -/
def Bounded (env : Env) (_ : Logged π) (l : π × Op) : Prop :=
  ∀ regs plt, l.2 = .encrypt regs plt → Accepts env regs →
    NoWrap plt ∧ regs.userRbp.toNat + 1 < 2 ^ 64 ∧ (segments plt regs.userRsp regs.userRbp).length ≤ 32

theorem Stacked.slot_lt (h : Stacked env L) {x : π × Opened} (hx : x ∈ L.opens) : x.2.slot < L.sbufStackTop := by
  have hmem : x.2.slot ∈ L.opens.map (fun x => x.2.slot) := List.mem_map_of_mem hx
  rw [h.slots] at hmem
  simpa using hmem

theorem Stacked.fits (h : Stacked env L) : Buffers.Fits (L.opens.map Prod.snd) L.toGlobals where
  unset hf := by
    have hrec := h.records
    rw [h.unset hf] at hrec
    rw [List.forall₂_nil_right_iff.mp hrec]
    rfl
  slots o ho := by
    obtain ⟨x, hx, rfl⟩ := List.mem_map.mp ho
    exact h.slot_lt hx

namespace Book

theorem start : Book env (.start mems) where
  toStacked := Stacked.start
  buffers :=
    { fresh := fun _ _ => rfl
      live := fun h => by cases h
      cap := fun _ _ _ h => by cases h.live
      inj := fun _ _ _ h => by cases h
      idle := fun _ _ _ h => by cases h.live
      held := fun _ ho => by cases ho }

variable [DecidableEq π]

theorem step (h : Book env L) (halloc : env.AllocOk) (hb : Bounded env L l) (hs : LoggedStep env L l M) :
    Book env M := by
  refine ⟨h.toStacked.step hs, ?_⟩
  obtain ⟨p, op⟩ := l
  obtain ⟨t, ht, rfl⟩ := hs
  cases op with
  | encrypt regs plt =>
    obtain ⟨fuel, e, he, rfl⟩ := ht
    by_cases hacc : Accepts env regs
    · obtain ⟨hw, hbp, hlen⟩ := hb regs plt rfl hacc
      have hpush := (Buffers.encrypt h.buffers h.fits h.mapped halloc hacc hw hbp hlen he).1
      have hlog : L.log env (p, .encrypt regs plt) =
          (p, { regs, paraList := plt, before := L.mems p, slot := L.sbufStackTop }) :: L.opens := if_pos hacc
      show Buffers ((L.log env (p, .encrypt regs plt)).map Prod.snd) e.state.toGlobals
      rw [hlog]
      exact hpush
    · have hlog : L.log env (p, .encrypt regs plt) = L.opens := if_neg hacc
      obtain ⟨g, hset, hcase⟩ := encrypt_cases h.mapped he
      rcases hcase with ⟨-, hst, -⟩ | ⟨-, -, hacc', -⟩
      · show Buffers ((L.log env (p, .encrypt regs plt)).map Prod.snd) e.state.toGlobals
        rw [hlog, hst]
        exact h.buffers.setup halloc h.fits.unset hset
      · exact absurd hacc' hacc
  | decrypt regs =>
    obtain ⟨ret, ht⟩ := ht
    rcases decrypt_cases ht with ⟨hcs, -, rfl⟩ | ⟨c, rest, _, _, heap, mem, hlt, hcs, -, -, hpos, -, hres, rfl⟩
    · show Buffers (L.opens.tail.map Prod.snd) L.toGlobals
      rw [show L.opens.tail = L.opens by rw [h.none_open hcs]; rfl]
      exact h.buffers
    · obtain ⟨q, b, b', hq, hlive, rfl, hcur, hcap⟩ := restoreStackBuf_inv hres
      have hslot : L.Slot ⟨L.sbufStackTop - 1, hlt⟩ q b := ⟨hq, hlive⟩
      obtain ⟨x, xs, hopen, -, hx, hxs⟩ := h.newest hcs
      have hbuf := h.buffers
      rw [hopen, List.map_cons] at hbuf
      have hkept := hbuf.held _ List.mem_cons_self _ q b hslot (by dsimp only; omega)
      have hcur₀ : b'.cur = 0 := hcur.trans (Nat.sub_eq_zero_of_le (hkept.few.trans (by decide)))
      show Buffers (L.opens.tail.map Prod.snd) _
      rw [hopen]
      refine hbuf.pop rest (fun o ho => ?_) (Nat.succ_pred_eq_of_pos hpos) hslot ?_ (fun r hr => Heap.set_sbufs_ne hr)
        Heap.set_sbufs_self (hcap.trans (hbuf.cap _ _ _ hslot)) hcur₀
      · obtain ⟨y, hy, rfl⟩ := List.mem_map.mp ho
        have := hxs y hy
        show y.2.slot < L.sbufStackTop - 1
        omega
      · intro r hr
        have hold : q < L.heap.next := hbuf.fresh.lt hlive
        have hr' : L.heap.next ≤ r := hr
        rw [Heap.set_sbufs_ne (Nat.ne_of_gt (Nat.lt_of_lt_of_le hold hr'))]
        exact hbuf.fresh r hr
  | write addr byte =>
    cases ht
    exact h.buffers

theorem of_run {tr : List (Logged π × (π × Op))} (halloc : env.AllocOk)
    (hr : Run (LoggedStep env) (.start mems) tr L) (hb : Meets (Bounded env) tr) : Book env L :=
  hr.invariant start (fun _ _ _ hi hb hs => hi.step halloc hb hs) hb

end Book

/-! ### The bookkeeping invariant -/

/-- The two tops agree, no segment is left above them, and the segments of each element of `sbuf_stack`
    below them lie, in order, inside the frame of its record. `call_stack[i]` counts from the oldest. -/
structure Bookkeeping (g : Globals) : Prop where
  tops : g.callStackTop = g.sbufStackTop
  idle : g.init = true → ∀ i : Fin 16, g.sbufStackTop ≤ i.val →
    ∃ p b, g.sbufStack i = some p ∧ g.heap.sbufs p = some b ∧ b.cur = 0
  inside : ∀ (i : Fin 16) c, g.callStack.reverse[i.val]? = some c → ∃ p b, g.sbufStack i = some p ∧
    g.heap.sbufs p = some b ∧ (∀ e ∈ b.segs, 0 < e.len.toNat) ∧
    b.segs.Pairwise (fun e f => e.start.toNat + e.len.toNat ≤ f.start.toNat) ∧
    b.segs.Pairwise (fun e f => ∀ x, x ∈ e.span → x ∉ f.span) ∧
    ∀ e ∈ b.segs, c.userRsp.toNat ≤ e.start.toNat ∧ e.start.toNat + e.len.toNat ≤ c.userRbp.toNat

theorem Stacked.record_slot (h : Stacked env L) {i : Nat} {c : CsItem} (hc : L.callStack.reverse[i]? = some c) :
    ∃ x ∈ L.opens, x.2.slot = i ∧ Recorded env x c := by
  have hrec := List.forall₂_reverse_iff.mpr h.records
  obtain ⟨hi, rfl⟩ := List.getElem?_eq_some_iff.mp hc
  have hi' : i < L.opens.reverse.length := hrec.length_eq.symm ▸ hi
  refine ⟨L.opens.reverse[i], List.mem_reverse.mp (List.getElem_mem hi'), ?_, hrec.get hi' hi⟩
  have hslots : L.opens.reverse.map (fun x => x.2.slot) = List.range L.sbufStackTop := by
    rw [List.map_reverse, h.slots, List.reverse_reverse]
  have hmap : (L.opens.reverse.map fun x => x.2.slot)[i]? = some L.opens.reverse[i].2.slot := by
    rw [List.getElem?_map, List.getElem?_eq_getElem hi']
    rfl
  rw [hslots, List.getElem?_eq_some_iff] at hmap
  obtain ⟨hlt, hget⟩ := hmap
  rw [← hget, List.getElem_range]

variable [DecidableEq π]

/-- The bookkeeping invariant holds after every run of calls that return. -/
theorem bookkeeping {tr : List (Logged π × (π × Op))} (halloc : env.AllocOk)
    (hr : Run (LoggedStep env) (.start mems) tr L) (hb : Meets (Bounded env) tr) : Bookkeeping L.toGlobals := by
  have h := Book.of_run halloc hr hb
  refine ⟨h.depth, fun hinit i hi => ?_, fun i c hc => ?_⟩
  · obtain ⟨p, b, hs⟩ := h.buffers.live hinit i
    exact ⟨p, b, hs.ptr, hs.live, h.buffers.idle i p b hs hi⟩
  · obtain ⟨x, hx, hslot, hacc, name, -, rfl⟩ := h.record_slot hc
    have hinit : L.init = true := by
      cases hcs : L.callStack with
      | nil =>
        rw [hcs] at hc
        cases hc
      | cons c rest => exact h.init_eq hcs
    obtain ⟨p, b, hs⟩ := h.buffers.live hinit i
    have hkept := h.buffers.held x.2 (List.mem_map_of_mem hx) i p b hs hslot.symm
    have hinner := hkept.inner
    rw [← hkept.spans] at hinner
    exact ⟨p, b, hs.ptr, hs.live, hinner.segs⟩

/-- Two nested frames, the newer one decrypted again. -/
def nestedOps : List (Unit × Op) :=
  [((), .encrypt (.frame 0x1010 0x4000 0x4010) [⟨0x4004, 4, 0⟩]), ((), .encrypt (.frame 0x2010 0x3000 0x3010) []),
    ((), .decrypt (.frame 0x2010 0x3000 0x3010))]

theorem nestedOps_run : ∃ tr L, Run (LoggedStep Env.sample) (.start fun _ : Unit => fun _ => 0x41) tr L ∧
    Meets (Bounded Env.sample) tr ∧ L.callStackTop = 1 := by
  have hexec : ∃ L, exec (Logged.exec Env.sample 20) nestedOps (.start fun _ => fun _ => 0x41) = some L ∧
      L.callStackTop = 1 := ⟨_, rfl, rfl⟩
  obtain ⟨L, hL, htop⟩ := hexec
  obtain ⟨tr, hr, hls⟩ := Logged.run_of_exec hL
  refine ⟨tr, L, hr, meets_of_labels fun l hl s regs plt hop _ => ?_, htop⟩
  rw [hls] at hl
  simp only [nestedOps, List.mem_cons, List.not_mem_nil, or_false] at hl
  rcases hl with rfl | rfl | rfl <;> cases hop
  · refine ⟨fun p hp _ => ?_, by decide, by decide⟩
    rw [List.mem_singleton.mp hp]
    decide
  · exact ⟨fun _ hp => (List.not_mem_nil hp).elim, by decide, by decide⟩

theorem bookkeeping_sample : ∃ tr L, Run (LoggedStep Env.sample) (.start fun _ : Unit => fun _ => 0x41) tr L ∧
    L.callStackTop = 1 ∧ Bookkeeping L.toGlobals := by
  obtain ⟨tr, L, hr, hb, htop⟩ := nestedOps_run
  exact ⟨tr, L, hr, htop, bookkeeping Env.sample_allocOk hr hb⟩

end Book

end StackVault
