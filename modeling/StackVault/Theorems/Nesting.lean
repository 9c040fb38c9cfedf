import StackVault.Theorems.Sights
import StackVault.Theorems.Vault
import StackVault.Theorems.WriteThrough

/-! Nested calls with pointer parameters. An open encrypt can be undone in whatever memory: the bytes that it took from
    its frame come back and no other byte is touched. Calls above it keep to other arrays. So a function that encrypts,
    calls others that encrypt and decrypt as they like, and decrypts in the end has its frame back, its parameters as
    the callees left them. -/

namespace StackVault
open Memory Transition

/-! ### What one encrypt leaves -/

section Encrypt
variable {env : Env} {fuel : Nat} {regs : Regs} {plt : List Para} {m : Mem} {g₀ g : Globals} {name : String} {p : Nat}
  {b : Sbuf} {e : Encrypted}

/-- A call with few segments changes no array but the one it saves to, and no pointer to an array. -/
theorem Buffers.Ready.others (h : Buffers.Ready env regs g₀ g name p b) (halloc : env.AllocOk) (hw : NoWrap plt)
    (hb : regs.userRbp.toNat + 1 < 2 ^ 64) (hlen : (segments plt regs.userRsp regs.userRbp).length ≤ 32)
    (he : jsysEncryptStack env fuel regs plt { g₀ with mem := m } = some (.ok e)) :
    (∀ q, q ≠ p → e.state.heap.sbufs q = g.heap.sbufs q) ∧ e.state.sbufStack = g.sbufStack ∧
      e.state.sbufStackTop = g.sbufStackTop + 1 := by
  have hcap := h.cap
  rw [h.call] at he
  obtain ⟨v, p', b', ret, c, hprog, hcase, hrp, hst⟩ :=
    frame_saved halloc hw hb h.fresh h.top h.slot h.cur (by omega) he
  obtain ⟨hst', rfl⟩ : Steady env (g.scanFrom h.top m).heap b.cap p v b' ∧ p' = p := by
    rcases hcase with hst' | hmv
    · exact hst'
    · have h1 := hmv.above
      have h2 := hprog.cur_eq
      omega
  have hholed : Holed p' v.heap c.heap := holed_write.pointers hrp
  rw [hst]
  exact ⟨fun q hq => (hholed.others q hq).trans (hst'.others q hq), rfl, rfl⟩

end Encrypt

/-! ### What can be undone -/

/-- The bytes that an encrypt of the frame takes: those of its segments that its parameters do not expose. -/
def Takes (m : Mem) (regs : Regs) (plt : List Para) (x : Addr) : Prop :=
  Covers (segments plt regs.userRsp regs.userRbp) x ∧ ¬Covers (exposed m plt) x

instance (m : Mem) (regs : Regs) (plt : List Para) : DecidablePred (Takes m regs plt) :=
  fun _ => inferInstanceAs (Decidable (_ ∧ _))

/-- Restoring the array `b` at `p` gives back what the encrypt took, in whatever memory and beside whatever arrays. -/
def Opened.Undoable (env : Env) (o : Opened) (p : Nat) (b : Sbuf) : Prop :=
  ∀ (heap : Heap) (mem : Mem), heap.sbufs p = some b → ∃ heap', restoreStackBuf env heap mem (some p) =
    .ok (heap', fun x => if Takes o.before o.regs o.paraList x then o.before x else mem x)

section Undoable
variable {env : Env} {o : Opened} {m : Mem} {regs : Regs} {plt : List Para} {n p : Nat} {b : Sbuf} {s : State}
  {x : Addr}

theorem takes_byValue (hv : AllByValue plt) :
    Takes m regs plt x ↔ Covers (segments plt regs.userRsp regs.userRbp) x := by
  rw [Takes, exposed_byValue hv]
  exact and_iff_left covers_nil

theorem Opened.KeptIn.undoable (h : o.KeptIn p b) (hv : AllByValue o.paraList) (hsort : env.SortOk) :
    o.Undoable env p b := by
  intro heap mem hb
  obtain ⟨heap', hres⟩ := h.restores mem hv hsort hb
  refine ⟨heap', hres.trans (congrArg (fun f : Mem => Except.ok (heap', f)) (funext fun x => ?_))⟩
  exact if_congr (takes_byValue hv).symm rfl rfl

/-- In a mixed call the bytes of the frame that no parameter has are those that the encrypt takes. -/
theorem Mixed.takes_iff (h : Mixed m regs.userRsp regs.userRbp plt) (hb : regs.userRbp.toNat + 1 < 2 ^ 64)
    (hle : regs.userRsp ≤ regs.userRbp) : Takes m regs plt x ↔
      (regs.userRsp ≤ x ∧ x < regs.userRbp) ∧ ¬Covers (valueSpans plt ++ exposed m plt) x := by
  have hinner := segments_inner regs.userRsp h.noWrap hb
  have hcover : Covers (segments plt regs.userRsp regs.userRbp) x ↔
      (regs.userRsp ≤ x ∧ x < regs.userRbp) ∧ ¬Covers (valueSpans plt) x := by
    rw [covers_valueSpans]
    refine ⟨fun hx => ⟨hinner.bounds hx, fun hv => ?_⟩, fun hx =>
      (segments_cover h.noWrap hb hle hx.1.1 hx.1.2).resolve_right hx.2⟩
    refine segments_avoid h.noWrap hb h.distinct (fun q hq h0 => ?_) hv hx
    exact BitVec.le_def.mpr (h.inside q.span (List.mem_append_left _ (span_mem_valueSpans hq h0))).1
  rw [Takes, hcover, covers_append, not_or]
  exact and_assoc

theorem Punched.undoable (h : Punched env m regs.userRsp regs.userRbp plt n p b s)
    (hmix : Mixed m regs.userRsp regs.userRbp plt) (hb : regs.userRbp.toNat + 1 < 2 ^ 64)
    (hle : regs.userRsp ≤ regs.userRbp) (hsort : env.SortOk)
    (hfirst : InFirst (segments plt regs.userRsp regs.userRbp) (exposed m plt))
    (hord : Sorts env (env.kmalloc n) (segments plt regs.userRsp regs.userRbp) (exposed m plt)) {slot : Nat} :
    Opened.Undoable env { regs, paraList := plt, before := m, slot } p
    (b.withHoles ((exposed m plt).map (holeOf b.segs))) := by
  intro heap mem hlive
  have h' : Punched env m regs.userRsp regs.userRbp plt n p b { s with heap } :=
    ⟨h.saved, h.few, h.spans, h.item, hlive, h.top, h.slot, h.record, h.mapped, h.init⟩
  obtain ⟨heap', hres⟩ := h'.restores hmix hb hle hsort ((h'.inOrder_iff hmix hsort).mpr ⟨hfirst, hord⟩) mem
  refine ⟨heap', hres.trans (congrArg (fun f : Mem => Except.ok (heap', f)) (funext fun x => ?_))⟩
  exact if_congr (hmix.takes_iff hb hle).symm rfl rfl

theorem Opened.Undoable.decrypt {c : CsItem} {rest : List CsItem} (h : o.Undoable env p b) (hm : s.Mapped env)
    (hinit : s.init = true) (hname : (nameOf env regs).isSome) (hcs : s.callStack = c :: rest)
    (hlt : s.sbufStackTop - 1 < 16) (htop : 0 < s.sbufStackTop ∧ s.sbufStackTop ≤ 16)
    (hs : s.Slot ⟨s.sbufStackTop - 1, hlt⟩ p b) :
    ∃ heap', jsysDecryptStack env regs s = .ok (0, { s with
      heap := heap', callStack := rest, sbufStackTop := s.sbufStackTop - 1,
      mem := fun x => if Takes o.before o.regs o.paraList x then o.before x else s.mem x }) := by
  obtain ⟨heap', hres⟩ := h s.heap s.mem hs.live
  refine ⟨heap', ?_⟩
  rw [decrypt_eq hm hinit hname hcs htop, hs.ptr, hres]
  simp only [Except.map]

end Undoable

/-! ### Runs -/

section Runs
variable {π : Type} {env : Env} {mems : π → Mem} {L M : Logged π} {l : π × Op} {p : π} {regs : Regs} {plt : List Para}
  {k : Nat}

/-- What is asked of a call. An accepted encrypt finds room and does not reach the last address; its parameters are by
    value with few segments, or mixed with all cells and targets in the first segment and sorted. A decrypt comes from a
    known function, after the first call. -/
def NestedCall (env : Env) (L : Logged π) (l : π × Op) : Prop :=
  match l.2 with
  | .encrypt regs plt => Accepts env regs → L.opens.length < 16 ∧ regs.userRbp.toNat + 1 < 2 ^ 64 ∧
      ((AllByValue plt ∧ NoWrap plt ∧ (segments plt regs.userRsp regs.userRbp).length ≤ 32) ∨
        (Mixed (L.mems l.1) regs.userRsp regs.userRbp plt ∧
          SeparateCopies env regs plt { L.toGlobals with mem := L.mems l.1 } ∧
          InFirst (segments plt regs.userRsp regs.userRbp) (exposed (L.mems l.1) plt) ∧
          Sorts env (env.kmalloc L.firstCopy) (segments plt regs.userRsp regs.userRbp) (exposed (L.mems l.1) plt)))
  | .decrypt regs => L.init = true ∧ (nameOf env regs).isSome
  | .write _ _ => True

theorem NestedCall.bounded (h : NestedCall env L l) : Bounded env L l := by
  obtain ⟨p, op⟩ := l
  rintro regs plt rfl hacc
  obtain ⟨-, hb, ⟨-, hw, hlen⟩ | ⟨hmix, -⟩⟩ := h hacc
  · exact ⟨hw, hb, hlen⟩
  · exact ⟨hmix.noWrap, hb, hmix.few⟩

/-- The book is kept, and each open encrypt can be undone from its element of `sbuf_stack`. -/
structure Undoing (env : Env) (L : Logged π) : Prop extends Book env L where
  undoable : ∀ x ∈ L.opens, ∀ i p b, L.Slot i p b → i.val = x.2.slot → x.2.Undoable env p b

namespace Undoing

theorem start : Undoing env (.start mems) where
  toBook := Book.start
  undoable _ hx := by cases hx

/-- The newest encrypt can be undone, in whatever memory. -/
theorem undo (h : Undoing env L) (hinit : L.init = true) (hname : (nameOf env regs).isSome) {x : π × Opened}
    {xs : List (π × Opened)} (hopen : L.opens = x :: xs) (mem : Mem) :
    ∃ heap' c rest, L.callStack = c :: rest ∧ jsysDecryptStack env regs { L.toGlobals with mem } =
      .ok (0, { L.toGlobals with
        heap := heap', callStack := rest, sbufStackTop := L.sbufStackTop - 1,
        mem := fun a => if Takes x.2.before x.2.regs x.2.paraList a then x.2.before a else mem a }) := by
  have hrec := h.records
  rw [hopen] at hrec
  obtain ⟨c, rest, -, -, hcs⟩ := List.forall₂_cons_left_iff.mp hrec
  obtain ⟨y, ys, hopen', -, hslot, -⟩ := h.newest hcs
  rw [hopen] at hopen'
  cases hopen'
  have hpos : 0 < L.sbufStackTop := hslot ▸ Nat.succ_pos _
  have hlt : L.sbufStackTop - 1 < 16 := by
    have := h.limit
    omega
  obtain ⟨p, b, hs⟩ := h.buffers.live hinit ⟨L.sbufStackTop - 1, hlt⟩
  have hundo := h.undoable x (hopen ▸ List.mem_cons_self) _ p b hs (by show L.sbufStackTop - 1 = x.2.slot; omega)
  obtain ⟨heap', hdec⟩ := hundo.decrypt (s := { L.toGlobals with mem }) h.mapped hinit hname hcs hlt ⟨hpos, h.limit⟩ hs
  exact ⟨heap', c, rest, hcs, hdec⟩

/-- An accepted encrypt clears what it takes, and can be undone. The arrays of the others stay. -/
theorem encrypt (h : Undoing env L) (halloc : env.AllocOk) (hsort : env.SortOk) (hacc : Accepts env regs)
    (hc : NestedCall env L (p, .encrypt regs plt)) :
    (∃ fuel e, jsysEncryptStack env fuel regs plt (L.view p) = some (.ok e)) ∧
      ∀ fuel e, jsysEncryptStack env fuel regs plt (L.view p) = some (.ok e) →
        (∀ x, e.state.mem x = if Takes (L.mems p) regs plt x then 0x30 else L.mems p x) ∧
        (∀ i q b, e.state.Slot i q b → i.val = L.sbufStackTop →
          Opened.Undoable env { regs, paraList := plt, before := L.mems p, slot := L.sbufStackTop } q b) ∧
        ∀ i q b, L.init = true → i.val ≠ L.sbufStackTop → e.state.Slot i q b → L.Slot i q b := by
  obtain ⟨hroom, hb, hkind⟩ := hc hacc
  have hbound := hc.bounded regs plt rfl hacc
  have htop : L.sbufStackTop < 16 := h.length ▸ hroom
  have hcs : L.callStackTop < 64 := Nat.lt_of_lt_of_le (h.depth ▸ htop) (by decide)
  obtain ⟨g, name, q, b, hready⟩ := h.buffers.ready h.fits h.mapped halloc hacc hcs htop
  obtain ⟨hi, -, htopg, hsame, -⟩ := setup_inv hready.set
  have hbuf := h.buffers.setup halloc h.fits.unset hready.set
  -- Any other element of `sbuf_stack` names an array that the call has not touched.
  have hothers : ∀ fuel e, jsysEncryptStack env fuel regs plt (L.view p) = some (.ok e) → ∀ i r b', L.init = true →
      i.val ≠ L.sbufStackTop → e.state.Slot i r b' → L.Slot i r b' := by
    intro fuel e he i r b' hinit hne hs
    obtain ⟨hheap, hslots, -⟩ := hready.others halloc hbound.1 hb hbound.2.2 he
    have hptr : g.sbufStack i = some r := hslots ▸ hs.ptr
    have hrq : r ≠ q := by
      rintro rfl
      exact hne ((congrArg Fin.val (hbuf.inj i _ r hptr hready.slot.ptr)).trans htopg)
    have hlive : g.heap.sbufs r = some b' := (hheap r hrq) ▸ hs.live
    rw [hsame hinit] at hptr hlive
    exact ⟨hptr, hlive⟩
  rcases hkind with ⟨hv, hw, hlen⟩ | ⟨hmix, hsep, hfirst, hord⟩
  · refine ⟨Buffers.encrypt_returns (s := L.view p) h.buffers h.fits h.mapped halloc hacc hv hw hb hcs htop,
      fun fuel e he => ⟨fun x => ?_, fun i r b' hs hir => ?_, hothers fuel e he⟩⟩
    · rw [(Buffers.encrypt h.buffers h.fits h.mapped halloc hacc hw hb hlen he).2 hv]
      exact if_congr (takes_byValue hv).symm rfl rfl
    · have hpush := (Buffers.encrypt h.buffers h.fits h.mapped halloc hacc hw hb hlen he).1
      exact (hpush.held _ List.mem_cons_self i r b' hs hir).undoable hv hsort
  · rw [← firstCopy_setup halloc h.buffers.fresh hready.set] at hord
    obtain ⟨e, b', hp, hmem, -, ⟨fuel₀, he₀⟩, huniq⟩ := hready.punched halloc h.mapped hmix hb hsep
    refine ⟨⟨fuel₀, e, he₀⟩, fun fuel e' he' => ?_⟩
    obtain rfl : e' = e := Except.ok.inj (huniq fuel _ he')
    refine ⟨hmem, fun i r b'' hs hir => ?_, hothers fuel e' he'⟩
    obtain ⟨-, -, htop'⟩ := hready.others halloc hbound.1 hb hbound.2.2 he'
    have hslot : e'.state.sbufStack i = some q := by
      have hiv : i = ⟨e'.state.sbufStackTop - 1, by omega⟩ := Fin.ext (show i.val = e'.state.sbufStackTop - 1 by omega)
      rw [hiv]
      exact hp.slot _
    obtain rfl : r = q := Option.some.inj (hs.ptr.symm.trans hslot)
    obtain rfl := Option.some.inj (hs.live.symm.trans hp.live)
    exact hp.undoable hmix hb hacc.2 hsort hfirst hord

variable [DecidableEq π]

theorem step (h : Undoing env L) (halloc : env.AllocOk) (hsort : env.SortOk) (hc : NestedCall env L l)
    (hs : LoggedStep env L l M) : Undoing env M := by
  refine ⟨h.toBook.step halloc hc.bounded hs, ?_⟩
  obtain ⟨p, op⟩ := l
  obtain ⟨t, ht, rfl⟩ := hs
  cases op with
  | encrypt regs plt =>
    obtain ⟨fuel, e, he, rfl⟩ := ht
    by_cases hacc : Accepts env regs
    · have hlog : L.log env (p, .encrypt regs plt) =
          (p, { regs, paraList := plt, before := L.mems p, slot := L.sbufStackTop }) :: L.opens := if_pos hacc
      obtain ⟨-, hnew, hold⟩ := (h.encrypt halloc hsort hacc hc).2 fuel e he
      intro x hx i q b hs hi
      have hx' : x ∈ L.log env (p, .encrypt regs plt) := hx
      rw [hlog] at hx'
      rcases List.mem_cons.mp hx' with rfl | hx'
      · exact hnew i q b hs hi
      · have hinit : L.init = true := by
          cases hf : L.init with
          | true => rfl
          | false => rw [List.map_eq_nil_iff.mp (h.fits.unset hf)] at hx'; cases hx'
        exact h.undoable x hx' i q b (hold i q b hinit (hi ▸ Nat.ne_of_lt (h.slot_lt hx')) hs) hi
    · have hlog : L.log env (p, .encrypt regs plt) = L.opens := if_neg hacc
      intro x hx i q b hs hi
      have hx' : x ∈ L.log env (p, .encrypt regs plt) := hx
      rw [hlog] at hx'
      rcases encrypt_stacks h.mapped he with ⟨-, -, -, -, hsame⟩ | ⟨_, -, hacc', -⟩
      · have hinit : L.init = true := by
          cases hf : L.init with
          | true => rfl
          | false => rw [List.map_eq_nil_iff.mp (h.fits.unset hf)] at hx'; cases hx'
        have hs' : e.state.Slot i q b := hs
        rw [hsame hinit] at hs'
        exact h.undoable x hx' i q b hs' hi
      · exact absurd hacc' hacc
  | decrypt regs =>
    obtain ⟨ret, ht⟩ := ht
    rcases decrypt_cases ht with ⟨hcs, -, rfl⟩ | ⟨c, rest, _, _, heap, mem, hlt, hcs, -, -, hpos, -, hres, rfl⟩
    · intro x hx
      have hx' : x ∈ L.opens.tail := hx
      rw [h.none_open hcs] at hx'
      cases hx'
    · obtain ⟨q, b, b', hq, hlive, rfl, -⟩ := restoreStackBuf_inv hres
      obtain ⟨y, ys, hopen, -, hy, hys⟩ := h.newest hcs
      intro x hx i r b'' hs hi
      have hx' : x ∈ L.opens.tail := hx
      rw [hopen] at hx'
      have hlow := hys x hx'
      have hptr : L.sbufStack i = some r := hs.ptr
      have hrq : r ≠ q := by
        rintro rfl
        have hval : i.val = L.sbufStackTop - 1 := congrArg Fin.val (h.buffers.inj i _ r hptr hq)
        omega
      have hheap : (L.heap.set q (some b')).sbufs r = some b'' := hs.live
      rw [Heap.set_sbufs_ne hrq] at hheap
      exact h.undoable x (hopen ▸ List.mem_cons_of_mem _ hx') i r b'' ⟨hptr, hheap⟩ hi
  | write addr byte =>
    cases ht
    exact h.undoable

/-- A decrypt of the newest encrypt gives back what that encrypt took. -/
theorem decrypt_some (h : Undoing env L) (hinit : L.init = true) (hname : (nameOf env regs).isSome) {x : π × Opened}
    {xs : List (π × Opened)} (hopen : L.opens = x :: xs) : (∃ M, LoggedStep env L (p, .decrypt regs) M) ∧
      ∀ M, LoggedStep env L (p, .decrypt regs) M →
        (∀ a, M.mems p a = if Takes x.2.before x.2.regs x.2.paraList a then x.2.before a else L.mems p a) ∧
        (∀ q, q ≠ p → M.mems q = L.mems q) ∧ M.callStack = L.callStack.tail ∧ M.sbufStackTop = L.sbufStackTop - 1 := by
  obtain ⟨heap', c, rest, hcs, hdec⟩ := h.undo hinit hname hopen (L.mems p)
  refine ⟨⟨_, _, ⟨0, hdec⟩, rfl⟩, ?_⟩
  rintro M ⟨t, ⟨ret, ht⟩, rfl⟩
  rw [show jsysDecryptStack env regs (L.view p) = _ from hdec] at ht
  cases ht
  refine ⟨fun a => ?_, fun q hq => if_neg hq, ?_, rfl⟩
  · simp only [System.put, if_true]
  · show rest = L.callStack.tail
    rw [hcs]
    rfl

/-- Calls that pop no further than to the depth of `L` leave its records and its open encrypts below theirs. -/
theorem above {N : Logged π} {tr : List (Logged π × (π × Op))} (h : Undoing env L) (halloc : env.AllocOk)
    (hsort : env.SortOk) (hr : Run (LoggedStep env) L tr N) (hc : Meets (NestedCall env) tr)
    (ha : Meets (Above L.sbufStackTop) tr) :
    Undoing env N ∧ L.opens <:+ N.opens ∧ L.callStack <:+ N.callStack := by
  refine hr.invariant (P := fun M l => NestedCall env M l ∧ Above L.sbufStackTop M l)
    (I := fun M => Undoing env M ∧ L.opens <:+ M.opens ∧ L.callStack <:+ M.callStack)
    ⟨h, List.suffix_rfl, List.suffix_rfl⟩
    ?_ fun e he => ⟨hc e he, ha e he⟩
  rintro M l M' ⟨hM, hopens, hrecords⟩ ⟨hcall, habove⟩ hs
  refine ⟨hM.step halloc hsort hcall hs, ?_⟩
  cases hM.move hs with
  | keep hcs _ hopen =>
    rw [hopen, hcs]
    exact ⟨hopens, hrecords⟩
  | push _ _ _ hcs _ hopen =>
    rw [hopen, hcs]
    exact ⟨hopens.trans (List.suffix_cons _ _), hrecords.trans (List.suffix_cons _ _)⟩
  | pop hcs htop hopen =>
    have hlt : L.sbufStackTop < M.sbufStackTop := habove _ rfl
    rw [hopen] at hopens
    rw [hcs] at hrecords
    constructor
    · rcases List.suffix_cons_iff.mp hopens with heq | hsuf
      · have hlen := hM.length
        rw [hopen, ← heq, h.length] at hlen
        omega
      · exact hsuf
    · rcases List.suffix_cons_iff.mp hrecords with heq | hsuf
      · have hdepth := hM.depth
        rw [hcs, ← heq, h.depth] at hdepth
        omega
      · exact hsuf

end Undoing

end Runs

end StackVault
