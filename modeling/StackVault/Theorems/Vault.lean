import StackVault.Lib.Undo
import StackVault.Theorems.Book

/-! By-value calls as a vault. An accepted encrypt clears the segments of its frame and keeps memory as it
    was; a decrypt gives the newest of these regions back. The module refines the vault of
    `StackVault.Lib.Undo`, over every run whose encrypts fit the buffers, and there each call returns. -/

namespace StackVault
open Memory Transition Undo

/-! ### One decrypt -/

section Decrypt
variable {env : Env} {heap : Heap} {o : Opened} {p : Nat} {b : Sbuf}

/-- What an open encrypt cleared. -/
def Opened.region (o : Opened) : List Span := segments o.paraList o.regs.userRsp o.regs.userRbp

/-- An array without holes gives the bytes that it has saved back, in whatever memory it finds. -/
theorem Sbuf.restores {lo hi : Addr} {m : Mem} (mem : Mem) (hinner : Inner lo hi (b.segs.map StackBuf.span))
    (hdata : ∀ e ∈ b.segs, e.Saves m) (hfew : b.cur ≤ 2 ^ 31)
    (hholes : ∀ i < b.cur, (b.entry i).holeList = { home := (p, i), holes := [] }) (hsort : env.SortOk)
    (hb : heap.sbufs p = some b) : ∃ heap', restoreStackBuf env heap mem (some p) =
      .ok (heap', fun x => if Covers (b.segs.map StackBuf.span) x then m x else mem x) := by
  obtain ⟨b', hres, -, -⟩ := restoreStackBuf_ok mem hb hfew fun i hi =>
    restorable_of_no_holes (hsort.nil cmp) (hholes i hi)
  have hgive : ∀ e ∈ b.segs, ∀ x, e.GivesBack x ↔ x ∈ e.span := by
    intro e he x
    obtain ⟨i, hi, rfl⟩ := Sbuf.mem_segs.mp he
    simp [StackBuf.GivesBack, hholes i hi]
  suffices hmem : giveBackAll b.segs mem = fun x => if Covers (b.segs.map StackBuf.span) x then m x else mem x from
    ⟨_, by rw [hres, hmem]⟩
  funext x
  by_cases hx : Covers (b.segs.map StackBuf.span) x
  · rw [if_pos hx]
    rw [mem_map_span] at hx
    obtain ⟨e, he, hxe⟩ := hx
    exact (giveBackAll_of_mem hinner.segs.2.2.1 he ((hgive e he x).mpr hxe)).trans ((hdata e he).at hxe)
  · rw [if_neg hx]
    rw [mem_map_span] at hx
    exact giveBackAll_of_none fun e he hge => hx ⟨e, he, (hgive e he x).mp hge⟩

/-- Restoring the array of an open encrypt undoes it. -/
theorem Opened.KeptIn.restores (mem : Mem) (h : o.KeptIn p b) (hv : AllByValue o.paraList) (hsort : env.SortOk)
    (hb : heap.sbufs p = some b) :
    ∃ heap', restoreStackBuf env heap mem (some p) =
      .ok (heap', fun x => if Covers o.region x then o.before x else mem x) := by
  have hspans : b.segs.map StackBuf.span = o.region := h.spans
  have hinner : Inner o.regs.userRsp o.regs.userRbp (b.segs.map StackBuf.span) := hspans ▸ h.inner
  rw [← hspans]
  exact Sbuf.restores mem hinner h.data (h.few.trans (by decide)) (h.holes hv) hsort hb

variable {regs : Regs} {s : State} {opens : List Opened} {c : CsItem} {rest : List CsItem}

theorem Buffers.decrypt (h : Buffers (o :: opens) s.toGlobals) (hm : s.Mapped env) (hsort : env.SortOk)
    (hv : AllByValue o.paraList) (hinit : s.init = true) (hname : (nameOf env regs).isSome)
    (hcs : s.callStack = c :: rest) (htop : o.slot + 1 = s.sbufStackTop) (hlim : s.sbufStackTop ≤ 16) :
    ∃ heap', jsysDecryptStack env regs s = .ok (0, { s with
      heap := heap', callStack := rest, sbufStackTop := s.sbufStackTop - 1,
      mem := fun x => if Covers o.region x then o.before x else s.mem x }) := by
  have hlt : s.sbufStackTop - 1 < 16 := by omega
  obtain ⟨p, b, hs⟩ := h.live hinit ⟨s.sbufStackTop - 1, hlt⟩
  have hkept := h.held o List.mem_cons_self _ p b hs (by show s.sbufStackTop - 1 = o.slot; omega)
  obtain ⟨heap', hres⟩ := hkept.restores s.mem hv hsort hs.live
  refine ⟨heap', ?_⟩
  rw [decrypt_eq hm hinit hname hcs ⟨by omega, hlim⟩, hs.ptr, hres]
  simp only [Except.map]

end Decrypt

/-! ### The refinement -/

/-- The module as a vault. -/
def Logged.vault {π : Type} (L : Logged π) : Vault π Addr Byte where
  mems := L.mems
  saved := L.opens.map fun x => (x.1, {a | Covers x.2.region a}, x.2.before)

/-- What an operation does to the vault: a refused encrypt does nothing. -/
def Op.act (env : Env) : Op → Option (Act Addr Byte)
  | .encrypt regs plt =>
    if Accepts env regs then some (.clear {a | Covers (segments plt regs.userRsp regs.userRbp) a} 0x30) else none
  | .decrypt _ => some .undo
  | .write addr byte => some (.write addr byte)

section Mems
open Classical

theorem ite_eq_piecewise {P : Addr → Prop} {_ : DecidablePred P} {f g : Mem} :
    (fun x => if P x then f x else g x) = @Set.piecewise _ _ {x | P x} f g fun _ => propDecidable _ := by
  funext x
  by_cases hx : P x
  · exact (if_pos hx).trans (if_pos hx).symm
  · exact (if_neg hx).trans (if_neg hx).symm

theorem ite_eq_update {α β : Type} [DecidableEq α] {f : α → β} {a : α} {b : β} :
    (fun x => if x = a then b else f x) = Function.update f a b := by
  funext x
  by_cases hx : x = a
  · rw [if_pos hx, hx, Function.update_self]
  · rw [if_neg hx, Function.update_of_ne hx]

theorem vault_put {π : Type} [DecidableEq π] {L : Logged π} {p : π} {t : State} {opens : List (π × Opened)} :
    Logged.vault { L.put p t with opens } = 
      { mems := Function.update L.mems p t.mem, saved := (Logged.vault { L with opens }).saved } :=
  congrArg (Vault.mk · _) ite_eq_update

end Mems

section Runs
variable {π : Type} {env : Env} {mems : π → Mem} {L M : Logged π} {l : π × Op} {p : π} {regs : Regs} {plt : List Para}

structure Vaulted (env : Env) (L : Logged π) : Prop extends Book env L where
  byValue : ∀ x ∈ L.opens, AllByValue x.2.paraList

/-- What is asked of a call. An accepted encrypt has parameters by value, does not wrap round and finds
    room for its record and its segments; a decrypt comes from a known function, after the first call. -/
def ByValueCall (env : Env) (L : Logged π) (l : π × Op) : Prop :=
  match l.2 with
  | .encrypt regs plt => Accepts env regs → AllByValue plt ∧ NoWrap plt ∧ regs.userRbp.toNat + 1 < 2 ^ 64 ∧
      (segments plt regs.userRsp regs.userRbp).length ≤ 32 ∧ L.opens.length < 16
  | .decrypt regs => L.init = true ∧ (nameOf env regs).isSome
  | .write _ _ => True

theorem ByValueCall.bounded (h : ByValueCall env L l) : Bounded env L l := by
  obtain ⟨p, op⟩ := l
  rintro regs plt rfl hacc
  obtain ⟨-, hw, hb, hlen, -⟩ := h hacc
  exact ⟨hw, hb, hlen⟩

namespace Vaulted

theorem start : Vaulted env (.start mems) where
  toBook := Book.start
  byValue _ hx := by cases hx

/-- The newest encrypt can be undone, in whatever memory. -/
theorem undo (h : Vaulted env L) (hsort : env.SortOk) (hinit : L.init = true) (hname : (nameOf env regs).isSome)
    {x : π × Opened} {xs : List (π × Opened)} (hopen : L.opens = x :: xs) (mem : Mem) :
    ∃ heap' c rest, L.callStack = c :: rest ∧ jsysDecryptStack env regs { L.toGlobals with mem } =
      .ok (0, { L.toGlobals with
        heap := heap', callStack := rest, sbufStackTop := L.sbufStackTop - 1,
        mem := fun a => if Covers x.2.region a then x.2.before a else mem a }) := by
  have hrec := h.records
  rw [hopen] at hrec
  obtain ⟨c, rest, -, -, hcs⟩ := List.forall₂_cons_left_iff.mp hrec
  obtain ⟨y, ys, hopen', -, hslot, -⟩ := h.newest hcs
  rw [hopen] at hopen'
  cases hopen'
  have hbuf := h.buffers
  rw [hopen, List.map_cons] at hbuf
  obtain ⟨heap', hdec⟩ := Buffers.decrypt (s := { L.toGlobals with mem }) hbuf h.mapped hsort
    (h.byValue x (by rw [hopen]; exact List.mem_cons_self)) hinit hname hcs hslot h.limit
  exact ⟨heap', c, rest, hcs, hdec⟩

variable [DecidableEq π]

theorem step (h : Vaulted env L) (halloc : env.AllocOk) (hc : ByValueCall env L l) (hs : LoggedStep env L l M) :
    Vaulted env M := by
  refine ⟨h.toBook.step halloc hc.bounded hs, ?_⟩
  have hv := h.byValue
  cases h.move hs with
  | keep _ _ hopen =>
    rw [hopen]
    exact hv
  | push _ hacc _ _ _ hopen =>
    rw [hopen]
    intro x hx
    rcases List.mem_cons.mp hx with rfl | hx
    · exact (hc hacc).1
    · exact hv x hx
  | pop _ _ hopen =>
    rw [hopen] at hv
    exact fun x hx => hv x (List.mem_cons_of_mem _ hx)

theorem decrypt_none (h : Vaulted env L) (hopen : L.opens = []) (hs : LoggedStep env L (p, .decrypt regs) M) :
    M = L := by
  have hcs : L.callStack = [] := h.no_record hopen
  obtain ⟨t, ⟨ret, ht⟩, rfl⟩ := hs
  rcases decrypt_cases ht with ⟨-, -, rfl⟩ | ⟨c, rest, _, _, _, _, _, hcs', -⟩
  · have hmems : (fun q => if q = p then L.mems p else L.mems q) = L.mems :=
      ite_eq_update.trans (Function.update_eq_self p L.mems)
    have hlog : L.log env (p, .decrypt regs) = L.opens := (congrArg List.tail hopen).trans hopen.symm
    show ({ L.put p (L.view p) with opens := L.log env (p, .decrypt regs) } : Logged π) = L
    rw [hlog, System.put, show (L.view p).mem = L.mems p from rfl, hmems]
    rfl
  · rw [show L.callStack = c :: rest from hcs'] at hcs
    cases hcs

/-- A decrypt gives the process that calls it the region of the newest encrypt. -/
theorem decrypt_some (h : Vaulted env L) (hsort : env.SortOk) (hinit : L.init = true) (hname : (nameOf env regs).isSome)
    {x : π × Opened} {xs : List (π × Opened)} (hopen : L.opens = x :: xs)
    (hs : LoggedStep env L (p, .decrypt regs) M) :
    M.mems p = (fun a => if Covers x.2.region a then x.2.before a else L.mems p a) ∧
      (∀ q, q ≠ p → M.mems q = L.mems q) ∧ M.opens = xs := by
  obtain ⟨heap', c, rest, -, hdec⟩ := h.undo hsort hinit hname hopen (L.mems p)
  obtain ⟨t, ⟨ret, ht⟩, rfl⟩ := hs
  rw [show jsysDecryptStack env regs (L.view p) = _ from hdec] at ht
  cases ht
  refine ⟨?_, fun q hq => if_neg hq, congrArg List.tail hopen⟩
  simp only [System.put, if_true]

/-- A step of the module is an action of the vault. -/
theorem refines (h : Vaulted env L) (halloc : env.AllocOk) (hsort : env.SortOk) (hc : ByValueCall env L l)
    (hs : LoggedStep env L l M) : M.vault = (l.2.act env).elim L.vault (L.vault.act l.1) := by
  obtain ⟨p, op⟩ := l
  obtain ⟨t, ht, rfl⟩ := hs
  cases op with
  | encrypt regs plt =>
    obtain ⟨fuel, e, he, rfl⟩ := ht
    by_cases hacc : Accepts env regs
    · obtain ⟨hv, hw, hb, hlen, -⟩ := hc hacc
      have hmem := ((Buffers.encrypt h.buffers h.fits h.mapped halloc hacc hw hb hlen he).2 hv).trans ite_eq_piecewise
      have hlog : L.log env (p, .encrypt regs plt) =
          (p, { regs, paraList := plt, before := L.mems p, slot := L.sbufStackTop }) :: L.opens := if_pos hacc
      have hact : (Op.encrypt regs plt).act env =
          some (.clear {a | Covers (segments plt regs.userRsp regs.userRbp) a} 0x30) := if_pos hacc
      rw [vault_put, hlog, hmem, hact]
      rfl
    · have hlog : L.log env (p, .encrypt regs plt) = L.opens := if_neg hacc
      have hact : (Op.encrypt regs plt).act env = none := if_neg hacc
      rcases encrypt_stacks h.mapped he with ⟨-, hmem, -⟩ | ⟨_, -, hacc', -⟩
      · rw [vault_put, hlog, hmem, hact]
        exact congrArg (Vault.mk · _) (Function.update_eq_self p L.mems)
      · exact absurd hacc' hacc
  | decrypt regs =>
    obtain ⟨hinit, hname⟩ := hc
    have hs : LoggedStep env L (p, .decrypt regs) { L.put p t with opens := L.log env (p, .decrypt regs) } :=
      ⟨t, ht, rfl⟩
    show _ = L.vault.act p .undo
    cases hopen : L.opens with
    | nil =>
      rw [h.decrypt_none hopen hs]
      simp [Vault.act, Logged.vault, hopen]
    | cons x xs =>
      obtain ⟨hmem, -, hopens⟩ := h.decrypt_some hsort hinit hname hopen hs
      have hact : L.vault.act p .undo =
          { mems := Function.update L.mems p fun a => if Covers x.2.region a then x.2.before a else L.mems p a
            saved := (Logged.vault { L with opens := xs }).saved } := by
        rw [ite_eq_piecewise]
        simp [Vault.act, Logged.vault, hopen]
      have hmem' : t.mem = fun a => if Covers x.2.region a then x.2.before a else L.mems p a :=
        (if_pos rfl : (if p = p then t.mem else L.mems p) = t.mem).symm.trans hmem
      rw [vault_put, hact, hmem', show L.log env (p, .decrypt regs) = xs from hopens]
  | write addr byte =>
    cases ht
    rw [vault_put, ite_eq_update]
    rfl

theorem returns (h : Vaulted env L) (halloc : env.AllocOk) (hsort : env.SortOk) (hc : ByValueCall env L l) :
    ∃ M, LoggedStep env L l M := by
  suffices hstep : ∃ t, Step env (L.view l.1) l.2 t by
    obtain ⟨t, ht⟩ := hstep
    exact ⟨_, t, ht, rfl⟩
  obtain ⟨p, op⟩ := l
  cases op with
  | encrypt regs plt =>
    by_cases hacc : Accepts env regs
    · obtain ⟨hv, hw, hb, -, hroom⟩ := hc hacc
      have htop : L.sbufStackTop < 16 := h.length ▸ hroom
      have hcs : L.callStackTop < 64 := Nat.lt_of_lt_of_le (h.depth ▸ htop) (by decide)
      obtain ⟨fuel, e, he⟩ :=
        Buffers.encrypt_returns (s := L.view p) h.buffers h.fits h.mapped halloc hacc hv hw hb hcs htop
      exact ⟨e.state, fuel, e, he, rfl⟩
    · obtain ⟨g, hset⟩ := setup_ok L.toGlobals halloc
      exact ⟨_, 0, _, encrypt_refused (s := L.view p) h.mapped hset hacc, rfl⟩
  | decrypt regs =>
    obtain ⟨hinit, hname⟩ := hc
    cases hopen : L.opens with
    | nil =>
      have hcs : (L.view p).callStack = [] := h.no_record hopen
      have hmapper : (L.view p).mapper = some env.exe := h.mapped.trans (by rw [hinit]; rfl)
      refine ⟨L.view p, -1, ?_⟩
      show jsysDecryptStack env regs (L.view p) = _
      unfold jsysDecryptStack
      rw [hmapper]
      dsimp only
      rw [hcs]
    | cons x xs =>
      obtain ⟨heap', c, rest, -, hdec⟩ := h.undo hsort hinit hname hopen (L.mems p)
      exact ⟨_, 0, hdec⟩
  | write addr byte => exact ⟨_, rfl⟩

theorem of_run {tr : List (Logged π × (π × Op))} (halloc : env.AllocOk) (hr : Run (LoggedStep env) (.start mems) tr L)
    (hc : Meets (ByValueCall env) tr) : Vaulted env L :=
  hr.invariant start (fun _ _ _ hi hc hs => hi.step halloc hc hs) hc

end Vaulted

variable [DecidableEq π] {tr : List (Logged π × (π × Op))}

/-- A frame of sixteen bytes with a parameter in it. -/
def framed : Op := .encrypt (.frame 0x1010 0x4000 0x4010) [⟨0x4004, 4, 0⟩]

omit [DecidableEq π] in
theorem framed_byValue {L : Logged π} (hroom : L.opens.length < 16) (p : π) : ByValueCall Env.sample L (p, framed) := by
  intro _
  have hmem : ∀ q ∈ [(⟨0x4004, 4, 0⟩ : Para)], q = ⟨0x4004, 4, 0⟩ := fun q hq => List.mem_singleton.mp hq
  refine ⟨fun q hq => ?_, fun q hq _ => ?_, by decide, by decide, hroom⟩ <;> rw [hmem q hq]
  decide

/-- A decrypt comes from the process of the newest open encrypt. -/
def OwnTurn (L : Logged π) (l : π × Op) : Prop := ∀ regs, l.2 = .decrypt regs → ∃ o rest, L.opens = (l.1, o) :: rest

/-- What process `p` does, as a process alone. -/
def onlyBy (p : π) (l : π × Op) : Option (Unit × Op) := if l.1 = p then some ((), l.2) else none

omit [DecidableEq π] in
theorem OwnTurn.vault (h : OwnTurn L l) {a : Act Addr Byte} (ha : l.2.act env = some a) : L.vault.OwnTurn l.1 a := by
  rintro rfl
  obtain ⟨p, op⟩ := l
  cases op with
  | encrypt regs plt =>
    by_cases hacc : Accepts env regs
    · rw [show Op.act env (Op.encrypt regs plt) = _ from if_pos hacc] at ha
      cases ha
    · rw [show Op.act env (Op.encrypt regs plt) = _ from if_neg hacc] at ha
      cases ha
  | decrypt regs =>
    obtain ⟨o, rest, hopen⟩ := h regs rfl
    exact ⟨_, _, by rw [Logged.vault, hopen, List.map_cons]⟩
  | write addr byte => cases ha

/-- A call that process `p` may make in the common run, it may make alone. -/
theorem byValueCall_alone {L' : Logged Unit} (h' : Vaulted env L') (hvault : L'.vault = L.vault.own p) {op : Op}
    (hc : ByValueCall env L (p, op)) (ht : OwnTurn L (p, op)) : ByValueCall env L' ((), op) := by
  have hlen : L'.opens.length ≤ L.opens.length := by
    have hle := Vault.own_saved_length_le (v := L.vault) (p := p)
    rw [← hvault] at hle
    simpa [Logged.vault] using hle
  cases op with
  | encrypt regs plt =>
    intro hacc
    obtain ⟨hv, hw, hb, hsegs, hroom⟩ := hc hacc
    exact ⟨hv, hw, hb, hsegs, Nat.lt_of_le_of_lt hlen hroom⟩
  | decrypt regs =>
    obtain ⟨o, rest, hopen⟩ := ht regs rfl
    refine ⟨?_, hc.2⟩
    cases hinit : L'.init with
    | true => rfl
    | false =>
      have hsaved := congrArg Vault.saved hvault
      have hnil : L'.opens = [] := List.map_eq_nil_iff.mp (h'.fits.unset hinit)
      simp [Logged.vault, Vault.own, hnil, hopen] at hsaved
  | write addr byte => trivial

/-- The system and a system that only process `p` runs in. -/
structure Alone (env : Env) (p : π) (L : Logged π) (L' : Logged Unit) : Prop where
  common : Vaulted env L
  single : Vaulted env L'
  alone : L'.vault = L.vault.own p

omit [DecidableEq π] in
theorem Alone.start [DecidableEq π] : Alone env p (.start mems) (.start fun _ => mems p) where
  common := Vaulted.start
  single := Vaulted.start
  alone := rfl

theorem Alone.step {L' : Logged Unit} (h : Alone env p L L') (halloc : env.AllocOk) (hsort : env.SortOk)
    (hc : ByValueCall env L l) (ht : OwnTurn L l) (hs : LoggedStep env L l M) :
    (onlyBy p l = none → Alone env p M L') ∧
      ∀ l', onlyBy p l = some l' → ∃ M', LoggedStep env L' l' M' ∧ Alone env p M M' := by
  obtain ⟨q, op⟩ := l
  have hM := h.common.refines halloc hsort hc hs
  have hact : ∀ a, op.act env = some a → L.vault.OwnTurn q a := fun a ha => ht.vault ha
  by_cases hq : q = p
  · rw [show onlyBy p (q, op) = some ((), op) from if_pos hq]
    subst hq
    refine ⟨fun hf => (by cases hf), fun l' hl' => ?_⟩
    cases hl'
    have hc' := byValueCall_alone h.single h.alone hc ht
    obtain ⟨M', hs'⟩ := h.single.returns halloc hsort hc'
    refine ⟨M', hs', h.common.step halloc hc hs, h.single.step halloc hc' hs', ?_⟩
    rw [h.single.refines halloc hsort hc' hs', hM, h.alone]
    cases ha : op.act env with
    | none => rfl
    | some a => exact (Vault.own_act_self (hact a ha)).symm
  · rw [show onlyBy p (q, op) = none from if_neg hq]
    refine ⟨fun _ => ⟨h.common.step halloc hc hs, h.single, ?_⟩, fun l' hl' => (by cases hl')⟩
    rw [hM, h.alone]
    cases ha : op.act env with
    | none => rfl
    | some a => exact (Vault.own_act_other (hact a ha) hq).symm

end Runs

end StackVault
