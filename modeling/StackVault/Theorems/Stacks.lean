import StackVault.Theorems.Faults
import Mathlib.Data.List.Chain

/-! The two stacks of the module over whole runs. In every run they have one depth, and each open
    encrypt has its record on `call_stack` and an element of `sbuf_stack` of its own. Nothing more holds
    of every run: the capacity of `sbuf_stack`, the owner of a record and the frame below it are not
    enforced. For each of these three, a run is safe exactly when its callers keep to it themselves. -/

namespace StackVault
open Memory Transition

section Stacked
variable {π : Type} {env : Env} {mems : π → Mem} {L M : Logged π} {l : π × Op}

/-- The record `c` is that of the open encrypt `x`. -/
def Recorded (env : Env) (x : π × Opened) (c : CsItem) : Prop :=
  Accepts env x.2.regs ∧ ∃ name, nameOf env x.2.regs = some name ∧ c = x.2.regs.record name

/-- What holds of the stacks and the log in every run. -/
structure Stacked (env : Env) (L : Logged π) : Prop where
  mapped : L.Mapped env
  unset : L.init = false → L.callStack = []
  depth : L.callStack.length = L.sbufStackTop
  limit : L.sbufStackTop ≤ 16
  records : List.Forall₂ (Recorded env) L.opens L.callStack
  slots : L.opens.map (fun x => x.2.slot) = (List.range L.sbufStackTop).reverse

/-- What a step does to the stacks and the log. -/
inductive Move (env : Env) (L : Logged π) : π × Op → Logged π → Prop
  | keep {l : π × Op} {M : Logged π} (hcs : M.callStack = L.callStack) (htop : M.sbufStackTop = L.sbufStackTop)
      (hopen : M.opens = L.opens) : Move env L l M
  | push {p : π} {regs : Regs} {plt : List Para} {name : String} {M : Logged π} (hn : nameOf env regs = some name)
      (hacc : Accepts env regs) (hlt : L.sbufStackTop < 16) (hcs : M.callStack = regs.record name :: L.callStack)
      (htop : M.sbufStackTop = L.sbufStackTop + 1)
      (hopen : M.opens = (p, { regs, paraList := plt, before := L.mems p, slot := L.sbufStackTop }) :: L.opens) :
      Move env L (p, .encrypt regs plt) M
  | pop {p : π} {regs : Regs} {c : CsItem} {x : π × Opened} {M : Logged π} (hcs : L.callStack = c :: M.callStack)
      (htop : L.sbufStackTop = M.sbufStackTop + 1) (hopen : L.opens = x :: M.opens) : Move env L (p, .decrypt regs) M

namespace Stacked

theorem start : Stacked env (.start mems) where
  mapped := rfl
  unset _ := rfl
  depth := rfl
  limit := Nat.zero_le _
  records := List.Forall₂.nil
  slots := rfl

theorem length (h : Stacked env L) : L.opens.length = L.sbufStackTop := by
  rw [h.records.length_eq, h.depth]

theorem init_eq (h : Stacked env L) {c : CsItem} {rest : List CsItem} (hcs : L.callStack = c :: rest) :
    L.init = true := by
  cases hi : L.init with
  | true => rfl
  | false =>
    rw [h.unset hi] at hcs
    cases hcs

theorem none_open (h : Stacked env L) (hcs : L.callStack = []) : L.opens = [] := by
  have hrec := h.records
  rw [hcs] at hrec
  exact List.forall₂_nil_right_iff.mp hrec

theorem no_record (h : Stacked env L) (hopen : L.opens = []) : L.callStack = [] := by
  have hrec := h.records
  rw [hopen] at hrec
  exact List.forall₂_nil_left_iff.mp hrec

/-- The top record is that of the newest encrypt, which saved to the topmost element of `sbuf_stack`;
    those before it saved further down. -/
theorem newest (h : Stacked env L) {c : CsItem} {rest : List CsItem} (hcs : L.callStack = c :: rest) :
    ∃ x xs, L.opens = x :: xs ∧ Recorded env x c ∧ x.2.slot + 1 = L.sbufStackTop ∧
      ∀ y ∈ xs, y.2.slot < x.2.slot := by
  have hrec := h.records
  have hdepth := h.depth
  have hslots := h.slots
  rw [hcs] at hrec hdepth
  rw [← hdepth, List.length_cons, List.range_succ, List.reverse_append] at hslots
  obtain ⟨x, xs, hrecd, -, hopen⟩ := List.forall₂_cons_right_iff.mp hrec
  rw [hopen, List.map_cons] at hslots
  obtain ⟨hx, hxs⟩ := List.cons.inj hslots
  refine ⟨x, xs, hopen, hrecd, by rw [hx, ← hdepth]; rfl, fun y hy => ?_⟩
  have hmem : y.2.slot ∈ xs.map (fun x => x.2.slot) := List.mem_map_of_mem hy
  rw [hxs] at hmem
  rw [hx]
  exact List.mem_range.mp (List.mem_reverse.mp hmem)

variable [DecidableEq π]

theorem move (h : Stacked env L) (hs : LoggedStep env L l M) : Move env L l M := by
  obtain ⟨p, op⟩ := l
  obtain ⟨t, ht, rfl⟩ := hs
  cases op with
  | encrypt regs plt =>
    obtain ⟨fuel, e, he, rfl⟩ := ht
    rcases encrypt_stacks h.mapped he with ⟨hna, -, hcs, htop, -⟩ | ⟨name, hn, hacc, -, hlt, hcs, htop⟩
    · exact .keep hcs htop (if_neg hna)
    · exact .push hn hacc hlt hcs htop (if_pos hacc)
  | decrypt regs =>
    obtain ⟨ret, ht⟩ := ht
    rcases decrypt_cases ht with ⟨hcs, -, rfl⟩ | ⟨c, rest, mapper, name, heap, mem, hlt, hcs, -, -, hpos, -, -, rfl⟩
    · exact .keep rfl rfl (show L.opens.tail = L.opens by rw [h.none_open hcs]; rfl)
    · obtain ⟨x, xs, hopen, -⟩ := h.newest hcs
      refine .pop (x := x) hcs (Nat.succ_pred_eq_of_pos hpos).symm ?_
      show L.opens = x :: L.opens.tail
      rw [hopen]
      rfl
  | write addr byte =>
    cases ht
    exact .keep rfl rfl rfl

/-- The table is loaded by the first encrypt and stays. -/
theorem mapped_step (h : Stacked env L) (hs : LoggedStep env L l M) :
    M.Mapped env ∧ (M.init = false → L.init = false ∧ M.callStack = L.callStack) := by
  obtain ⟨p, op⟩ := l
  obtain ⟨t, ht, rfl⟩ := hs
  cases op with
  | encrypt regs plt =>
    obtain ⟨fuel, e, he, rfl⟩ := ht
    obtain ⟨hmap, hinit⟩ := encrypt_mapped h.mapped he
    refine ⟨hmap, fun hf => ?_⟩
    have hf' : e.state.init = false := hf
    rw [hinit] at hf'
    cases hf'
  | decrypt regs =>
    obtain ⟨ret, ht⟩ := ht
    rcases decrypt_cases ht with ⟨hcs, -, rfl⟩ | ⟨c, rest, mapper, name, heap, mem, -, hcs, -, -, -, -, -, rfl⟩
    · exact ⟨h.mapped, fun hf => ⟨hf, rfl⟩⟩
    · refine ⟨h.mapped, fun hf => ?_⟩
      have hnil : L.callStack = [] := h.unset hf
      rw [show L.callStack = c :: rest from hcs] at hnil
      cases hnil
  | write addr byte =>
    cases ht
    exact ⟨h.mapped, fun hf => ⟨hf, rfl⟩⟩

theorem step (h : Stacked env L) (hs : LoggedStep env L l M) : Stacked env M := by
  obtain ⟨hmap, hinit⟩ := h.mapped_step hs
  have hunset : M.init = false → M.callStack = [] := fun hf => by
    obtain ⟨hf', hcs⟩ := hinit hf
    rw [hcs, h.unset hf']
  cases h.move hs with
  | keep hcs htop hopen =>
    refine ⟨hmap, hunset, ?_, ?_, ?_, ?_⟩
    · rw [hcs, htop, h.depth]
    · rw [htop]
      exact h.limit
    · rw [hopen, hcs]
      exact h.records
    · rw [hopen, htop, h.slots]
  | push hn hacc hlt hcs htop hopen =>
    refine ⟨hmap, hunset, ?_, ?_, ?_, ?_⟩
    · rw [hcs, htop, List.length_cons, h.depth]
    · rw [htop]
      exact hlt
    · rw [hopen, hcs]
      exact List.Forall₂.cons ⟨hacc, _, hn, rfl⟩ h.records
    · rw [hopen, htop, List.range_succ, List.reverse_append, List.map_cons, h.slots]
      rfl
  | pop hcs htop hopen =>
    have hdepth := h.depth
    have hlimit := h.limit
    have hrec := h.records
    have hslots := h.slots
    rw [hcs, htop, List.length_cons] at hdepth
    rw [hopen, hcs] at hrec
    rw [hopen, htop, List.range_succ, List.reverse_append, List.map_cons] at hslots
    refine ⟨hmap, hunset, Nat.succ.inj hdepth, by omega, ?_, (List.cons.inj hslots).2⟩
    exact (List.forall₂_cons.mp hrec).2

theorem of_run {tr : List (Logged π × (π × Op))} (h : Run (LoggedStep env) (.start mems) tr L) : Stacked env L :=
  h.invariant (P := fun _ _ => True) start (fun _ _ _ hi _ hs => hi.step hs) fun _ _ => trivial

end Stacked
end Stacked

/-- Memory and both stacks are left as they were. -/
def Untouched (s t : State) : Prop :=
  t.mem = s.mem ∧ t.callStack = s.callStack ∧ t.sbufStack = s.sbufStack ∧ t.sbufStackTop = s.sbufStackTop

section Safety
variable {π : Type} [DecidableEq π] {env : Env} {mems : π → Mem} {tr : List (Logged π × (π × Op))} {L : Logged π}

/-! ### Capacity -/

/-- The encrypt stays inside the two arrays, and one of them being full it is refused. -/
def CapacitySafe (env : Env) (L : Logged π) (p : π) (regs : Regs) (plt : List Para) : Prop :=
  (∀ fuel r, jsysEncryptStack env fuel regs plt (L.view p) = some r → Indexed r) ∧
  (L.callStackTop = 64 ∨ L.sbufStackTop = 16 → ∀ fuel, ∃ e,
    jsysEncryptStack env fuel regs plt (L.view p) = some (.ok e) ∧ Untouched (L.view p) e.state)

/-- After every run both tops are within bounds, and the next encrypt is safe if and only if it is not
    an accepted one that finds `sbuf_stack` full. -/
theorem capacity_safe_iff (hr : Run (LoggedStep env) (.start mems) tr L) (p : π) (regs : Regs) (plt : List Para) :
    L.callStackTop ≤ 64 ∧ L.sbufStackTop ≤ 16 ∧
      (CapacitySafe env L p regs plt ↔ (Accepts env regs → L.sbufStackTop < 16)) := by
  have h := Stacked.of_run hr
  have hdepth : L.callStackTop = L.sbufStackTop := h.depth
  have hlimit := h.limit
  refine ⟨by omega, hlimit, ⟨fun ⟨_, hfull⟩ hacc => ?_, fun hcond => ⟨fun fuel r hr => ?_, fun hfull fuel => ?_⟩⟩⟩
  · by_contra hge
    obtain ⟨e, he, -⟩ := hfull (Or.inr (by omega)) 0
    rcases encrypt_stacks h.mapped he with ⟨hna, -⟩ | ⟨_, -, -, -, hlt, -⟩
    · exact hna hacc
    · exact hge hlt
  · refine encrypt_indexed h.mapped (fun hacc => ?_) hr
    have hlt := hcond hacc
    exact ⟨show L.callStackTop < 64 by omega, hlt⟩
  · have htop : L.sbufStackTop = 16 := by omega
    have hna : ¬Accepts env regs := fun hacc => by
      have := hcond hacc
      omega
    cases hcs : L.callStack with
    | nil =>
      have hnil : L.callStackTop = 0 := congrArg List.length hcs
      omega
    | cons c rest => exact ⟨_, encrypt_refused h.mapped (setup_done (h.init_eq hcs)) hna, rfl, rfl, rfl, rfl⟩

theorem sixteen_nested :
    ∃ tr L, Run (LoggedStep Env.sample) (.start fun _ : Unit => fun _ => 0) tr L ∧ L.sbufStackTop = 16 := by
  have hexec : (exec (Logged.exec Env.sample 2) (List.replicate 16 ((), .encrypt (.frame 0x1010 0x3000 0x3000) []))
      (.start fun _ => fun _ => 0)).map (fun L => L.sbufStackTop) = some 16 := by decide
  obtain ⟨L, hL, htop⟩ := Option.map_eq_some_iff.mp hexec
  obtain ⟨tr, hr, -⟩ := Logged.run_of_exec hL
  exact ⟨tr, L, hr, htop⟩

theorem capacity_safe_sample : ∃ tr L, Run (LoggedStep Env.sample) (.start fun _ : Unit => fun _ => 0) tr L ∧
    L.callStackTop ≤ 64 ∧ L.sbufStackTop ≤ 16 ∧ (CapacitySafe Env.sample L () (.frame 0x1010 0x3000 0x3000) [] ↔
      (Accepts Env.sample (.frame 0x1010 0x3000 0x3000) → L.sbufStackTop < 16)) := by
  obtain ⟨tr, L, hr, -⟩ := sixteen_nested
  exact ⟨tr, L, hr, capacity_safe_iff hr () _ []⟩

/-- The encrypt after them reads `sbuf_stack[16]`. -/
theorem seventeenth_overruns : ∃ tr L, Run (LoggedStep Env.sample) (.start fun _ : Unit => fun _ => 0) tr L ∧
    L.callStackTop = 16 ∧ L.sbufStackTop = 16 ∧
    jsysEncryptStack Env.sample 2 (.frame 0x1010 0x3000 0x3000) [] (L.view ()) =
      some (.error ⟨.sbufStackBounds, L.mems (), []⟩) ∧
    ¬CapacitySafe Env.sample L () (.frame 0x1010 0x3000 0x3000) [] := by
  obtain ⟨tr, L, hr, htop⟩ := sixteen_nested
  have h := Stacked.of_run hr
  have hcs : L.callStackTop = 16 := h.depth.trans htop
  obtain ⟨c, rest, hc⟩ := List.exists_cons_of_length_pos (l := L.callStack) (Nat.lt_of_lt_of_eq (by decide) hcs.symm)
  have hacc : Accepts Env.sample (.frame 0x1010 0x3000 0x3000) := by decide
  have hroom : (L.view ()).callStackTop < 64 := by
    show L.callStackTop < 64
    omega
  have hfull := encrypt_full 2 [] Env.sample_allocOk h.mapped (h.init_eq hc) hacc hroom (Nat.le_of_eq htop.symm)
  exact ⟨tr, L, hr, hcs, htop, hfull, fun hsafe => hsafe.1 2 _ hfull _ rfl (Or.inr rfl)⟩

/-! ### The owner of a record -/

/-- The decrypt takes the element of `sbuf_stack` that the open encrypt `o` saved to, and restores it. -/
def Restores (env : Env) (L : Logged π) (p : π) (regs : Regs) (o : Opened) : Prop :=
  ∃ (h : o.slot < 16) (t : State), jsysDecryptStack env regs (L.view p) = .ok (0, t) ∧ t.sbufStackTop = o.slot ∧
    restoreStackBuf env L.heap (L.mems p) (L.sbufStack ⟨o.slot, h⟩) = .ok (t.heap, t.mem)

/-- A decrypt restores only what an encrypt of the same function saved, and is rejected when its name
    is not that of the top record. -/
def OwnerOnly (env : Env) (L : Logged π) (l : π × Op) : Prop :=
  ∀ regs, l.2 = .decrypt regs →
    (∀ x ∈ L.opens, Restores env L l.1 regs x.2 → nameOf env regs = nameOf env x.2.regs) ∧
    (∀ c rest, L.callStack = c :: rest → nameOf env regs ≠ some c.funcName →
      ∃ ret t, jsysDecryptStack env regs (L.view l.1) = .ok (ret, t) ∧ Untouched (L.view l.1) t)

/-- A decrypt comes from the function of the top record. -/
def OwnName (env : Env) (L : Logged π) (l : π × Op) : Prop :=
  ∀ regs, l.2 = .decrypt regs → ∀ c rest, L.callStack = c :: rest → nameOf env regs = some c.funcName

omit [DecidableEq π] in
theorem Stacked.ownerOnly_iff (h : Stacked env L) (l : π × Op) : OwnerOnly env L l ↔ OwnName env L l := by
  constructor
  · intro hown regs hl c rest hcs
    by_contra hne
    obtain ⟨ret, t, hdec, -, hsame, -, -⟩ := (hown regs hl).2 c rest hcs hne
    rcases decrypt_cases hdec with ⟨hnil, -⟩ | ⟨c', rest', _, _, _, _, _, hcs', -, -, -, -, -, rfl⟩
    · rw [show L.callStack = [] from hnil] at hcs
      cases hcs
    · -- The record was popped all the same.
      have hlen := congrArg List.length (hsame.trans hcs')
      simp at hlen
  · intro hname regs hl
    refine ⟨fun x hx ⟨_, t, hdec, htop, _⟩ => ?_, fun c rest hcs hne => absurd (hname regs hl c rest hcs) hne⟩
    rcases decrypt_cases hdec with ⟨-, hret, -⟩ | ⟨c, rest, _, _, _, _, _, hcs, -, -, hpos, -, -, rfl⟩
    · cases hret
    · have hpos' : 0 < L.sbufStackTop := hpos
      have htop' : L.sbufStackTop - 1 = x.2.slot := htop
      obtain ⟨y, ys, hopen, ⟨-, name, hn, hc⟩, hy, hys⟩ := h.newest hcs
      rw [hopen] at hx
      rcases List.mem_cons.mp hx with rfl | hx
      · rw [hname regs hl c rest hcs, hn, hc]
        rfl
      · have := hys x hx
        omega

/-- In every run only owners decrypt if and only if every decrypt comes from the function of the top record. -/
theorem owner_only_iff (hr : Run (LoggedStep env) (.start mems) tr L) :
    Meets (OwnerOnly env) tr ↔ Meets (OwnName env) tr := by
  have key : ∀ e ∈ tr, (OwnerOnly env e.1 e.2 ↔ OwnName env e.1 e.2) := by
    intro e he
    obtain ⟨pre, -, -, hpre, -⟩ := hr.of_mem e he
    exact (Stacked.of_run hpre).ownerOnly_iff e.2
  exact ⟨fun h e he => (key e he).mp (h e he), fun h e he => (key e he).mpr (h e he)⟩

theorem f1_encrypts : ∃ tr L, Run (LoggedStep Env.sample) (.start fun _ : Unit => fun _ => 0x41) tr L ∧
    L.callStack = [⟨0x3000, 0x3008, "f1"⟩] ∧ L.mems () 0x3000 = 0x30 ∧
    ∃ M, LoggedStep Env.sample L ((), .decrypt (.frame 0x2010 0x3000 0x3008)) M ∧ M.callStack = [] ∧
    M.mems () 0x3000 = 0x41 := by
  have hexec : ∃ L M, exec (Logged.exec Env.sample 10) [((), .encrypt (.frame 0x1010 0x3000 0x3008) [])]
      (.start fun _ => fun _ => 0x41) = some L ∧ L.callStack = [⟨0x3000, 0x3008, "f1"⟩] ∧ L.mems () 0x3000 = 0x30 ∧
      L.exec Env.sample 10 ((), .decrypt (.frame 0x2010 0x3000 0x3008)) = some M ∧ M.callStack = [] ∧
      M.mems () 0x3000 = 0x41 := ⟨_, _, rfl, rfl, rfl, rfl, rfl, rfl⟩
  obtain ⟨L, M, hL, hcs, hmem, hM, hcs', hmem'⟩ := hexec
  obtain ⟨tr, hr, -⟩ := Logged.run_of_exec hL
  exact ⟨tr, L, hr, hcs, hmem, M, Logged.step_of_exec hM, hcs', hmem'⟩

theorem owner_only_sample : ∃ tr L, Run (LoggedStep Env.sample) (.start fun _ : Unit => fun _ => 0x41) tr L ∧
    (Meets (OwnerOnly Env.sample) tr ↔ Meets (OwnName Env.sample) tr) := by
  obtain ⟨tr, L, hr, -⟩ := f1_encrypts
  exact ⟨tr, L, hr, owner_only_iff hr⟩

/-- `f2` decrypts what `f1` encrypted. -/
theorem stranger_decrypts : ∃ tr M, Run (LoggedStep Env.sample) (.start fun _ : Unit => fun _ => 0x41) tr M ∧
    M.mems () 0x3000 = 0x41 ∧ ¬Meets (OwnerOnly Env.sample) tr := by
  obtain ⟨tr, L, hr, hcs, -, M, hM, -, hmem⟩ := f1_encrypts
  refine ⟨_, M, hr.snoc hM, hmem, fun hown => ?_⟩
  have hname := ((Stacked.of_run hr).ownerOnly_iff _).mp (meets_snoc.mp hown).2 _ rfl _ _ hcs
  have hname' : nameOf Env.sample (.frame 0x2010 0x3000 0x3008) = some "f2" := rfl
  rw [hname'] at hname
  exact absurd hname (by decide)

/-! ### Open frames -/

/-- The records, newest first: each frame is a frame, and lies below the one it is nested in. -/
def Nested (cs : List CsItem) : Prop :=
  (∀ c ∈ cs, c.userRsp ≤ c.userRbp) ∧ cs.IsChain fun deeper c => deeper.userRbp < c.userRsp

/-- An encrypt that reaches the frame of the top record is refused. -/
def OverlapRefused (env : Env) (L : Logged π) (l : π × Op) : Prop :=
  ∀ regs plt c rest, l.2 = .encrypt regs plt → L.callStack = c :: rest → c.userRsp ≤ regs.userRbp →
    ∃ fuel e, jsysEncryptStack env fuel regs plt (L.view l.1) = some (.ok e) ∧ Untouched (L.view l.1) e.state

/-- An accepted encrypt has its frame below that of the top record. -/
def BelowCaller (env : Env) (L : Logged π) (l : π × Op) : Prop :=
  ∀ regs plt c rest, l.2 = .encrypt regs plt → Accepts env regs → L.callStack = c :: rest → regs.userRbp < c.userRsp

omit [DecidableEq π] in
theorem Stacked.overlapRefused_iff (h : Stacked env L) (l : π × Op) : OverlapRefused env L l ↔ BelowCaller env L l := by
  constructor
  · intro href regs plt c rest hl hacc hcs
    by_contra hge
    obtain ⟨fuel, e, he, -, hsame, -, -⟩ := href regs plt c rest hl hcs (BitVec.not_lt.mp hge)
    rcases encrypt_stacks h.mapped he with ⟨hna, -⟩ | ⟨_, -, -, -, -, hpush, -⟩
    · exact hna hacc
    · have hlen := congrArg List.length (hsame.symm.trans hpush)
      simp at hlen
  · intro hbelow regs plt c rest hl hcs hle
    have hna : ¬Accepts env regs := fun hacc => BitVec.not_lt.mpr hle (hbelow regs plt c rest hl hacc hcs)
    exact ⟨0, _, encrypt_refused h.mapped (setup_done (h.init_eq hcs)) hna, rfl, rfl, rfl, rfl⟩

theorem Stacked.nested_step {M : Logged π} {l : π × Op} (h : Stacked env L) (hn : Nested L.callStack)
    (hb : BelowCaller env L l) (hs : LoggedStep env L l M) : Nested M.callStack := by
  obtain ⟨hframe, hchain⟩ := hn
  cases h.move hs with
  | keep hcs _ _ =>
    rw [hcs]
    exact ⟨hframe, hchain⟩
  | @push p regs plt name M _ hacc _ hcs _ _ =>
    rw [hcs]
    refine ⟨fun c hc => ?_, List.isChain_cons.mpr ⟨fun c hc => ?_, hchain⟩⟩
    · rcases List.mem_cons.mp hc with rfl | hc
      · exact hacc.2
      · exact hframe c hc
    · obtain ⟨rest, hrest⟩ := List.head?_eq_some_iff.mp hc
      exact hb regs plt c rest rfl hacc hrest
  | pop hcs _ _ =>
    rw [hcs] at hframe hchain
    exact ⟨fun c hc => hframe c (List.mem_cons_of_mem _ hc), hchain.tail⟩

/-- In every run the open frames stay nested, every overlap being refused, if and only if every
    accepted encrypt has its frame below that of the top record. -/
theorem frames_nested_iff (hr : Run (LoggedStep env) (.start mems) tr L) :
    ((∀ e ∈ tr, Nested e.1.callStack) ∧ Nested L.callStack ∧ Meets (OverlapRefused env) tr) ↔
      Meets (BelowCaller env) tr := by
  have key : ∀ e ∈ tr, (OverlapRefused env e.1 e.2 ↔ BelowCaller env e.1 e.2) := by
    intro e he
    obtain ⟨pre, -, -, hpre, -⟩ := hr.of_mem e he
    exact (Stacked.of_run hpre).overlapRefused_iff e.2
  constructor
  · rintro ⟨-, -, href⟩ e he
    exact (key e he).mp (href e he)
  · intro hb
    have hnest : (∀ e ∈ tr, Nested e.1.callStack) ∧ Nested L.callStack := by
      refine hr.history (I := fun tr L => (∀ e ∈ tr, Nested e.1.callStack) ∧ Nested L.callStack) ?_ ?_ hb
      · exact ⟨fun _ h => (List.not_mem_nil h).elim, fun _ h => (List.not_mem_nil h).elim, List.isChain_nil⟩
      · rintro tr L l M hr ⟨htr, hL⟩ hbelow hs
        refine ⟨fun e he => ?_, (Stacked.of_run hr).nested_step hL hbelow hs⟩
        rcases List.mem_append.mp he with he | he
        · exact htr e he
        · rw [List.mem_singleton.mp he]
          exact hL
    exact ⟨hnest.1, hnest.2, fun e he => (key e he).mpr (hb e he)⟩

theorem twice_encrypted : ∃ tr L, Run (LoggedStep Env.sample) (.start fun _ : Unit => fun _ => 0x41) tr L ∧
    L.callStack = [⟨0x3000, 0x3008, "f1"⟩, ⟨0x3000, 0x3008, "f1"⟩] := by
  have hexec : ∃ L, exec (Logged.exec Env.sample 10) (List.replicate 2 ((), .encrypt (.frame 0x1010 0x3000 0x3008) []))
      (.start fun _ => fun _ => 0x41) = some L ∧ L.callStack = [⟨0x3000, 0x3008, "f1"⟩, ⟨0x3000, 0x3008, "f1"⟩] :=
    ⟨_, rfl, rfl⟩
  obtain ⟨L, hL, hcs⟩ := hexec
  obtain ⟨tr, hr, -⟩ := Logged.run_of_exec hL
  exact ⟨tr, L, hr, hcs⟩

theorem frames_nested_sample : ∃ tr L, Run (LoggedStep Env.sample) (.start fun _ : Unit => fun _ => 0x41) tr L ∧
    (((∀ e ∈ tr, Nested e.1.callStack) ∧ Nested L.callStack ∧ Meets (OverlapRefused Env.sample) tr) ↔
      Meets (BelowCaller Env.sample) tr) := by
  obtain ⟨tr, L, hr, -⟩ := twice_encrypted
  exact ⟨tr, L, hr, frames_nested_iff hr⟩

theorem frames_overlap : ∃ tr L, Run (LoggedStep Env.sample) (.start fun _ : Unit => fun _ => 0x41) tr L ∧
    ¬Nested L.callStack := by
  obtain ⟨tr, L, hr, hcs⟩ := twice_encrypted
  refine ⟨tr, L, hr, fun ⟨_, hchain⟩ => ?_⟩
  rw [hcs] at hchain
  exact absurd ((List.isChain_cons.mp hchain).1 _ rfl) (by decide)

end Safety

end StackVault
