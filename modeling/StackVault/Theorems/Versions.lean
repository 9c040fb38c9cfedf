import StackVault.Theorems.OneBuffer

/-! The two versions of the module on calls that are not nested. While each encrypt is decrypted before the next one,
    one buffer does what a stack of buffers does, and the check that the later version has given up refuses nothing: the
    two have the same runs. -/

namespace StackVault.Bkp
open Memory Transition

/-- An accepted encrypt finds no other one open, has parameters by value that do not wrap round, and fits the buffer; a
    decrypt comes from a known function, after the first call. -/
def Unnested (env : Env) (init : Bool) (callStack : List CsItem) : Op → Prop
  | .encrypt regs plt => StackVault.Accepts env regs → AllByValue plt ∧ NoWrap plt ∧ regs.userRbp.toNat + 1 < 2 ^ 64 ∧
      (segments plt regs.userRsp regs.userRbp).length ≤ 32 ∧ callStack = []
  | .decrypt regs => init = true ∧ (nameOf env regs).isSome
  | .write _ _ => True

section Versions
variable {π : Type} {env : Env} {mems : π → Mem} {N N' : StackVault.Logged π} {O O' : Logged π} {l : π × Op} {p : π}
  {regs : Regs} {plt : List Para}

/-- With no record, the check against the caller's frame refuses nothing. -/
theorem accepts_nil : Accepts env [] regs ↔ StackVault.Accepts env regs :=
  and_iff_left fun ⟨_, hc, _⟩ => by cases hc

/-- The earlier module returns from a call that is not nested. -/
theorem OneBuffer.returns [DecidableEq π] (h : OneBuffer env O) (halloc : env.AllocOk) (hsort : env.SortOk)
    (hload : O.load ≤ 32) (hu : Unnested env O.init O.callStack l.2) : ∃ M, LoggedStep env O l M := by
  suffices hstep : ∃ t, Step env (O.view l.1) l.2 t by
    obtain ⟨t, ht⟩ := hstep
    exact ⟨_, t, ht, rfl⟩
  obtain ⟨p, op⟩ := l
  cases op with
  | encrypt regs plt =>
    obtain ⟨g, q, b, hset, -, -, hcs, hptr, hf⟩ := h.ready halloc
    by_cases hacc : StackVault.Accepts env regs
    · obtain ⟨hv, hw, hb, -, hnil⟩ := hu hacc
      obtain ⟨name, hname⟩ := Option.isSome_iff_exists.mp hacc.1
      have hacc' : Accepts env (O.view p).callStack regs := by
        rw [show (O.view p).callStack = [] from hnil]
        exact accepts_nil.mpr hacc
      have hroom : g.callStack.length < 64 := by
        rw [hcs, hnil]
        decide
      obtain ⟨fuel, heap', p', b', hret, -⟩ := frame_returns regs.userRsp name (O.mems p) halloc hv hw hb hptr hf hroom
      exact ⟨_, fuel, _, (encrypt_accepted (s := O.view p) h.mapped hset hname hacc').trans hret, rfl⟩
    · have hrefused : ∃ ret, jsysEncryptStack env 0 regs plt (O.view p) =
          some (.ok { ret, paraList := plt, state := { g with mem := O.mems p } }) :=
        encrypt_refused h.mapped hset fun hacc' => hacc hacc'.1
      obtain ⟨ret, href⟩ := hrefused
      exact ⟨_, 0, _, href, rfl⟩
  | decrypt regs =>
    obtain ⟨hinit, hname⟩ := hu
    by_cases hcs : O.callStack = []
    · have hmapper : (O.view p).mapper = some env.exe := h.mapped.trans (by rw [hinit]; rfl)
      refine ⟨O.view p, -1, ?_⟩
      show jsysDecryptStack env regs (O.view p) = _
      unfold jsysDecryptStack
      rw [hmapper]
      dsimp only
      rw [show (O.view p).callStack = [] from hcs]
    · obtain ⟨heap', mem', -, -, hdec, -⟩ := h.decrypt hsort hinit hname hcs hload (O.mems p)
      exact ⟨_, 0, hdec⟩
  | write addr byte => exact ⟨_, rfl⟩

/-- The two modules, with at most one encrypt open. -/
structure Same (env : Env) (N : StackVault.Logged π) (O : Logged π) : Prop where
  vaulted : Vaulted env N
  one : OneBuffer env O
  mems : O.mems = N.mems
  init : O.init = N.init
  depth : O.callStack.length = O.held.length
  opens : List.Forall₂ (fun x k => x.2.region = k.region ∧ x.2.before = k.before) N.opens O.held
  single : N.opens.length ≤ 1
  load : O.load ≤ 32

namespace Same

theorem start : Same env (.start mems) (.start mems) :=
  ⟨.start, .start, rfl, rfl, rfl, .nil, Nat.zero_le 1, Nat.zero_le 32⟩

theorem no_record_iff (h : Same env N O) : O.callStack = [] ↔ N.callStack = [] := by
  rw [← List.length_eq_zero_iff, ← List.length_eq_zero_iff, h.depth, ← h.opens.length_eq, h.vaulted.records.length_eq]

theorem unnested_iff (h : Same env N O) {op : Op} :
    Unnested env O.init O.callStack op ↔ Unnested env N.init N.callStack op := by
  cases op with
  | encrypt regs plt =>
    unfold Unnested
    rw [h.no_record_iff]
  | decrypt regs =>
    unfold Unnested
    rw [h.init]
  | write addr byte => exact Iff.rfl

theorem byValueCall (h : Same env N O) (hu : Unnested env N.init N.callStack l.2) : StackVault.ByValueCall env N l := by
  obtain ⟨p, op⟩ := l
  cases op with
  | encrypt regs plt =>
    intro hacc
    obtain ⟨hv, hw, hb, hlen, hnil⟩ := hu hacc
    refine ⟨hv, hw, hb, hlen, ?_⟩
    rw [h.vaulted.none_open hnil]
    exact Nat.zero_lt_succ 15
  | decrypt regs => exact hu
  | write addr byte => trivial

theorem byValueCall_one (hu : Unnested env N.init N.callStack l.2) : ByValueCall env O l := by
  rintro regs plt hop hacc
  rw [hop] at hu
  obtain ⟨hv, hw, hb, -⟩ := hu hacc.1
  exact ⟨hv, hw, hb⟩

variable [DecidableEq π]

/-- What one operation has to keep. -/
theorem put (h : Same env N O) {t : StackVault.State} {t' : State}
    (hv : Vaulted env { N.put l.1 t with opens := N.log env l }) (ho : OneBuffer env (O.after env l t'))
    (hmem : t'.mem = t.mem) (hinit : t'.init = t.init) (hdepth : t'.callStack.length = (O.log env l).length)
    (hopens : List.Forall₂ (fun x k => x.2.region = k.region ∧ x.2.before = k.before) (N.log env l) (O.log env l))
    (hsingle : (N.log env l).length ≤ 1) (hload : ((O.log env l).map fun k => k.region.length).sum ≤ 32) :
    Same env { N.put l.1 t with opens := N.log env l } (O.after env l t') := by
  refine ⟨hv, ho, ?_, hinit, hdepth, hopens, hsingle, hload⟩
  show (fun q => if q = l.1 then t'.mem else O.mems q) = fun q => if q = l.1 then t.mem else N.mems q
  rw [hmem, h.mems]

theorem encrypt (h : Same env N O) (halloc : env.AllocOk) (hsort : env.SortOk)
    (hu : Unnested env N.init N.callStack (.encrypt regs plt))
    (hN : StackVault.LoggedStep env N (p, .encrypt regs plt) N') (hO : LoggedStep env O (p, .encrypt regs plt) O') :
    Same env N' O' := by
  have hvaulted := h.vaulted.step halloc (h.byValueCall hu) hN
  have hone := h.one.step halloc hsort (byValueCall_one hu) hO
  obtain ⟨t, ⟨fuel, e, he, rfl⟩, rfl⟩ := hN
  obtain ⟨t', ⟨fuel', e', he', rfl⟩, rfl⟩ := hO
  have hinit : e.state.init = true := (encrypt_mapped h.vaulted.mapped he).2
  have hview : O.mems p = N.mems p := congrFun h.mems p
  by_cases hacc : StackVault.Accepts env regs
  · obtain ⟨hv, hw, hb, hlen, hnil⟩ := hu hacc
    have hopens : N.opens = [] := h.vaulted.none_open hnil
    have hcs : O.callStack = [] := h.no_record_iff.mpr hnil
    have hacc' : Accepts env O.callStack regs := by
      rw [hcs]
      exact accepts_nil.mpr hacc
    have hlog : N.log env (p, .encrypt regs plt) = [(p, ⟨regs, plt, N.mems p, N.sbufStackTop⟩)] :=
      (if_pos hacc).trans (congrArg _ hopens)
    have hlog' : O.log env (p, .encrypt regs plt) = [⟨regs, plt, O.mems p⟩] :=
      (if_pos hacc').trans (congrArg _ (h.one.held_nil hcs))
    obtain ⟨name, p', b', hrec, hinit', -, -, -, hmem'⟩ := h.one.encrypt halloc hacc' hv hw hb he'
    have hmem := (Buffers.encrypt h.vaulted.buffers h.vaulted.fits h.vaulted.mapped halloc hacc hw hb hlen he).2 hv
    refine h.put hvaulted hone ?_ (hinit'.trans hinit.symm) ?_ ?_ ?_ ?_
    · rw [hmem', hview]
      exact hmem.symm
    · rw [hrec, hcs, hlog']
      rfl
    · rw [hlog, hlog']
      exact .cons ⟨rfl, hview.symm⟩ .nil
    · rw [hlog]
      exact Nat.le_refl 1
    · rw [hlog']
      simpa [Held.region] using hlen
  · have hacc' : ¬Accepts env O.callStack regs := fun hacc' => hacc hacc'.1
    have hlog : N.log env (p, .encrypt regs plt) = N.opens := if_neg hacc
    have hlog' : O.log env (p, .encrypt regs plt) = O.held := if_neg hacc'
    obtain ⟨hcs, hinit', -, hmem', -⟩ := h.one.refused halloc hacc' he'
    rcases encrypt_stacks h.vaulted.mapped he with ⟨-, hmem, -⟩ | ⟨_, -, hacc'', -⟩
    · refine h.put hvaulted hone ?_ (hinit'.trans hinit.symm) ?_ ?_ ?_ ?_
      · rw [hmem', hview]
        exact hmem.symm
      · rw [hcs, hlog', h.depth]
      · rw [hlog, hlog']
        exact h.opens
      · rw [hlog]
        exact h.single
      · rw [hlog']
        exact h.load
    · exact absurd hacc'' hacc

theorem decrypt (h : Same env N O) (halloc : env.AllocOk) (hsort : env.SortOk)
    (hu : Unnested env N.init N.callStack (.decrypt regs)) (hN : StackVault.LoggedStep env N (p, .decrypt regs) N')
    (hO : LoggedStep env O (p, .decrypt regs) O') : Same env N' O' := by
  have hvaulted := h.vaulted.step halloc (h.byValueCall hu) hN
  have hone := h.one.step halloc hsort (byValueCall_one hu) hO
  obtain ⟨hinit, hname⟩ := hu
  cases hopen : N.opens with
  | nil =>
    have hcs : O.callStack = [] := h.no_record_iff.mpr (h.vaulted.no_record hopen)
    rw [h.vaulted.decrypt_none hopen hN, h.one.decrypt_idle hcs hO]
    exact h
  | cons x xs =>
    have hsingle := h.single
    rw [hopen] at hsingle
    obtain rfl : xs = [] := List.length_eq_zero_iff.mp (Nat.le_zero.mp (Nat.le_of_succ_le_succ hsingle))
    have hboth := h.opens
    rw [hopen] at hboth
    obtain ⟨k, ks, ⟨hregion, hbefore⟩, hnil, hheld⟩ := List.forall₂_cons_left_iff.mp hboth
    obtain rfl : ks = [] := List.forall₂_nil_left_iff.mp hnil
    have hcs : O.callStack ≠ [] := fun hcs => by
      have hnone := h.vaulted.none_open (h.no_record_iff.mp hcs)
      rw [hopen] at hnone
      cases hnone
    obtain ⟨heap, c, rest, -, hdec⟩ := h.vaulted.undo hsort hinit hname hopen (N.mems p)
    obtain ⟨heap', mem', q, b', hdec', -, -, hback, hrest⟩ :=
      h.one.decrypt hsort (h.init.trans hinit) hname hcs h.load (O.mems p)
    obtain ⟨t, ⟨ret, ht⟩, rfl⟩ := hN
    obtain ⟨t', ⟨ret', ht'⟩, rfl⟩ := hO
    cases ht.symm.trans hdec
    cases ht'.symm.trans hdec'
    refine h.put hvaulted hone ?_ h.init ?_ ?_ ?_ (Nat.zero_le 32)
    · funext a
      dsimp only
      by_cases ha : Covers x.2.region a
      · rw [if_pos ha, hbefore]
        exact hback k (hheld ▸ List.mem_singleton_self k) a (hregion ▸ ha)
      · rw [if_neg ha, ← h.mems]
        refine hrest a fun k' hk' => ?_
        rw [hheld, List.mem_singleton] at hk'
        rw [hk', ← hregion]
        exact ha
    · have hdepth := h.depth
      rw [hheld] at hdepth
      rw [List.length_tail, hdepth]
      rfl
    · rw [show N.log env (p, .decrypt regs) = N.opens.tail from rfl, hopen]
      exact .nil
    · rw [show N.log env (p, .decrypt regs) = N.opens.tail from rfl, hopen]
      exact Nat.zero_le 1

/-- One step of the two modules. -/
theorem step (h : Same env N O) (halloc : env.AllocOk) (hsort : env.SortOk) (hu : Unnested env N.init N.callStack l.2)
    (hN : StackVault.LoggedStep env N l N') (hO : LoggedStep env O l O') : Same env N' O' := by
  obtain ⟨p, op⟩ := l
  cases op with
  | encrypt regs plt => exact h.encrypt halloc hsort hu hN hO
  | decrypt regs => exact h.decrypt halloc hsort hu hN hO
  | write addr byte =>
    have hvaulted := h.vaulted.step halloc (h.byValueCall hu) hN
    have hone := h.one.step halloc hsort (byValueCall_one hu) hO
    obtain ⟨t, rfl, rfl⟩ := hN
    obtain ⟨t', rfl, rfl⟩ := hO
    exact h.put hvaulted hone (by simp only [Logged.view, System.view, h.mems]) h.init h.depth h.opens h.single h.load

end Same

/-- While each encrypt is decrypted before the next one, the two modules have the same runs: the same operations with
    the same memories before each of them and at the end. -/
theorem versions_agree [DecidableEq π] (halloc : env.AllocOk) (hsort : env.SortOk) (steps : List ((π → Mem) × (π × Op)))
    (last : π → Mem) :
    (∃ tr N, Run (StackVault.LoggedStep env) (.start mems) tr N ∧
      Meets (fun N l => Unnested env N.init N.callStack l.2) tr ∧
      tr.map (fun e => (e.1.mems, e.2)) = steps ∧ N.mems = last) ↔
    ∃ tr O, Run (LoggedStep env) (.start mems) tr O ∧ Meets (fun O l => Unnested env O.init O.callStack l.2) tr ∧
      tr.map (fun e => (e.1.mems, e.2)) = steps ∧ O.mems = last := by
  have hnew : ∀ N l N' O, Same env N O → Unnested env N.init N.callStack l.2 → StackVault.LoggedStep env N l N' →
      Unnested env O.init O.callStack l.2 ∧ ∃ O', LoggedStep env O l O' ∧ Same (π := π) env N' O' :=
      fun N l N' O h hu hs => by
    have hu' := h.unnested_iff.mpr hu
    obtain ⟨O', hs'⟩ := h.one.returns halloc hsort h.load hu'
    exact ⟨hu', O', hs', h.step halloc hsort hu hs hs'⟩
  have hold : ∀ O l O' N, Same env N O → Unnested env O.init O.callStack l.2 → LoggedStep env O l O' →
      Unnested env N.init N.callStack l.2 ∧ ∃ N', StackVault.LoggedStep env N l N' ∧ Same (π := π) env N' O' :=
      fun O l O' N h hu hs => by
    have hu' := h.unnested_iff.mp hu
    obtain ⟨N', hs'⟩ := h.vaulted.returns halloc hsort (h.byValueCall hu')
    exact ⟨hu', N', hs', h.step halloc hsort hu' hs' hs⟩
  constructor
  · rintro ⟨tr, N, hr, hu, rfl, rfl⟩
    obtain ⟨tr', O, hr', hu', hsame, hend⟩ :=
      hr.lockstep (fun N => N.mems) (fun O => O.mems) Same.start (fun _ _ h => h.mems) hnew hu
    exact ⟨tr', O, hr', hu', hsame, hend.mems⟩
  · rintro ⟨tr, O, hr, hu, rfl, rfl⟩
    obtain ⟨tr', N, hr', hu', hsame, hend⟩ :=
      hr.lockstep (R := fun O N => Same env N O) (fun O => O.mems) (fun N => N.mems) Same.start
        (fun _ _ h => h.mems.symm) hold hu
    exact ⟨tr', N, hr', hu', hsame, hend.mems.symm⟩

end Versions

/-- A frame that is encrypted and decrypted again. -/
theorem versions_agree_framed : ∃ tr O, Run (LoggedStep Env.sample) (.start fun _ : Unit => fun _ => 0x41) tr O ∧
    tr.map Prod.snd = [((), framed), ((), .decrypt (.frame 0x1010 0x4000 0x4010))] ∧
    (∀ e ∈ tr.getLast?, e.1.mems () 0x4000 = 0x30) ∧ O.mems () 0x4000 = 0x41 := by
  have hexec : ∃ N M, StackVault.Logged.exec Env.sample 20 (.start fun _ : Unit => fun _ => 0x41) ((), framed) =
      some N ∧
      StackVault.Logged.exec Env.sample 20 N ((), .decrypt (.frame 0x1010 0x4000 0x4010)) = some M ∧ N.init = true ∧
      N.mems () 0x4000 = 0x30 ∧ M.mems () 0x4000 = 0x41 := ⟨_, _, rfl, rfl, rfl, rfl, rfl⟩
  obtain ⟨N, M, hN, hM, hinit, hcleared, hback⟩ := hexec
  have hbyValue := framed_byValue (L := .start fun _ : Unit => fun _ => 0x41) (by decide) ()
  have hframed : Unnested Env.sample false [] framed := fun hacc => by
    obtain ⟨hv, hw, hb, hlen, -⟩ := hbyValue hacc
    exact ⟨hv, hw, hb, hlen, rfl⟩
  have hr := (Run.nil.snoc (StackVault.Logged.step_of_exec hN)).snoc (StackVault.Logged.step_of_exec hM)
  obtain ⟨tr, O, hr, -, hsame, hlast⟩ := (versions_agree Env.sample_allocOk Env.sample_sortOk _ _).mp
    ⟨_, M, hr, meets_snoc.mpr ⟨meets_snoc.mpr ⟨meets_nil, hframed⟩, show Unnested _ _ _ (.decrypt _) from
      ⟨hinit, by decide⟩⟩, rfl, rfl⟩
  refine ⟨tr, O, hr, ?_, fun e he => ?_, by rw [hlast, hback]⟩
  · have hlabels := congrArg (List.map Prod.snd) hsame
    rwa [List.map_map] at hlabels
  · have hfinal := congrArg List.getLast? hsame
    rw [List.getLast?_map, Option.mem_def.mp he] at hfinal
    rw [show e.1.mems = N.mems from congrArg Prod.fst (Option.some.inj hfinal), hcleared]

end StackVault.Bkp
