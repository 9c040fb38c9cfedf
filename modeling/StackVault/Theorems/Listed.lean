import StackVault.Theorems.Nesting

/-! Nested calls with their lists in memory. A call that spares its list is the call with the list as a value, and
    then writes of its process to the depths in the list; so a run of such calls is a run of calls with lists as
    values and of writes, and what holds along those runs holds here. -/

namespace StackVault
open Memory Transition Twofold

/-- The addresses of the depths of the list at `arg`. -/
def depthAddrs (arg : Addr) (m : Mem) : List Addr :=
  (List.range (sizeAt m arg)).flatMap fun i =>
    (List.range 4).map fun k => entryAddr (plistAt m arg) i + 16 + BitVec.ofNat 64 k

theorem mem_depthAddrs {arg x : Addr} {m : Mem} (h : Covers (depthSpans arg m) x) : x ∈ depthAddrs arg m := by
  obtain ⟨i, hi, hx⟩ := mem_depthSpans.mp h
  refine List.mem_flatMap.mpr ⟨i, List.mem_range.mpr hi,
    List.mem_map.mpr ⟨_, List.mem_range.mpr (BitVec.lt_def.mp hx), ?_⟩⟩
  rw [BitVec.ofNat_toNat, BitVec.setWidth_eq]
  exact add_sub_cancel _ _

section Writes
variable {π : Type} [DecidableEq π] {env : Env} {fuel : Nat} {L M : Logged π} {p : π} {regs : Regs} {arg : Addr}
  {m : Mem} {e : Encrypted} {e' : User.Encrypted}

/-- The system with the memory of process `p` put in. -/
def Logged.setMem (L : Logged π) (p : π) (m : Mem) : Logged π :=
  { L with mems := fun q => if q = p then m else L.mems q }

theorem Logged.setMem_same (hm : L.mems p = m) : L.setMem p m = L := by
  refine congrArg (fun mems => ({ L with mems } : Logged π)) (funext fun q => ?_)
  by_cases hq : q = p
  · rw [if_pos hq, hq, hm]
  · rw [if_neg hq]

theorem write_step (env : Env) (L : Logged π) (p : π) (m : Mem) (x : Addr) (b : Byte) :
    LoggedStep env (L.setMem p m) (p, .write x b) (L.setMem p fun y => if y = x then b else m y) := by
  refine ⟨_, rfl, congrArg (fun mems => ({ L with mems } : Logged π)) (funext fun q => ?_)⟩
  by_cases hq : q = p
  · rw [if_pos hq, if_pos hq]
    exact funext fun y => by simp [System.view, Logged.setMem]
  · rw [if_neg hq, if_neg hq]
    exact (if_neg hq).symm

/-- A process writes the bytes of `f` to some addresses, one by one. -/
theorem run_writes (env : Env) (L : Logged π) (p : π) (f : Mem) (xs : List Addr) :
    ∃ tr, Run (LoggedStep env) L tr (L.setMem p fun x => if x ∈ xs then f x else L.mems p x) ∧
      ∀ P : Logged π → π × Op → Prop, (∀ K x b, P K (p, .write x b)) → Meets P tr := by
  induction xs using List.reverseRecOn with
  | nil =>
    refine ⟨[], ?_, fun _ _ => meets_nil⟩
    rw [Logged.setMem_same (funext fun x => (if_neg List.not_mem_nil).symm)]
    exact .nil
  | append_singleton xs x ih =>
    obtain ⟨tr, hr, hmeets⟩ := ih
    have hmem : (fun y => if y ∈ xs ++ [x] then f y else L.mems p y) =
        fun y => if y = x then f x else if y ∈ xs then f y else L.mems p y := by
      funext y
      by_cases hy : y = x <;> simp [hy]
    rw [hmem]
    exact ⟨_, hr.snoc (write_step env L p _ x (f x)), fun P hP => meets_snoc.mpr ⟨hmeets P hP, hP _ _ _⟩⟩

/-- A call that follows the one with the list as a value is that call, and then writes to the depths. -/
theorem InMemory.run (he : jsysEncryptStack env fuel regs (listAt arg (L.mems p)) (L.view p) = some (.ok e))
    (hf : InMemory arg (L.mems p) e e') :
    ∃ tr, Run (LoggedStep env) L tr
        { L.put p e'.state with opens := L.log env (p, .encrypt regs (listAt arg (L.mems p))) } ∧
      ∀ P : Logged π → π × Op → Prop, P L (p, .encrypt regs (listAt arg (L.mems p))) → (∀ K x b, P K (p, .write x b)) →
        Meets P tr := by
  have hs : LoggedStep env L (p, .encrypt regs (listAt arg (L.mems p)))
      { L.put p e.state with opens := L.log env (p, .encrypt regs (listAt arg (L.mems p))) } :=
      ⟨_, ⟨fuel, e, he, rfl⟩, rfl⟩
  generalize hM : ({ L.put p e.state with opens := L.log env (p, .encrypt regs (listAt arg (L.mems p))) } : Logged π) =
  M at hs
  obtain ⟨tr, hr, hmeets⟩ := run_writes env M p e'.state.mem (depthAddrs arg (L.mems p))
  refine ⟨_, ?_, fun P hP hwrite => meets_append.mpr ⟨meets_snoc.mpr ⟨meets_nil, hP⟩, hmeets P hwrite⟩⟩
  have hmem : (fun x => if x ∈ depthAddrs arg (L.mems p) then e'.state.mem x else M.mems p x) = e'.state.mem := by
    funext x
    by_cases hx : x ∈ depthAddrs arg (L.mems p)
    · exact if_pos hx
    · rw [if_neg hx, hf.off x (mt mem_depthAddrs hx), ← hM]
      exact congrFun (if_pos rfl) x
  have hstate : M.setMem p e'.state.mem =
      { L.put p e'.state with opens := L.log env (p, .encrypt regs (listAt arg (L.mems p))) } := by
    rw [← hM, System.put, System.put, hf.globals]
    refine congrArg (fun mems => ({ e.state.toGlobals with mems, opens := _ } : Logged π)) (funext fun q => ?_)
    by_cases hq : q = p
    · rw [if_pos hq, if_pos hq]
    · rw [if_neg hq, if_neg hq]
      exact if_neg hq
  rw [hmem, hstate] at hr
  exact (Run.nil.snoc hs).append hr

end Writes

/-! ### One call -/

section Calls
variable {π : Type} {env : Env} {fuel : Nat} {L M : Logged π} {p : π} {l : π × User.Op} {regs : Regs} {arg x : Addr}
  {plt : List Para} {s : State} {e' : User.Encrypted}

variable (plt) in
/-- A call that is refused does not look at its list. -/
theorem User.encrypt_refused (hm : s.Mapped env) (hna : ¬Accepts env regs)
    (he : User.jsysEncryptStack env fuel regs arg s = some (.ok e')) :
    ∃ e, StackVault.jsysEncryptStack env fuel regs plt s = some (.ok e) ∧ e.state = e'.state := by
  unfold User.jsysEncryptStack at he
  unfold StackVault.jsysEncryptStack
  cases hset : setup env s.toGlobals with
  | error f =>
    rw [hset] at he
    cases he
  | ok g =>
    rw [hset] at he
    simp only [setup_mapper hset hm] at he ⊢
    cases hn : getFuncName env.exe regs.ip with
    | none =>
      rw [hn] at he
      cases he
      exact ⟨_, rfl, rfl⟩
    | some name =>
      rw [hn] at he
      have hlt : regs.userRbp < regs.userRsp := by
        by_contra hle
        exact hna ⟨by rw [nameOf, hn]; rfl, BitVec.not_lt.mp hle⟩
      dsimp only at he ⊢
      rw [if_pos hlt] at he ⊢
      cases he
      exact ⟨_, rfl, rfl⟩

/-- What is asked of a call with its list in memory: what is asked of it with the list as a value, and that the head of
    the list is not among its depths and no segment has a byte of it. -/
def User.NestedCall (env : Env) (L : Logged π) (l : π × User.Op) : Prop :=
  StackVault.NestedCall env L (l.1, l.2.withList (L.mems l.1)) ∧ ∀ regs arg, l.2 = .encrypt regs arg →
    Accepts env regs →
    Formed arg (L.mems l.1) ∧ Spares arg (L.mems l.1) (segments (listAt arg (L.mems l.1)) regs.userRsp regs.userRbp)

theorem encrypt_byValue_list {e : Encrypted} (hm : s.Mapped env) (hv : AllByValue plt)
    (he : jsysEncryptStack env fuel regs plt s = some (.ok e)) : e.paraList = plt := by
  obtain ⟨g, -, ⟨-, -, hlist, -⟩ | ⟨name, -, -, hframe⟩⟩ := encrypt_cases hm he
  · exact hlist
  · obtain ⟨-, v, ret, c, -, -, hrp, -⟩ := encryptFrame_inv hframe
    rw [restorePointers_byValue hv] at hrp
    cases hrp
    rfl

/-- An accepted encrypt with its list in memory returns, and follows the one with the list as a value. -/
theorem Undoing.encryptAt (h : Undoing env L) (halloc : env.AllocOk) (hsort : env.SortOk) (hacc : Accepts env regs)
    (hc : User.NestedCall env L (p, .encrypt regs arg)) :
    (∃ fuel e', User.jsysEncryptStack env fuel regs arg (L.view p) = some (.ok e')) ∧
      ∀ fuel e', User.jsysEncryptStack env fuel regs arg (L.view p) = some (.ok e') →
        ∃ fuel e, jsysEncryptStack env fuel regs (listAt arg (L.mems p)) (L.view p) = some (.ok e) ∧
          AllByValue e.paraList ∧ InMemory arg (L.mems p) e e' := by
  obtain ⟨hcall, hlist⟩ := hc
  obtain ⟨hform, hspares⟩ := hlist regs arg rfl hacc
  obtain ⟨hroom, hb, hkind⟩ := hcall hacc
  have hbound := hcall.bounded regs _ rfl hacc
  have htop : L.sbufStackTop < 16 := h.length ▸ hroom
  have hcs : L.callStackTop < 64 := Nat.lt_of_lt_of_le (h.depth ▸ htop) (by decide)
  obtain ⟨g, name, q, b, hready⟩ := h.buffers.ready h.fits h.mapped halloc hacc hcs htop
  have hlog : ∀ fuel v p' b', scan env (listAt arg (L.mems p)) regs.userRbp fuel
      (.start regs.userRsp (g.scanFrom hready.top (L.mems p))) = some (.ok v) → v.stackBuf = some p' →
      v.heap.sbufs p' = some b' → (callTrail p' b' (listAt arg (L.mems p))).Logs (Clear arg (L.mems p)) := by
    intro fuel v p' b' hscan hptr hlive
    rcases hkind with ⟨hv, -, -⟩ | ⟨hmix, hsep, -, -⟩
    · rw [callTrail, pointersTrail_byValue hv]
      exact fun r hr => absurd hr List.not_mem_nil
    · exact hready.clear_mixed halloc hmix hb hsep hspares hscan hptr hlive
  have hvalue : ∀ fuel e, jsysEncryptStack env fuel regs (listAt arg (L.mems p)) (L.view p) = some (.ok e) →
      AllByValue e.paraList := by
    intro fuel e he
    rcases hkind with ⟨hv, -, -⟩ | ⟨hmix, hsep, -, -⟩
    · rwa [encrypt_byValue_list (s := L.view p) h.mapped hv he]
    · obtain ⟨e₀, -, -, -, hpara, -, huniq⟩ := hready.punched halloc h.mapped hmix hb hsep
      obtain rfl : e = e₀ := Except.ok.inj (huniq fuel _ he)
      rw [hpara]
      intro q hq
      obtain ⟨q', -, rfl⟩ := List.mem_map.mp hq
      rfl
  obtain ⟨⟨fuel₀, e, he⟩, -⟩ := h.encrypt halloc hsort hacc hcall
  obtain ⟨r, -, huniq, ⟨fuel, r', hr'⟩, hends⟩ := hready.follows halloc h.mapped hacc hbound.1 hb hform hspares hlog
  obtain rfl : .ok e = r := huniq fuel₀ _ he
  refine ⟨?_, fun fuel' e' he' => ?_⟩
  · obtain ⟨e', rfl, -⟩ := (hends fuel r' hr').of_ok
    exact ⟨fuel, e', hr'⟩
  · obtain ⟨e'', heq, hf⟩ := (hends fuel' _ he').of_ok
    cases heq
    exact ⟨fuel₀, e, he, hvalue fuel₀ e he, hf⟩

end Calls

/-! ### Runs -/

section Runs
variable {π : Type} [DecidableEq π] {env : Env} {mems : π → Mem} {L M N : Logged π} {p : π} {l : π × User.Op}
  {regs : Regs} {arg : Addr} {tr : List (Logged π × (π × User.Op))}

/-- A step with lists in memory is a run of steps with lists as values: the same operation, and then writes. -/
theorem User.LoggedStep.run (h : Undoing env L) (halloc : env.AllocOk) (hsort : env.SortOk)
    (hc : User.NestedCall env L l) (hs : User.LoggedStep env L l M) : ∃ tr, Run (StackVault.LoggedStep env) L tr M ∧
      ∀ P : Logged π → π × StackVault.Op → Prop, P L (l.1, l.2.withList (L.mems l.1)) →
        (∀ K x b, P K (l.1, .write x b)) →
        Meets P tr := by
  obtain ⟨p, op⟩ := l
  obtain ⟨t, ht, rfl⟩ := hs
  have single : ∀ (l' : π × StackVault.Op) {K : Logged π}, StackVault.LoggedStep env L l' K →
      ∃ tr, Run (StackVault.LoggedStep env) L tr K ∧ ∀ P : Logged π → π × StackVault.Op → Prop, P L l' →
        (∀ K x b, P K (p, .write x b)) → Meets P tr := fun _ _ hs =>
    ⟨_, Run.nil.snoc hs, fun P hP _ => meets_snoc.mpr ⟨meets_nil, hP⟩⟩
  cases op with
  | encrypt regs arg =>
    obtain ⟨fuel, e', he', rfl⟩ := ht
    by_cases hacc : Accepts env regs
    · obtain ⟨fuel₀, e, he, -, hf⟩ := (h.encryptAt halloc hsort hacc hc).2 fuel e' he'
      exact hf.run he
    · obtain ⟨e, he, hstate⟩ := User.encrypt_refused (listAt arg (L.mems p)) h.mapped hacc he'
      exact single (p, .encrypt regs (listAt arg (L.mems p))) ⟨e'.state, ⟨fuel, e, he, hstate⟩, rfl⟩
  | decrypt regs => exact single (p, .decrypt regs) ⟨t, ht, rfl⟩
  | write addr byte => exact single (p, .write addr byte) ⟨t, ht, rfl⟩

/-- So a run with lists in memory is a run with lists as values, and what is asked of its steps holds of those. -/
theorem Undoing.listed {P : Logged π → π × Op → Prop} (h : Undoing env L) (halloc : env.AllocOk) (hsort : env.SortOk)
    (hr : Run (User.LoggedStep env) L tr M) (hc : Meets (User.NestedCall env) tr)
    (hP : Meets (fun K l => P K (l.1, l.2.withList (K.mems l.1))) tr) (hwrite : ∀ K p x b, P K (p, .write x b)) :
    Undoing env M ∧ ∃ tr', Run (LoggedStep env) L tr' M ∧ Meets (NestedCall env) tr' ∧ Meets P tr' := by
  obtain ⟨hM, tr', hr', hm⟩ : Undoing env M ∧ ∃ tr', Run (LoggedStep env) L tr' M ∧
      Meets (fun K l => NestedCall env K l ∧ P K l) tr' :=
    Run.refine (P := fun K l => User.NestedCall env K l ∧ P K (l.1, l.2.withList (K.mems l.1))) (I := Undoing env) h
    (fun K l K' hK hl hs => by
      obtain ⟨tr', hr', hmeets⟩ := User.LoggedStep.run hK halloc hsort hl.1 hs
      have hall := hmeets (fun K l => NestedCall env K l ∧ P K l) ⟨hl.1.1, hl.2⟩ fun K x b => ⟨trivial, hwrite K _ x b⟩
      exact ⟨hr'.invariant hK (fun _ _ _ hi hc hs => hi.step halloc hsort hc.1 hs) hall, tr', hr', hall⟩)
    hr fun e he => ⟨hc e he, hP e he⟩
  exact ⟨hM, tr', hr', hm.imp fun _ _ h => h.1, hm.imp fun _ _ h => h.2⟩

theorem Undoing.of_listed (halloc : env.AllocOk) (hsort : env.SortOk)
    (hr : Run (User.LoggedStep env) (.start mems) tr L) (hc : Meets (User.NestedCall env) tr) : Undoing env L :=
  (Undoing.start.listed (P := fun _ _ => True) halloc hsort hr hc (fun _ _ => trivial) fun _ _ _ _ => trivial).1

/-- An accepted encrypt is open afterwards, on top of the others, and has cleared what it takes. The depths of its list
    are 0. -/
theorem Undoing.encryptedAt (h : Undoing env L) (halloc : env.AllocOk) (hsort : env.SortOk) (hacc : Accepts env regs)
    (hc : User.NestedCall env L (p, .encrypt regs arg)) (hs : User.LoggedStep env L (p, .encrypt regs arg) M) :
    Undoing env M ∧ (∃ c, M.callStack = c :: L.callStack) ∧ M.sbufStackTop = L.sbufStackTop + 1 ∧
      M.opens = (p, { regs, paraList := listAt arg (L.mems p), before := L.mems p, slot := L.sbufStackTop }) ::
      L.opens ∧
      (∀ x, M.mems p x = if Covers (depthSpans arg (L.mems p)) x then 0
        else if Takes (L.mems p) regs (listAt arg (L.mems p)) x then 0x30 else L.mems p x) ∧
      ∀ q, q ≠ p → M.mems q = L.mems q := by
  have hM : Undoing env M :=
    (h.listed (P := fun _ _ => True) halloc hsort (Run.nil.snoc hs) (meets_snoc.mpr ⟨meets_nil, hc⟩)
      (fun _ _ => trivial)
      fun _ _ _ _ => trivial).1
  obtain ⟨t, ⟨fuel, e', he', rfl⟩, rfl⟩ := hs
  obtain ⟨fuel₀, e, he, hv, hf⟩ := (h.encryptAt halloc hsort hacc hc).2 fuel e' he'
  have hlog : L.log env (p, .encrypt regs (listAt arg (L.mems p))) = _ := if_pos hacc
  have hopen : (if Accepts env regs then _ else L.opens) = _ := hlog
  rcases encrypt_stacks (s := L.view p) h.mapped he with ⟨hna, -⟩ | ⟨name, -, -, -, -, hcs, htop⟩
  · exact absurd hacc hna
  rw [← hf.globals] at hcs htop
  refine ⟨hM, ⟨_, hcs⟩, htop, hlog, fun x => ?_, fun q hq => if_neg hq⟩
  show (if p = p then e'.state.mem else L.mems p) x = _
  rw [if_pos rfl]
  by_cases hx : Covers (depthSpans arg (L.mems p)) x
  · rw [if_pos hx, hf.depths hv hx]
  · rw [if_neg hx, hf.off x hx]
    exact ((h.encrypt halloc hsort hacc hc.1).2 fuel₀ e he).1 x

/-- Frames are protected across nested calls. After any run, an encrypt clears the bytes that it takes, counts the
    depths of its list down to 0 and changes no other byte. Whatever runs then, from any process, and leaves the stacks
    as deep as it found them: a decrypt gives back the bytes taken, and leaves every other byte as the callees left
    it. -/
theorem frame_protected (halloc : env.AllocOk) (hsort : env.SortOk) (hr : Run (User.LoggedStep env) (.start mems) tr L)
    (hc : Meets (User.NestedCall env) tr) (hacc : Accepts env regs)
    (hcall : User.NestedCall env L (p, .encrypt regs arg)) :
    (∃ M, User.LoggedStep env L (p, .encrypt regs arg) M) ∧ ∀ M, User.LoggedStep env L (p, .encrypt regs arg) M →
      (∀ x, M.mems p x = if Covers (depthSpans arg (L.mems p)) x then 0
        else if Takes (L.mems p) regs (listAt arg (L.mems p)) x then 0x30 else L.mems p x) ∧
      ∀ tr' N, Run (User.LoggedStep env) M tr' N → Meets (User.NestedCall env) tr' →
        Meets (fun K l => Above (L.sbufStackTop + 1) K (l.1, l.2.withList (K.mems l.1))) tr' →
        N.sbufStackTop = L.sbufStackTop + 1 → ∀ q regs', (nameOf env regs').isSome →
          (∃ K, User.LoggedStep env N (q, .decrypt regs') K) ∧ ∀ K, User.LoggedStep env N (q, .decrypt regs') K →
            (∀ x, K.mems q x = if Takes (L.mems p) regs (listAt arg (L.mems p)) x then L.mems p x else N.mems q x) ∧
            (∀ r, r ≠ q → K.mems r = N.mems r) ∧ K.callStack = L.callStack ∧ K.sbufStackTop = L.sbufStackTop := by
  have h := Undoing.of_listed halloc hsort hr hc
  obtain ⟨⟨fuel, e, he⟩, -⟩ := h.encryptAt halloc hsort hacc hcall
  refine ⟨⟨_, e.state, ⟨fuel, e, he, rfl⟩, rfl⟩, fun M hs => ?_⟩
  obtain ⟨hM, ⟨c, hcs⟩, htopM, hopen, hmem, -⟩ := h.encryptedAt halloc hsort hacc hcall hs
  refine ⟨hmem, fun tr' N hrun hcalls habove htop q regs' hname => ?_⟩
  obtain ⟨-, tr'', hrun', hcalls', habove'⟩ :=
    hM.listed (P := Above (L.sbufStackTop + 1)) halloc hsort hrun hcalls habove
      fun _ _ _ _ _ h => by cases h
  obtain ⟨hN, hopens, hrecords⟩ := hM.above halloc hsort hrun' hcalls' (htopM ▸ habove')
  have hopenN : N.opens = M.opens := (hopens.eq_of_length (by rw [hM.length, hN.length, htopM, htop])).symm
  have hcsN : N.callStack = M.callStack := (hrecords.eq_of_length (by rw [hM.depth, hN.depth, htopM, htop])).symm
  rw [hopen] at hopenN
  rw [hcs] at hcsN
  obtain ⟨hex, hall⟩ := hN.decrypt_some (p := q) (hN.init_eq hcsN) hname hopenN
  have hstep : ∀ K, User.LoggedStep env N (q, .decrypt regs') K ↔ LoggedStep env N (q, .decrypt regs') K :=
    fun _ => Iff.rfl
  simp only [hstep]
  refine ⟨hex, fun K hK => ?_⟩
  obtain ⟨hback, hothers, hcsK, htopK⟩ := hall K hK
  exact ⟨hback, hothers, by rw [hcsK, hcsN]; rfl, by rw [htopK, htop]; rfl⟩

end Runs

/-! ### A call in a call -/

/-- The list `pointedFirst` at `0x9000`, and an empty one at `0x9100` for the callee. -/
def nestedMem : Mem := putList 0x9100 0x9200 [] (listed pointedFirst)

theorem nested_same : SameList 0x9000 (listed pointedFirst) nestedMem := fun x hx => by
  refine putList_of_not_mem fun hhead => ?_
  have hbeside : ∀ r ∈ listSpans 0x9000 (listed pointedFirst), ∀ s ∈ [(⟨0x9100, 16⟩ : Span)], r.Beside s := by
    rw [listSpans_first]
    decide
  exact not_covers_of_beside hbeside hx ⟨_, List.mem_singleton_self _, hhead⟩

theorem listAt_nested : listAt 0x9000 nestedMem = pointedFirst := nested_same.listAt.trans listAt_first

theorem depthSpans_nested : depthSpans 0x9000 nestedMem = [⟨0x9020, 4⟩, ⟨0x9038, 4⟩] :=
  nested_same.depthSpans.trans depthSpans_first

theorem exposed_nested : exposed nestedMem (listAt 0x9000 nestedMem) = [⟨0x4008, 8⟩, ⟨0x4010, 4⟩] := by
  rw [listAt_nested]
  decide

theorem nested_mixed : Mixed nestedMem 0x4000 0x4020 (listAt 0x9000 nestedMem) :=
  Mixed.of_ranges [⟨0x4018, 4⟩, ⟨0x4008, 8⟩, ⟨0x4010, 4⟩] [⟨0x4008, 8⟩, ⟨0x4010, 4⟩] [⟨0x4000, 0x18⟩, ⟨0x401c, 4⟩]
    (by rw [exposed_nested, listAt_nested]; decide) exposed_nested (by rw [listAt_nested]; decide) (by decide)
    (by decide) (by decide) (by decide) (by decide)

/-- The call with the pointer in its first segment, from the module just loaded. -/
theorem nested_outer : User.NestedCall Env.sample (.start fun _ : Unit => nestedMem)
    ((), .encrypt (.frame 0x1010 0x4000 0x4020) 0x9000) := by
  obtain ⟨-, -, -, -, -, hsep⟩ := sample_ready nestedMem
  have hfirst : ∀ s, (segments (listAt 0x9000 nestedMem) 0x4000 0x4020).head? = some s → s = ⟨0x4000, 0x18⟩ :=
    fun s hs => by
      rw [listAt_nested] at hs
      exact (Option.some.inj hs).symm
  refine ⟨fun _ => ⟨Nat.zero_lt_succ 15, by decide, Or.inr ⟨nested_mixed, hsep _ nested_mixed.noWrap nested_mixed.few,
    fun s hs => ?_, fun s hs => ?_⟩⟩, ?_⟩
  · show ∀ r ∈ exposed nestedMem (listAt 0x9000 nestedMem), _
    rw [hfirst s hs, exposed_nested]
    decide
  · show List.Pairwise _ (Env.sample.listSort cmp (List.map _ (exposed nestedMem (listAt 0x9000 nestedMem))))
    rw [hfirst s hs, exposed_nested]
    decide
  · rintro regs arg hop -
    cases hop
    refine ⟨Formed.of_beside ?_, Spares.of_beside ?_⟩
    · show ∀ r ∈ _, ∀ s ∈ depthSpans 0x9000 nestedMem, _
      rw [depthSpans_nested]
      decide
    · show ∀ r ∈ listSpans 0x9000 nestedMem, ∀ s ∈ segments (listAt 0x9000 nestedMem) _ _, _
      rw [nested_same.spans, listSpans_first, listAt_nested]
      decide

/-- An encrypt of the frame `[0x3000, 0x3010)` with the empty list, where that has been left alone. -/
theorem nested_inner {L : Logged Unit} (hroom : L.opens.length < 16) (hlist : SameList 0x9100 nestedMem (L.mems ())) :
    User.NestedCall Env.sample L ((), .encrypt (.frame 0x2010 0x3000 0x3010) 0x9100) := by
  have hempty : LaidApart 0x9100 0x9200 ([] : List Para).length := by decide
  have hnil : listAt 0x9100 (L.mems ()) = [] := hlist.listAt.trans hempty.listAt_putList
  have hspans : listSpans 0x9100 (L.mems ()) = [⟨0x9100, 4⟩, ⟨0x9108, 8⟩] := hlist.spans.trans hempty.listSpans_putList
  have hdepths : depthSpans 0x9100 (L.mems ()) = [] := hlist.depthSpans.trans hempty.depthSpans_putList
  refine ⟨fun _ => ⟨hroom, by decide, Or.inl ?_⟩, ?_⟩
  · show AllByValue (listAt 0x9100 (L.mems ())) ∧ NoWrap (listAt 0x9100 (L.mems ())) ∧ _
    rw [hnil]
    exact ⟨fun _ h => (List.not_mem_nil h).elim, fun _ h => (List.not_mem_nil h).elim, by decide⟩
  · rintro regs arg hop -
    cases hop
    refine ⟨Formed.of_beside ?_, Spares.of_beside ?_⟩
    · show ∀ r ∈ _, ∀ s ∈ depthSpans 0x9100 (L.mems ()), _
      rw [hdepths]
      exact fun _ _ _ h => absurd h List.not_mem_nil
    · show ∀ r ∈ listSpans 0x9100 (L.mems ()), ∀ s ∈ segments (listAt 0x9100 (L.mems ())) _ _, _
      rw [hspans, hnil]
      decide

/-- The callee encrypts a frame of its own, writes to the target of the pointer and decrypts. -/
theorem frame_protected_sample : ∃ M tr' N K,
    User.LoggedStep Env.sample (.start fun _ : Unit => nestedMem)
    ((), .encrypt (.frame 0x1010 0x4000 0x4020) 0x9000) M ∧
    Run (User.LoggedStep Env.sample) M tr' N ∧ tr'.map Prod.snd = [((), .encrypt (.frame 0x2010 0x3000 0x3010) 0x9100),
      ((), .write 0x4010 0x55), ((), .decrypt (.frame 0x2010 0x3000 0x3010))] ∧
    User.LoggedStep Env.sample N ((), .decrypt (.frame 0x1010 0x4000 0x4020)) K ∧
    ∀ x, K.mems () x = if Takes nestedMem (.frame 0x1010 0x4000 0x4020) (listAt 0x9000 nestedMem) x then nestedMem x
      else N.mems () x := by
  have hacc : Accepts Env.sample (.frame 0x1010 0x4000 0x4020) := by decide
  have hacc' : Accepts Env.sample (.frame 0x2010 0x3000 0x3010) := by decide
  have h : Undoing Env.sample (.start fun _ : Unit => nestedMem) := Undoing.start
  obtain ⟨⟨M, hs⟩, hall⟩ := frame_protected (p := ()) Env.sample_allocOk Env.sample_sortOk
    (Run.nil : Run (User.LoggedStep Env.sample) (.start fun _ : Unit => nestedMem) [] _) meets_nil hacc nested_outer
  obtain ⟨hM, -, htopM, hopenM, hmemM, -⟩ := h.encryptedAt Env.sample_allocOk Env.sample_sortOk hacc nested_outer hs
  have hlist : SameList 0x9100 nestedMem (M.mems ()) := by
    intro x hx
    have hspans : listSpans 0x9100 nestedMem = [⟨0x9100, 4⟩, ⟨0x9108, 8⟩] := LaidApart.listSpans_putList (by decide)
    rw [hspans] at hx
    have hdepth : ¬Covers (depthSpans 0x9000 nestedMem) x :=
      not_covers_of_beside (by rw [depthSpans_nested]; decide) hx
    have hsegs : ¬Covers (segments (listAt 0x9000 nestedMem) 0x4000 0x4020) x :=
      not_covers_of_beside (by rw [listAt_nested]; decide) hx
    rw [hmemM]
    exact (if_neg hdepth).trans (if_neg fun ht => hsegs ht.1)
  have hinner := nested_inner (L := M) (by rw [hopenM]; decide) hlist
  obtain ⟨⟨fuel, e, he⟩, -⟩ := hM.encryptAt Env.sample_allocOk Env.sample_sortOk hacc' hinner
  obtain ⟨N₁, hs₁⟩ : ∃ N₁, User.LoggedStep Env.sample M ((), .encrypt (.frame 0x2010 0x3000 0x3010) 0x9100) N₁ :=
    ⟨_, _, ⟨fuel, e, he, rfl⟩, rfl⟩
  obtain ⟨h₁, ⟨c, hcs₁⟩, htop₁, hopen₁, -, -⟩ := hM.encryptedAt Env.sample_allocOk Env.sample_sortOk hacc' hinner hs₁
  obtain ⟨N₂, hs₂, hopen₂, hcs₂, htop₂⟩ : ∃ N₂, User.LoggedStep Env.sample N₁ ((), .write 0x4010 0x55) N₂ ∧
      N₂.opens = N₁.opens ∧ N₂.callStack = N₁.callStack ∧ N₂.sbufStackTop = N₁.sbufStackTop :=
      ⟨_, ⟨_, rfl, rfl⟩, rfl, rfl, rfl⟩
  have hwrite : LoggedStep Env.sample N₁ ((), .write 0x4010 0x55) N₂ := hs₂
  have hfree : NestedCall Env.sample N₁ ((), .write 0x4010 0x55) := trivial
  have h₂ := h₁.step Env.sample_allocOk Env.sample_sortOk hfree hwrite
  have hinit := h₂.init_eq (hcs₂.trans hcs₁)
  have hname : (nameOf Env.sample (.frame 0x2010 0x3000 0x3010)).isSome := by decide
  obtain ⟨⟨N, hs₃⟩, hpop⟩ := h₂.decrypt_some (p := ()) hinit hname (hopen₂.trans hopen₁)
  obtain ⟨-, -, -, htopN⟩ := hpop N hs₃
  have htop : M.sbufStackTop = 1 := htopM
  have hrun := ((Run.nil.snoc hs₁).snoc hs₂).snoc
    (show User.LoggedStep Env.sample N₂ ((), .decrypt (.frame 0x2010 0x3000 0x3010)) N from hs₃)
  have hcalls : User.NestedCall Env.sample N₂ ((), .decrypt (.frame 0x2010 0x3000 0x3010)) :=
    ⟨⟨hinit, by decide⟩, fun _ _ hop => by cases hop⟩
  obtain ⟨⟨K, hK⟩, hback⟩ := (hall M hs).2 _ N hrun
    (meets_snoc.mpr ⟨meets_snoc.mpr ⟨meets_snoc.mpr ⟨meets_nil, hinner⟩, ⟨hfree, fun _ _ hop => by cases hop⟩⟩, hcalls⟩)
    (meets_snoc.mpr ⟨meets_snoc.mpr ⟨meets_snoc.mpr ⟨meets_nil, fun _ h => by cases h⟩, fun _ h => by cases h⟩,
      fun _ _ => by show 1 < N₂.sbufStackTop; omega⟩) (by show N.sbufStackTop = 1; omega) ()
      (.frame 0x1010 0x4000 0x4020) (by decide)
  exact ⟨M, _, N, K, hs, hrun, rfl, hK, (hback K hK).1⟩

end StackVault
