import StackVault.Program
import StackVault.Theorems.Listed

/-! The module does not change what a program computes, as long as no function touches the bytes that a function it was
    called from has had encrypted, and none reads the depths that the module has counted down in the parameter lists.
    Hidden from a callee are the bytes hidden from its caller and those that the encrypt in front of the call takes. Off
    the hidden bytes and the depths memory is what it would be without the module; the hidden ones are out of reach of
    both runs, and each decrypt brings its own back. -/

namespace StackVault
open Memory Transition

/-- Judged from the run without the module: calls are accepted and have parameters by value, in lists that no encrypt
    clears, and no function touches the frames of those that called it. -/
def Program.KeepsOff (env : Env) : Program → (Addr → Prop) → Mem → Prop
  | .done, _, _ => True
  | .read addr next, hidden, mem => ¬hidden addr ∧ (next (mem addr)).KeepsOff env hidden mem
  | .write addr byte next, hidden, mem =>
      ¬hidden addr ∧ next.KeepsOff env hidden fun x => if x = addr then byte else mem x
  | .call regs arg callee back next, hidden, mem => Accepts env regs ∧ regs.userRbp.toNat + 1 < 2 ^ 64 ∧
      AllByValue (listAt arg mem) ∧ NoWrap (listAt arg mem) ∧
      (segments (listAt arg mem) regs.userRsp regs.userRbp).length ≤ 32 ∧ (nameOf env back).isSome ∧ Formed arg mem ∧
      Spares arg mem (segments (listAt arg mem) regs.userRsp regs.userRbp) ∧
      (∀ x, Covers (listSpans arg mem) x → ¬hidden x) ∧
      callee.KeepsOff env (fun x => hidden x ∨ Covers (segments (listAt arg mem) regs.userRsp regs.userRbp) x) mem ∧
      next.KeepsOff env hidden (callee.plain mem)

/-- How deep the calls are nested in the run without the module. -/
def Program.nesting : Program → Mem → Nat
  | .done, _ => 0
  | .read addr next, mem => (next (mem addr)).nesting mem
  | .write addr byte next, mem => next.nesting fun x => if x = addr then byte else mem x
  | .call _ _ callee _ next, mem => max (callee.nesting mem + 1) (next.nesting (callee.plain mem))

variable {π : Type} [DecidableEq π]

/-- The program keeps off the bytes of `hidden`, and off those that its own calls hide while they last, and does not
    read those of `counts`, which has the depths that its calls count down. Each of its calls is accepted and one of
    those that can be nested, and its list is not hidden. -/
def Program.Respects (env : Env) (p : π) (counts : Addr → Prop) : Program → (Addr → Prop) → Logged π → Prop
  | .done, _, _ => True
  | .read addr next, hidden, L => ¬hidden addr ∧ ¬counts addr ∧ (next (L.mems p addr)).Respects env p counts hidden L
  | .write addr byte next, hidden, L =>
      ¬hidden addr ∧ ∀ M, User.LoggedStep env L (p, .write addr byte) M → next.Respects env p counts hidden M
  | .call regs arg callee back next, hidden, L => Accepts env regs ∧ User.NestedCall env L (p, .encrypt regs arg) ∧
      (nameOf env back).isSome ∧ (∀ x, Covers (listSpans arg (L.mems p)) x → ¬hidden x) ∧
      (∀ x, Covers (depthSpans arg (L.mems p)) x → L.mems p x ≠ 0 → counts x) ∧
      ∀ M, User.LoggedStep env L (p, .encrypt regs arg) M →
        callee.Respects env p counts (fun x => hidden x ∨ Takes (L.mems p) regs (listAt arg (L.mems p)) x) M ∧
        ∀ M' K, callee.Runs env p M M' → User.LoggedStep env M' (p, .decrypt back) K →
        next.Respects env p counts hidden K

/-- What a run of a program that started at `L` has made of the module and of memory: `mem` is memory without the
    module before it, and `mem'` after it. -/
structure Transparent (env : Env) (p : π) (counts hidden : Addr → Prop) (mem mem' : Mem) (L N : Logged π) : Prop where
  undoing : Undoing env N
  opens : N.opens = L.opens
  callStack : N.callStack = L.callStack
  top : N.sbufStackTop = L.sbufStackTop
  seen : ∀ x, ¬hidden x → ¬counts x → N.mems p x = mem' x
  unseen : ∀ x, hidden x → N.mems p x = L.mems p x ∧ mem' x = mem x
  others : ∀ q, q ≠ p → N.mems q = L.mems q

section Transparent
variable {env : Env} {p : π} {counts hidden : Addr → Prop} {mem mem' mem'' : Mem} {L M N K : Logged π} {addr arg : Addr}
  {byte : Byte} {regs back : Regs} {mems : π → Mem} {tr : List (Logged π × (π × User.Op))}

omit [DecidableEq π] in
theorem Transparent.refl (h : Undoing env L) (hmem : ∀ x, ¬hidden x → ¬counts x → L.mems p x = mem x) :
    Transparent env p counts hidden mem mem L L :=
  ⟨h, rfl, rfl, rfl, hmem, fun _ _ => ⟨rfl, rfl⟩, fun _ _ => rfl⟩

omit [DecidableEq π] in
theorem Transparent.trans (h : Transparent env p counts hidden mem mem' L M)
    (h' : Transparent env p counts hidden mem' mem'' M N) : Transparent env p counts hidden mem mem'' L N where
  undoing := h'.undoing
  opens := h'.opens.trans h.opens
  callStack := h'.callStack.trans h.callStack
  top := h'.top.trans h.top
  seen := h'.seen
  unseen x hx := ⟨(h'.unseen x hx).1.trans (h.unseen x hx).1, (h'.unseen x hx).2.trans (h.unseen x hx).2⟩
  others q hq := (h'.others q hq).trans (h.others q hq)

omit [DecidableEq π] in
/-- With nothing hidden, memory off the depths is as it would be without the module. -/
theorem Transparent.whole (h : Transparent env p counts (fun _ => False) mem mem' L N) :
    (∀ x, ¬counts x → N.mems p x = mem' x) ∧ (∀ q, q ≠ p → N.mems q = L.mems q) ∧ N.callStack = L.callStack ∧
      N.sbufStackTop = L.sbufStackTop :=
  ⟨fun x => h.seen x not_false, h.others, h.callStack, h.top⟩

theorem Transparent.write (h : Undoing env L) (halloc : env.AllocOk) (hsort : env.SortOk) (haddr : ¬hidden addr)
    (hmem : ∀ x, ¬hidden x → ¬counts x → L.mems p x = mem x) (hs : User.LoggedStep env L (p, .write addr byte) M) :
    Transparent env p counts hidden mem (fun x => if x = addr then byte else mem x) L M := by
  have hs' : LoggedStep env L (p, .write addr byte) M := hs
  have hM := h.step halloc hsort (show NestedCall env L (p, .write addr byte) from trivial) hs'
  obtain ⟨t, rfl, rfl⟩ := hs'
  have hat : ∀ x, (if p = p then fun x => if x = addr then byte else L.mems p x else L.mems p) x =
      if x = addr then byte else L.mems p x := fun x => congrFun (if_pos rfl) x
  refine ⟨hM, rfl, rfl, rfl, fun x hx hc => ?_, fun x hx => ?_, fun q hq => if_neg hq⟩
  · rw [← hmem x hx hc]
    exact hat x
  · have hne : x ≠ addr := by
      rintro rfl
      exact haddr hx
    exact ⟨(hat x).trans (if_neg hne), if_neg hne⟩

/-- A call is transparent when its callee is, off the bytes that its encrypt takes. -/
theorem Transparent.call (h : Undoing env L) (halloc : env.AllocOk) (hsort : env.SortOk) (hacc : Accepts env regs)
    (hcall : User.NestedCall env L (p, .encrypt regs arg)) (hname : (nameOf env back).isSome)
    (hlist : ∀ x, Covers (listSpans arg (L.mems p)) x → ¬hidden x)
    (hmem : ∀ x, ¬hidden x → ¬counts x → L.mems p x = mem x) (hs : User.LoggedStep env L (p, .encrypt regs arg) M)
    (ht : Transparent env p counts (fun x => hidden x ∨ Takes (L.mems p) regs (listAt arg (L.mems p)) x) mem mem' M N) :
    (∃ K, User.LoggedStep env N (p, .decrypt back) K) ∧
      ∀ K, User.LoggedStep env N (p, .decrypt back) K → Transparent env p counts hidden mem mem' L K := by
  obtain ⟨-, ⟨c, hcs⟩, htop, hopen, hcleared, hothers⟩ := h.encryptedAt halloc hsort hacc hcall hs
  rw [← ht.opens] at hopen
  rw [← ht.callStack] at hcs
  have hinit := ht.undoing.init_eq hcs
  obtain ⟨hex, hall⟩ := ht.undoing.decrypt_some (p := p) hinit hname hopen
  refine ⟨hex, fun K hK => ?_⟩
  obtain ⟨hback, hrest, hcsK, htopK⟩ := hall K hK
  have hopenK : K.opens = N.opens.tail := by
    obtain ⟨t, -, rfl⟩ := hK
    rfl
  have hdecrypt : NestedCall env N (p, .decrypt back) := ⟨hinit, hname⟩
  refine ⟨ht.undoing.step halloc hsort hdecrypt hK, by rw [hopenK, hopen]; rfl, by rw [hcsK, hcs]; rfl,
    by rw [htopK, ht.top, htop]; rfl, fun x hx hc => ?_, fun x hx => ?_,
    fun q hq => (hrest q hq).trans ((ht.others q hq).trans (hothers q hq))⟩
  · rw [hback]
    by_cases htake : Takes (L.mems p) regs (listAt arg (L.mems p)) x
    · exact (if_pos htake).trans ((hmem x hx hc).trans (ht.unseen x (Or.inr htake)).2.symm)
    · exact (if_neg htake).trans (ht.seen x (not_or.mpr ⟨hx, htake⟩) hc)
  · obtain ⟨hsame, hplain⟩ := ht.unseen x (Or.inl hx)
    have hdepth : ¬Covers (depthSpans arg (L.mems p)) x := fun hd => hlist x (covers_listSpans_of_depth hd) hx
    refine ⟨?_, hplain⟩
    rw [hback, hsame, hcleared, if_neg hdepth]
    by_cases htake : Takes (L.mems p) regs (listAt arg (L.mems p)) x
    · exact if_pos htake
    · exact (if_neg htake).trans (if_neg htake)

/-- After an encrypt the callee finds memory as it would without the module, off what is hidden and counted. -/
theorem Transparent.entered (h : Undoing env L) (halloc : env.AllocOk) (hsort : env.SortOk) (hacc : Accepts env regs)
    (hcall : User.NestedCall env L (p, .encrypt regs arg)) (hmem : ∀ x, ¬hidden x → ¬counts x → L.mems p x = mem x)
    (hcounts : ∀ x, Covers (depthSpans arg (L.mems p)) x → L.mems p x ≠ 0 → counts x)
    (hs : User.LoggedStep env L (p, .encrypt regs arg) M) :
    Undoing env M ∧ M.opens.length = L.opens.length + 1 ∧
      ∀ x, ¬(hidden x ∨ Takes (L.mems p) regs (listAt arg (L.mems p)) x) → ¬counts x → M.mems p x = mem x := by
  obtain ⟨hM, -, -, hopen, hcleared, -⟩ := h.encryptedAt halloc hsort hacc hcall hs
  refine ⟨hM, by rw [hopen]; rfl, fun x hx hc => ?_⟩
  obtain ⟨hhidden, htake⟩ := not_or.mp hx
  rw [hcleared, ← hmem x hhidden hc]
  by_cases hd : Covers (depthSpans arg (L.mems p)) x
  · rw [if_pos hd]
    by_contra hne
    exact hc (hcounts x hd (Ne.symm hne))
  · rw [if_neg hd, if_neg htake]

/-- A program that keeps off the hidden bytes runs with the module, and computes what it computes without. -/
theorem Program.Respects.transparent (halloc : env.AllocOk) (hsort : env.SortOk) {prog : Program} (mem : Mem)
    (h : Undoing env L) (hprog : prog.Respects env p counts hidden L) (hmem : ∀ x, ¬hidden x → ¬counts x →
      L.mems p x = mem x) :
    (∃ N, prog.Runs env p L N) ∧ ∀ N, prog.Runs env p L N →
    Transparent env p counts hidden mem (prog.plain mem) L N := by
  induction prog generalizing hidden mem L with
  | done =>
    refine ⟨⟨L, rfl⟩, ?_⟩
    rintro N rfl
    exact .refl h hmem
  | read addr next ih =>
    obtain ⟨haddr, hcount, hnext⟩ := hprog
    have hplain : (read addr next).plain mem = (next (L.mems p addr)).plain mem := by
      rw [hmem addr haddr hcount]
      rfl
    rw [hplain]
    exact ih _ mem h hnext hmem
  | write addr byte next ih =>
    obtain ⟨haddr, hnext⟩ := hprog
    have hrest : ∀ M, User.LoggedStep env L (p, .write addr byte) M →
        Transparent env p counts hidden mem _ L M ∧ _ := fun M hs =>
      have ht := Transparent.write h halloc hsort haddr hmem hs
      ⟨ht, ih _ ht.undoing (hnext M hs) ht.seen⟩
    constructor
    · have hs : User.LoggedStep env L (p, .write addr byte) _ := ⟨_, rfl, rfl⟩
      obtain ⟨-, ⟨N, hN⟩, -⟩ := hrest _ hs
      exact ⟨N, _, hs, hN⟩
    · rintro N ⟨M, hs, hN⟩
      obtain ⟨ht, -, hall⟩ := hrest M hs
      exact ht.trans (hall N hN)
  | call regs arg callee back next ihcallee ihnext =>
    obtain ⟨hacc, hcall, hname, hlist, hcounts, hrespects⟩ := hprog
    have hbody : ∀ M, User.LoggedStep env L (p, .encrypt regs arg) M → (∃ M', callee.Runs env p M M') ∧
        ∀ M', callee.Runs env p M M' → Transparent env p counts
          (fun x => hidden x ∨ Takes (L.mems p) regs (listAt arg (L.mems p)) x) mem (callee.plain mem) M M' := by
      intro M hs
      obtain ⟨hM, -, hentered⟩ := Transparent.entered h halloc hsort hacc hcall hmem hcounts hs
      exact ihcallee mem hM (hrespects M hs).1 hentered
    have hback : ∀ M M', User.LoggedStep env L (p, .encrypt regs arg) M → callee.Runs env p M M' →
        (∃ K, User.LoggedStep env M' (p, .decrypt back) K) ∧ ∀ K, User.LoggedStep env M' (p, .decrypt back) K →
          Transparent env p counts hidden mem (callee.plain mem) L K := fun M M' hs hM' =>
      Transparent.call h halloc hsort hacc hcall hname hlist hmem hs ((hbody M hs).2 M' hM')
    constructor
    · obtain ⟨⟨fuel, e, he⟩, -⟩ := h.encryptAt halloc hsort hacc hcall
      have hs : User.LoggedStep env L (p, .encrypt regs arg) _ := ⟨_, ⟨fuel, e, he, rfl⟩, rfl⟩
      obtain ⟨⟨M', hM'⟩, -⟩ := hbody _ hs
      obtain ⟨⟨K, hK⟩, hall⟩ := hback _ M' hs hM'
      have ht := hall K hK
      obtain ⟨⟨N, hN⟩, -⟩ := ihnext _ ht.undoing ((hrespects _ hs).2 M' K hM' hK) ht.seen
      exact ⟨N, _, M', K, hs, hM', hK, hN⟩
    · rintro N ⟨M, M', K, hs, hM', hK, hN⟩
      have ht := (hback M M' hs hM').2 K hK
      exact ht.trans ((ihnext _ ht.undoing ((hrespects M hs).2 M' K hM' hK) ht.seen).2 N hN)

/-- An accepted encrypt that returns has found room. -/
theorem Undoing.room (h : Undoing env L) (hacc : Accepts env regs)
    (hs : User.LoggedStep env L (p, .encrypt regs arg) M) :
    L.opens.length < 16 := by
  obtain ⟨t, ⟨fuel, e, he, rfl⟩, rfl⟩ := hs
  obtain ⟨g, _, _, _, _, _, hset, -, hret⟩ := User.accepted_inv (s := L.view p) h.mapped hacc he
  have htop : g.sbufStackTop = L.sbufStackTop := (setup_inv hset).2.2.1
  rw [h.length, ← htop]
  exact hret.top

omit [DecidableEq π] in
/-- A call with parameters by value can be nested where there is room, when memory has the list that `mem` has. -/
theorem nested_of_byValue (hroom : L.opens.length < 16) (hsame : SameList arg mem (L.mems p))
    (hb : regs.userRbp.toNat + 1 < 2 ^ 64) (hv : AllByValue (listAt arg mem)) (hw : NoWrap (listAt arg mem))
    (hlen : (segments (listAt arg mem) regs.userRsp regs.userRbp).length ≤ 32) (hform : Formed arg mem)
    (hspares : Spares arg mem (segments (listAt arg mem) regs.userRsp regs.userRbp)) :
    User.NestedCall env L (p, .encrypt regs arg) := by
  refine ⟨fun _ => ⟨hroom, hb, Or.inl ?_⟩, ?_⟩
  · rw [← hsame.listAt] at hv hw hlen
    exact ⟨hv, hw, hlen⟩
  · rintro _ _ hop -
    cases hop
    refine ⟨hsame.formed hform, ?_⟩
    show Spares arg (L.mems p) (segments (listAt arg (L.mems p)) regs.userRsp regs.userRbp)
    rw [hsame.listAt]
    exact hsame.spares hspares

/-- A program judged from the run without the module has a run with it as long as the stacks can hold its calls, and
    every such run is transparent. -/
theorem Program.KeepsOff.transparent (halloc : env.AllocOk) (hsort : env.SortOk) {prog : Program} (h : Undoing env L)
    (hprog : prog.KeepsOff env hidden mem) (hmem : ∀ x, ¬hidden x → ¬False → L.mems p x = mem x) :
    ((∃ N, prog.Runs env p L N) ↔ L.opens.length + prog.nesting mem ≤ 16) ∧
      ∀ N, prog.Runs env p L N → Transparent env p (fun _ => False) hidden mem (prog.plain mem) L N := by
  induction prog generalizing hidden mem L with
  | done =>
    refine ⟨iff_of_true ⟨L, rfl⟩ ?_, ?_⟩
    · exact h.length ▸ h.limit
    · rintro N rfl
      exact .refl h hmem
  | read addr next ih =>
    obtain ⟨haddr, hnext⟩ := hprog
    rw [← hmem addr haddr not_false] at hnext
    have hsame : (read addr next).plain mem = (next (L.mems p addr)).plain mem ∧
        (read addr next).nesting mem = (next (L.mems p addr)).nesting mem := by
      rw [hmem addr haddr not_false]
      exact ⟨rfl, rfl⟩
    rw [hsame.1, hsame.2]
    exact ih _ h hnext hmem
  | write addr byte next ih =>
    obtain ⟨haddr, hnext⟩ := hprog
    have hstep : ∀ M, User.LoggedStep env L (p, .write addr byte) M →
        Transparent env p (fun _ => False) hidden mem _ L M ∧ _ := fun M hs =>
      have ht := Transparent.write h halloc hsort haddr hmem hs
      ⟨ht, ih ht.undoing hnext ht.seen⟩
    refine ⟨⟨?_, fun hdepth => ?_⟩, ?_⟩
    · rintro ⟨N, M, hs, hN⟩
      obtain ⟨ht, hruns, -⟩ := hstep M hs
      exact ht.opens ▸ hruns.mp ⟨N, hN⟩
    · have hs : User.LoggedStep env L (p, .write addr byte) _ := ⟨_, rfl, rfl⟩
      obtain ⟨ht, hruns, -⟩ := hstep _ hs
      obtain ⟨N, hN⟩ := hruns.mpr (ht.opens.symm ▸ hdepth)
      exact ⟨N, _, hs, hN⟩
    · rintro N ⟨M, hs, hN⟩
      obtain ⟨ht, -, hall⟩ := hstep M hs
      exact ht.trans (hall N hN)
  | call regs arg callee back next ihcallee ihnext =>
    obtain ⟨hacc, hb, hv, hw, hlen, hname, hform, hspares, hseen, hcallee, hnext⟩ := hprog
    -- The list is not hidden, so the module reads the one that the run without it has.
    have hsame : SameList arg mem (L.mems p) := fun x hx => hmem x (hseen x hx) not_false
    have hlist : ∀ x, Covers (listSpans arg (L.mems p)) x → ¬hidden x := fun x hx => hseen x (hsame.spans ▸ hx)
    have hcounts : ∀ x, Covers (depthSpans arg (L.mems p)) x → L.mems p x ≠ 0 → False := fun x hx hne =>
      hne (depths_zero_iff.mpr (hsame.listAt.symm ▸ hv) x hx)
    have htakes : (fun x => hidden x ∨ Takes (L.mems p) regs (listAt arg (L.mems p)) x) =
        fun x => hidden x ∨ Covers (segments (listAt arg mem) regs.userRsp regs.userRbp) x := by
      rw [hsame.listAt]
      exact funext fun x => propext (or_congr_right (takes_byValue hv))
    rw [← htakes] at hcallee
    have hcall : L.opens.length < 16 → User.NestedCall env L (p, .encrypt regs arg) := fun hroom =>
      nested_of_byValue hroom hsame hb hv hw hlen hform hspares
    have hbody : ∀ M, User.LoggedStep env L (p, .encrypt regs arg) M → M.opens.length = L.opens.length + 1 ∧
        ((∃ M', callee.Runs env p M M') ↔ M.opens.length + callee.nesting mem ≤ 16) ∧ ∀ M', callee.Runs env p M M' →
          Transparent env p (fun _ => False) (fun x => hidden x ∨ Takes (L.mems p) regs (listAt arg (L.mems p)) x) mem
            (callee.plain mem) M M' := by
      intro M hs
      obtain ⟨hM, hopen, hentered⟩ := Transparent.entered h halloc hsort hacc (hcall (h.room hacc hs)) hmem hcounts hs
      exact ⟨hopen, ihcallee hM hcallee hentered⟩
    have hback : ∀ M M', User.LoggedStep env L (p, .encrypt regs arg) M → callee.Runs env p M M' →
        (∃ K, User.LoggedStep env M' (p, .decrypt back) K) ∧ ∀ K, User.LoggedStep env M' (p, .decrypt back) K →
          Transparent env p (fun _ => False) hidden mem (callee.plain mem) L K := fun M M' hs hM' =>
      Transparent.call h halloc hsort hacc (hcall (h.room hacc hs)) hname hlist hmem hs ((hbody M hs).2.2 M' hM')
    have hnesting : (call regs arg callee back next).nesting mem =
      max (callee.nesting mem + 1) (next.nesting (callee.plain mem)) := rfl
    rw [hnesting]
    refine ⟨⟨?_, fun hdepth => ?_⟩, ?_⟩
    · rintro ⟨N, M, M', K, hs, hM', hK, hN⟩
      obtain ⟨hdeeper, hruns, -⟩ := hbody M hs
      have hinner := hruns.mp ⟨M', hM'⟩
      have ht := (hback M M' hs hM').2 K hK
      have houter := (ihnext ht.undoing hnext ht.seen).1.mp ⟨N, hN⟩
      rw [ht.opens] at houter
      omega
    · obtain ⟨⟨fuel, e, he⟩, -⟩ := h.encryptAt halloc hsort hacc (hcall (by omega))
      have hs : User.LoggedStep env L (p, .encrypt regs arg) _ := ⟨_, ⟨fuel, e, he, rfl⟩, rfl⟩
      obtain ⟨hdeeper, hruns, -⟩ := hbody _ hs
      obtain ⟨M', hM'⟩ := hruns.mpr (by omega)
      obtain ⟨⟨K, hK⟩, hall⟩ := hback _ M' hs hM'
      have ht := hall K hK
      obtain ⟨N, hN⟩ := (ihnext ht.undoing hnext ht.seen).1.mpr (by rw [ht.opens]; omega)
      exact ⟨N, _, M', K, hs, hM', hK, hN⟩
    · rintro N ⟨M, M', K, hs, hM', hK, hN⟩
      have ht := (hback M M' hs hM').2 K hK
      exact ht.trans ((ihnext ht.undoing hnext ht.seen).2 N hN)

/-- The module is transparent. After any run, a program that keeps off the frames of the functions it was called from
    and does not read the depths of its lists runs with the module, whatever the nesting of its calls, and leaves, off
    these depths, the memory that it would leave without. Nothing of it is left in the module's stacks, and no other
    process's memory is touched. -/
theorem program_transparent (halloc : env.AllocOk) (hsort : env.SortOk)
    (hr : Run (User.LoggedStep env) (.start mems) tr L) (hc : Meets (User.NestedCall env) tr) {prog : Program}
    (hprog : prog.Respects env p counts (fun _ => False) L) :
    (∃ N, prog.Runs env p L N) ∧ ∀ N, prog.Runs env p L N → (∀ x, ¬counts x → N.mems p x = prog.plain (L.mems p) x) ∧
      (∀ q, q ≠ p → N.mems q = L.mems q) ∧ N.callStack = L.callStack ∧ N.sbufStackTop = L.sbufStackTop := by
  obtain ⟨hex, hall⟩ := hprog.transparent halloc hsort (L.mems p) (Undoing.of_listed halloc hsort hr hc)
    fun _ _ _ => rfl
  exact ⟨hex, fun N hN => (hall N hN).whole⟩

/-- With parameters by value it is enough to look at the run without the module: a program that keeps off the frames
    there runs with the module if and only if there is room for the encrypts of its nested calls, and leaves all of
    memory as it would be. -/
theorem plain_run_suffices (halloc : env.AllocOk) (hsort : env.SortOk)
    (hr : Run (User.LoggedStep env) (.start mems) tr L) (hc : Meets (User.NestedCall env) tr) {prog : Program}
    (hprog : prog.KeepsOff env (fun _ => False) (L.mems p)) :
    ((∃ N, prog.Runs env p L N) ↔ L.opens.length + prog.nesting (L.mems p) ≤ 16) ∧ ∀ N, prog.Runs env p L N →
      N.mems p = prog.plain (L.mems p) ∧ (∀ q, q ≠ p → N.mems q = L.mems q) ∧ N.callStack = L.callStack ∧
      N.sbufStackTop = L.sbufStackTop := by
  obtain ⟨hruns, hall⟩ := hprog.transparent halloc hsort (Undoing.of_listed halloc hsort hr hc) fun _ _ _ => rfl
  refine ⟨hruns, fun N hN => ?_⟩
  obtain ⟨hmem, hrest⟩ := (hall N hN).whole
  exact ⟨funext fun x => hmem x not_false, hrest⟩

end Transparent

/-- A function that adds to the target of its first parameter, called with a pointer into its caller's frame. -/
def addToTarget : Program :=
  .call (.frame 0x1010 0x4000 0x4020) 0x9000 (.read 0x4010 fun b => .write 0x4010 (b + 1) .done)
    (.frame 0x1010 0x4000 0x4020) .done

theorem program_transparent_sample : ∃ N, addToTarget.Runs Env.sample () (.start fun _ => nestedMem) N ∧
    ∀ x, ¬Covers (depthSpans 0x9000 nestedMem) x → N.mems () x = addToTarget.plain nestedMem x := by
  have hprog : addToTarget.Respects Env.sample () (Covers (depthSpans 0x9000 nestedMem)) (fun _ => False)
      (.start fun _ => nestedMem) := by
    have htarget : Covers (exposed nestedMem (listAt 0x9000 nestedMem)) 0x4010 := by
      rw [exposed_nested]
      decide
    refine ⟨by decide, nested_outer, by decide, fun _ _ h => h, fun x hx _ => hx, fun M _ =>
      ⟨⟨?_, by rw [depthSpans_nested]; decide, ?_, fun _ _ => trivial⟩, fun _ _ _ _ => trivial⟩⟩
    all_goals
      rintro (h | h)
      · exact h
      · exact absurd htarget h.2
  obtain ⟨⟨N, hN⟩, hall⟩ := program_transparent Env.sample_allocOk Env.sample_sortOk
    (Run.nil : Run (User.LoggedStep Env.sample) (.start fun _ => nestedMem) [] _) meets_nil hprog
  exact ⟨N, hN, (hall N hN).1⟩

/-- A call in a call, both with an empty list. What the inner function writes the outer one reads. -/
def innerWrites : Program :=
  .call (.frame 0x1010 0x4000 0x4020) 0x9000
    (.call (.frame 0x2010 0x3000 0x3010) 0x9000 (.write 0x5000 7 .done) (.frame 0x2010 0x3000 0x3010)
      (.read 0x5000 fun b => .write 0x5001 (b + 1) .done))
    (.frame 0x1010 0x4000 0x4020) .done

theorem plain_run_suffices_sample : ∃ N, innerWrites.Runs Env.sample () (.start fun _ => fun _ => 0) N ∧
    N.mems () = innerWrites.plain fun _ => 0 := by
  have hnil : listAt 0x9000 (fun _ => 0) = [] := by decide
  have hnone : AllByValue (listAt 0x9000 fun _ => 0) ∧ NoWrap (listAt 0x9000 fun _ => 0) := by
    rw [hnil]
    exact ⟨fun _ h => absurd h List.not_mem_nil, fun _ h => absurd h List.not_mem_nil⟩
  have hform : Formed 0x9000 (fun _ => 0) := Formed.of_beside (by decide)
  have hprog : innerWrites.KeepsOff Env.sample (fun _ => False) fun _ => 0 := by
    refine ⟨by decide, by decide, hnone.1, hnone.2, by decide, by
      decide, hform, Spares.of_beside (by decide), fun _ _ h => h,
      ⟨by decide, by decide, hnone.1, hnone.2, by decide, by
        decide, hform, Spares.of_beside (by decide), fun x hx => ?_,
        ⟨?_, trivial⟩, ⟨?_, ⟨?_, trivial⟩⟩⟩, trivial⟩
    · rintro (h | h)
      · exact h
      · exact not_covers_of_beside (by decide) hx h
    · rintro ((h | h) | h)
      · exact h
      all_goals exact absurd h (by decide)
    all_goals
      rintro (h | h)
      · exact h
      · exact absurd h (by decide)
  obtain ⟨hruns, hall⟩ := plain_run_suffices (p := ()) Env.sample_allocOk Env.sample_sortOk
    (Run.nil : Run (User.LoggedStep Env.sample) (.start fun _ : Unit => fun _ => 0) [] _) meets_nil hprog
  obtain ⟨N, hN⟩ := hruns.mpr (by decide)
  exact ⟨N, hN, (hall N hN).1⟩

end StackVault
