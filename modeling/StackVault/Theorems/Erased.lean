import StackVault.Theorems.Filling

/-! What the hook does to a whole program. A program that reads no byte which the hook of a finished function has taken
    computes what it computes without the hook; the bytes that a hook has cleared hold nothing of the function, whatever
    comes next. The 64 bytes at either end of a frame stay as the function leaves them. The hook itself is taken to keep
    its arguments and locals in registers. -/

namespace StackVault
open Memory

/-- The bytes that the hook clears. -/
def Scrubbed (rbp hookRbp x : Addr) : Prop := hookRbp + 64 ≤ x ∧ x < rbp - 64

instance (rbp hookRbp x : Addr) : Decidable (Scrubbed rbp hookRbp x) := inferInstanceAs (Decidable (_ ∧ _))

/-- What was the last to touch a byte: the program itself, the call of a hook, or the hook. -/
inductive Mark where
  | live
  | pushed
  | cleared
  deriving DecidableEq

/-- The marks after the function with frame pointer `rbp` has returned. -/
def returned (rbp hookRbp : Addr) (marks : Addr → Mark) : Addr → Mark := fun x =>
  if Scrubbed rbp hookRbp x then .cleared else if x ∈ (⟨hookRbp, 16⟩ : Span) then .pushed else marks x

namespace Hooked

/-- The marks that the program leaves, judged from the run without the hook. -/
def marks : Hooked → Mem → (Addr → Mark) → Addr → Mark
  | done, _, k => k
  | read addr next, mem, k => (next (mem addr)).marks mem k
  | write addr byte next, mem, k =>
      next.marks (fun x => if x = addr then byte else mem x) fun x => if x = addr then .live else k x
  | call callee rbp hookRbp _ next, mem, k => next.marks (callee.plain mem) (returned rbp hookRbp (callee.marks mem k))

/-- The program reads no byte that a hook has taken and that was not written since. -/
def ReadsLive : Hooked → Mem → (Addr → Mark) → Prop
  | done, _, _ => True
  | read addr next, mem, k => k addr = .live ∧ (next (mem addr)).ReadsLive mem k
  | write addr byte next, mem, k =>
      next.ReadsLive (fun x => if x = addr then byte else mem x) fun x => if x = addr then .live else k x
  | call callee rbp hookRbp _ next, mem, k => callee.ReadsLive mem k ∧
      next.ReadsLive (callee.plain mem) (returned rbp hookRbp (callee.marks mem k))

end Hooked

section Exit
variable {rbp hookRbp site x : Addr} {mem m m' : Mem} {fuel : Nat}

theorem load64_enter : load64 (Hooked.enter rbp hookRbp site mem) hookRbp = rbp := load64_store64 (by decide)

/-- The call of the hook writes to the sixteen bytes at its frame pointer. -/
theorem enter_of_not_mem (hx : x ∉ (⟨hookRbp, 16⟩ : Span)) : Hooked.enter rbp hookRbp site mem x = mem x := by
  rw [mem_split (k := 8) (by decide)] at hx
  obtain ⟨hlow, hhigh⟩ := not_or.mp hx
  unfold Hooked.enter
  rw [store64, blit_of_not_mem hlow, store64]
  exact blit_of_not_mem hhigh

theorem enter_of_mem (hx : x ∈ (⟨hookRbp, 16⟩ : Span)) :
    Hooked.enter rbp hookRbp site m x = Hooked.enter rbp hookRbp site m' x := by
  simp only [Hooked.enter, store64]
  by_cases hlow : x ∈ (⟨hookRbp, 8⟩ : Span)
  · rw [blit_of_mem hlow, blit_of_mem hlow]
  · have hhigh : x ∈ (⟨hookRbp + 8, 8⟩ : Span) := ((mem_split (k := 8) (by decide)).mp hx).resolve_left hlow
    rw [blit_of_not_mem hlow, blit_of_not_mem hlow, blit_of_mem hhigh, blit_of_mem hhigh]

theorem exit_runs (hf : 2 ^ 64 ≤ fuel) : cygProfileFuncExit fuel hookRbp (Hooked.enter rbp hookRbp site mem) =
    some fun x => if Scrubbed rbp hookRbp x then 0x30 else Hooked.enter rbp hookRbp site mem x := by
  rw [func_exit_fills hookRbp _ hf, load64_enter]
  refine congrArg some (funext fun x => ?_)
  split
  · next h => exact if_congr (Range.mem_upto h) rfl rfl
  · next h =>
    have hnone : ¬Scrubbed rbp hookRbp x := fun ⟨hlo, hup⟩ => h (by bv_omega)
    exact (if_neg hnone).symm

end Exit

/-- The run with the hook has memory `m` where the run without it has `mem`. -/
structure Follows (k : Addr → Mark) (mem m : Mem) : Prop where
  live : ∀ x, k x = .live → m x = mem x
  cleared : ∀ x, k x = .cleared → m x = 0x30

section Follows
variable {k : Addr → Mark} {mem m : Mem} {fuel : Nat} {prog : Hooked}

namespace Follows

theorem start : Follows (fun _ => .live) mem mem := ⟨fun _ _ => rfl, fun _ hx => by cases hx⟩

theorem write (h : Follows k mem m) (addr : Addr) (byte : Byte) :
    Follows (fun x => if x = addr then .live else k x) (fun x => if x = addr then byte else mem x) fun x =>
    if x = addr then byte else m x := by
  constructor <;> intro x hx <;> by_cases ha : x = addr
  · rw [if_pos ha, if_pos ha]
  · rw [if_neg ha] at hx ⊢
    rw [if_neg ha, h.live x hx]
  · rw [if_pos ha] at hx
    cases hx
  · rw [if_neg ha] at hx ⊢
    exact h.cleared x hx

theorem returned (h : Follows k mem m) (rbp hookRbp site : Addr) : Follows (returned rbp hookRbp k) mem fun x =>
    if Scrubbed rbp hookRbp x then 0x30 else Hooked.enter rbp hookRbp site m x := by
  constructor <;> intro x hx <;> unfold StackVault.returned at hx <;> by_cases hs : Scrubbed rbp hookRbp x
  · rw [if_pos hs] at hx
    cases hx
  · rw [if_neg hs] at hx ⊢
    split at hx
    · cases hx
    · next hout => rw [enter_of_not_mem hout, h.live x hx]
  · exact if_pos hs
  · rw [if_neg hs] at hx ⊢
    split at hx
    · cases hx
    · next hout => rw [enter_of_not_mem hout, h.cleared x hx]

end Follows

/-- A call whose function has come to its end. -/
theorem run_call (hf : 2 ^ 64 ≤ fuel) {callee next : Hooked} {rbp hookRbp site : Addr}
    (hm : callee.run fuel mem = some m) :
    (Hooked.call callee rbp hookRbp site next).run fuel mem =
      next.run fuel fun x => if Scrubbed rbp hookRbp x then 0x30 else Hooked.enter rbp hookRbp site m x := by
  show (callee.run fuel mem >>= fun mem =>
    cygProfileFuncExit fuel hookRbp (Hooked.enter rbp hookRbp site mem) >>= next.run fuel) = _
  rw [hm]
  show (cygProfileFuncExit fuel hookRbp (Hooked.enter rbp hookRbp site m) >>= next.run fuel) = _
  rw [exit_runs hf]
  rfl

/-- The program runs with the hook from what follows, to what follows. -/
theorem Hooked.ReadsLive.follows (hf : 2 ^ 64 ≤ fuel) (hprog : prog.ReadsLive mem k) (h : Follows k mem m) :
    ∃ m', prog.run fuel m = some m' ∧ Follows (prog.marks mem k) (prog.plain mem) m' := by
  induction prog generalizing k mem m with
  | done => exact ⟨m, rfl, h⟩
  | read addr next ih =>
    obtain ⟨haddr, hnext⟩ := hprog
    obtain ⟨m', hrun, hm'⟩ := ih _ hnext h
    refine ⟨m', ?_, hm'⟩
    rw [← h.live addr haddr] at hrun
    exact hrun
  | write addr byte next ih => exact ih hprog (h.write addr byte)
  | call callee rbp hookRbp site next ihcallee ihnext =>
    obtain ⟨hcallee, hnext⟩ := hprog
    obtain ⟨m₁, hrun, hm₁⟩ := ihcallee hcallee h
    obtain ⟨m', hrest, hm'⟩ := ihnext hnext (hm₁.returned rbp hookRbp site)
    exact ⟨m', (run_call hf hrun).trans hrest, hm'⟩

/-- What two functions leave is told apart by what comes next only outside the bytes that the hook clears and those that
    its call writes. -/
theorem unscrubbed_iff (hf : 2 ^ 64 ≤ fuel) {callee callee' : Hooked} {mem' m' : Mem} (rbp hookRbp site : Addr)
    (hm : callee.run fuel mem = some m) (hm' : callee'.run fuel mem' = some m') :
    (∀ next, (Hooked.call callee rbp hookRbp site next).run fuel mem =
      (Hooked.call callee' rbp hookRbp site next).run fuel mem') ↔
      ∀ x, ¬Scrubbed rbp hookRbp x → x ∉ (⟨hookRbp, 16⟩ : Span) → m x = m' x := by
  simp only [run_call hf hm, run_call hf hm']
  constructor
  · intro hall x hs hx
    have hsame := congrFun (Option.some.inj (hall .done)) x
    rwa [if_neg hs, if_neg hs, enter_of_not_mem hx, enter_of_not_mem hx] at hsame
  · intro hsame next
    refine congrArg (next.run fuel) (funext fun x => ?_)
    by_cases hs : Scrubbed rbp hookRbp x
    · rw [if_pos hs, if_pos hs]
    · rw [if_neg hs, if_neg hs]
      by_cases hx : x ∈ (⟨hookRbp, 16⟩ : Span)
      · exact enter_of_mem hx
      · rw [enter_of_not_mem hx, enter_of_not_mem hx, hsame x hs hx]

/-- A program that reads no byte which a hook has taken runs with the hooks: it leaves what it leaves without them, and
    '0' on the bytes cleared since they were written last. And of what a function leaves, the code behind it, even
    if it reads what it likes, can tell only the bytes that are neither cleared nor overwritten by the call of the
    hook. -/
theorem hooks_erase (hf : 2 ^ 64 ≤ fuel) (mem : Mem) :
    (∀ prog : Hooked, prog.ReadsLive mem (fun _ => .live) → ∃ m, prog.run fuel mem = some m ∧
      (∀ x, prog.marks mem (fun _ => .live) x = .live → m x = prog.plain mem x) ∧
      ∀ x, prog.marks mem (fun _ => .live) x = .cleared → m x = 0x30) ∧
    ∀ (callee callee' : Hooked) (rbp hookRbp site : Addr) (mem' m m' : Mem), callee.run fuel mem = some m →
      callee'.run fuel mem' = some m' →
      ((∀ next, (Hooked.call callee rbp hookRbp site next).run fuel mem =
        (Hooked.call callee' rbp hookRbp site next).run fuel mem') ↔
        ∀ x, ¬Scrubbed rbp hookRbp x → x ∉ (⟨hookRbp, 16⟩ : Span) → m x = m' x) := by
  refine ⟨fun prog hprog => ?_, fun callee callee' rbp hookRbp site mem' m m' => unscrubbed_iff hf rbp hookRbp site⟩
  obtain ⟨m, hrun, hm⟩ := hprog.follows hf Follows.start
  exact ⟨m, hrun, hm.live, hm.cleared⟩

end Follows

/-- A function with a secret in the middle of its frame and one at the end, and a function behind it that copies a
    byte. -/
def leavesSecrets : Hooked :=
  .call (.write 0x4080 0x53 (.write 0x40f0 0x53 .done)) 0x4100 0x4000 0x1010
    (.read 0x40f0 fun b => .write 0x5000 b .done)

/-- The first secret is cleared, the second one, 16 bytes below the frame pointer, is found. -/
theorem hooks_erase_sample :
    ∃ m, leavesSecrets.run (2 ^ 64) (fun _ => 0x41) = some m ∧ m 0x4080 = 0x30 ∧ m 0x5000 = 0x53 := by
  obtain ⟨m, hrun, hlive, hcleared⟩ :=
    (hooks_erase (Nat.le_refl _) fun _ => 0x41).1 leavesSecrets ⟨trivial, by decide, trivial⟩
  exact ⟨m, hrun, hcleared _ (by decide), (hlive 0x5000 (by decide)).trans (by decide)⟩

end StackVault
