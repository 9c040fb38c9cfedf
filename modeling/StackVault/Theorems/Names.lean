import StackVault.Theorems.Stacks

/-! The symbol table and the names that it gives. The first encrypt loads the table, and a decrypt does
    not look whether it is there or whether its caller has a name; a decrypt is safe exactly when its
    callers see to both. Where the symbols do not cut into one another, two addresses of one symbol have
    one name, so a function finds its own name on `call_stack` again. -/

namespace StackVault
open Memory Transition

/-- The address lies in the range of the symbol. -/
def Item.Has (tmp : Item) (ip : Addr) : Prop := tmp.ip ≤ ip ∧ ip < tmp.ip + tmp.size

instance (tmp : Item) (ip : Addr) : Decidable (tmp.Has ip) := inferInstanceAs (Decidable (_ ∧ _))

/-- Two symbols have one range, or ranges without a common address. -/
def Item.Separate (a b : Item) : Prop := (∀ x, a.Has x ↔ b.Has x) ∨ ∀ x, a.Has x → ¬b.Has x

section Lookup
variable {items : List Item} {a : Item} {x y ip : Addr}

theorem getFuncName_pos {rest : List Item} (h : a.Has ip) : getFuncName (a :: rest) ip = some a.funcName := if_pos h

theorem getFuncName_neg {rest : List Item} (h : ¬a.Has ip) : getFuncName (a :: rest) ip = getFuncName rest ip :=
  if_neg h

/-- Two addresses of one symbol have one name, whichever symbol comes first. -/
theorem getFuncName_eq (h : items.Pairwise Item.Separate) (ha : a ∈ items) (hx : a.Has x) (hy : a.Has y) :
    ∃ name, getFuncName items x = some name ∧ getFuncName items y = some name := by
  induction items with
  | nil => cases ha
  | cons t rest ih =>
    obtain ⟨ht, hrest⟩ := List.pairwise_cons.mp h
    rcases List.mem_cons.mp ha with rfl | ha
    · exact ⟨a.funcName, getFuncName_pos hx, getFuncName_pos hy⟩
    rcases ht a ha with hsame | hapart
    · exact ⟨t.funcName, getFuncName_pos ((hsame x).mpr hx), getFuncName_pos ((hsame y).mpr hy)⟩
    · rw [getFuncName_neg fun htx => hapart x htx hx, getFuncName_neg fun hty => hapart y hty hy]
      exact ih hrest ha

end Lookup

/-! ### Null pointers -/

/-- The call follows a null mapper, or hands `strcmp` a null name. An encrypt looks its name up in the
    table that it has just set up. -/
def FollowsNull (env : Env) (s : State) : Op → Prop
  | .encrypt _ _ => ∀ g, setup env s.toGlobals = .ok g → g.mapper = none
  | .decrypt regs => ∀ mapper, s.mapper = some mapper → s.callStack ≠ [] ∧ getFuncName mapper regs.ip = none
  | .write _ _ => False

section Null
variable {env : Env} {s : State}

theorem FollowsNull.encrypt {regs : Regs} {plt : List Para} (h : FollowsNull env s (.encrypt regs plt)) (fuel : Nat) :
    jsysEncryptStack env fuel regs plt s = some (.error ⟨.nullDeref, s.mem, []⟩) := by
  unfold jsysEncryptStack
  cases hs : setup env s.toGlobals with
  | error f =>
    unfold setup at hs
    split at hs
    · cases hs
    · split at hs <;> cases hs
      rfl
  | ok g =>
    dsimp only
    rw [h g hs]

theorem FollowsNull.decrypt {regs : Regs} (h : FollowsNull env s (.decrypt regs)) :
    jsysDecryptStack env regs s = .error ⟨.nullDeref, s.mem, []⟩ := by
  unfold jsysDecryptStack
  cases hm : s.mapper with
  | none => rfl
  | some mapper =>
    obtain ⟨hcs, hname⟩ := h mapper hm
    obtain ⟨c, rest, hc⟩ := List.exists_cons_of_ne_nil hcs
    simp only [hc, hname]

end Null

section Runs
variable {π : Type} [DecidableEq π] {env : Env} {mems : π → Mem} {tr : List (Logged π × (π × Op))} {L : Logged π}
  {l : π × Op}

/-- An encrypt was called. -/
def Called (tr : List (Logged π × (π × Op))) : Prop := ∃ e ∈ tr, ∃ regs plt, e.2.2 = .encrypt regs plt

/-- A call with `tr` before it follows no null pointer, and as a decrypt without a known function, or
    before any encrypt, it is refused and changes nothing. -/
def NullSafe (env : Env) (tr : List (Logged π × (π × Op))) (L : Logged π) (l : π × Op) : Prop :=
  ¬FollowsNull env (L.view l.1) l.2 ∧ ∀ regs, l.2 = .decrypt regs → nameOf env regs = none ∨ ¬Called tr →
    jsysDecryptStack env regs (L.view l.1) = .ok (-1, L.view l.1)

/-- The first encrypt gets memory for its mapper. A decrypt comes after an encrypt, and from a known
    function if there is a record for it. -/
def Prepared (env : Env) (tr : List (Logged π × (π × Op))) (L : Logged π) : π × Op → Prop
  | (_, .encrypt _ _) => Called tr ∨ env.kmalloc 0 ≠ 0
  | (_, .decrypt regs) => Called tr ∧ (L.callStack = [] ∨ (nameOf env regs).isSome)
  | (_, .write _ _) => True

/-- The module is as loaded until an encrypt is called, and set up from then on. -/
theorem called_iff (hr : Run (LoggedStep env) (.start mems) tr L) :
    (Called tr ↔ L.init = true) ∧ (L.init = false → L.toGlobals = loaded) := by
  refine hr.history (P := fun _ _ => True)
    (I := fun tr L => (Called tr ↔ L.init = true) ∧ (L.init = false → L.toGlobals = loaded))
    ⟨⟨fun ⟨_, he, _⟩ => (List.not_mem_nil he).elim, fun h => by cases h⟩, fun _ => rfl⟩ ?_ fun _ _ => trivial
  rintro tr L ⟨p, op⟩ M hr ⟨hcalled, hloaded⟩ - ⟨t, ht, rfl⟩
  have hmono : Called (tr ++ [(L, (p, op))]) ↔ Called tr ∨ ∃ regs plt, op = .encrypt regs plt := by
    simp [Called, or_and_right, exists_or]
  rw [hmono]
  cases op with
  | encrypt regs plt =>
    obtain ⟨fuel, e, he, rfl⟩ := ht
    have hinit : e.state.init = true := (encrypt_mapped (Stacked.of_run hr).mapped he).2
    exact ⟨iff_of_true (Or.inr ⟨regs, plt, rfl⟩) hinit, fun hf => absurd (hinit.symm.trans hf) (by decide)⟩
  | decrypt regs =>
    obtain ⟨ret, ht⟩ := ht
    have hsame : t.init = L.init ∧ (L.init = false → t.toGlobals = L.toGlobals) := by
      rcases decrypt_cases ht with ⟨-, -, rfl⟩ | ⟨_, _, _, _, _, _, _, -, hm, -, -, -, -, rfl⟩
      · exact ⟨rfl, fun _ => rfl⟩
      · refine ⟨rfl, fun hf => ?_⟩
        have hm' : L.mapper = some _ := hm
        rw [hloaded hf] at hm'
        cases hm'
    refine ⟨?_, fun hf => (hsame.2 (hsame.1.symm.trans hf)).trans (hloaded (hsame.1.symm.trans hf))⟩
    rw [show ((L.put p t).init = true ↔ L.init = true) from by rw [← hsame.1]; rfl, ← hcalled]
    simp
  | write addr byte =>
    cases ht
    refine ⟨?_, hloaded⟩
    rw [show ((L.put p _).init = true ↔ L.init = true) from Iff.rfl, ← hcalled]
    simp

/-- After every run, the next call is safe from null pointers if and only if it is prepared for. -/
theorem null_safe_iff (hr : Run (LoggedStep env) (.start mems) tr L) (l : π × Op) :
    NullSafe env tr L l ↔ Prepared env tr L l := by
  have h := Stacked.of_run hr
  obtain ⟨hcalled, hloaded⟩ := called_iff hr
  obtain ⟨p, op⟩ := l
  cases op with
  | write addr byte => exact iff_of_true ⟨id, fun regs hl => by cases hl⟩ trivial
  | encrypt regs plt =>
    have hsafe : NullSafe env tr L (p, .encrypt regs plt) ↔ ∃ g, setup env L.toGlobals = .ok g ∧ g.mapper ≠ none := by
      refine (and_iff_left fun _ hl => by cases hl).trans ?_
      simp only [FollowsNull, not_forall, exists_prop]
      rfl
    rw [hsafe, Prepared, hcalled]
    cases hi : L.init with
    | true =>
      refine iff_of_true ⟨L.toGlobals, setup_done hi, ?_⟩ (Or.inl rfl)
      rw [h.mapped, hi]
      exact fun hnone => by cases hnone
    | false =>
      -- The first encrypt, which sets the module up.
      rw [hloaded hi]
      by_cases h0 : env.kmalloc 0 = 0
      · have hnone : setup env loaded = .error .nullDeref := if_pos h0
        exact iff_of_false (by simp [hnone]) (by simp [h0])
      · obtain ⟨g, hg, hm⟩ : ∃ g, setup env loaded = .ok g ∧ g.mapper = some env.exe := ⟨_, if_neg h0, rfl⟩
        exact iff_of_true ⟨g, hg, by simp [hm]⟩ (Or.inr h0)
  | decrypt regs =>
    cases hi : L.init with
    | false =>
      have hnone : L.mapper = none := by rw [h.mapped, hi]; rfl
      exact iff_of_false (fun hsafe => hsafe.1 fun mapper hm => absurd (hnone.symm.trans hm) (by simp))
        fun hp => by rw [hi] at hcalled; exact absurd (hcalled.mp hp.1) (by decide)
    | true =>
      have hsome : L.mapper = some env.exe := by rw [h.mapped, hi]; rfl
      have hyes : Called tr := hcalled.mpr hi
      refine ⟨fun hsafe => ⟨hyes, ?_⟩, fun ⟨_, hp⟩ => ⟨fun hnull => ?_, fun regs' hl hrefuse => ?_⟩⟩
      · by_contra hno
        obtain ⟨hcs, hname⟩ := not_or.mp hno
        refine hsafe.1 fun mapper hm => ⟨hcs, ?_⟩
        rw [← Option.some.inj (hsome.symm.trans hm)]
        exact Option.not_isSome_iff_eq_none.mp hname
      · obtain ⟨hcs, hname⟩ := hnull env.exe hsome
        rcases hp with hp | hp
        · exact hcs hp
        · exact absurd hp (by simp [nameOf, hname])
      · cases hl
        have hcs : L.callStack = [] := by
          rcases hp with hp | hp
          · exact hp
          · rcases hrefuse with hnone | hnot
            · rw [hnone] at hp
              cases hp
            · exact absurd hyes hnot
        unfold jsysDecryptStack
        rw [show (L.view p).mapper = some env.exe from hsome, show (L.view p).callStack = [] from hcs]

theorem null_safe_sample : ∃ tr L, Run (LoggedStep Env.sample) (.start fun _ : Unit => fun _ => 0x41) tr L ∧
    NullSafe Env.sample tr L ((), .decrypt (.frame 0x2010 0x3000 0x3008)) := by
  obtain ⟨tr, L, hr, hcs, -⟩ := f1_encrypts
  refine ⟨tr, L, hr,
    (null_safe_iff hr _).mpr ⟨(called_iff hr).1.mpr ((Stacked.of_run hr).init_eq hcs), Or.inr (by decide)⟩⟩

/-- A decrypt of a module just loaded follows the null mapper. After an encrypt of `f1`, one from an
    address outside every symbol gives `strcmp` a null name. -/
theorem null_followed :
    (jsysDecryptStack Env.sample (.frame 0x1010 0x3000 0x3008) ((Logged.start fun _ : Unit => fun _ => 0x41).view ()) =
        .error ⟨.nullDeref, fun _ => 0x41, []⟩ ∧
      ¬NullSafe Env.sample [] (.start fun _ : Unit => fun _ => 0x41) ((), .decrypt (.frame 0x1010 0x3000 0x3008))) ∧
    ∃ tr L, Run (LoggedStep Env.sample) (.start fun _ : Unit => fun _ => 0x41) tr L ∧
      jsysDecryptStack Env.sample (.frame 0x9000 0x3000 0x3008) (L.view ()) = .error ⟨.nullDeref, L.mems (), []⟩ ∧
      ¬NullSafe Env.sample tr L ((), .decrypt (.frame 0x9000 0x3000 0x3008)) := by
  have hfirst : FollowsNull Env.sample ((Logged.start fun _ : Unit => fun _ => 0x41).view ())
      (.decrypt (.frame 0x1010 0x3000 0x3008)) := fun mapper hm => by cases hm
  obtain ⟨tr, L, hr, hcs, -⟩ := f1_encrypts
  have h := Stacked.of_run hr
  have hsome : L.mapper = some Env.sample.exe := by rw [h.mapped, h.init_eq hcs]; rfl
  have hstranger : FollowsNull Env.sample (L.view ()) (.decrypt (.frame 0x9000 0x3000 0x3008)) := fun mapper hm => by
    obtain rfl := Option.some.inj (hsome.symm.trans hm)
    refine ⟨fun hnil => ?_, rfl⟩
    have hcs' := hcs.symm.trans hnil
    cases hcs'
  exact ⟨⟨hfirst.decrypt, fun hsafe => hsafe.1 hfirst⟩, tr, L, hr, hstranger.decrypt, fun hsafe => hsafe.1 hstranger⟩

/-! ### Names -/

/-- A decrypt comes from the symbol that the newest open encrypt came from. -/
def SameSymbol (env : Env) (L : Logged π) (l : π × Op) : Prop :=
  ∀ regs, l.2 = .decrypt regs → ∃ x xs, L.opens = x :: xs ∧ ∃ a ∈ env.exe, a.Has x.2.regs.ip ∧ a.Has regs.ip

/-- The check of a decrypt finds the name of its caller in the top record. -/
def NamesEqual (L : Logged π) (l : π × Op) : Prop :=
  ∀ regs, l.2 = .decrypt regs → ∃ c rest mapper, L.callStack = c :: rest ∧ L.mapper = some mapper ∧
    getFuncName mapper regs.ip = some c.funcName

omit [DecidableEq π] in
theorem Stacked.namesEqual (h : Stacked env L) (hexe : env.exe.Pairwise Item.Separate) (hs : SameSymbol env L l) :
    NamesEqual L l := by
  intro regs hl
  obtain ⟨x, xs, hopen, a, ha, hx, hregs⟩ := hs regs hl
  have hrec := h.records
  rw [hopen] at hrec
  obtain ⟨c, rest, ⟨-, name, hn, rfl⟩, -, hcs⟩ := List.forall₂_cons_left_iff.mp hrec
  obtain ⟨name', hx', hregs'⟩ := getFuncName_eq hexe ha hx hregs
  obtain rfl : name' = name := Option.some.inj (hx'.symm.trans hn)
  exact ⟨_, rest, env.exe, hcs, by rw [h.mapped, h.init_eq hcs]; rfl, hregs'⟩

/-- No false alarm: with separate symbols, in every run in which each decrypt comes from the symbol of
    the encrypt that it matches, the check of every decrypt finds the names equal, and so does that of
    the next one. -/
theorem no_false_alarm (hexe : env.exe.Pairwise Item.Separate) (hr : Run (LoggedStep env) (.start mems) tr L)
    (hc : Meets (SameSymbol env) tr) :
    Meets NamesEqual tr ∧ ∀ l, SameSymbol env L l → NamesEqual L l := by
  refine ⟨fun e he => ?_, fun l hl => (Stacked.of_run hr).namesEqual hexe hl⟩
  obtain ⟨pre, -, -, hpre, -⟩ := hr.of_mem e he
  exact (Stacked.of_run hpre).namesEqual hexe (hc e he)

/-- `f1` encrypts from `0x1010`; its decrypt from `0x1020` finds its name. -/
theorem no_false_alarm_sample : ∃ tr L, Run (LoggedStep Env.sample) (.start fun _ : Unit => fun _ => 0x41) tr L ∧
    L.callStack = [⟨0x3000, 0x3008, "f1"⟩] ∧ NamesEqual L ((), .decrypt (.frame 0x1020 0x3000 0x3008)) := by
  have hexec : ∃ L, exec (Logged.exec Env.sample 10) [((), .encrypt (.frame 0x1010 0x3000 0x3008) [])]
      (.start fun _ => fun _ => 0x41) = some L ∧ L.callStack = [⟨0x3000, 0x3008, "f1"⟩] ∧
      ∃ o, L.opens = [((), o)] ∧ o.regs = .frame 0x1010 0x3000 0x3008 := ⟨_, rfl, rfl, _, rfl, rfl⟩
  obtain ⟨L, hL, hcs, o, hopen, ho⟩ := hexec
  obtain ⟨tr, hr, hl⟩ := Logged.run_of_exec hL
  have hexe : Env.sample.exe.Pairwise Item.Separate := by
    refine List.pairwise_pair.mpr (Or.inr fun x h1 h2 => ?_)
    have h1' : x < 0x1100 := h1.2
    have h2' : 0x2000 ≤ x := h2.1
    bv_omega
  refine ⟨tr, L, hr, hcs, (no_false_alarm hexe hr (meets_of_labels fun l hmem s regs hdec => ?_)).2 _
    fun regs hdec => ?_⟩
  · rw [hl, List.mem_singleton] at hmem
    rw [hmem] at hdec
    cases hdec
  · cases hdec
    refine ⟨_, _, hopen, ⟨"f1", 0x1000, 0x100⟩, List.mem_cons_self, ?_, by decide⟩
    rw [ho]
    decide

end Runs

end StackVault
