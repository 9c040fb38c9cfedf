import StackVault.Probe
import StackVault.Theorems.Symbols
import StackVault.Theorems.Book

/-! The module with its table does what the module with a list does. The first call fills the table from the
    executable, no later one changes it, and a lookup in the table finds the name that a lookup in the list finds; so
    the two have the same runs, when the list has the symbols of the image. -/

namespace StackVault
open Memory Transition Elf Mapper

/-- The file is a well-formed image with its symbols in section `i`, it is read and allocations succeed, and the list
    has the symbols that have a size. -/
structure Kernel.Ready (k : Kernel) (img : List Byte) (i : Nat) : Prop where
  alloc : ∀ n r, k.kmalloc n r = true
  env : k.env.AllocOk
  image : WellFormed img i
  reads : k.file.Reads img
  exe : k.env.exe = (symbols img i).map (Entry.toItem CString.text)

/-- The module as it is with a list in place of the table. -/
def Probe.listed (k : Kernel) (g : Probe) : Globals :=
  { g.toGlobals with mapper := if g.init then some k.env.exe else none }

/-- Once the module is set up, its table has the symbols of the image. -/
structure Probe.Tabled (img : List Byte) (i : Nat) (g : Probe) : Prop where
  unset : g.init = false → g.table = none
  set : g.init = true → ∃ p a, Mapped ⟨g.table, g.store⟩ (symbols img i) p a

section Calls
variable {k : Kernel} {img : List Byte} {i rounds fuel : Nat} {g g' : Probe} {regs : Regs} {plt : List Para}
  {mem mem' : Mem} {ip : Addr}

/-! ### The table -/

theorem parseSymbols_mono {kmalloc : Kmalloc} {ep : ElfObj} {sym : Addr} {mapper : Option Nat} {σ : Store}
    {fuel fuel' : Nat} {r : Except Fault (Option Nat × Store)} (hle : fuel ≤ fuel')
    (h : parseSymbols kmalloc ep fuel sym mapper σ = some r) :
    parseSymbols kmalloc ep fuel' sym mapper σ = some r := by
  induction fuel generalizing fuel' sym mapper σ with
  | zero => cases h
  | succ fuel ih =>
    obtain ⟨fuel', rfl⟩ := Nat.exists_eq_add_of_le' (Nat.le_trans (Nat.succ_le_succ (Nat.zero_le fuel)) hle)
    rw [parseSymbols] at h ⊢
    split at h
    · exact h
    · split_ifs at h ⊢ with hret
      · exact h
      · split at h
        · exact h
        · exact h
        · exact ih (Nat.le_of_succ_le_succ hle) h

theorem parse_mono {kmalloc : Kmalloc} {exe : ExeFile} {mapper : Option Nat} {σ : Store} {fuel fuel' : Nat}
    {r : Except Fault (Option Nat × Store)} (hle : fuel ≤ fuel') (h : parse kmalloc fuel exe mapper σ = some r) :
    parse kmalloc fuel' exe mapper σ = some r := by
  unfold parse at h ⊢
  split at h
  · exact h
  · exact h
  · split at h
    · exact h
    · exact parseSymbols_mono hle h

/-- The mapper that the module makes gets the symbols of the image. -/
theorem Kernel.Ready.parse (hk : k.Ready img i) {table : Option Nat} {store : Store} {p : Nat} {a : ItemArray}
    (hm : Mapped ⟨table, store⟩ [] p a) : ∃ table' store' p' a', Mapped ⟨table', store'⟩ (symbols img i) p' a' ∧
      ∀ rounds ≥ shSize img i / 24, Elf.parse k.kmalloc rounds k.file table store = some (.ok (table', store')) := by
  have hlen := hk.image.length_symbols
  exact hk.image.parse_adds hk.reads hk.alloc hm (by rw [List.nil_append]; omega)

/-- A call sets the module up as one with a list is set up. -/
theorem Probe.Tabled.setup (h : g.Tabled img i) (hk : k.Ready img i) :
    ∃ g', StackVault.setup k.env (g.listed k) = .ok (g'.listed k) ∧
    g'.Tabled img i ∧ g'.init = true ∧ ∀ rounds ≥ shSize img i / 24, g.setup k rounds = some (.ok g') := by
  cases hi : g.init with
  | true =>
    refine ⟨g, setup_done hi, h, hi, fun rounds _ => ?_⟩
    rw [Probe.setup, if_pos hi]
  | false =>
    obtain ⟨table, store, hinit, hmapped⟩ := initMapper_ok (n := 8) k.kmalloc g.store (by decide) (by decide)
    obtain ⟨p, rfl⟩ : ∃ p, table = some p := by
      rw [initMapper, if_pos (hk.alloc _ _)] at hinit
      obtain ⟨a, -, hmade⟩ := bind_eq_ok.mp hinit
      cases hmade
      exact ⟨_, rfl⟩
    obtain ⟨a, hm⟩ := hmapped p rfl
    obtain ⟨table', store', p', a', hm', hparse⟩ := hk.parse hm
    have hset : StackVault.setup k.env (g.listed k) = _ := setup_eq hk.env hi
    have hheap : (g.listed k).heap = g.heap := rfl
    rw [hheap] at hset
    generalize hslots : initSlots k.env 16 { g.heap with next := g.heap.next + 1 } = slots at hset
    have hfull : Probe.Tabled img i
        { g with heap := slots.2, sbufStack := slots.1, init := true, table := table', store := store' } :=
      { unset := fun hf => absurd hf (Bool.false_ne_true ∘ Eq.symm), set := fun _ => ⟨p', a', hm'⟩ }
    refine ⟨{ g with heap := slots.2, sbufStack := slots.1, init := true, table := table', store := store' }, hset,
      hfull, rfl, fun rounds hrounds => ?_⟩
    rw [Probe.setup, if_neg (by rw [hi]; exact Bool.false_ne_true), hinit]
    dsimp only
    rw [hparse rounds hrounds, hslots]
    rfl

/-- A lookup in the table finds what a lookup in the list finds. -/
theorem Probe.Tabled.funcName (h : g.Tabled img i) (hk : k.Ready img i) (hi : g.init = true) (ip : Addr) :
    g.funcName ip = .ok (StackVault.getFuncName k.env.exe ip) := by
  obtain ⟨p, a, hm⟩ := h.set hi
  have hlen := hk.image.length_symbols
  obtain ⟨q, hq, hname⟩ := hm.lookup (by omega) ip
  rw [hk.exe, getFuncName_map, Probe.funcName]
  dsimp only at hq hname
  rw [hq]
  cases q with
  | none =>
    obtain hnone := Option.map_eq_none_iff.mp hname.symm
    rw [hnone]
    rfl
  | some q =>
    obtain ⟨e, he, heq⟩ := Option.map_eq_some_iff.mp hname.symm
    rw [he]
    show (g.store.string q).map _ = _
    rw [Store.string, ← heq]
    rfl

theorem Probe.Tabled.funcName_unset (h : g.Tabled img i) (hi : g.init = false) (ip : Addr) :
    g.funcName ip = .error .nullDeref := by
  rw [Probe.funcName, Mapper.getFuncName, h.unset hi]
  rfl

/-! ### The two calls -/

/-- The list is not looked at once a name was found. -/
theorem encryptFrame_listed {env : Env} {userRsp userRbp : Addr} {name : String} {G : Globals}
    {m : Option (List Item)} :
    encryptFrame env fuel userRsp userRbp plt name { G with mapper := m } mem =
      (encryptFrame env fuel userRsp userRbp plt name G mem).map fun r => r.map fun e =>
        { e with state := { e.state with mapper := m } } := by
  have htop : Globals.callStackTop { G with mapper := m } = G.callStackTop := rfl
  unfold encryptFrame
  rw [htop]
  dsimp only
  split_ifs
  · rfl
  · rfl
  · rw [Option.map_map]
    congr 1
    funext r
    cases r with
    | error f => rfl
    | ok v =>
      show (restorePointers _ _ _ _ >>= _) = Except.map _ (restorePointers _ _ _ _ >>= _)
      cases restorePointers env v.stackBuf plt { mem := v.mem, heap := v.heap, written := [] } <;> rfl
  · rfl

/-- An encrypt with a table leaves what one with a list leaves. -/
theorem Probe.Tabled.encrypt (h : g.Tabled img i) (hk : k.Ready img i) (hrounds : shSize img i / 24 ≤ rounds)
    (fuel : Nat) (regs : Regs) (plt : List Para) (mem : Mem) :
    jsysEncryptStack k.env fuel regs plt { g.listed k with mem } =
        (g.encrypt k rounds fuel regs plt mem).map
        (fun r => r.map fun x => { x.1 with state := { x.2.listed k with mem := x.1.state.mem } }) ∧
      ∀ x, g.encrypt k rounds fuel regs plt mem = some (.ok x) → x.2.Tabled img i := by
  obtain ⟨g', hset, htab, hi, hsetup⟩ := h.setup hk
  have hname := htab.funcName hk hi regs.ip
  have hlist : (g'.listed k).mapper = some k.env.exe := by
    show (if g'.init then some k.env.exe else none) = _
    rw [hi]
    rfl
  unfold jsysEncryptStack Probe.encrypt
  rw [hsetup rounds hrounds]
  dsimp only
  rw [hset, hname]
  dsimp only
  rw [hlist]
  dsimp only
  cases hfound : StackVault.getFuncName k.env.exe regs.ip with
  | none =>
    refine ⟨rfl, fun x hx => ?_⟩
    cases hx
    exact htab
  | some name =>
    dsimp only
    split_ifs with hlt
    · refine ⟨rfl, fun x hx => ?_⟩
      cases hx
      exact htab
    · rw [show g'.listed k = { g'.toGlobals with mapper := some k.env.exe } by rw [← hlist]; rfl, encryptFrame_listed]
      cases hr : encryptFrame k.env fuel regs.userRsp regs.userRbp plt name g'.toGlobals mem with
      | none => exact ⟨rfl, fun x hx => by cases hx⟩
      | some r =>
        cases r with
        | error f => exact ⟨rfl, fun x hx => by cases hx⟩
        | ok e =>
          obtain ⟨-, -, -, c, -, -, -, -, -, hst⟩ := encryptFrame_inv hr
          have hinit : e.state.init = true := by
            rw [hst]
            exact hi
          refine ⟨?_, fun x hx => ?_⟩
          · show some (Except.ok _) = some (Except.ok _)
            unfold Probe.listed
            dsimp only
            rw [hinit]
            rfl
          · cases hx
            exact { unset := fun hf => absurd (hinit.symm.trans hf) (Bool.false_ne_true ∘ Eq.symm),
                    set := fun _ => htab.set hi }

/-- Enough rounds are enough. -/
theorem Probe.encrypt_mono {rounds' : Nat} {r : Except Crash (Encrypted × Probe)} (hle : rounds ≤ rounds')
    (h : g.encrypt k rounds fuel regs plt mem = some r) : g.encrypt k rounds' fuel regs plt mem = some r := by
  have hsetup : ∀ r, g.setup k rounds = some r → g.setup k rounds' = some r := by
    intro r hr
    unfold Probe.setup at hr ⊢
    split_ifs at hr ⊢
    · exact hr
    · split at hr
      · exact hr
      · obtain ⟨x, hx, rfl⟩ := Option.map_eq_some_iff.mp hr
        exact Option.map_eq_some_iff.mpr ⟨x, parse_mono hle hx, rfl⟩
  unfold Probe.encrypt at h ⊢
  cases hr : g.setup k rounds with
  | none =>
    rw [hr] at h
    cases h
  | some r =>
    rw [hr] at h
    rw [hsetup r hr]
    exact h

/-- And so does a decrypt. -/
theorem Probe.Tabled.decrypt (h : g.Tabled img i) (hk : k.Ready img i) (regs : Regs) (mem : Mem) :
    jsysDecryptStack k.env regs { g.listed k with mem } =
        (g.decrypt k regs mem).map (fun x => (x.1, { x.2.1.listed k with mem := x.2.2 })) ∧
      ∀ x, g.decrypt k regs mem = .ok x → x.2.1.Tabled img i := by
  have hlist : (g.listed k).mapper = if g.init then some k.env.exe else none := rfl
  unfold jsysDecryptStack Probe.decrypt
  cases hi : g.init with
  | false =>
    rw [h.funcName_unset hi]
    dsimp only
    rw [hlist, hi]
    exact ⟨rfl, fun x hx => by cases hx⟩
  | true =>
    rw [h.funcName hk hi]
    dsimp only
    rw [hlist, hi, if_pos rfl]
    have hstack : (g.listed k).callStack = g.callStack := rfl
    have htop : (g.listed k).sbufStackTop = g.sbufStackTop := rfl
    have hslots : (g.listed k).sbufStack = g.sbufStack := rfl
    have hheap : (g.listed k).heap = g.heap := rfl
    dsimp only
    rw [hstack]
    cases hcs : g.callStack with
    | nil =>
      refine ⟨rfl, fun x hx => ?_⟩
      cases hx
      exact h
    | cons c rest =>
      dsimp only
      cases StackVault.getFuncName k.env.exe regs.ip with
      | none => exact ⟨rfl, fun x hx => by cases hx⟩
      | some name =>
        dsimp only
        simp only [htop, hslots, hheap]
        split_ifs with htop
        · cases hr : restoreStackBuf k.env g.heap mem (g.sbufStack ⟨g.sbufStackTop - 1, by omega⟩) with
          | error f => exact ⟨rfl, fun x hx => by cases hx⟩
          | ok y =>
            refine ⟨?_, fun x hx => ?_⟩
            · rw [show (g.listed k).init = true from hi]
              rfl
            · cases hx
              exact { unset := fun hf => absurd hf (Bool.false_ne_true ∘ Eq.symm), set := fun _ => h.set hi }
        · exact ⟨rfl, fun x hx => by cases hx⟩

end Calls

/-! ### Runs -/

/-- The host as a system whose module has a list. -/
def Host.listed {π : Type} (k : Kernel) (H : Host π) : System π := { H.toProbe.listed k with mems := H.mems }

/-- The two have the same globals and the same memories, and the table is in order. -/
structure Hosts {π : Type} (k : Kernel) (img : List Byte) (i : Nat) (H : Host π) (L : Logged π) : Prop where
  same : L.toSystem = H.listed k
  table : H.toProbe.Tabled img i

section Runs
variable {π : Type} {k : Kernel} {img : List Byte} {i : Nat} {H H' : Host π} {L L' : Logged π} {l : π × Op} {p : π}
  {g : Probe} {mem : Mem}

theorem Hosts.view (h : Hosts k img i H L) (p : π) : L.view p = { H.toProbe.listed k with mem := H.mems p } := by
  unfold System.view
  rw [h.same]
  rfl

theorem Hosts.start (k : Kernel) (img : List Byte) (i : Nat) (mems : π → Mem) :
    Hosts k img i (.start mems) (.start mems) where
  same := rfl
  table := { unset := fun _ => rfl, set := fun hf => absurd hf Bool.false_ne_true }

variable [DecidableEq π]

/-- Both are left the same by a process that is left the same. -/
theorem Hosts.put (h : Hosts k img i H L) (hg : g.Tabled img i) (hl : L'.toSystem = L.put p { g.listed k with mem }) :
    Hosts k img i (H.put p g mem) L' where
  same := by
    rw [hl, h.same]
    rfl
  table := hg

/-- A step of the host is a step of the system. -/
theorem Hosts.forward (h : Hosts k img i H L) (hk : k.Ready img i) (hs : HostStep k H l H') :
    ∃ L', LoggedStep k.env L l L' ∧ Hosts k img i H' L' := by
  obtain ⟨p, op⟩ := l
  have hview := h.view p
  cases op with
  | encrypt regs plt =>
    obtain ⟨rounds, fuel, e, g, he, rfl⟩ := hs
    obtain ⟨heq, htab⟩ := h.table.encrypt hk (Nat.le_max_left (shSize img i / 24) rounds) fuel regs plt (H.mems p)
    have he' := Probe.encrypt_mono (Nat.le_max_right (shSize img i / 24) rounds) he
    rw [he', ← hview] at heq
    exact ⟨_, ⟨_, ⟨fuel, _, heq, rfl⟩, rfl⟩, h.put (htab _ he') rfl⟩
  | decrypt regs =>
    obtain ⟨ret, g, mem, he, rfl⟩ := hs
    obtain ⟨heq, htab⟩ := h.table.decrypt hk regs (H.mems p)
    rw [he, ← hview] at heq
    exact ⟨_, ⟨_, ⟨ret, heq⟩, rfl⟩, h.put (htab _ he) rfl⟩
  | write addr byte =>
    obtain rfl := hs
    refine ⟨_, ⟨_, rfl, rfl⟩, h.put h.table ?_⟩
    rw [hview]

/-- A step of the system is a step of the host. -/
theorem Hosts.backward (h : Hosts k img i H L) (hk : k.Ready img i) (hs : LoggedStep k.env L l L') :
    ∃ H', HostStep k H l H' ∧ Hosts k img i H' L' := by
  obtain ⟨p, op⟩ := l
  obtain ⟨t, ht, rfl⟩ := hs
  have hview := h.view p
  cases op with
  | encrypt regs plt =>
    obtain ⟨fuel, e, he, rfl⟩ := ht
    obtain ⟨heq, htab⟩ := h.table.encrypt hk (Nat.le_refl _) fuel regs plt (H.mems p)
    rw [hview, heq] at he
    obtain ⟨r, hr, he⟩ := Option.map_eq_some_iff.mp he
    obtain ⟨⟨e', g⟩, rfl, rfl⟩ := map_eq_ok.mp he
    exact ⟨_, ⟨_, fuel, e', g, hr, rfl⟩, h.put (htab _ hr) rfl⟩
  | decrypt regs =>
    obtain ⟨ret, he⟩ := ht
    obtain ⟨heq, htab⟩ := h.table.decrypt hk regs (H.mems p)
    rw [hview, heq] at he
    obtain ⟨⟨ret', g, mem⟩, hr, he⟩ := map_eq_ok.mp he
    cases he
    exact ⟨_, ⟨ret', g, mem, hr, rfl⟩, h.put (htab _ hr) rfl⟩
  | write addr byte =>
    cases ht
    refine ⟨_, rfl, h.put h.table ?_⟩
    rw [hview]

end Runs

/-- The module that reads its symbols from the file and looks them up in the kernel heap has the runs of the module that
    is given the list of those symbols which have a size: the same operations, through the same globals and memories. -/
theorem host_runs_iff {π : Type} [DecidableEq π] {k : Kernel} {img : List Byte} {i : Nat} (hk : k.Ready img i)
    (mems : π → Mem) (steps : List (System π × (π × Op))) (S : System π) :
    (∃ tr H, Run (HostStep k) (.start mems) tr H ∧ tr.map (fun e => (e.1.listed k, e.2)) = steps ∧ H.listed k = S) ↔
      ∃ tr L, Run (LoggedStep k.env) (.start mems) tr L ∧ tr.map (fun e => (e.1.toSystem, e.2)) = steps ∧
      L.toSystem = S := by
  have hfree : ∀ {σ : Type} {tr : List (σ × (π × Op))}, Meets (fun _ _ => True) tr := fun _ _ => trivial
  constructor
  · rintro ⟨tr, H, hr, rfl, rfl⟩
    have hstep : ∀ (H : Host π) l H' L, Hosts k img i H L → True → HostStep k H l H' →
        True ∧ ∃ L', LoggedStep k.env L l L' ∧ Hosts k img i H' L' := fun H l H' L h _ hs => ⟨trivial, h.forward hk hs⟩
    obtain ⟨tr', L, hr', -, hsame, hend⟩ :=
      hr.lockstep (fun H => H.listed k) (fun L => L.toSystem) (.start k img i mems)
        (fun _ _ h => h.same) hstep hfree
    exact ⟨tr', L, hr', hsame, hend.same⟩
  · rintro ⟨tr, L, hr, rfl, rfl⟩
    have hstep : ∀ (L : Logged π) l L' H, Hosts k img i H L → True → LoggedStep k.env L l L' →
        True ∧ ∃ H', HostStep k H l H' ∧ Hosts k img i H' L' := fun L l L' H h _ hs => ⟨trivial, h.backward hk hs⟩
    obtain ⟨tr', H, hr', -, hsame, hend⟩ :=
      hr.lockstep (fun L => L.toSystem) (fun H => H.listed k) (.start k img i mems)
        (fun _ _ h => h.same.symm) hstep hfree
    exact ⟨tr', H, hr', hsame, hend.same.symm⟩

/-- The small executable, and an environment that has its symbols as a list. -/
def Kernel.sample : Kernel where
  env := { Env.sample with exe := [symbolA, symbolB].map (Entry.toItem CString.text) }
  kmalloc _ _ := true
  file := sampleExe

theorem Kernel.sample_ready : Kernel.sample.Ready sampleElf 0 where
  alloc _ _ := rfl
  env := Env.sample_allocOk
  image := sampleElf_wellFormed
  reads := sampleExe_reads
  exe := by rw [symbols_sampleElf]; rfl

/-- An encrypt and its decrypt, through the table. -/
theorem host_runs_iff_sample : ∃ tr H, Run (HostStep Kernel.sample) (.start fun _ : Unit => fun _ => 0) tr H ∧
    tr.map Prod.snd =
    [((), .encrypt (.frame symbolA.ip 0x4000 0x4020) []), ((), .decrypt (.frame symbolA.ip 0x4000 0x4020))] := by
  obtain ⟨L, hexec⟩ : ∃ L, Transition.exec (Logged.exec Kernel.sample.env 40)
      [((), .encrypt (.frame symbolA.ip 0x4000 0x4020) []), ((), .decrypt (.frame symbolA.ip 0x4000 0x4020))]
      (.start fun _ : Unit => fun _ => 0) = some L := ⟨_, rfl⟩
  obtain ⟨tr, hr, hl⟩ := Logged.run_of_exec hexec
  obtain ⟨tr', H, hr', hsame, -⟩ := (host_runs_iff Kernel.sample_ready _ _ _).mpr ⟨tr, L, hr, rfl, rfl⟩
  refine ⟨tr', H, hr', ?_⟩
  have hlabels := congrArg (List.map Prod.snd) hsame
  rw [List.map_map, List.map_map] at hlabels
  exact hlabels.trans hl

end StackVault
