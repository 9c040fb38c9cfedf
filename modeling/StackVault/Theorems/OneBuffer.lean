import StackVault.Backup
import StackVault.Theorems.Doubling
import StackVault.Theorems.Vault

/-! The earlier module's one buffer. It collects the segments of every encrypt since the last decrypt, and the next
    decrypt gives all of them back: the frames of functions whose callees still run as well. -/

namespace StackVault
open Memory Transition

/-! ### Saves behind what a buffer holds -/

section Saves
variable {env : Env} {c : Nat} {chunks : List Chunk} {p : Nat} {b : Sbuf} {heap : Heap} {m mem : Mem} {r : Span}

/-- Which memory a chunk names matters on its range only. -/
theorem Filled.remember (h : Filled c (chunks ++ [⟨r, mem⟩]) p b heap) (hsame : ∀ x ∈ r, mem x = m x) :
    Filled c (chunks ++ [⟨r, m⟩]) p b heap := by
  have hlen : (chunks ++ [(⟨r, m⟩ : Chunk)]).length = (chunks ++ [(⟨r, mem⟩ : Chunk)]).length := by simp
  refine ⟨h.live, h.old, h.room, ⟨h.lists.cur.trans hlen.symm, fun i ch hi => ?_⟩, hlen ▸ h.heads⟩
  rw [List.getElem?_append] at hi
  split at hi
  · next hlt => exact h.lists.item i ch (by rw [List.getElem?_append_left hlt, hi])
  · next hge =>
    have hlast : (chunks ++ [(⟨r, mem⟩ : Chunk)])[i]? = ([(⟨r, mem⟩ : Chunk)])[i - chunks.length]? :=
      List.getElem?_append_right (Nat.le_of_not_lt hge)
    cases hk : i - chunks.length with
    | zero =>
      rw [hk] at hi hlast
      cases hi
      obtain ⟨hspan, hsaves⟩ := h.lists.item i _ hlast
      refine ⟨hspan, fun k hk => ?_⟩
      have hx : (b.entry i).start + k ∈ (b.entry i).span := Range.offset_mem.mpr hk
      rw [hspan] at hx
      exact (hsaves k hk).trans (hsame _ hx)
    | succ k =>
      rw [hk] at hi
      cases hi

theorem Filled.later (h : Filled c chunks p b heap) {n : Nat} (hn : heap.next ≤ n) :
    Filled c chunks p b { heap with next := n } :=
  ⟨h.live, Nat.lt_of_lt_of_le h.old hn, h.room, h.lists, h.heads⟩

/-- The saves of ranges of memory `m`, of which `done` are behind: the chunks are added, the ranges cleared. -/
theorem Filled.saveAll (halloc : env.AllocOk) (hc : 1 ≤ c) :
    ∀ (segs : List Span) {done : List Span} {chunks : List Chunk} {v : Saved}
    {p : Nat} {b : Sbuf}, v.stackBuf = some p → Filled c chunks p b v.heap → v.mem = cleared done m →
    (done ++ segs).Pairwise Range.Apart → ∃ v' p' b', StackVault.saveAll env segs v = .ok v' ∧ v'.stackBuf = some p' ∧
      Filled c (chunks ++ segs.map fun r => ⟨r, m⟩) p' b' v'.heap ∧ v'.mem = cleared (done ++ segs) m
  | [], done, chunks, v, p, b, hp, h, hmem, _ => ⟨v, p, b, rfl, hp, by simpa using h, by simpa using hmem⟩
  | r :: rs, done, chunks, v, p, b, hp, h, hmem, hap => by
    have hkept : ∀ x ∈ r, v.mem x = m x := fun x hx => by
      have hout : ¬Covers done x := fun ⟨d, hd, hxd⟩ =>
        (List.pairwise_append.mp hap).2.2 d hd r List.mem_cons_self x hxd hx
      rw [hmem]
      exact if_neg hout
    obtain ⟨p₁, b₁, heap₁, hcopy, h₁⟩ := h.copy halloc hc ⟨r, v.mem⟩
    rw [← hp] at hcopy
    have hclear : fill v.mem r 0x30 = cleared (done ++ [r]) m := by
      funext x
      rw [hmem]
      by_cases hx : x ∈ r
      · rw [fill_of_mem hx]
        exact (if_pos (by simp [hx])).symm
      · rw [fill_of_not_mem hx]
        exact if_congr (by simp [hx]) rfl rfl
    obtain ⟨v', p', b', hall, hp', h', hmem'⟩ := Filled.saveAll halloc hc rs
      (v := { stackBuf := some p₁, heap := heap₁, mem := fill v.mem r 0x30 }) rfl (h₁.remember hkept) hclear
      (by simpa using hap)
    refine ⟨v', p', b', ?_, hp', by simpa using h', by simpa using hmem'⟩
    rw [StackVault.saveAll, save_of_copy hcopy]
    exact hall

/-- The scan of a frame, behind what the buffer holds. -/
theorem Filled.scan {plt : List Para} {userRbp : Addr} {v : Saved} (userRsp : Addr) (h : Filled c chunks p b v.heap)
    (halloc : env.AllocOk) (hc : 1 ≤ c) (hp : v.stackBuf = some p) (hw : NoWrap plt) (hb : userRbp.toNat + 1 < 2 ^ 64) :
    ∃ fuel v' p' b', StackVault.scan env plt userRbp fuel (.start userRsp v) = some (.ok v') ∧ v'.stackBuf = some p' ∧
      Filled c (chunks ++ (segments plt userRsp userRbp).map fun r => ⟨r, v.mem⟩) p' b' v'.heap ∧
      v'.mem = cleared (segments plt userRsp userRbp) v.mem := by
  have hnone : v.mem = cleared [] v.mem := funext fun x => (if_neg covers_nil).symm
  obtain ⟨v', p', b', hall, hp', h', hmem⟩ := Filled.saveAll halloc hc (segments plt userRsp userRbp) hp h hnone
    (segments_inner userRsp hw hb).apart
  exact ⟨_, v', p', b', (scan_of_cut (l := .start userRsp v) (cut_segments _ hw hb)).trans (congrArg some hall), hp',
    h', hmem⟩

/-- A restore of an array that has not grown gives every chunk back, writes nothing else, and leaves it empty. -/
theorem Filled.restore (h : Filled c chunks p b heap) (hsort : env.SortOk)
    (hap : (chunks.map Chunk.range).Pairwise Range.Apart) (hle : chunks.length ≤ c) (hlim : c ≤ 2 ^ 31) (mem : Mem) :
    ∃ heap' mem' b', restoreStackBuf env heap mem (some p) = .ok (heap', mem') ∧
      Filled c [] p b' heap' ∧ (∀ ch ∈ chunks, ∀ x ∈ ch.range, mem' x = ch.mem x) ∧
      ∀ x, (∀ ch ∈ chunks, x ∉ ch.range) → mem' x = mem x := by
  have hun := h.unholed_iff.mpr hle
  have hcap : b.cap = c := by
    rcases h.heads with ⟨-, hcap, -⟩ | ⟨hlt, -⟩
    · exact hcap
    · omega
  have hfew : b.cur ≤ 2 ^ 31 := h.lists.cur ▸ hle.trans hlim
  obtain ⟨b', hres, hcur, hcap'⟩ := restoreStackBuf_ok mem h.live hfew fun i hi =>
    restorable_of_no_holes (hsort.nil cmp) (hun i hi)
  have hback := h.writesBack hsort hap hle (hle.trans hlim) mem
  obtain ⟨b'', mem'', hres', -, hchunks⟩ := hback
  have hsame := hres.symm.trans hres'
  refine ⟨_, _, b', hres, ⟨Heap.set_sbufs_self, h.old, by omega, ⟨hcur, fun i ch hi => by cases hi⟩,
    Or.inl ⟨Nat.zero_le _, hcap'.trans hcap, fun i hi => by omega⟩⟩, ?_, fun x hx => giveBackAll_of_none
    fun e he hge => ?_⟩
  · rw [(Prod.mk.inj (Except.ok.inj hsame)).2]
    exact hchunks
  · have hspan : e.span ∈ chunks.map Chunk.range := h.lists.spans ▸ List.mem_map_of_mem he
    obtain ⟨ch, hch, hrange⟩ := List.mem_map.mp hspan
    exact hx ch hch (hrange ▸ hge.1)

/-- An array that has grown cannot be restored. -/
theorem Filled.restore_none (h : Filled c chunks p b heap) (hlt : c < chunks.length) (mem : Mem) (x : Heap × Mem) :
    restoreStackBuf env heap mem (some p) ≠ .ok x := fun hres => by
  rcases h.heads with ⟨hle, -⟩ | ⟨-, hhome⟩
  · omega
  · have hpos : 0 < b.cur := by
      rw [h.lists.cur]
      omega
    rw [home_of_restore h.live hpos hres] at hhome
    exact Nat.lt_irrefl p hhome

end Saves

namespace Bkp

/-! ### Calls -/

section Calls
variable {env : Env} {fuel : Nat} {userRsp userRbp : Addr} {regs : Regs} {plt : List Para} {name : String}
  {g g' : Globals} {s t : State} {e : Encrypted} {mem : Mem} {chunks : List Chunk} {p : Nat} {b : Sbuf}

/-- The table is loaded by the first encrypt. -/
def Globals.Mapped (env : Env) (g : Globals) : Prop := g.mapper = if g.init then some env.exe else none

theorem Globals.mapped (hinit : g.init = true) (hmapper : g.mapper = some env.exe) : g.Mapped env := by
  rw [Globals.Mapped, if_pos hinit]
  exact hmapper

theorem setup_done (h : g.init = true) : setup env g = .ok g := if_pos h

/-- The first call makes an empty buffer for 32 segments. -/
theorem setup_first (halloc : env.AllocOk) (h : g.init = false) : ∃ g' p b, setup env g = .ok g' ∧ g'.init = true ∧
    g'.mapper = some env.exe ∧ g'.callStack = g.callStack ∧ g'.stackBuf = some p ∧ Filled 32 [] p b g'.heap := by
  have hptr : (initStackBuf env 32 { g.heap with next := g.heap.next + 1 }).1 = some (g.heap.next + 1) := by
    unfold initStackBuf
    rw [if_neg (halloc _)]
  refine ⟨{ g with heap := (initStackBuf env 32 { g.heap with next := g.heap.next + 1 }).2,
                   stackBuf := some (g.heap.next + 1),
                   mapper := some env.exe, init := true }, g.heap.next + 1, _, ?_, rfl, rfl, rfl, rfl,
                   Filled.init (Prod.ext hptr rfl)⟩
  unfold setup
  rw [h, if_neg Bool.false_ne_true, if_neg (halloc _)]
  dsimp only
  rw [hptr]

theorem setup_inv (h : setup env g = .ok g') (hm : g.Mapped env) :
    g'.init = true ∧ g'.mapper = some env.exe ∧ g'.callStack = g.callStack := by
  unfold setup at h
  split at h
  · next hi =>
    cases h
    exact ⟨hi, by rw [hm, if_pos hi], rfl⟩
  · split at h
    · cases h
    · cases h
      exact ⟨rfl, rfl, rfl⟩

theorem restorePointers_byValue {sbuf : Option SbufPtr} : ∀ {plt : List Para} {c : Chase}, AllByValue plt →
    restorePointers env sbuf plt c = .ok (plt, c)
  | [], _, _ => rfl
  | tmp :: rest, c, h => by
    unfold restorePointers
    rw [if_pos (h tmp List.mem_cons_self), restorePointers_byValue fun p hp => h p (List.mem_cons_of_mem _ hp)]
    rfl

/-- An encrypt that returns is refused or runs over its frame. -/
theorem encrypt_cases (hm : s.Mapped env) (h : jsysEncryptStack env fuel regs plt s = some (.ok e)) :
    ∃ g, setup env s.toGlobals = .ok g ∧
      ((¬Accepts env s.callStack regs ∧ e.state = { g with mem := s.mem }) ∨
        ∃ name, nameOf env regs = some name ∧ Accepts env s.callStack regs ∧
          encryptFrame env fuel regs.userRsp regs.userRbp plt name g s.mem = some (.ok e)) := by
  unfold jsysEncryptStack at h
  cases hs : setup env s.toGlobals with
  | error f =>
    rw [hs] at h
    cases h
  | ok g =>
    obtain ⟨-, hmapper, hcs⟩ := setup_inv hs hm
    rw [hs] at h
    simp only [hmapper] at h
    refine ⟨g, rfl, ?_⟩
    cases hn : getFuncName env.exe regs.ip with
    | none =>
      rw [hn] at h
      cases h
      refine Or.inl ⟨fun hacc => ?_, rfl⟩
      have hname := hacc.1.1
      rw [nameOf, hn] at hname
      cases hname
    | some name =>
      rw [hn] at h
      dsimp only at h
      split at h
      · next hlt =>
        cases h
        exact Or.inl ⟨fun hacc => absurd hacc.1.2 (BitVec.not_le.mpr hlt), rfl⟩
      · next hlt =>
        split at h
        · next hreach =>
          cases h
          exact Or.inl ⟨fun hacc => hacc.2 (hcs ▸ hreach), rfl⟩
        · next hreach => exact Or.inr ⟨name, hn, ⟨⟨by simp [nameOf, hn], BitVec.not_lt.mp hlt⟩, hcs ▸ hreach⟩, h⟩

theorem encrypt_refused (hm : s.Mapped env) (hset : setup env s.toGlobals = .ok g)
    (hna : ¬Accepts env s.callStack regs) :
    ∃ ret, jsysEncryptStack env fuel regs plt s =
    some (.ok { ret, paraList := plt, state := { g with mem := s.mem } }) := by
  obtain ⟨-, hmapper, hcs⟩ := setup_inv hset hm
  unfold jsysEncryptStack
  rw [hset]
  simp only [hmapper]
  cases hn : getFuncName env.exe regs.ip with
  | none => exact ⟨_, rfl⟩
  | some name =>
    dsimp only
    by_cases hlt : regs.userRbp < regs.userRsp
    · exact ⟨_, if_pos hlt⟩
    · rw [if_neg hlt]
      have hreach : ReachesCaller g.callStack regs.userRbp := by
        by_contra hnot
        exact hna ⟨⟨by simp [nameOf, hn], BitVec.not_lt.mp hlt⟩, hcs ▸ hnot⟩
      exact ⟨_, if_pos hreach⟩

theorem encrypt_accepted (hm : s.Mapped env) (hset : setup env s.toGlobals = .ok g) (hn : nameOf env regs = some name)
    (hacc : Accepts env s.callStack regs) :
    jsysEncryptStack env fuel regs plt s = encryptFrame env fuel regs.userRsp regs.userRbp plt name g s.mem := by
  obtain ⟨-, hmapper, hcs⟩ := setup_inv hset hm
  unfold jsysEncryptStack
  rw [hset]
  simp only [hmapper]
  rw [show getFuncName env.exe regs.ip = some name from hn]
  exact (if_neg (BitVec.not_lt.mpr hacc.1.2)).trans (if_neg (hcs ▸ hacc.2))

/-- A by-value encrypt over a buffer that holds `chunks`: its segments are added and cleared. -/
theorem frame_returns (userRsp : Addr) (name : String) (mem : Mem) (halloc : env.AllocOk) (hv : AllByValue plt)
    (hw : NoWrap plt) (hb : userRbp.toNat + 1 < 2 ^ 64) (hptr : g.stackBuf = some p) (hf : Filled 32 chunks p b g.heap)
    (hcs : g.callStack.length < 64) :
    ∃ fuel heap' p' b', encryptFrame env fuel userRsp userRbp plt name g mem =
        some (.ok { ret := 0, paraList := plt,
                    state := { g with callStack := ⟨userRsp, userRbp, name⟩ :: g.callStack,
                                      stackBuf := some p', heap := heap',
                                      mem := cleared (segments plt userRsp userRbp) mem } }) ∧
      Filled 32 (chunks ++ (segments plt userRsp userRbp).map fun r => ⟨r, mem⟩) p' b' heap' := by
  obtain ⟨fuel, v, p', b', hscan, hp', hf', hmem⟩ := Filled.scan userRsp
    (v := { stackBuf := g.stackBuf, heap := { g.heap with next := g.heap.next + 2 }, mem })
    (hf.later (Nat.le_add_right _ 2)) halloc (by decide) hptr hw hb
  refine ⟨fuel, v.heap, p', b', ?_, hf'⟩
  unfold encryptFrame
  rw [if_neg (not_or.mpr ⟨halloc _, halloc _⟩), if_neg (show ¬64 ≤ g.callStackTop from Nat.not_le_of_lt hcs)]
  refine (congrArg (Option.map _) hscan).trans ?_
  rw [Option.map_some, ← hp', ← hmem]
  simp only [bind, Except.bind, restorePointers_byValue hv]
  rfl

/-- What does not depend on the number of iterations allowed. -/
theorem frame_unique {fuel' : Nat} {e' : Encrypted}
    (h : encryptFrame env fuel userRsp userRbp plt name g mem = some (.ok e))
    (h' : encryptFrame env fuel' userRsp userRbp plt name g mem = some (.ok e')) : e = e' := by
  unfold encryptFrame at h h'
  split at h
  · cases h
  · split at h
    · cases h
    · rw [if_neg ‹_›, if_neg ‹_›] at h'
      obtain ⟨r, hscan, hr⟩ := Option.map_eq_some_iff.mp h
      obtain ⟨r', hscan', hr'⟩ := Option.map_eq_some_iff.mp h'
      rw [scan_unique hscan hscan'] at hr
      exact Except.ok.inj (hr.symm.trans hr')

theorem frame_depth (h : encryptFrame env fuel userRsp userRbp plt name g mem = some (.ok e)) :
    g.callStack.length < 64 := by
  unfold encryptFrame at h
  split at h
  · cases h
  · split at h
    · cases h
    · next hcs => exact Nat.lt_of_not_le hcs

/-- A decrypt from a known function, with a record to pop, restores the buffer. -/
theorem decrypt_eq {c : CsItem} {rest : List CsItem} (hm : s.Mapped env) (hinit : s.init = true)
    (hname : (nameOf env regs).isSome) (hcs : s.callStack = c :: rest) :
    jsysDecryptStack env regs s = (restoreStackBuf env s.heap s.mem s.stackBuf).map fun x =>
      (0, { s with heap := x.1, mem := x.2, callStack := rest }) := by
  obtain ⟨name, hn⟩ := Option.isSome_iff_exists.mp hname
  have hmapper : s.mapper = some env.exe := by rw [hm, hinit]; rfl
  unfold jsysDecryptStack
  rw [hmapper]
  dsimp only
  rw [hcs]
  dsimp only
  rw [show getFuncName env.exe regs.ip = some name from hn]
  dsimp only
  cases restoreStackBuf env s.heap s.mem s.stackBuf <;> rfl

theorem decrypt_none {ret : Int} (hcs : s.callStack = []) (h : jsysDecryptStack env regs s = .ok (ret, t)) : t = s := by
  unfold jsysDecryptStack at h
  cases hmap : s.mapper with
  | none =>
    rw [hmap] at h
    cases h
  | some mapper =>
    rw [hmap] at h
    dsimp only at h
    rw [hcs] at h
    cases h
    rfl

/-- A decrypt that returns and pops a record comes from a known function, after the first encrypt. -/
theorem decrypt_known {ret : Int} (hm : s.Mapped env) (hcs : s.callStack ≠ [])
    (h : jsysDecryptStack env regs s = .ok (ret, t)) :
    s.init = true ∧ (nameOf env regs).isSome := by
  unfold jsysDecryptStack at h
  cases hi : s.init with
  | false =>
    rw [hm, hi] at h
    cases h
  | true =>
    refine ⟨rfl, ?_⟩
    rw [hm, hi] at h
    obtain ⟨c, rest, hcs⟩ := List.exists_cons_of_ne_nil hcs
    simp only [if_true, hcs] at h
    cases hn : getFuncName env.exe regs.ip with
    | none =>
      rw [hn] at h
      cases h
    | some name => rw [nameOf, hn]; rfl

end Calls

/-! ### What the buffer holds -/

/-- What an encrypt cleared. -/
def Held.region (h : Held) : List Span := segments h.paraList h.regs.userRsp h.regs.userRbp

/-- What the buffer holds, oldest first. -/
def chunksOf (held : List Held) : List Chunk := held.reverse.flatMap fun h => h.region.map fun r => ⟨r, h.before⟩

/-- Frames that do not wrap, each below the one before it, newest first. -/
structure Descending (held : List Held) : Prop where
  noWrap : ∀ h ∈ held, NoWrap h.paraList
  fits : ∀ h ∈ held, h.regs.userRbp.toNat + 1 < 2 ^ 64
  le : ∀ h ∈ held, h.regs.userRsp ≤ h.regs.userRbp
  below : held.Pairwise fun h k => h.regs.userRbp < k.regs.userRsp

section Chunks
variable {held : List Held} {h k : Held} {x : Addr} {ch : Chunk}

theorem chunksOf_cons : chunksOf (h :: held) = chunksOf held ++ h.region.map
    fun r => ⟨r, h.before⟩ := by simp [chunksOf]

theorem chunksOf_push {regs : Regs} {paraList : List Para} {before : Mem} :
    chunksOf (⟨regs, paraList, before⟩ :: held) =
    chunksOf held ++ (segments paraList regs.userRsp regs.userRbp).map fun r => ⟨r, before⟩ := chunksOf_cons

theorem mem_chunksOf : ch ∈ chunksOf held ↔ ∃ h ∈ held, ∃ r ∈ h.region, (⟨r, h.before⟩ : Chunk) = ch := by
  simp [chunksOf]

theorem Descending.nil : Descending [] where
  noWrap _ h := by cases h
  fits _ h := by cases h
  le _ h := by cases h
  below := .nil

theorem Descending.bounds (hd : Descending held) (hh : h ∈ held) (hx : Covers h.region x) :
    h.regs.userRsp ≤ x ∧ x < h.regs.userRbp :=
  (segments_inner _ (hd.noWrap h hh) (hd.fits h hh)).bounds hx

theorem Descending.tail (hd : Descending (h :: held)) : Descending held :=
  ⟨fun k hk => hd.noWrap k (List.mem_cons_of_mem _ hk), fun k hk => hd.fits k (List.mem_cons_of_mem _ hk),
    fun k hk => hd.le k (List.mem_cons_of_mem _ hk), hd.below.of_cons⟩

/-- A frame below the newest is below them all. -/
theorem Descending.cons (hd : Descending held) (hw : NoWrap h.paraList) (hb : h.regs.userRbp.toNat + 1 < 2 ^ 64)
    (hle : h.regs.userRsp ≤ h.regs.userRbp) (htop : ∀ k ∈ held.head?, h.regs.userRbp < k.regs.userRsp) :
    Descending (h :: held) := by
  have hall : ∀ k ∈ held, h.regs.userRbp < k.regs.userRsp := by
    cases held with
    | nil => intro k hk; cases hk
    | cons n rest =>
      intro k hk
      have hn := htop n rfl
      rcases List.mem_cons.mp hk with rfl | hk
      · exact hn
      · have hbelow := List.rel_of_pairwise_cons hd.below hk
        have hframe := hd.le n List.mem_cons_self
        bv_omega
  exact ⟨List.forall_mem_cons.mpr ⟨hw, hd.noWrap⟩, List.forall_mem_cons.mpr ⟨hb, hd.fits⟩,
    List.forall_mem_cons.mpr ⟨hle, hd.le⟩,
    List.pairwise_cons.mpr ⟨hall, hd.below⟩⟩

/-- Nothing is held twice. -/
theorem Descending.apart (hd : Descending held) : ((chunksOf held).map Chunk.range).Pairwise Range.Apart := by
  induction held with
  | nil => exact .nil
  | cons h held ih =>
    have hregion : ((h.region.map fun r => (⟨r, h.before⟩ : Chunk)).map Chunk.range) = h.region := by
      rw [List.map_map]
      exact List.map_id _
    rw [chunksOf_cons, List.map_append, hregion]
    refine List.pairwise_append.mpr
      ⟨ih hd.tail, (segments_inner _ (hd.noWrap h List.mem_cons_self) (hd.fits h List.mem_cons_self)).apart, ?_⟩
    intro d hmem r hr x hxd hxr
    obtain ⟨ch, hch, rfl⟩ := List.mem_map.mp hmem
    obtain ⟨k, hk, r', hr', rfl⟩ := mem_chunksOf.mp hch
    have hlow := (hd.bounds (List.mem_cons_of_mem _ hk) ⟨r', hr', hxd⟩).1
    have hup := (hd.bounds List.mem_cons_self ⟨r, hr, hxr⟩).2
    have hbelow := List.rel_of_pairwise_cons hd.below hk
    bv_omega

end Chunks

/-! ### Over a run -/

/-- The buffer holds the segments of the encrypts since the last decrypt, whose frames lie below each other and whose
    newest has the newest record. -/
structure OneBuffer {π : Type} (env : Env) (L : Logged π) : Prop where
  mapped : L.Mapped env
  idle : L.init = false → L.callStack = [] ∧ L.held = []
  buffer : L.init = true → ∃ p b, L.stackBuf = some p ∧ Filled 32 (chunksOf L.held) p b L.heap
  newest : ∀ h ∈ L.held.head?, ∃ c ∈ L.callStack.head?, c.userRsp = h.regs.userRsp
  frames : Descending L.held

/-- What is asked of an accepted encrypt: its parameters are by value, and nothing wraps round. -/
def ByValueCall {π : Type} (env : Env) (L : Logged π) (l : π × Op) : Prop :=
  ∀ regs plt, l.2 = .encrypt regs plt → Accepts env L.callStack regs → AllByValue plt ∧ NoWrap plt ∧
    regs.userRbp.toNat + 1 < 2 ^ 64

/-- The segments that the buffer holds. -/
def Logged.load {π : Type} (L : Logged π) : Nat := (L.held.map fun h => h.region.length).sum

section Runs
variable {π : Type} {env : Env} {mems : π → Mem} {L M : Logged π} {l : π × Op} {p : π} {regs : Regs} {plt : List Para}

theorem length_chunksOf : ∀ {held : List Held}, (chunksOf held).length = (held.map fun h => h.region.length).sum
  | [] => rfl
  | h :: held => by
    rw [chunksOf_cons, List.length_append, List.length_map, length_chunksOf, List.map_cons, List.sum_cons, Nat.add_comm]

namespace OneBuffer

theorem start : OneBuffer env (.start mems) where
  mapped := rfl
  idle _ := ⟨rfl, rfl⟩
  buffer h := by cases h
  newest _ h := by cases h
  frames := .nil

theorem held_nil (h : OneBuffer env L) (hcs : L.callStack = []) : L.held = [] := by
  cases hheld : L.held with
  | nil => rfl
  | cons k rest =>
    obtain ⟨c, hc, -⟩ := h.newest k (by rw [hheld]; rfl)
    rw [hcs] at hc
    cases hc

/-- What a call finds once the module is set up. -/
theorem ready (h : OneBuffer env L) (halloc : env.AllocOk) : ∃ g p b, setup env L.toGlobals = .ok g ∧ g.init = true ∧
    g.mapper = some env.exe ∧ g.callStack = L.callStack ∧ g.stackBuf = some p ∧
    Filled 32 (chunksOf L.held) p b g.heap := by
  cases hi : L.init with
  | false =>
    obtain ⟨g, p, b, hset, hinit, hmapper, hcs, hptr, hf⟩ := setup_first halloc hi
    exact ⟨g, p, b, hset, hinit, hmapper, hcs, hptr, by rwa [(h.idle hi).2]⟩
  | true =>
    obtain ⟨p, b, hptr, hf⟩ := h.buffer hi
    exact ⟨L.toGlobals, p, b, setup_done hi, hi, by rw [h.mapped, if_pos hi], rfl, hptr, hf⟩

/-- A decrypt gives back all that is held, if the buffer has not grown. -/
theorem decrypt (h : OneBuffer env L) (hsort : env.SortOk) (hinit : L.init = true) (hname : (nameOf env regs).isSome)
    (hcs : L.callStack ≠ []) (hle : L.load ≤ 32) (mem : Mem) :
    ∃ heap' mem' p b', jsysDecryptStack env regs { L.toGlobals with mem } =
        .ok (0, { L.toGlobals with heap := heap', mem := mem', callStack := L.callStack.tail }) ∧
      L.stackBuf = some p ∧ Filled 32 [] p b' heap' ∧ (∀ k ∈ L.held, ∀ x, Covers k.region x → mem' x = k.before x) ∧
      ∀ x, (∀ k ∈ L.held, ¬Covers k.region x) → mem' x = mem x := by
  obtain ⟨c, rest, hcs⟩ := List.exists_cons_of_ne_nil hcs
  obtain ⟨p, b, hptr, hf⟩ := h.buffer hinit
  obtain ⟨heap', mem', b', hres, hf', hback, hrest⟩ :=
    hf.restore hsort h.frames.apart (length_chunksOf.trans_le hle) (by decide) mem
  refine ⟨heap', mem', p, b', ?_, hptr, hf', fun k hk x hx => ?_, fun x hx => hrest x fun ch hch hxch => ?_⟩
  · rw [decrypt_eq (s := { L.toGlobals with mem }) h.mapped hinit hname hcs, hptr, hres, hcs, ← hptr]
    rfl
  · obtain ⟨r, hr, hxr⟩ := hx
    exact hback _ (mem_chunksOf.mpr ⟨k, hk, r, hr, rfl⟩) x hxr
  · obtain ⟨k, hk, r, hr, rfl⟩ := mem_chunksOf.mp hch
    exact hx k hk ⟨r, hr, hxch⟩

/-- A decrypt that returns has found a buffer that has not grown. -/
theorem load_le (h : OneBuffer env L) (hcs : L.callStack ≠ []) {mem : Mem} {ret : Int} {t : State}
    (ht : jsysDecryptStack env regs { L.toGlobals with mem } = .ok (ret, t)) : L.load ≤ 32 := by
  by_contra hlt
  obtain ⟨hinit, hname⟩ := decrypt_known (s := { L.toGlobals with mem }) h.mapped hcs ht
  obtain ⟨c, rest, hcs⟩ := List.exists_cons_of_ne_nil hcs
  obtain ⟨p, b, hptr, hf⟩ := h.buffer hinit
  rw [decrypt_eq (s := { L.toGlobals with mem }) h.mapped hinit hname hcs, hptr] at ht
  obtain ⟨x, hres, -⟩ := map_eq_ok.mp ht
  exact hf.restore_none (length_chunksOf ▸ Nat.lt_of_not_le hlt) mem x hres

/-- An accepted encrypt adds its segments to the buffer, and clears them. -/
theorem encrypt (h : OneBuffer env L) (halloc : env.AllocOk) (hacc : Accepts env L.callStack regs) (hv : AllByValue plt)
    (hw : NoWrap plt) (hb : regs.userRbp.toNat + 1 < 2 ^ 64) {fuel : Nat} {e : Encrypted}
    (he : jsysEncryptStack env fuel regs plt (L.view p) = some (.ok e)) :
    ∃ name p' b', e.state.callStack = ⟨regs.userRsp, regs.userRbp, name⟩ :: L.callStack ∧ e.state.init = true ∧
      e.state.mapper = some env.exe ∧ e.state.stackBuf = some p' ∧
      Filled 32 (chunksOf (⟨regs, plt, L.mems p⟩ :: L.held)) p' b' e.state.heap ∧
      e.state.mem = cleared (segments plt regs.userRsp regs.userRbp) (L.mems p) := by
  obtain ⟨g, q, b, hset, hinit, hmapper, hcs, hptr, hf⟩ := h.ready halloc
  obtain ⟨g', hset', hcase⟩ := encrypt_cases (s := L.view p) h.mapped he
  obtain rfl : g' = g := Except.ok.inj (hset'.symm.trans hset)
  rcases hcase with ⟨hna, -⟩ | ⟨name, -, -, hframe⟩
  · exact absurd hacc hna
  · obtain ⟨fuel', heap', p', b', hret, hf'⟩ :=
      frame_returns regs.userRsp name (L.mems p) halloc hv hw hb hptr hf (frame_depth hframe)
    obtain rfl := frame_unique hframe hret
    rw [← chunksOf_push] at hf'
    exact ⟨name, p', b', congrArg _ hcs, hinit, hmapper, rfl, hf', by dsimp only⟩

/-- A refused encrypt has at most set the module up. -/
theorem refused (h : OneBuffer env L) (halloc : env.AllocOk) (hna : ¬Accepts env L.callStack regs) {fuel : Nat}
    {e : Encrypted} (he : jsysEncryptStack env fuel regs plt (L.view p) = some (.ok e)) :
    e.state.callStack = L.callStack ∧ e.state.init = true ∧ e.state.mapper = some env.exe ∧ e.state.mem = L.mems p ∧
      ∃ q b, e.state.stackBuf = some q ∧ Filled 32 (chunksOf L.held) q b e.state.heap := by
  obtain ⟨g, q, b, hset, hinit, hmapper, hcs, hptr, hf⟩ := h.ready halloc
  obtain ⟨g', hset', hcase⟩ := encrypt_cases (s := L.view p) h.mapped he
  obtain rfl : g' = g := Except.ok.inj (hset'.symm.trans hset)
  rcases hcase with ⟨-, hst⟩ | ⟨name, -, hacc, -⟩
  · rw [hst]
    exact ⟨hcs, hinit, hmapper, rfl, q, b, hptr, hf⟩
  · exact absurd hacc hna

variable [DecidableEq π]

/-- Without a record a decrypt does nothing. -/
theorem decrypt_idle (h : OneBuffer env L) (hcs : L.callStack = []) (hs : LoggedStep env L (p, .decrypt regs) M) :
    M = L := by
  obtain ⟨t, ⟨ret, ht⟩, rfl⟩ := hs
  obtain rfl := decrypt_none (s := L.view p) hcs ht
  have hlog : L.log env (p, .decrypt regs) = L.held := (h.held_nil hcs).symm
  have hmems : (fun q => if q = p then L.mems p else L.mems q) = L.mems :=
    ite_eq_update.trans (Function.update_eq_self p L.mems)
  rw [Logged.after, hlog, show (L.view p).mem = L.mems p from rfl, hmems]
  rfl

theorem step (h : OneBuffer env L) (halloc : env.AllocOk) (hsort : env.SortOk) (hc : ByValueCall env L l)
    (hs : LoggedStep env L l M) : OneBuffer env M := by
  obtain ⟨p, op⟩ := l
  obtain ⟨t, ht, rfl⟩ := hs
  cases op with
  | encrypt regs plt =>
    obtain ⟨fuel, e, he, rfl⟩ := ht
    by_cases hacc : Accepts env L.callStack regs
    · obtain ⟨hv, hw, hb⟩ := hc regs plt rfl hacc
      obtain ⟨name, p', b', hcs, hinit, hmapper, hptr, hf, -⟩ := h.encrypt halloc hacc hv hw hb he
      have hlog : L.log env (p, .encrypt regs plt) = ⟨regs, plt, L.mems p⟩ :: L.held := if_pos hacc
      rw [Logged.after, hlog]
      refine ⟨Globals.mapped hinit hmapper, fun hi => ?_, fun _ => ⟨p', b', hptr, hf⟩, fun k hk => ?_,
        h.frames.cons hw hb hacc.1.2 fun k hk => ?_⟩
      · rw [hinit] at hi
        cases hi
      · cases hk
        exact ⟨⟨regs.userRsp, regs.userRbp, name⟩, congrArg List.head? hcs, rfl⟩
      · obtain ⟨c, hc, hrsp⟩ := h.newest k hk
        rw [← hrsp]
        exact BitVec.not_le.mp fun hreach => hacc.2 ⟨c, hc, hreach⟩
    · obtain ⟨hcs, hinit, hmapper, -, hbuf⟩ := h.refused halloc hacc he
      have hlog : L.log env (p, .encrypt regs plt) = L.held := if_neg hacc
      rw [Logged.after, hlog]
      refine ⟨Globals.mapped hinit hmapper, fun hi => ?_, fun _ => hbuf, fun k hk => ?_, h.frames⟩
      · rw [hinit] at hi
        cases hi
      · rw [hcs]
        exact h.newest k hk
  | decrypt regs =>
    by_cases hcs : L.callStack = []
    · rw [h.decrypt_idle hcs ⟨t, ht, rfl⟩]
      exact h
    · obtain ⟨ret, ht⟩ := ht
      obtain ⟨hinit, hname⟩ := decrypt_known (s := L.view p) h.mapped hcs ht
      obtain ⟨heap', mem', q, b', hdec, hptr, hf, -⟩ := h.decrypt hsort hinit hname hcs (h.load_le hcs ht) (L.mems p)
      cases ht.symm.trans hdec
      refine ⟨h.mapped, fun hi => ?_, fun _ => ⟨q, b', hptr, hf⟩, fun k hk => ?_, .nil⟩
      · exact absurd (show L.init = false from hi) (by rw [show L.init = true from hinit]; exact Bool.noConfusion)
      · cases hk
  | write addr byte =>
    cases ht
    exact ⟨h.mapped, h.idle, h.buffer, h.newest, h.frames⟩

theorem of_run {tr : List (Logged π × (π × Op))} (halloc : env.AllocOk) (hsort : env.SortOk)
    (hr : Run (LoggedStep env) (.start mems) tr L) (hc : Meets (ByValueCall env) tr) : OneBuffer env L :=
  hr.invariant start (fun _ _ _ hi hc hs => hi.step halloc hsort hc hs) hc

end OneBuffer

/-- With nothing held, a decrypt changes no memory. -/
theorem OneBuffer.idle_decrypt [DecidableEq π] (h : OneBuffer env L) (hsort : env.SortOk) (hheld : L.held = [])
    (hs : LoggedStep env L (p, .decrypt regs) M) : M.mems = L.mems := by
  by_cases hcs : L.callStack = []
  · rw [h.decrypt_idle hcs hs]
  · obtain ⟨t, ⟨ret, ht⟩, rfl⟩ := hs
    obtain ⟨hinit, hname⟩ := decrypt_known (s := L.view p) h.mapped hcs ht
    obtain ⟨heap', mem', -, -, hdec, -, -, -, hrest⟩ := h.decrypt hsort hinit hname hcs (h.load_le hcs ht) (L.mems p)
    cases ht.symm.trans hdec
    have hmem : mem' = L.mems p := funext fun x => hrest x fun k hk => by
      rw [hheld] at hk
      cases hk
    rw [Logged.after, hmem]
    exact ite_eq_update.trans (Function.update_eq_self p L.mems)

/-- The earlier module, over every run of calls with parameters by value, from whatever processes. A decrypt that finds
    a record returns if and only if the encrypts since the last decrypt have saved at most 32 segments. It pops the
    record, gives the process that calls it the cleared bytes of all these encrypts, as each of them found them, and
    changes no other byte; from there until the next encrypt no decrypt changes memory. -/
theorem decrypt_undoes_all [DecidableEq π] {tr : List (Logged π × (π × Op))} (halloc : env.AllocOk) (hsort : env.SortOk)
    (hr : Run (LoggedStep env) (.start mems) tr L) (hc : Meets (ByValueCall env) tr) (p : π) (hinit : L.init = true)
    (hname : (nameOf env regs).isSome) (hcs : L.callStack ≠ []) :
    ((∃ M, LoggedStep env L (p, .decrypt regs) M) ↔ L.load ≤ 32) ∧
    ∀ M, LoggedStep env L (p, .decrypt regs) M → M.callStack = L.callStack.tail ∧
      (∀ k ∈ L.held, ∀ x, Covers k.region x → M.mems p x = k.before x) ∧
      (∀ x, (∀ k ∈ L.held, ¬Covers k.region x) → M.mems p x = L.mems p x) ∧
      (∀ q, q ≠ p → M.mems q = L.mems q) ∧
      ∀ q regs' N, LoggedStep env M (q, .decrypt regs') N → N.mems = M.mems := by
  have h := OneBuffer.of_run halloc hsort hr hc
  refine ⟨⟨?_, fun hle => ?_⟩, fun M hs => ?_⟩
  · rintro ⟨M, t, ⟨ret, ht⟩, -⟩
    exact h.load_le hcs ht
  · obtain ⟨heap', mem', -, -, hdec, -⟩ := h.decrypt hsort hinit hname hcs hle (L.mems p)
    exact ⟨_, _, ⟨0, hdec⟩, rfl⟩
  · have hM := h.step halloc hsort (l := (p, .decrypt regs)) (fun _ _ hop => by cases hop) hs
    obtain ⟨t, ⟨ret, ht⟩, rfl⟩ := hs
    obtain ⟨heap', mem', -, -, hdec, -, -, hback, hrest⟩ :=
      h.decrypt hsort hinit hname hcs (h.load_le hcs ht) (L.mems p)
    cases ht.symm.trans hdec
    refine ⟨rfl, fun k hk x hx => ?_, fun x hx => ?_, fun q hq => if_neg hq, fun q regs' N hN => ?_⟩
    · exact (congrFun (if_pos rfl) x).trans (hback k hk x hx)
    · exact (congrFun (if_pos rfl) x).trans (hrest x hx)
    · exact hM.idle_decrypt hsort rfl hN

end Runs

/-! ### A frame that is back too early -/

/-- Two nested frames. -/
def nested : List (Unit × Op) :=
  [((), .encrypt (.frame 0x1010 0x4000 0x4010) [⟨0x4004, 4, 0⟩]), ((), .encrypt (.frame 0x2010 0x3000 0x3010) [])]

/-- The decrypt of the inner frame brings back the outer one. -/
theorem decrypt_undoes_all_nested : ∃ tr L M, Run (LoggedStep Env.sample) (.start fun _ : Unit => fun _ => 0x41) tr L ∧
    L.callStack.length = 2 ∧ L.mems () 0x4000 = 0x30 ∧
    LoggedStep Env.sample L ((), .decrypt (.frame 0x2010 0x3000 0x3010)) M ∧
    M.callStack.length = 1 ∧ M.mems () 0x4000 = 0x41 := by
  have hexec : ∃ L k, Transition.exec (Logged.exec Env.sample 20) nested (.start fun _ : Unit => fun _ => 0x41) =
      some L ∧
      L.init = true ∧ L.load ≤ 32 ∧ L.callStack.length = 2 ∧ L.mems () 0x4000 = 0x30 ∧ k ∈ L.held ∧
      Covers k.region 0x4000 ∧
      k.before 0x4000 = 0x41 :=
    ⟨_, _, rfl, rfl, by decide, rfl, rfl, List.mem_cons_of_mem _ List.mem_cons_self, by decide, rfl⟩
  obtain ⟨L, k, hL, hinit, hload, hdepth, hmem, hk, hx, hbefore⟩ := hexec
  obtain ⟨tr, hr, hls⟩ := Logged.run_of_exec hL
  have hc : Meets (ByValueCall Env.sample) tr := meets_of_labels fun l hl s regs plt hop _ => by
    rw [hls] at hl
    simp only [nested, List.mem_cons, List.not_mem_nil, or_false] at hl
    rcases hl with rfl | rfl <;> cases hop
    · exact ⟨fun p hp => by rw [List.mem_singleton.mp hp], fun p hp _ => by
        rw [List.mem_singleton.mp hp]; decide, by decide⟩
    · exact ⟨fun _ hp => (List.not_mem_nil hp).elim, fun _ hp => (List.not_mem_nil hp).elim, by decide⟩
  have hcs : L.callStack ≠ [] := fun hnil => by
    rw [hnil] at hdepth
    cases hdepth
  obtain ⟨hiff, hall⟩ := decrypt_undoes_all Env.sample_allocOk Env.sample_sortOk hr hc () hinit
    (show (nameOf Env.sample (.frame 0x2010 0x3000 0x3010)).isSome by decide) hcs
  obtain ⟨M, hs⟩ := hiff.mpr hload
  obtain ⟨htail, hback, -⟩ := hall M hs
  exact ⟨tr, L, M, hr, hdepth, hmem, hs, by rw [htail, List.length_tail, hdepth], (hback k hk _ hx).trans hbefore⟩

end Bkp
end StackVault
