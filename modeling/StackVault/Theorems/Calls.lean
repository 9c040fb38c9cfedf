import StackVault.System

/-! What a call that returns has done to the stacks of the module, whatever its parameter list, its
    frame and the heap: an encrypt is refused and leaves them, or pushes on both; a decrypt finds no
    record, or pops from both. -/

namespace StackVault
open Memory Transition

/-- The table is loaded by the first encrypt. -/
def Globals.Mapped (env : Env) (g : Globals) : Prop := g.mapper = if g.init then some env.exe else none

section Setup
variable {env : Env} {g g' : Globals}

/-- Setting the module up touches neither stack. -/
theorem setup_inv (h : setup env g = .ok g') :
    g'.init = true ∧ g'.callStack = g.callStack ∧ g'.sbufStackTop = g.sbufStackTop ∧
      (g.init = true → g' = g) ∧ (g.init = false → g'.mapper = some env.exe) := by
  unfold setup at h
  split at h
  · next hi =>
    cases h
    exact ⟨hi, rfl, rfl, fun _ => rfl, fun hf => by rw [hi] at hf; cases hf⟩
  · next hi =>
    split at h
    · cases h
    · cases h
      exact ⟨rfl, rfl, rfl, fun ht => absurd ht hi, fun _ => rfl⟩

theorem setup_done (h : g.init = true) : setup env g = .ok g := if_pos h

theorem setup_mapper (h : setup env g = .ok g') (hm : g.Mapped env) : g'.mapper = some env.exe := by
  obtain ⟨-, -, -, ht, hf⟩ := setup_inv h
  cases hi : g.init with
  | true =>
    rw [ht hi, hm, hi]
    rfl
  | false => exact hf hi

theorem setup_mapped (h : setup env g = .ok g') (hm : g.Mapped env) : g'.Mapped env := by
  unfold Globals.Mapped
  rw [setup_mapper h hm, (setup_inv h).1]
  rfl

end Setup

section Encrypt
variable {env : Env} {fuel : Nat} {regs : Regs} {plt : List Para} {s : State} {e : Encrypted}

/-- The record that an accepted encrypt pushes. -/
def Regs.record (regs : Regs) (name : String) : CsItem := ⟨regs.userRsp, regs.userRbp, name⟩

theorem encryptFrame_inv {userRsp userRbp : Addr} {name : String} {g : Globals} {mem : Mem}
    (h : encryptFrame env fuel userRsp userRbp plt name g mem = some (.ok e)) :
    ∃ (ht : g.sbufStackTop < 16) (v : Saved) (ret : Int) (c : Chase), g.callStack.length < 64 ∧
      scan env plt userRbp fuel
        { i := userRsp, prevRsp := userRsp, stackBuf := g.sbufStack ⟨g.sbufStackTop, ht⟩,
          heap := { g.heap with next := g.heap.next + 2 }, mem } = some (.ok v) ∧
      restorePointers env v.stackBuf plt { mem := v.mem, heap := v.heap, written := [] } = .ok (ret, e.paraList, c) ∧
      e.ret = 0 ∧ e.written = c.written ∧
      e.state = { g with callStack := ⟨userRsp, userRbp, name⟩ :: g.callStack,
                         sbufStackTop := g.sbufStackTop + 1, heap := c.heap, mem := c.mem } := by
  unfold encryptFrame at h
  split at h
  · cases h
  · split at h
    · cases h
    · next hcs =>
      split at h
      · next ht =>
        obtain ⟨r, hscan, hr⟩ := Option.map_eq_some_iff.mp h
        simp only [bind_eq_ok] at hr
        obtain ⟨v, rfl, ⟨ret, plt', c⟩, hrp, hr⟩ := hr
        cases hr
        exact ⟨ht, v, ret, c, Nat.lt_of_not_le hcs, hscan, hrp, rfl, rfl, rfl⟩
      · cases h

theorem encrypt_cases (hm : s.Mapped env) (h : jsysEncryptStack env fuel regs plt s = some (.ok e)) :
    ∃ g, setup env s.toGlobals = .ok g ∧
      ((¬Accepts env regs ∧ e.state = { g with mem := s.mem } ∧ e.paraList = plt ∧ e.written = []) ∨
        ∃ name, nameOf env regs = some name ∧ Accepts env regs ∧
          encryptFrame env fuel regs.userRsp regs.userRbp plt name g s.mem = some (.ok e)) := by
  unfold jsysEncryptStack at h
  cases hs : setup env s.toGlobals with
  | error f => rw [hs] at h; cases h
  | ok g =>
    rw [hs] at h
    simp only [setup_mapper hs hm] at h
    refine ⟨g, rfl, ?_⟩
    cases hn : getFuncName env.exe regs.ip with
    | none =>
      rw [hn] at h
      cases h
      exact Or.inl ⟨fun hacc => by simp [Accepts, nameOf, hn] at hacc, rfl, rfl, rfl⟩
    | some name =>
      rw [hn] at h
      dsimp only at h
      split at h
      · next hlt =>
        cases h
        exact Or.inl ⟨fun hacc => by have := hacc.2; bv_omega, rfl, rfl, rfl⟩
      · next hlt => exact Or.inr ⟨name, hn, ⟨by simp [nameOf, hn], by bv_omega⟩, h⟩

/-- An encrypt that returns is refused or pushes on both stacks. -/
theorem encrypt_stacks (hm : s.Mapped env) (h : jsysEncryptStack env fuel regs plt s = some (.ok e)) :
    (¬Accepts env regs ∧ e.state.mem = s.mem ∧ e.state.callStack = s.callStack ∧
        e.state.sbufStackTop = s.sbufStackTop ∧ (s.init = true → e.state = s)) ∨
      ∃ name, nameOf env regs = some name ∧ Accepts env regs ∧ s.callStack.length < 64 ∧ s.sbufStackTop < 16 ∧
        e.state.callStack = regs.record name :: s.callStack ∧ e.state.sbufStackTop = s.sbufStackTop + 1 := by
  obtain ⟨g, hset, hcase⟩ := encrypt_cases hm h
  obtain ⟨-, hcs, htop, hsame, -⟩ := setup_inv hset
  rcases hcase with ⟨hna, he, -, -⟩ | ⟨name, hn, hacc, hframe⟩
  · refine Or.inl ⟨hna, by rw [he], by rw [he]; exact hcs, by rw [he]; exact htop, fun hi => ?_⟩
    rw [he, hsame hi]
  · obtain ⟨ht, v, ret, c, hlen, -, -, -, -, he⟩ := encryptFrame_inv hframe
    rw [hcs] at hlen
    rw [htop] at ht
    exact Or.inr ⟨name, hn, hacc, hlen, ht, by rw [he, ← hcs]; rfl, by rw [he, ← htop]⟩

theorem encrypt_refused {g : Globals} (hm : s.Mapped env) (hset : setup env s.toGlobals = .ok g)
    (hna : ¬Accepts env regs) :
    jsysEncryptStack env fuel regs plt s =
      some (.ok { ret := if (nameOf env regs).isSome then -1 else 0, restored := none, paraList := plt,
                  written := [], state := { g with mem := s.mem } }) := by
  unfold jsysEncryptStack
  rw [hset]
  simp only [setup_mapper hset hm]
  cases hn : nameOf env regs with
  | none =>
    rw [show getFuncName env.exe regs.ip = none from hn]
    rfl
  | some name =>
    rw [show getFuncName env.exe regs.ip = some name from hn]
    have hlt : regs.userRbp < regs.userRsp := BitVec.not_le.mp fun hle => hna ⟨by rw [hn]; rfl, hle⟩
    exact if_pos hlt

theorem encrypt_accepted {g : Globals} {name : String} (hm : s.Mapped env) (hset : setup env s.toGlobals = .ok g)
    (hn : nameOf env regs = some name) (hacc : Accepts env regs) :
    jsysEncryptStack env fuel regs plt s = encryptFrame env fuel regs.userRsp regs.userRbp plt name g s.mem := by
  unfold jsysEncryptStack
  rw [hset]
  simp only [setup_mapper hset hm]
  rw [show getFuncName env.exe regs.ip = some name from hn]
  exact if_neg (BitVec.not_lt.mpr hacc.2)

theorem encrypt_mapped (hm : s.Mapped env) (h : jsysEncryptStack env fuel regs plt s = some (.ok e)) :
    e.state.Mapped env ∧ e.state.init = true := by
  obtain ⟨g, hset, hcase⟩ := encrypt_cases hm h
  have hg : g.Mapped env ∧ g.init = true := ⟨setup_mapped hset hm, (setup_inv hset).1⟩
  rcases hcase with ⟨-, he, -, -⟩ | ⟨name, -, -, hframe⟩
  · rw [he]
    exact hg
  · obtain ⟨_, _, _, _, -, -, -, -, -, he⟩ := encryptFrame_inv hframe
    rw [he]
    exact hg

end Encrypt

section Decrypt
variable {env : Env} {regs : Regs} {s t : State} {ret : Int}

/-- A decrypt that returns finds no record, or pops from both stacks and restores the buffer it popped. -/
theorem decrypt_cases (h : jsysDecryptStack env regs s = .ok (ret, t)) :
    (s.callStack = [] ∧ ret = -1 ∧ t = s) ∨
      ∃ c rest mapper name heap mem, ∃ ht : s.sbufStackTop - 1 < 16, s.callStack = c :: rest ∧
        s.mapper = some mapper ∧ getFuncName mapper regs.ip = some name ∧ 0 < s.sbufStackTop ∧ ret = 0 ∧
        restoreStackBuf env s.heap s.mem (s.sbufStack ⟨s.sbufStackTop - 1, ht⟩) = .ok (heap, mem) ∧
        t = { s with heap, mem, callStack := rest, sbufStackTop := s.sbufStackTop - 1 } := by
  unfold jsysDecryptStack at h
  cases hmap : s.mapper with
  | none => rw [hmap] at h; cases h
  | some mapper =>
    rw [hmap] at h
    dsimp only at h
    cases hcs : s.callStack with
    | nil =>
      rw [hcs] at h
      cases h
      exact Or.inl ⟨rfl, rfl, rfl⟩
    | cons c rest =>
      rw [hcs] at h
      dsimp only at h
      cases hn : getFuncName mapper regs.ip with
      | none => rw [hn] at h; cases h
      | some name =>
        rw [hn] at h
        dsimp only at h
        split at h
        · next hb =>
          obtain ⟨⟨heap, mem⟩, hres, h⟩ := bind_eq_ok.mp h
          cases h
          exact Or.inr ⟨c, rest, mapper, name, heap, mem, by omega, rfl, rfl, hn, hb.1, rfl, hres, rfl⟩
        · cases h

/-- A decrypt from a known function, with a record to pop, restores the top element of `sbuf_stack`. -/
theorem decrypt_eq {c : CsItem} {rest : List CsItem} (hm : s.Mapped env) (hinit : s.init = true)
    (hname : (nameOf env regs).isSome) (hcs : s.callStack = c :: rest)
    (htop : 0 < s.sbufStackTop ∧ s.sbufStackTop ≤ 16) :
    jsysDecryptStack env regs s =
      (restoreStackBuf env s.heap s.mem
        (s.sbufStack ⟨s.sbufStackTop - 1, Nat.lt_of_lt_of_le (Nat.sub_lt htop.1 Nat.one_pos) htop.2⟩)).map fun x =>
        (0, { s with heap := x.1, mem := x.2, callStack := rest, sbufStackTop := s.sbufStackTop - 1 }) := by
  obtain ⟨name, hn⟩ := Option.isSome_iff_exists.mp hname
  have hmapper : s.mapper = some env.exe := by rw [hm, hinit]; rfl
  unfold jsysDecryptStack
  rw [hmapper]
  dsimp only
  rw [hcs]
  dsimp only
  rw [show getFuncName env.exe regs.ip = some name from hn]
  dsimp only
  rw [dif_pos htop]
  cases restoreStackBuf env s.heap s.mem (s.sbufStack ⟨s.sbufStackTop - 1, by omega⟩) <;> rfl

theorem decrypt_mapped (hm : s.Mapped env) (h : jsysDecryptStack env regs s = .ok (ret, t)) : t.Mapped env := by
  rcases decrypt_cases h with ⟨-, -, rfl⟩ | ⟨_, _, _, _, _, _, -, -, -, -, -, -, -, rfl⟩
  · exact hm
  · exact hm

end Decrypt

end StackVault
