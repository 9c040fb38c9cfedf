import StackVault.Lib.Twofold
import StackVault.Theorems.Confidential

/-! What a callee can find out of the frame that its caller has encrypted. The segments of that frame lie in one
    array, and as long as nothing is decrypted down to it, no call looks into the array: two modules that differ
    in it alone take the same steps and leave the same memory, whatever runs on them. With `encrypt_confidential`
    for the call itself, nothing of the frame beyond what the call exposes is seen before its decrypt. -/

namespace StackVault
open Memory Transition Twofold

/-! ### Heaps that agree outside some arrays -/

/-- The heaps agree but for the arrays of `D`, which are older than any array still to come. -/
structure Heap.Alike (D : Set SbufPtr) (h h' : Heap) : Prop where
  next : h.next = h'.next
  old : ∀ q ∈ D, (q : Nat) < h.next
  same : ∀ q, q ∉ D → h.sbufs q = h'.sbufs q

/-- The pointer names no array of `D`. -/
def Outside (D : Set SbufPtr) (ptr : Option SbufPtr) : Prop := ∀ p, ptr = some p → p ∉ D

namespace Heap.Alike
variable {env : Env} {D : Set SbufPtr} {h h' : Heap} {p : SbufPtr} {ptr : Option SbufPtr} {b : Sbuf} {x : Option Sbuf}
  {n : Nat} {mem : Mem} {buf len : Addr}

theorem symm (ha : Alike D h h') : Alike D h' h :=
  ⟨ha.next.symm, fun q hq => ha.next ▸ ha.old q hq, fun q hq => (ha.same q hq).symm⟩

theorem deref (ha : Alike D h h') (hp : Outside D ptr) : h.deref ptr = h'.deref ptr := by
  cases ptr with
  | none => rfl
  | some p => simp only [Heap.deref, ha.same p (hp p rfl)]

theorem set (ha : Alike D h h') : Alike D (h.set p x) (h'.set p x) := by
  refine ⟨ha.next, ha.old, fun q hq => ?_⟩
  by_cases hqp : q = p
  · rw [hqp, Heap.set_sbufs_self, Heap.set_sbufs_self]
  · rw [Heap.set_sbufs_ne hqp, Heap.set_sbufs_ne hqp]
    exact ha.same q hq

theorem later (ha : Alike D h h') (hn : h.next ≤ n) : Alike D { h with next := n } { h' with next := n } :=
  ⟨rfl, fun q hq => Nat.lt_of_lt_of_le (ha.old q hq) hn, ha.same⟩

theorem fresh (ha : Alike D h h') : h.next ∉ D := fun hmem => Nat.lt_irrefl _ (ha.old _ hmem)

/-! ### The save buffers -/

theorem insert (ha : Alike D h h') : Both (fun k k' => Alike D k k' ∧ h.next ≤ k.next)
    (insertStackBuf env h mem p b buf len) (insertStackBuf env h' mem p b buf len) := by
  unfold insertStackBuf
  rw [← ha.next]
  by_cases h0 : env.kmalloc h.next = 0
  · rw [if_pos h0, if_pos h0]
    exact .error
  · rw [if_neg h0, if_neg h0]
    exact ⟨(ha.later (Nat.le_succ _)).set, Nat.le_succ _⟩

theorem grow (ha : Alike D h h') : Both (fun k k' => Alike D k k' ∧ h.next ≤ k.next)
    (growStackBuf env h p b) (growStackBuf env h' p b) := by
  unfold growStackBuf
  rw [← ha.next]
  split
  · exact .error
  · have hle : h.next ≤ h.next + 1 + b.cur := by omega
    exact ⟨(ha.later hle).set.set, hle⟩

/-- What is related of two results of `copy_stack_buf`. -/
def Copied (D : Set SbufPtr) (x y : Int × Option SbufPtr × Heap) : Prop :=
  x.1 = y.1 ∧ x.2.1 = y.2.1 ∧ Outside D x.2.1 ∧ Alike D x.2.2 y.2.2

theorem copy (ha : Alike D h h') (hp : Outside D ptr) : Both (Copied D)
    (copyStackBuf env h mem ptr buf len) (copyStackBuf env h' mem ptr buf len) := by
  unfold copyStackBuf
  rw [← ha.deref hp]
  cases hd : h.deref ptr with
  | error f => exact .error
  | ok x =>
    obtain ⟨p, b⟩ := x
    simp only [bind, Except.bind, ← ha.next]
    by_cases hfull : b.cur = b.cap
    · rw [if_pos hfull, if_pos hfull]
      by_cases h0 : env.kmalloc h.next = 0
      · rw [if_pos h0, if_pos h0]
        exact .pure ⟨rfl, rfl, hp, ha.later (Nat.le_succ _)⟩
      · rw [if_neg h0, if_neg h0]
        refine ha.grow.bind fun k k' hk => hk.1.insert.bind fun l l' hl => .pure ⟨rfl, rfl, fun q hq => ?_, hl.1⟩
        cases hq
        exact ha.fresh
    · rw [if_neg hfull, if_neg hfull]
      exact ha.insert.bind fun l l' hl => .pure ⟨rfl, rfl, hp, hl.1⟩

end Heap.Alike

/-! ### The scan and the chase -/

/-- The same save buffer, outside `D`, and the same memory, over heaps that agree outside `D`. -/
structure Saved.Alike (D : Set SbufPtr) (v w : Saved) : Prop where
  ptr : v.stackBuf = w.stackBuf
  outside : Outside D v.stackBuf
  heap : v.heap.Alike D w.heap
  mem : v.mem = w.mem

structure Chase.Alike (D : Set SbufPtr) (c d : Chase) : Prop where
  mem : c.mem = d.mem
  heap : c.heap.Alike D d.heap
  written : c.written = d.written

section Scan
variable {env : Env} {D : Set SbufPtr} {v w : Saved} {l k : Scan} {plt : List Para} {userRbp : Addr} {r : Span}

theorem Saved.Alike.save (h : v.Alike D w) :
    Both (Saved.Alike D) (StackVault.save env r v) (StackVault.save env r w) := by
  have hcopy : Both (Heap.Alike.Copied D) (copyStackBuf env v.heap v.mem v.stackBuf r.start r.len)
      (copyStackBuf env w.heap v.mem v.stackBuf r.start r.len) := h.heap.copy h.outside
  unfold StackVault.save
  rw [← h.ptr, ← h.mem]
  rcases hcopy.ends with ⟨f, h1, h2⟩ | ⟨x, y, h1, h2, -, hptr, hout, hheap⟩
  · rw [h1, h2]
    rfl
  · rw [h1, h2]
    exact ⟨hptr, hout, hheap, rfl⟩

/-- Two scans at the same place. -/
structure Scan.Alike (D : Set SbufPtr) (l k : Scan) : Prop where
  saved : l.toSaved.Alike D k.toSaved
  i : l.i = k.i
  prevRsp : l.prevRsp = k.prevRsp

theorem Scan.Alike.flush (env : Env) (h : l.Alike D k) :
    Both (Scan.Alike D) (StackVault.flush env l) (StackVault.flush env k) := by
  unfold StackVault.flush
  rw [← h.i, ← h.prevRsp]
  split
  · exact h.saved.save.map fun v w hvw => ⟨hvw, rfl, rfl⟩
  · exact .pure h

theorem Scan.Alike.scan {fuel : Nat} (h : l.Alike D k) :
    Option.Rel (Both (Saved.Alike D)) (StackVault.scan env plt userRbp fuel l)
    (StackVault.scan env plt userRbp fuel k) := by
  induction fuel generalizing l k with
  | zero => exact .none
  | succ fuel ih =>
    -- Both branches that flush go on from related positions.
    rcases (h.flush env).ends with ⟨c, hl, hk⟩ | ⟨m, n, hl, hk, hmn⟩
    all_goals
      unfold StackVault.scan scanWith
      rw [← h.i, hl, hk]
      dsimp only
    · split_ifs
      · exact .some rfl
      · exact .some rfl
      · exact ih ⟨h.saved, rfl, h.prevRsp⟩
      · exact .some (.pure h.saved)
    · split_ifs
      · exact ih ⟨hmn.saved, by rw [hmn.i], by rw [hmn.i]⟩
      · exact ih ⟨hmn.saved, by rw [hmn.i], hmn.prevRsp⟩
      · exact ih ⟨h.saved, rfl, h.prevRsp⟩
      · exact .some (.pure h.saved)

end Scan

section Chase
variable {env : Env} {D : Set SbufPtr} {c d : Chase} {sbuf : Option SbufPtr} {p : SbufPtr} {b : Sbuf}
  {addrInStack addrInBuf size len : Addr} {tmp : Para}

namespace Chase.Alike

theorem writeBack (h : c.Alike D d) : Both (Chase.Alike D) (StackVault.writeBack env p b addrInStack addrInBuf len c)
    (StackVault.writeBack env p b addrInStack addrInBuf len d) := by
  unfold StackVault.writeBack
  rw [← h.mem, ← h.written, ← h.heap.next]
  cases kread b.segs addrInBuf len with
  | error f => exact .error
  | ok src =>
    dsimp only
    split
    · exact .error
    · split
      · exact .error
      · exact .pure ⟨rfl, (h.heap.later (Nat.le_succ _)).set, rfl⟩

theorem restoreCell (h : c.Alike D d) (hp : Outside D sbuf) : Both (Chase.Alike D)
    (StackVault.restoreCell env sbuf addrInStack c) (StackVault.restoreCell env sbuf addrInStack d) := by
  unfold StackVault.restoreCell
  rw [← h.heap.deref hp, ← h.mem, ← h.written]
  cases c.heap.deref sbuf with
  | error f => exact .error
  | ok x => exact h.writeBack

theorem chase : ∀ {n : Nat} {addrInStack : Addr} {c d : Chase}, c.Alike D d → Outside D sbuf →
    Both (fun x y => x.1 = y.1 ∧ x.2.Alike D y.2) (StackVault.chase env sbuf n addrInStack c)
      (StackVault.chase env sbuf n addrInStack d)
  | 0, _, _, _, h, _ => .pure ⟨rfl, h⟩
  | n + 1, _, _, _, h, hp => (h.restoreCell hp).bind fun c' d' h' => by
    rw [← h'.mem]
    exact h'.chase hp

theorem restoreTarget (h : c.Alike D d) (hp : Outside D sbuf) : Both (Chase.Alike D)
    (StackVault.restoreTarget env sbuf addrInStack size c) (StackVault.restoreTarget env sbuf addrInStack size d) := by
  unfold StackVault.restoreTarget
  rw [← h.heap.deref hp, ← h.mem, ← h.written]
  cases c.heap.deref sbuf with
  | error f => exact .error
  | ok x =>
    dsimp only
    split
    · exact h.writeBack
    · exact .pure h

theorem restorePointer (h : c.Alike D d) (hp : Outside D sbuf) : Both (Option.Rel (Chase.Alike D))
    (StackVault.restorePointer env sbuf tmp c) (StackVault.restorePointer env sbuf tmp d) := by
  unfold StackVault.restorePointer
  rw [← h.heap.deref hp, ← h.mem, ← h.written]
  cases c.heap.deref sbuf with
  | error f => exact .error
  | ok x =>
    dsimp only
    split
    · exact .pure .none
    · refine (h.restoreCell hp).bind fun c₁ d₁ h₁ => ?_
      rw [← h₁.mem]
      exact (h₁.chase hp).bind fun x y hxy => by
        obtain ⟨z, c₂⟩ := x
        obtain ⟨z', d₂⟩ := y
        obtain ⟨rfl, h₂⟩ := hxy
        exact (h₂.restoreTarget hp).bind fun c₃ d₃ h₃ => .pure (.some h₃)

theorem restorePointers {plt : List Para} (h : c.Alike D d) (hp : Outside D sbuf) :
    Both (fun x y => x.1 = y.1 ∧ x.2.1 = y.2.1 ∧ x.2.2.Alike D y.2.2) (StackVault.restorePointers env sbuf plt c)
      (StackVault.restorePointers env sbuf plt d) := by
  induction plt generalizing c d with
  | nil => exact .pure ⟨rfl, rfl, h⟩
  | cons tmp rest ih =>
    unfold StackVault.restorePointers
    by_cases h0 : tmp.pointer = 0
    · rw [if_pos h0, if_pos h0]
      refine (ih h).bind fun x y hxy => ?_
      obtain ⟨hret, hlist, hlast⟩ := hxy
      exact .pure ⟨hret, by rw [hlist], hlast⟩
    · rw [if_neg h0, if_neg h0]
      refine (h.restorePointer hp).bind fun x y hxy => ?_
      cases hxy with
      | none => exact .pure ⟨rfl, rfl, h⟩
      | some hxy =>
        refine (ih hxy).bind fun x y hxy => ?_
        obtain ⟨hret, hlist, hlast⟩ := hxy
        exact .pure ⟨hret, by rw [hlist], hlast⟩

end Chase.Alike

end Chase

/-! ### The two calls -/

/-- The same module, the arrays of `D` apart. -/
structure Globals.Alike (D : Set SbufPtr) (g g' : Globals) : Prop where
  heap : g.heap.Alike D g'.heap
  init : g.init = g'.init
  mapper : g.mapper = g'.mapper
  callStack : g.callStack = g'.callStack
  sbufStack : g.sbufStack = g'.sbufStack
  sbufStackTop : g.sbufStackTop = g'.sbufStackTop

/-- The same module, the arrays of `D` apart, and the same memory. -/
structure State.Alike (D : Set SbufPtr) (s t : State) : Prop extends s.toGlobals.Alike D t.toGlobals where
  mem : s.mem = t.mem

/-- The elements of `sbuf_stack` from `k` on name no array of `D`. -/
def Globals.Clear (D : Set SbufPtr) (k : Nat) (g : Globals) : Prop :=
  ∀ i : Fin 16, k ≤ i.val → Outside D (g.sbufStack i)

/-- What is related of two calls of `jsys_encrypt_stack` that return. -/
structure Encrypted.Alike (D : Set SbufPtr) (e e' : Encrypted) : Prop where
  ret : e.ret = e'.ret
  restored : e.restored = e'.restored
  paraList : e.paraList = e'.paraList
  written : e.written = e'.written
  state : e.state.Alike D e'.state

section Calls
variable {env : Env} {D : Set SbufPtr} {k fuel : Nat} {g g' : Globals} {s t : State} {h h' : Heap} {mem : Mem}
  {ptr : Option SbufPtr} {userRsp userRbp : Addr} {plt : List Para} {name : String} {regs : Regs}

theorem Globals.Alike.symm (h : g.Alike D g') : g'.Alike D g :=
  ⟨h.heap.symm, h.init.symm, h.mapper.symm, h.callStack.symm, h.sbufStack.symm, h.sbufStackTop.symm⟩

theorem Heap.Alike.restore (ha : h.Alike D h') (hp : Outside D ptr) : Both (fun x y => x.1.Alike D y.1 ∧ x.2 = y.2)
    (restoreStackBuf env h mem ptr) (restoreStackBuf env h' mem ptr) := by
  unfold restoreStackBuf
  rw [← ha.deref hp]
  cases h.deref ptr with
  | error f => exact .error
  | ok x =>
    obtain ⟨p, b⟩ := x
    exact Both.bind (Both.of_eq fun a _ => rfl) fun x y hxy => by
      subst hxy
      exact .pure ⟨ha.set, rfl⟩

theorem Globals.Alike.encryptFrame (ha : g.Alike D g') (hc : g.Clear D g.sbufStackTop) :
    Option.Rel (Both (Encrypted.Alike D)) (StackVault.encryptFrame env fuel userRsp userRbp plt name g mem)
      (StackVault.encryptFrame env fuel userRsp userRbp plt name g' mem) := by
  unfold StackVault.encryptFrame Globals.callStackTop
  simp only [← ha.heap.next, ← ha.callStack, ← ha.sbufStack, ← ha.sbufStackTop]
  split
  · exact .some .error
  · split
    · exact .some .error
    · split
      · next ht =>
        have hstart : Scan.Alike D
            { i := userRsp, prevRsp := userRsp, stackBuf := g.sbufStack ⟨g.sbufStackTop, ht⟩,
              heap := { g.heap with next := g.heap.next + 2 }, mem }
            { i := userRsp, prevRsp := userRsp, stackBuf := g.sbufStack ⟨g.sbufStackTop, ht⟩,
              heap := { g'.heap with next := g.heap.next + 2 }, mem } :=
          ⟨⟨rfl, hc _ (Nat.le_refl _), ha.heap.later (Nat.le_add_right _ _), rfl⟩, rfl, rfl⟩
        refine rel_map hstart.scan fun r r' hr => hr.bind fun v w hvw => ?_
        have hchase : Chase.Alike D { mem := v.mem, heap := v.heap, written := [] }
            { mem := w.mem, heap := w.heap, written := [] } := ⟨hvw.mem, hvw.heap, rfl⟩
        rw [← hvw.ptr]
        exact (hchase.restorePointers hvw.outside).bind fun x y ⟨hret, hlist, hxy⟩ =>
          .pure ⟨rfl, congrArg some hret, hlist, hxy.written,
            ⟨⟨hxy.heap, ha.init, ha.mapper, rfl, rfl, rfl⟩, hxy.mem⟩⟩
      · exact .some .error

/-- Once the module is set up, calls on alike states are alike. -/
theorem State.Alike.encrypt (ha : s.Alike D t) (hi : s.init = true) (hc : s.Clear D s.sbufStackTop) :
    Option.Rel (Both (Encrypted.Alike D)) (jsysEncryptStack env fuel regs plt s)
    (jsysEncryptStack env fuel regs plt t) := by
  unfold jsysEncryptStack
  rw [setup_done hi, setup_done (ha.init ▸ hi)]
  dsimp only
  rw [← ha.mapper, ← ha.mem]
  cases s.mapper with
  | none => exact .some .error
  | some mapper =>
    dsimp only
    cases getFuncName mapper regs.ip with
    | none => exact .some (.pure ⟨rfl, rfl, rfl, rfl, ⟨ha.toAlike, rfl⟩⟩)
    | some name =>
      dsimp only
      split
      · exact .some (.pure ⟨rfl, rfl, rfl, rfl, ⟨ha.toAlike, rfl⟩⟩)
      · exact ha.toAlike.encryptFrame hc

theorem State.Alike.decrypt (ha : s.Alike D t) (hc : s.Clear D (s.sbufStackTop - 1)) :
    Both (fun x y => x.1 = y.1 ∧ x.2.Alike D y.2) (jsysDecryptStack env regs s) (jsysDecryptStack env regs t) := by
  unfold jsysDecryptStack
  simp only [← ha.mapper, ← ha.mem, ← ha.callStack, ← ha.sbufStack, ← ha.sbufStackTop]
  cases s.mapper with
  | none => exact .error
  | some mapper =>
    dsimp only
    cases hcs : s.callStack with
    | nil => exact .pure ⟨rfl, ha⟩
    | cons item rest =>
      dsimp only
      cases getFuncName mapper regs.ip with
      | none => exact .error
      | some name =>
        dsimp only
        split
        · next ht =>
          refine (ha.heap.restore (hc _ (Nat.le_refl _))).bind fun x y ⟨hheap, hmem⟩ => ?_
          exact .pure ⟨rfl, ⟨⟨hheap, ha.init, rfl, rfl, rfl, rfl⟩, hmem⟩⟩
        · exact .error

end Calls

end StackVault
