import StackVault.Theorems.Calls
import StackVault.Theorems.Chase
import StackVault.Theorems.Clearing

/-! An accepted encrypt, from an element of `sbuf_stack` that names a live and empty array: the scan has
    saved and cleared the segments of the frame, and the pointer chase starts from there. With
    parameters by value only, the call returns and the segments are all that it has changed. -/

namespace StackVault
open Memory

/-- Element `i` of `sbuf_stack` names the live array `b`. -/
structure Globals.Slot (g : Globals) (i : Fin 16) (p : Nat) (b : Sbuf) : Prop where
  ptr : g.sbufStack i = some p
  live : g.heap.sbufs p = some b

theorem Progress.mem_eq {m : Mem} {done : List Span} {v : Saved} {p : Nat} {b : Sbuf} (h : Progress m done v p b) :
    v.mem = cleared done m := funext h.mem

theorem Heap.Fresh.later {h : Heap} (hf : h.Fresh) {n : Nat} (hn : h.next ≤ n) : Heap.Fresh { h with next := n } :=
  fun q hq => hf q (hn.trans hq)

section Frame
variable {env : Env} {fuel : Nat} {userRsp userRbp : Addr} {plt : List Para} {name : String} {g : Globals} {mem : Mem}
  {p : Nat} {b : Sbuf} {e : Encrypted}

/-- The state of the scan when it starts. -/
def Globals.scanFrom (g : Globals) (ht : g.sbufStackTop < 16) (mem : Mem) : Saved :=
  { stackBuf := g.sbufStack ⟨g.sbufStackTop, ht⟩, heap := { g.heap with next := g.heap.next + 2 }, mem }

variable (name) in
theorem encryptFrame_of_scan {v : Saved} (halloc : env.AllocOk) (hcs : g.callStackTop < 64) (ht : g.sbufStackTop < 16)
    (hscan : scan env plt userRbp fuel (.start userRsp (g.scanFrom ht mem)) = some (.ok v)) :
    encryptFrame env fuel userRsp userRbp plt name g mem =
      some (do
        let (restored, paraList, c) ← restorePointers env v.stackBuf plt { mem := v.mem, heap := v.heap, written := [] }
        return { ret := 0, restored := some restored, paraList, written := c.written,
                 state := { g with callStack := ⟨userRsp, userRbp, name⟩ :: g.callStack,
                                   sbufStackTop := g.sbufStackTop + 1, heap := c.heap, mem := c.mem } }) := by
  unfold encryptFrame
  rw [if_neg (not_or.mpr ⟨halloc _, halloc _⟩), if_neg (Nat.not_le_of_lt hcs), dif_pos ht]
  exact congrArg (Option.map _) hscan

theorem frame_scan (userRsp : Addr) (mem : Mem) (halloc : env.AllocOk) (hw : NoWrap plt)
    (hb : userRbp.toNat + 1 < 2 ^ 64) (hf : g.heap.Fresh) (ht : g.sbufStackTop < 16)
    (hs : g.Slot ⟨g.sbufStackTop, ht⟩ p b) (hcur : b.cur = 0) (hcap : 0 < b.cap) :
    ∃ fuel v p' b', scan env plt userRbp fuel (.start userRsp (g.scanFrom ht mem)) = some (.ok v) ∧
      Progress mem (segments plt userRsp userRbp) v p' b' ∧
      ((Steady env (g.scanFrom ht mem).heap b.cap p v b' ∧ p' = p) ∨ Moved b.cap p v p' b') :=
  scan_ends userRsp halloc hw hb hs.ptr hs.live hcur hcap (Nat.lt_add_right 2 (hf.lt hs.live))

theorem frame_saved (halloc : env.AllocOk) (hw : NoWrap plt) (hb : userRbp.toNat + 1 < 2 ^ 64) (hf : g.heap.Fresh)
    (ht : g.sbufStackTop < 16) (hs : g.Slot ⟨g.sbufStackTop, ht⟩ p b) (hcur : b.cur = 0) (hcap : 0 < b.cap)
    (h : encryptFrame env fuel userRsp userRbp plt name g mem = some (.ok e)) :
    ∃ v p' b' ret c, Progress mem (segments plt userRsp userRbp) v p' b' ∧
      ((Steady env (g.scanFrom ht mem).heap b.cap p v b' ∧ p' = p) ∨ Moved b.cap p v p' b') ∧
      restorePointers env (some p') plt { mem := v.mem, heap := v.heap, written := [] } = .ok (ret, e.paraList, c) ∧
      e.state = { g with callStack := ⟨userRsp, userRbp, name⟩ :: g.callStack,
                         sbufStackTop := g.sbufStackTop + 1, heap := c.heap, mem := c.mem } := by
  obtain ⟨_, v', ret, c, -, hscan', hrp, -, -, he⟩ := encryptFrame_inv h
  obtain ⟨fuel', v, p', b', hscan, hprog, hcase⟩ :=
    frame_scan userRsp mem halloc hw hb hf ht hs hcur hcap
  have hv : v' = v := Except.ok.inj (scan_unique hscan' hscan)
  rw [hv, hprog.ptr] at hrp
  exact ⟨v, p', b', ret, c, hprog, hcase, hv ▸ hrp, he⟩

theorem frame_returns (userRsp : Addr) (name : String) (mem : Mem) (halloc : env.AllocOk) (hv : AllByValue plt)
    (hw : NoWrap plt) (hb : userRbp.toNat + 1 < 2 ^ 64) (hf : g.heap.Fresh) (hcs : g.callStackTop < 64)
    (ht : g.sbufStackTop < 16) (hs : g.Slot ⟨g.sbufStackTop, ht⟩ p b) (hcur : b.cur = 0) (hcap : 0 < b.cap) :
    ∃ fuel e, encryptFrame env fuel userRsp userRbp plt name g mem = some (.ok e) := by
  obtain ⟨fuel, v, p', b', hscan, -, -⟩ :=
    frame_scan userRsp mem halloc hw hb hf ht hs hcur hcap
  refine ⟨fuel, ?_⟩
  rw [encryptFrame_of_scan name halloc hcs ht hscan, restorePointers_byValue hv]
  exact ⟨_, rfl⟩

end Frame

end StackVault
