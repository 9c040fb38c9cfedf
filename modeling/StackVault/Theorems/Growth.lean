import StackVault.Theorems.UserCalls
import StackVault.Theorems.Vault

/-! The save buffer of a call that outgrows it. `copy_stack_buf` replaces a full array by a larger one and
    frees it, through the local variable of the caller; the element of `sbuf_stack` that the variable was
    read from goes on naming the old array. The list is in memory here, and the scan may clear it on its way: what
    counts are the segments that it makes of the list as it finds it. -/

namespace StackVault
open Memory Transition

section Growth
variable {env : Env} {opens : List Opened} {fuel : Nat} {regs : Regs} {arg : Addr} {s : State} {e : User.Encrypted}

/-- The chase leaves the array as it is, but for its holes. -/
theorem User.Returned.holed {userRsp userRbp : Addr} {name : String} {g : Globals} {mem : Mem} {segs : List Span}
    {v : Saved} {ret : Int} {c : Chase} {p : Nat}
    (h : User.Returned env fuel userRsp userRbp arg name g mem e segs v ret c) (hptr : v.stackBuf = some p) :
    Holed p v.heap c.heap := by
  have hp := h.pointers
  rw [hptr] at hp
  obtain ⟨ts, hts⟩ := User.restoreFrom_walks hp
  exact hts.reaches.holed

/-- The decrypt after the call restores the array that the element of `sbuf_stack` named before it. -/
theorem User.Returned.decrypt {userRsp userRbp : Addr} {name : String} {g : Globals} {mem₀ : Mem} {segs : List Span}
    {v : Saved} {ret : Int} {c : Chase} {p : Nat}
    (h : User.Returned env fuel userRsp userRbp arg name g mem₀ e segs v ret c) (hinit : g.init = true)
    (hmapper : g.mapper = some env.exe) (hslot : g.sbufStack ⟨g.sbufStackTop, h.top⟩ = some p)
    (hname : (nameOf env regs).isSome) (mem : Mem) :
    jsysDecryptStack env regs { e.state with mem } =
      (restoreStackBuf env e.state.heap mem (some p)).map fun x => (0, { g with heap := x.1, mem := x.2 }) := by
  have htop := h.top
  have hmapped : Globals.Mapped env { g with callStack := ⟨userRsp, userRbp, name⟩ :: g.callStack,
                                             sbufStackTop := g.sbufStackTop + 1, heap := c.heap } :=
    hmapper.trans (if_pos hinit).symm
  rw [h.state_eq]
  rw [decrypt_eq (s := { g with callStack := ⟨userRsp, userRbp, name⟩ :: g.callStack,
                                sbufStackTop := g.sbufStackTop + 1, heap := c.heap, mem })
    hmapped hinit hname rfl ⟨Nat.succ_pos _, by dsimp only; omega⟩]
  rw [← hslot]
  rfl

end Growth

section Runs
variable {π : Type} [DecidableEq π] {env : Env} {mems : π → Mem} {tr : List (Logged π × (π × Op))} {L : Logged π}
  {fuel : Nat} {regs : Regs} {arg : Addr} {e : User.Encrypted}

end Runs

/-- The list of one by-value parameter, outside the frame. -/
def framedList : Mem := putList 0x9000 0x9010 [⟨0x4004, 4, 0⟩] fun _ => 0x41

theorem listAt_framedList : listAt 0x9000 framedList = [⟨0x4004, 4, 0⟩] := LaidApart.listAt_putList (by decide)

theorem listSpans_framedList : listSpans 0x9000 framedList = [⟨0x9000, 4⟩, ⟨0x9008, 8⟩, ⟨0x9010, 20⟩] :=
  LaidApart.listSpans_putList (by decide)

theorem outside_framedList : OutsideFrame 0x9000 framedList 0x4000 0x4010 :=
  OutsideFrame.of_beside (by decide) (by rw [listSpans_framedList]; decide)

theorem formed_framedList : Formed 0x9000 framedList :=
  Formed.of_beside (by rw [framedList, LaidApart.depthSpans_putList (by decide)]; decide)

theorem framedList_byValue : AllByValue (listAt 0x9000 framedList) ∧ NoWrap (listAt 0x9000 framedList) := by
  rw [listAt_framedList]
  unfold AllByValue NoWrap
  decide

theorem segments_framedList : segments (listAt 0x9000 framedList) 0x4000 0x4010 = [⟨0x4000, 4⟩, ⟨0x4008, 8⟩] := by
  rw [listAt_framedList]
  decide

theorem framedList_returns : ∃ fuel e,
    User.jsysEncryptStack Env.sample fuel (.frame 0x1010 0x4000 0x4010) 0x9000 { loaded with mem := framedList } =
    some (.ok e) := by
  obtain ⟨hm, g, name, p, b, hready⟩ := loaded_ready (show Accepts Env.sample (.frame 0x1010 0x4000 0x4010) by decide)
  have hspares : Spares 0x9000 framedList (segments (listAt 0x9000 framedList) 0x4000 0x4010) :=
    Spares.of_beside (by rw [listSpans_framedList, segments_framedList]; decide)
  exact hready.returnsAt Env.sample_allocOk hm (by decide) framedList_byValue.1 framedList_byValue.2 (by decide)
    formed_framedList hspares

/-- Every second byte of the frame `[0x3000, 0x3042)` is a parameter, which leaves 33 segments. -/
def crowded : List Para := (List.range 33).map fun k => ⟨BitVec.ofNat 64 (0x3001 + 2 * k), 1, 0⟩

end StackVault
