import StackVault.Types
import Mathlib.Data.Fin.Basic
import Mathlib.Data.List.FinRange
import Mathlib.Logic.Function.Basic

/-! The physical side of the server (`stack_encrypt_server.c`): `get_stack_areas` asks the page map of a process
    for the frame of every byte of a range and notes where it changes, and `encrypt_stack` goes over the noted
    areas in `/dev/mem`. What the system answers is an argument of the model. -/

namespace StackVault.Pages

/-- `sarea`. -/
structure Sarea where
  pageFrame : BitVec 64
  offset : BitVec 64
  len : BitVec 64
  deriving DecidableEq, Repr

/-- `/proc/<pid>/pagemap`: the first seven bytes of each entry, 0 behind the end of the file. -/
abbrev Pagemap := Nat → BitVec 56

/-- The file is not tested for having been opened. -/
def getPageFrameNumberOfAddress (pagemap : Option Pagemap) (addr : Addr) : Except Fault (BitVec 64) :=
  match pagemap with
  | none => .error .nullDeref
  | some entry => .ok ((entry (addr.toNat / 4096)).setWidth 64 &&& 0x7fffffffffffff)

/-- The loop of `get_page_frames`, with `n` bytes between `tmp_addr` and the end of the range: the first frame that is
    not `pre_offset`. -/
def otherFrame (pagemap : Option Pagemap) (preOffset : BitVec 64) : Nat → Addr → Except Fault (Option (BitVec 64))
  | 0, _ => .ok none
  | n + 1, tmpAddr => do
    let offset ← getPageFrameNumberOfAddress pagemap tmpAddr
    if offset ≠ preOffset then return some offset else otherFrame pagemap preOffset n (tmpAddr + 1)

/-- The two elements of the array that `malloc` gives, or does not. -/
def getPageFrames (malloc : Bool) (pagemap : Option Pagemap) (addr : Addr) : Except Fault (BitVec 64 × BitVec 64) := do
  let preOffset ← getPageFrameNumberOfAddress pagemap addr
  if malloc then do
    let tmpAddr := addr + 1
    let offset ← otherFrame pagemap preOffset ((addr + 4096).toNat - tmpAddr.toNat) tmpAddr
    return (preOffset, offset.getD 0)
  else .error .nullDeref

/-! ### `get_stack_areas` -/

/-- The local variables of the walk over the range: the array, the index of the area that is open, and where it
    starts, in memory and in its page. -/
structure AreaWalk where
  ret : Fin 10 → Sarea
  i : Nat
  topAddr : Addr
  prePageNum : BitVec 64
  offset : BitVec 64

/-- The open area is written to the array. It ends in front of `tmp_addr`. -/
def AreaWalk.append (w : AreaWalk) (tmpAddr : Addr) : Except Fault (Fin 10 → Sarea) :=
  if h : w.i < 10 then
    .ok (Function.update w.ret ⟨w.i, h⟩ { pageFrame := w.prePageNum, offset := w.offset, len := tmpAddr - w.topAddr })
  else .error .outOfBounds

/-- The loop, with `n` bytes between `tmp_addr` and the end of the range. -/
def walkRange (pagemap : Option Pagemap) : Nat → Addr → AreaWalk → Except Fault (Addr × AreaWalk)
  | 0, tmpAddr, w => .ok (tmpAddr, w)
  | n + 1, tmpAddr, w => do
    let pageNum ← getPageFrameNumberOfAddress pagemap tmpAddr
    if pageNum ≠ w.prePageNum then
      let ret ← w.append tmpAddr
      walkRange pagemap n (tmpAddr + 1)
        { ret, i := w.i + 1, topAddr := tmpAddr, prePageNum := pageNum, offset := tmpAddr % 4096 }
    else walkRange pagemap n (tmpAddr + 1) w

/-- `malloc` gives an array with whatever is in it, or nothing. -/
def getStackAreas (malloc : Option (Fin 10 → Sarea)) (pagemap : Option Pagemap) (topAddr bottomAddr : Addr) :
    Except Fault (Fin 10 → Sarea) :=
  match malloc with
  | none => .error .nullDeref
  | some ret => do
    let prePageNum ← getPageFrameNumberOfAddress pagemap topAddr
    let tmpAddr := topAddr + 1
    let (tmpAddr, w) ← walkRange pagemap (bottomAddr.toNat - tmpAddr.toNat) tmpAddr
      { ret := fun i => { ret i with len := -1 }, i := 0, topAddr, prePageNum, offset := topAddr % 4096 }
    w.append tmpAddr

/-! ### `encrypt_stack` -/

/-- `/dev/mem`: its size, and for each area whether it can be opened and whether the seek succeeds. -/
structure DevMem where
  size : Nat
  opens : Fin 10 → Bool
  seeks : Fin 10 → Bool

/-- A page of `/dev/mem` that was gone over: the offset it was read at, the number of bytes that were there, and the
    offset it was written at. -/
structure Access where
  pageFrame : BitVec 64
  read_at : Nat
  count : Nat
  written_at : Nat
  deriving DecidableEq, Repr

/-- Physical memory, the `buffer` of `encrypt_stack`, and the pages gone over, which no branch looks at. -/
structure Physical where
  mem : Nat → Byte
  buffer : Nat → Byte
  accessed : List Access

/-- `read` of 4096 bytes at `pos`: the bytes that are there, and the offset behind them. -/
def DevMem.read (dev : DevMem) (pos : Nat) (p : Physical) : Physical × Nat :=
  let count := min 4096 (dev.size - pos)
  ({ p with buffer := fun k => if k < count then p.mem (pos + k) else p.buffer k }, pos + count)

/-- `write` of 4096 bytes at `pos`, cut off at the end of the memory. -/
def DevMem.write (dev : DevMem) (pos : Nat) (p : Physical) : Physical :=
  { p with mem := fun x => if pos ≤ x ∧ x < pos + 4096 ∧ x < dev.size then p.buffer (x - pos) else p.mem x }

/-- The seek to the page of an area: the resulting offset, as a `long`, or -1. -/
def DevMem.lseek (dev : DevMem) (i : Fin 10) (tmp : Sarea) : BitVec 64 :=
  if dev.seeks i then tmp.pageFrame * 4096 else -1

/-- Reading and writing back the page of an area. Between the two the loop over the bytes of the area only
    prints. -/
def DevMem.encryptPage (dev : DevMem) (tmp : Sarea) (p : Physical) : Physical :=
  let at_page := (tmp.pageFrame * 4096).toNat
  let (p', behind) := dev.read at_page p
  let p'' := dev.write behind p'
  { p'' with accessed := p.accessed ++ [⟨tmp.pageFrame, at_page, behind - at_page, behind⟩] }

/-- The loop over the areas. `pos` is an `int`. -/
def DevMem.encryptAreas (dev : DevMem) (s : Fin 10 → Sarea) : List (Fin 10) → Physical → Int × Physical
  | [], p => (0, p)
  | i :: is, p =>
    if (s i).len ≠ -1 then
      if dev.opens i then
        let pos : BitVec 32 := (dev.lseek i (s i)).setWidth 32
        if pos = -1 then (-1, p) else dev.encryptAreas s is (dev.encryptPage (s i) p)
      else (-1, p)
    else dev.encryptAreas s is p

/-- `encrypt_stack`: its return value, and physical memory. -/
def encryptStack (dev : DevMem) (malloc : Option (Fin 10 → Sarea)) (pagemap : Option Pagemap)
    (topAddr bottomAddr : Addr) (p : Physical) : Except Fault (Int × Physical) := do
  let s ← getStackAreas malloc pagemap topAddr bottomAddr
  return dev.encryptAreas s (List.finRange 10) p

end StackVault.Pages
