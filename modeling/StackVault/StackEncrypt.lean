import StackVault.Types
import StackVault.Lib.Run

/-! The XOR of a frame with a key (`stack_encrypt.c`), which no probe calls. The parameters are copied to a
    kernel buffer, the frame is gone over, and the parameters are copied back; `encrypt_stack` and
    `decrypt_stack` have the same body. The parameter list lies outside the frame, where the pass does not
    change it. A call is `none` while its loop over the words has not ended within `fuel` tests. -/

namespace StackVault
open Memory

/-- The buffer of the parameter bytes: byte `k < size` of it, at `addr + k`, is `data k`. No byte of a fresh
    buffer is read before it is written. -/
structure ParaBuf where
  addr : Addr
  size : Addr
  data : Addr → Byte

/-- The `len` bytes from `offset` on lie inside the buffer. -/
def ParaBuf.Within (buf : ParaBuf) (offset len : Addr) : Prop := offset.toNat + len.toNat ≤ buf.size.toNat

instance (buf : ParaBuf) (offset len : Addr) : Decidable (buf.Within offset len) := inferInstanceAs (Decidable (_ ≤ _))

/-- What stops a `memcpy` of `len` bytes between user memory and the buffer. -/
def ParaBuf.fault (buf : ParaBuf) (offset len : Addr) : Option Fault :=
  if len = 0 then none
  else if buf.addr = 0 then some .nullDeref
  else if buf.Within offset len then none
  else some .outOfBounds

def totalParaSize (plt : List Para) : Addr := plt.foldl (fun total tmp => total + tmp.size) 0

/-- The loop that copies the parameters to the buffer. -/
def saveParas (mem : Mem) : List Para → Addr → ParaBuf → Except Fault ParaBuf
  | [], _, buf => .ok buf
  | tmp :: rest, offset, buf =>
    match buf.fault offset tmp.size with
    | some f => .error f
    | none => saveParas mem rest (offset + tmp.size)
        { buf with data := blit buf.data ⟨offset, tmp.size⟩ fun k => mem (tmp.addr + k) }

/-- The loop that copies them back. -/
def restoreParas (buf : ParaBuf) : List Para → Addr → Mem → Except Crash Mem
  | [], _, mem => .ok mem
  | tmp :: rest, offset, mem =>
    match buf.fault offset tmp.size with
    | some f => .error ⟨f, mem, []⟩
    | none => restoreParas buf rest (offset + tmp.size) (blit mem tmp.span fun k => buf.data (offset + k))

/-- The loop over the words, from `p` on: the place that it stops at, and memory. -/
def xorWords (key userRbp : Addr) : Nat → Addr → Mem → Option (Addr × Mem)
  | 0, _, _ => none
  | fuel + 1, p, mem =>
    if p ≤ userRbp then xorWords key userRbp fuel (p + 8) (store64 mem p (load64 mem p ^^^ key)) else some (p, mem)

/-- The loop over the bytes behind `p`. `char` is signed. -/
def xorBytes (key p : Addr) (delta : Nat) (mem : Mem) : Mem :=
  (List.range delta).foldl (fun mem j => Function.update mem (p + BitVec.ofNat 64 j)
    (((mem (p + BitVec.ofNat 64 j)).signExtend 64 ^^^ (key &&& 0xff)).setWidth 8)) mem

/-- The body of the two functions. -/
def xorStack (env : Env) (fuel : Nat) (userRsp userRbp : Addr) (plt : List Para) (key : Addr) (heap : Heap)
    (mem : Mem) :
    Option (Except Crash (Int × Heap × Mem)) :=
  match saveParas mem plt 0 { addr := env.kmalloc heap.next, size := totalParaSize plt, data := fun _ => 0 } with
  | .error f => some (.error ⟨f, mem, []⟩)
  | .ok buf =>
    (xorWords key userRbp fuel userRsp mem).map fun (p, mem) => do
      let mem := if p < userRbp then xorBytes key p (userRbp - p).toNat mem else mem
      let mem ← restoreParas buf plt 0 mem
      return (0, { heap with next := heap.next + 1 }, mem)

def encryptStack (env : Env) (fuel : Nat) (userRsp userRbp : Addr) (plt : List Para) (key : Addr) (heap : Heap)
    (mem : Mem) :
    Option (Except Crash (Int × Heap × Mem)) := xorStack env fuel userRsp userRbp plt key heap mem

def decryptStack (env : Env) (fuel : Nat) (userRsp userRbp : Addr) (plt : List Para) (key : Addr) (heap : Heap)
    (mem : Mem) :
    Option (Except Crash (Int × Heap × Mem)) := xorStack env fuel userRsp userRbp plt key heap mem

/-! ### Runs -/

/-- The arguments of a call of one of the two. -/
structure XorCall where
  userRsp : Addr
  userRbp : Addr
  plt : List Para
  key : Addr
  deriving DecidableEq

inductive XorOp where
  | encrypt (call : XorCall)
  | decrypt (call : XorCall)
  | write (addr : Addr) (byte : Byte)

structure XorState where
  heap : Heap
  mem : Mem

/-- One operation, when it returns. -/
def XorStep (env : Env) (s : XorState) (op : XorOp) (t : XorState) : Prop :=
  match op with
  | .encrypt c =>
      ∃ fuel ret, encryptStack env fuel c.userRsp c.userRbp c.plt c.key s.heap s.mem = some (.ok (ret, t.heap, t.mem))
  | .decrypt c =>
      ∃ fuel ret, decryptStack env fuel c.userRsp c.userRbp c.plt c.key s.heap s.mem = some (.ok (ret, t.heap, t.mem))
  | .write addr byte => t = { s with mem := Function.update s.mem addr byte }

end StackVault
