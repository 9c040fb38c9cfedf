import StackVault.StackBuf

/-! The save buffers in machine words (`stack_buf.c`). The bytes of an array are a product of two words, and so
    is the capacity of a larger one: both wrap round. The copy loop of a growth has an `int` index. Accesses
    are checked against the bytes that an array was given. `StackBuf` has the same functions where no size
    wraps round and no index ends. -/

namespace StackVault.Word
open Memory

/-- `sizeof(sbuf_t)`. The last two words are `cur` and `cap`, used in the first element of an array. -/
def sbufSize : Addr := 56

/-- The heap, and the bytes that each array was given. -/
structure Arrays where
  heap : Heap
  bytes : SbufPtr → Addr

/-- The counters of an array lie in its bytes. -/
def HasCounters (bytes : Addr) : Prop := 56 ≤ bytes.toNat

/-- So do the fields `buf`, `start`, `len` and `hole_list` of element `i`. -/
def HasItem (bytes : Addr) (i : Nat) : Prop := 56 * i + 40 ≤ bytes.toNat

instance (bytes : Addr) : Decidable (HasCounters bytes) := inferInstanceAs (Decidable (_ ≤ _))

instance (bytes : Addr) (i : Nat) : Decidable (HasItem bytes i) := inferInstanceAs (Decidable (_ ≤ _))

/-- The array `p` has been given `bytes`. -/
def Arrays.size (a : Arrays) (p : SbufPtr) (bytes : Addr) : SbufPtr → Addr :=
  fun q => if q = p then bytes else a.bytes q

def initStackBuf (env : Env) (size : Addr) (a : Arrays) : Except Fault (Option SbufPtr × Arrays) :=
  match StackVault.initStackBuf env size.toNat a.heap with
  | (none, heap) => .ok (none, { a with heap })
  | (some p, heap) =>
    if HasCounters (size * sbufSize) then .ok (some p, { heap, bytes := a.size p (size * sbufSize) })
    else .error .outOfBounds

/-- The larger array. The elements that the copy loop does not come to are not set. -/
def doubled (b : Sbuf) (env : Env) (n : Nat) : Sbuf :=
  { cur := b.cur, cap := (2 * BitVec.ofNat 64 b.cap : Addr).toNat,
    entry := fun i => if i < min b.cur (2 ^ 31) then { b.entry i with buf := env.kmalloc (n + 1 + i) } else default }

/-- The copy loop, from an array of `old` bytes to one of `new` bytes: the copy of element `i` is made by `kmalloc`
    call `n + i`. -/
def growLoop (env : Env) (n : Nat) (old new : Addr) : List Nat → Except Fault Unit
  | [] => .ok ()
  | i :: is =>
    if ¬(HasItem old i ∧ HasItem new i) then .error .outOfBounds
    else if env.kmalloc (n + i) = 0 then .error .nullDeref
    else growLoop env n old new is

def growStackBuf (env : Env) (a : Arrays) (p : SbufPtr) (b : Sbuf) : Except Fault Arrays :=
  let bytes := 2 * BitVec.ofNat 64 b.cap * sbufSize
  if HasCounters bytes then do
    growLoop env (a.heap.next + 1) (a.bytes p) bytes (List.range (min b.cur (2 ^ 31)))
    let heap := { a.heap with next := a.heap.next + 1 + min b.cur (2 ^ 31) }
    return { heap := (heap.set a.heap.next (some (doubled b env a.heap.next))).set p none,
             bytes := a.size a.heap.next bytes }
  else .error .outOfBounds

def insertStackBuf (env : Env) (a : Arrays) (mem : Mem) (p : SbufPtr) (b : Sbuf) (buf len : Addr) :
    Except Fault Arrays :=
  if HasItem (a.bytes p) b.cur then (StackVault.insertStackBuf env a.heap mem p b buf len).map fun heap =>
    { a with heap }
  else .error .outOfBounds

/-- The return value, the pointer that the caller's variable holds afterwards, and the arrays. -/
def copyStackBuf (env : Env) (a : Arrays) (mem : Mem) (sbuf : Option SbufPtr) (buf len : Addr) :
    Except Fault (Int × Option SbufPtr × Arrays) := do
  let (p, b) ← a.heap.deref sbuf
  if b.cur = b.cap then
    if env.kmalloc a.heap.next = 0 then
      return (-1, sbuf, { a with heap := { a.heap with next := a.heap.next + 1 } })
    let a' ← growStackBuf env a p b
    let a'' ← insertStackBuf env a' mem a.heap.next (doubled b env a.heap.next) buf len
    return (0, some a.heap.next, a'')
  let a' ← insertStackBuf env a mem p b buf len
  return (0, sbuf, a')

end StackVault.Word
