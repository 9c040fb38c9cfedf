import StackVault.Types

/-! The save buffers (`stack_buf.c`): `init_stack_buf`, `copy_stack_buf` with its growth of a full
    array, the comparator of holes, and `restore_stack_buf`. An array is taken to have room for its
    capacity, and the copy loop of a growth to come to all its elements; `BufWords` has the same functions
    in machine words, where the size of an array in bytes may wrap round. -/

namespace StackVault
open Memory

/-- A fresh array of `size` elements, their bytes not wrapping round, or a null pointer. -/
def initStackBuf (env : Env) (size : Nat) (heap : Heap) : Option SbufPtr × Heap :=
  let heap' := { heap with next := heap.next + 1 }
  if env.kmalloc heap.next = 0 then (none, heap')
  else (some heap.next, heap'.set heap.next (some { cur := 0, cap := size, entry := fun _ => default }))

/-! ### `copy_stack_buf` -/

/-- The array with `e` as its element `cur`. -/
def Sbuf.push (b : Sbuf) (e : StackBuf) : Sbuf :=
  { b with cur := b.cur + 1, entry := fun i => if i = b.cur then e else b.entry i }

/-- The elements of an array copied into one of twice the capacity, at `kmalloc` call `n`: element `i`
    gets a new copy of its segment, and its list head is copied as it stands, still closing at the
    old place. -/
def Sbuf.doubled (b : Sbuf) (env : Env) (n : Nat) : Sbuf :=
  { cur := b.cur, cap := 2 * b.cap,
    entry := fun i => if i < b.cur then { b.entry i with buf := env.kmalloc (n + 1 + i) } else default }

/-- Growth of a full array of at most `2 ^ 31` elements, its allocation having succeeded: the new array is
    made by `kmalloc` call `next`, the copies of its elements by those after it, and the old array is freed. -/
def growStackBuf (env : Env) (heap : Heap) (p : SbufPtr) (b : Sbuf) : Except Fault Heap :=
  if (List.range b.cur).any fun i => env.kmalloc (heap.next + 1 + i) = 0 then .error .nullDeref
  else .ok (({ heap with next := heap.next + 1 + b.cur }.set heap.next (some (b.doubled env heap.next))).set p none)

/-- The new item: `len` bytes from `buf` on, copied by `kmalloc` call `n`, at element `i` of the array `p`. -/
def newItem (env : Env) (n : Nat) (mem : Mem) (p : SbufPtr) (i : Nat) (buf len : Addr) : StackBuf where
  buf := env.kmalloc n
  data := fun k => mem (buf + k)
  start := buf
  len := len
  holeList := { home := (p, i), holes := [] }

/-- Insertion at element `cur`. -/
def insertStackBuf (env : Env) (heap : Heap) (mem : Mem) (p : SbufPtr) (b : Sbuf) (buf len : Addr) :
    Except Fault Heap :=
  if env.kmalloc heap.next = 0 then .error .nullDeref
  else .ok ({ heap with next := heap.next + 1 }.set p (some (b.push (newItem env heap.next mem p b.cur buf len))))

/-- The return value, the pointer that the caller's variable holds afterwards, and the heap. -/
def copyStackBuf (env : Env) (heap : Heap) (mem : Mem) (sbuf : Option SbufPtr) (buf len : Addr) :
    Except Fault (Int × Option SbufPtr × Heap) := do
  let (p, b) ← heap.deref sbuf
  if b.cur = b.cap then
    if env.kmalloc heap.next = 0 then
      return (-1, sbuf, { heap with next := heap.next + 1 })
    let heap' ← growStackBuf env heap p b
    let heap'' ← insertStackBuf env heap' mem heap.next (b.doubled env heap.next) buf len
    return (0, some heap.next, heap'')
  let heap' ← insertStackBuf env heap mem p b buf len
  return (0, sbuf, heap')

/-! ### `restore_stack_buf` -/

/-- The comparator of holes: the difference of two addresses, cut to an `int`. -/
def cmp (a b : Hole) : Int := ((a.start - b.start).setWidth 32).toInt

/-- The `len` bytes from `p` on lie inside the copy of the segment. -/
def StackBuf.Holds (e : StackBuf) (p len : Addr) : Prop :=
  e.buf.toNat ≤ p.toNat ∧ p.toNat + len.toNat ≤ e.buf.toNat + e.len.toNat

instance (e : StackBuf) (p len : Addr) : Decidable (e.Holds p len) := inferInstanceAs (Decidable (_ ∧ _))

/-- Byte `k` from address `p` of the copy on. -/
def StackBuf.read (e : StackBuf) (p : Addr) : Addr → Byte := fun k => e.data (p - e.buf + k)

/-- `memcpy` from the copy of the segment to user memory. -/
def copyBack (tmp : StackBuf) (mem : Mem) (dst frm len : Addr) : Except Crash Mem :=
  if len = 0 then .ok mem
  else if tmp.Holds frm len then .ok (blit mem ⟨dst, len⟩ (tmp.read frm))
  else .error ⟨.outOfBounds, mem, []⟩

/-- The walk over the sorted holes of a segment: copy up to the next hole, then step over it. -/
def restoreWalk (tmp : StackBuf) : List Hole → (frm dst : Addr) → Mem → Except Crash Mem
  | [], frm, dst, mem => copyBack tmp mem dst frm (tmp.buf + tmp.len - frm)
  | h :: hs, frm, dst, mem => do
    let len := h.start - frm
    let mem' ← copyBack tmp mem dst frm len
    restoreWalk tmp hs (h.start + h.len) (dst + (len + h.len)) mem'

/-- Element `i` of the array at `p`. Its list can only be walked from the head it closes at. -/
def restoreSegment (env : Env) (p : SbufPtr) (i : Nat) (tmp : StackBuf) (mem : Mem) : Except Crash Mem :=
  if tmp.holeList.home = (p, i) then
    restoreWalk tmp (env.listSort cmp tmp.holeList.holes) tmp.buf tmp.start mem
  else .error ⟨.useAfterFree, mem, []⟩

/-- The array once element `i` was restored: its holes are sorted and `cur` is one less. -/
def Sbuf.restored (b : Sbuf) (env : Env) (i : Nat) : Sbuf :=
  { b with
    cur := b.cur - 1
    entry := fun j => if j = i then
      { b.entry i with holeList := { (b.entry i).holeList with holes := env.listSort cmp (b.entry i).holeList.holes } }
      else b.entry j }

/-- The loop over the elements; the array changes as it runs, the indices do not. -/
def restoreLoop (env : Env) (p : SbufPtr) : List Nat → Sbuf → Mem → Except Crash (Sbuf × Mem)
  | [], b, mem => .ok (b, mem)
  | i :: is, b, mem => do
    let mem' ← restoreSegment env p i (b.entry i) mem
    restoreLoop env p is (b.restored env i) mem'

/-- The loop's index is an `int`: it becomes negative after `2 ^ 31` elements, and then no `cur` is above it. -/
def restoreStackBuf (env : Env) (heap : Heap) (mem : Mem) (sbuf : Option SbufPtr) :
    Except Crash (Heap × Mem) :=
  match heap.deref sbuf with
  | .error f => .error ⟨f, mem, []⟩
  | .ok (p, b) => do
    let (b', mem') ← restoreLoop env p (List.range (min b.cur (2 ^ 31))) b mem
    return (heap.set p (some b'), mem')

end StackVault
