import StackVault.Mapper
import StackVault.StackBuf

/-! The two probe handlers (`jprobe.c`): the scan that saves and clears a frame, the chase that gives
    the callee its pointer parameters back, and `jsys_encrypt_stack` and `jsys_decrypt_stack` around
    them. A call is `none` while its scan has not ended within `fuel` iterations. The parameter list is
    a value here, as it is for a call that writes nothing over it but its depths; `UserList` has the same
    functions with the list in the caller's memory. -/

namespace StackVault
open Memory

/-! ### The clearing scan -/

/-- How many bytes from `addr` on stay as they are, by the first entry at that address. -/
def contains (addr : Addr) : List Para → Addr
  | [] => 0
  | tmp :: rest => if addr = tmp.addr then (if tmp.pointer ≠ 0 then 0 else tmp.size) else contains addr rest

/-- What the scan loop changes besides its positions: the pointer to the save buffer, the heap and memory. -/
structure Saved where
  stackBuf : Option SbufPtr
  heap : Heap
  mem : Mem

structure Scan extends Saved where
  i : Addr
  prevRsp : Addr

/-- Save a range and clear it. The return value of `copy_stack_buf` is not looked at. -/
def save (env : Env) (r : Span) (v : Saved) : Except Crash Saved :=
  match copyStackBuf env v.heap v.mem v.stackBuf r.start r.len with
  | .error f => .error ⟨f, v.mem, []⟩
  | .ok (_, stackBuf, heap) => .ok { stackBuf, heap, mem := fill v.mem r 0x30 }

/-- Save and clear the bytes between `prev_rsp` and `i`, if there are any. -/
def flush (env : Env) (l : Scan) : Except Crash Scan :=
  if l.prevRsp < l.i then (save env ⟨l.prevRsp, l.i - l.prevRsp⟩ l.toSaved).map fun v => { l with toSaved := v }
  else .ok l

/-- The scan loop, for at most `fuel` tests of its condition; the positions are not used after it. Each test
    reads the caller's list afresh: `read` gives the list that memory holds. -/
def scanWith (env : Env) (read : Mem → List Para) (userRbp : Addr) : Nat → Scan → Option (Except Crash Saved)
  | 0, _ => none
  | fuel + 1, l =>
    if l.i ≤ userRbp then
      let skip := contains l.i (read l.mem)
      if skip ≠ 0 then
        match flush env l with
        | .error c => some (.error c)
        | .ok l => scanWith env read userRbp fuel { l with i := l.i + skip, prevRsp := l.i + skip }
      else if l.i = userRbp then
        match flush env l with
        | .error c => some (.error c)
        | .ok l => scanWith env read userRbp fuel { l with i := l.i + 1 }
      else scanWith env read userRbp fuel { l with i := l.i + 1 }
    else some (.ok l.toSaved)

/-- The scan with a list that no flush writes over. -/
def scan (env : Env) (paraList : List Para) : Addr → Nat → Scan → Option (Except Crash Saved) :=
  scanWith env fun _ => paraList

/-! ### Pointer parameters -/

/-- The place in a segment's copy of the user range `[addr, addr + len)`, a null pointer when no
    segment is found to hold it. -/
def findInSegs (addr len : Addr) : List StackBuf → Addr
  | [] => 0
  | tmp :: rest =>
    if tmp.start ≤ addr ∧ addr + len ≤ tmp.start + tmp.len then tmp.buf + (addr - tmp.start)
    else findInSegs addr len rest

/-- The segments that the look-up comes to: its index is an `int`, and ends as the one of
    `restore_stack_buf` does. -/
def reached (segs : List StackBuf) : List StackBuf := segs.take (2 ^ 31)

def findInStackBuf (addr len : Addr) (segs : List StackBuf) : Addr := findInSegs addr len (reached segs)

/-- What `restore_pointers` changes. `written` lists the user ranges written so far; no branch reads it. -/
structure Chase where
  mem : Mem
  heap : Heap
  written : List Span

/-- Read `len` bytes at address `p` of a segment's copy. -/
def kread (segs : List StackBuf) (p len : Addr) : Except Fault (Addr → Byte) :=
  if p = 0 then .error .nullDeref
  else match segs.find? fun e => e.Holds p len with
    | none => .error .outOfBounds
    | some e => .ok (e.read p)

/-- `list_add_tail` on the hole list of the array's first element. -/
def Sbuf.addHole (b : Sbuf) (h : Hole) : Sbuf :=
  { b with entry := fun i =>
      if i = 0 then
        { b.entry 0 with holeList := { (b.entry 0).holeList with holes := (b.entry 0).holeList.holes ++ [h] } }
      else b.entry i }

/-- Copy `len` bytes from the segment's copy back to the stack, and record the hole they leave. An
    `unsigned long` moved through `org_value` moves its eight bytes. -/
def writeBack (env : Env) (p : SbufPtr) (b : Sbuf) (addrInStack addrInBuf len : Addr) (c : Chase) :
    Except Crash Chase :=
  match kread b.segs addrInBuf len with
  | .error f => .error ⟨f, c.mem, c.written⟩
  | .ok src =>
    let mem := blit c.mem ⟨addrInStack, len⟩ src
    let written := c.written ++ [⟨addrInStack, len⟩]
    if env.kmalloc c.heap.next = 0 then .error ⟨.nullDeref, mem, written⟩
    else if (b.entry 0).holeList.home ≠ (p, 0) then .error ⟨.useAfterFree, mem, written⟩
    else .ok { mem, written, heap := { c.heap with next := c.heap.next + 1 }.set p (some (b.addHole ⟨addrInBuf, len⟩)) }

/-- One look-up and write-back of a pointer cell, with the array read afresh through `sbuf`. -/
def restoreCell (env : Env) (sbuf : Option SbufPtr) (addrInStack : Addr) (c : Chase) : Except Crash Chase :=
  match c.heap.deref sbuf with
  | .error f => .error ⟨f, c.mem, c.written⟩
  | .ok (p, b) => writeBack env p b addrInStack (findInStackBuf addrInStack 8 b.segs) 8 c

/-- The inner loop, `n` being what is left of `tmp->pointer`; it gives the address of the parameter. -/
def chase (env : Env) (sbuf : Option SbufPtr) : Nat → Addr → Chase → Except Crash (Addr × Chase)
  | 0, addrInStack, c => .ok (addrInStack, c)
  | n + 1, addrInStack, c => do
    let c' ← restoreCell env sbuf addrInStack c
    chase env sbuf n (load64 c'.mem addrInStack) c'

/-- The parameter itself, at the end of its pointers: copied back where the look-up finds it. -/
def restoreTarget (env : Env) (sbuf : Option SbufPtr) (addrInStack size : Addr) (c : Chase) : Except Crash Chase :=
  match c.heap.deref sbuf with
  | .error f => .error ⟨f, c.mem, c.written⟩
  | .ok (p, b) =>
    let addrInBuf := findInStackBuf addrInStack size b.segs
    if addrInBuf ≠ 0 then writeBack env p b addrInStack addrInBuf size c else .ok c

/-- One entry with `pointer ≠ 0`: `none` when its first cell is not found and the function returns. -/
def restorePointer (env : Env) (sbuf : Option SbufPtr) (tmp : Para) (c : Chase) : Except Crash (Option Chase) :=
  match c.heap.deref sbuf with
  | .error f => .error ⟨f, c.mem, c.written⟩
  | .ok (_, b) =>
    if findInStackBuf tmp.addr 8 b.segs = 0 then .ok none
    else do
      let c₁ ← restoreCell env sbuf tmp.addr c
      let (addrInStack, c₂) ← chase env sbuf (tmp.pointer - 1).toNat (load64 c₁.mem tmp.addr) c₁
      let c₃ ← restoreTarget env sbuf addrInStack tmp.size c₂
      return some c₃

/-- The return value, the list as it is left, and the other changes. The depth of an entry is counted down in
    the list itself, which is the caller's memory (`User.countDown`). -/
def restorePointers (env : Env) (sbuf : Option SbufPtr) : List Para → Chase → Except Crash (Int × List Para × Chase)
  | [], c => .ok (0, [], c)
  | tmp :: rest, c =>
    if tmp.pointer = 0 then do
      let (ret, rest', c') ← restorePointers env sbuf rest c
      return (ret, tmp :: rest', c')
    else do
      match ← restorePointer env sbuf tmp c with
      | none => return (-1, { tmp with pointer := tmp.pointer - 1 } :: rest, c)
      | some c₁ =>
        let (ret, rest', c') ← restorePointers env sbuf rest c₁
        return (ret, { tmp with pointer := 0 } :: rest', c')

/-! ### The module -/

/-- The user registers of a call. -/
structure Regs where
  ip : Addr
  sp : Addr
  bp : Addr
  deriving DecidableEq, Repr

def Regs.userRsp (r : Regs) : Addr := r.sp + 0x750

def Regs.userRbp (r : Regs) : Addr := r.bp

/-- The module's globals and heap. `call_stack` holds its elements below `call_stack_top`, newest first. -/
structure Globals where
  heap : Heap
  init : Bool
  mapper : Option (List Item)
  callStack : List CsItem
  sbufStack : Fin 16 → Option SbufPtr
  sbufStackTop : Nat

def Globals.callStackTop (g : Globals) : Nat := g.callStack.length

/-- The globals with the memory of the calling process. -/
structure State extends Globals where
  mem : Mem

/-- The module just loaded. -/
def loaded : Globals where
  heap := { next := 0, sbufs := fun _ => none }
  init := false
  mapper := none
  callStack := []
  sbufStack := fun _ => none
  sbufStackTop := 0

/-- The loop that fills the first `n` elements of `sbuf_stack`. -/
def initSlots (env : Env) : Nat → Heap → (Fin 16 → Option SbufPtr) × Heap
  | 0, heap => (fun _ => none, heap)
  | n + 1, heap =>
    let (slots, heap) := initSlots env n heap
    let (p, heap) := initStackBuf env 32 heap
    (fun i => if i.val = n then p else slots i, heap)

/-- The first call sets the module up. A mapper that could not be allocated is followed at once. -/
def setup (env : Env) (g : Globals) : Except Fault Globals :=
  if g.init then .ok g
  else if env.kmalloc g.heap.next = 0 then .error .nullDeref
  else
    let (sbufStack, heap) := initSlots env 16 { g.heap with next := g.heap.next + 1 }
    .ok { g with heap, sbufStack, mapper := some env.exe, init := true }

/-- What a call of `jsys_encrypt_stack` leaves: its return value, what `restore_pointers` returned to it if
    it came that far, the caller's parameter list, the user ranges that `restore_pointers` wrote, and the
    state. -/
structure Encrypted where
  ret : Int
  restored : Option Int
  paraList : List Para
  written : List Span
  state : State

/-- From `/*start encrypt*/` on. -/
def encryptFrame (env : Env) (fuel : Nat) (userRsp userRbp : Addr) (paraList : List Para) (funcName : String)
    (g : Globals) (mem : Mem) : Option (Except Crash Encrypted) :=
  if env.kmalloc g.heap.next = 0 ∨ env.kmalloc (g.heap.next + 1) = 0 then some (.error ⟨.nullDeref, mem, []⟩)
  else if 64 ≤ g.callStackTop then some (.error ⟨.callStackBounds, mem, []⟩)
  else if h : g.sbufStackTop < 16 then
    let g' := { g with callStack := { userRsp, userRbp, funcName } :: g.callStack, sbufStackTop := g.sbufStackTop + 1 }
    let l := { i := userRsp, prevRsp := userRsp, stackBuf := g.sbufStack ⟨g.sbufStackTop, h⟩,
               heap := { g.heap with next := g.heap.next + 2 }, mem }
    (scan env paraList userRbp fuel l).map fun r => do
      let v ← r
      -- The return value of `restore_pointers` is not looked at.
      let (restored, paraList, c) ← restorePointers env v.stackBuf paraList
        { mem := v.mem, heap := v.heap, written := [] }
      return { ret := 0, restored := some restored, paraList, written := c.written,
               state := { g' with heap := c.heap, mem := c.mem } }
  else some (.error ⟨.sbufStackBounds, mem, []⟩)

/-- The call with a list that it does not write over; `User.jsysEncryptStack` is the call with any list. -/
def jsysEncryptStack (env : Env) (fuel : Nat) (regs : Regs) (paraList : List Para) (s : State) :
    Option (Except Crash Encrypted) :=
  match setup env s.toGlobals with
  | .error f => some (.error ⟨f, s.mem, []⟩)
  | .ok g =>
    match g.mapper with
    | none => some (.error ⟨.nullDeref, s.mem, []⟩)
    | some mapper =>
      match getFuncName mapper regs.ip with
      | none => some (.ok { ret := 0, restored := none, paraList, written := [], state := { g with mem := s.mem } })
      | some funcName =>
        if regs.userRbp < regs.userRsp then
          some (.ok { ret := -1, restored := none, paraList, written := [], state := { g with mem := s.mem } })
        -- The check against the caller's frame only reports: its `return` is commented out.
        else encryptFrame env fuel regs.userRsp regs.userRbp paraList funcName g s.mem

def jsysDecryptStack (env : Env) (regs : Regs) (s : State) : Except Crash (Int × State) :=
  match s.mapper with
  | none => .error ⟨.nullDeref, s.mem, []⟩
  | some mapper =>
    let funcName := getFuncName mapper regs.ip
    match s.callStack with
    | [] => .ok (-1, s)
    | _ :: rest =>
      match funcName with
      | none => .error ⟨.nullDeref, s.mem, []⟩
      | some _ =>
        -- A name that differs from the record's is only reported.
        if h : 0 < s.sbufStackTop ∧ s.sbufStackTop ≤ 16 then do
          let top := s.sbufStackTop - 1
          let (heap, mem) ← restoreStackBuf env s.heap s.mem (s.sbufStack ⟨top, by omega⟩)
          return (0, { s with heap, mem, callStack := rest, sbufStackTop := top })
        else .error ⟨.sbufStackBounds, s.mem, []⟩

end StackVault
