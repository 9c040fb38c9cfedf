import StackVault.System

/-! The parameter list where it is: in the memory of the calling process, which the module clears and writes back
    to. `contains` reads it for every position of the scan, `restore_pointers` for every entry, and the depth of
    an entry is counted down in place. `Jprobe` has the same functions with the list as a value, as it is for calls
    that write nothing over it. -/

namespace StackVault
open Memory

/-! ### The list in memory -/

/-- `para_t`: two words and an `int`, in 24 bytes. -/
def paraAt (mem : Mem) (tmp : Addr) : Para := ⟨load64 mem tmp, load64 mem (tmp + 8), load32 mem (tmp + 16)⟩

/-- `plist + i`. -/
def entryAddr (plist : Addr) (i : Nat) : Addr := plist + BitVec.ofNat 64 (24 * i)

/-- `para_list_t`: the `int` at its begin, none for a negative one. -/
def sizeAt (mem : Mem) (arg : Addr) : Nat := (load32 mem arg).toInt.toNat

/-- The pointer behind it. -/
def plistAt (mem : Mem) (arg : Addr) : Addr := load64 mem (arg + 8)

/-- The entries of the list at `arg`. -/
def listAt (arg : Addr) (mem : Mem) : List Para :=
  (List.range (sizeAt mem arg)).map fun i => paraAt mem (entryAddr (plistAt mem arg) i)

namespace User

/-! ### Pointer parameters -/

/-- `tmp->pointer`. -/
def depthAt (mem : Mem) (tmp : Addr) : BitVec 32 := load32 mem (tmp + 16)

/-- `tmp->pointer--`. -/
def countDown (tmp : Addr) (c : Chase) : Chase := { c with mem := store32 c.mem (tmp + 16) (depthAt c.mem tmp - 1) }

/-- The inner loop, for at most `fuel` tests of its condition; it gives the address of the parameter. -/
def chase (env : Env) (sbuf : Option SbufPtr) (tmp : Addr) : Nat → Addr → Chase → Option (Except Crash (Addr × Chase))
  | 0, _, _ => none
  | fuel + 1, addrInStack, c =>
    if depthAt c.mem tmp = 0 then some (.ok (addrInStack, c))
    else match restoreCell env sbuf addrInStack c with
      | .error e => some (.error e)
      | .ok c' => chase env sbuf tmp fuel (load64 (countDown tmp c').mem addrInStack) (countDown tmp c')

/-- The entry at `tmp`, whose depth is not 0: whether its first cell is found. -/
def restorePointer (env : Env) (sbuf : Option SbufPtr) (fuel : Nat) (tmp : Addr) (c : Chase) :
    Option (Except Crash (Bool × Chase)) :=
  let addrInStack := load64 c.mem tmp
  let size := load64 c.mem (tmp + 8)
  let c := countDown tmp c
  match c.heap.deref sbuf with
  | .error f => some (.error ⟨f, c.mem, c.written⟩)
  | .ok (_, b) =>
    if findInStackBuf addrInStack 8 b.segs = 0 then some (.ok (false, c))
    else match restoreCell env sbuf addrInStack c with
      | .error e => some (.error e)
      | .ok c₁ => (chase env sbuf tmp fuel (load64 c₁.mem addrInStack) c₁).map fun r => do
          let (addrInStack, c₂) ← r
          let c₃ ← restoreTarget env sbuf addrInStack size c₂
          return (true, c₃)

/-- The loop over the entries, from number `i` on. Its bound and the entries are read as it runs. -/
def restoreFrom (env : Env) (sbuf : Option SbufPtr) (arg : Addr) :
    Nat → Nat → Chase → Option (Except Crash (Int × Chase))
  | 0, _, _ => none
  | fuel + 1, i, c =>
    if i < sizeAt c.mem arg then
      let tmp := entryAddr (plistAt c.mem arg) i
      if depthAt c.mem tmp = 0 then restoreFrom env sbuf arg fuel (i + 1) c
      else match restorePointer env sbuf fuel tmp c with
        | none => none
        | some (.error e) => some (.error e)
        | some (.ok (false, c)) => some (.ok (-1, c))
        | some (.ok (true, c)) => restoreFrom env sbuf arg fuel (i + 1) c
    else some (.ok (0, c))

/-- The return value and the changes. -/
def restorePointers (env : Env) (sbuf : Option SbufPtr) (arg : Addr) (fuel : Nat) (c : Chase) :
    Option (Except Crash (Int × Chase)) :=
  restoreFrom env sbuf arg fuel 0 c

/-! ### The call -/

/-- The scan, over the list as memory has it at each test. -/
def scan (env : Env) (arg userRbp : Addr) : Nat → Scan → Option (Except Crash Saved) :=
  scanWith env (listAt arg) userRbp

/-- What a call leaves: its return value, what `restore_pointers` returned to it if it came that far, the user ranges
    that `restore_pointers` wrote back, and the state. -/
structure Encrypted where
  ret : Int
  restored : Option Int
  written : List Span
  state : State

/-- From `/*start encrypt*/` on. -/
def encryptFrame (env : Env) (fuel : Nat) (userRsp userRbp arg : Addr) (funcName : String) (g : Globals) (mem : Mem) :
    Option (Except Crash Encrypted) :=
  if env.kmalloc g.heap.next = 0 ∨ env.kmalloc (g.heap.next + 1) = 0 then some (.error ⟨.nullDeref, mem, []⟩)
  else if 64 ≤ g.callStackTop then some (.error ⟨.callStackBounds, mem, []⟩)
  else if h : g.sbufStackTop < 16 then
    let g' := { g with callStack := { userRsp, userRbp, funcName } :: g.callStack, sbufStackTop := g.sbufStackTop + 1 }
    let l := { i := userRsp, prevRsp := userRsp, stackBuf := g.sbufStack ⟨g.sbufStackTop, h⟩,
               heap := { g.heap with next := g.heap.next + 2 }, mem }
    match scan env arg userRbp fuel l with
    | none => none
    | some (.error e) => some (.error e)
    | some (.ok v) =>
      (restorePointers env v.stackBuf arg fuel { mem := v.mem, heap := v.heap, written := [] }).map fun r =>
        r.map fun x =>
        { ret := 0, restored := some x.1, written := x.2.written,
          state := { g' with heap := x.2.heap, mem := x.2.mem } }
  else some (.error ⟨.sbufStackBounds, mem, []⟩)

def jsysEncryptStack (env : Env) (fuel : Nat) (regs : Regs) (arg : Addr) (s : State) :
    Option (Except Crash Encrypted) :=
  match setup env s.toGlobals with
  | .error f => some (.error ⟨f, s.mem, []⟩)
  | .ok g =>
    match g.mapper with
    | none => some (.error ⟨.nullDeref, s.mem, []⟩)
    | some mapper =>
      match getFuncName mapper regs.ip with
      | none => some (.ok { ret := 0, restored := none, written := [], state := { g with mem := s.mem } })
      | some funcName =>
        if regs.userRbp < regs.userRsp then
          some (.ok { ret := -1, restored := none, written := [], state := { g with mem := s.mem } })
        else encryptFrame env fuel regs.userRsp regs.userRbp arg funcName g s.mem

/-! ### Runs -/

/-- The operations of a process that has its lists in memory. -/
inductive Op where
  | encrypt (regs : Regs) (arg : Addr)
  | decrypt (regs : Regs)
  | write (addr : Addr) (byte : Byte)

/-- The operation with the list that memory has as a value. -/
def Op.withList (mem : Mem) : User.Op → StackVault.Op
  | .encrypt regs arg => .encrypt regs (listAt arg mem)
  | .decrypt regs => .decrypt regs
  | .write addr byte => .write addr byte

/-- One operation of a process, when it returns. Only an encrypt looks at the list. -/
def Step (env : Env) (s : State) (op : User.Op) (t : State) : Prop :=
  match op with
  | .encrypt regs arg => ∃ fuel e, User.jsysEncryptStack env fuel regs arg s = some (.ok e) ∧ e.state = t
  | .decrypt regs => StackVault.Step env s (.decrypt regs) t
  | .write addr byte => StackVault.Step env s (.write addr byte) t

/-- A step is one operation of one process. -/
def LoggedStep {π : Type} [DecidableEq π] (env : Env) (L : Logged π) (l : π × User.Op) (M : Logged π) : Prop :=
  ∃ t, Step env (L.view l.1) l.2 t ∧ M = { L.put l.1 t with opens := L.log env (l.1, l.2.withList (L.mems l.1)) }

end User

end StackVault
