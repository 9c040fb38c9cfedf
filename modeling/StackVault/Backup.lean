import StackVault.System

/-! The earlier version of the module (`jprobe.c.bkp`). All calls save to one buffer, which a decrypt restores as a
    whole; an encrypt that would reach the frame below it is refused, and the first cell of a pointer is followed
    without a test. What the two versions have in common is one definition here. -/

namespace StackVault.Bkp
open Memory Transition

/-- The module's globals and heap. -/
structure Globals where
  heap : Heap
  init : Bool
  mapper : Option (List Item)
  callStack : List CsItem
  stackBuf : Option SbufPtr

def Globals.callStackTop (g : Globals) : Nat := g.callStack.length

structure State extends Globals where
  mem : Mem

/-- The module just loaded. -/
def loaded : Globals where
  heap := { next := 0, sbufs := fun _ => none }
  init := false
  mapper := none
  callStack := []
  stackBuf := none

/-- One entry with `pointer ≠ 0`. -/
def restorePointer (env : Env) (sbuf : Option SbufPtr) (tmp : Para) (c : Chase) : Except Crash Chase := do
  let c₁ ← restoreCell env sbuf tmp.addr c
  let (addrInStack, c₂) ← chase env sbuf (tmp.pointer - 1).toNat (load64 c₁.mem tmp.addr) c₁
  restoreTarget env sbuf addrInStack tmp.size c₂

/-- The caller's list as it is left, and the changes. The return value is always 0. -/
def restorePointers (env : Env) (sbuf : Option SbufPtr) : List Para → Chase → Except Crash (List Para × Chase)
  | [], c => .ok ([], c)
  | tmp :: rest, c =>
    if tmp.pointer = 0 then do
      let (rest', c') ← restorePointers env sbuf rest c
      return (tmp :: rest', c')
    else do
      let c₁ ← restorePointer env sbuf tmp c
      let (rest', c') ← restorePointers env sbuf rest c₁
      return ({ tmp with pointer := 0 } :: rest', c')

/-- The first call sets the module up. A mapper that could not be allocated is followed at once. -/
def setup (env : Env) (g : Globals) : Except Fault Globals :=
  if g.init then .ok g
  else if env.kmalloc g.heap.next = 0 then .error .nullDeref
  else
    let (stackBuf, heap) := initStackBuf env 32 { g.heap with next := g.heap.next + 1 }
    .ok { g with heap, stackBuf, mapper := some env.exe, init := true }

/-- What a call of `jsys_encrypt_stack` leaves: its return value, the caller's parameter list and the state. -/
structure Encrypted where
  ret : Int
  paraList : List Para
  state : State

/-- From `/*start encrypt*/` on. The scan is given the global pointer itself. -/
def encryptFrame (env : Env) (fuel : Nat) (userRsp userRbp : Addr) (paraList : List Para) (funcName : String)
    (g : Globals) (mem : Mem) : Option (Except Crash Encrypted) :=
  if env.kmalloc g.heap.next = 0 ∨ env.kmalloc (g.heap.next + 1) = 0 then some (.error ⟨.nullDeref, mem, []⟩)
  else if 64 ≤ g.callStackTop then some (.error ⟨.callStackBounds, mem, []⟩)
  else
    let l := { i := userRsp, prevRsp := userRsp, stackBuf := g.stackBuf,
               heap := { g.heap with next := g.heap.next + 2 }, mem }
    (scan env paraList userRbp fuel l).map fun r => do
      let v ← r
      let (paraList, c) ← restorePointers env v.stackBuf paraList { mem := v.mem, heap := v.heap, written := [] }
      return { ret := 0, paraList,
               state := { g with callStack := { userRsp, userRbp, funcName } :: g.callStack, stackBuf := v.stackBuf,
                                 heap := c.heap, mem := c.mem } }

/-- The frame reaches the one that the newest record has. -/
def ReachesCaller (callStack : List CsItem) (userRbp : Addr) : Prop :=
  ∃ prevCsit ∈ callStack.head?, prevCsit.userRsp ≤ userRbp

instance (callStack : List CsItem) (userRbp : Addr) : Decidable (ReachesCaller callStack userRbp) :=
  inferInstanceAs (Decidable (∃ prevCsit ∈ callStack.head?, _))

def jsysEncryptStack (env : Env) (fuel : Nat) (regs : Regs) (paraList : List Para) (s : State) :
    Option (Except Crash Encrypted) :=
  match setup env s.toGlobals with
  | .error f => some (.error ⟨f, s.mem, []⟩)
  | .ok g =>
    match g.mapper with
    | none => some (.error ⟨.nullDeref, s.mem, []⟩)
    | some mapper =>
      match getFuncName mapper regs.ip with
      | none => some (.ok { ret := 0, paraList, state := { g with mem := s.mem } })
      | some funcName =>
        if regs.userRbp < regs.userRsp then some (.ok { ret := -1, paraList, state := { g with mem := s.mem } })
        else if ReachesCaller g.callStack regs.userRbp then
          some (.ok { ret := -1, paraList, state := { g with mem := s.mem } })
        else encryptFrame env fuel regs.userRsp regs.userRbp paraList funcName g s.mem

def jsysDecryptStack (env : Env) (regs : Regs) (s : State) : Except Crash (Int × State) :=
  match s.mapper with
  | none => .error ⟨.nullDeref, s.mem, []⟩
  | some mapper =>
    let funcName := getFuncName mapper regs.ip
    match s.callStack with
    | [] => .ok (-1, s)
    | _ :: rest =>
      match funcName with
      | none => .error ⟨.nullDeref, s.mem, []⟩
      | some _ => do
        -- A name that differs from the record's is only reported.
        let (heap, mem) ← restoreStackBuf env s.heap s.mem s.stackBuf
        return (0, { s with heap, mem, callStack := rest })

/-! ### Runs -/

/-- One operation of a process, when it returns. -/
def Step (env : Env) (s : State) (op : Op) (t : State) : Prop :=
  match op with
  | .encrypt regs paraList => ∃ fuel e, jsysEncryptStack env fuel regs paraList s = some (.ok e) ∧ e.state = t
  | .decrypt regs => ∃ ret, jsysDecryptStack env regs s = .ok (ret, t)
  | .write addr byte => t = { s with mem := fun x => if x = addr then byte else s.mem x }

/-- The encrypt passes the checks that return. -/
def Accepts (env : Env) (callStack : List CsItem) (regs : Regs) : Prop :=
  StackVault.Accepts env regs ∧ ¬ReachesCaller callStack regs.userRbp

instance (env : Env) (callStack : List CsItem) (regs : Regs) : Decidable (Accepts env callStack regs) :=
  inferInstanceAs (Decidable (_ ∧ _))

/-- An encrypt, and memory right before it. -/
structure Held where
  regs : Regs
  paraList : List Para
  before : Mem

/-- The module with the memories of the processes that use it, and a log of the encrypts since the last decrypt, newest
    first. No step reads the log. -/
structure Logged (π : Type) extends Globals where
  mems : π → Mem
  held : List Held

section Logged
variable {π : Type} [DecidableEq π]

/-- What process `p` sees. -/
def Logged.view (L : Logged π) (p : π) : State := { L.toGlobals with mem := L.mems p }

def Logged.log (env : Env) (L : Logged π) (l : π × Op) : List Held :=
  match l.2 with
  | .encrypt regs paraList =>
    if Accepts env L.callStack regs then { regs, paraList, before := L.mems l.1 } :: L.held else L.held
  | .decrypt _ => []
  | .write _ _ => L.held

/-- The system after a process left the state `t`. -/
def Logged.after (env : Env) (L : Logged π) (l : π × Op) (t : State) : Logged π :=
  { t.toGlobals with mems := fun q => if q = l.1 then t.mem else L.mems q, held := L.log env l }

/-- A step is one operation of one process. -/
def LoggedStep (env : Env) (L : Logged π) (l : π × Op) (M : Logged π) : Prop :=
  ∃ t, Step env (L.view l.1) l.2 t ∧ M = L.after env l t

/-- The module just loaded. -/
def Logged.start (mems : π → Mem) : Logged π := { loaded with mems, held := [] }

/-! ### Executing operations -/

def exec (env : Env) (fuel : Nat) (s : State) : Op → Option State
  | .encrypt regs paraList =>
    match jsysEncryptStack env fuel regs paraList s with
    | some (.ok e) => some e.state
    | _ => none
  | .decrypt regs =>
    match jsysDecryptStack env regs s with
    | .ok (_, t) => some t
    | .error _ => none
  | .write addr byte => some { s with mem := fun x => if x = addr then byte else s.mem x }

def Logged.exec (env : Env) (fuel : Nat) (L : Logged π) (l : π × Op) : Option (Logged π) :=
  (Bkp.exec env fuel (L.view l.1) l.2).map (L.after env l)

theorem step_of_exec {env : Env} {fuel : Nat} {s t : State} {op : Op} (h : exec env fuel s op = some t) :
    Step env s op t := by
  cases op with
  | encrypt regs paraList =>
    simp only [exec] at h
    split at h
    · next e he =>
      cases h
      exact ⟨fuel, e, he, rfl⟩
    · cases h
  | decrypt regs =>
    simp only [exec] at h
    split at h
    · next ret t' he =>
      cases h
      exact ⟨ret, he⟩
    · cases h
  | write addr byte => exact (Option.some.inj h).symm

theorem Logged.step_of_exec {env : Env} {fuel : Nat} {L M : Logged π} {l : π × Op} (h : L.exec env fuel l = some M) :
    LoggedStep env L l M := by
  obtain ⟨t, ht, rfl⟩ := Option.map_eq_some_iff.mp h
  exact ⟨t, Bkp.step_of_exec ht, rfl⟩

/-- The operations of a list, executed on a module just loaded, are a run. -/
theorem Logged.run_of_exec {env : Env} {fuel : Nat} {mems : π → Mem} {ls : List (π × Op)} {L : Logged π}
    (h : Transition.exec (Logged.exec env fuel) ls (.start mems) = some L) :
    ∃ tr, Run (LoggedStep env) (.start mems) tr L ∧ tr.map Prod.snd = ls := by
  obtain ⟨tr, hr, hl⟩ :=
    exec_run (fun _ _ _ => Logged.step_of_exec) (Run.nil : Run (LoggedStep env) (.start mems) [] _) h
  exact ⟨tr, hr, hl⟩

end Logged

end StackVault.Bkp
