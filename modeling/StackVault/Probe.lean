import StackVault.ParseElf
import StackVault.System

/-! The module with the table of its symbols: the first call makes a mapper and has `parse` read the executable into
    it, and every call looks its function up there. `Jprobe.lean` is given the symbols as a list. -/

namespace StackVault

/-- The characters of a name. -/
def CString.text (s : CString) : String := String.ofList (s.bytes.map fun b => Char.ofNat b.toNat)

/-- What the module takes from outside. `env.exe` is not used: the symbols are those of the file. -/
structure Kernel where
  env : Env
  kmalloc : Mapper.Kmalloc
  file : Elf.ExeFile

/-- The module's globals with the pointer to its table and the heap where the table lies. The list of symbols in
    `Globals` stays unset. -/
structure Probe extends Globals where
  table : Option Nat
  store : Mapper.Store

/-- The first call sets the module up, with at most `rounds` rounds for the loop of `parse`. The mapper takes a number
    among the `kmalloc` calls of either heap. -/
def Probe.setup (k : Kernel) (rounds : Nat) (g : Probe) : Option (Except Fault Probe) :=
  if g.init then some (.ok g)
  else match Mapper.initMapper k.kmalloc g.store 8 with
    | .error f => some (.error f)
    | .ok (table, store) =>
      let (sbufStack, heap) := initSlots k.env 16 { g.heap with next := g.heap.next + 1 }
      (Elf.parse k.kmalloc rounds k.file table store).map fun r => r.map fun (table, store) =>
        { g with heap, sbufStack, init := true, table, store }

/-- `get_func_name`, and the string that the pointer it returns is followed to. -/
def Probe.funcName (g : Probe) (ip : Addr) : Except Fault (Option String) := do
  match ← Mapper.getFuncName g.store g.table ip with
  | none => return none
  | some q => (g.store.string q).map fun name => some name.text

/-- `jsys_encrypt_stack`: what it leaves, and the module. -/
def Probe.encrypt (k : Kernel) (rounds fuel : Nat) (regs : Regs) (paraList : List Para) (g : Probe) (mem : Mem) :
    Option (Except Crash (Encrypted × Probe)) :=
  match g.setup k rounds with
  | none => none
  | some (.error f) => some (.error ⟨f, mem, []⟩)
  | some (.ok g) =>
    match g.funcName regs.ip with
    | .error f => some (.error ⟨f, mem, []⟩)
    | .ok none =>
        some (.ok ({ ret := 0, restored := none, paraList, written := [], state := { g.toGlobals with mem } }, g))
    | .ok (some funcName) =>
      if regs.userRbp < regs.userRsp then
        some (.ok ({ ret := -1, restored := none, paraList, written := [], state := { g.toGlobals with mem } }, g))
      else (encryptFrame k.env fuel regs.userRsp regs.userRbp paraList funcName g.toGlobals mem).map fun r =>
        r.map fun e => (e, { g with toGlobals := e.state.toGlobals })

/-- `jsys_decrypt_stack`: its return value, the module and memory. -/
def Probe.decrypt (k : Kernel) (regs : Regs) (g : Probe) (mem : Mem) : Except Crash (Int × Probe × Mem) :=
  match g.funcName regs.ip with
  | .error f => .error ⟨f, mem, []⟩
  | .ok funcName =>
    match g.callStack with
    | [] => .ok (-1, g, mem)
    | _ :: rest =>
      match funcName with
      | none => .error ⟨.nullDeref, mem, []⟩
      | some _ =>
        if h : 0 < g.sbufStackTop ∧ g.sbufStackTop ≤ 16 then do
          let top := g.sbufStackTop - 1
          let (heap, mem) ← restoreStackBuf k.env g.heap mem (g.sbufStack ⟨top, by omega⟩)
          return (0, { g with heap, callStack := rest, sbufStackTop := top }, mem)
        else .error ⟨.sbufStackBounds, mem, []⟩

/-- The module with the memories of the processes that use it. -/
structure Host (π : Type) extends Probe where
  mems : π → Mem

section Host
variable {π : Type} [DecidableEq π]

/-- The host after process `p` left the module `g` and its memory `mem`. -/
def Host.put (H : Host π) (p : π) (g : Probe) (mem : Mem) : Host π :=
  { g with mems := fun q => if q = p then mem else H.mems q }

/-- One operation of a process, when it returns. -/
def HostStep (k : Kernel) (H : Host π) (l : π × Op) (H' : Host π) : Prop :=
  match l.2 with
  | .encrypt regs paraList =>
      ∃ rounds fuel e g, H.toProbe.encrypt k rounds fuel regs paraList (H.mems l.1) = some (.ok (e, g)) ∧
      H' = H.put l.1 g e.state.mem
  | .decrypt regs => ∃ ret g mem, H.toProbe.decrypt k regs (H.mems l.1) = .ok (ret, g, mem) ∧ H' = H.put l.1 g mem
  | .write addr byte => H' = H.put l.1 H.toProbe fun x => if x = addr then byte else H.mems l.1 x

/-- The module just loaded. -/
def Host.start (mems : π → Mem) : Host π := { loaded with table := none, store := .empty, mems }

end Host

end StackVault
