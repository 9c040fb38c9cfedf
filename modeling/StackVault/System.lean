import StackVault.Jprobe
import StackVault.Lib.Run

/-! Runs of the module. Between its calls a process writes its memory as it likes. The module's globals
    are one set for all processes; each process has a memory of its own. A run also logs which encrypts
    are open: the log is not part of the module, and no step reads it. -/

namespace StackVault
open Memory Transition

/-- The function that a call comes from, by the symbols of the executable. -/
def nameOf (env : Env) (regs : Regs) : Option String := getFuncName env.exe regs.ip

/-- The encrypt passes the checks that return. -/
def Accepts (env : Env) (regs : Regs) : Prop := (nameOf env regs).isSome ∧ regs.userRsp ≤ regs.userRbp

instance (env : Env) (regs : Regs) : Decidable (Accepts env regs) := inferInstanceAs (Decidable (_ ∧ _))

inductive Op where
  | encrypt (regs : Regs) (paraList : List Para)
  | decrypt (regs : Regs)
  | write (addr : Addr) (byte : Byte)

/-- One operation of a process, when it returns. -/
def Step (env : Env) (s : State) (op : Op) (t : State) : Prop :=
  match op with
  | .encrypt regs paraList => ∃ fuel e, jsysEncryptStack env fuel regs paraList s = some (.ok e) ∧ e.state = t
  | .decrypt regs => ∃ ret, jsysDecryptStack env regs s = .ok (ret, t)
  | .write addr byte => t = { s with mem := fun x => if x = addr then byte else s.mem x }

/-- An encrypt that is open: its registers and parameter list, memory right before it, and the element
    of `sbuf_stack` that it saved to. -/
structure Opened where
  regs : Regs
  paraList : List Para
  before : Mem
  slot : Nat

/-- The module with the memories of the processes that use it. -/
structure System (π : Type) extends Globals where
  mems : π → Mem

/-- A system with its open encrypts and the processes that issued them, newest first. -/
structure Logged (π : Type) extends System π where
  opens : List (π × Opened)

section System
variable {π : Type} [DecidableEq π]

/-- What process `p` sees. -/
def System.view (S : System π) (p : π) : State := { S.toGlobals with mem := S.mems p }

/-- The system after process `p` left the state `t`. -/
def System.put (S : System π) (p : π) (t : State) : System π :=
  { t.toGlobals with mems := fun q => if q = p then t.mem else S.mems q }

/-- The log after an operation: an accepted encrypt is added, a decrypt takes the newest one. -/
def Logged.log (env : Env) (L : Logged π) (l : π × Op) : List (π × Opened) :=
  match l.2 with
  | .encrypt regs paraList =>
    if Accepts env regs then (l.1, { regs, paraList, before := L.mems l.1, slot := L.sbufStackTop }) :: L.opens
    else L.opens
  | .decrypt _ => L.opens.tail
  | .write _ _ => L.opens

/-- Calls are not interleaved with one another: a step is one operation of one process. -/
def LoggedStep (env : Env) (L : Logged π) (l : π × Op) (M : Logged π) : Prop :=
  ∃ t, Step env (L.view l.1) l.2 t ∧ M = { L.put l.1 t with opens := L.log env l }

/-- The module just loaded. -/
def Logged.start (mems : π → Mem) : Logged π := { loaded with mems, opens := [] }

/-! ### Executing operations -/

/-- The registers of a call from `ip` with the frame `[rsp, rbp)`. -/
def Regs.frame (ip rsp rbp : Addr) : Regs := ⟨ip, rsp - 0x750, rbp⟩

def Op.exec (env : Env) (fuel : Nat) (s : State) : Op → Option State
  | .encrypt regs paraList =>
    match jsysEncryptStack env fuel regs paraList s with
    | some (.ok e) => some e.state
    | _ => none
  | .decrypt regs =>
    match jsysDecryptStack env regs s with
    | .ok (_, t) => some t
    | .error _ => none
  | .write addr byte => some { s with mem := fun x => if x = addr then byte else s.mem x }

def Logged.exec (env : Env) (fuel : Nat) (L : Logged π) (l : π × Op) : Option (Logged π) :=
  (l.2.exec env fuel (L.view l.1)).map fun t => { L.put l.1 t with opens := L.log env l }

theorem Op.step_of_exec {env : Env} {fuel : Nat} {s t : State} {op : Op} (h : op.exec env fuel s = some t) :
    Step env s op t := by
  cases op with
  | encrypt regs paraList =>
    simp only [Op.exec] at h
    split at h
    · next e he =>
      cases h
      exact ⟨fuel, e, he, rfl⟩
    · cases h
  | decrypt regs =>
    simp only [Op.exec] at h
    split at h
    · next ret t' he =>
      cases h
      exact ⟨ret, he⟩
    · cases h
  | write addr byte => exact (Option.some.inj h).symm

theorem Logged.step_of_exec {env : Env} {fuel : Nat} {L M : Logged π} {l : π × Op} (h : L.exec env fuel l = some M) :
    LoggedStep env L l M := by
  obtain ⟨t, ht, rfl⟩ := Option.map_eq_some_iff.mp h
  exact ⟨t, Op.step_of_exec ht, rfl⟩

/-- The operations of a list, executed on a module just loaded, are a run. -/
theorem Logged.run_of_exec {env : Env} {fuel : Nat} {mems : π → Mem} {ls : List (π × Op)} {L : Logged π}
    (h : Transition.exec (Logged.exec env fuel) ls (.start mems) = some L) :
    ∃ tr, Run (LoggedStep env) (.start mems) tr L ∧ tr.map Prod.snd = ls := by
  obtain ⟨tr, hr, hl⟩ :=
    exec_run (fun _ _ _ => Logged.step_of_exec) (Run.nil : Run (LoggedStep env) (.start mems) [] _) h
  exact ⟨tr, hr, hl⟩

end System

end StackVault
