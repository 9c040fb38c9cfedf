import StackVault.UserList

/-! What the module is for. A function reads and writes memory, and calls others; around a call it has its frame
    encrypted and decrypted. Without the module the two system calls do nothing, and the program is to compute the
    same. -/

namespace StackVault

/-- The rest of a program. What it does next may depend on what it reads. A call has an encrypt in front of the callee,
    with the parameter list that the program has laid out at `arg`, and a decrypt behind it. -/
inductive Program where
  | done
  | read (addr : Addr) (next : Byte → Program)
  | write (addr : Addr) (byte : Byte) (next : Program)
  | call (regs : Regs) (arg : Addr) (callee : Program) (back : Regs) (next : Program)

namespace Program

/-- The memory that the program leaves without the module. -/
def plain : Program → Mem → Mem
  | done, mem => mem
  | read addr next, mem => (next (mem addr)).plain mem
  | write addr byte next, mem => next.plain fun x => if x = addr then byte else mem x
  | call _ _ callee _ next, mem => next.plain (callee.plain mem)

variable {π : Type} [DecidableEq π]

/-- The program, run by process `p` with the module, leads from `L` to `N`. -/
def Runs (env : Env) (p : π) : Program → Logged π → Logged π → Prop
  | done, L, N => N = L
  | read addr next, L, N => (next (L.mems p addr)).Runs env p L N
  | write addr byte next, L, N => ∃ M, User.LoggedStep env L (p, .write addr byte) M ∧ next.Runs env p M N
  | call regs arg callee back next, L, N => ∃ M M' K, User.LoggedStep env L (p, .encrypt regs arg) M ∧
      callee.Runs env p M M' ∧ User.LoggedStep env M' (p, .decrypt back) K ∧ next.Runs env p K N

end Program

end StackVault
