import StackVault.Types

/-! The two ways of clearing memory that stand beside the module: `glibc_memset`, whose cost the tests measure, and
    the hook of `stack_clear.c` that clears the frame of a function when it returns. -/

namespace StackVault
open Memory

/-! ### `glibc_memset` -/

/-- `cccc`: the low byte of `c`, in every byte of a word. -/
def splat (c : BitVec 32) : BitVec 64 :=
  let cccc : BitVec 64 := (c.setWidth 8).setWidth 64
  let cccc := cccc ||| cccc <<< 8
  let cccc := cccc ||| cccc <<< 16
  cccc ||| (cccc <<< 16) <<< 16

/-- Memory, and what `glibc_memset` keeps from loop to loop. -/
structure Cursor where
  mem : Mem
  dstp : Addr
  len : Addr

/-- `((byte *) dstp)[0] = c`, with the two counts. -/
def Cursor.put (c : BitVec 32) (s : Cursor) : Cursor where
  mem := fun x => if x = s.dstp then c.setWidth 8 else s.mem x
  dstp := s.dstp + 1
  len := s.len - 1

/-- The loop that aligns `dstp`, for at most `fuel` tests of its condition. -/
def align (c : BitVec 32) : Nat → Cursor → Option Cursor
  | 0, _ => none
  | fuel + 1, s => if s.dstp % 8 ≠ 0 then align c fuel (s.put c) else some s

/-- The loop of eight words an iteration, with `xlen` iterations to go. -/
def eightWordLoop (cccc : BitVec 64) : Nat → Cursor → Cursor
  | 0, s => s
  | xlen + 1, s =>
    let mem := store64 s.mem s.dstp cccc
    let mem := store64 mem (s.dstp + 8) cccc
    let mem := store64 mem (s.dstp + 16) cccc
    let mem := store64 mem (s.dstp + 24) cccc
    let mem := store64 mem (s.dstp + 32) cccc
    let mem := store64 mem (s.dstp + 40) cccc
    let mem := store64 mem (s.dstp + 48) cccc
    let mem := store64 mem (s.dstp + 56) cccc
    eightWordLoop cccc xlen { s with mem, dstp := s.dstp + 8 * 8 }

/-- The loop of one word an iteration. -/
def wordLoop (cccc : BitVec 64) : Nat → Cursor → Cursor
  | 0, s => s
  | xlen + 1, s => wordLoop cccc xlen { s with mem := store64 s.mem s.dstp cccc, dstp := s.dstp + 8 }

/-- The last bytes, one an iteration, for at most `fuel` tests. -/
def lastBytes (c : BitVec 32) : Nat → Cursor → Option Cursor
  | 0, _ => none
  | fuel + 1, s => if 0 < s.len then lastBytes c fuel (s.put c) else some s

/-- `glibc_memset(dstpp, c, len)`: memory after it, and the pointer it returns, the `dstpp` it was given. -/
def glibcMemset (fuel : Nat) (mem : Mem) (dstpp : Addr) (c : BitVec 32) (len : Addr) : Option (Mem × Addr) := do
  let s ← if 8 ≤ len then do
      let cccc := splat c
      let s ← align c fuel ⟨mem, dstpp, len⟩
      let s := eightWordLoop cccc (s.len / (8 * 8)).toNat s
      let s := { s with len := s.len % (8 * 8) }
      let s := wordLoop cccc (s.len / 8).toNat s
      some { s with len := s.len % 8 }
    else some ⟨mem, dstpp, len⟩
  let s ← lastBytes c fuel s
  return (s.mem, dstpp)

/-! ### The hook that runs when a function returns -/

/-- `for (i = …; i < pre_rbp - 64; i++)` in `__cyg_profile_func_exit`, for at most `fuel` tests. -/
def clearBytes (preRbp : Addr) : Nat → Addr → Mem → Option Mem
  | 0, _, _ => none
  | fuel + 1, i, mem =>
    if i < preRbp - 64 then clearBytes preRbp fuel (i + 1) fun x => if x = i then 0x30 else mem x
    else some mem

/-- `__cyg_profile_func_exit`, with its own frame at `rbp`: the word there is the frame pointer of the function that
    returns. -/
def cygProfileFuncExit (fuel : Nat) (rbp : Addr) (mem : Mem) : Option Mem :=
  clearBytes (load64 mem rbp) fuel (rbp + 64) mem

/-- The rest of a program whose functions end in the hook. A call has the frame pointer of the function that is called,
    and at its end that of the hook and the address the hook returns to. -/
inductive Hooked where
  | done
  | read (addr : Addr) (next : Byte → Hooked)
  | write (addr : Addr) (byte : Byte) (next : Hooked)
  | call (callee : Hooked) (rbp hookRbp site : Addr) (next : Hooked)

namespace Hooked

/-- The memory that the program leaves when it is compiled without the hook. -/
def plain : Hooked → Mem → Mem
  | done, mem => mem
  | read addr next, mem => (next (mem addr)).plain mem
  | write addr byte next, mem => next.plain fun x => if x = addr then byte else mem x
  | call callee _ _ _ next, mem => next.plain (callee.plain mem)

/-- Memory when the hook has its frame: it is called, and pushes the frame pointer that it finds. Its arguments and its
    two locals are taken to be in registers, so that it writes nothing below. -/
def enter (rbp hookRbp site : Addr) (mem : Mem) : Mem := store64 (store64 mem (hookRbp + 8) site) hookRbp rbp

/-- The memory that the program leaves. -/
def run (fuel : Nat) : Hooked → Mem → Option Mem
  | done, mem => some mem
  | read addr next, mem => (next (mem addr)).run fuel mem
  | write addr byte next, mem => next.run fuel fun x => if x = addr then byte else mem x
  | call callee rbp hookRbp site next, mem => do
    let mem ← callee.run fuel mem
    let mem ← cygProfileFuncExit fuel hookRbp (enter rbp hookRbp site mem)
    next.run fuel mem

end Hooked

end StackVault
