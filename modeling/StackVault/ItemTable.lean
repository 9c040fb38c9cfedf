import StackVault.Hash
import Mathlib.Logic.Function.Basic

/-! The symbol table of `mapper.c` as it lies in the kernel heap: an array of `item_t`, whose element 0 also
    has the counters of the table, and a buffer for each name. An array or a buffer is named by the
    `kmalloc` call that made it. `Mapper.lean` has the table as the list of its items. -/

namespace StackVault

/-- The first `n` bytes of a string. -/
def CString.take (s : CString) (n : Nat) : CString := ⟨s.bytes.take n, fun h => s.no_nul (List.mem_of_mem_take h)⟩

namespace Mapper

/-- What a `kmalloc` call asks for. -/
inductive Request where
  | items (bytes : Addr)
  | name (bytes : Addr)
  /-- The handle of `elf_open`. -/
  | handle
  /-- The buffer that `elf_open` reads the executable to. -/
  | image (bytes : Addr)
  deriving DecidableEq, Repr

/-- Whether the `kmalloc` call of a number succeeds. -/
abbrev Kmalloc := Nat → Request → Bool

/-- The fields of an `item_t` that every element uses. They are its first 24 bytes of 40. -/
structure Slot where
  funcName : Nat
  ip : Addr
  size : Addr
  deriving DecidableEq, Repr, Inhabited

/-- An array of `item_t` in an object of `bytes` bytes; `cur` and `cap` are those of element 0. -/
structure ItemArray where
  bytes : Addr
  cur : Addr
  cap : Addr
  item : Nat → Slot

/-- Element 0 gets its counters. -/
def ItemArray.make (bytes cur cap : Addr) : Except Fault ItemArray :=
  if 40 ≤ bytes.toNat then .ok { bytes, cur, cap, item := fun _ => default } else .error .outOfBounds

def ItemArray.read (a : ItemArray) (i : Nat) : Except Fault Slot :=
  if 40 * i + 24 ≤ a.bytes.toNat then .ok (a.item i) else .error .outOfBounds

def ItemArray.write (a : ItemArray) (i : Nat) (tmp : Slot) : Except Fault ItemArray :=
  if 40 * i + 24 ≤ a.bytes.toNat then .ok { a with item := Function.update a.item i tmp } else .error .outOfBounds

/-- The number of `kmalloc` calls made so far, and the live arrays and names. None is named by a call still
    to come. -/
structure Store where
  next : Nat
  arrays : Nat → Option ItemArray
  names : Nat → Option CString
  unused : ∀ q, next ≤ q → arrays q = none ∧ names q = none

namespace Store

def empty : Store := ⟨0, fun _ => none, fun _ => none, fun _ _ => ⟨rfl, rfl⟩⟩

/-- A `kmalloc` call for something else, or one that failed. -/
def skip (σ : Store) : Store := { σ with
  next := σ.next + 1
  unused := fun q hq => σ.unused q (Nat.le_of_succ_le hq) }

def newArray (σ : Store) (a : ItemArray) : Store := { σ with
  next := σ.next + 1
  arrays := Function.update σ.arrays σ.next (some a)
  unused := fun q hq => by
    rw [Function.update_of_ne (Nat.ne_of_gt hq)]
    exact σ.unused q (Nat.le_of_succ_le hq) }

def newName (σ : Store) (name : CString) : Store := { σ with
  next := σ.next + 1
  names := Function.update σ.names σ.next (some name)
  unused := fun q hq => by
    rw [Function.update_of_ne (Nat.ne_of_gt hq)]
    exact σ.unused q (Nat.le_of_succ_le hq) }

/-- A live array is changed. -/
def setArray (σ : Store) (p : Nat) (a : ItemArray) : Store := { σ with
  arrays := fun q => if q = p then (σ.arrays q).map fun _ => a else σ.arrays q
  unused := fun q hq => by
    obtain ⟨harray, hname⟩ := σ.unused q hq
    exact ⟨by simp [harray], hname⟩ }

def freeArray (σ : Store) (p : Nat) : Store := { σ with
  arrays := fun q => if q = p then none else σ.arrays q
  unused := fun q hq => by
    obtain ⟨harray, hname⟩ := σ.unused q hq
    exact ⟨by simp [harray], hname⟩ }

def freeName (σ : Store) (q : Nat) : Store := { σ with
  names := fun r => if r = q then none else σ.names r
  unused := fun r hr => by
    obtain ⟨harray, hname⟩ := σ.unused r hr
    exact ⟨harray, by simp [hname]⟩ }

section Fields
variable {σ : Store} {a b : ItemArray} {name : CString} {p q : Nat}

@[simp] theorem skip_arrays : σ.skip.arrays = σ.arrays := rfl

@[simp] theorem skip_names : σ.skip.names = σ.names := rfl

@[simp] theorem newArray_self : (σ.newArray a).arrays σ.next = some a := Function.update_self _ _ _

@[simp] theorem newArray_names : (σ.newArray a).names = σ.names := rfl

@[simp] theorem newName_self : (σ.newName name).names σ.next = some name := Function.update_self _ _ _

theorem newName_of_ne (h : q ≠ σ.next) : (σ.newName name).names q = σ.names q := Function.update_of_ne h _ _

@[simp] theorem newName_arrays : (σ.newName name).arrays = σ.arrays := rfl

theorem setArray_self (h : σ.arrays p = some b) : (σ.setArray p a).arrays p = some a := by simp [setArray, h]

@[simp] theorem setArray_names : (σ.setArray p a).names = σ.names := rfl

theorem freeArray_of_ne (h : q ≠ p) : (σ.freeArray p).arrays q = σ.arrays q := if_neg h

@[simp] theorem freeArray_names : (σ.freeArray p).names = σ.names := rfl

theorem freeName_of_ne (h : q ≠ p) : (σ.freeName p).names q = σ.names q := if_neg h

@[simp] theorem freeName_arrays : (σ.freeName q).arrays = σ.arrays := rfl

end Fields

/-- Follow a pointer to an array. -/
def deref (σ : Store) : Option Nat → Except Fault (Nat × ItemArray)
  | none => .error .nullDeref
  | some p => match σ.arrays p with
    | none => .error .useAfterFree
    | some a => .ok (p, a)

/-- Follow a pointer to a name. -/
def string (σ : Store) (q : Nat) : Except Fault CString :=
  match σ.names q with
  | none => .error .useAfterFree
  | some name => .ok name

/-- `kfree` of a name. No pointer of an item is null. -/
def kfree (σ : Store) (q : Nat) : Except Fault Store :=
  match σ.names q with
  | none => .error .useAfterFree
  | some _ => .ok (σ.freeName q)

end Store

/-- The values of `i` in a loop `for(i = 0; i < cur; i++)`. It is an `int`: past 2^31 - 1 it is negative, and
    as an `unsigned long` not below `cur`. -/
def indices (cur : Addr) : List Nat := List.range (min cur.toNat (2 ^ 31))

def initMapper (kmalloc : Kmalloc) (σ : Store) (size : Addr) : Except Fault (Option Nat × Store) :=
  if kmalloc σ.next (.items (size * 40)) then do
    let mapper ← ItemArray.make (size * 40) 0 size
    return (some σ.next, σ.newArray mapper)
  else .ok (none, σ.skip)

/-- The copy of a name: `strlen`, `kmalloc`, `strncpy` and the terminator. The length is an `int`, and `strncpy` is
    given it as a `size_t`. -/
def copyName (kmalloc : Kmalloc) (σ : Store) (funcName : CString) : Except Fault (Nat × Store) :=
  let len := BitVec.ofNat 32 funcName.strlen
  if kmalloc σ.next (.name ((len + 1).signExtend 64)) then
    if len.msb then .error .outOfBounds else .ok (σ.next, σ.newName (funcName.take len.toNat))
  else .error .nullDeref

/-- The loop that moves the items of a full array. -/
def moveItems (kmalloc : Kmalloc) (t1 : ItemArray) : List Nat → ItemArray → Store → Except Fault (ItemArray × Store)
  | [], t2, σ => .ok (t2, σ)
  | i :: rest, t2, σ => do
    let tmp ← t1.read i
    let name ← σ.string tmp.funcName
    let (funcName, σ) ← copyName kmalloc σ name
    let t2 ← t2.write i { tmp with funcName }
    moveItems kmalloc t1 rest t2 (σ.freeName tmp.funcName)

/-- The end of `insert_mapper`: the new item, in the array at `p`. -/
def putItem (kmalloc : Kmalloc) (σ : Store) (p : Nat) (a : ItemArray) (funcName : CString) (ip size : Addr) :
    Except Fault (Int × Option Nat × Store) := do
  let (funcName, σ) ← copyName kmalloc σ funcName
  let a ← a.write a.cur.toNat { funcName, ip, size }
  return (0, some p, σ.setArray p { a with cur := a.cur + 1 })

/-- The result, with the pointer that the call leaves in the caller's variable. -/
def insertMapper (kmalloc : Kmalloc) (σ : Store) (mapper : Option Nat) (funcName : CString) (ip size : Addr) :
    Except Fault (Int × Option Nat × Store) := do
  let (p, t1) ← σ.deref mapper
  if t1.cur = t1.cap then
    let tmpCap := 2 * t1.cap
    if kmalloc σ.next (.items (tmpCap * 40)) then
      let t2 ← ItemArray.make (tmpCap * 40) t1.cur tmpCap
      let (t2, σ') ← moveItems kmalloc t1 (indices t1.cur) t2 (σ.newArray t2)
      putItem kmalloc ((σ'.freeArray p).setArray σ.next t2) σ.next t2 funcName ip size
    else return (-1, mapper, σ.skip)
  else putItem kmalloc σ p t1 funcName ip size

/-- The loop of `destroy_mapper`. -/
def freeNames (a : ItemArray) : List Nat → Store → Except Fault Store
  | [], σ => .ok σ
  | i :: rest, σ => do
    let tmp ← a.read i
    let σ ← σ.kfree tmp.funcName
    freeNames a rest σ

def destroyMapper (σ : Store) (mapper : Option Nat) : Except Fault (Int × Store) := do
  let (p, a) ← σ.deref mapper
  let σ ← freeNames a (indices a.cap) σ
  return (0, σ.freeArray p)

/-- The loop of `get_func_name`. The end of a range is computed with wrapping arithmetic. -/
def findItem (a : ItemArray) (ip : Addr) : List Nat → Except Fault (Option Nat)
  | [] => .ok none
  | i :: rest => do
    let tmp ← a.read i
    if tmp.ip ≤ ip ∧ ip < tmp.ip + tmp.size then return some tmp.funcName else findItem a ip rest

def getFuncName (σ : Store) (mapper : Option Nat) (ip : Addr) : Except Fault (Option Nat) := do
  let (_, a) ← σ.deref mapper
  findItem a ip (indices a.cur)

end Mapper

end StackVault
