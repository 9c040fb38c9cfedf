import StackVault.ItemTable
import StackVault.Lib.Image

/-! The symbols of an executable (`parse_elf.c`). `elf_open` reads the file to a buffer; a pointer to the buffer is
    kept as its offset, to which the address of the buffer is added where pointers are compared, and a read outside
    the bytes of the file faults. `parse` is `none` while its loop has not ended within `fuel` rounds. -/

namespace StackVault.Elf
open Mapper

/-- What the calls on the executable answer: whether it opens, the result of `vfs_fstat` and the size that it
    finds, the address of the buffer that `kmalloc` gives, and the bytes that `file_read` puts there. -/
structure ExeFile where
  fileOpen : Bool
  vfsFstat : Int × Addr
  buf : Addr
  fileRead : List Byte

/-- A symbol table, its end, and its string table. -/
structure SymTab where
  symtab : Addr
  symtabEnd : Addr
  strtab : Addr

/-- `Elf_obj`, without `ehdr`, which is `maddr`. The tables are `none` until they are found. `maddr` has the bytes
    that lie at the address `buf`. -/
structure ElfObj where
  buf : Addr
  maddr : List Byte
  mlen : BitVec 32
  symtab : Option SymTab
  dsymtab : Option SymTab

def ELFMAG : List Byte := [0x7f, 0x45, 0x4c, 0x46]

def shtSymtab : Nat := 2

def shtDynsym : Nat := 11

/-- Whether `strncmp` finds a difference, when the second string is as long as it is told to look. -/
def strncmp : List Byte → List Byte → Except Fault Bool
  | _, [] => .ok false
  | [], _ :: _ => .error .outOfBounds
  | b :: s, c :: rest => if b = c then strncmp s rest else .ok true

/-- The `k`-byte field at `p`. -/
def load (maddr : List Byte) (p : Addr) (k : Nat) : Except Fault Nat :=
  if p.toNat + k ≤ maddr.length then .ok (Image.word maddr p.toNat k) else .error .outOfBounds

/-- The string at `p`. -/
def loadString (maddr : List Byte) (p : Addr) : Except Fault CString :=
  if p.toNat + (Image.string maddr p.toNat).length < maddr.length then
    .ok ⟨Image.string maddr p.toNat, Image.zero_notMem_string⟩
  else .error .outOfBounds

/-- The field at `offset` of the section header `shdr[i]`. -/
def loadShdr (maddr : List Byte) (shdr : Addr) (i offset k : Nat) : Except Fault Nat :=
  load maddr (shdr + BitVec.ofNat 64 (64 * i + offset)) k

/-- The table of section `i`; `sh_link` is the section of its strings. -/
def elfTable (maddr : List Byte) (shdr : Addr) (i : Nat) : Except Fault SymTab := do
  let shOffset ← loadShdr maddr shdr i 0x18 8
  let shSize ← loadShdr maddr shdr i 0x20 8
  let shLink ← loadShdr maddr shdr i 0x28 4
  let strOffset ← loadShdr maddr shdr shLink 0x18 8
  return { symtab := BitVec.ofNat 64 shOffset
           symtabEnd := BitVec.ofNat 64 shOffset + BitVec.ofNat 64 shSize
           strtab := BitVec.ofNat 64 strOffset }

/-- The loop over the sections. -/
def elfSections (maddr : List Byte) (shdr : Addr) : List Nat → ElfObj → Except Fault ElfObj
  | [], ep => .ok ep
  | i :: rest, ep => do
    let shType ← loadShdr maddr shdr i 4 4
    let ep ← if shType = shtSymtab then (elfTable maddr shdr i).map fun t => { ep with symtab := some t } else pure ep
    let ep ← if shType = shtDynsym then (elfTable maddr shdr i).map fun t => { ep with dsymtab := some t } else pure ep
    elfSections maddr shdr rest ep

/-- The buffer that `file_read` is given when `kmalloc` fails is a null pointer, and the header is looked for there. -/
def elfOpen (kmalloc : Kmalloc) (exe : ExeFile) (σ : Store) : Except Fault (Option ElfObj × Store) :=
  if kmalloc σ.next .handle = false then .ok (none, σ.skip)
  else if exe.fileOpen = false then .ok (none, σ.skip)
  else if exe.vfsFstat.1 = -1 then .ok (none, σ.skip)
  else if exe.vfsFstat.2 < 64 then .ok (none, σ.skip)
  else
    let mlen : BitVec 32 := exe.vfsFstat.2.setWidth 32
    if kmalloc σ.skip.next (.image (mlen.signExtend 64)) = false then .error .nullDeref
    else
      let maddr := exe.fileRead.take mlen.toNat
      do
        if ← strncmp maddr ELFMAG then return (none, σ.skip.skip)
        let eShoff ← load maddr 0x28 8
        let eShnum ← load maddr 0x3c 2
        let ep ← elfSections maddr (BitVec.ofNat 64 eShoff) (List.range eShnum)
          { buf := exe.buf, maddr, mlen, symtab := none, dsymtab := none }
        return (some ep, σ.skip.skip)

/-- Follow a pointer of the handle that `elf_open` may not have set. -/
def ElfObj.table (ep : ElfObj) : Except Fault SymTab :=
  match ep.symtab with
  | none => .error .nullDeref
  | some t => .ok t

def elfSymname (ep : ElfObj) (sym : Addr) : Except Fault Addr := do
  let t ← ep.table
  let stName ← load ep.maddr sym 4
  return t.strtab + BitVec.ofNat 64 stName

def elfSymvalue (ep : ElfObj) (sym : Addr) : Except Fault Addr := do
  let stValue ← load ep.maddr (sym + 8) 8
  return BitVec.ofNat 64 stValue

def elfSymsize (ep : ElfObj) (sym : Addr) : Except Fault Addr := do
  let stSize ← load ep.maddr (sym + 16) 8
  return BitVec.ofNat 64 stSize

def elfFirstsym (ep : ElfObj) : Except Fault Addr := ep.table.map SymTab.symtab

def elfNextsym (ep : ElfObj) (sym : Addr) : Except Fault (Option Addr) :=
  ep.table.map fun t => if ep.buf + (sym + 24) < ep.buf + t.symtabEnd then some (sym + 24) else none

/-- The body of the loop of `parse`: the result of the insert, 0 when there is none. -/
def parseSymbol (kmalloc : Kmalloc) (ep : ElfObj) (sym : Addr) (mapper : Option Nat) (σ : Store) :
    Except Fault (Int × Option Nat × Store) := do
  let symname ← elfSymname ep sym
  let size ← elfSymsize ep sym
  if ep.buf + symname ≠ 0 ∧ size ≠ 0 then
    let ip ← elfSymvalue ep sym
    let name ← loadString ep.maddr symname
    insertMapper kmalloc σ mapper name ip size
  else return (0, mapper, σ)

/-- The loop of `parse` from the symbol at `sym` on. -/
def parseSymbols (kmalloc : Kmalloc) (ep : ElfObj) :
    Nat → Addr → Option Nat → Store → Option (Except Fault (Option Nat × Store))
  | 0, _, _, _ => none
  | fuel + 1, sym, mapper, σ =>
    match parseSymbol kmalloc ep sym mapper σ with
    | .error f => some (.error f)
    | .ok (ret, mapper, σ) =>
      if ret = -1 then some (.ok (mapper, σ))
      else match elfNextsym ep sym with
        | .error f => some (.error f)
        | .ok none => some (.ok (mapper, σ))
        | .ok (some sym) => parseSymbols kmalloc ep fuel sym mapper σ

/-- The pointer that the call leaves in the caller's variable, and the heap. Nothing follows the handle once
    `elf_close` has freed it. -/
def parse (kmalloc : Kmalloc) (fuel : Nat) (exe : ExeFile) (mapper : Option Nat) (σ : Store) :
    Option (Except Fault (Option Nat × Store)) :=
  match elfOpen kmalloc exe σ with
  | .error f => some (.error f)
  | .ok (none, σ) => some (.ok (mapper, σ))
  | .ok (some ep, σ) => match elfFirstsym ep with
    | .error f => some (.error f)
    | .ok sym => parseSymbols kmalloc ep fuel sym mapper σ

end StackVault.Elf
