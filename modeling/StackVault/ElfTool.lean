import StackVault.ParseElf

/-! The listing program that `parse_elf.c` was taken from (`parse_elf/elf.c`). It maps the executable instead of reading
    it to a buffer, ends itself where the module returns a null pointer, and prints the symbols instead of inserting
    them. What is between is the same code, and one definition here. -/

namespace StackVault.Elf

/-- What the calls on the executable answer: `malloc`, `open`, `fstat`, and the address that `mmap` gives. -/
structure ToolFile where
  malloc : Bool
  opens : Bool
  fstat : Int × Addr
  mmap : Option Addr
  file : List Byte

/-- The bytes up to the end of the page. -/
def pages (n : Nat) : Nat := (n + 4095) / 4096 * 4096

/-- What a mapping of `len` bytes of a file shows: whole pages, the last one with zeros behind the end of the file. -/
def mapped (file : List Byte) (len : Nat) : List Byte :=
  (file ++ List.replicate (pages file.length - file.length) 0).take (pages len)

/-- A line of the output. `%d` takes the size for an `int`. -/
structure Row where
  name : CString
  value : Addr
  size : BitVec 32

namespace Tool

/-- `none` when the program ends itself. -/
def elfOpen (exe : ToolFile) : Except Fault (Option ElfObj) :=
  if exe.malloc = false then .ok none
  else if exe.opens = false then .ok none
  else if exe.fstat.1 = -1 then .ok none
  else if exe.fstat.2 < 64 then .ok none
  else match exe.mmap with
    | none => .ok none
    | some buf =>
      let mlen : BitVec 32 := exe.fstat.2.setWidth 32
      let maddr := mapped exe.file (mlen.signExtend 64).toNat
      do
        if ← strncmp maddr ELFMAG then return none
        let eShoff ← load maddr 0x28 8
        let eShnum ← load maddr 0x3c 2
        let ep ← elfSections maddr (BitVec.ofNat 64 eShoff) (List.range eShnum)
          { buf, maddr, mlen, symtab := none, dsymtab := none }
        return some ep

/-- The text that `printf` has for a null pointer. -/
def nullText : CString := ⟨[0x28, 0x6e, 0x75, 0x6c, 0x6c, 0x29], by decide⟩

/-- The arguments of the `printf`, and the string that it reads. -/
def row (ep : ElfObj) (sym : Addr) : Except Fault Row := do
  let symname ← elfSymname ep sym
  let value ← elfSymvalue ep sym
  let size ← elfSymsize ep sym
  let name ← if ep.buf + symname = 0 then pure nullText else loadString ep.maddr symname
  return { name, value, size := size.setWidth 32 }

/-- The loop of `main` from the symbol at `sym` on. -/
def rows (ep : ElfObj) : Nat → Addr → Option (Except Fault (List Row))
  | 0, _ => none
  | fuel + 1, sym =>
    match row ep sym with
    | .error f => some (.error f)
    | .ok r => match elfNextsym ep sym with
      | .error f => some (.error f)
      | .ok none => some (.ok [r])
      | .ok (some sym) => (rows ep fuel sym).map fun rest => rest.map (r :: ·)

/-- What `main` prints, `none` when it ends itself. -/
def main (fuel : Nat) (exe : ToolFile) : Option (Except Fault (Option (List Row))) :=
  match elfOpen exe with
  | .error f => some (.error f)
  | .ok none => some (.ok none)
  | .ok (some ep) => match elfFirstsym ep with
    | .error f => some (.error f)
    | .ok sym => (rows ep fuel sym).map fun r => r.map some

end Tool

end StackVault.Elf
