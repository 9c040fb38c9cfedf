import StackVault.ParseElf
import StackVault.Theorems.Append

/-! What `elf_open` and `parse` read, whatever the bytes of the executable are. A read gives the number that is there
    or faults, so a section, a symbol or the whole walk comes to its end exactly when all of its reads are inside. -/

namespace StackVault.Elf
open Mapper Transition

/-- The bytes from `p` on, `k` of them, are bytes of the file. -/
def Inside (b : List Byte) (p : Addr) (k : Nat) : Prop := p.toNat + k ≤ b.length

def eShoff (img : List Byte) : Nat := Image.word img 0x28 8

def eShnum (img : List Byte) : Nat := Image.word img 0x3c 2

/-! ### Sections -/

/-- Where the field at `offset` of `shdr[i]` is read. The pointer wraps around. -/
def shdrAt (b : List Byte) (i offset : Nat) : Addr := BitVec.ofNat 64 (eShoff b) + BitVec.ofNat 64 (64 * i + offset)

def shdrField (b : List Byte) (i offset k : Nat) : Nat := Image.word b (shdrAt b i offset).toNat k

/-- The table of a section, as `elf_open` keeps it. -/
def tableAt (b : List Byte) (i : Nat) : SymTab where
  symtab := BitVec.ofNat 64 (shdrField b i 0x18 8)
  symtabEnd := BitVec.ofNat 64 (shdrField b i 0x18 8) + BitVec.ofNat 64 (shdrField b i 0x20 8)
  strtab := BitVec.ofNat 64 (shdrField b (shdrField b i 0x28 4) 0x18 8)

/-- The fields that locate the table and its strings are inside. -/
structure TableIn (b : List Byte) (i : Nat) : Prop where
  offset : Inside b (shdrAt b i 0x18) 8
  size : Inside b (shdrAt b i 0x20) 8
  link : Inside b (shdrAt b i 0x28) 4
  strings : Inside b (shdrAt b (shdrField b i 0x28 4) 0x18) 8

/-- What is read of a section header is inside. -/
structure HeaderIn (b : List Byte) (i : Nat) : Prop where
  type : Inside b (shdrAt b i 4) 4
  table : shdrField b i 4 4 = shtSymtab ∨ shdrField b i 4 4 = shtDynsym → TableIn b i

section Sections
variable {b : List Byte} {p : Addr} {i k v : Nat} {ep ep' : ElfObj} {t : SymTab} {is : List Nat}

theorem load_inside (h : Inside b p k) : load b p k = .ok (Image.word b p.toNat k) := if_pos h

theorem load_bind {α : Type} {f : Nat → Except Fault α} {x : α} :
    (load b p k >>= f) = .ok x ↔ Inside b p k ∧ f (Image.word b p.toNat k) = .ok x := by
  by_cases h : Inside b p k
  · rw [load_inside h]
    exact (and_iff_right h).symm
  · have herr : load b p k = .error .outOfBounds := if_neg h
    rw [herr]
    exact iff_of_false (fun h => by cases h) fun hx => h hx.1

theorem loadShdr_bind {α : Type} {offset : Nat} {f : Nat → Except Fault α} {x : α} :
    (loadShdr b (BitVec.ofNat 64 (eShoff b)) i offset k >>= f) = .ok x ↔
      Inside b (shdrAt b i offset) k ∧ f (shdrField b i offset k) = .ok x := load_bind

theorem elfTable_bind {α : Type} {f : SymTab → Except Fault α} {x : α} :
    (elfTable b (BitVec.ofNat 64 (eShoff b)) i >>= f) = .ok x ↔ TableIn b i ∧ f (tableAt b i) = .ok x := by
  have htable : TableIn b i ↔ Inside b (shdrAt b i 0x18) 8 ∧ Inside b (shdrAt b i 0x20) 8 ∧
      Inside b (shdrAt b i 0x28) 4 ∧
      Inside b (shdrAt b (shdrField b i 0x28 4) 0x18) 8 :=
    ⟨fun h => ⟨h.offset, h.size, h.link, h.strings⟩, fun h => ⟨h.1, h.2.1, h.2.2.1, h.2.2.2⟩⟩
  simp only [elfTable, bind_assoc, loadShdr_bind, pure_bind, htable, and_assoc]
  rfl

/-- A section has one type. -/
theorem elfSections_cons (shdr : Addr) : elfSections b shdr (i :: is) ep = (do
    let shType ← loadShdr b shdr i 4 4
    if shType = shtSymtab then
      let t ← elfTable b shdr i
      elfSections b shdr is { ep with symtab := some t }
    else if shType = shtDynsym then
      let t ← elfTable b shdr i
      elfSections b shdr is { ep with dsymtab := some t }
    else elfSections b shdr is ep) := by
  have hne : shtSymtab ≠ shtDynsym := by decide
  rw [elfSections]
  cases loadShdr b shdr i 4 4 with
  | error f => rfl
  | ok shType =>
    simp only [bind, Except.bind]
    by_cases hsym : shType = shtSymtab
    · have hdyn : shType ≠ shtDynsym := fun heq => hne (hsym.symm.trans heq)
      simp only [if_pos hsym, if_neg hdyn]
      cases elfTable b shdr i <;> rfl
    · simp only [if_neg hsym]
      by_cases hdyn : shType = shtDynsym
      · simp only [if_pos hdyn]
        cases elfTable b shdr i <;> rfl
      · simp only [if_neg hdyn]
        rfl

/-- What the handle has after a section. -/
def afterSection (b : List Byte) (i : Nat) (ep : ElfObj) : ElfObj :=
  if shdrField b i 4 4 = shtSymtab then { ep with symtab := some (tableAt b i) }
  else if shdrField b i 4 4 = shtDynsym then { ep with dsymtab := some (tableAt b i) }
  else ep

def afterSections (b : List Byte) (is : List Nat) (ep : ElfObj) : ElfObj :=
  is.foldl (fun ep i => afterSection b i ep) ep

theorem elf_section_eq_ok : elfSections b (BitVec.ofNat 64 (eShoff b)) (i :: is) ep = .ok ep' ↔
    HeaderIn b i ∧ elfSections b (BitVec.ofNat 64 (eShoff b)) is (afterSection b i ep) = .ok ep' := by
  have hheader : HeaderIn b i ↔ Inside b (shdrAt b i 4) 4 ∧
      (shdrField b i 4 4 = shtSymtab ∨ shdrField b i 4 4 = shtDynsym → TableIn b i) :=
    ⟨fun h => ⟨h.type, h.table⟩, fun h => ⟨h.1, h.2⟩⟩
  rw [elfSections_cons, loadShdr_bind, hheader, afterSection, and_assoc]
  refine and_congr_right fun _ => ?_
  by_cases hsym : shdrField b i 4 4 = shtSymtab
  · simp only [if_pos hsym, elfTable_bind]
    simp [hsym]
  · simp only [if_neg hsym]
    by_cases hdyn : shdrField b i 4 4 = shtDynsym
    · simp only [if_pos hdyn, elfTable_bind]
      simp [hdyn]
    · simp [hsym, hdyn]

/-- All sections: what they read, and the handle that they leave. -/
theorem elfSections_eq_ok : elfSections b (BitVec.ofNat 64 (eShoff b)) is ep = .ok ep' ↔
    (∀ i ∈ is, HeaderIn b i) ∧ afterSections b is ep = ep' := by
  induction is generalizing ep with
  | nil => simp [elfSections, afterSections]
  | cons i is ih =>
    rw [elf_section_eq_ok, ih, List.forall_mem_cons, and_assoc]
    rfl

/-- The last section of the type sets the symbol table. -/
theorem afterSections_eq (b : List Byte) (is : List Nat) (ep : ElfObj) : (afterSections b is ep).buf = ep.buf ∧
    (afterSections b is ep).maddr = ep.maddr ∧
    (∀ k, LastOf (fun i => shdrField b i 4 4 = shtSymtab) is k →
      (afterSections b is ep).symtab = some (tableAt b k)) ∧
    ((∀ i ∈ is, shdrField b i 4 4 ≠ shtSymtab) → (afterSections b is ep).symtab = ep.symtab) := by
  induction is using List.reverseRecOn with
  | nil => simp [afterSections]
  | append_singleton is i ih =>
    obtain ⟨hbuf, hmaddr, hlast, hnone⟩ := ih
    have hsnoc : afterSections b (is ++ [i]) ep = afterSection b i (afterSections b is ep) := List.foldl_append
    rw [hsnoc]
    generalize afterSections b is ep = ep₁ at *
    have hkeep : (afterSection b i ep₁).buf = ep₁.buf ∧ (afterSection b i ep₁).maddr = ep₁.maddr := by
      unfold afterSection
      split_ifs <;> exact ⟨rfl, rfl⟩
    refine ⟨hkeep.1.trans hbuf, hkeep.2.trans hmaddr, fun k hk => ?_, fun hall => ?_⟩
    · rcases lastOf_snoc.mp hk with ⟨hsym, rfl⟩ | ⟨hsym, hk⟩
      · simp [afterSection, hsym]
      · rw [← hlast k hk]
        simp only [afterSection, if_neg hsym]
        split_ifs <;> rfl
    · have hsym := hall i (by simp)
      rw [← hnone fun j hj => hall j (List.mem_append_left _ hj)]
      simp only [afterSection, if_neg hsym]
      split_ifs <;> rfl

end Sections

/-! ### Opening -/

/-- The calls on the file give the whole image, and the buffer ends in front of the end of the address space. -/
structure ExeFile.Reads (exe : ExeFile) (img : List Byte) : Prop where
  opens : exe.fileOpen = true
  stat : exe.vfsFstat.1 ≠ -1
  size : exe.vfsFstat.2.toNat = img.length
  whole : exe.fileRead = img
  buf : 0 < exe.buf.toNat
  fits : exe.buf.toNat + exe.vfsFstat.2.toNat % 2 ^ 32 < 2 ^ 64

/-- `ep->mlen`. -/
def ExeFile.mlen (exe : ExeFile) : BitVec 32 := exe.vfsFstat.2.setWidth 32

/-- The buffer. An `int` has its length. -/
def buffer (img : List Byte) : List Byte := img.take (img.length % 2 ^ 32)

/-- The handle of a file with this buffer, once its sections have been gone over. -/
def ExeFile.handle (exe : ExeFile) (b : List Byte) : ElfObj :=
  afterSections b (List.range (eShnum b))
    { buf := exe.buf, maddr := b, mlen := exe.mlen, symtab := none, dsymtab := none }

/-- What is read of the ELF header and of all section headers is inside. -/
structure HeadersIn (b : List Byte) : Prop where
  shoff : Inside b 0x28 8
  shnum : Inside b 0x3c 2
  headers : ∀ i < eShnum b, HeaderIn b i

section Open
variable {s s' b img : List Byte} {kmalloc : Kmalloc} {exe : ExeFile} {σ : Store}

theorem strncmp_eq_false : strncmp s s' = .ok false ↔ s' <+: s := by
  induction s' generalizing s with
  | nil => simp [strncmp]
  | cons x s' ih =>
    cases s with
    | nil => simp [strncmp]
    | cons y s =>
      rw [strncmp, List.cons_prefix_cons]
      by_cases hxy : y = x
      · rw [if_pos hxy, ih]
        exact (and_iff_right hxy.symm).symm
      · rw [if_neg hxy]
        exact iff_of_false (by simp) fun h => hxy h.1.symm

/-- The strings agree up to a difference that is inside both. -/
theorem strncmp_eq_true :
    strncmp s s' = .ok true ↔ ∃ i, s.take i = s'.take i ∧ ∃ x y, s[i]? = some x ∧ s'[i]? = some y ∧ x ≠ y := by
  induction s' generalizing s with
  | nil => simp [strncmp]
  | cons x s' ih =>
    cases s with
    | nil => simp [strncmp]
    | cons y s =>
      rw [strncmp]
      by_cases hxy : y = x
      · rw [if_pos hxy, ih]
        constructor
        · rintro ⟨i, htake, hdiff⟩
          exact ⟨i + 1, by simp [htake, hxy], hdiff⟩
        · rintro ⟨i, htake, x', y', hx, hy, hne⟩
          cases i with
          | zero => 
            obtain rfl : y = x' := Option.some.inj hx
            obtain rfl : x = y' := Option.some.inj hy
            exact absurd hxy hne
          | succ i => exact ⟨i, (List.cons_eq_cons.mp htake).2, x', y', hx, hy, hne⟩
      · rw [if_neg hxy]
        exact iff_of_true rfl ⟨0, rfl, y, x, rfl, rfl, hxy⟩

theorem ExeFile.Reads.buffer_eq (hexe : exe.Reads img) : exe.fileRead.take exe.mlen.toNat = buffer img := by
  rw [hexe.whole, ExeFile.mlen, BitVec.toNat_setWidth, hexe.size]
  rfl

theorem ExeFile.handle_eq (exe : ExeFile) (b : List Byte) : (exe.handle b).buf = exe.buf ∧ (exe.handle b).maddr = b ∧
    (∀ k, LastOf (fun i => shdrField b i 4 4 = shtSymtab) (List.range (eShnum b)) k →
      (exe.handle b).symtab = some (tableAt b k)) ∧
    ((∀ i < eShnum b, shdrField b i 4 4 ≠ shtSymtab) → (exe.handle b).symtab = none) := by
  obtain ⟨hbuf, hmaddr, hlast, hnone⟩ := afterSections_eq b (List.range (eShnum b))
    { buf := exe.buf, maddr := b, mlen := exe.mlen, symtab := none, dsymtab := none }
  exact ⟨hbuf, hmaddr, hlast, fun hall => hnone fun i hi => hall i (List.mem_range.mp hi)⟩

/-- When `elf_open` returns, and with what. -/
theorem elfOpen_eq_ok (hk : kmalloc σ.next .handle = true) (hexe : exe.Reads img) (hsize : 64 ≤ img.length)
    {x : Option ElfObj × Store} :
    elfOpen kmalloc exe σ = .ok x ↔ kmalloc σ.skip.next (.image (exe.mlen.signExtend 64)) = true ∧
      ((strncmp (buffer img) ELFMAG = .ok true ∧ (none, σ.skip.skip) = x) ∨
        (strncmp (buffer img) ELFMAG = .ok false ∧ HeadersIn (buffer img) ∧
          (some (exe.handle (buffer img)), σ.skip.skip) = x)) := by
  have hlarge : ¬exe.vfsFstat.2 < 64 := by
    rw [BitVec.lt_def, hexe.size]
    exact Nat.not_lt.mpr hsize
  have hbuf : exe.fileRead.take (exe.vfsFstat.2.setWidth 32).toNat = buffer img := hexe.buffer_eq
  have hheaders : HeadersIn (buffer img) ↔ Inside (buffer img) 0x28 8 ∧ Inside (buffer img) 0x3c 2 ∧
      ∀ i ∈ List.range (eShnum (buffer img)), HeaderIn (buffer img) i :=
    ⟨fun h => ⟨h.shoff, h.shnum, fun i hi => h.headers i (List.mem_range.mp hi)⟩,
      fun h => ⟨h.1, h.2.1, fun i hi => h.2.2 i (List.mem_range.mpr hi)⟩⟩
  rw [elfOpen, if_neg (by simp [hk]), if_neg (by simp [hexe.opens]), if_neg hexe.stat, if_neg hlarge]
  dsimp only
  rw [hbuf]
  show (if kmalloc σ.skip.next (.image (exe.mlen.signExtend 64)) = false then Except.error Fault.nullDeref else _) =
    .ok x ↔ _
  cases kmalloc σ.skip.next (.image (exe.mlen.signExtend 64)) with
  | false => simp
  | true =>
    rw [if_neg (by decide), bind_eq_ok, and_iff_right rfl]
    constructor
    · rintro ⟨differs, hcmp, h⟩
      cases differs with
      | true => exact Or.inl ⟨hcmp, Except.ok.inj h⟩
      | false =>
        obtain ⟨hshoff, h⟩ := load_bind.mp h
        obtain ⟨hshnum, h⟩ := load_bind.mp h
        obtain ⟨ep, hep, h⟩ := bind_eq_ok.mp h
        obtain ⟨hall, rfl⟩ := elfSections_eq_ok.mp hep
        exact Or.inr ⟨hcmp, hheaders.mpr ⟨hshoff, hshnum, hall⟩, Except.ok.inj h⟩
    · rintro (⟨hcmp, rfl⟩ | ⟨hcmp, hin, rfl⟩)
      · exact ⟨true, hcmp, rfl⟩
      · obtain ⟨hshoff, hshnum, hall⟩ := hheaders.mp hin
        exact ⟨false, hcmp,
          load_bind.mpr ⟨hshoff, load_bind.mpr ⟨hshnum, bind_eq_ok.mpr ⟨_, elfSections_eq_ok.mpr ⟨hall, rfl⟩, rfl⟩⟩⟩⟩

end Open

/-! ### Symbols -/

/-- Where symbol `j` lies. -/
def SymTab.entry (t : SymTab) (j : Nat) : Addr := t.symtab + BitVec.ofNat 64 (24 * j)

/-- The name of symbol `j`. The pointer wraps around. -/
def SymTab.nameAt (t : SymTab) (b : List Byte) (j : Nat) : Addr :=
  t.strtab + BitVec.ofNat 64 (Image.word b (t.entry j).toNat 4)

def SymTab.sizeAt (t : SymTab) (b : List Byte) (j : Nat) : Nat := Image.word b (t.entry j + 16).toNat 8

/-- `parse` takes the symbols that have a size and whose name is not at NULL. -/
def SymTab.Taken (t : SymTab) (b : List Byte) (buf : Addr) (j : Nat) : Prop :=
  buf + t.nameAt b j ≠ 0 ∧ BitVec.ofNat 64 (t.sizeAt b j) ≠ 0

instance (t : SymTab) (b : List Byte) (buf : Addr) (j : Nat) : Decidable (t.Taken b buf j) :=
  inferInstanceAs (Decidable (_ ∧ _))

def SymTab.symbol (t : SymTab) (b : List Byte) (j : Nat) : Entry where
  name := ⟨Image.string b (t.nameAt b j).toNat, Image.zero_notMem_string⟩
  ip := BitVec.ofNat 64 (Image.word b (t.entry j + 8).toNat 8)
  size := BitVec.ofNat 64 (t.sizeAt b j)

/-- The symbol is inside the file, and if it is taken then its name has an end there. -/
structure SymbolIn (b : List Byte) (buf : Addr) (t : SymTab) (j : Nat) : Prop where
  entry : t.symtab.toNat + 24 * j + 24 ≤ b.length
  name : t.Taken b buf j → ∃ n, b[(t.nameAt b j).toNat + n]? = some 0

/-- The symbols that the loop of `parse` comes to: the first one, and those in front of the end of the table. -/
def SymTab.count (t : SymTab) (buf : Addr) : Nat :=
  max 1 (((buf + t.symtabEnd).toNat - (buf.toNat + t.symtab.toNat) + 23) / 24)

/-- What the round of symbol `j` adds to the mapper. -/
def SymTab.taken (t : SymTab) (b : List Byte) (buf : Addr) (j : Nat) : List Entry :=
  if t.Taken b buf j then [t.symbol b j] else []

def SymTab.takenFrom (t : SymTab) (b : List Byte) (buf : Addr) (j n : Nat) : List Entry :=
  (List.range' j n).flatMap (t.taken b buf)

/-- Every request succeeds, but for the one that the executable is read to. -/
def Serves (kmalloc : Kmalloc) : Prop := ∀ n r, (∀ bytes, r ≠ .image bytes) → kmalloc n r = true

section Symbols
variable {b : List Byte} {ep : ElfObj} {t : SymTab} {i j n : Nat} {kmalloc : Kmalloc} {mapper : Option Nat} {σ : Store}
  {p : Addr}

theorem loadString_bind {α : Type} {f : CString → Except Fault α} {x : α} : (loadString b p >>= f) = .ok x ↔
    (∃ n, b[p.toNat + n]? = some 0) ∧ f ⟨Image.string b p.toNat, Image.zero_notMem_string⟩ = .ok x := by
  rw [loadString, ← Image.string_lt_iff]
  by_cases h : p.toNat + (Image.string b p.toNat).length < b.length
  · rw [if_pos h]
    exact (and_iff_right h).symm
  · rw [if_neg h]
    exact iff_of_false (fun h => by cases h) fun hx => h hx.1

theorem SymTab.entry_toNat (h : t.symtab.toNat + 24 * j < 2 ^ 64) : (t.entry j).toNat = t.symtab.toNat + 24 * j := by
  rw [SymTab.entry, BitVec.toNat_add, BitVec.toNat_ofNat]
  omega

/-- The three reads of a symbol are inside exactly when the symbol is. -/
theorem inside_entry (hlen : b.length < 2 ^ 31) (hj : t.symtab.toNat + 24 * j < 2 ^ 64) :
    (Inside b (t.entry j) 4 ∧ Inside b (t.entry j + 16) 8) ↔ t.symtab.toNat + 24 * j + 24 ≤ b.length := by
  have hentry := t.entry_toNat hj
  have h16 : (16 : Addr).toNat = 16 := rfl
  rw [Inside, Inside, BitVec.toNat_add, h16, hentry]
  omega

theorem inside_value (hlen : b.length < 2 ^ 31) (h : t.symtab.toNat + 24 * j + 24 ≤ b.length) :
    Inside b (t.entry j + 8) 8 := by
  have hentry := t.entry_toNat (j := j) (by omega)
  have h8 : (8 : Addr).toNat = 8 := rfl
  rw [Inside, BitVec.toNat_add, h8, hentry]
  omega

/-- One round of the loop: what it reads, and what it then does. -/
theorem parseSymbol_eq_ok (hlen : b.length < 2 ^ 31) (hmaddr : ep.maddr = b) (hsym : ep.symtab = some t)
    (hj : t.symtab.toNat + 24 * j < 2 ^ 64) {x : Int × Option Nat × Store} :
    parseSymbol kmalloc ep (t.entry j) mapper σ = .ok x ↔
      SymbolIn b ep.buf t j ∧ (if t.Taken b ep.buf j then
        insertMapper kmalloc σ mapper (t.symbol b j).name (t.symbol b j).ip (t.symbol b j).size
      else .ok (0, mapper, σ)) = .ok x := by
  have htable : ep.table = pure t := by
    rw [ElfObj.table, hsym]
    rfl
  have hin : SymbolIn b ep.buf t j ↔ (Inside b (t.entry j) 4 ∧ Inside b (t.entry j + 16) 8) ∧
      (t.Taken b ep.buf j → ∃ n, b[(t.nameAt b j).toNat + n]? = some 0) := by
    rw [inside_entry hlen hj]
    exact ⟨fun h => ⟨h.entry, h.name⟩, fun h => ⟨h.1, h.2⟩⟩
  simp only [parseSymbol, elfSymname, elfSymsize, elfSymvalue, htable, hmaddr, bind_assoc, pure_bind, load_bind]
  rw [hin, ← and_assoc, and_assoc (b := _ → _)]
  refine and_congr_right fun hread => ?_
  by_cases ht : t.Taken b ep.buf j
  · have htaken := ht
    unfold SymTab.Taken SymTab.nameAt SymTab.sizeAt at htaken
    have hvalue := inside_value hlen ((inside_entry hlen hj).mp hread)
    rw [if_pos htaken, if_pos ht, load_bind, loadString_bind]
    constructor
    · rintro ⟨-, hname, hins⟩
      exact ⟨fun _ => hname, hins⟩
    · rintro ⟨hname, hins⟩
      exact ⟨hvalue, hname ht, hins⟩
  · have htaken := ht
    unfold SymTab.Taken SymTab.nameAt SymTab.sizeAt at htaken
    rw [if_neg htaken, if_neg ht]
    exact (and_iff_right fun h => absurd h ht).symm

/-- The first pointer of the handle, when there is a symbol table. -/
theorem elfFirstsym_eq (hsym : ep.symtab = some t) : elfFirstsym ep = .ok (t.entry 0) := by
  simp only [elfFirstsym, ElfObj.table, hsym, Except.map, SymTab.entry, Nat.mul_zero, BitVec.add_zero]

/-- The pointer steps to the next symbol, until there is none. -/
theorem elfNextsym_eq (hsym : ep.symtab = some t) (hfit : ep.buf.toNat + b.length < 2 ^ 64)
    (h : t.symtab.toNat + 24 * j + 24 ≤ b.length) :
    elfNextsym ep (t.entry j) = .ok (if j + 1 < t.count ep.buf then some (t.entry (j + 1)) else none) := by
  have hnext : t.entry j + 24 = t.entry (j + 1) := by
    show t.symtab + BitVec.ofNat 64 (24 * j) + BitVec.ofNat 64 24 = _
    rw [BitVec.add_assoc, ← BitVec.ofNat_add]
    rfl
  have hlt : ep.buf + t.entry (j + 1) < ep.buf + t.symtabEnd ↔ j + 1 < t.count ep.buf := by
    have hentry := t.entry_toNat (j := j + 1) (by omega)
    rw [BitVec.lt_def, BitVec.toNat_add, hentry, SymTab.count, Nat.mod_eq_of_lt (by omega)]
    omega
  have htable : ep.table = .ok t := by
    rw [ElfObj.table, hsym]
  simp only [elfNextsym, htable, Except.map, hnext, hlt]

section Insert
variable {table : List Entry} {p : Nat} {a : ItemArray}

theorem Serves.insert (hk : Serves kmalloc) {e : Entry} (he : e.name.strlen < 2 ^ 31)
    (hm : Mapped ⟨mapper, σ⟩ table p a) (hint : table.length < 2 ^ 31) :
      ∃ mapper' σ' p' a', insertMapper kmalloc σ mapper e.name e.ip e.size = .ok (0, mapper', σ') ∧
      Mapped ⟨mapper', σ'⟩ (table ++ [e]) p' a' := by
  have hfail : ¬GrowthFails kmalloc ⟨mapper, σ⟩ a := by
    rintro ⟨-, hrefuse⟩
    rw [hk _ _ fun bytes h => by cases h] at hrefuse
    cases hrefuse
  obtain ⟨p', a', σ', hins, hm'⟩ :=
    hm.insert (e := e) (fun n bytes => hk n _ fun bytes h => by cases h) he (hm.cur ▸ hint) hfail
  exact ⟨some p', σ', p', a', hins, hm'⟩

/-- A round with its symbol inside the file. -/
theorem parseSymbol_ok (hk : Serves kmalloc) (hlen : b.length < 2 ^ 31) (hmaddr : ep.maddr = b)
    (hsym : ep.symtab = some t) (hin : SymbolIn b ep.buf t j) (hm : Mapped ⟨mapper, σ⟩ table p a)
    (hint : (table ++ t.taken b ep.buf j).length ≤ 2 ^ 31) :
    ∃ mapper' σ' p' a', parseSymbol kmalloc ep (t.entry j) mapper σ = .ok (0, mapper', σ') ∧
      Mapped ⟨mapper', σ'⟩ (table ++ t.taken b ep.buf j) p' a' := by
  have hentry := hin.entry
  simp only [parseSymbol_eq_ok hlen hmaddr hsym (by omega : t.symtab.toNat + 24 * j < 2 ^ 64), and_iff_right hin]
  rw [SymTab.taken] at hint ⊢
  by_cases ht : t.Taken b ep.buf j
  · rw [if_pos ht] at hint ⊢
    have hname := Image.string_lt_iff.mpr (hin.name ht)
    rw [List.length_append, List.length_singleton] at hint
    simp only [if_pos ht]
    refine hk.insert ?_ hm (by omega)
    show (Image.string b (t.nameAt b j).toNat).length < 2 ^ 31
    omega
  · simp only [if_neg ht, List.append_nil]
    exact ⟨mapper, σ, p, a, rfl, hm⟩

theorem SymTab.taken_length (t : SymTab) (b : List Byte) (buf : Addr) (j : Nat) : (t.taken b buf j).length ≤ 1 := by
  rw [SymTab.taken]
  split_ifs <;> simp

theorem SymTab.takenFrom_succ {buf : Addr} :
    t.takenFrom b buf j (n + 1) = t.taken b buf j ++ t.takenFrom b buf (j + 1) n := by
  rw [SymTab.takenFrom, List.range'_succ, List.flatMap_cons]
  rfl

/-- The loop, when all symbols that it comes to are inside. -/
theorem parseSymbols_ok (hk : Serves kmalloc) (hlen : b.length < 2 ^ 31) (hfit : ep.buf.toNat + b.length < 2 ^ 64)
    (hmaddr : ep.maddr = b) (hsym : ep.symtab = some t) (hin : ∀ i < t.count ep.buf, SymbolIn b ep.buf t i)
    (hj : j + (n + 1) = t.count ep.buf) (hm : Mapped ⟨mapper, σ⟩ table p a)
    (hint : (table ++ t.takenFrom b ep.buf j (n + 1)).length ≤ 2 ^ 31) : ∃ mapper' σ' p' a',
      (∀ fuel ≥ n + 1, parseSymbols kmalloc ep fuel (t.entry j) mapper σ = some (.ok (mapper', σ'))) ∧
      Mapped ⟨mapper', σ'⟩ (table ++ t.takenFrom b ep.buf j (n + 1)) p' a' := by
  induction n generalizing j mapper σ table p a with
  | zero =>
    have hlast : t.takenFrom b ep.buf j (0 + 1) = t.taken b ep.buf j := by
      rw [SymTab.takenFrom_succ]
      exact List.append_nil _
    rw [hlast] at hint ⊢
    obtain ⟨mapper', σ', p', a', hone, hm'⟩ := parseSymbol_ok hk hlen hmaddr hsym (hin j (by omega)) hm hint
    refine ⟨mapper', σ', p', a', fun fuel hfuel => ?_, hm'⟩
    obtain ⟨fuel, rfl⟩ := Nat.exists_eq_add_of_le' hfuel
    rw [parseSymbols, hone, elfNextsym_eq hsym hfit (hin j (by omega)).entry, if_neg (by omega)]
    rfl
  | succ n ih =>
    rw [SymTab.takenFrom_succ, ← List.append_assoc] at hint ⊢
    have hint₁ : (table ++ t.taken b ep.buf j).length ≤ 2 ^ 31 := by
      rw [List.length_append] at hint
      omega
    obtain ⟨mapper₁, σ₁, p₁, a₁, hone, hm₁⟩ := parseSymbol_ok hk hlen hmaddr hsym (hin j (by omega)) hm hint₁
    obtain ⟨mapper', σ', p', a', hrest, hm'⟩ := ih (by omega : j + 1 + (n + 1) = t.count ep.buf) hm₁ hint
    refine ⟨mapper', σ', p', a', fun fuel hfuel => ?_, hm'⟩
    obtain ⟨fuel, rfl⟩ := Nat.exists_eq_add_of_le' (Nat.le_of_succ_le hfuel)
    rw [← Nat.add_assoc, parseSymbols, hone, elfNextsym_eq hsym hfit (hin j (by omega)).entry, if_pos (by omega)]
    exact hrest _ (by omega)

/-- A loop that comes to its end has had all its symbols inside. -/
theorem symbols_in_of_ok (hk : Serves kmalloc) (hlen : b.length < 2 ^ 31) (hfit : ep.buf.toNat + b.length < 2 ^ 64)
    (hmaddr : ep.maddr = b) (hsym : ep.symtab = some t) {fuel : Nat} {r : Option Nat × Store}
    (h : parseSymbols kmalloc ep fuel (t.entry j) mapper σ = some (.ok r)) (hm : Mapped ⟨mapper, σ⟩ table p a)
    (hint : table.length ≤ 2 ^ 30 + j) (hj : t.symtab.toNat + 24 * j < 2 ^ 64) :
    ∀ i, j ≤ i → i = j ∨ i < t.count ep.buf → SymbolIn b ep.buf t i := by
  induction fuel generalizing j mapper σ table p a with
  | zero => cases h
  | succ fuel ih =>
    rw [parseSymbols] at h
    cases hone : parseSymbol kmalloc ep (t.entry j) mapper σ with
    | error f =>
      rw [hone] at h
      cases h
    | ok x =>
      have hin := ((parseSymbol_eq_ok hlen hmaddr hsym hj).mp hone).1
      have hentry := hin.entry
      have htaken := t.taken_length b ep.buf j
      have hint₁ : (table ++ t.taken b ep.buf j).length ≤ 2 ^ 30 + (j + 1) := by
        rw [List.length_append]
        omega
      obtain ⟨mapper', σ', p', a', hone', hm'⟩ := parseSymbol_ok hk hlen hmaddr hsym hin hm (by omega)
      rw [hone', elfNextsym_eq hsym hfit hentry] at h
      intro i hi hcount
      rcases Nat.eq_or_lt_of_le hi with rfl | hlt
      · exact hin
      · have hnext : j + 1 < t.count ep.buf := by omega
        rw [if_pos hnext] at h
        exact ih h hm' hint₁ (by omega) i hlt (Or.inr (by omega))

end Insert
end Symbols
end StackVault.Elf
