import StackVault.Theorems.Reads

/-! What `parse` takes from an executable. In a well-formed image `elf_open` finds the symbol table and its
    strings, the loop of `parse` steps through it to its end, and the mapper gets the symbols that have a size, in the
    order of the table. -/

namespace StackVault.Elf
open Mapper Transition

/-! ### The fields of an image -/

/-- The field at `offset` of section header `i`. -/
def shField (img : List Byte) (i offset k : Nat) : Nat := Image.word img (eShoff img + (64 * i + offset)) k

def shType (img : List Byte) (i : Nat) : Nat := shField img i 4 4

def shOffset (img : List Byte) (i : Nat) : Nat := shField img i 0x18 8

def shSize (img : List Byte) (i : Nat) : Nat := shField img i 0x20 8

def shLink (img : List Byte) (i : Nat) : Nat := shField img i 0x28 4

/-- The offset of symbol `j` of the table in section `i`. -/
def symbolAt (img : List Byte) (i j : Nat) : Nat := shOffset img i + 24 * j

def stName (img : List Byte) (i j : Nat) : Nat := Image.word img (symbolAt img i j) 4

def stValue (img : List Byte) (i j : Nat) : Nat := Image.word img (symbolAt img i j + 8) 8

def stSize (img : List Byte) (i j : Nat) : Nat := Image.word img (symbolAt img i j + 16) 8

/-- The offset of the name of symbol `j`. -/
def nameAt (img : List Byte) (i j : Nat) : Nat := shOffset img (shLink img i) + stName img i j

def symbol (img : List Byte) (i j : Nat) : Entry where
  name := ⟨Image.string img (nameAt img i j), Image.zero_notMem_string⟩
  ip := BitVec.ofNat 64 (stValue img i j)
  size := BitVec.ofNat 64 (stSize img i j)

/-- The symbols of the table from `j` on that have a size, `n` of them looked at. -/
def symbolsFrom (img : List Byte) (i j n : Nat) : List Entry :=
  ((List.range' j n).filter fun j => stSize img i j ≠ 0).map (symbol img i)

/-- The symbols that have a size, in the order of the table. -/
def symbols (img : List Byte) (i : Nat) : List Entry := symbolsFrom img i 0 (shSize img i / 24)

/-- An ELF64 image with its symbol table in section `k` and everything inside the file. -/
structure WellFormed (img : List Byte) (k : Nat) : Prop where
  short : img.length < 2 ^ 31
  ehdr : 64 ≤ img.length
  magic : img.take 4 = ELFMAG
  headers : eShoff img + 64 * eShnum img ≤ img.length
  single : ∀ i < eShnum img, shType img i = shtSymtab ↔ i = k
  index : k < eShnum img
  table : shOffset img k + shSize img k ≤ img.length
  entries : 24 ∣ shSize img k
  pos : 0 < shSize img k
  link : shLink img k < eShnum img
  names : ∀ j < shSize img k / 24, ∃ n, img[nameAt img k j + n]? = some 0
  dynamic : ∀ i < eShnum img, shType img i = shtDynsym → shLink img i < eShnum img

/-- The table of a section, as `elf_open` keeps it. -/
def tableOf (img : List Byte) (i : Nat) : SymTab where
  symtab := BitVec.ofNat 64 (shOffset img i)
  symtabEnd := BitVec.ofNat 64 (shOffset img i) + BitVec.ofNat 64 (shSize img i)
  strtab := BitVec.ofNat 64 (shOffset img (shLink img i))

/-! ### Opening -/

section Open
variable {img : List Byte} {k i j offset n : Nat} {kmalloc : Kmalloc} {exe : ExeFile} {σ : Store}

/-- Inside the file no pointer wraps around. -/
theorem WellFormed.shdr_toNat (h : WellFormed img k) (hi : i < eShnum img) (hoffset : offset < 64) :
    (shdrAt img i offset).toNat = eShoff img + (64 * i + offset) := by
  have hshort := h.short
  have hheaders := h.headers
  rw [shdrAt, ← BitVec.ofNat_add, BitVec.toNat_ofNat]
  exact Nat.mod_eq_of_lt (by omega)

theorem WellFormed.field_eq (h : WellFormed img k) (hi : i < eShnum img) (hoffset : offset < 64) :
    shdrField img i offset n = shField img i offset n := by
  rw [shdrField, h.shdr_toNat hi hoffset]
  rfl

theorem WellFormed.inside (h : WellFormed img k) (hi : i < eShnum img) (hin : offset + (n + 1) ≤ 64) :
    Inside img (shdrAt img i offset) (n + 1) := by
  have hheaders := h.headers
  rw [Inside, h.shdr_toNat hi (by omega)]
  omega

theorem WellFormed.table_in (h : WellFormed img k) (hi : i < eShnum img) (hlink : shLink img i < eShnum img) :
    TableIn img i where
  offset := h.inside hi (by decide)
  size := h.inside hi (by decide)
  link := h.inside hi (by decide)
  strings := by
    rw [h.field_eq hi (by decide)]
    exact h.inside hlink (by decide)

theorem WellFormed.table_eq (h : WellFormed img k) : tableAt img k = tableOf img k := by
  have hi := h.index
  have hlink : shField img k 0x28 4 < eShnum img := h.link
  rw [tableAt, h.field_eq hi (by decide), h.field_eq hi (by decide), h.field_eq hi (by decide),
    h.field_eq hlink (by decide)]
  rfl

theorem WellFormed.headers_in (h : WellFormed img k) : HeadersIn img where
  shoff := Nat.le_trans (by decide) h.ehdr
  shnum := Nat.le_trans (by decide) h.ehdr
  headers i hi := by
    refine ⟨h.inside hi (by decide), fun htype => ?_⟩
    rw [h.field_eq hi (by decide)] at htype
    rcases htype with hsym | hdyn
    · obtain rfl := (h.single i hi).mp hsym
      exact h.table_in hi h.link
    · exact h.table_in hi (h.dynamic i hi hdyn)

theorem WellFormed.buffer_eq (h : WellFormed img k) : buffer img = img := by
  have hshort := h.short
  rw [buffer, Nat.mod_eq_of_lt (by omega), List.take_length]

theorem WellFormed.last_symtab (h : WellFormed img k) :
    LastOf (fun i => shdrField img i 4 4 = shtSymtab) (List.range (eShnum img)) k := by
  have hk : shdrField img k 4 4 = shtSymtab := by
    rw [h.field_eq h.index (by decide)]
    exact (h.single k h.index).mpr rfl
  obtain ⟨l, hl⟩ := exists_lastOf (P := fun i => shdrField img i 4 4 = shtSymtab) (List.mem_range.mpr h.index) hk
  obtain ⟨pre, post, hrange, htype, -⟩ := id hl
  have hlt : l < eShnum img := List.mem_range.mp (hrange ▸ List.mem_append_right pre List.mem_cons_self)
  rw [h.field_eq hlt (by decide)] at htype
  obtain rfl := (h.single l hlt).mp htype
  exact hl

theorem WellFormed.handle_eq (h : WellFormed img k) :
    (exe.handle img).buf = exe.buf ∧ (exe.handle img).maddr = img ∧ (exe.handle img).symtab = some (tableOf img k) := by
  obtain ⟨hbuf, hmaddr, hlast, -⟩ := exe.handle_eq img
  rw [← h.table_eq]
  exact ⟨hbuf, hmaddr, hlast k h.last_symtab⟩

theorem WellFormed.magic_prefix (h : WellFormed img k) : ELFMAG <+: img := h.magic ▸ List.take_prefix 4 img

theorem WellFormed.open_ok (h : WellFormed img k) (hexe : exe.Reads img) (halloc : ∀ n r, kmalloc n r = true) :
    elfOpen kmalloc exe σ = .ok (some (exe.handle img), σ.skip.skip) := by
  rw [elfOpen_eq_ok (halloc _ _) hexe h.ehdr, h.buffer_eq]
  exact ⟨halloc _ _, Or.inr ⟨strncmp_eq_false.mpr h.magic_prefix, h.headers_in, rfl⟩⟩

end Open

/-! ### The loop -/

section Loop
variable {img : List Byte} {k i j n : Nat} {kmalloc : Kmalloc} {exe : ExeFile} {mapper : Option Nat} {σ : Store}
  {table : List Entry} {p : Nat} {a : ItemArray} {buf : Addr}

theorem WellFormed.length_symbols (h : WellFormed img k) : (symbols img k).length < 2 ^ 27 := by
  have hshort := h.short
  have htable := h.table
  have hle : (symbols img k).length ≤ shSize img k / 24 := by
    rw [symbols, symbolsFrom, List.length_map]
    exact (List.length_filter_le _ _).trans List.length_range'.le
  omega

/-- The symbol is inside the file. -/
theorem WellFormed.symbol_le (h : WellFormed img k) (hj : j < shSize img k / 24) :
    symbolAt img k j + 24 ≤ shOffset img k + shSize img k := by
  have hdiv := Nat.div_mul_cancel h.entries
  rw [symbolAt]
  omega

theorem tableOf_symtab : (tableOf img k).symtab.toNat = shOffset img k := by
  show (BitVec.ofNat 64 (shOffset img k)).toNat = _
  rw [BitVec.toNat_ofNat]
  exact Nat.mod_eq_of_lt Image.word_lt

/-- Where a field of the symbol is read. -/
theorem WellFormed.entry_toNat (h : WellFormed img k) (hj : j < shSize img k / 24) {o : Nat} (ho : o ≤ 24) :
    ((tableOf img k).entry j + BitVec.ofNat 64 o).toNat = symbolAt img k j + o := by
  have hshort := h.short
  have hle := h.symbol_le hj
  have htable := h.table
  have hat : symbolAt img k j = shOffset img k + 24 * j := rfl
  have hentry := (tableOf img k).entry_toNat (j := j) (by rw [tableOf_symtab]; omega)
  rw [BitVec.toNat_add, hentry, tableOf_symtab, BitVec.toNat_ofNat]
  omega

theorem WellFormed.word_eq (h : WellFormed img k) (hj : j < shSize img k / 24) :
    Image.word img ((tableOf img k).entry j).toNat 4 = stName img k j := by
  have hentry := h.entry_toNat hj (Nat.zero_le 24)
  rw [BitVec.add_zero] at hentry
  rw [hentry]
  rfl

theorem WellFormed.name_toNat (h : WellFormed img k) (hj : j < shSize img k / 24) :
    ((tableOf img k).nameAt img j).toNat = nameAt img k j := by
  have hshort := h.short
  obtain ⟨n, hn⟩ := h.names j hj
  have hlt := (List.getElem?_eq_some_iff.mp hn).1
  have hat : nameAt img k j = shOffset img (shLink img k) + stName img k j := rfl
  rw [SymTab.nameAt, h.word_eq hj]
  show (BitVec.ofNat 64 (shOffset img (shLink img k)) + BitVec.ofNat 64 (stName img k j)).toNat = _
  rw [← BitVec.ofNat_add, BitVec.toNat_ofNat, Nat.mod_eq_of_lt (by omega)]
  rfl

theorem WellFormed.size_eq (h : WellFormed img k) (hj : j < shSize img k / 24) :
    (tableOf img k).sizeAt img j = stSize img k j :=
  congrArg (fun o => Image.word img o 8) (h.entry_toNat hj (by decide : 16 ≤ 24))

/-- The size that `parse` compares with 0 is the one in the file. -/
theorem size_eq_zero : BitVec.ofNat 64 (stSize img k j) = 0 ↔ stSize img k j = 0 := by
  have hlt : stSize img k j < 2 ^ 64 := Image.word_lt
  constructor
  · intro hzero
    have htoNat := congrArg BitVec.toNat hzero
    rw [BitVec.toNat_ofNat, Nat.mod_eq_of_lt hlt] at htoNat
    exact htoNat
  · intro hzero
    rw [hzero]
    rfl

theorem WellFormed.symbol_eq (h : WellFormed img k) (hj : j < shSize img k / 24) :
    (tableOf img k).symbol img j = symbol img k j := by
  have hvalue : ((tableOf img k).entry j + 8).toNat = symbolAt img k j + 8 := h.entry_toNat hj (by decide : 8 ≤ 24)
  simp only [SymTab.symbol, h.name_toNat hj, h.size_eq hj, hvalue]
  rfl

/-- No name of a well-formed image is at NULL. -/
theorem WellFormed.taken_iff (h : WellFormed img k) (hbuf : 0 < buf.toNat) (hfit : buf.toNat + img.length < 2 ^ 64)
    (hj : j < shSize img k / 24) : (tableOf img k).Taken img buf j ↔ stSize img k j ≠ 0 := by
  obtain ⟨n, hn⟩ := h.names j hj
  have hlt := (List.getElem?_eq_some_iff.mp hn).1
  rw [SymTab.Taken, h.size_eq hj, ne_eq (BitVec.ofNat 64 _), size_eq_zero]
  refine and_iff_right fun hnull => ?_
  have htoNat := congrArg BitVec.toNat hnull
  rw [BitVec.toNat_add, h.name_toNat hj, Nat.mod_eq_of_lt (by omega)] at htoNat
  have hzero : (0 : Addr).toNat = 0 := rfl
  omega

theorem WellFormed.symbol_in (h : WellFormed img k) (hj : j < shSize img k / 24) :
    SymbolIn img buf (tableOf img k) j where
  entry := by
    have hle := h.symbol_le hj
    have htable := h.table
    have hat : symbolAt img k j = shOffset img k + 24 * j := rfl
    rw [tableOf_symtab]
    omega
  name _ := by
    rw [h.name_toNat hj]
    exact h.names j hj

/-- The loop comes to all symbols. -/
theorem WellFormed.count_eq (h : WellFormed img k) (hfit : buf.toNat + img.length < 2 ^ 64) :
    (tableOf img k).count buf = shSize img k / 24 := by
  have htable := h.table
  have hdiv := Nat.div_mul_cancel h.entries
  have hpos := h.pos
  have hend : (buf + (tableOf img k).symtabEnd).toNat = buf.toNat + (shOffset img k + shSize img k) := by
    show (buf + (BitVec.ofNat 64 (shOffset img k) + BitVec.ofNat 64 (shSize img k))).toNat = _
    rw [← BitVec.ofNat_add, BitVec.toNat_add, BitVec.toNat_ofNat]
    omega
  rw [SymTab.count, hend, tableOf_symtab]
  omega

theorem WellFormed.takenFrom_eq (h : WellFormed img k) (hbuf : 0 < buf.toNat) (hfit : buf.toNat + img.length < 2 ^ 64)
    (hn : j + n ≤ shSize img k / 24) : (tableOf img k).takenFrom img buf j n = symbolsFrom img k j n := by
  induction n generalizing j with
  | zero => rfl
  | succ n ih =>
    have hj : j < shSize img k / 24 := by omega
    rw [SymTab.takenFrom_succ, ih (by omega), symbolsFrom, symbolsFrom, List.range'_succ, SymTab.taken, h.symbol_eq hj]
    by_cases hsize : stSize img k j = 0
    · rw [List.filter_cons_of_neg (by simpa using hsize), if_neg fun ht => (h.taken_iff hbuf hfit hj).mp ht hsize]
      rfl
    · rw [List.filter_cons_of_pos (by simpa using hsize), if_pos ((h.taken_iff hbuf hfit hj).mpr hsize)]
      rfl

/-- Behind what the mapper had it gets the symbols of the image, as far as an `int` can count the items. -/
theorem WellFormed.parse_adds (h : WellFormed img k) (hexe : exe.Reads img) (halloc : ∀ n r, kmalloc n r = true)
    (hm : Mapped ⟨mapper, σ⟩ table p a) (hint : (table ++ symbols img k).length ≤ 2 ^ 31) : ∃ mapper' σ' p' a',
      Mapped ⟨mapper', σ'⟩ (table ++ symbols img k) p' a' ∧
      ∀ fuel ≥ shSize img k / 24, parse kmalloc fuel exe mapper σ = some (.ok (mapper', σ')) := by
  have hopen := h.open_ok (σ := σ) hexe halloc
  obtain ⟨hbuf, hmaddr, hsym⟩ : (exe.handle img).buf = exe.buf ∧ _ ∧ _ := h.handle_eq
  have hpos := h.pos
  have hdiv := Nat.div_mul_cancel h.entries
  have hfit : exe.buf.toNat + img.length < 2 ^ 64 := by
    have hfits := hexe.fits
    have hshort := h.short
    rw [hexe.size] at hfits
    omega
  obtain ⟨n, hn⟩ : ∃ n, 0 + (n + 1) = shSize img k / 24 := ⟨shSize img k / 24 - 1, by omega⟩
  have htaken := h.takenFrom_eq hexe.buf hfit hn.le
  rw [← hbuf] at hfit htaken
  have hcount := h.count_eq hfit
  have hsymbols : symbols img k = symbolsFrom img k 0 (n + 1) := by rw [symbols, ← hn, Nat.zero_add]
  rw [hsymbols, ← htaken] at hint ⊢
  obtain ⟨mapper', σ', p', a', hloop, hm'⟩ := parseSymbols_ok (fun n r _ => halloc n r) h.short hfit hmaddr hsym
    (fun j hj => h.symbol_in (hcount ▸ hj)) (hn.trans hcount.symm) hm.skip.skip hint
  refine ⟨mapper', σ', p', a', hm', fun fuel hfuel => ?_⟩
  simp only [parse, hopen, elfFirstsym_eq hsym]
  exact hloop fuel (by omega)

/-- Symbol extraction. The loop ends within a round for each symbol, and the mapper has the symbols of the image
    that have a size, in order, behind what it had. An `int` has to count the items: the image has fewer than
    2^27 symbols, and the module gives `parse` an empty mapper. -/
theorem parse_exact (halloc : ∀ n r, kmalloc n r = true) (hwf : WellFormed img k) (hexe : exe.Reads img)
    (hm : Mapped ⟨mapper, σ⟩ table p a) (hint : (table ++ symbols img k).length ≤ 2 ^ 31) : ∃ mapper' σ' p' a',
      (∀ fuel ≥ shSize img k / 24, parse kmalloc fuel exe mapper σ = some (.ok (mapper', σ'))) ∧
      Mapped ⟨mapper', σ'⟩ (table ++ symbols img k) p' a' := by
  have hopen := hwf.open_ok (σ := σ) hexe halloc
  obtain ⟨hbuf, hmaddr, hsym⟩ : (exe.handle img).buf = exe.buf ∧ _ ∧ _ := hwf.handle_eq
  have hpos := hwf.pos
  have hdiv := Nat.div_mul_cancel hwf.entries
  have hshort := hwf.short
  have hfit : exe.buf.toNat + img.length < 2 ^ 64 := by
    have hfits := hexe.fits
    rw [hexe.size] at hfits
    omega
  obtain ⟨n, hn⟩ : ∃ n, 0 + (n + 1) = shSize img k / 24 := ⟨shSize img k / 24 - 1, by omega⟩
  have htaken := hwf.takenFrom_eq hexe.buf hfit hn.le
  rw [symbols, ← hn, Nat.zero_add, ← htaken, ← hbuf] at hint ⊢
  rw [← hbuf] at hfit
  have hcount := hwf.count_eq hfit
  obtain ⟨mapper', σ', p', a', hloop, hm'⟩ := parseSymbols_ok (fun n r _ => halloc n r) hshort hfit hmaddr hsym
    (fun i hi => hwf.symbol_in (hcount ▸ hi)) (hn.trans hcount.symm) hm.skip.skip hint
  refine ⟨mapper', σ', p', a', fun fuel hfuel => ?_, hm'⟩
  simp only [parse, hopen, elfFirstsym_eq hsym]
  exact hloop fuel (by omega)

end Loop

/-! ### A small executable -/

/-- The `k` bytes of a number, the lowest first. -/
def le : Nat → Nat → List Byte
  | 0, _ => []
  | k + 1, n => BitVec.ofNat 8 n :: le k (n / 256)

def sampleHeader (type offset size link : Nat) : List Byte :=
  le 4 0 ++ le 4 type ++ le 16 0 ++ le 8 offset ++ le 8 size ++ le 4 link ++ le 20 0

def sampleSymbol (name value size : Nat) : List Byte := le 4 name ++ le 4 0 ++ le 8 value ++ le 8 size

/-- Two sections, the symbol table and its strings; the second symbol has no size. -/
def sampleElf : List Byte :=
  ELFMAG ++ le 36 0 ++ le 8 64 ++ le 12 0 ++ le 2 2 ++ le 2 0 ++
  sampleHeader shtSymtab 192 72 1 ++ sampleHeader 3 264 5 0 ++
  sampleSymbol 1 0x1000 0x100 ++ sampleSymbol 0 0x1800 0 ++ sampleSymbol 3 0x2000 0x100 ++
  [0, 0x61, 0, 0x62, 0]

theorem sampleElf_wellFormed : WellFormed sampleElf 0 where
  short := by decide +kernel
  ehdr := by decide +kernel
  magic := by decide +kernel
  headers := by decide +kernel
  single := by decide +kernel
  index := by decide +kernel
  table := by decide +kernel
  entries := by decide +kernel
  pos := by decide +kernel
  link := by decide +kernel
  names := by
    have hall : ∀ j < shSize sampleElf 0 / 24, sampleElf[nameAt sampleElf 0 j + (symbol sampleElf 0 j).name.strlen]? =
        some 0 := by
      decide +kernel
    exact fun j hj => ⟨_, hall j hj⟩
  dynamic := by decide +kernel

def sampleExe : ExeFile := { fileOpen := true, vfsFstat := (0, 269), buf := 0x1000, fileRead := sampleElf }

theorem sampleExe_reads : sampleExe.Reads sampleElf where
  opens := rfl
  stat := by decide
  size := by decide +kernel
  whole := rfl
  buf := by decide
  fits := by decide

theorem symbols_sampleElf : symbols sampleElf 0 = [symbolA, symbolB] := by decide +kernel

/-- The mapper that the module makes has the two symbols that have a size. -/
theorem parse_exact_sample : ∃ mapper σ mapper' σ' p a, initMapper (fun _ _ => true) Store.empty 8 = .ok (mapper, σ) ∧
    parse (fun _ _ => true) 3 sampleExe mapper σ = some (.ok (mapper', σ')) ∧
    Mapped ⟨mapper', σ'⟩ [symbolA, symbolB] p a := by
  obtain ⟨mapper, σ, hinit, hmapped⟩ := initMapper_ok (n := 8) (fun _ _ => true) Store.empty (by decide) (by decide)
  obtain ⟨rfl, -⟩ :=
    Prod.mk.inj (Except.ok.inj (hinit.symm.trans (rfl : initMapper (fun _ _ => true) Store.empty 8 = .ok (some 0, _))))
  obtain ⟨a, ha⟩ := hmapped 0 rfl
  have hint : ([] ++ symbols sampleElf 0).length ≤ 2 ^ 31 := sampleElf_wellFormed.length_symbols.le.trans (by decide)
  obtain ⟨mapper', σ', p', a', hparse, hm⟩ := parse_exact (fun _ _ => rfl) sampleElf_wellFormed sampleExe_reads ha hint
  rw [symbols_sampleElf] at hm
  exact ⟨some 0, σ, mapper', σ', p', a', hinit, hparse 3 (by decide +kernel), hm⟩

end StackVault.Elf
