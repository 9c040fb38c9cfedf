import StackVault.ElfTool
import StackVault.Theorems.Symbols

/-! The module's `parse` against the program that it was taken from. More bytes behind a file change nothing that is
    read inside it, so on a well-formed image the program, which sees the file in whole pages, finds the tables that the
    module finds in its buffer. It prints every symbol, and the module inserts those of the printed symbols that have a
    size. -/

namespace StackVault.Elf
open Mapper

/-! ### More bytes behind the file -/

section Append
variable {b c : List Byte} {p shdr : Addr} {i k v : Nat} {ep ep' : ElfObj} {t : SymTab} {is : List Nat}

theorem load_append (h : Inside b p k) : load (b ++ c) p k = .ok (Image.word b p.toNat k) := by
  rw [load_inside (h.trans (by rw [List.length_append]; exact Nat.le_add_right _ _)), Image.word_append h]

theorem load_mono (h : load b p k = .ok v) : load (b ++ c) p k = .ok v := by
  unfold load at h
  split_ifs at h with hin
  exact (load_append hin).trans h

theorem loadString_append (h : ∃ n, b[p.toNat + n]? = some 0) :
    loadString (b ++ c) p = .ok ⟨Image.string b p.toNat, Image.zero_notMem_string⟩ := by
  have hlt := Image.string_lt_iff.mpr h
  have heq := Image.string_append hlt c
  unfold loadString
  rw [if_pos (by rw [heq, List.length_append]; omega)]
  simp only [heq]

theorem elfTable_mono (h : elfTable b shdr i = .ok t) : elfTable (b ++ c) shdr i = .ok t := by
  obtain ⟨shOffset, h1, h⟩ := bind_eq_ok.mp h
  obtain ⟨shSize, h2, h⟩ := bind_eq_ok.mp h
  obtain ⟨shLink, h3, h⟩ := bind_eq_ok.mp h
  obtain ⟨strOffset, h4, h⟩ := bind_eq_ok.mp h
  exact bind_eq_ok.mpr ⟨_, load_mono h1, bind_eq_ok.mpr ⟨_, load_mono h2, bind_eq_ok.mpr ⟨_, load_mono h3,
    bind_eq_ok.mpr ⟨_, load_mono h4, h⟩⟩⟩⟩

/-- The sections of the file are gone over alike. -/
theorem elfSections_mono (h : elfSections b shdr is ep = .ok ep') : elfSections (b ++ c) shdr is ep = .ok ep' := by
  induction is generalizing ep with
  | nil => exact h
  | cons i is ih =>
    rw [elfSections_cons] at h ⊢
    obtain ⟨shType, htype, h⟩ := bind_eq_ok.mp h
    refine bind_eq_ok.mpr ⟨shType, load_mono htype, ?_⟩
    split_ifs at h ⊢
    · obtain ⟨t, ht, h⟩ := bind_eq_ok.mp h
      exact bind_eq_ok.mpr ⟨t, elfTable_mono ht, ih h⟩
    · obtain ⟨t, ht, h⟩ := bind_eq_ok.mp h
      exact bind_eq_ok.mpr ⟨t, elfTable_mono ht, ih h⟩
    · exact ih h

end Append

/-! ### The program on a well-formed image -/

/-- The line of a symbol. -/
def Row.of (e : Entry) : Row := { name := e.name, value := e.ip, size := e.size.setWidth 32 }

/-- The calls on the file give the whole image, mapped in front of the end of the address space. -/
structure ToolFile.Maps (exe : ToolFile) (img : List Byte) (buf : Addr) : Prop where
  malloc : exe.malloc = true
  opens : exe.opens = true
  stat : exe.fstat.1 ≠ -1
  size : exe.fstat.2.toNat = img.length
  mmap : exe.mmap = some buf
  whole : exe.file = img
  null : 0 < buf.toNat
  fits : buf.toNat + img.length < 2 ^ 64

section Tool
variable {img c : List Byte} {k j n : Nat} {ep : ElfObj} {exe : ToolFile} {buf : Addr}

theorem WellFormed.row (h : WellFormed img k) (hj : j < shSize img k / 24) (hmaddr : ep.maddr = img ++ c)
    (hsym : ep.symtab = some (tableOf img k)) (hbuf : 0 < ep.buf.toNat) (hfit : ep.buf.toNat + img.length < 2 ^ 64) :
    Tool.row ep ((tableOf img k).entry j) = .ok (Row.of (symbol img k j)) := by
  have hle := h.symbol_le hj
  have htable := h.table
  have hname := h.names j hj
  have hinside : ∀ o n, o + n ≤ 24 → Inside img ((tableOf img k).entry j + BitVec.ofNat 64 o) n := fun o n ho => by
    rw [Inside, h.entry_toNat hj (by omega)]
    omega
  have hname4 := load_append (c := c) (hinside 0 4 (by decide))
  have hvalue8 : load (img ++ c) ((tableOf img k).entry j + 8) 8 = _ := load_append (hinside 8 8 (by decide))
  have hsize8 : load (img ++ c) ((tableOf img k).entry j + 16) 8 = _ := load_append (hinside 16 8 (by decide))
  rw [BitVec.add_zero] at hname4
  have htable : ep.table = .ok (tableOf img k) := by
    rw [ElfObj.table, hsym]
  have hnull : ¬ep.buf + (tableOf img k).nameAt img j = 0 := fun hnull => by
    obtain ⟨n, hn⟩ := hname
    have hlt := (List.getElem?_eq_some_iff.mp hn).1
    have htoNat := congrArg BitVec.toNat hnull
    rw [BitVec.toNat_add, h.name_toNat hj, Nat.mod_eq_of_lt (by omega)] at htoNat
    have hzero : (0 : Addr).toNat = 0 := rfl
    omega
  rw [← h.name_toNat hj] at hname
  have hstring := loadString_append (c := c) hname
  rw [← h.symbol_eq hj]
  unfold SymTab.nameAt at hnull hstring
  simp only [Tool.row, elfSymname, elfSymvalue, elfSymsize, htable, hmaddr, bind, Except.bind, pure, Except.pure,
    hname4, hvalue8, hsize8, hnull, if_false,
    hstring]
  rfl

/-- The loop prints one symbol after another. -/
theorem WellFormed.rows (h : WellFormed img k) (hmaddr : ep.maddr = img ++ c) (hsym : ep.symtab = some (tableOf img k))
    (hbuf : 0 < ep.buf.toNat) (hfit : ep.buf.toNat + img.length < 2 ^ 64) (hj : j + (n + 1) = shSize img k / 24) :
    ∀ fuel ≥ n + 1, Tool.rows ep fuel ((tableOf img k).entry j) =
      some (.ok ((List.range' j (n + 1)).map fun j => Row.of (symbol img k j))) := by
  have hcount := h.count_eq hfit
  induction n generalizing j with
  | zero =>
    intro fuel hfuel
    obtain ⟨fuel, rfl⟩ := Nat.exists_eq_add_of_le' hfuel
    have hin : SymbolIn img ep.buf (tableOf img k) j := h.symbol_in (by omega)
    rw [Tool.rows, h.row (by omega) hmaddr hsym hbuf hfit]
    simp only [elfNextsym_eq hsym hfit hin.entry, hcount, if_neg (show ¬j + 1 < shSize img k / 24 by omega)]
    rfl
  | succ n ih =>
    intro fuel hfuel
    obtain ⟨fuel, rfl⟩ := Nat.exists_eq_add_of_le' (Nat.le_of_succ_le hfuel)
    have hin : SymbolIn img ep.buf (tableOf img k) j := h.symbol_in (by omega)
    have hrest := ih (show j + 1 + (n + 1) = shSize img k / 24 by omega) (fuel + n) (by omega)
    rw [← Nat.add_assoc, Tool.rows, h.row (by omega) hmaddr hsym hbuf hfit]
    simp only [elfNextsym_eq hsym hfit hin.entry, hcount, if_pos (show j + 1 < shSize img k / 24 by omega), hrest,
      Option.map_some]
    rw [List.range'_succ]
    rfl

theorem mapped_append (img : List Byte) : ∃ c, mapped img img.length = img ++ c := by
  refine ⟨_, List.take_of_length_le ?_⟩
  rw [List.length_append, List.length_replicate]
  unfold pages
  omega

theorem WellFormed.tool_open (h : WellFormed img k) (hexe : exe.Maps img buf) :
    ∃ ep c, Tool.elfOpen exe = .ok (some ep) ∧
    ep.buf = buf ∧ ep.maddr = img ++ c ∧ ep.symtab = some (tableOf img k) := by
  have hshort := h.short
  have hehdr := h.ehdr
  have hlarge : ¬exe.fstat.2 < 64 := by
    rw [BitVec.lt_def, hexe.size]
    exact Nat.not_lt.mpr hehdr
  have hmlen : (exe.fstat.2.setWidth 32).toNat = img.length := by
    rw [BitVec.toNat_setWidth, hexe.size]
    omega
  have hlen : ((exe.fstat.2.setWidth 32).signExtend 64).toNat = img.length := by
    rw [BitVec.signExtend_eq_setWidth_of_msb_false (BitVec.msb_eq_false_iff_two_mul_lt.mpr (by omega)),
      BitVec.toNat_setWidth, hmlen]
    omega
  -- The walk over the sections reads nothing behind the file.
  obtain ⟨c, hc⟩ := mapped_append img
  let ep : ElfObj := { buf, maddr := img ++ c, mlen := exe.fstat.2.setWidth 32, symtab := none, dsymtab := none }
  obtain ⟨hbuf, hmaddr, hlast, -⟩ := afterSections_eq img (List.range (eShnum img)) ep
  have hin := h.headers_in
  have hsections : elfSections (img ++ c) (BitVec.ofNat 64 (eShoff img)) (List.range (eShnum img)) ep = _ :=
    elfSections_mono (elfSections_eq_ok.mpr ⟨fun i hi => hin.headers i (List.mem_range.mp hi), rfl⟩)
  have hmagic : strncmp (img ++ c) ELFMAG = .ok false :=
    strncmp_eq_false.mpr (h.magic_prefix.trans (List.prefix_append _ _))
  have hshoff : load (img ++ c) 0x28 8 = .ok (eShoff img) := load_append hin.shoff
  have hshnum : load (img ++ c) 0x3c 2 = .ok (eShnum img) := load_append hin.shnum
  refine ⟨_, c, ?_, hbuf, hmaddr, (hlast k h.last_symtab).trans (congrArg some h.table_eq)⟩
  rw [Tool.elfOpen, if_neg (by simp [hexe.malloc]), if_neg (by simp [hexe.opens]), if_neg hexe.stat, if_neg hlarge,
    hexe.mmap,
    hexe.whole]
  dsimp only
  rw [hlen, hc, hmagic]
  refine bind_eq_ok.mpr ⟨false, rfl, ?_⟩
  exact bind_eq_ok.mpr ⟨_, hshoff, bind_eq_ok.mpr ⟨_, hshnum, bind_eq_ok.mpr ⟨_, hsections, rfl⟩⟩⟩

/-- The program ends, and has printed all symbols in the order of the table. -/
theorem WellFormed.tool_main (h : WellFormed img k) (hexe : exe.Maps img buf) : ∀ fuel ≥ shSize img k / 24,
    Tool.main fuel exe = some (.ok (some ((List.range (shSize img k / 24)).map fun j => Row.of (symbol img k j)))) := by
  intro fuel hfuel
  obtain ⟨ep, c, hopen, rfl, hmaddr, hsym⟩ := h.tool_open hexe
  have hpos := h.pos
  have hdiv := Nat.div_mul_cancel h.entries
  obtain ⟨n, hn⟩ : ∃ n, 0 + (n + 1) = shSize img k / 24 := ⟨shSize img k / 24 - 1, by omega⟩
  have hrows := h.rows hmaddr hsym hexe.null hexe.fits hn fuel (by omega)
  simp only [Tool.main, hopen, elfFirstsym_eq hsym, hrows]
  rw [List.range_eq_range', ← hn, Nat.zero_add]
  rfl

end Tool

/-- The module's `parse` is the listing program with an insert in the place of the output. On a well-formed image both
    end; what `parse` adds to the table are the symbols printed, in the order printed, less those without a size. -/
theorem port_agrees {img : List Byte} {k : Nat} {tool : ToolFile} {buf : Addr} {kmalloc : Kmalloc} {exe : ExeFile}
    {mapper : Option Nat} {σ : Store} {table : List Entry} {p : Nat} {a : ItemArray} (hwf : WellFormed img k)
    (htool : tool.Maps img buf) (halloc : ∀ n r, kmalloc n r = true) (hexe : exe.Reads img)
    (hm : Mapped ⟨mapper, σ⟩ table p a) (hint : table.length + shSize img k / 24 ≤ 2 ^ 31) :
      ∃ (printed : List Entry) (mapper' : Option Nat) (σ' : Store) (p' : Nat) (a' : ItemArray),
      (∀ fuel ≥ shSize img k / 24, Tool.main fuel tool = some (.ok (some (printed.map Row.of)))) ∧
      (∀ fuel ≥ shSize img k / 24, parse kmalloc fuel exe mapper σ = some (.ok (mapper', σ'))) ∧
      Mapped ⟨mapper', σ'⟩ (table ++ printed.filter fun e => e.size ≠ 0) p' a' := by
  have hsized : symbols img k = ((List.range (shSize img k / 24)).map (symbol img k)).filter fun e => e.size ≠ 0 := by
    rw [symbols, symbolsFrom, List.range_eq_range', List.filter_map]
    refine congrArg _ (List.filter_congr fun j _ => decide_eq_decide.mpr ?_)
    exact not_congr size_eq_zero.symm
  have hlen : (table ++ symbols img k).length ≤ 2 ^ 31 := by
    have hle : (symbols img k).length ≤ shSize img k / 24 := by
      rw [hsized]
      exact (List.length_filter_le _ _).trans (by rw [List.length_map, List.length_range])
    rw [List.length_append]
    omega
  obtain ⟨mapper', σ', p', a', hm', hparse⟩ := hwf.parse_adds hexe halloc hm hlen
  rw [hsized] at hm'
  refine ⟨_, mapper', σ', p', a', fun fuel hfuel => ?_, hparse, hm'⟩
  rw [hwf.tool_main htool fuel hfuel, List.map_map]
  rfl

def sampleTool : ToolFile :=
  { malloc := true, opens := true, fstat := (0, 269), mmap := some 0x7000, file := sampleElf }

theorem sampleTool_maps : sampleTool.Maps sampleElf 0x7000 where
  malloc := rfl
  opens := rfl
  stat := by decide
  size := by decide +kernel
  mmap := rfl
  whole := rfl
  null := by decide
  fits := by decide +kernel

/-- The small executable, listed and parsed. -/
theorem port_agrees_sample :
    ∃ (mapper : Option Nat) (σ : Store) (printed : List Entry) (mapper' : Option Nat) (σ' : Store) (p : Nat)
    (a : ItemArray),
    initMapper (fun _ _ => true) Store.empty 8 = .ok (mapper, σ) ∧
    Tool.main 3 sampleTool = some (.ok (some (printed.map Row.of))) ∧
    parse (fun _ _ => true) 3 sampleExe mapper σ = some (.ok (mapper', σ')) ∧
    Mapped ⟨mapper', σ'⟩ (printed.filter fun e => e.size ≠ 0) p a := by
  obtain ⟨mapper, σ, hinit, hmapped⟩ := initMapper_ok (n := 8) (fun _ _ => true) Store.empty (by decide) (by decide)
  obtain ⟨rfl, -⟩ :=
    Prod.mk.inj (Except.ok.inj (hinit.symm.trans (rfl : initMapper (fun _ _ => true) Store.empty 8 = .ok (some 0, _))))
  obtain ⟨a, ha⟩ := hmapped 0 rfl
  have hfuel : 3 ≥ shSize sampleElf 0 / 24 := by decide +kernel
  obtain ⟨printed, mapper', σ', p', a', hmain, hparse, hm⟩ :=
    port_agrees sampleElf_wellFormed sampleTool_maps (fun _ _ => rfl)
      sampleExe_reads ha (by rw [List.length_nil]; omega)
  exact ⟨some 0, σ, printed, mapper', σ', p', a', hinit, hmain 3 hfuel, hparse 3 hfuel, hm⟩

end StackVault.Elf
