import StackVault.Theorems.Symbols

/-! What `parse` does with an executable whose fields are arbitrary. Nothing but the size of the file and its first four
    bytes is tested, so the call stays inside the file, and uses no pointer that `elf_open` has not set, exactly when
    the fields of the file happen to allow it. -/

namespace StackVault.Elf
open Mapper Transition

/-- The call comes to its end. A read outside the file, or through a pointer that was not set, would be a fault. -/
def Safe (kmalloc : Kmalloc) (exe : ExeFile) (mapper : Option Nat) (σ : Store) : Prop :=
  ∃ fuel r, parse kmalloc fuel exe mapper σ = some (.ok r)

/-- The first byte that is not the one of `ELFMAG` is inside. -/
def Refused (b : List Byte) : Prop :=
  ∃ i, b.take i = ELFMAG.take i ∧ ∃ x y, b[i]? = some x ∧ ELFMAG[i]? = some y ∧ x ≠ y

/-- An ELF file with all its headers inside, a symbol table, and inside the file all symbols up to its end, the first
    one in any case. Of several symbol tables the last one counts. -/
structure Accepted (b : List Byte) (buf : Addr) : Prop where
  magic : ELFMAG <+: b
  headers : HeadersIn b
  symbols : ∃ k, LastOf (fun i => shdrField b i 4 4 = shtSymtab) (List.range (eShnum b)) k ∧
    ∀ j < (tableAt b k).count buf, SymbolIn b buf (tableAt b k) j

section Safe
variable {img : List Byte} {kmalloc : Kmalloc} {exe : ExeFile} {mapper : Option Nat} {σ : Store} {table : List Entry}
  {p : Nat} {a : ItemArray}

/-- A buffer that was allocated is not larger than an `int` says. -/
theorem ExeFile.Reads.buffer_lt (hexe : exe.Reads img) (hlarge : (exe.mlen.signExtend 64).toNat < 2 ^ 63) :
    (buffer img).length < 2 ^ 31 := by
  have hmlen : exe.mlen.toNat = img.length % 2 ^ 32 := by
    rw [ExeFile.mlen, BitVec.toNat_setWidth, hexe.size]
  have hsign : (exe.mlen.signExtend 64).toNat =
      exe.mlen.toNat + if 2 ^ 31 ≤ exe.mlen.toNat then 2 ^ 64 - 2 ^ 32 else 0 := by
    rw [BitVec.toNat_signExtend, BitVec.msb_eq_decide, BitVec.toNat_setWidth]
    have hlt := exe.mlen.isLt
    simp only [decide_eq_true_eq]
    rw [Nat.mod_eq_of_lt (by omega)]
  rw [buffer, List.length_take, ← hmlen]
  by_cases hint : 2 ^ 31 ≤ exe.mlen.toNat
  · rw [hsign, if_pos hint] at hlarge
    omega
  · omega

theorem ExeFile.Reads.buffer_fits (hexe : exe.Reads img) : exe.buf.toNat + (buffer img).length < 2 ^ 64 := by
  have hfits := hexe.fits
  rw [hexe.size] at hfits
  rw [buffer, List.length_take]
  omega

theorem SymTab.takenFrom_length (t : SymTab) (b : List Byte) (buf : Addr) (j n : Nat) :
    (t.takenFrom b buf j n).length ≤ n := by
  induction n generalizing j with
  | zero => exact Nat.le_refl 0
  | succ n ih =>
    have hone := t.taken_length b buf j
    have hrest := ih (j + 1)
    rw [SymTab.takenFrom_succ, List.length_append]
    omega

/-- A file that was opened, and gone through to the end of its table, has the table and all its symbols. -/
theorem accepted_of_parsed (hk : Serves kmalloc) (hlen : (buffer img).length < 2 ^ 31) (hexe : exe.Reads img)
    (hm : Mapped ⟨mapper, σ⟩ table p a) (hint : table.length ≤ 2 ^ 30) (hmagic : ELFMAG <+: buffer img)
    (hheaders : HeadersIn (buffer img)) {fuel : Nat} {sym : Addr} {r : Option Nat × Store}
    (hfirst : elfFirstsym (exe.handle (buffer img)) = .ok sym)
    (h : parseSymbols kmalloc (exe.handle (buffer img)) fuel sym mapper σ = some (.ok r)) :
    Accepted (buffer img) exe.buf := by
  obtain ⟨hbuf, hmaddr, hlast, hnone⟩ := exe.handle_eq (buffer img)
  have hfit := hexe.buffer_fits
  rw [← hbuf] at hfit ⊢
  by_cases hany : ∃ i < eShnum (buffer img), shdrField (buffer img) i 4 4 = shtSymtab
  · obtain ⟨i, hi, htype⟩ := hany
    obtain ⟨k, hl⟩ :=
      exists_lastOf (P := fun i => shdrField (buffer img) i 4 4 = shtSymtab) (List.mem_range.mpr hi) htype
    have hsym := hlast k hl
    obtain rfl := Except.ok.inj ((elfFirstsym_eq hsym).symm.trans hfirst)
    have hstart : (tableAt (buffer img) k).symtab.toNat + 24 * 0 < 2 ^ 64 := (tableAt (buffer img) k).symtab.isLt
    refine ⟨hmagic, hheaders, k, hl, fun j hj => ?_⟩
    exact symbols_in_of_ok hk hlen hfit hmaddr hsym h hm hint hstart j (Nat.zero_le j) (Or.inr hj)
  · -- No section has set the pointer.
    have hsym := hnone fun i hi htype => hany ⟨i, hi, htype⟩
    simp [elfFirstsym, ElfObj.table, hsym, Except.map] at hfirst

/-- An accepted file is gone through to the end of its table. -/
theorem Accepted.parsed (hk : Serves kmalloc) (hlen : (buffer img).length < 2 ^ 31) (hexe : exe.Reads img)
    (hm : Mapped ⟨mapper, σ⟩ table p a) (hint : table.length ≤ 2 ^ 30) (h : Accepted (buffer img) exe.buf) :
    ∃ sym fuel r, elfFirstsym (exe.handle (buffer img)) = .ok sym ∧
      parseSymbols kmalloc (exe.handle (buffer img)) fuel sym mapper σ = some (.ok r) := by
  obtain ⟨hbuf, hmaddr, hlast, -⟩ := exe.handle_eq (buffer img)
  obtain ⟨k, hl, hin⟩ := h.symbols
  have hfit := hexe.buffer_fits
  have hsym := hlast k hl
  rw [← hbuf] at hfit hin
  obtain ⟨n, hn⟩ : ∃ n, 0 + (n + 1) = (tableAt (buffer img) k).count (exe.handle (buffer img)).buf :=
    ⟨(tableAt (buffer img) k).count (exe.handle (buffer img)).buf - 1, by rw [SymTab.count]; omega⟩
  have hend := (hin n (by omega)).entry
  have hlength := (tableAt (buffer img) k).takenFrom_length (buffer img) (exe.handle (buffer img)).buf 0 (n + 1)
  have hroom :
      (table ++ (tableAt (buffer img) k).takenFrom (buffer img) (exe.handle (buffer img)).buf 0 (n + 1)).length ≤
      2 ^ 31 := by
    rw [List.length_append]
    omega
  obtain ⟨mapper', σ', p', a', hloop, -⟩ := parseSymbols_ok hk hlen hfit hmaddr hsym hin hn hm hroom
  exact ⟨_, n + 1, (mapper', σ'), elfFirstsym_eq hsym, hloop (n + 1) (Nat.le_refl _)⟩

/-- For every content of an executable that is at least as large as an ELF header, `parse` stays inside the file and
    uses set pointers only if and only if the buffer is allocated and the file is refused for its first bytes or allows
    all the reads. -/
theorem parse_safe_iff (hk : Serves kmalloc)
    (hlarge : ∀ n bytes, kmalloc n (.image bytes) = true → bytes.toNat < 2 ^ 63) (hexe : exe.Reads img)
    (hsize : 64 ≤ img.length) (hm : Mapped ⟨mapper, σ⟩ table p a) (hint : table.length ≤ 2 ^ 30) :
    Safe kmalloc exe mapper σ ↔ kmalloc σ.skip.next (.image (exe.mlen.signExtend 64)) = true ∧
      (Refused (buffer img) ∨ Accepted (buffer img) exe.buf) := by
  have hhandle : kmalloc σ.next .handle = true := hk _ _ fun bytes h => by cases h
  constructor
  · rintro ⟨fuel, r, h⟩
    rw [parse] at h
    cases hopen : elfOpen kmalloc exe σ with
    | error f =>
      rw [hopen] at h
      cases h
    | ok x =>
      rw [hopen] at h
      obtain ⟨himage, ⟨hcmp, rfl⟩ | ⟨hcmp, hheaders, rfl⟩⟩ := (elfOpen_eq_ok hhandle hexe hsize).mp hopen
      · exact ⟨himage, Or.inl (strncmp_eq_true.mp hcmp)⟩
      · cases hfirst : elfFirstsym (exe.handle (buffer img)) with
        | error f => simp [hfirst] at h
        | ok sym =>
          simp only [hfirst] at h
          have hlen := hexe.buffer_lt (hlarge _ _ himage)
          exact ⟨himage,
            Or.inr (accepted_of_parsed hk hlen hexe hm.skip.skip hint (strncmp_eq_false.mp hcmp) hheaders hfirst h)⟩
  · rintro ⟨himage, hrefused | haccepted⟩
    · have hopen := (elfOpen_eq_ok hhandle hexe hsize).mpr ⟨himage, Or.inl ⟨strncmp_eq_true.mpr hrefused, rfl⟩⟩
      exact ⟨0, _, by rw [parse, hopen]⟩
    · have hopen := (elfOpen_eq_ok hhandle hexe hsize).mpr
        ⟨himage, Or.inr ⟨strncmp_eq_false.mpr haccepted.magic, haccepted.headers, rfl⟩⟩
      obtain ⟨sym, fuel, r, hfirst, hloop⟩ :=
        haccepted.parsed hk (hexe.buffer_lt (hlarge _ _ himage)) hexe hm.skip.skip hint
      refine ⟨fuel, r, ?_⟩
      rw [parse, hopen]
      simp only [hfirst]
      exact hloop

/-- A well-formed image is one of the files that are accepted. -/
theorem WellFormed.accepted {k : Nat} {buf : Addr} (h : WellFormed img k) (hfit : buf.toNat + img.length < 2 ^ 64) :
    Accepted img buf where
  magic := h.magic_prefix
  headers := h.headers_in
  symbols := by
    refine ⟨k, h.last_symtab, fun j hj => ?_⟩
    rw [h.table_eq] at hj ⊢
    exact h.symbol_in (h.count_eq hfit ▸ hj)

end Safe

/-- A `kmalloc` that serves everything but the sizes that no memory has. -/
def roomy : Kmalloc
  | _, .image bytes => decide (bytes.toNat < 2 ^ 63)
  | _, _ => true

theorem roomy_serves : Serves roomy := by
  intro n r hr
  cases r with
  | image bytes => exact absurd rfl (hr bytes)
  | _ => rfl

theorem roomy_mapper : ∃ mapper σ a, initMapper roomy Store.empty 8 = .ok (mapper, σ) ∧ Mapped ⟨mapper, σ⟩ [] 0 a := by
  obtain ⟨mapper, σ, hinit, hmapped⟩ := initMapper_ok (n := 8) roomy Store.empty (by decide) (by decide)
  obtain ⟨rfl, -⟩ :=
    Prod.mk.inj (Except.ok.inj (hinit.symm.trans (rfl : initMapper roomy Store.empty 8 = .ok (some 0, _))))
  obtain ⟨a, ha⟩ := hmapped 0 rfl
  exact ⟨some 0, σ, a, hinit, ha⟩

/-- The small executable is gone through to its end. -/
theorem parse_safe_sample :
    ∃ mapper σ, initMapper roomy Store.empty 8 = .ok (mapper, σ) ∧ Safe roomy sampleExe mapper σ := by
  obtain ⟨mapper, σ, a, hinit, hm⟩ := roomy_mapper
  have haccepted : Accepted (buffer sampleElf) sampleExe.buf := by
    rw [sampleElf_wellFormed.buffer_eq]
    exact sampleElf_wellFormed.accepted (by decide +kernel)
  refine ⟨mapper, σ, hinit, (parse_safe_iff roomy_serves (fun n bytes h => of_decide_eq_true h) sampleExe_reads
    sampleElf_wellFormed.ehdr hm (Nat.zero_le _)).mpr ⟨rfl, Or.inr haccepted⟩⟩

/-- An ELF header that no section follows. -/
def headerExe : ExeFile :=
  { fileOpen := true, vfsFstat := (0, 64), buf := 0x1000, fileRead := ELFMAG ++ List.replicate 60 0 }

/-- No section sets `symtab`, and `parse` follows the pointer. -/
theorem header_unsafe : ∃ mapper σ, initMapper roomy Store.empty 8 = .ok (mapper, σ) ∧
    (∀ fuel, parse roomy fuel headerExe mapper σ = some (.error .nullDeref)) ∧ ¬Safe roomy headerExe mapper σ := by
  obtain ⟨mapper, σ, -, hinit, -⟩ := roomy_mapper
  have hcrash : ∀ fuel, parse roomy fuel headerExe mapper σ = some (.error .nullDeref) := fun fuel => rfl
  refine ⟨mapper, σ, hinit, hcrash, ?_⟩
  rintro ⟨fuel, r, h⟩
  cases (hcrash fuel).symm.trans h

end StackVault.Elf
