import StackVault.Theorems.Accounted

/-! Chains that leave the saved segments. The look-up of an entry's first cell is checked, and a list whose
    entry has no such cell is given up there; the look-ups of the later cells are followed as they are. -/

namespace StackVault
open Memory

/-- `r` is the first of the ranges that lies in no segment. -/
def FirstOutside (segs : List StackBuf) (rs : List Span) (r : Span) : Prop :=
  ∃ done, done ++ [r] <+: rs ∧ SavedOf.Lies segs done ∧ ¬∃ e ∈ segs, e.HasRange r

namespace User

/-- From entry number `i` at `c`, the loop comes to entry number `n` at `d`. -/
inductive Comes (env : Env) (sbuf : Option SbufPtr) (arg : Addr) : Nat → Chase → Nat → Chase → Prop where
  | here (i : Nat) (c : Chase) : Comes env sbuf arg i c i c
  | value {i n : Nat} {c d : Chase} (hi : i < sizeAt c.mem arg)
      (h0 : depthAt c.mem (entryAddr (plistAt c.mem arg) i) = 0)
      (rest : Comes env sbuf arg (i + 1) c n d) : Comes env sbuf arg i c n d
  | passed {i n fuel : Nat} {c c' d : Chase} (hi : i < sizeAt c.mem arg)
      (h0 : depthAt c.mem (entryAddr (plistAt c.mem arg) i) ≠ 0)
      (h : restorePointer env sbuf fuel (entryAddr (plistAt c.mem arg) i) c = some (.ok (true, c')))
      (rest : Comes env sbuf arg (i + 1) c' n d) : Comes env sbuf arg i c n d

/-- It comes there to an entry with a depth. -/
structure PointerMet (env : Env) (sbuf : Option SbufPtr) (arg : Addr) (c : Chase) (n : Nat) (d : Chase) (tmp : Para) :
    Prop where
  comes : Comes env sbuf arg 0 c n d
  bound : n < sizeAt d.mem arg
  entry : paraAt d.mem (entryAddr (plistAt d.mem arg) n) = tmp
  pointer : tmp.pointer ≠ 0

end User

/-- When the chase comes to an entry with a cell in no segment, the call returns -1, and the entry has not written the
    first such cell back: no byte of it has changed, unless the entry counts its depth down there. -/
def ReportsOutside (m : Mem) (p : SbufPtr) (b : Sbuf) (arg : Addr) (c : Chase) : Prop :=
  ∀ env n d tmp r, User.PointerMet env (some p) arg c n d tmp →
    FirstOutside b.segs (cells m tmp.pointer.toNat tmp.addr) r →
    ∃ fuel e ws, User.restorePointers env (some p) arg fuel c = some (.ok (-1, e)) ∧ e.written = d.written ++ ws ∧
      r ∉ ws ∧ ∀ x ∈ r, x ∉ depthSpan (entryAddr (plistAt d.mem arg) n) → e.mem x = d.mem x

/-- Every entry that the chase comes to, as the list has it then, has its first cell not found or all its cells in
    segments. -/
def Attends (m : Mem) (p : SbufPtr) (b : Sbuf) (arg : Addr) (c : Chase) : Prop :=
  ∀ env n d tmp, User.PointerMet env (some p) arg c n d tmp →
    findInStackBuf tmp.addr 8 b.segs = 0 ∨ SavedOf.Lies b.segs (cells m tmp.pointer.toNat tmp.addr)

/-- The head of the list is apart from its depths, and the chase of the list as a value writes no byte of it. -/
structure SparesList (p : SbufPtr) (b : Sbuf) (arg : Addr) (m : Mem) : Prop where
  formed : Formed arg m
  clear : (callTrail p b (listAt arg m)).Logs (Clear arg m)

/-- Up to the first entry whose first cell is not found, every entry that the chase comes to has all its cells in
    segments. -/
def Resolves (segs : List StackBuf) (home : Prop) (m : Mem) : List Para → Prop
  | [] => True
  | tmp :: rest =>
    if tmp.pointer = 0 then Resolves segs home m rest
    else if findInStackBuf tmp.addr 8 segs = 0 then True
    else SavedOf.Lies segs (cells m tmp.pointer.toNat tmp.addr) ∧
      -- The chase goes on when the look-ups come to its cells, after a target that is not found or can be read.
      (home → SavedOf.Lies (reached segs) (cells m tmp.pointer.toNat tmp.addr) →
        (findInStackBuf (follow m tmp.pointer.toNat tmp.addr) tmp.size segs = 0 ∨
          Found segs ⟨follow m tmp.pointer.toNat tmp.addr, tmp.size⟩) → Resolves segs home m rest)

section Trails
variable {m : Mem} {segs : List StackBuf} {home : Prop} [Decidable home] {x y size : Addr} {r : Span} {n : Nat}
  {tmp : Para} {plt post plt' : List Para}

/-! ### Entries with a cell outside -/

theorem writeBackTrail_cases (segs : List StackBuf) (home : Prop) [Decidable home] (r : Span) :
    (∃ f, (writeBackTrail segs home r).result = .error f) ∨ r ∈ (writeBackTrail segs home r).log := by
  unfold writeBackTrail
  cases lookUp segs r with
  | error f => exact Or.inl ⟨f, rfl⟩
  | ok src => exact Or.inr List.mem_cons_self

theorem cellTrail_cases (segs : List StackBuf) (home : Prop) [Decidable home] (x : Addr) :
    (∃ f, (cellTrail segs home x).result = .error f) ∨ ⟨x, 8⟩ ∈ (cellTrail segs home x).log := by
  rcases writeBackTrail_cases segs home ⟨x, 8⟩ with ⟨f, hf⟩ | hr
  · exact Or.inl ⟨f, by rw [cellTrail, Trail.bind_of_error hf]⟩
  · exact Or.inr (Trail.mem_log_bind_left hr)

/-- A range in a segment is found if and only if it lies in one that the look-up comes to. -/
theorem SavedOf.find_ne_zero_iff (h : SavedOf m segs) (hin : ∃ e ∈ segs, e.HasRange r) :
    findInStackBuf r.start r.len segs ≠ 0 ↔ ∃ e ∈ reached segs, e.HasRange r := by
  refine ⟨fun hne => ?_, fun ⟨e, he, hr⟩ => h.find_ne_zero he hr⟩
  obtain ⟨e, he, -, hup⟩ := hin
  have hspan := h.span e he
  obtain ⟨f, hf, hflo, hfup, -⟩ := findInSegs_inv hne
  refine ⟨f, hf, BitVec.le_def.mp hflo, ?_⟩
  have hsum : (r.start + r.len).toNat = r.start.toNat + r.len.toNat := by
    rw [BitVec.toNat_add, Nat.mod_eq_of_lt (lt_of_le_of_lt hup hspan)]
  have hfsum : (f.start + f.len).toNat = f.start.toNat + f.len.toNat := by
    rw [BitVec.toNat_add, Nat.mod_eq_of_lt (h.span f (mem_of_reached hf))]
  rw [BitVec.le_def, hsum, hfsum] at hfup
  exact hfup

/-- A cell in a segment that the look-up does not come to is not found. -/
theorem SavedOf.cell_unreached (h : SavedOf m segs) (home : Prop) [Decidable home]
    (hin : ∃ e ∈ segs, e.HasRange ⟨x, 8⟩) (hout : ¬∃ e ∈ reached segs, e.HasRange ⟨x, 8⟩) :
    (cellTrail segs home x).result = .error .nullDeref := by
  have hzero : findInStackBuf x 8 segs = 0 := not_not.mp fun hne => hout ((h.find_ne_zero_iff hin).mp hne)
  have hlook : StackVault.lookUp segs ⟨x, 8⟩ = .error .nullDeref := by
    unfold StackVault.lookUp kread
    rw [if_pos hzero]
  rw [cellTrail, Trail.bind_of_error (e := .nullDeref)]
  unfold writeBackTrail
  rw [hlook]

/-- The chase of cells that do not all lie in segments faults, or writes the first one that does not. -/
theorem SavedOf.chase_outside (h : SavedOf m segs) (home : Prop) [Decidable home] : ∀ {n : Nat} {x : Addr},
    ¬Lies segs (cells m n x) → ∃ r, FirstOutside segs (cells m n x) r ∧
      ((∃ f, (chaseTrail segs home n x).result = .error f) ∨ r ∈ (chaseTrail segs home n x).log)
  | 0, _, hout => absurd (fun _ hr => (List.not_mem_nil hr).elim) hout
  | n + 1, x, hout => by
    by_cases hx : ∃ e ∈ segs, e.HasRange ⟨x, 8⟩
    · obtain ⟨r, ⟨done, hdone, hlies, hr⟩, hcase⟩ :=
        h.chase_outside home fun hrest => hout (lies_cons.mpr ⟨hx, hrest⟩)
      refine ⟨r, ⟨⟨x, 8⟩ :: done, List.cons_prefix_cons.mpr ⟨rfl, hdone⟩, lies_cons.mpr ⟨hx, hlies⟩, hr⟩, ?_⟩
      unfold chaseTrail
      by_cases hreach : ∃ e ∈ reached segs, e.HasRange ⟨x, 8⟩
      · by_cases hh : home
        · rw [h.cell hh hreach, Trail.bind_mk_ok]
          exact hcase.imp_right (List.mem_cons_of_mem _)
        · exact Or.inl ⟨_, by rw [Trail.bind_of_error (h.cell_unhomed hh hreach)]⟩
      · exact Or.inl ⟨_, by rw [Trail.bind_of_error (h.cell_unreached home hx hreach)]⟩
    · refine ⟨⟨x, 8⟩, ⟨[], List.cons_prefix_cons.mpr ⟨rfl, List.nil_prefix⟩, ?_, hx⟩, ?_⟩
      · exact fun _ hr => (List.not_mem_nil hr).elim
      · unfold chaseTrail
        rcases cellTrail_cases segs home x with ⟨f, hf⟩ | hr
        · exact Or.inl ⟨f, by rw [Trail.bind_of_error hf]⟩
        · exact Or.inr (Trail.mem_log_bind_left hr)

/-! ### The list up to such an entry -/

theorem pointersTrail_value (h0 : tmp.pointer = 0) : pointersTrail segs home (tmp :: plt) =
    ⟨(pointersTrail segs home plt).log, (pointersTrail segs home plt).result.map fun x => (x.1, tmp :: x.2)⟩ := by
  rw [pointersTrail, if_pos h0, Trail.bind_pure_map]

theorem pointersTrail_found (h0 : tmp.pointer ≠ 0) (ht : (pointerTrail segs home tmp).result = .ok true) :
    pointersTrail segs home (tmp :: plt) =
      ⟨(pointerTrail segs home tmp).log ++ (pointersTrail segs home plt).log,
        (pointersTrail segs home plt).result.map fun x => (x.1, { tmp with pointer := 0 } :: x.2)⟩ := by
  rw [pointersTrail, if_neg h0, Trail.bind_of_ok ht, if_pos rfl, Trail.bind_pure_map]

/-- A chase that passed a list has passed each of its entries. -/
theorem pointersTrail_cons_ok (h0 : tmp.pointer ≠ 0)
    (hok : (pointersTrail segs home (tmp :: plt)).result = .ok (0, plt')) :
    (pointerTrail segs home tmp).result = .ok true ∧
    ∃ rest', (pointersTrail segs home plt).result = .ok (0, rest') := by
  rw [pointersTrail, if_neg h0] at hok
  obtain ⟨found, hfound, hok⟩ := Trail.bind_result_eq_ok hok
  cases found with
  | false => cases hok
  | true =>
    refine ⟨hfound, ?_⟩
    rw [if_pos rfl] at hok
    obtain ⟨⟨ret, rest'⟩, hx, hok⟩ := Trail.bind_result_eq_ok hok
    cases hok
    exact ⟨rest', hx⟩

/-- Behind entries that it has passed, the chase goes on with the rest of the list. -/
theorem pointersTrail_append : ∀ {pre pre' : List Para}, (pointersTrail segs home pre).result = .ok (0, pre') →
    pointersTrail segs home (pre ++ post) = ⟨(pointersTrail segs home pre).log ++ (pointersTrail segs home post).log,
      (pointersTrail segs home post).result.map fun x => (x.1, pre' ++ x.2)⟩
  | [], pre', hok => by
    cases hok
    rw [List.nil_append, pointersTrail, Trail.pure_log, List.nil_append]
    cases hp : pointersTrail segs home post with
    | mk log result => cases result <;> rfl
  | tmp :: pre, pre', hok => by
    rw [List.cons_append]
    by_cases h0 : tmp.pointer = 0
    · rw [pointersTrail_value h0] at hok ⊢
      obtain ⟨⟨ret, rest'⟩, hx, hx'⟩ := map_eq_ok.mp hok
      cases hx'
      rw [pointersTrail_value h0, pointersTrail_append hx]
      cases (pointersTrail segs home post).result <;> rfl
    · obtain ⟨hpass, rest', hrest⟩ := pointersTrail_cons_ok h0 hok
      rw [pointersTrail_found h0 hpass, hrest] at hok
      cases hok
      rw [pointersTrail_found h0 hpass, pointersTrail_found h0 hpass, pointersTrail_append hrest, List.append_assoc]
      cases (pointersTrail segs home post).result <;> rfl

/-- A chase that passed cells in segments has come to all of them. -/
theorem SavedOf.chase_reached (h : SavedOf m segs) : ∀ {n : Nat} {x : Addr}, Lies segs (cells m n x) →
    (chaseTrail segs home n x).result = .ok y → Lies (reached segs) (cells m n x)
  | 0, _, _, _ => fun _ hr => (List.not_mem_nil hr).elim
  | n + 1, x, hlies, hok => by
    obtain ⟨hx, hrest⟩ := lies_cons.mp hlies
    obtain ⟨z, hz, hok⟩ := Trail.bind_result_eq_ok hok
    have hreach : ∃ e ∈ reached segs, e.HasRange ⟨x, 8⟩ := by
      by_contra hout
      rw [h.cell_unreached home hx hout] at hz
      cases hz
    have hh : home := by
      by_contra hh
      rw [h.cell_unhomed hh hreach] at hz
      cases hz
    rw [h.cell hh hreach] at hz
    cases hz
    exact lies_cons.mpr ⟨hreach, h.chase_reached hrest hok⟩

/-- An entry that was passed had its cells found and its target missing or readable. -/
theorem SavedOf.pointer_passed (h : SavedOf m segs) (h0 : tmp.pointer ≠ 0)
    (hlies : Lies segs (cells m tmp.pointer.toNat tmp.addr))
    (hok : (pointerTrail segs home tmp).result = .ok true) :
    home ∧ Lies (reached segs) (cells m tmp.pointer.toNat tmp.addr) ∧
      (findInStackBuf (follow m tmp.pointer.toNat tmp.addr) tmp.size segs = 0 ∨
        Found segs ⟨follow m tmp.pointer.toNat tmp.addr, tmp.size⟩) := by
  have hfirst : findInStackBuf tmp.addr 8 segs ≠ 0 := fun hzero => by
    rw [pointerTrail, if_pos hzero] at hok
    cases hok
  rw [pointerTrail_found segs home h0 hfirst] at hok
  obtain ⟨y, hchase, hok⟩ := Trail.bind_result_eq_ok hok
  have hreach := h.chase_reached hlies hchase
  obtain ⟨e, he, hrange⟩ := hreach _ (first_mem_cells h0)
  obtain ⟨k, hk⟩ := Nat.exists_eq_succ_of_ne_zero fun hn : tmp.pointer.toNat = 0 => h0 (BitVec.eq_of_toNat_eq hn)
  have hh : home := by
    by_contra hh
    rw [hk, chaseTrail, Trail.bind_of_error (h.cell_unhomed hh ⟨e, he, hrange⟩)] at hchase
    cases hchase
  refine ⟨hh, hreach, or_iff_not_imp_left.mpr fun htarget => ?_⟩
  rw [h.chase hh hreach] at hchase
  cases hchase
  obtain ⟨u, hu, -⟩ := Trail.bind_result_eq_ok hok
  rw [targetTrail, if_neg htarget] at hu
  obtain ⟨src, hsrc, -⟩ := Trail.bind_result_eq_ok hu
  exact ⟨src, writeBackTrail_ok hsrc⟩

/-- Conversely, such an entry is passed. -/
theorem SavedOf.pointer_passes (h : SavedOf m segs) (hh : home) (h0 : tmp.pointer ≠ 0)
    (hlies : Lies (reached segs) (cells m tmp.pointer.toNat tmp.addr))
    (htarget : findInStackBuf (follow m tmp.pointer.toNat tmp.addr) tmp.size segs = 0 ∨
      Found segs ⟨follow m tmp.pointer.toNat tmp.addr, tmp.size⟩) :
    (pointerTrail segs home tmp).result = .ok true := by
  obtain ⟨e, he, hrange⟩ := hlies _ (first_mem_cells h0)
  have hend : ∃ log, targetTrail segs home (follow m tmp.pointer.toNat tmp.addr) tmp.size = ⟨log, .ok ()⟩ := by
    unfold targetTrail
    split
    · exact ⟨[], rfl⟩
    · next hne =>
      obtain ⟨src, hl⟩ := htarget.resolve_left hne
      refine ⟨[⟨follow m tmp.pointer.toNat tmp.addr, tmp.size⟩], ?_⟩
      rw [writeBackTrail, hl]
      simp only [if_pos hh]
      rfl
  obtain ⟨log, hend⟩ := hend
  rw [pointerTrail_found segs home h0 (h.find_ne_zero he hrange), h.chase hh hlies, Trail.bind_mk_ok, hend,
    Trail.bind_mk_ok]
  rfl

/-- Where the list does not resolve, the chase comes to an entry with a cell outside, and faults there or writes that
    cell. -/
theorem SavedOf.pointers_go_on (h : SavedOf m segs) : ∀ {plt : List Para}, ¬Resolves segs home m plt →
    ∃ pre tmp post r pre', plt = pre ++ tmp :: post ∧ tmp.pointer ≠ 0 ∧
      FirstOutside segs (cells m tmp.pointer.toNat tmp.addr) r ∧ (pointersTrail segs home pre).result = .ok (0, pre') ∧
      ∀ plt', (pointersTrail segs home plt).result = .ok (-1, plt') →
        ∃ ws, (pointersTrail segs home plt).log = (pointersTrail segs home pre).log ++ ws ∧ r ∈ ws
  | [], hres => absurd trivial hres
  | t :: rest, hres => by
    rw [Resolves] at hres
    by_cases ht : t.pointer = 0
    · rw [if_pos ht] at hres
      obtain ⟨pre, tmp, post, r, pre', rfl, h0, hr, hpre, hlog⟩ := h.pointers_go_on hres
      refine ⟨t :: pre, tmp, post, r, t :: pre', rfl, h0, hr, ?_, fun plt' hok => ?_⟩
      · rw [pointersTrail_value ht, hpre]
        rfl
      · rw [pointersTrail_value ht] at hok ⊢
        rw [pointersTrail_value ht]
        obtain ⟨⟨ret, rest'⟩, hx, hx'⟩ := map_eq_ok.mp hok
        cases hx'
        exact hlog _ hx
    · rw [if_neg ht] at hres
      split at hres
      · exact absurd trivial hres
      · next hfind =>
        by_cases hlies : Lies segs (cells m t.pointer.toNat t.addr)
        · have hstops := not_and.mp hres hlies
          obtain ⟨hh, hstops⟩ := Classical.not_imp.mp hstops
          obtain ⟨hreach, hstops⟩ := Classical.not_imp.mp hstops
          obtain ⟨htarget, hlater⟩ := Classical.not_imp.mp hstops
          have hpass := h.pointer_passes hh ht hreach htarget
          obtain ⟨pre, tmp, post, r, pre', rfl, h0, hr, hpre, hlog⟩ := h.pointers_go_on hlater
          refine ⟨t :: pre, tmp, post, r, { t with pointer := 0 } :: pre', rfl, h0, hr, ?_, fun plt' hok => ?_⟩
          · rw [pointersTrail_found ht hpass, hpre]
            rfl
          · rw [pointersTrail_found ht hpass] at hok ⊢
            rw [pointersTrail_found ht hpass]
            obtain ⟨⟨ret, rest'⟩, hx, hx'⟩ := map_eq_ok.mp hok
            cases hx'
            obtain ⟨ws, hlog, hmem⟩ := hlog _ hx
            exact ⟨ws, by rw [hlog, List.append_assoc], hmem⟩
        · obtain ⟨r, hr, hcase⟩ := h.chase_outside home hlies
          refine ⟨[], t, rest, r, [], rfl, ht, hr, rfl, fun plt' hok => ⟨_, rfl, ?_⟩⟩
          rw [pointersTrail, if_neg ht, pointerTrail_found segs home ht hfind] at hok ⊢
          rcases hcase with ⟨f, hf⟩ | hlog
          · rw [Trail.bind_of_error (e := f) (by rw [Trail.bind_of_error hf])] at hok
            cases hok
          · exact Trail.mem_log_bind_left (Trail.mem_log_bind_left hlog)

end Trails

/-! ### The loop in memory -/

namespace User
section Comes
variable {env : Env} {sbuf : Option SbufPtr} {arg t : Addr} {c d : Chase} {i n fuel : Nat}

/-- What the loop does from there on, it does from the start. -/
theorem Comes.run {r : Except Crash (Int × Chase)} (h : Comes env sbuf arg i c n d)
    (hr : restoreFrom env sbuf arg fuel n d = some r) : ∃ fuel, restoreFrom env sbuf arg fuel i c = some r := by
  induction h with
  | here => exact ⟨fuel, hr⟩
  | value hi h0 _ ih =>
    obtain ⟨k, hk⟩ := ih hr
    refine ⟨k + 1, ?_⟩
    unfold restoreFrom
    rw [if_pos hi]
    dsimp only
    rw [if_pos h0]
    exact hk
  | @passed i n k₀ c c' d hi h0 h _ ih =>
    obtain ⟨k, hk⟩ := ih hr
    refine ⟨max k₀ k + 1, ?_⟩
    unfold restoreFrom
    rw [if_pos hi]
    dsimp only
    rw [if_neg h0, restorePointer_mono (Nat.le_max_left k₀ k) h]
    exact restoreFrom_mono (Nat.le_max_right k₀ k) hk

theorem Comes.reaches (h : Comes env sbuf arg i c n d) : ∃ ts, Reaches env sbuf c ts d := by
  induction h with
  | here => exact ⟨[], .start⟩
  | value _ _ _ ih => exact ih
  | passed _ _ h _ ih =>
    obtain ⟨k, hk⟩ := restorePointer_reaches h
    obtain ⟨ts, hts⟩ := ih
    exact ⟨_, hk.trans hts⟩

/-- An entry whose first cell is not found is given up: the call has only counted its depth down. -/
theorem PointerMet.given_up {p : SbufPtr} {b : Sbuf} {tmp : Para} (h : PointerMet env (some p) arg c n d tmp)
    (hb : c.heap.sbufs p = some b) (hfind : findInStackBuf tmp.addr 8 b.segs = 0) :
    ∃ fuel, restorePointers env (some p) arg fuel c =
      some (.ok (-1, countDown (entryAddr (plistAt d.mem arg) n) d)) := by
  obtain ⟨ts, hts⟩ := h.comes.reaches
  obtain ⟨b', hb', hsame⟩ := hts.holed.here b hb
  have haddr : load64 d.mem (entryAddr (plistAt d.mem arg) n) = tmp.addr := congrArg Para.addr h.entry
  have h0 : depthAt d.mem (entryAddr (plistAt d.mem arg) n) ≠ 0 := fun h0 =>
    h.pointer ((congrArg Para.pointer h.entry).symm.trans h0)
  have hheap : (countDown (entryAddr (plistAt d.mem arg) n) d).heap.deref (some p) = .ok (p, b') := Heap.deref_some hb'
  suffices hend : restoreFrom env (some p) arg 1 n d =
      some (.ok (-1, countDown (entryAddr (plistAt d.mem arg) n) d)) from h.comes.run hend
  unfold restoreFrom
  rw [if_pos h.bound]
  dsimp only
  rw [if_neg h0]
  unfold restorePointer
  dsimp only
  rw [hheap, haddr]
  dsimp only
  rw [if_pos (hsame.find tmp.addr 8 ▸ hfind)]

end Comes
end User

section Loop
variable {env : Env} {arg : Addr} {m₀ m : Mem} {p : SbufPtr} {b : Sbuf} {c₀ d e : Chase} {i n : Nat}

/-- Where the list resolves, what is left of it does when the loop comes to a later entry. -/
theorem SavedOf.comes_resolves (h : SavedOf m b.segs) (hform : Formed arg m₀)
    (hcomes : User.Comes env (some p) arg i d n e) :
    ∀ {pre rest : List Para} {ws : List Span}, pre.length = i → Tracks arg m₀ (pre ++ rest) (Chase.after p b c₀ ws) d →
      Resolves b.segs ((b.entry 0).holeList.home = (p, 0)) m rest → (callTrail p b rest).Logs (Clear arg m₀) →
      ∃ pre' rest' ws', pre'.length = n ∧ Tracks arg m₀ (pre' ++ rest') (Chase.after p b c₀ ws') e ∧
        Resolves b.segs ((b.entry 0).holeList.home = (p, 0)) m rest' := by
  induction hcomes with
  | here => exact fun hi ht hres _ => ⟨_, _, _, hi, ht, hres⟩
  | @value i n d e hi h0 _ ih =>
    rintro pre rest ws rfl ht hres hlog
    obtain ⟨tmp, rest, rfl, hentry⟩ := ht.next hi
    have hdepth : tmp.pointer = 0 := (congrArg Para.pointer hentry).symm.trans h0
    rw [Resolves, if_pos hdepth] at hres
    rw [callTrail, pointersTrail_value hdepth] at hlog
    rw [List.append_cons] at ht
    exact ih (by rw [List.length_append, List.length_singleton]) ht hres hlog
  | @passed i n k₀ d d' e hi h0 hstep _ ih =>
    rintro pre rest ws rfl ht hres hlog
    obtain ⟨tmp, rest, rfl, hentry⟩ := ht.next hi
    have hdepth : tmp.pointer ≠ 0 := fun hz => h0 ((congrArg Para.pointer hentry).trans hz)
    have hpointer : (pointerTrail b.segs ((b.entry 0).holeList.home = (p, 0)) tmp).Logs (Clear arg m₀) := by
      rw [callTrail, pointersTrail, if_neg hdepth] at hlog
      exact hlog.of_bind.1
    obtain ⟨r, hr, hends⟩ := restorePointer_follows env hform hdepth (Nat.le_max_left _ k₀) ht hpointer
    rw [← ht.plist, User.restorePointer_mono (Nat.le_max_right _ k₀) hstep] at hr
    obtain rfl := Option.some.inj hr
    have htell : restorePointer env (some p) tmp (Chase.after p b c₀ ws) = _ := restorePointer_tell
    cases hc : restorePointer env (some p) tmp (Chase.after p b c₀ ws) with
    | error f =>
      rw [hc] at hends
      obtain ⟨_, hw, -⟩ := hends.of_error
      cases hw
    | ok u =>
      rw [hc] at hends htell
      obtain ⟨w, hw, hcase⟩ := hends.of_ok
      cases hw
      rcases hcase with ⟨-, hfound, -⟩ | ⟨c', rfl, -, htracks⟩
      · cases hfound
      · obtain ⟨⟨found, c''⟩, hs, hsome⟩ := map_eq_ok.mp htell.symm
        obtain ⟨hpass, hafter, -⟩ := Trail.tellWhile_eq_ok hs
        cases found with
        | false => cases hsome
        | true =>
          obtain rfl : c'' = c' := Option.some.inj hsome
          dsimp only at hpass hafter
          rw [Resolves, if_neg hdepth] at hres
          split at hres
          · next hfind =>
            rw [pointerTrail, if_pos hfind] at hpass
            cases hpass
          · obtain ⟨hlies, hlater⟩ := hres
            obtain ⟨hh, hreach, htarget⟩ := h.pointer_passed hdepth hlies hpass
            rw [callTrail, pointersTrail_found hdepth hpass] at hlog
            rw [hafter, List.append_cons] at htracks
            exact ih (by rw [List.length_append, List.length_singleton]) htracks (hlater hh hreach htarget)
              fun r hr => hlog r (List.mem_append_right _ hr)

/-- Entries that the chase passes are passed in memory, when each hole can be recorded. -/
theorem comes_of_passed (halloc : env.AllocOk) (hform : Formed arg m₀) :
    ∀ {pre rest rest' post : List Para} {ws : List Span} {d : Chase},
    Tracks arg m₀ (pre ++ (rest ++ post)) (Chase.after p b c₀ ws) d → (callTrail p b rest).Logs (Clear arg m₀) →
    (callTrail p b rest).result = .ok (0, rest') →
    ∃ e, User.Comes env (some p) arg pre.length d (pre.length + rest.length) e ∧ rest'.length = rest.length ∧
      Tracks arg m₀ (pre ++ (rest' ++ post)) (Chase.after p b c₀ (ws ++ (callTrail p b rest).log)) e
  | pre, [], rest', post, ws, d, ht, _, hok => by
    cases hok
    refine ⟨d, .here _ d, rfl, ?_⟩
    rw [callTrail, pointersTrail, Trail.pure_log, List.append_nil]
    exact ht
  | pre, tmp :: rest, rest', post, ws, d, ht, hlog, hok => by
    rw [List.cons_append] at ht
    have hentry := ht.entry
    have hbound : pre.length < sizeAt d.mem arg := hentry.1
    have hdepth : User.depthAt d.mem (entryAddr (plistAt d.mem arg) pre.length) = tmp.pointer := by
      rw [ht.plist]
      exact congrArg Para.pointer hentry.2
    have hlast : (pre ++ [tmp]).length + rest.length = pre.length + (tmp :: rest).length := by
      rw [List.length_append, List.length_singleton, List.length_cons]
      omega
    by_cases h0 : tmp.pointer = 0
    · rw [callTrail, pointersTrail_value h0] at hok hlog
      obtain ⟨⟨ret, rest₁⟩, hx, hx'⟩ := map_eq_ok.mp hok
      cases hx'
      rw [List.append_cons] at ht
      obtain ⟨e, hcomes, hlen, htracks⟩ := comes_of_passed halloc hform ht hlog hx
      rw [hlast, List.length_append, List.length_singleton] at hcomes
      refine ⟨e, .value hbound (hdepth.trans h0) hcomes, by rw [List.length_cons, List.length_cons, hlen], ?_⟩
      rw [List.cons_append, List.append_cons, callTrail, pointersTrail_value h0]
      exact htracks
    · rw [callTrail] at hok
      obtain ⟨hpass, rest₁, hrest⟩ := pointersTrail_cons_ok h0 hok
      rw [pointersTrail_found h0 hpass, hrest] at hok
      cases hok
      rw [callTrail, pointersTrail_found h0 hpass] at hlog
      obtain ⟨r, hr, hends⟩ := restorePointer_follows env hform h0 (Nat.le_refl _) ht
        fun r hr => hlog r (List.mem_append_left _ hr)
      have htell : restorePointer env (some p) tmp (Chase.after p b c₀ ws) = _ := restorePointer_tell
      rw [Chase.tells_of_allocOk halloc, Trail.tell, hpass] at htell
      rw [htell] at hends
      obtain ⟨⟨found, d'⟩, rfl, hcase⟩ := hends.of_ok
      rcases hcase with ⟨hnone, -⟩ | ⟨c', hc', hfound, htracks⟩
      · cases hnone
      · cases hc'
        dsimp only at hfound htracks
        subst hfound
        rw [List.append_cons] at htracks
        obtain ⟨e, hcomes, hlen, htracks⟩ :=
          comes_of_passed halloc hform htracks (fun r hr => hlog r (List.mem_append_right _ hr)) hrest
        rw [show (pre ++ [({ tmp with pointer := 0 } : Para)]).length = pre.length + 1 by simp] at hcomes
        rw [← ht.plist] at hr
        refine ⟨e, .passed hbound (hdepth ▸ h0) hr ?_, by rw [List.length_cons, List.length_cons, hlen], ?_⟩
        · rw [List.length_cons, Nat.add_comm rest.length, ← Nat.add_assoc]
          exact hcomes
        · rw [List.cons_append, List.append_cons, callTrail, pointersTrail_found h0 hpass]
          rw [List.append_assoc ws] at htracks
          exact htracks

end Loop

section Calls
variable {m : Mem} {p : SbufPtr} {b : Sbuf} {c : Chase} {arg : Addr}

/-- A call that reports every chain that it comes to has none that leaves the segments behind its first cell. -/
theorem ReportsOutside.resolves (h : SavedOf m b.segs) (hb : c.heap.sbufs p = some b)
    (hspares : SparesList p b arg c.mem) (hall : ReportsOutside m p b arg c) :
    Resolves b.segs ((b.entry 0).holeList.home = (p, 0)) m (listAt arg c.mem) := by
  by_contra hres
  obtain ⟨pre, tmp, post, r, pre', hplt, h0, hr, hpre, hlog⟩ := h.pointers_go_on hres
  have hstart : Tracks arg c.mem ([] ++ (pre ++ tmp :: post)) (Chase.after p b c []) c := by
    rw [List.nil_append, ← hplt, Chase.after_nil hb]
    exact .start arg c
  have hclear : (callTrail p b pre).Logs (Clear arg c.mem) := by
    refine fun r hr => hspares.clear r ?_
    rw [hplt, callTrail, pointersTrail_append hpre]
    exact List.mem_append_left _ hr
  obtain ⟨d, hcomes, hlen, htracks⟩ := comes_of_passed Env.sample_allocOk hspares.formed hstart hclear hpre
  rw [List.length_nil, Nat.zero_add] at hcomes
  rw [List.nil_append, List.nil_append] at htracks
  obtain ⟨hbound, hentry⟩ := htracks.entry
  rw [hlen] at hbound hentry
  rw [← htracks.plist] at hentry
  obtain ⟨fuel, e, ws, hret, hws, hnew, -⟩ := hall Env.sample _ d tmp r ⟨hcomes, hbound, hentry, h0⟩ hr
  -- The call with the list as a value ends alike, and has written the range.
  obtain ⟨⟨ret, plt', c₂⟩, hc, hret', hafter⟩ := (restorePointers_ends hspares.formed hb hspares.clear hret).to_ok
  obtain rfl : (-1 : Int) = ret := hret'
  obtain ⟨hresult, hc₂, -⟩ := restorePointers_returns hb hc
  obtain ⟨ws', hlog, hmem⟩ := hlog plt' hresult
  have hsame : c.written ++ (callTrail p b pre).log ++ ws' = c.written ++ (callTrail p b pre).log ++ ws := by
    have hwritten : e.written = c.written ++ (callTrail p b (listAt arg c.mem)).log := by
      rw [hafter.written, hc₂]
      rfl
    rw [callTrail, hlog, hws, htracks.written] at hwritten
    simpa [Chase.after, callTrail] using hwritten.symm
  rw [List.append_cancel_left hsame] at hmem
  exact hnew hmem

/-- Where the list resolves, so do the entries that the call comes to, as it comes to them. -/
theorem Resolves.attends (h : SavedOf m b.segs) (hb : c.heap.sbufs p = some b) (hspares : SparesList p b arg c.mem)
    (hres : Resolves b.segs ((b.entry 0).holeList.home = (p, 0)) m (listAt arg c.mem)) : Attends m p b arg c := by
  intro env n d tmp hmeets
  have hstart : Tracks arg c.mem ([] ++ listAt arg c.mem) (Chase.after p b c []) c := by
    rw [List.nil_append, Chase.after_nil hb]
    exact .start arg c
  obtain ⟨pre, rest, ws, hlen, htracks, hrest⟩ :=
    h.comes_resolves hspares.formed hmeets.comes List.length_nil hstart hres hspares.clear
  obtain ⟨tmp', post, rfl, hentry⟩ := htracks.next (hlen.symm ▸ hmeets.bound)
  obtain rfl : tmp = tmp' := by
    rw [← hmeets.entry, ← hlen]
    exact hentry
  rw [Resolves, if_neg hmeets.pointer] at hrest
  split at hrest
  · next hfind => exact Or.inl hfind
  · exact Or.inr hrest.1

/-- When every entry has its first cell not found or all its cells in segments, only such first cells lie outside. -/
theorem Attends.reports (hb : c.heap.sbufs p = some b) (hatt : Attends m p b arg c) : ReportsOutside m p b arg c := by
  rintro env n d tmp r hmeets ⟨done, hpre, -, hout⟩
  have hfind : findInStackBuf tmp.addr 8 b.segs = 0 := (hatt env n d tmp hmeets).resolve_right fun hlies =>
    hout (hlies r (hpre.mem (List.mem_append_right _ List.mem_cons_self)))
  obtain ⟨fuel, hrun⟩ := hmeets.given_up hb hfind
  exact ⟨fuel, _, [], hrun, (List.append_nil _).symm, List.not_mem_nil, fun x _ hx => store32_of_not_mem hx⟩

/-- Chains that leave the saved segments. At whichever level a chain does, the call reports it and leaves that
    level alone, whatever `kmalloc` answers, when no entry that it comes to does so after its first cell. For a list
    that the call does not write over, it does if and only if no chain that it comes to leaves them there. -/
theorem outside_reported_iff (h : SavedOf m b.segs) (hb : c.heap.sbufs p = some b) :
    (Attends m p b arg c → ReportsOutside m p b arg c) ∧
      (SparesList p b arg c.mem →
        (ReportsOutside m p b arg c ↔ Resolves b.segs ((b.entry 0).holeList.home = (p, 0)) m (listAt arg c.mem))) :=
  ⟨fun hatt => hatt.reports hb, fun hspares =>
    ⟨fun hall => hall.resolves h hb hspares, fun hres => (hres.attends h hb hspares).reports hb⟩⟩

end Calls

/-! ### Two lists -/

theorem SparesList.of_beside {p : SbufPtr} {b : Sbuf} {arg : Addr} {m : Mem} (hform : Formed arg m)
    (hlog : ∀ r ∈ listSpans arg m, ∀ s ∈ (callTrail p b (listAt arg m)).log, Range.Beside r s) : SparesList p b arg m :=
  ⟨hform, fun s hs _ hxs hx => Spares.of_beside hlog _ hx ⟨s, hs, hxs⟩⟩

theorem outside_reported_stray : ReportsOutside pointedMem 0 whole 0x7000 (.listed stray) := by
  have hlist : listAt 0x7000 (Chase.listed stray).mem = stray := LaidApart.listAt_putList (by decide)
  have hspares : SparesList 0 whole 0x7000 (Chase.listed stray).mem :=
    .of_beside formed_stray (by rw [hlist, listSpans_stray]; decide)
  refine ((outside_reported_iff whole_savedOf rfl).2 hspares).mpr ?_
  rw [hlist]
  refine ⟨?_, fun _ _ _ => trivial⟩
  exact List.forall_mem_singleton.mpr ⟨_, List.mem_cons_self, by decide, by decide⟩

/-- The fault that ended a computation. -/
def faultOf {α : Type} : Option (Except Crash α) → Option Fault
  | some (.error e) => some e.fault
  | _ => none

theorem faultOf_eq_some {α : Type} {f : Fault} : ∀ {x : Option (Except Crash α)}, faultOf x = some f →
    ∃ e, x = some (.error e) ∧ e.fault = f
  | some (.error e), h => ⟨e, rfl, Option.some.inj h⟩
  | some (.ok _), h => by cases h
  | none, h => by cases h

/-- A pointer to a pointer, which lies outside the frame. -/
def outward : List Para := [⟨0x4010, 4, 2⟩]

/-- The second look-up gives a null pointer, which is followed. -/
theorem outward_faults : ¬ReportsOutside pointedMem 0 whole 0x7000 (.listed outward) ∧
    (∃ e, User.restorePointers Env.sample (some 0) 0x7000 4 (.listed outward) = some (.error e) ∧
      e.fault = .nullDeref) ∧
    ∃ e, User.jsysEncryptStack Env.sample 40 (.frame 0x1010 0x4000 0x4020) 0x7000
      { loaded with mem := putList 0x7000 0x7010 outward pointedMem } = some (.error e) ∧ e.fault = .nullDeref := by
  have hexec : ∃ e, User.restorePointers Env.sample (some 0) 0x7000 4 (.listed outward) = some (.error e) ∧
    e.fault = .nullDeref := faultOf_eq_some (by decide +kernel)
  refine ⟨fun hreports => ?_, hexec, faultOf_eq_some (by decide +kernel)⟩
  obtain ⟨e, hcrash, -⟩ := hexec
  have hout : ¬∃ e ∈ whole.segs, e.HasRange ⟨0x4141414141414141, 8⟩ := by
    rw [whole_segs]
    rintro ⟨e, he, -, hup⟩
    rw [List.mem_singleton.mp he] at hup
    exact absurd hup (by decide)
  have hfirst : FirstOutside whole.segs (cells pointedMem 2 0x4010) ⟨0x4141414141414141, 8⟩ := by
    refine ⟨[⟨0x4010, 8⟩], by decide, ?_, hout⟩
    exact List.forall_mem_singleton.mpr ⟨_, List.mem_cons_self, by decide, by decide⟩
  have hmeets : User.PointerMet Env.sample (some 0) 0x7000 (.listed outward) 0 (.listed outward) ⟨0x4010, 4, 2⟩ :=
    ⟨.here 0 _, by decide, by decide, by decide⟩
  obtain ⟨fuel, c₂, ws, hret, -⟩ := hreports Env.sample 0 _ _ _ hmeets hfirst
  cases User.restoreFrom_unique hret hcrash

end StackVault
