import StackVault.Theorems.Trace

/-! What a parameter list with pointers exposes: the cells that its entries go through and the targets
    that they lead to, as memory has them before the call. Where all of them lie in saved segments, the
    chase writes back exactly these ranges, with the bytes they had, and returns. -/

namespace StackVault
open Memory

/-- The cells that `n` levels of pointers from `x` on go through. -/
def cells (m : Mem) : Nat → Addr → List Span
  | 0, _ => []
  | n + 1, x => ⟨x, 8⟩ :: cells m n (load64 m x)

/-- The address that they lead to. -/
def follow (m : Mem) : Nat → Addr → Addr
  | 0, x => x
  | n + 1, x => follow m n (load64 m x)

/-- The cells and the target of an entry with `pointer ≠ 0`. -/
def Para.exposed (m : Mem) (p : Para) : List Span :=
  if p.pointer = 0 then [] else cells m p.pointer.toNat p.addr ++ [⟨follow m p.pointer.toNat p.addr, p.size⟩]

def exposed (m : Mem) (plt : List Para) : List Span := plt.flatMap (Para.exposed m)

/-- The ranges of the by-value entries. -/
def valueSpans (plt : List Para) : List Span := (plt.filter fun p => p.pointer = 0).map Para.span

/-- By-value ranges, cells and targets are non-empty, disjoint and inside the frame, each cell and target
    lies in a segment of the frame, and there are at most 32 segments. -/
structure Mixed (m : Mem) (userRsp userRbp : Addr) (plt : List Para) : Prop where
  nonempty : ∀ r ∈ valueSpans plt ++ exposed m plt, 0 < r.len.toNat
  apart : (valueSpans plt ++ exposed m plt).Pairwise Range.Apart
  inside : ∀ r ∈ valueSpans plt ++ exposed m plt,
    userRsp.toNat ≤ r.start.toNat ∧ r.start.toNat + r.len.toNat ≤ userRbp.toNat
  held : ∀ r ∈ exposed m plt, ∃ s ∈ segments plt userRsp userRbp,
    s.start.toNat ≤ r.start.toNat ∧ r.start.toNat + r.len.toNat ≤ s.start.toNat + s.len.toNat
  few : (segments plt userRsp userRbp).length ≤ 32

section Mixed
variable {m : Mem} {userRsp userRbp x : Addr} {plt : List Para} {p : Para}

theorem span_mem_valueSpans (hp : p ∈ plt) (h0 : p.pointer = 0) : p.span ∈ valueSpans plt :=
  List.mem_map_of_mem (List.mem_filter.mpr ⟨hp, decide_eq_true h0⟩)

theorem covers_valueSpans : Covers (valueSpans plt) x ↔ ByValue plt x := by
  simp [Covers, valueSpans, ByValue, and_assoc]

theorem exposed_byValue (hv : AllByValue plt) : exposed m plt = [] :=
  List.flatMap_eq_nil_iff.mpr fun p hp => if_pos (hv p hp)

theorem first_mem_cells (h0 : p.pointer ≠ 0) : (⟨p.addr, 8⟩ : Span) ∈ cells m p.pointer.toNat p.addr := by
  have hn : p.pointer.toNat ≠ 0 := fun hn => h0 (BitVec.eq_of_toNat_eq hn)
  obtain ⟨n, hn⟩ := Nat.exists_eq_succ_of_ne_zero hn
  rw [hn]
  exact List.mem_cons_self

theorem cell_mem_exposed (hp : p ∈ plt) (h0 : p.pointer ≠ 0) : (⟨p.addr, 8⟩ : Span) ∈ exposed m plt := by
  refine List.mem_flatMap.mpr ⟨p, hp, ?_⟩
  rw [Para.exposed, if_neg h0]
  exact List.mem_append_left _ (first_mem_cells h0)

namespace Mixed

theorem noWrap (h : Mixed m userRsp userRbp plt) : NoWrap plt := fun p hp h0 =>
  lt_of_le_of_lt (h.inside p.span (List.mem_append_left _ (span_mem_valueSpans hp h0))).2 userRbp.isLt

theorem distinct (h : Mixed m userRsp userRbp plt) : Distinct plt := by
  intro p hp h0
  have hmem := List.mem_append_left (exposed m plt) (span_mem_valueSpans hp h0)
  refine ⟨h.nonempty _ hmem, fun q hq hin => ?_⟩
  by_cases hq0 : q.pointer = 0
  · have hmem' := List.mem_append_left (exposed m plt) (span_mem_valueSpans hq hq0)
    refine ⟨hq0, ?_⟩
    by_contra hne
    exact h.apart.forall hmem' hmem hne q.addr (Range.start_mem (h.nonempty _ hmem')) hin
  · have hapart := (List.pairwise_append.mp h.apart).2.2 _ (span_mem_valueSpans hp h0) _ (cell_mem_exposed hq hq0)
    exact absurd (Range.start_mem (r := ⟨q.addr, 8⟩) (Nat.zero_lt_succ 7)) (hapart q.addr hin)

end Mixed
end Mixed

/-! ### The chase over what is exposed -/

/-- The range lies in the segment. -/
def StackBuf.HasRange (e : StackBuf) (r : Span) : Prop :=
  e.start.toNat ≤ r.start.toNat ∧ r.start.toNat + r.len.toNat ≤ e.start.toNat + e.len.toNat

/-- Segments of `m` as a scan has saved them, with separate copies. -/
structure SavedOf (m : Mem) (segs : List StackBuf) : Prop where
  separate : Separate segs
  data : ∀ e ∈ segs, e.Saves m
  span : ∀ e ∈ segs, e.start.toNat + e.len.toNat < 2 ^ 64
  apart : segs.Pairwise fun e f => e.span.Apart f.span
  live : ∀ e ∈ segs, e.buf ≠ 0

section Chase
variable {m : Mem} {segs : List StackBuf} {home : Prop} [Decidable home] {e : StackBuf} {r : Span} {x len : Addr}

theorem find_of_mem (x len : Addr) (he : e ∈ reached segs) (hlo : e.start ≤ x) (hup : x + len ≤ e.start + e.len) :
    ∃ f ∈ reached segs, f.start ≤ x ∧ x + len ≤ f.start + f.len ∧
      findInStackBuf x len segs = f.buf + (x - f.start) := by
  unfold findInStackBuf
  generalize reached segs = l at he
  induction l with
  | nil => cases he
  | cons f l ih =>
    unfold findInSegs
    by_cases hf : f.start ≤ x ∧ x + len ≤ f.start + f.len
    · rw [if_pos hf]
      exact ⟨f, List.mem_cons_self, hf.1, hf.2, rfl⟩
    · rw [if_neg hf]
      rcases List.mem_cons.mp he with rfl | he
      · exact absurd ⟨hlo, hup⟩ hf
      · obtain ⟨g, hg, h1, h2, h3⟩ := ih he
        exact ⟨g, List.mem_cons_of_mem _ hg, h1, h2, h3⟩

namespace SavedOf

theorem eq_of_mem (h : SavedOf m segs) {f : StackBuf} (he : e ∈ segs) (hf : f ∈ segs) (hxe : x ∈ e.span)
    (hxf : x ∈ f.span) :
    e = f := by
  by_contra hne
  have hsymm : Std.Symm fun e f : StackBuf => e.span.Apart f.span := ⟨fun _ _ h => h.symm⟩
  exact h.apart.forall he hf hne x hxe hxf

theorem mem_span (h : SavedOf m segs) (he : e ∈ segs) :
    x ∈ e.span ↔ e.start.toNat ≤ x.toNat ∧ x.toNat < e.start.toNat + e.len.toNat :=
  Range.mem_iff (le_of_lt (h.span e he))

/-- A range inside a segment that the look-up comes to is found in a segment that has it. -/
theorem found (h : SavedOf m segs) (he : e ∈ reached segs) (hr : e.HasRange r) :
    ∃ f ∈ segs, f.HasRange r ∧ findInStackBuf r.start r.len segs = f.buf + (r.start - f.start) := by
  have hspan := h.span e (mem_of_reached he)
  have hrsum : (r.start + r.len).toNat = r.start.toNat + r.len.toNat := by
    rw [BitVec.toNat_add, Nat.mod_eq_of_lt (lt_of_le_of_lt hr.2 hspan)]
  have hsum : ∀ f ∈ segs, (f.start + f.len).toNat = f.start.toNat + f.len.toNat := fun f hf => by
    rw [BitVec.toNat_add, Nat.mod_eq_of_lt (h.span f hf)]
  obtain ⟨f, hf, hlo, hup, hfind⟩ := find_of_mem r.start r.len he (BitVec.le_def.mpr hr.1)
    (BitVec.le_def.mpr (by rw [hrsum, hsum e (mem_of_reached he)]; exact hr.2))
  rw [BitVec.le_def, hrsum, hsum f (mem_of_reached hf)] at hup
  exact ⟨f, mem_of_reached hf, ⟨BitVec.le_def.mp hlo, hup⟩, hfind⟩

theorem find (h : SavedOf m segs) (he : e ∈ reached segs) (hr : e.HasRange r) (h0 : 0 < r.len.toNat) :
    findInStackBuf r.start r.len segs = e.buf + (r.start - e.start) := by
  obtain ⟨f, hf, hrf, hfind⟩ := h.found he hr
  have hfe : f = e := by
    have he' := mem_of_reached he
    refine h.eq_of_mem (x := r.start) hf he' ((h.mem_span hf).mpr ⟨hrf.1, ?_⟩) ((h.mem_span he').mpr ⟨hr.1, ?_⟩)
    · have := hrf.2
      omega
    · have := hr.2
      omega
  rw [hfind, hfe]

theorem find_ne_zero (h : SavedOf m segs) (he : e ∈ reached segs) (hr : e.HasRange r) :
    findInStackBuf r.start r.len segs ≠ 0 := by
  obtain ⟨f, hf, hrf, hfind⟩ := h.found he hr
  rw [hfind]
  obtain ⟨hplace, -⟩ := h.separate.place hf (BitVec.le_def.mpr hrf.1) hrf.2
  have hbuf : 0 < f.buf.toNat := Nat.pos_of_ne_zero fun hz => h.live f hf (BitVec.eq_of_toNat_eq hz)
  intro hz
  rw [hz] at hplace
  have : (0 : Addr).toNat = 0 := rfl
  omega

theorem lookUp (h : SavedOf m segs) (he : e ∈ reached segs) (hr : e.HasRange r) :
    ∃ src, StackVault.lookUp segs r = .ok src ∧ ∀ k, k < r.len → src k = m (r.start + k) := by
  obtain ⟨f, hf, hrf, hfind⟩ := h.found he hr
  obtain ⟨-, hholds⟩ := h.separate.place hf (BitVec.le_def.mpr hrf.1) hrf.2
  have hsome : (segs.find? fun f => f.Holds (findInStackBuf r.start r.len segs) r.len).isSome := by
    rw [List.find?_isSome]
    exact ⟨f, hf, decide_eq_true (by rw [hfind]; exact hholds)⟩
  obtain ⟨g, hg⟩ := Option.isSome_iff_exists.mp hsome
  have hl : StackVault.lookUp segs r = .ok (g.read (findInStackBuf r.start r.len segs)) := by
    unfold StackVault.lookUp kread
    rw [if_neg (h.find_ne_zero he hr), hg]
  have hlt := lt_of_le_of_lt hr.2 (h.span e (mem_of_reached he))
  exact ⟨_, hl, h.separate.lookUp_saved h.span h.data hlt hl⟩

/-- All ranges of the list lie in segments. -/
def Lies (segs : List StackBuf) (rs : List Span) : Prop := ∀ r ∈ rs, ∃ e ∈ segs, e.HasRange r

/-- All ranges of the list are non-empty and lie in segments. -/
def Held (segs : List StackBuf) (rs : List Span) : Prop := ∀ r ∈ rs, 0 < r.len.toNat ∧ ∃ e ∈ segs, e.HasRange r

theorem Held.lies {rs : List Span} (h : Held segs rs) : Lies segs rs := fun r hr => (h r hr).2

theorem lies_cons {rs : List Span} : Lies segs (r :: rs) ↔ (∃ e ∈ segs, e.HasRange r) ∧ Lies segs rs :=
  List.forall_mem_cons

theorem lies_append {rs ss : List Span} : Lies segs (rs ++ ss) ↔ Lies segs rs ∧ Lies segs ss :=
  List.forall_mem_append

variable (home) in
theorem wroteBack (h : SavedOf m segs) (hr : ∃ e ∈ reached segs, e.HasRange r) :
    ∃ src, writeBackTrail segs home r = ⟨[r], if home then .ok src else .error .useAfterFree⟩ ∧
      ∀ k, k < r.len → src k = m (r.start + k) := by
  obtain ⟨e, he, hr⟩ := hr
  obtain ⟨src, hl, hsrc⟩ := h.lookUp he hr
  refine ⟨src, ?_, hsrc⟩
  unfold writeBackTrail
  rw [hl]

theorem cell (h : SavedOf m segs) (hh : home) (hr : ∃ e ∈ reached segs, e.HasRange ⟨x, 8⟩) :
    cellTrail segs home x = ⟨[⟨x, 8⟩], .ok (load64 m x)⟩ := by
  obtain ⟨src, hw, hsrc⟩ := h.wroteBack home hr
  unfold cellTrail
  rw [hw, if_pos hh, Trail.bind_mk_ok, load64_shift hsrc]
  rfl

theorem chase (h : SavedOf m segs) (hh : home) : ∀ {n : Nat} {x : Addr}, Lies (reached segs) (cells m n x) →
    chaseTrail segs home n x = ⟨cells m n x, .ok (follow m n x)⟩
  | 0, _, _ => rfl
  | n + 1, x, hcells => by
    obtain ⟨hx, hrest⟩ := lies_cons.mp hcells
    unfold chaseTrail
    rw [h.cell hh hx, Trail.bind_mk_ok, h.chase hh hrest]
    rfl

theorem target (h : SavedOf m segs) (hh : home) (hr : ∃ e ∈ reached segs, e.HasRange r) :
    targetTrail segs home r.start r.len = ⟨[r], .ok ()⟩ := by
  obtain ⟨src, hw, -⟩ := h.wroteBack home hr
  obtain ⟨e, he, hr⟩ := hr
  unfold targetTrail
  rw [if_neg (h.find_ne_zero he hr), hw, if_pos hh, Trail.bind_mk_ok]
  rfl

theorem pointer (h : SavedOf m segs) (hh : home) {p : Para} (hp : p.pointer ≠ 0)
    (hlies : Lies (reached segs) (p.exposed m)) :
    pointerTrail segs home p = ⟨p.exposed m, .ok true⟩ := by
  rw [Para.exposed, if_neg hp] at hlies ⊢
  obtain ⟨hcells, htarget⟩ := lies_append.mp hlies
  obtain ⟨ht, -⟩ := lies_cons.mp htarget
  have hchase := h.chase hh hcells
  have htrail : targetTrail segs home (follow m p.pointer.toNat p.addr) p.size =
      ⟨[⟨follow m p.pointer.toNat p.addr, p.size⟩], .ok ()⟩ := h.target hh ht
  obtain ⟨e, he, hr⟩ := hcells ⟨p.addr, 8⟩ (first_mem_cells hp)
  rw [pointerTrail_found segs home hp (h.find_ne_zero he hr), hchase, Trail.bind_mk_ok, htrail, Trail.bind_mk_ok]
  simp

/-- The chase writes back what is exposed and nothing else, and finds everything. -/
theorem pointers (h : SavedOf m segs) (hh : segs ≠ [] → home) :
    ∀ {plt : List Para}, Lies (reached segs) (exposed m plt) →
    pointersTrail segs home plt = ⟨exposed m plt, .ok (0, plt.map fun p => { p with pointer := 0 })⟩
  | [], _ => rfl
  | p :: plt, hlies => by
    have hhome : p.pointer ≠ 0 → home := fun h0 => by
      obtain ⟨e, he, -⟩ := hlies _ (cell_mem_exposed List.mem_cons_self h0)
      exact hh (List.ne_nil_of_mem (mem_of_reached he))
    rw [show exposed m (p :: plt) = p.exposed m ++ exposed m plt from rfl] at hlies ⊢
    obtain ⟨hp, hrest⟩ := lies_append.mp hlies
    have hpointers := h.pointers hh hrest
    unfold pointersTrail
    by_cases h0 : p.pointer = 0
    · rw [if_pos h0, hpointers, Trail.bind_mk_ok, Para.exposed, if_pos h0]
      simp [← h0]
    · have hpointer := h.pointer (hhome h0) h0 hp
      rw [if_neg h0, hpointer, Trail.bind_mk_ok, if_pos rfl, hpointers, Trail.bind_mk_ok]
      simp

/-- A cell that is found faults where the hole list closes elsewhere. -/
theorem cell_unhomed (h : SavedOf m segs) (hh : ¬home) (hr : ∃ e ∈ reached segs, e.HasRange ⟨x, 8⟩) :
    (cellTrail segs home x).result = .error .useAfterFree := by
  obtain ⟨src, hw, -⟩ := h.wroteBack home hr
  rw [if_neg hh] at hw
  rw [cellTrail, Trail.bind_of_error (e := .useAfterFree) (by rw [hw])]

end SavedOf
end Chase

end StackVault
