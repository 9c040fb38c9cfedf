import StackVault.Jprobe

/-! The segments that the scan cuts a frame into. The positions of the scan depend only on the frame and
    the parameter list, so the segments can be read off without the save buffer: `cut` is the control of
    the loop, `segments` what it gives for a whole frame, and `cutWith` the control where the list is read
    from the memory that the loop clears. Without wrapping the loop ends, and the segments are non-empty,
    ascending and inside the frame, and cover every byte of it that no by-value entry has. -/

namespace StackVault
open Memory

/-- No by-value entry wraps round the address space. -/
def NoWrap (plt : List Para) : Prop := ∀ p ∈ plt, p.pointer = 0 → p.addr.toNat + p.size.toNat < 2 ^ 64

/-- Every entry is passed by value. -/
def AllByValue (plt : List Para) : Prop := ∀ p ∈ plt, p.pointer = 0

/-- Some by-value entry has the address. -/
def ByValue (plt : List Para) (x : Addr) : Prop := ∃ p ∈ plt, p.pointer = 0 ∧ x ∈ p.span

theorem contains_ne_zero {i : Addr} : ∀ {plt : List Para}, contains i plt ≠ 0 →
    ∃ p ∈ plt, p.pointer = 0 ∧ p.addr = i ∧ p.size = contains i plt
  | [], h => absurd rfl h
  | tmp :: rest, h => by
    unfold contains at h ⊢
    by_cases hi : i = tmp.addr
    · by_cases hp : tmp.pointer = 0
      · exact ⟨tmp, List.mem_cons_self, hp, hi.symm, by simp [hi, hp]⟩
      · rw [if_pos hi, if_pos hp] at h
        exact absurd rfl h
    · simp only [if_neg hi] at h ⊢
      obtain ⟨p, hp, hp0, ha, hs⟩ := contains_ne_zero h
      exact ⟨p, List.mem_cons_of_mem _ hp, hp0, ha, hs⟩

/-- By-value entries have bytes, and no other entry begins in them. -/
def Distinct (plt : List Para) : Prop := ∀ p ∈ plt, p.pointer = 0 → 0 < p.size.toNat ∧
  ∀ q ∈ plt, q.addr ∈ p.span → q.pointer = 0 ∧ q.span = p.span

theorem contains_eq {p : Para} (hp0 : p.pointer = 0) : ∀ {plt : List Para}, p ∈ plt →
    (∀ q ∈ plt, q.addr = p.addr → q.pointer = 0 ∧ q.span = p.span) → contains p.addr plt = p.size
  | [], hp, _ => by cases hp
  | tmp :: rest, hp, h => by
    unfold contains
    by_cases hi : p.addr = tmp.addr
    · obtain ⟨hq0, hspan⟩ := h tmp List.mem_cons_self hi.symm
      rw [if_pos hi, if_neg (not_not.mpr hq0)]
      exact congrArg Range.len hspan
    · rw [if_neg hi]
      refine contains_eq hp0 ?_ fun q hq => h q (List.mem_cons_of_mem _ hq)
      rcases List.mem_cons.mp hp with rfl | hp
      · exact absurd rfl hi
      · exact hp

/-! ### The control of the loop -/

/-- The range that a flush at `i` saves. -/
def pending (prevRsp i : Addr) : List Span := if prevRsp < i then [⟨prevRsp, i - prevRsp⟩] else []

/-- The ranges that the scan saves from position `i` on. -/
def cut (plt : List Para) (userRbp : Addr) : Nat → Addr → Addr → Option (List Span)
  | 0, _, _ => none
  | fuel + 1, i, prevRsp =>
    if i ≤ userRbp then
      let skip := contains i plt
      if skip ≠ 0 then (cut plt userRbp fuel (i + skip) (i + skip)).map (pending prevRsp i ++ ·)
      else if i = userRbp then (cut plt userRbp fuel (i + 1) prevRsp).map (pending prevRsp i ++ ·)
      else cut plt userRbp fuel (i + 1) prevRsp
    else some []

/-- Memory once the ranges are cleared. -/
def cleared (segs : List Span) (mem : Mem) : Mem := fun x => if Covers segs x then 0x30 else mem x

/-- The same, with the list that `read` finds in the memory that is left so far. -/
def cutWith (read : Mem → List Para) (userRbp : Addr) : Nat → Mem → Addr → Addr → Option (List Span)
  | 0, _, _, _ => none
  | fuel + 1, mem, i, prevRsp =>
    if i ≤ userRbp then
      let skip := contains i (read mem)
      let mem' := cleared (pending prevRsp i) mem
      if skip ≠ 0 then (cutWith read userRbp fuel mem' (i + skip) (i + skip)).map (pending prevRsp i ++ ·)
      else if i = userRbp then (cutWith read userRbp fuel mem' (i + 1) prevRsp).map (pending prevRsp i ++ ·)
      else cutWith read userRbp fuel mem (i + 1) prevRsp
    else some []

/-- The segments of the frame. -/
def segments (plt : List Para) (userRsp userRbp : Addr) : List Span :=
  (cut plt userRbp (userRbp.toNat - userRsp.toNat + 2) userRsp userRsp).getD []

section Cut
variable {plt : List Para} {userRbp i prevRsp x : Addr} {fuel : Nat} {segs : List Span}

theorem mem_pending {r : Span} : r ∈ pending prevRsp i ↔ prevRsp < i ∧ r = ⟨prevRsp, i - prevRsp⟩ := by
  unfold pending
  split <;> simp_all

theorem covers_pending (h : prevRsp ≤ i) : Covers (pending prevRsp i) x ↔ prevRsp ≤ x ∧ x < i := by
  constructor
  · rintro ⟨r, hr, hx⟩
    obtain ⟨-, rfl⟩ := mem_pending.mp hr
    exact (Range.mem_upto h).mp hx
  · intro hx
    exact ⟨_, mem_pending.mpr ⟨by bv_omega, rfl⟩, (Range.mem_upto h).mpr hx⟩

@[simp] theorem cleared_nil (mem : Mem) : cleared [] mem = mem := funext fun _ => if_neg covers_nil

theorem cleared_append (rs ss : List Span) (mem : Mem) : cleared (rs ++ ss) mem = cleared ss (cleared rs mem) := by
  funext x
  unfold cleared
  by_cases h1 : Covers rs x <;> by_cases h2 : Covers ss x <;> simp [h1, h2]

theorem cutWith_const (mem : Mem) :
    cutWith (fun _ => plt) userRbp fuel mem i prevRsp = cut plt userRbp fuel i prevRsp := by
  induction fuel generalizing mem i prevRsp with
  | zero => rfl
  | succ fuel ih => simp only [cutWith, cut, ih]

theorem cut_done (h : userRbp < i) : cut plt userRbp (fuel + 1) i prevRsp = some [] := by
  unfold cut
  rw [if_neg (by bv_omega)]

/-- What one turn of the loop can do: skip an entry, flush at the end of the frame, or go on. -/
theorem cutWith_succ {read : Mem → List Para} {mem : Mem} (h : i ≤ userRbp)
    (hc : cutWith read userRbp (fuel + 1) mem i prevRsp = some segs) :
    (∃ p ∈ read mem, ∃ rest, p.pointer = 0 ∧ p.addr = i ∧ (contains i (read mem) = p.size ∧ p.size ≠ 0) ∧
      cutWith read userRbp fuel (cleared (pending prevRsp i) mem) (i + p.size) (i + p.size) = some rest ∧
      segs = pending prevRsp i ++ rest) ∨
    (contains i (read mem) = 0 ∧ i = userRbp ∧
      ∃ rest, cutWith read userRbp fuel (cleared (pending prevRsp i) mem) (i + 1) prevRsp = some rest ∧
        segs = pending prevRsp i ++ rest) ∨
    (contains i (read mem) = 0 ∧ i < userRbp ∧ cutWith read userRbp fuel mem (i + 1) prevRsp = some segs) := by
  unfold cutWith at hc
  simp only [if_pos h] at hc
  by_cases hs : contains i (read mem) = 0
  · simp only [hs, ne_eq, not_true_eq_false, if_false] at hc
    by_cases hi : i = userRbp
    · simp only [if_pos hi, Option.map_eq_some_iff] at hc
      obtain ⟨rest, hr, rfl⟩ := hc
      exact Or.inr (Or.inl ⟨hs, hi, rest, hr, rfl⟩)
    · simp only [if_neg hi] at hc
      exact Or.inr (Or.inr ⟨hs, by bv_omega, hc⟩)
  · simp only [ne_eq, hs, not_false_eq_true, if_true, Option.map_eq_some_iff] at hc
    obtain ⟨rest, hr, rfl⟩ := hc
    obtain ⟨p, hp, hp0, ha, hsz⟩ := contains_ne_zero hs
    exact Or.inl ⟨p, hp, rest, hp0, ha, ⟨hsz.symm, hsz ▸ hs⟩, hsz ▸ hr, rfl⟩

theorem cut_succ (h : i ≤ userRbp) (hc : cut plt userRbp (fuel + 1) i prevRsp = some segs) :
    (∃ p ∈ plt, ∃ rest, p.pointer = 0 ∧ p.addr = i ∧ (contains i plt = p.size ∧ p.size ≠ 0) ∧
      cut plt userRbp fuel (i + p.size) (i + p.size) = some rest ∧ segs = pending prevRsp i ++ rest) ∨
    (contains i plt = 0 ∧ i = userRbp ∧ ∃ rest, cut plt userRbp fuel (i + 1) prevRsp = some rest ∧
      segs = pending prevRsp i ++ rest) ∨
    (contains i plt = 0 ∧ i < userRbp ∧ cut plt userRbp fuel (i + 1) prevRsp = some segs) := by
  simpa only [cutWith_const] using cutWith_succ h ((cutWith_const fun _ => 0).trans hc)

/-- Without wrapping the loop advances, so it ends. -/
theorem cut_ends (hw : NoWrap plt) (hb : userRbp.toNat + 1 < 2 ^ 64) :
    ∀ fuel i prevRsp, userRbp.toNat + 1 - i.toNat < fuel → ∃ segs, cut plt userRbp fuel i prevRsp = some segs := by
  intro fuel
  induction fuel with
  | zero => intro i _ h; omega
  | succ fuel ih =>
    intro i prevRsp hf
    by_cases h : i ≤ userRbp
    · rw [BitVec.le_def] at h
      have hnext : (i + 1).toNat = i.toNat + 1 := by bv_omega
      unfold cut
      simp only [BitVec.le_def, if_pos h]
      split
      · next hs =>
        obtain ⟨p, hp, hp0, ha, hsz⟩ := contains_ne_zero hs
        have hwp := hw p hp hp0
        have hpos : 0 < p.size.toNat := by rw [hsz]; bv_omega
        rw [← hsz, ← ha]
        have hnext' : (p.addr + p.size).toNat = p.addr.toNat + p.size.toNat := by
          rw [BitVec.toNat_add, Nat.mod_eq_of_lt hwp]
        obtain ⟨segs, hsegs⟩ := ih (p.addr + p.size) (p.addr + p.size) (by rw [hnext', ha]; omega)
        exact ⟨_, by rw [hsegs, Option.map_some]⟩
      · split
        · obtain ⟨segs, hsegs⟩ := ih (i + 1) prevRsp (by omega)
          exact ⟨_, by rw [hsegs, Option.map_some]⟩
        · exact ih (i + 1) prevRsp (by omega)
    · exact ⟨[], cut_done (by bv_omega)⟩

theorem cutWith_mono {read : Mem → List Para} : ∀ {fuel fuel' : Nat} {mem : Mem} {i prevRsp : Addr} {segs : List Span},
    fuel ≤ fuel' → cutWith read userRbp fuel mem i prevRsp = some segs →
    cutWith read userRbp fuel' mem i prevRsp = some segs
  | 0, _, _, _, _, _, _, h => by cases h
  | fuel + 1, 0, _, _, _, _, hf, _ => by omega
  | fuel + 1, fuel' + 1, mem, i, prevRsp, segs, hf, h => by
    unfold cutWith at h ⊢
    have hf' : fuel ≤ fuel' := by omega
    split at h
    · rw [if_pos ‹_›]
      dsimp only at h ⊢
      split at h
      · rw [if_pos ‹_›]
        obtain ⟨rest, hr, rfl⟩ := Option.map_eq_some_iff.mp h
        rw [cutWith_mono hf' hr, Option.map_some]
      · rw [if_neg ‹_›]
        split at h
        · rw [if_pos ‹_›]
          obtain ⟨rest, hr, rfl⟩ := Option.map_eq_some_iff.mp h
          rw [cutWith_mono hf' hr, Option.map_some]
        · rw [if_neg ‹_›]
          exact cutWith_mono hf' h
    · rw [if_neg ‹_›]
      exact h

theorem cutWith_unique {read : Mem → List Para} {mem : Mem} {fuel' : Nat} {segs' : List Span}
    (h : cutWith read userRbp fuel mem i prevRsp = some segs)
    (h' : cutWith read userRbp fuel' mem i prevRsp = some segs') :
    segs = segs' :=
  Option.some.inj ((cutWith_mono (Nat.le_max_left fuel fuel') h).symm.trans
    (cutWith_mono (Nat.le_max_right fuel fuel') h'))

/-- The ranges lie between the position of the last flush and the end of the frame. -/
structure Inner (prevRsp userRbp : Addr) (segs : List Span) : Prop where
  nonempty : ∀ r ∈ segs, 0 < r.len.toNat
  lower : ∀ r ∈ segs, prevRsp.toNat ≤ r.start.toNat
  upper : ∀ r ∈ segs, r.start.toNat + r.len.toNat ≤ userRbp.toNat
  ascending : segs.Pairwise fun r s => r.start.toNat + r.len.toNat ≤ s.start.toNat

namespace Inner
variable {q : Addr}

theorem nil : Inner prevRsp userRbp [] where
  nonempty _ h := by cases h
  lower _ h := by cases h
  upper _ h := by cases h
  ascending := List.Pairwise.nil

/-- A flush at `i` goes before ranges that begin at `i` or after it. -/
theorem flush (h : Inner q userRbp segs) (hi : i ≤ userRbp) (hq : i.toNat ≤ q.toNat) (hp : prevRsp ≤ i) :
    Inner prevRsp userRbp (pending prevRsp i ++ segs) := by
  have hsub : (i - prevRsp).toNat = i.toNat - prevRsp.toNat := BitVec.toNat_sub_of_le hp
  rw [BitVec.le_def] at hi hp
  have hpend : ∀ r ∈ pending prevRsp i, r.start = prevRsp ∧ r.start.toNat + r.len.toNat = i.toNat ∧
      0 < r.len.toNat := by
    intro r hr
    obtain ⟨hlt, rfl⟩ := mem_pending.mp hr
    rw [BitVec.lt_def] at hlt
    exact ⟨rfl, by dsimp only; omega, by dsimp only; omega⟩
  refine ⟨fun r hr => ?_, fun r hr => ?_, fun r hr => ?_, List.pairwise_append.mpr ⟨?_, h.ascending, ?_⟩⟩
  · rcases List.mem_append.mp hr with hr | hr
    · exact (hpend r hr).2.2
    · exact h.nonempty r hr
  · rcases List.mem_append.mp hr with hr | hr
    · rw [(hpend r hr).1]
    · have := h.lower r hr
      omega
  · rcases List.mem_append.mp hr with hr | hr
    · rw [(hpend r hr).2.1]
      exact hi
    · exact h.upper r hr
  · unfold pending
    split
    · exact List.pairwise_singleton _ _
    · exact List.Pairwise.nil
  · intro r hr s hs
    rw [(hpend r hr).2.1]
    exact le_trans hq (h.lower s hs)

theorem fits (h : Inner prevRsp userRbp segs) {r : Span} (hr : r ∈ segs) : r.Fits := by
  have := h.upper r hr
  have := userRbp.isLt
  unfold Range.Fits
  omega

theorem apart (h : Inner prevRsp userRbp segs) : segs.Pairwise Range.Apart :=
  h.ascending.imp_of_mem fun hr hs hle => Range.apart_of_le (h.fits hr) (h.fits hs) hle

theorem bounds (h : Inner prevRsp userRbp segs) (hx : Covers segs x) : prevRsp ≤ x ∧ x < userRbp := by
  obtain ⟨r, hr, hxr⟩ := hx
  rw [Range.mem_iff (h.fits hr)] at hxr
  have := h.lower r hr
  have := h.upper r hr
  rw [BitVec.le_def, BitVec.lt_def]
  omega

end Inner

/-- No by-value entry wraps in the list, as the loop finds it at its start and behind each of the ranges that it
    clears. -/
def NoWrapAlong (read : Mem → List Para) (mem : Mem) (segs : List Span) : Prop :=
  ∀ pre, pre <+: segs → NoWrap (read (cleared pre mem))

theorem NoWrapAlong.now {read : Mem → List Para} {mem : Mem} (h : NoWrapAlong read mem segs) : NoWrap (read mem) := by
  have h0 := h [] List.nil_prefix
  rwa [cleared_nil] at h0

theorem NoWrapAlong.later {read : Mem → List Para} {mem : Mem} {rs : List Span}
    (h : NoWrapAlong read mem (rs ++ segs)) :
    NoWrapAlong read (cleared rs mem) segs := fun pre hpre => by
  rw [← cleared_append]
  exact h _ ((List.prefix_append_right_inj rs).mpr hpre)

theorem cutWith_inner {read : Mem → List Para} (hb : userRbp.toNat + 1 < 2 ^ 64) :
    ∀ fuel mem i prevRsp segs, prevRsp ≤ i → cutWith read userRbp fuel mem i prevRsp = some segs →
      NoWrapAlong read mem segs → Inner prevRsp userRbp segs := by
  intro fuel
  induction fuel with
  | zero => intro _ i _ _ _ h; cases h
  | succ fuel ih =>
    intro mem i prevRsp segs hp hc hw
    have hdone : ∀ {mem i prevRsp segs}, userRbp < i → cutWith read userRbp fuel mem i prevRsp = some segs →
        segs = [] := by
      intro mem i prevRsp segs hi hc
      cases fuel with
      | zero => cases hc
      | succ fuel =>
        unfold cutWith at hc
        rw [if_neg (by bv_omega)] at hc
        exact (Option.some.inj hc).symm
    by_cases h : i ≤ userRbp
    · have hn : (i + 1).toNat = i.toNat + 1 := by bv_omega
      rcases cutWith_succ h hc with ⟨p, hp', rest, hp0, rfl, -, hr, rfl⟩ | ⟨-, rfl, rest, hr, rfl⟩ | ⟨-, -, hr⟩
      · have hq : (p.addr + p.size).toNat = p.addr.toNat + p.size.toNat := by
          rw [BitVec.toNat_add, Nat.mod_eq_of_lt (hw.now p hp' hp0)]
        exact (ih _ _ _ rest (BitVec.le_refl _) hr hw.later).flush h (by omega) hp
      · rw [hdone (by bv_omega) hr]
        exact Inner.nil.flush (q := i) h (le_refl _) hp
      · exact ih _ _ _ _ (by bv_omega) hr hw
    · unfold cutWith at hc
      rw [if_neg h] at hc
      cases hc
      exact Inner.nil

theorem cut_inner (hw : NoWrap plt) (hb : userRbp.toNat + 1 < 2 ^ 64) (fuel : Nat) (i prevRsp : Addr) (segs : List Span)
    (hp : prevRsp ≤ i) (hc : cut plt userRbp fuel i prevRsp = some segs) : Inner prevRsp userRbp segs :=
  cutWith_inner hb fuel (fun _ => 0) i prevRsp segs hp ((cutWith_const _).trans hc) fun _ _ => hw

/-- By-value entries with bytes, each the first with its address, of which any two have one range or no byte in
    common. -/
structure Tiles (plt tiles : List Para) : Prop where
  entry : ∀ e ∈ tiles, e ∈ plt ∧ e.pointer = 0 ∧ contains e.addr plt = e.size ∧ e.size ≠ 0
  apart : ∀ e ∈ tiles, ∀ f ∈ tiles, e.span = f.span ∨ e.span.Apart f.span

theorem Tiles.nil : Tiles plt [] where
  entry _ h := by cases h
  apart _ h := by cases h

/-- Every byte from the last flush on lies in a range or in an entry that the loop skips. -/
theorem cut_tiles (hw : NoWrap plt) (hb : userRbp.toNat + 1 < 2 ^ 64) :
    ∀ fuel i prevRsp segs, prevRsp ≤ i → i ≤ userRbp → cut plt userRbp fuel i prevRsp = some segs →
      ∃ tiles, Tiles plt tiles ∧ (∀ e ∈ tiles, i ≤ e.addr) ∧
        ∀ x, prevRsp ≤ x → x < userRbp → Covers segs x ∨ ∃ e ∈ tiles, x ∈ e.span := by
  intro fuel
  induction fuel with
  | zero => intro i _ _ _ _ h; cases h
  | succ fuel ih =>
    intro i prevRsp segs hp h hc
    have hn : (i + 1).toNat = i.toNat + 1 := by bv_omega
    rcases cut_succ h hc with ⟨p, hp', rest, hp0, rfl, ⟨hsz, hne⟩, hr, rfl⟩ | ⟨-, rfl, rest, hr, rfl⟩ | ⟨-, hlt, hr⟩
    · have hwp := hw p hp' hp0
      have hq : (p.addr + p.size).toNat = p.addr.toNat + p.size.toNat := by
        rw [BitVec.toNat_add, Nat.mod_eq_of_lt hwp]
      have hown : ∀ x, x ∈ p.span ↔ p.addr.toNat ≤ x.toNat ∧ x.toNat < p.addr.toNat + p.size.toNat := fun x =>
        Range.mem_iff (le_of_lt hwp)
      have hlater : ∃ tiles, Tiles plt tiles ∧ (∀ e ∈ tiles, p.addr + p.size ≤ e.addr) ∧
          ∀ x, p.addr + p.size ≤ x → x < userRbp → Covers rest x ∨ ∃ e ∈ tiles, x ∈ e.span := by
        by_cases hend : p.addr + p.size ≤ userRbp
        · exact ih _ _ rest (BitVec.le_refl _) hend hr
        · exact ⟨[], Tiles.nil, fun _ h => (List.not_mem_nil h).elim, fun x h1 h2 => by bv_omega⟩
      obtain ⟨tiles, htiles, hlo, hcov⟩ := hlater
      have hap : ∀ e ∈ tiles, p.span.Apart e.span := fun e he x hxp hxe => by
        obtain ⟨hmem, h0, -⟩ := htiles.entry e he
        rw [hown] at hxp
        rw [Range.mem_iff (le_of_lt (hw e hmem h0))] at hxe
        have := hlo e he
        simp only [Para.span] at hxe
        bv_omega
      refine ⟨p :: tiles, ⟨?_, ?_⟩, ?_, fun x hx1 hx2 => ?_⟩
      · rintro e (_ | ⟨_, he⟩)
        · exact ⟨hp', hp0, hsz, hne⟩
        · exact htiles.entry e he
      · rintro e (_ | ⟨_, he⟩) f (_ | ⟨_, hf⟩)
        · exact Or.inl rfl
        · exact Or.inr (hap f hf)
        · exact Or.inr (hap e he).symm
        · exact htiles.apart e he f hf
      · rintro e (_ | ⟨_, he⟩)
        · exact BitVec.le_refl _
        · have := hlo e he
          bv_omega
      · rw [covers_append, covers_pending hp]
        by_cases h1 : x < p.addr
        · exact Or.inl (Or.inl ⟨hx1, h1⟩)
        · by_cases h2 : x < p.addr + p.size
          · exact Or.inr ⟨p, List.mem_cons_self, (hown x).mpr (by bv_omega)⟩
          · rcases hcov x (by bv_omega) hx2 with hx | ⟨e, he, hx⟩
            · exact Or.inl (Or.inr hx)
            · exact Or.inr ⟨e, List.mem_cons_of_mem _ he, hx⟩
    · refine ⟨[], Tiles.nil, fun _ h => (List.not_mem_nil h).elim, fun x hx1 hx2 => Or.inl ?_⟩
      rw [covers_append, covers_pending hp]
      exact Or.inl ⟨hx1, hx2⟩
    · obtain ⟨tiles, htiles, hlo, hcov⟩ := ih _ _ _ (by bv_omega) (by bv_omega) hr
      exact ⟨tiles, htiles, fun e he => by have := hlo e he; bv_omega, hcov⟩

/-- No range takes a byte of a tile, when the tiles have all by-value bytes of the frame: each tile lies
    before the last flush, or is still to come. -/
theorem cut_avoids {tiles : List Para} {lo : Addr} (hw : NoWrap plt) (hb : userRbp.toNat + 1 < 2 ^ 64)
    (ht : Tiles plt tiles) (hcov : ∀ x, lo ≤ x → x < userRbp → ByValue plt x → ∃ e ∈ tiles, x ∈ e.span) :
    ∀ fuel i prevRsp segs, lo ≤ i → prevRsp ≤ i →
      (∀ e ∈ tiles, e.addr.toNat + e.size.toNat ≤ prevRsp.toNat ∨ i ≤ e.addr) →
      cut plt userRbp fuel i prevRsp = some segs → ∀ x, (∃ e ∈ tiles, x ∈ e.span) → ¬Covers segs x := by
  have hown : ∀ e ∈ tiles, ∀ x, x ∈ e.span ↔ e.addr.toNat ≤ x.toNat ∧ x.toNat < e.addr.toNat + e.size.toNat := by
    intro e he x
    obtain ⟨hmem, h0, -⟩ := ht.entry e he
    exact Range.mem_iff (le_of_lt (hw e hmem h0))
  intro fuel
  induction fuel with
  | zero => intro i _ _ _ _ _ h; cases h
  | succ fuel ih =>
    intro i prevRsp segs hlo hp hout hc x hx
    have hpend : ¬Covers (pending prevRsp i) x := by
      rw [covers_pending hp]
      obtain ⟨e, he, hxe⟩ := hx
      rw [hown e he] at hxe
      rcases hout e he with h | h <;> bv_omega
    have hnext : contains i plt = 0 → ∀ e ∈ tiles, e.addr.toNat + e.size.toNat ≤ prevRsp.toNat ∨ i + 1 ≤ e.addr := by
      intro hs e he
      obtain ⟨-, -, hsz, hne⟩ := ht.entry e he
      rcases hout e he with h | h
      · exact Or.inl h
      · have hat : e.addr ≠ i := fun heq => hne (by rw [← hsz, heq, hs])
        exact Or.inr (by bv_omega)
    by_cases h : i ≤ userRbp
    · have hn : (i + 1).toNat = i.toNat + 1 := by bv_omega
      rcases cut_succ h hc with ⟨p, hp', rest, hp0, rfl, ⟨hsz, hne⟩, hr, rfl⟩ | ⟨hs, rfl, rest, hr, rfl⟩ | ⟨hs, -, hr⟩
      · have hwp := hw p hp' hp0
        have hq : (p.addr + p.size).toNat = p.addr.toNat + p.size.toNat := by
          rw [BitVec.toNat_add, Nat.mod_eq_of_lt hwp]
        have hpos : 0 < p.size.toNat := by bv_omega
        rw [covers_append, not_or]
        refine ⟨hpend, ?_⟩
        by_cases hlast : p.addr = userRbp
        · cases fuel with
          | zero => cases hr
          | succ fuel =>
            rw [cut_done (by bv_omega)] at hr
            cases hr
            exact covers_nil
        refine ih _ _ rest (by bv_omega) (BitVec.le_refl _) (fun e he => ?_) hr x hx
        -- The skipped entry has the range of a tile, and so ends where a tile does.
        obtain ⟨t, htile, hin⟩ := hcov p.addr hlo (by bv_omega) ⟨p, hp', hp0, Range.start_mem hpos⟩
        have hin' := (hown t htile _).mp hin
        have hstart : t.addr = p.addr := by
          rcases hout t htile with hlt | hge <;> bv_omega
        have hsize : t.size = p.size := by
          obtain ⟨-, -, ht', -⟩ := ht.entry t htile
          rw [← ht', hstart, hsz]
        have hspan : t.span = p.span := congrArg₂ Range.mk hstart hsize
        obtain ⟨-, -, -, hne'⟩ := ht.entry e he
        rcases hout e he with hlt | hge
        · exact Or.inl (by bv_omega)
        rcases ht.apart e he t htile with hsame | hapart
        · have haddr : e.addr = p.addr := congrArg Range.start (hsame.trans hspan)
          have hlen : e.size = p.size := congrArg Range.len (hsame.trans hspan)
          exact Or.inl (by rw [haddr, hlen, hq])
        · have hout' := hapart e.addr (Range.start_mem (r := e.span) (by simp only [Para.span]; bv_omega))
          rw [hown t htile] at hout'
          exact Or.inr (by bv_omega)
      · rw [covers_append, not_or]
        exact ⟨hpend, ih _ _ rest (by bv_omega) (by bv_omega) (hnext hs) hr x hx⟩
      · exact ih _ _ _ (by bv_omega) (by bv_omega) (hnext hs) hr x hx
    · cases fuel <;> rw [cut_done (by bv_omega)] at hc <;> cases hc <;> exact covers_nil

end Cut

/-! ### Whole frames -/

section Segments
variable {plt : List Para} {userRsp userRbp : Addr}

theorem cut_segments (userRsp : Addr) (hw : NoWrap plt) (hb : userRbp.toNat + 1 < 2 ^ 64) :
    cut plt userRbp (userRbp.toNat - userRsp.toNat + 2) userRsp userRsp = some (segments plt userRsp userRbp) := by
  obtain ⟨segs, h⟩ := cut_ends hw hb (userRbp.toNat - userRsp.toNat + 2) userRsp userRsp (by omega)
  rw [segments, h, Option.getD_some]

theorem segments_inner (userRsp : Addr) (hw : NoWrap plt) (hb : userRbp.toNat + 1 < 2 ^ 64) :
    Inner userRsp userRbp (segments plt userRsp userRbp) :=
  cut_inner hw hb _ _ _ _ (BitVec.le_refl _) (cut_segments _ hw hb)

/-- Each byte of the frame lies in a segment or in an entry that the scan skips. -/
theorem segments_tiles (hw : NoWrap plt) (hb : userRbp.toNat + 1 < 2 ^ 64) (hle : userRsp ≤ userRbp) :
    ∃ tiles, Tiles plt tiles ∧ (∀ e ∈ tiles, userRsp ≤ e.addr) ∧
      ∀ x, userRsp ≤ x → x < userRbp → Covers (segments plt userRsp userRbp) x ∨ ∃ e ∈ tiles, x ∈ e.span :=
  cut_tiles hw hb _ _ _ _ (BitVec.le_refl _) hle (cut_segments _ hw hb)

theorem segments_cover (hw : NoWrap plt) (hb : userRbp.toNat + 1 < 2 ^ 64) (hle : userRsp ≤ userRbp) {x : Addr}
    (hx1 : userRsp ≤ x) (hx2 : x < userRbp) : Covers (segments plt userRsp userRbp) x ∨ ByValue plt x := by
  obtain ⟨tiles, htiles, -, hcov⟩ := segments_tiles hw hb hle
  rcases hcov x hx1 hx2 with hx | ⟨e, he, hx⟩
  · exact Or.inl hx
  · obtain ⟨hmem, h0, -⟩ := htiles.entry e he
    exact Or.inr ⟨e, hmem, h0, hx⟩

/-- Tiles that begin in the frame and have its by-value bytes stay as they are. -/
theorem segments_avoid_tiles {tiles : List Para} (hw : NoWrap plt) (hb : userRbp.toNat + 1 < 2 ^ 64)
    (ht : Tiles plt tiles) (hin : ∀ e ∈ tiles, userRsp ≤ e.addr) (hcov : ∀ x, userRsp ≤ x → x < userRbp →
      ByValue plt x → ∃ e ∈ tiles, x ∈ e.span)
    {x : Addr} (hx : ∃ e ∈ tiles, x ∈ e.span) : ¬Covers (segments plt userRsp userRbp) x :=
  cut_avoids hw hb ht hcov _ _ _ _ (BitVec.le_refl _) (BitVec.le_refl _) (fun e he => Or.inr (hin e he))
    (cut_segments _ hw hb) x hx

theorem Distinct.tiles (hw : NoWrap plt) (hd : Distinct plt) : Tiles plt (plt.filter fun p => p.pointer = 0) := by
  have hval : ∀ e ∈ plt.filter fun p => p.pointer = 0, e ∈ plt ∧ e.pointer = 0 := fun e he => by simpa using he
  constructor
  · intro e he
    obtain ⟨hmem, h0⟩ := hval e he
    obtain ⟨hpos, hown⟩ := hd e hmem h0
    refine ⟨hmem, h0, contains_eq h0 hmem fun q hq hqa => hown q hq (hqa ▸ Range.start_mem (r := e.span) hpos), ?_⟩
    rintro hzero
    rw [hzero] at hpos
    exact absurd hpos (lt_irrefl 0)
  · intro e he f hf
    obtain ⟨hmem, h0⟩ := hval e he
    obtain ⟨hmem', h0'⟩ := hval f hf
    by_cases hfe : f.addr ∈ e.span
    · exact Or.inl ((hd e hmem h0).2 f hmem' hfe).2.symm
    by_cases hef : e.addr ∈ f.span
    · exact Or.inl ((hd f hmem' h0').2 e hmem hef).2
    refine Or.inr fun x hxe hxf => ?_
    have he' : ∀ x, x ∈ e.span ↔ _ := fun x => Range.mem_iff (le_of_lt (hw e hmem h0))
    have hf' : ∀ x, x ∈ f.span ↔ _ := fun x => Range.mem_iff (le_of_lt (hw f hmem' h0'))
    rw [he'] at hfe hxe
    rw [hf'] at hef hxf
    simp only [Para.span] at hfe hef hxe hxf
    omega

/-- Distinct by-value entries inside the frame stay as they are. -/
theorem segments_avoid (hw : NoWrap plt) (hb : userRbp.toNat + 1 < 2 ^ 64) (hd : Distinct plt)
    (hin : ∀ p ∈ plt, p.pointer = 0 → userRsp ≤ p.addr) {x : Addr} (hx : ByValue plt x) :
    ¬Covers (segments plt userRsp userRbp) x := by
  have hmem : ∀ e, e ∈ plt.filter (fun p => p.pointer = 0) ↔ e ∈ plt ∧ e.pointer = 0 := fun e => by simp
  have hcov : ∀ {x}, ByValue plt x → ∃ e ∈ plt.filter fun p => p.pointer = 0, x ∈ e.span := fun ⟨p, hp, h0, hx⟩ =>
    ⟨p, (hmem p).mpr ⟨hp, h0⟩, hx⟩
  exact segments_avoid_tiles hw hb (hd.tiles hw) (fun e he => hin e ((hmem e).mp he).1 ((hmem e).mp he).2)
    (fun _ _ _ h => hcov h) (hcov hx)

end Segments

end StackVault
