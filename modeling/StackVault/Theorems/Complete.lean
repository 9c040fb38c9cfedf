import StackVault.Theorems.Growth
import StackVault.Theorems.Unresolved

/-! Chains that are exposed completely. The counters of the list are user memory too, and every pointer entry is
    counted down; set apart from them, the chase is stopped by an index that ends before a segment and by the recording
    of holes: a `kmalloc` call that fails, or a list head that closes elsewhere because the array has grown since it
    was set up. -/

namespace StackVault
open Memory

/-- The call returns 0, user memory has the saved bytes of what is exposed, and is unchanged everywhere else, the ranges
    `free` set apart. -/
def ExposesAll (env : Env) (m : Mem) (p : SbufPtr) (arg : Addr) (free : List Span) (c : Chase) : Prop :=
  ∃ fuel c', User.restorePointers env (some p) arg fuel c = some (.ok (0, c')) ∧
    ∀ x, ¬Covers free x → c'.mem x = if Covers (exposed m (listAt arg c.mem)) x then m x else c.mem x

/-- The ranges that the look-up finds. -/
def located (segs : List StackBuf) (rs : List Span) : List Span :=
  rs.filter fun r => findInStackBuf r.start r.len segs ≠ 0

/-- The hole list closes at the first element, the look-up finds every cell, and every target that it does not find is
    there already; and each range that is found gets its hole. -/
structure Exposable (env : Env) (m : Mem) (p : SbufPtr) (b : Sbuf) (plt : List Para) (c : Chase) : Prop where
  passes : ∀ tmp ∈ plt, tmp.pointer ≠ 0 → (b.entry 0).holeList.home = (p, 0) ∧
    ∀ r ∈ cells m tmp.pointer.toNat tmp.addr, findInStackBuf r.start r.len b.segs ≠ 0
  there : ∀ x, Covers (exposed m plt) x → ¬Covers (located b.segs (exposed m plt)) x → c.mem x = m x
  gives : ∀ k < (located b.segs (exposed m plt)).length, env.Gives c.heap.next k

section Complete
variable {env : Env} {m mem : Mem} {segs : List StackBuf} {home : Prop} [Decidable home] {p : SbufPtr} {b : Sbuf}
  {c : Chase} {plt plt' : List Para} {tmp : Para} {r : Span} {arg x : Addr}

theorem located_append {rs ss : List Span} : located segs (rs ++ ss) = located segs rs ++ located segs ss :=
  List.filter_append _ _

namespace SavedOf

theorem lies_located_iff {rs : List Span} (h : SavedOf m segs) (hlies : Lies segs rs) :
    Lies (reached segs) rs ↔ ∀ r ∈ rs, findInStackBuf r.start r.len segs ≠ 0 :=
  forall₂_congr fun r hr => (h.find_ne_zero_iff (hlies r hr)).symm

theorem located_eq {rs : List Span} (h : SavedOf m segs) (hreach : Lies (reached segs) rs) : located segs rs = rs :=
  List.filter_eq_self.mpr fun r hr => by
    obtain ⟨e, he, hrange⟩ := hreach r hr
    exact decide_eq_true (h.find_ne_zero he hrange)

/-- An entry whose cells are found is passed. Its target is written back when it is found, too. -/
theorem pointer_located (h : SavedOf m segs) (hh : home) (h0 : tmp.pointer ≠ 0) (hlies : Lies segs (tmp.exposed m))
    (hcells : Lies (reached segs) (cells m tmp.pointer.toNat tmp.addr)) :
    pointerTrail segs home tmp = ⟨located segs (tmp.exposed m), .ok true⟩ := by
  rw [Para.exposed, if_neg h0] at hlies ⊢
  obtain ⟨-, htarget⟩ := lies_append.mp hlies
  obtain ⟨hin, -⟩ := lies_cons.mp htarget
  have hlog : targetTrail segs home (follow m tmp.pointer.toNat tmp.addr) tmp.size =
      ⟨located segs [⟨follow m tmp.pointer.toNat tmp.addr, tmp.size⟩], .ok ()⟩ := by
    by_cases hfind : findInStackBuf (follow m tmp.pointer.toNat tmp.addr) tmp.size segs = 0
    · rw [targetTrail, if_pos hfind, located, List.filter_cons_of_neg (by simpa using hfind), List.filter_nil]
      rfl
    · have hreach := (h.find_ne_zero_iff hin).mp hfind
      rw [located, List.filter_cons_of_pos (by simpa using hfind), List.filter_nil]
      exact h.target hh hreach
  obtain ⟨e, he, hr⟩ := hcells ⟨tmp.addr, 8⟩ (first_mem_cells h0)
  rw [pointerTrail_found segs home h0 (h.find_ne_zero he hr), h.chase hh hcells, Trail.bind_mk_ok, hlog,
    Trail.bind_mk_ok,
    located_append, h.located_eq hcells]
  simp

/-- A list whose cells are all found is passed, and what is found of its ranges is written back. -/
theorem pointers_located (h : SavedOf m segs) : ∀ {plt : List Para}, Lies segs (exposed m plt) →
    (∀ tmp ∈ plt, tmp.pointer ≠ 0 → home ∧ Lies (reached segs) (cells m tmp.pointer.toNat tmp.addr)) →
    pointersTrail segs home plt = ⟨located segs (exposed m plt), .ok (0, plt.map fun p => { p with pointer := 0 })⟩
  | [], _, _ => rfl
  | tmp :: rest, hlies, hpass => by
    obtain ⟨hfirst, hrest⟩ := lies_append.mp hlies
    have ih := h.pointers_located hrest fun q hq => hpass q (List.mem_cons_of_mem _ hq)
    have hlog : located segs (exposed m (tmp :: rest)) =
        located segs (tmp.exposed m) ++ located segs (exposed m rest) :=
      located_append
    by_cases h0 : tmp.pointer = 0
    · rw [pointersTrail_value h0, ih, hlog, Para.exposed, if_pos h0]
      simp [Except.map, located, ← h0]
    · obtain ⟨hh, hcells⟩ := hpass tmp List.mem_cons_self h0
      have hpointer := h.pointer_located hh h0 hfirst hcells
      rw [pointersTrail_found h0 (by rw [hpointer]), hpointer, ih, hlog]
      rfl

/-- Conversely, the entries of a list that was passed. -/
theorem pointers_passed (h : SavedOf m segs) : ∀ {plt plt' : List Para}, Lies segs (exposed m plt) →
    (pointersTrail segs home plt).result = .ok (0, plt') →
    ∀ tmp ∈ plt, tmp.pointer ≠ 0 → home ∧ Lies (reached segs) (cells m tmp.pointer.toNat tmp.addr)
  | [], _, _, _ => fun _ ht => absurd ht List.not_mem_nil
  | tmp :: rest, plt', hlies, hok => by
    obtain ⟨hfirst, hrest⟩ := lies_append.mp hlies
    by_cases h0 : tmp.pointer = 0
    · rw [pointersTrail_value h0] at hok
      obtain ⟨⟨ret, rest'⟩, hx, hx'⟩ := map_eq_ok.mp hok
      cases hx'
      exact List.forall_mem_cons.mpr ⟨fun hne => absurd h0 hne, h.pointers_passed hrest hx⟩
    · obtain ⟨hpass, rest', hx⟩ := pointersTrail_cons_ok h0 hok
      rw [Para.exposed, if_neg h0] at hfirst
      obtain ⟨hh, hcells, -⟩ := h.pointer_passed h0 (lies_append.mp hfirst).1 hpass
      exact List.forall_mem_cons.mpr ⟨fun _ => ⟨hh, hcells⟩, h.pointers_passed hrest hx⟩

theorem mem_of_hasRange {e : StackBuf} (h : SavedOf m segs) (he : e ∈ segs) (hr : e.HasRange r) (hx : x ∈ r) :
    x ∈ e.span := by
  obtain ⟨hlo, hup⟩ := hr
  rw [Range.mem_iff (le_of_lt (lt_of_le_of_lt hup (h.span e he)))] at hx
  exact (h.mem_span he).mpr (by omega)

/-- What is written back lies in segments, where the list has no byte. -/
theorem spares_list (h : SavedOf m b.segs) (hform : Formed arg mem) (hlies : Lies b.segs (exposed m (listAt arg mem)))
    (hspares : Spares arg mem (b.segs.map StackBuf.span)) : SparesList p b arg mem := by
  refine ⟨hform, fun r hr x hx hlist => ?_⟩
  have hunwrapped : FindsUnwrapped b.segs (exposed m (listAt arg mem)) := fun s hs _ => by
    obtain ⟨e, he, -, hup⟩ := hlies s hs
    exact lt_of_le_of_lt hup (h.span e he)
  obtain ⟨hmem, -⟩ := h.copiesOf.pointers_logs hunwrapped r hr
  obtain ⟨e, he, hrange⟩ := hlies r hmem
  exact hspares x hlist ⟨_, List.mem_map_of_mem he, h.mem_of_hasRange he hrange hx⟩

end SavedOf

/-- The list in memory is passed like the value, when the call writes nothing over it. -/
theorem exposes_iff (h : SavedOf m b.segs) (hb : c.heap.sbufs p = some b)
    (hlies : SavedOf.Lies b.segs (exposed m (listAt arg c.mem))) (hspares : SparesList p b arg c.mem)
    (hoff : ∀ x, Covers (exposed m (listAt arg c.mem)) x → ¬Covers (depthSpans arg c.mem) x) :
    ExposesAll env m p arg (depthSpans arg c.mem) c ↔ Exposable env m p b (listAt arg c.mem) c := by
  have hcells : ∀ tmp ∈ listAt arg c.mem, tmp.pointer ≠ 0 → SavedOf.Lies b.segs (cells m tmp.pointer.toNat tmp.addr) :=
    fun tmp ht h0 r hr => hlies r <| List.mem_flatMap.mpr ⟨tmp, ht, by
      rw [Para.exposed, if_neg h0]
      exact List.mem_append_left _ hr⟩
  -- Memory behind the write-backs of what is found.
  have hmem : ∀ x, (Chase.after p b c (located b.segs (exposed m (listAt arg c.mem)))).mem x =
      if Covers (located b.segs (exposed m (listAt arg c.mem))) x then m x else c.mem x := fun x =>
    replay_saved fun r hr => by
      obtain ⟨hr, hfind⟩ := List.mem_filter.mp hr
      obtain ⟨e, he, hrange⟩ := (h.find_ne_zero_iff (hlies r hr)).mp (of_decide_eq_true hfind)
      obtain ⟨src, hl, hsrc⟩ := h.lookUp he hrange
      rw [bytesOf_ok hl]
      exact hsrc
  constructor
  · rintro ⟨fuel, c', hret, hkept⟩
    obtain ⟨⟨ret, plt', c₁⟩, hc, hret', htracks⟩ := (restorePointers_ends hspares.formed hb hspares.clear hret).to_ok
    obtain rfl : (0 : Int) = ret := hret'
    obtain ⟨hres, hc₁, hgive⟩ := restorePointers_returns hb hc
    have hpass := h.pointers_passed hlies hres
    rw [h.pointers_located hlies hpass] at hc₁ hgive
    refine ⟨fun tmp ht h0 => ?_, fun x hx hnot => ?_, hgive⟩
    · obtain ⟨hh, hreach⟩ := hpass tmp ht h0
      exact ⟨hh, (h.lies_located_iff (hcells tmp ht h0)).mp hreach⟩
    · have hsaved := hkept x (hoff x hx)
      rw [if_pos hx, htracks.off x (hoff x hx), hc₁, hmem, if_neg hnot] at hsaved
      exact hsaved
  · intro hexp
    have hpass : ∀ tmp ∈ listAt arg c.mem, tmp.pointer ≠ 0 → (b.entry 0).holeList.home = (p, 0) ∧
        SavedOf.Lies (reached b.segs) (cells m tmp.pointer.toNat tmp.addr) := fun tmp ht h0 =>
      ⟨(hexp.passes tmp ht h0).1, (h.lies_located_iff (hcells tmp ht h0)).mpr (hexp.passes tmp ht h0).2⟩
    have htrail : callTrail p b (listAt arg c.mem) = _ := h.pointers_located hlies hpass
    have hcall : restorePointers env (some p) (listAt arg c.mem) (Chase.after p b c []) = _ := restorePointers_tell
    rw [Chase.after_nil hb, ← callTrail, htrail, Chase.tells, Trail.tellWhile_of_ok (by simpa using hexp.gives)]
      at hcall
    obtain ⟨r, hr, hends⟩ := restorePointers_follows env hspares.formed hb hspares.clear (Nat.le_refl _)
    rw [hcall] at hends
    obtain ⟨⟨ret, c'⟩, rfl, hret, htracks⟩ := hends.of_ok
    obtain rfl : ret = 0 := hret
    refine ⟨_, c', hr, fun x hx => ?_⟩
    refine (htracks.off x hx).trans ((hmem x).trans ?_)
    by_cases hcov : Covers (exposed m (listAt arg c.mem)) x
    · rw [if_pos hcov]
      split
      · rfl
      · next hnot => exact hexp.there x hcov hnot
    · rw [if_neg hcov, if_neg fun hlx => hcov (hlx.mono (List.filter_subset_self _))]

/-- Complete exposure. A list without pointers asks for none. A list with pointers, outside the segments, is never left
    unchanged; but for its counters, the call does what it is for, over separate copies of disjoint segments that hold
    every cell and target, aliasing or not, if and only if the list is exposable. -/
theorem chains_exposed_iff (h : SavedOf m b.segs) (hb : c.heap.sbufs p = some b)
    (hlies : SavedOf.Lies b.segs (exposed m (listAt arg c.mem))) :
    (AllByValue (listAt arg c.mem) → ExposesAll env m p arg [] c) ∧
      (Formed arg c.mem → Spares arg c.mem (b.segs.map StackBuf.span) →
        (ExposesAll env m p arg [] c ↔ AllByValue (listAt arg c.mem)) ∧
        (ExposesAll env m p arg (depthSpans arg c.mem) c ↔ Exposable env m p b (listAt arg c.mem) c)) := by
  have hvalue : AllByValue (listAt arg c.mem) → ExposesAll env m p arg [] c := fun hv =>
    ⟨_, c, User.restoreFrom_returns hv (Nat.lt_succ_self _), fun x _ => by rw [exposed_byValue hv, if_neg covers_nil]⟩
  refine ⟨hvalue, fun hform hspares => ?_⟩
  have hlist : SparesList p b arg c.mem := h.spares_list hform hlies hspares
  have hoff : ∀ x, Covers (exposed m (listAt arg c.mem)) x → ¬Covers (listSpans arg c.mem) x := by
    rintro x ⟨r, hr, hxr⟩ hx
    obtain ⟨e, he, hrange⟩ := hlies r hr
    exact hspares x hx ⟨_, List.mem_map_of_mem he, h.mem_of_hasRange he hrange hxr⟩
  refine ⟨⟨fun hall => ?_, hvalue⟩, exposes_iff h hb hlies hlist fun x hx hd =>
    hoff x hx (covers_listSpans_of_depth hd)⟩
  obtain ⟨fuel, c', hret, hkept⟩ := hall
  obtain ⟨⟨ret, plt', c₁⟩, hc, hret', htracks⟩ := (restorePointers_ends hform hb hlist.clear hret).to_ok
  obtain rfl : (0 : Int) = ret := hret'
  obtain ⟨hres, -, -⟩ := restorePointers_returns hb hc
  rw [h.pointers_located hlies (h.pointers_passed hlies hres)] at hres
  cases hres
  -- Every entry that was passed has depth 0 then.
  have hsame : SameList arg c.mem c'.mem := fun x hx => by
    rw [hkept x (by simp), if_neg fun hexp => hoff x hexp hx]
  have hzero : listAt arg c.mem = (listAt arg c.mem).map fun p => { p with pointer := 0 } := hsame.listAt ▸ htracks.list
  intro tmp ht
  rw [hzero] at ht
  obtain ⟨q, -, rfl⟩ := List.mem_map.mp ht
  rfl

end Complete

/-! ### A list that is counted down -/

/-- A pointer that stays in the frame. -/
def inward : List Para := [⟨0x4008, 4, 1⟩]

theorem exposed_inward : exposed pointedMem inward = [⟨0x4008, 8⟩, ⟨0x4010, 4⟩] := by decide

theorem listAt_inward : listAt 0x7000 (Chase.listed inward).mem = inward := LaidApart.listAt_putList (by decide)

theorem listSpans_inward : listSpans 0x7000 (Chase.listed inward).mem = [⟨0x7000, 4⟩, ⟨0x7008, 8⟩, ⟨0x7010, 20⟩] :=
  LaidApart.listSpans_putList (by decide)

theorem depthSpans_inward : depthSpans 0x7000 (Chase.listed inward).mem = [⟨0x7020, 4⟩] :=
  LaidApart.depthSpans_putList (by decide)

theorem chains_exposed_whole :
    ExposesAll Env.sample pointedMem 0 0x7000 (depthSpans 0x7000 (Chase.listed inward).mem) (.listed inward) ∧
      ¬ExposesAll Env.sample pointedMem 0 0x7000 [] (.listed inward) := by
  have hlies : SavedOf.Lies whole.segs (exposed pointedMem (listAt 0x7000 (Chase.listed inward).mem)) := by
    rw [listAt_inward, exposed_inward, whole_segs]
    exact List.forall_mem_cons.mpr ⟨⟨_, List.mem_cons_self, by decide, by decide⟩,
      List.forall_mem_singleton.mpr ⟨_, List.mem_cons_self, by decide, by decide⟩⟩
  have hspares : Spares 0x7000 (Chase.listed inward).mem (whole.segs.map StackBuf.span) :=
    .of_beside (by rw [listSpans_inward]; decide)
  have hform : Formed 0x7000 (Chase.listed inward).mem := .of_beside (by rw [depthSpans_inward]; decide)
  obtain ⟨hcounted, hiff⟩ := (chains_exposed_iff whole_savedOf rfl hlies).2 hform hspares
  rw [listAt_inward] at hcounted hiff
  refine ⟨hiff.mpr ⟨?_, ?_, fun _ _ => Env.sample_allocOk _⟩, fun hall => ?_⟩
  · exact List.forall_mem_singleton.mpr fun _ => ⟨rfl, by decide⟩
  · intro x hx hnot
    exact absurd (show Covers (located whole.segs (exposed pointedMem inward)) x from exposed_inward ▸ hx) hnot
  · exact absurd (hcounted.mp hall _ List.mem_cons_self) (by decide)

/-! ### An array that has grown -/

/-- A frame of 34 segments, whose last one has a pointer and its target. -/
def crowdedPointer : List Para := crowded ++ [⟨0x3042, 4, 1⟩]

def crowdedMem : Mem :=
  putList 0x9000 0x9010 crowdedPointer fun x => if x = 0x3042 then 0x4a else if x = 0x3043 then 0x30 else 0

theorem faultOf_map {α β : Type} {f : α → β} : ∀ {x : Option (Except Crash α)},
    faultOf (x.map fun r => r.map f) = faultOf x
  | some (.error _) | some (.ok _) | none => rfl

/-- The list head of its first segment was copied as it stood, and closes in the array that was freed. -/
theorem crowded_pointer_faults : ∃ e, User.jsysEncryptStack Env.sample 100 (.frame 0x1010 0x3000 0x3052) 0x9000
    { loaded with mem := crowdedMem } = some (.error e) ∧ e.fault = .useAfterFree := by
  have hapart : LaidApart 0x9000 0x9010 crowdedPointer.length := by decide
  have hlist : listAt 0x9000 crowdedMem = crowdedPointer := hapart.listAt_putList
  have hspans : listSpans 0x9000 crowdedMem =
      [⟨0x9000, 4⟩, ⟨0x9008, 8⟩] ++ (List.range 34).map fun i => ⟨entryAddr 0x9010 i, 20⟩ := hapart.listSpans_putList
  have hcut : ∃ segs, cut (listAt 0x9000 crowdedMem) 0x3052 100 0x3000 0x3000 = some segs ∧
      Spares 0x9000 crowdedMem segs := by
    refine ⟨(cut crowdedPointer 0x3052 100 0x3000 0x3000).get (by decide +kernel), ?_, .of_beside ?_⟩
    · rw [hlist, Option.some_get]
    · rw [hspans]
      decide +kernel
  obtain ⟨segs, hcut, hspares⟩ := hcut
  have hacc : Accepts Env.sample (.frame 0x1010 0x3000 0x3052) := by decide
  obtain ⟨hm, g, _, _, _, hready⟩ := loaded_ready hacc
  obtain ⟨name, hn⟩ := Option.isSome_iff_exists.mp hacc.1
  -- The scan with the list as a value is run, and the chase in the memory that it leaves.
  have hrun : ((setup Env.sample loaded).toOption.bind fun g => if ht : g.sbufStackTop < 16 then
      ((scan Env.sample crowdedPointer 0x3052 100 (.start 0x3000 (g.scanFrom ht crowdedMem))).bind
        Except.toOption).bind fun v =>
        faultOf (User.restorePointers Env.sample v.stackBuf 0x9000 100 { mem := v.mem, heap := v.heap, written := [] })
    else none) = some .useAfterFree := by decide +kernel
  rw [hready.set, Except.toOption, Option.bind_some, dif_pos hready.top] at hrun
  obtain ⟨v, hv, hfault⟩ := Option.bind_eq_some_iff.mp hrun
  obtain ⟨r, hr, hrv⟩ := Option.bind_eq_some_iff.mp hv
  obtain rfl : r = .ok v := by
    cases r with
    | error => cases hrv
    | ok => exact congrArg Except.ok (Option.some.inj hrv)
  have hscan : User.scan Env.sample 0x9000 0x3052 100 (.start 0x3000 (g.scanFrom hready.top crowdedMem)) =
      some (.ok v) := by
    rw [← hlist] at hr
    exact (scan_spared hcut hspares).trans hr
  refine faultOf_eq_some ?_
  rw [User.encrypt_accepted (s := { loaded with mem := crowdedMem }) hm hready.set hn hacc]
  show faultOf (User.encryptFrame Env.sample 100 0x3000 0x3052 0x9000 name g crowdedMem) = _
  rw [User.encryptFrame_of_scan _ Env.sample_allocOk hready.depth hready.top hscan, faultOf_map]
  exact hfault

/-- Two segments in an array that was made for one. -/
def grown : Sbuf :=
  ((Sbuf.push { cur := 0, cap := 1, entry := fun _ => default }
    (newItem Env.sample 1 pointedMem 0 0 0x4000 0x20)).doubled
    Env.sample 2).push (newItem Env.sample 4 pointedMem 2 1 0x5000 8)

theorem grown_savedOf : SavedOf pointedMem grown.segs := by
  have hsegs : grown.segs = [grown.entry 0, grown.entry 1] := rfl
  have hall : ∀ {P : StackBuf → Prop}, P (grown.entry 0) → P (grown.entry 1) → ∀ e ∈ grown.segs, P e := fun h0 h1 => by
    rw [hsegs]
    exact List.forall_mem_cons.mpr ⟨h0, List.forall_mem_singleton.mpr h1⟩
  refine ⟨⟨hall (by decide) (by decide), ?_⟩, hall (fun _ _ => rfl) fun _ _ => rfl, hall (by decide) (by decide), ?_,
    hall (by decide) (by decide)⟩
  · rw [hsegs]
    exact List.pairwise_pair.mpr (Range.apart_of_le (by decide) (by decide) (by decide))
  · rw [hsegs]
    exact List.pairwise_pair.mpr (Range.apart_of_le (by decide) (by decide) (by decide))

/-- The counter of the pointer is left at 0, outside what the list exposes. And where the array has grown, the same
    pointer faults. -/
theorem exposure_incomplete :
    (exposed pointedMem (listAt 0x7000 (Chase.listed inward).mem) = [⟨0x4008, 8⟩, ⟨0x4010, 4⟩] ∧
      (∃ c', User.restorePointers Env.sample (some 0) 0x7000 4 (.listed inward) = some (.ok (0, c')) ∧
        (Chase.listed inward).mem 0x7020 = 1 ∧ c'.mem 0x7020 = 0) ∧
      ¬ExposesAll Env.sample pointedMem 0 0x7000 [] (.listed inward)) ∧
    (∃ h₀ h₁ h, initStackBuf Env.sample 1 loaded.heap = (some 0, h₀) ∧
      copyStackBuf Env.sample h₀ pointedMem (some 0) 0x4000 0x20 = .ok (0, some 0, h₁) ∧
      copyStackBuf Env.sample h₁ pointedMem (some 0) 0x5000 8 = .ok (0, some 2, h) ∧ h.sbufs 2 = some grown ∧
      SavedOf pointedMem grown.segs ∧ SavedOf.Lies grown.segs (exposed pointedMem inward) ∧
      ∀ free, ¬ExposesAll Env.sample pointedMem 2 0x7000 free { Chase.listed inward with heap := h }) ∧
    (∀ r ∈ exposed crowdedMem crowdedPointer, ∃ s ∈ segments crowdedPointer 0x3000 0x3052,
      s.start.toNat ≤ r.start.toNat ∧ r.start.toNat + r.len.toNat ≤ s.start.toNat + s.len.toNat) ∧
    ∃ e, User.jsysEncryptStack Env.sample 100 (.frame 0x1010 0x3000 0x3052) 0x9000 { loaded with mem := crowdedMem } =
      some (.error e) ∧ e.fault = .useAfterFree := by
  have hrun : ∃ c', User.restorePointers Env.sample (some 0) 0x7000 4 (.listed inward) = some (.ok (0, c')) ∧
    c'.mem 0x7020 = 0 := ⟨_, rfl, rfl⟩
  have hexec : ∃ h₀ h₁ h, initStackBuf Env.sample 1 loaded.heap = (some 0, h₀) ∧
      copyStackBuf Env.sample h₀ pointedMem (some 0) 0x4000 0x20 = .ok (0, some 0, h₁) ∧
      copyStackBuf Env.sample h₁ pointedMem (some 0) 0x5000 8 = .ok (0, some 2, h) ∧ h.sbufs 2 = some grown ∧
      ∃ e, User.restorePointers Env.sample (some 2) 0x7000 4 { Chase.listed inward with heap := h } = some (.error e) :=
    ⟨_, _, _, rfl, rfl, rfl, rfl, _, rfl⟩
  refine ⟨⟨listAt_inward ▸ exposed_inward, ?_, ?_⟩, ?_, by decide +kernel, crowded_pointer_faults⟩
  · obtain ⟨c', hret, hzero⟩ := hrun
    exact ⟨c', hret, by decide +kernel, hzero⟩
  · rintro ⟨fuel, c₁, hret₁, hkept⟩
    obtain ⟨c', hret, hzero⟩ := hrun
    cases User.restoreFrom_unique hret₁ hret
    have hcounter := hkept 0x7020 (by simp)
    rw [listAt_inward, exposed_inward, hzero, if_neg (by decide)] at hcounter
    exact absurd hcounter (by decide +kernel)
  · obtain ⟨h₀, h₁, h, hinit, hfirst, hsecond, hlive, e, hcrash⟩ := hexec
    refine ⟨h₀, h₁, h, hinit, hfirst, hsecond, hlive, grown_savedOf, ?_, ?_⟩
    · rw [exposed_inward]
      exact List.forall_mem_cons.mpr ⟨⟨_, List.mem_cons_self, by decide, by decide⟩,
        List.forall_mem_singleton.mpr ⟨_, List.mem_cons_self, by decide, by decide⟩⟩
    · rintro free ⟨fuel, c₁, hret, -⟩
      cases User.restoreFrom_unique hret hcrash

end StackVault
