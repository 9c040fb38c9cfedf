import StackVault.Theorems.Growth
import StackVault.Theorems.Walk

/-! The scan when the memory for a larger save buffer is refused. `copy_stack_buf` then returns -1 and saves
    nothing, and the loop, which does not look, clears the range all the same. Every cleared byte is saved
    exactly when each allocation that grows the buffer succeeds. The positions of a loop that ends are all
    different, so its ranges are disjoint whatever the list, and a lost range is in no later one. -/

namespace StackVault
open Memory

/-! ### The ranges of an ended loop -/

/-- From `i` the loop leaves the frame after `n` iterations. -/
inductive Leaves (plt : List Para) (userRbp : Addr) : Nat → Addr → Prop
  | out {i : Addr} (h : userRbp < i) : Leaves plt userRbp 0 i
  | step {n : Nat} {i : Addr} (h : i ≤ userRbp)
      (hnext : Leaves plt userRbp n (if contains i plt ≠ 0 then i + contains i plt else i + 1)) :
      Leaves plt userRbp (n + 1) i

section Leaves
variable {plt : List Para} {userRbp i prevRsp x : Addr} {fuel n m : Nat} {segs : List Span}

theorem Leaves.unique (h : Leaves plt userRbp n i) : ∀ {m}, Leaves plt userRbp m i → n = m := by
  induction h with
  | out h =>
    rintro _ (h' | ⟨h', -⟩)
    · rfl
    · exact absurd h' (BitVec.not_le.mpr h)
  | step h _ ih =>
    rintro _ (h' | ⟨-, hnext⟩)
    · exact absurd h (BitVec.not_le.mpr h')
    · rw [ih hnext]

/-- The ranges are disjoint: each of their bytes was a position of the loop, and the number of iterations
    left tells the positions apart. Those from the last flush on have more left than `i`. -/
theorem cut_apart (hb : userRbp.toNat + 1 < 2 ^ 64) :
    ∀ {fuel : Nat} {i prevRsp : Addr} {segs : List Span}, prevRsp ≤ i →
    cut plt userRbp fuel i prevRsp = some segs → ∃ n, Leaves plt userRbp n i ∧
      ((∀ x, prevRsp ≤ x → x < i → ∃ m, n < m ∧ Leaves plt userRbp m x) → segs.Pairwise Range.Apart ∧
        ∀ x, Covers segs x → ∃ m, Leaves plt userRbp m x ∧ (n < m → prevRsp ≤ x ∧ x < i))
  | 0, _, _, _, _, hc => by cases hc
  | fuel + 1, i, prevRsp, segs, hp, hc => by
    by_cases hi : i ≤ userRbp
    · have hn : (i + 1).toNat = i.toNat + 1 := by bv_omega
      rcases cut_succ hi hc with ⟨p, -, rest, -, rfl, ⟨hsz, hne⟩, hr, rfl⟩ | ⟨hs, rfl, rest, hr, rfl⟩ | ⟨hs, hlt, hr⟩
      · -- A skip, which can go back: the flushed bytes have more iterations left than any position after it.
        obtain ⟨n, hleave, hrest⟩ := cut_apart hb (BitVec.le_refl _) hr
        obtain ⟨hap, hcov⟩ := hrest fun x h1 h2 => by bv_omega
        refine ⟨n + 1, .step hi (by rw [if_pos (by rw [hsz]; exact hne), hsz]; exact hleave), fun hold =>
          ⟨?_, fun x hx => ?_⟩⟩
        · refine List.pairwise_append.mpr ⟨?_, hap, fun r hr s hs' x hxr hxs => ?_⟩
          · unfold pending
            split <;> simp
          · obtain ⟨hx1, hx2⟩ := (covers_pending hp).mp ⟨r, hr, hxr⟩
            obtain ⟨m, hm, hmx⟩ := hold x hx1 hx2
            obtain ⟨m', hmx', hlow⟩ := hcov x ⟨s, hs', hxs⟩
            obtain rfl := hmx.unique hmx'
            have := hlow (by omega)
            bv_omega
        · rcases covers_append.mp hx with hx | hx
          · obtain ⟨hx1, hx2⟩ := (covers_pending hp).mp hx
            obtain ⟨m, hm, hmx⟩ := hold x hx1 hx2
            exact ⟨m, hmx, fun _ => ⟨hx1, hx2⟩⟩
          · obtain ⟨m, hmx, hlow⟩ := hcov x hx
            refine ⟨m, hmx, fun hm => ?_⟩
            have := hlow (by omega)
            bv_omega
      · -- The last iteration.
        have hout : i < i + 1 := by bv_omega
        cases fuel with
        | zero => cases hr
        | succ fuel =>
          rw [cut_done hout] at hr
          cases hr
          refine ⟨1, .step hi (by rw [if_neg (by rw [hs]; simp)]; exact .out hout), fun hold => ⟨?_, fun x hx => ?_⟩⟩
          · unfold pending
            split <;> simp
          · rw [List.append_nil] at hx
            obtain ⟨hx1, hx2⟩ := (covers_pending hp).mp hx
            obtain ⟨m, hm, hmx⟩ := hold x hx1 hx2
            exact ⟨m, hmx, fun _ => ⟨hx1, hx2⟩⟩
      · -- A byte that is no parameter: `i` itself joins the bytes since the last flush.
        obtain ⟨n, hleave, hrest⟩ := cut_apart hb (by bv_omega) hr
        have hstep : Leaves plt userRbp (n + 1) i := .step hi (by rw [if_neg (by rw [hs]; simp)]; exact hleave)
        refine ⟨n + 1, hstep, fun hold => ?_⟩
        obtain ⟨hap, hcov⟩ := hrest fun x h1 h2 => by
          by_cases hx : x = i
          · exact ⟨n + 1, by omega, hx ▸ hstep⟩
          · obtain ⟨m, hm, hmx⟩ := hold x h1 (by bv_omega)
            exact ⟨m, by omega, hmx⟩
        refine ⟨hap, fun x hx => ?_⟩
        obtain ⟨m, hmx, hlow⟩ := hcov x hx
        refine ⟨m, hmx, fun hm => ?_⟩
        obtain ⟨h1, h2⟩ := hlow (by omega)
        refine ⟨h1, ?_⟩
        have hxi : x ≠ i := fun hxi => by
          have := hstep.unique (hxi ▸ hmx)
          omega
        bv_omega
    · have hout := BitVec.not_le.mp hi
      rw [cut_done hout] at hc
      cases hc
      exact ⟨0, .out hout, fun _ => ⟨List.Pairwise.nil, fun x hx => absurd hx covers_nil⟩⟩

theorem cut_nonempty {userRbp : Addr} :
    ∀ {fuel : Nat} {i prevRsp : Addr} {segs : List Span}, cut plt userRbp fuel i prevRsp = some segs →
    ∀ r ∈ segs, 0 < r.len.toNat
  | 0, _, _, _, hc => by cases hc
  | fuel + 1, i, prevRsp, segs, hc => by
    have hpend : ∀ r ∈ pending prevRsp i, 0 < r.len.toNat := fun r hr => by
      obtain ⟨hlt, rfl⟩ := mem_pending.mp hr
      bv_omega
    by_cases hi : i ≤ userRbp
    · rcases cut_succ hi hc with ⟨p, -, rest, -, -, -, hr, rfl⟩ | ⟨-, -, rest, hr, rfl⟩ | ⟨-, -, hr⟩
      · exact List.forall_mem_append.mpr ⟨hpend, cut_nonempty hr⟩
      · exact List.forall_mem_append.mpr ⟨hpend, cut_nonempty hr⟩
      · exact cut_nonempty hr
    · rw [cut_done (BitVec.not_le.mp hi)] at hc
      cases hc
      simp

end Leaves

/-! ### Saves with failing allocations -/

/-- The `kmalloc` calls that grow an array of `cap` elements, `cur` of them in use, while `n` more are
    saved, the next call having the number `next` and each of them succeeding. -/
def growths : Nat → (cap cur next : Nat) → List Nat
  | 0, _, _, _ => []
  | n + 1, cap, cur, next =>
    if cur = cap then next :: growths n (2 * cap) (cur + 1) (next + 1 + cur + 1)
    else growths n cap (cur + 1) (next + 1)

/-- The ranges `done` are cleared, and what the array `p` holds are bytes of `m` from some of them. -/
structure Cleared (m : Mem) (done : List Span) (v : Saved) (p : Nat) (b : Sbuf) : Prop where
  ptr : v.stackBuf = some p
  live : v.heap.sbufs p = some b
  inside : ∀ e ∈ b.segs, e.span ∈ done
  data : ∀ e ∈ b.segs, e.Saves m
  mem : v.mem = cleared done m

section Cleared
variable {env : Env} {m : Mem} {done segs : List Span} {v w : Saved} {p : Nat} {b : Sbuf} {r : Span}

theorem cleared_snoc : fill (cleared done m) r 0x30 = cleared (done ++ [r]) m := by
  funext x
  by_cases hx : x ∈ r
  · simp [cleared, fill_of_mem hx, hx]
  · simp [cleared, fill_of_not_mem hx, hx]

/-- One save. The array is full and no larger one is to be had, or it takes the range, perhaps in a larger
    array. -/
theorem Cleared.save (h : Cleared m done v p b) (hap : ∀ d ∈ done, d.Apart r) (hw : save env r v = .ok w) :
    (b.cur = b.cap ∧ env.kmalloc v.heap.next = 0 ∧ Cleared m (done ++ [r]) w p b) ∨
      ∃ q c, Cleared m (done ++ [r]) w q c ∧ c.segs.map StackBuf.span = b.segs.map StackBuf.span ++ [r] ∧
        c.cur = b.cur + 1 ∧
        (b.cur = b.cap ∧ env.kmalloc v.heap.next ≠ 0 ∧ c.cap = 2 * b.cap ∧ w.heap.next = v.heap.next + 1 + b.cur + 1 ∨
          b.cur ≠ b.cap ∧ c.cap = b.cap ∧ w.heap.next = v.heap.next + 1) := by
  have hnew : ∀ n q i, (newItem env n v.mem q i r.start r.len).Saves m := fun n q i k hk => by
    have hx : r.start + k ∈ r := Range.offset_mem.mpr hk
    show v.mem (r.start + k) = m (r.start + k)
    rw [h.mem, cleared, if_neg]
    rintro ⟨d, hd, hxd⟩
    exact hap d hd _ hxd hx
  have hmem : w.mem = cleared (done ++ [r]) m := by rw [save_mem hw, h.mem, cleared_snoc]
  have hold : ∀ e ∈ b.segs, e.span ∈ done ++ [r] := fun e he => List.mem_append_left _ (h.inside e he)
  have hr : r ∈ done ++ [r] := List.mem_append_right _ List.mem_cons_self
  obtain ⟨ret, hcopy⟩ := save_eq_ok hw
  rw [h.ptr] at hcopy
  rcases copy_cases h.live hcopy with ⟨hfull, h0, hptr, hsb⟩ | ⟨hfull, h0, hptr, hnext, hsb⟩ | ⟨hroom, hptr, hnext, hsb⟩
  · -- The range is cleared and not saved.
    exact Or.inl ⟨hfull, h0, hptr, by rw [hsb, h.live], hold, h.data, hmem⟩
  · have hold' : ∀ e ∈ (b.doubled env v.heap.next).segs, e.span ∈ done ++ [r] := fun e he => by
      obtain ⟨e', he', -, hs, hl⟩ := Sbuf.mem_segs_doubled he
      have hspan : e.span = e'.span := congrArg₂ Range.mk hs hl
      exact hspan ▸ hold e' he'
    refine Or.inr ⟨_, _, ⟨hptr, hsb, Sbuf.forall_segs_push.mpr ⟨hold', hr⟩,
      Sbuf.forall_segs_push.mpr ⟨Sbuf.saves_doubled h.data, hnew _ _ _⟩, hmem⟩, ?_, rfl, Or.inl ⟨hfull, h0, rfl, hnext⟩⟩
    rw [Sbuf.spans_push, Sbuf.spans_doubled]
    rfl
  · exact Or.inr ⟨_, _, ⟨hptr, hsb, Sbuf.forall_segs_push.mpr ⟨hold, hr⟩,
      Sbuf.forall_segs_push.mpr ⟨h.data, hnew _ _ _⟩, hmem⟩, Sbuf.spans_push, rfl, Or.inr ⟨hroom, rfl, hnext⟩⟩

/-- All saves. With every growth they are all in the array; with one refused some cleared byte is not, and
    no byte gets back into the array that is not in it when it is cleared. -/
theorem Cleared.saveAll : ∀ {segs done : List Span} {v w : Saved} {p : Nat} {b : Sbuf}, Cleared m done v p b →
    (done ++ segs).Pairwise Range.Apart → (∀ r ∈ segs, 0 < r.len.toNat) → StackVault.saveAll env segs v = .ok w →
    ∃ q c, Cleared m (done ++ segs) w q c ∧
      ((∀ k ∈ growths segs.length b.cap b.cur v.heap.next, env.kmalloc k ≠ 0) →
        c.segs.map StackBuf.span = b.segs.map StackBuf.span ++ segs) ∧
      ((∃ k ∈ growths segs.length b.cap b.cur v.heap.next, env.kmalloc k = 0) →
        ∃ x, Covers segs x ∧ ¬Covers (c.segs.map StackBuf.span) x) ∧
      ∀ x, Covers done x → ¬Covers (b.segs.map StackBuf.span) x → ¬Covers (c.segs.map StackBuf.span) x
  | [], done, v, w, p, b, h, _, _, hw => by
    cases hw
    exact ⟨p, b, by simpa using h, by simp, by simp [growths], fun _ _ hx => hx⟩
  | r :: rs, done, v, w, p, b, h, hap, hne, hw => by
    obtain ⟨w₁, hw₁, hrest⟩ := bind_eq_ok.mp hw
    have hr : ∀ d ∈ done, d.Apart r := fun d hd => (List.pairwise_append.mp hap).2.2 d hd r List.mem_cons_self
    have hap' : (done ++ [r] ++ rs).Pairwise Range.Apart := by simpa using hap
    have hne' : ∀ s ∈ rs, 0 < s.len.toNat := fun s hs => hne s (List.mem_cons_of_mem _ hs)
    have hstart : r.start ∈ r := Range.start_mem (hne r List.mem_cons_self)
    rcases h.save hr hw₁ with ⟨hfull, h0, h₁⟩ | ⟨q₁, c₁, h₁, hspans, hcur, hnums⟩
    · obtain ⟨q, c, hc, -, -, hkeep⟩ := Cleared.saveAll h₁ hap' hne' hrest
      refine ⟨q, c, by simpa using hc, fun hall => ?_, fun _ => ⟨r.start, ?_, hkeep _ ?_ ?_⟩, fun x hx => hkeep x ?_⟩
      · -- The save that was lost is one of the growths.
        exact absurd h0 (hall _ (by simp [growths, hfull]))
      · simp [hstart]
      · simp [hstart]
      · rintro ⟨s, hs, hx⟩
        obtain ⟨e, he, rfl⟩ := List.mem_map.mp hs
        exact hr _ (h.inside e he) _ hx hstart
      · simp [hx]
    · obtain ⟨q, c, hc, hall, hlost, hkeep⟩ := Cleared.saveAll h₁ hap' hne' hrest
      have hgrow : growths (r :: rs).length b.cap b.cur v.heap.next =
          (if b.cur = b.cap then [v.heap.next] else []) ++ growths rs.length c₁.cap c₁.cur w₁.heap.next := by
        rcases hnums with ⟨hfull, -, hcap, hnext⟩ | ⟨hfull, hcap, hnext⟩
        · simp [growths, hfull, hcap, hcur, hnext]
        · simp [growths, hfull, hcap, hcur, hnext]
      refine ⟨q, c, by simpa using hc, fun hok => ?_, fun ⟨k, hk, h0⟩ => ?_, fun x hx hnot => hkeep x (by simp [hx]) ?_⟩
      · rw [hall fun k hk => hok k (by rw [hgrow]; exact List.mem_append_right _ hk), hspans]
        simp
      · rw [hgrow] at hk
        rcases List.mem_append.mp hk with hk | hk
        · rcases hnums with ⟨hfull, hok, -⟩ | ⟨hfull, -⟩
          · rw [if_pos hfull, List.mem_singleton] at hk
            exact absurd (hk ▸ h0) hok
          · rw [if_neg hfull] at hk
            cases hk
        · obtain ⟨x, hx, hout⟩ := hlost ⟨k, hk, h0⟩
          exact ⟨x, covers_cons.mpr (Or.inr hx), hout⟩
      · rw [hspans, covers_append, not_or]
        refine ⟨hnot, fun hxr => ?_⟩
        obtain ⟨d, hd, hxd⟩ := hx
        exact hr d hd x hxd (by simpa using hxr)

end Cleared

/-! ### The loop -/

/-- The save buffer has the byte, with the value that it has in `m`. -/
def Saved.Holds (v : Saved) (m : Mem) (x : Addr) : Prop :=
  ∃ p b e, v.stackBuf = some p ∧ v.heap.sbufs p = some b ∧ e ∈ b.segs ∧ x ∈ e.span ∧ e.data (x - e.start) = m x

section Loop
variable {env : Env} {plt : List Para} {userRsp userRbp : Addr} {fuel : Nat} {v v' : Saved} {p : SbufPtr} {b : Sbuf}
  {segs : List Span}

theorem growths_of_le : ∀ {n cap cur next : Nat}, cur + n ≤ cap → growths n cap cur next = []
  | 0, _, _, _, _ => rfl
  | n + 1, cap, cur, next, h => by
    rw [growths, if_neg (by omega)]
    exact growths_of_le (by omega)

theorem holds_iff (hp : v.stackBuf = some p) (hlive : v.heap.sbufs p = some b) (hcur : b.cur = 0)
    (hcut : cut plt userRbp fuel userRsp userRsp = some segs) (hb : userRbp.toNat + 1 < 2 ^ 64)
    (hall : saveAll env segs v = .ok v') :
    (∀ x, Covers segs x → v'.Holds v.mem x) ↔ ∀ k ∈ growths segs.length b.cap 0 v.heap.next, env.kmalloc k ≠ 0 := by
  have hnil : b.segs = [] := Sbuf.segs_eq_nil.mpr hcur
  have hstart : Cleared v.mem [] v p b := ⟨hp, hlive, by simp [hnil], by simp [hnil], by funext x; simp [cleared]⟩
  obtain ⟨n, -, hcut'⟩ := cut_apart hb (BitVec.le_refl _) hcut
  obtain ⟨hap, -⟩ := hcut' fun x h1 h2 => by bv_omega
  obtain ⟨q, c, hc, hkept, hlost, -⟩ := hstart.saveAll hap (cut_nonempty hcut) hall
  rw [hcur] at hkept hlost
  constructor
  · intro hold k hk h0
    obtain ⟨x, hx, hout⟩ := hlost ⟨k, hk, h0⟩
    obtain ⟨q', c', e, hq', hc', he, hxe, -⟩ := hold x hx
    rw [hc.ptr] at hq'
    cases hq'
    rw [hc.live] at hc'
    cases hc'
    exact hout ⟨e.span, List.mem_map_of_mem he, hxe⟩
  · intro hok x hx
    have hspans := hkept hok
    rw [hnil, List.map_nil, List.nil_append] at hspans
    rw [← hspans] at hx
    obtain ⟨e, he, hxe⟩ := covers_map.mp hx
    exact ⟨q, c, e, hc.ptr, hc.live, he, hxe, (hc.data e he).at hxe⟩

/-- A scan that has ended, from an empty buffer, has cleared the ranges of its control. The buffer has all
    their bytes if and only if each `kmalloc` call that was to grow it succeeded; ranges that fit the
    buffer need none. -/
theorem cleared_held_iff (hp : v.stackBuf = some p) (hlive : v.heap.sbufs p = some b) (hcur : b.cur = 0)
    (h : scan env plt userRbp fuel (.start userRsp v) = some (.ok v')) :
    ∃ segs, cut plt userRbp fuel userRsp userRsp = some segs ∧ v'.mem = cleared segs v.mem ∧
      ((∀ x, Covers segs x → v'.Holds v.mem x) ↔ ∀ k ∈ growths segs.length b.cap 0 v.heap.next, env.kmalloc k ≠ 0) ∧
      (segs.length ≤ b.cap → ∀ x, Covers segs x → v'.Holds v.mem x) := by
  obtain ⟨segs, hcut, hall⟩ := scan_ok_inv h
  have hiff := holds_iff hp hlive hcur hcut (scan_ok_lt h) hall
  refine ⟨segs, hcut, saveAll_mem hall, hiff, fun hlen => hiff.mpr ?_⟩
  rw [growths_of_le (by omega)]
  simp

/-- A parameter in the middle of the frame. -/
theorem cleared_held_sample :
    ∃ v', scan Env.sample [⟨0x1004, 4, 0⟩] 0x1010 20 (.start 0x1000 (.sample fun _ => 0x41)) = some (.ok v') ∧
    v'.mem 0x1008 = 0x30 ∧ v'.Holds (fun _ => 0x41) 0x1008 := by
  have hexec : ∃ v', scan Env.sample [⟨0x1004, 4, 0⟩] 0x1010 20 (.start 0x1000 (.sample fun _ => 0x41)) =
      some (.ok v') ∧
      v'.mem 0x1008 = 0x30 := ⟨_, rfl, rfl⟩
  obtain ⟨v', hscan, hmem⟩ := hexec
  obtain ⟨segs, hcut, -, -, hheld⟩ := cleared_held_iff (v := .sample fun _ => 0x41) (p := 0) rfl rfl rfl hscan
  obtain rfl : [⟨0x1000, 4⟩, ⟨0x1008, 8⟩] = segs := Option.some.inj hcut
  exact ⟨v', hscan, hmem, hheld (by decide) _ (by decide)⟩

/-- No memory for an array of 64 elements: `kmalloc` call 33. -/
def Env.starved : Env := { Env.sample with kmalloc := fun n => if n = 33 then 0 else Env.sample.kmalloc n }

/-- The scan of 33 ranges ends, and some byte that it has cleared is not in the save buffer. -/
theorem starved_loses :
    ∃ v', scan Env.starved crowded 0x3042 80 (.start 0x3000 (.sample fun _ => 0x41)) = some (.ok v') ∧
    ∃ x, v'.mem x = 0x30 ∧ ¬v'.Holds (fun _ => 0x41) x := by
  have hexec :
      ((scan Env.starved crowded 0x3042 80 (.start 0x3000 (.sample fun _ => 0x41))).bind Except.toOption).isSome := by
    decide +kernel
  obtain ⟨v', hv'⟩ := Option.isSome_iff_exists.mp hexec
  obtain ⟨r, hscan, hr⟩ := Option.bind_eq_some_iff.mp hv'
  obtain rfl : r = .ok v' := toOption_eq_some.mp hr
  obtain ⟨segs, hcut, hall⟩ := scan_ok_inv hscan
  have hlen : (cut crowded 0x3042 80 0x3000 0x3000).map List.length = some 33 := by decide
  rw [hcut] at hlen
  have hiff := holds_iff (v := .sample fun _ => 0x41) (p := 0) rfl rfl rfl hcut (by decide) hall
  rw [Option.some.inj hlen] at hiff
  have hnot : ¬∀ x, Covers segs x → v'.Holds (fun _ => 0x41) x := fun hold => hiff.mp hold 33 (by decide) rfl
  simp only [not_forall] at hnot
  obtain ⟨x, hcov, hlost⟩ := hnot
  refine ⟨v', hscan, x, ?_, hlost⟩
  rw [saveAll_mem hall, cleared, if_pos hcov]

end Loop

end StackVault
