import StackVault.Theorems.Cut

/-! What the scan does to the save buffer and to memory. The loop is the saves of the ranges that `cut`
    gives, one after another; a save appends one element to the live array, in place while there is
    room and in an array of twice the capacity when there is none, and clears the range. -/

namespace StackVault
open Memory

/-- The saves of a list of ranges, in order. -/
def saveAll (env : Env) : List Span → Saved → Except Crash Saved
  | [], v => .ok v
  | r :: rs, v => (save env r v).bind (saveAll env rs)

section ScanEq
variable {env : Env} {plt : List Para} {userRbp : Addr}

theorem saveAll_append {rs ss : List Span} {v : Saved} :
    saveAll env (rs ++ ss) v = (saveAll env rs v).bind (saveAll env ss) := by
  induction rs generalizing v with
  | nil => rfl
  | cons r rs ih =>
    simp only [List.cons_append, saveAll]
    cases save env r v with
    | error c => rfl
    | ok w => exact ih

theorem flush_eq (l : Scan) :
    flush env l = (saveAll env (pending l.prevRsp l.i) l.toSaved).map fun v => { l with toSaved := v } := by
  unfold flush pending
  split
  · simp only [saveAll]
    cases save env ⟨l.prevRsp, l.i - l.prevRsp⟩ l.toSaved <;> rfl
  · rfl

end ScanEq

section Saves
variable {env : Env} {v v' : Saved}

/-- A save clears its range, or faults before it does. -/
theorem save_cases (env : Env) (r : Span) (v : Saved) :
    (∃ w, save env r v = .ok w ∧ w.mem = fill v.mem r 0x30) ∨ ∃ f, save env r v = .error ⟨f, v.mem, []⟩ := by
  unfold save
  split
  · exact Or.inr ⟨_, rfl⟩
  · exact Or.inl ⟨_, rfl, rfl⟩

theorem save_mem {r : Span} (h : save env r v = .ok v') : v'.mem = fill v.mem r 0x30 := by
  rcases save_cases env r v with ⟨w, hw, hmem⟩ | ⟨f, hf⟩
  · rw [hw] at h
    cases h
    exact hmem
  · rw [hf] at h
    cases h

theorem saveAll_mem : ∀ {segs : List Span} {v : Saved}, saveAll env segs v = .ok v' → v'.mem = cleared segs v.mem
  | [], v, h => by
    cases h
    funext x
    simp [cleared]
  | r :: rs, v, h => by
    obtain ⟨w, hw, h⟩ := bind_eq_ok.mp h
    rw [saveAll_mem h]
    funext x
    by_cases hx : x ∈ r
    · simp [cleared, save_mem hw, fill_of_mem hx, hx]
    · simp [cleared, save_mem hw, fill_of_not_mem hx, hx]

end Saves

/-! ### The loop and its control -/

section Loop
variable {env : Env} {read : Mem → List Para} {plt : List Para} {userRbp : Addr}

theorem flush_cases (env : Env) (l : Scan) :
    (∃ w, saveAll env (pending l.prevRsp l.i) l.toSaved = .ok w ∧ flush env l = .ok { l with toSaved := w }) ∨
      ∃ c, saveAll env (pending l.prevRsp l.i) l.toSaved = .error c ∧ flush env l = .error c := by
  rw [flush_eq]
  cases saveAll env (pending l.prevRsp l.i) l.toSaved with
  | ok w => exact Or.inl ⟨w, rfl, rfl⟩
  | error c => exact Or.inr ⟨c, rfl, rfl⟩

/-- The loop, once its control has ended, is the saves of its ranges. -/
theorem scanWith_of_cut :
    ∀ {fuel : Nat} {l : Scan} {segs : List Span}, cutWith read userRbp fuel l.mem l.i l.prevRsp = some segs →
    scanWith env read userRbp fuel l = some (saveAll env segs l.toSaved)
  | 0, _, _, h => by cases h
  | fuel + 1, l, segs, h => by
    unfold cutWith at h
    unfold scanWith
    by_cases hi : l.i ≤ userRbp
    · simp only [if_pos hi] at h ⊢
      by_cases hs : contains l.i (read l.mem) ≠ 0
      · simp only [if_pos hs, Option.map_eq_some_iff] at h ⊢
        obtain ⟨rest, hr, rfl⟩ := h
        rw [saveAll_append]
        rcases flush_cases env l with ⟨w, hw, hfl⟩ | ⟨c, hc, hfl⟩
        · rw [hfl, hw]
          exact scanWith_of_cut (l := { l with toSaved := w, i := _, prevRsp := _ }) (saveAll_mem hw ▸ hr)
        · rw [hfl, hc]
          rfl
      · simp only [if_neg hs] at h ⊢
        by_cases he : l.i = userRbp
        · simp only [if_pos he, Option.map_eq_some_iff] at h ⊢
          obtain ⟨rest, hr, rfl⟩ := h
          rw [saveAll_append]
          rcases flush_cases env l with ⟨w, hw, hfl⟩ | ⟨c, hc, hfl⟩
          · rw [hfl, hw]
            exact scanWith_of_cut (l := { l with toSaved := w, i := _ }) (saveAll_mem hw ▸ hr)
          · rw [hfl, hc]
            rfl
        · simp only [if_neg he] at h ⊢
          exact scanWith_of_cut h
    · simp only [if_neg hi] at h ⊢
      cases h
      rfl

/-- A loop has stopped at the end of its control, or in one of the saves on the way. -/
theorem scanWith_stopped : ∀ {fuel : Nat} {l : Scan} {r : Except Crash Saved},
    scanWith env read userRbp fuel l = some r →
    (∃ segs, cutWith read userRbp fuel l.mem l.i l.prevRsp = some segs) ∨ ∃ segs c, r = .error c ∧
    saveAll env segs l.toSaved = .error c
  | 0, _, _, h => by cases h
  | fuel + 1, l, r, h => by
    unfold scanWith at h
    unfold cutWith
    by_cases hi : l.i ≤ userRbp
    · simp only [if_pos hi] at h ⊢
      by_cases hs : contains l.i (read l.mem) ≠ 0
      · simp only [if_pos hs] at h ⊢
        rcases flush_cases env l with ⟨w, hw, hfl⟩ | ⟨c, hc, hfl⟩ <;> rw [hfl] at h
        · rcases scanWith_stopped h with ⟨segs, hsegs⟩ | ⟨segs, c, hr, hc⟩
          · exact Or.inl ⟨_, by rw [← saveAll_mem hw, hsegs, Option.map_some]⟩
          · exact Or.inr ⟨_, c, hr, by rw [saveAll_append, hw]; exact hc⟩
        · exact Or.inr ⟨_, c, (Option.some.inj h).symm, hc⟩
      · simp only [if_neg hs] at h ⊢
        by_cases he : l.i = userRbp
        · simp only [if_pos he] at h ⊢
          rcases flush_cases env l with ⟨w, hw, hfl⟩ | ⟨c, hc, hfl⟩ <;> rw [hfl] at h
          · rcases scanWith_stopped h with ⟨segs, hsegs⟩ | ⟨segs, c, hr, hc⟩
            · exact Or.inl ⟨_, by rw [← saveAll_mem hw, hsegs, Option.map_some]⟩
            · exact Or.inr ⟨_, c, hr, by rw [saveAll_append, hw]; exact hc⟩
          · exact Or.inr ⟨_, c, (Option.some.inj h).symm, hc⟩
        · simp only [if_neg he] at h ⊢
          exact scanWith_stopped h
    · rw [if_neg hi]
      exact Or.inl ⟨[], rfl⟩

theorem scanWith_mono : ∀ {fuel fuel' : Nat} {l : Scan} {r : Except Crash Saved}, fuel ≤ fuel' →
    scanWith env read userRbp fuel l = some r → scanWith env read userRbp fuel' l = some r
  | 0, _, _, _, _, h => by cases h
  | fuel + 1, 0, _, _, hf, _ => by omega
  | fuel + 1, fuel' + 1, l, r, hf, h => by
    unfold scanWith at h ⊢
    have hf' : fuel ≤ fuel' := by omega
    by_cases hi : l.i ≤ userRbp
    · simp only [if_pos hi] at h ⊢
      by_cases hs : contains l.i (read l.mem) ≠ 0
      · simp only [if_pos hs] at h ⊢
        cases hfl : flush env l with
        | error c => rwa [hfl] at h
        | ok l' =>
          rw [hfl] at h
          exact scanWith_mono hf' h
      · simp only [if_neg hs] at h ⊢
        by_cases he : l.i = userRbp
        · simp only [if_pos he] at h ⊢
          cases hfl : flush env l with
          | error c => rwa [hfl] at h
          | ok l' =>
            rw [hfl] at h
            exact scanWith_mono hf' h
        · simp only [if_neg he] at h ⊢
          exact scanWith_mono hf' h
    · simp only [if_neg hi] at h ⊢
      exact h

/-- A loop that ended has passed the end of the frame, which is not the last address then. -/
theorem scanWith_ok_lt : ∀ {fuel : Nat} {l : Scan} {v : Saved}, scanWith env read userRbp fuel l = some (.ok v) →
    userRbp.toNat + 1 < 2 ^ 64
  | 0, _, _, h => by cases h
  | fuel + 1, l, v, h => by
    unfold scanWith at h
    by_cases hi : l.i ≤ userRbp
    · simp only [if_pos hi] at h
      by_cases hs : contains l.i (read l.mem) ≠ 0
      · simp only [if_pos hs] at h
        cases hfl : flush env l with
        | error c => rw [hfl] at h; cases h
        | ok l' => rw [hfl] at h; exact scanWith_ok_lt h
      · simp only [if_neg hs] at h
        by_cases he : l.i = userRbp
        · simp only [if_pos he] at h
          cases hfl : flush env l with
          | error c => rw [hfl] at h; cases h
          | ok l' => rw [hfl] at h; exact scanWith_ok_lt h
        · simp only [if_neg he] at h
          exact scanWith_ok_lt h
    · have := l.i.isLt
      rw [BitVec.le_def] at hi
      omega

theorem scanWith_unique {fuel fuel' : Nat} {l : Scan} {r r' : Except Crash Saved}
    (h : scanWith env read userRbp fuel l = some r) (h' : scanWith env read userRbp fuel' l = some r') : r = r' := by
  have h1 := scanWith_mono (Nat.le_max_left fuel fuel') h
  have h2 := scanWith_mono (Nat.le_max_right fuel fuel') h'
  rw [h1] at h2
  exact Option.some.inj h2

theorem scan_of_cut {fuel : Nat} {l : Scan} {segs : List Span} (h : cut plt userRbp fuel l.i l.prevRsp = some segs) :
    scan env plt userRbp fuel l = some (saveAll env segs l.toSaved) := scanWith_of_cut ((cutWith_const l.mem).trans h)

theorem scan_ok_lt {fuel : Nat} {l : Scan} {v : Saved} (h : scan env plt userRbp fuel l = some (.ok v)) :
    userRbp.toNat + 1 < 2 ^ 64 := scanWith_ok_lt h

theorem scan_unique {fuel fuel' : Nat} {l : Scan} {r r' : Except Crash Saved}
    (h : scan env plt userRbp fuel l = some r) (h' : scan env plt userRbp fuel' l = some r') : r = r' :=
    scanWith_unique h h'

end Loop

/-! ### One save -/

namespace Sbuf
variable {b : Sbuf} {e : StackBuf} {env : Env} {n : Nat}

@[simp] theorem push_cur : (b.push e).cur = b.cur + 1 := rfl
@[simp] theorem push_cap : (b.push e).cap = b.cap := rfl
@[simp] theorem doubled_cur : (b.doubled env n).cur = b.cur := rfl
@[simp] theorem doubled_cap : (b.doubled env n).cap = 2 * b.cap := rfl

theorem push_entry_of_lt {i : Nat} (h : i < b.cur) : (b.push e).entry i = b.entry i :=
  if_neg (Nat.ne_of_lt h)

theorem push_entry_cur : (b.push e).entry b.cur = e := if_pos rfl

theorem segs_push : (b.push e).segs = b.segs ++ [e] := by
  simp only [segs, push_cur, List.range_succ, List.map_append, List.map_cons, List.map_nil, push_entry_cur]
  rw [List.map_congr_left fun i hi => push_entry_of_lt (List.mem_range.mp hi)]

theorem forall_segs_push {P : StackBuf → Prop} : (∀ x ∈ (b.push e).segs, P x) ↔ (∀ x ∈ b.segs, P x) ∧ P e := by
  rw [segs_push, List.forall_mem_append, List.forall_mem_singleton]

theorem spans_push : (b.push e).segs.map StackBuf.span = b.segs.map StackBuf.span ++ [e.span] := by
  rw [segs_push, List.map_append, List.map_singleton]

theorem doubled_entry {i : Nat} (h : i < b.cur) :
    (b.doubled env n).entry i = { b.entry i with buf := env.kmalloc (n + 1 + i) } := if_pos h

theorem mem_segs_doubled (h : e ∈ (b.doubled env n).segs) :
    ∃ e' ∈ b.segs, e.data = e'.data ∧ e.start = e'.start ∧ e.len = e'.len := by
  obtain ⟨i, hi, rfl⟩ := mem_segs.mp h
  rw [doubled_cur] at hi
  rw [doubled_entry hi]
  exact ⟨b.entry i, mem_segs.mpr ⟨i, hi, rfl⟩, rfl, rfl, rfl⟩

theorem spans_doubled : (b.doubled env n).segs.map StackBuf.span = b.segs.map StackBuf.span := by
  simp only [segs, doubled_cur, List.map_map]
  refine List.map_congr_left fun i hi => ?_
  simp only [Function.comp_apply, doubled_entry (List.mem_range.mp hi), StackBuf.span]

end Sbuf

section Save
variable {env : Env} {heap : Heap} {mem : Mem} {v : Saved} {p : SbufPtr} {b : Sbuf} {r : Span} {buf len : Addr}

theorem insert_eq (halloc : env.AllocOk) : insertStackBuf env heap mem p b buf len =
    .ok ({ heap with next := heap.next + 1 }.set p (some (b.push (newItem env heap.next mem p b.cur buf len)))) :=
  if_neg (halloc _)

theorem insert_ok {heap' : Heap} (h : insertStackBuf env heap mem p b buf len = .ok heap') :
    heap' = { heap with next := heap.next + 1 }.set p (some (b.push (newItem env heap.next mem p b.cur buf len))) := by
  unfold insertStackBuf at h
  split at h <;> cases h
  rfl

theorem grow_ok {heap' : Heap} (h : growStackBuf env heap p b = .ok heap') :
    heap' = ({ heap with next := heap.next + 1 + b.cur }.set heap.next (some (b.doubled env heap.next))).set p
    none := by
  unfold growStackBuf at h
  split at h <;> cases h
  rfl

theorem grow_eq (halloc : env.AllocOk) : growStackBuf env heap p b =
    .ok (({ heap with next := heap.next + 1 + b.cur }.set heap.next (some (b.doubled env heap.next))).set p none) := by
  refine if_neg (Bool.not_eq_true _ ▸ List.any_eq_false.mpr fun i _ => ?_)
  simpa using halloc (heap.next + 1 + i)

theorem copy_room (mem : Mem) (buf len : Addr) (halloc : env.AllocOk) (hb : heap.sbufs p = some b)
    (hroom : b.cur ≠ b.cap) :
    copyStackBuf env heap mem (some p) buf len = .ok (0, some p,
      { heap with next := heap.next + 1 }.set p (some (b.push (newItem env heap.next mem p b.cur buf len)))) := by
  simp only [copyStackBuf, Heap.deref_some hb, bind, Except.bind, if_neg hroom, insert_eq halloc, pure, Except.pure]

theorem copy_full (mem : Mem) (buf len : Addr) (halloc : env.AllocOk) (hb : heap.sbufs p = some b)
    (hfull : b.cur = b.cap) :
    copyStackBuf env heap mem (some p) buf len = .ok (0, some heap.next,
      ({ (({ heap with next := heap.next + 1 + b.cur }.set heap.next (some (b.doubled env heap.next))).set p none) with
          next := heap.next + 1 + b.cur + 1 }).set heap.next
        (some ((b.doubled env heap.next).push (newItem env (heap.next + 1 + b.cur) mem heap.next b.cur buf len)))) := by
  simp only [copyStackBuf, Heap.deref_some hb, bind, Except.bind, if_pos hfull, if_neg (halloc heap.next),
    grow_eq halloc, insert_eq halloc, pure, Except.pure, Heap.set_next, Sbuf.doubled_cur]

/-- A copy that returns has got no larger array for a full one, or has put the item behind the elements of
    a larger array, or of the array itself. -/
theorem copy_cases {ret : Int} {ptr : Option SbufPtr} {heap' : Heap} (hb : heap.sbufs p = some b)
    (h : copyStackBuf env heap mem (some p) buf len = .ok (ret, ptr, heap')) :
    (b.cur = b.cap ∧ env.kmalloc heap.next = 0 ∧ ptr = some p ∧ heap'.sbufs = heap.sbufs) ∨
      (b.cur = b.cap ∧ env.kmalloc heap.next ≠ 0 ∧ ptr = some heap.next ∧ heap'.next = heap.next + 1 + b.cur + 1 ∧
        heap'.sbufs heap.next = some ((b.doubled env heap.next).push
          (newItem env (heap.next + 1 + b.cur) mem heap.next b.cur buf len))) ∨
      (b.cur ≠ b.cap ∧ ptr = some p ∧ heap'.next = heap.next + 1 ∧
        heap'.sbufs p = some (b.push (newItem env heap.next mem p b.cur buf len))) := by
  unfold copyStackBuf at h
  simp only [Heap.deref_some hb, bind, Except.bind] at h
  by_cases hfull : b.cur = b.cap
  · rw [if_pos hfull] at h
    by_cases h0 : env.kmalloc heap.next = 0
    · rw [if_pos h0] at h
      cases h
      exact Or.inl ⟨hfull, h0, rfl, rfl⟩
    · rw [if_neg h0] at h
      cases hg : growStackBuf env heap p b with
      | error f => rw [hg] at h; cases h
      | ok heap₁ =>
        rw [hg] at h
        obtain rfl := grow_ok hg
        dsimp only at h
        cases hi : insertStackBuf env _ mem heap.next (b.doubled env heap.next) buf len with
        | error f => rw [hi] at h; cases h
        | ok heap₂ =>
          rw [hi] at h
          cases h
          obtain rfl := insert_ok hi
          exact Or.inr (Or.inl ⟨hfull, h0, rfl, rfl, Heap.set_sbufs_self⟩)
  · rw [if_neg hfull] at h
    cases hi : insertStackBuf env heap mem p b buf len with
    | error f => rw [hi] at h; cases h
    | ok heap₁ =>
      rw [hi] at h
      cases h
      obtain rfl := insert_ok hi
      exact Or.inr (Or.inr ⟨hfull, rfl, rfl, Heap.set_sbufs_self⟩)

theorem save_of_copy {ret : Int} {ptr : Option SbufPtr}
    (h : copyStackBuf env v.heap v.mem v.stackBuf r.start r.len = .ok (ret, ptr, heap)) :
    save env r v = .ok { stackBuf := ptr, heap, mem := fill v.mem r 0x30 } := by
  simp only [save, h]

theorem save_eq_ok {v' : Saved} (h : save env r v = .ok v') :
    ∃ ret, copyStackBuf env v.heap v.mem v.stackBuf r.start r.len = .ok (ret, v'.stackBuf, v'.heap) := by
  unfold save at h
  split at h
  · cases h
  · next ret ptr heap hc =>
    cases h
    exact ⟨ret, hc⟩

end Save

/-! ### All saves of a scan -/

/-- The element holds the bytes that its range has in `m`. -/
def StackBuf.Saves (m : Mem) (e : StackBuf) : Prop := ∀ k, k < e.len → e.data k = m (e.start + k)

theorem StackBuf.Saves.at {m : Mem} {e : StackBuf} (h : e.Saves m) {x : Addr} (hx : x ∈ e.span) :
    e.data (x - e.start) = m x := by
  have hx' : x - e.start < e.len := hx
  rw [h _ hx', BitVec.add_comm, BitVec.sub_add_cancel]

/-- A larger array holds what the array held. -/
theorem Sbuf.saves_doubled {env : Env} {m : Mem} {b : Sbuf} {n : Nat} (h : ∀ e ∈ b.segs, e.Saves m) :
    ∀ e ∈ (b.doubled env n).segs, e.Saves m := by
  intro e he k hk
  obtain ⟨e', he', hd, hs, hl⟩ := Sbuf.mem_segs_doubled he
  rw [hd, hs]
  exact h e' he' k (hl ▸ hk)

/-- The ranges `done` are saved in the live array `p` that the pointer names, and cleared; `m` is memory
    before the first of them. -/
structure Progress (m : Mem) (done : List Span) (v : Saved) (p : Nat) (b : Sbuf) : Prop where
  ptr : v.stackBuf = some p
  live : v.heap.sbufs p = some b
  room : b.cur ≤ b.cap
  cap : 0 < b.cap
  old : p < v.heap.next
  spans : b.segs.map StackBuf.span = done
  data : ∀ e ∈ b.segs, e.Saves m
  mem : ∀ x, v.mem x = if Covers done x then 0x30 else m x

/-- No save has needed a larger array yet: the array is still `p`, of capacity `c`, the others are those
    of the heap `h₀` at the start, and each element has an empty hole list at home. -/
structure Steady (env : Env) (h₀ : Heap) (c : Nat) (p : Nat) (v : Saved) (b : Sbuf) : Prop where
  ptr : v.stackBuf = some p
  live : v.heap.sbufs p = some b
  cap : b.cap = c
  next : v.heap.next = h₀.next + b.cur
  others : ∀ q, q ≠ p → v.heap.sbufs q = h₀.sbufs q
  item : ∀ i < b.cur, (b.entry i).buf = env.kmalloc (h₀.next + i) ∧
    (b.entry i).holeList = { home := (p, i), holes := [] }

/-- The array `p`, of capacity `c`, has been replaced by `q` and freed. -/
structure Moved (c : Nat) (p : Nat) (v : Saved) (q : Nat) (b : Sbuf) : Prop where
  freed : v.heap.sbufs p = none
  old : p < v.heap.next
  ne : q ≠ p
  above : c < b.cur

section Progress
variable {env : Env} {m : Mem} {done segs : List Span} {v : Saved} {p : Nat} {b : Sbuf} {r : Span}

theorem Progress.cur_eq (h : Progress m done v p b) : b.cur = done.length := by
  rw [← h.spans, List.length_map, Sbuf.length_segs]

theorem Progress.new_saves (h : Progress m done v p b) (hap : ∀ d ∈ done, d.Apart r) {n : Nat} {q : Nat} {i : Nat} :
    (newItem env n v.mem q i r.start r.len).Saves m := fun k hk => by
  show v.mem (r.start + k) = m (r.start + k)
  rw [h.mem, if_neg]
  rintro ⟨d, hd, hx⟩
  exact hap d hd _ hx (Range.offset_mem.mpr hk)

theorem Progress.mem_fill (h : Progress m done v p b) (x : Addr) :
    fill v.mem r 0x30 x = if Covers (done ++ [r]) x then 0x30 else m x := by
  by_cases hx : x ∈ r
  · rw [fill_of_mem hx, if_pos (by simp [hx])]
  · rw [fill_of_not_mem hx, h.mem]
    simp [hx]

/-- One save. The array stays where it is, or it is full and moves. -/
theorem Progress.save (h : Progress m done v p b) (halloc : env.AllocOk) (hap : ∀ d ∈ done, d.Apart r) :
    ∃ v' p' b', StackVault.save env r v = .ok v' ∧ Progress m (done ++ [r]) v' p' b' ∧
      ((b.cur ≠ b.cap ∧ p' = p ∧ b' = b.push (newItem env v.heap.next v.mem p b.cur r.start r.len) ∧
          v'.heap.next = v.heap.next + 1 ∧ ∀ q, q ≠ p → v'.heap.sbufs q = v.heap.sbufs q) ∨
        (b.cur = b.cap ∧ p' = v.heap.next ∧ v.heap.next < v'.heap.next ∧ v'.heap.sbufs p = none ∧
          ∀ q, q ≠ p → q ≠ p' → v'.heap.sbufs q = v.heap.sbufs q)) := by
  have hlive := h.live
  have hold := h.old
  by_cases hfull : b.cur = b.cap
  · have hcopy := copy_full v.mem r.start r.len halloc hlive hfull
    rw [← h.ptr] at hcopy
    refine ⟨_, v.heap.next, _, save_of_copy hcopy, ⟨rfl, Heap.set_sbufs_self, ?_, ?_, ?_, ?_, ?_, h.mem_fill⟩,
      Or.inr ⟨hfull, rfl, ?_, ?_, fun q hq hq' => ?_⟩⟩
    · have := h.cap
      simp only [Sbuf.push_cur, Sbuf.push_cap, Sbuf.doubled_cur, Sbuf.doubled_cap]
      omega
    · have := h.cap
      simp only [Sbuf.push_cap, Sbuf.doubled_cap]
      omega
    · simp only [Heap.set_next]
      omega
    · rw [Sbuf.spans_push, Sbuf.spans_doubled, h.spans]
      rfl
    · exact Sbuf.forall_segs_push.mpr ⟨Sbuf.saves_doubled h.data, h.new_saves hap⟩
    · simp only [Heap.set_next]
      omega
    · have hne : p ≠ v.heap.next := by omega
      rw [Heap.set_sbufs_ne hne]
      exact Heap.set_sbufs_self
    · rw [Heap.set_sbufs_ne hq']
      exact (Heap.set_sbufs_ne hq).trans (Heap.set_sbufs_ne hq')
  · have hcopy := copy_room v.mem r.start r.len halloc hlive hfull
    rw [← h.ptr] at hcopy
    refine ⟨_, p, _, save_of_copy hcopy, ⟨h.ptr, Heap.set_sbufs_self, ?_, h.cap, ?_, ?_, ?_, h.mem_fill⟩,
      Or.inl ⟨hfull, rfl, rfl, rfl, fun q hq => Heap.set_sbufs_ne hq⟩⟩
    · have := h.room
      simp only [Sbuf.push_cur, Sbuf.push_cap]
      omega
    · simp only [Heap.set_next]
      omega
    · rw [Sbuf.spans_push, h.spans]
      rfl
    · exact Sbuf.forall_segs_push.mpr ⟨h.data, h.new_saves hap⟩

/-- All saves: whatever they need to grow, the ranges end up saved in the array the pointer names. With
    room for all of them that array is the first one; otherwise the first one is freed. -/
theorem Progress.saveAll {h₀ : Heap} {p₀ : Nat} {c : Nat} (halloc : env.AllocOk) :
    ∀ {segs done : List Span} {v : Saved} {p : Nat} {b : Sbuf}, Progress m done v p b →
      (done ++ segs).Pairwise Range.Apart →
      (Steady env h₀ c p₀ v b ∧ p = p₀) ∨ Moved c p₀ v p b →
      ∃ v' p' b', saveAll env segs v = .ok v' ∧ Progress m (done ++ segs) v' p' b' ∧
        ((Steady env h₀ c p₀ v' b' ∧ p' = p₀) ∨ Moved c p₀ v' p' b')
  | [], done, v, p, b, h, _, hs => ⟨v, p, b, rfl, by rw [List.append_nil]; exact h, hs⟩
  | r :: rs, done, v, p, b, h, hap, hs => by
    have hr : ∀ d ∈ done, d.Apart r := fun d hd =>
      (List.pairwise_append.mp hap).2.2 d hd r List.mem_cons_self
    obtain ⟨v₁, p₁, b₁, hsave, hp₁, hcase⟩ := h.save halloc hr
    have hcur : b₁.cur = b.cur + 1 := by rw [hp₁.cur_eq, h.cur_eq, List.length_append, List.length_singleton]
    have hs₁ : (Steady env h₀ c p₀ v₁ b₁ ∧ p₁ = p₀) ∨ Moved c p₀ v₁ p₁ b₁ := by
      have hold := h.old
      rcases hcase with ⟨hroom, rfl, rfl, hn, ho⟩ | ⟨hfull, rfl, hn, hfree, ho⟩
      · rcases hs with ⟨hst, rfl⟩ | hmv
        · refine Or.inl ⟨⟨hp₁.ptr, hp₁.live, hst.cap, ?_, fun q hq => (ho q hq).trans (hst.others q hq), ?_⟩, rfl⟩
          · rw [hn, hst.next, Sbuf.push_cur, Nat.add_assoc]
          · intro i hi
            rw [Sbuf.push_cur] at hi
            by_cases hi' : i < b.cur
            · rw [Sbuf.push_entry_of_lt hi']
              exact hst.item i hi'
            · obtain rfl : i = b.cur := by omega
              rw [Sbuf.push_entry_cur, ← hst.next]
              exact ⟨rfl, rfl⟩
        · have := hmv.old
          have := hmv.above
          exact Or.inr ⟨(ho p₀ hmv.ne.symm).trans hmv.freed, by omega, hmv.ne, by omega⟩
      · rcases hs with ⟨hst, rfl⟩ | hmv
        · have := hst.cap
          exact Or.inr ⟨hfree, by omega, by omega, by omega⟩
        · have := hmv.old
          have := hmv.above
          exact Or.inr ⟨(ho p₀ hmv.ne.symm (by omega)).trans hmv.freed, by omega, by omega, by omega⟩
    obtain ⟨v', p', b', hall, hp', hs'⟩ := Progress.saveAll halloc hp₁ (by simpa using hap) hs₁
    refine ⟨v', p', b', ?_, by simpa using hp', hs'⟩
    simp only [StackVault.saveAll, hsave]
    exact hall

end Progress

end StackVault
