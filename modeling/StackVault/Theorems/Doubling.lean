import StackVault.Theorems.Restoring
import StackVault.Jprobe

/-! Save buffers of any size. A sequence of `copy_stack_buf` calls lists its chunks in order, whatever growth
    it takes. The list heads are copied with the elements and go on closing in the array that they were set
    up in, so that only an array that has never grown can be restored. -/

namespace StackVault
open Memory

/-- What one `copy_stack_buf` call is given: a range, and memory as it is then. -/
structure Chunk where
  range : Span
  mem : Mem

/-- The calls, with the pointer that each leaves in the caller's variable. -/
def copyAll (env : Env) : List Chunk → Option SbufPtr → Heap → Except Fault (Option SbufPtr × Heap)
  | [], sbuf, heap => .ok (sbuf, heap)
  | ch :: rest, sbuf, heap => do
    let (_, sbuf, heap) ← copyStackBuf env heap ch.mem sbuf ch.range.start ch.range.len
    copyAll env rest sbuf heap

/-- The elements are the chunks, in order, with their bytes. -/
structure Sbuf.Lists (b : Sbuf) (chunks : List Chunk) : Prop where
  cur : b.cur = chunks.length
  item : ∀ i ch, chunks[i]? = some ch → (b.entry i).span = ch.range ∧ (b.entry i).Saves ch.mem

/-- Every hole list is empty: its head is its own successor. -/
def Sbuf.Unholed (p : SbufPtr) (b : Sbuf) : Prop := ∀ i < b.cur, (b.entry i).holeList = { home := (p, i), holes := [] }

/-- Whatever memory has become, the restore writes every chunk back and ends with `cur = 0`. -/
def WritesBack (env : Env) (p : SbufPtr) (heap : Heap) (chunks : List Chunk) : Prop :=
  ∀ mem, ∃ b' mem', restoreStackBuf env heap mem (some p) = .ok (heap.set p (some b'), mem') ∧ b'.cur = 0 ∧
    ∀ ch ∈ chunks, ∀ x ∈ ch.range, mem' x = ch.mem x

/-- After some of the calls on an array made for `c` elements: as long as these have room, no list head has
    moved; afterwards the first one closes in an earlier array. -/
structure Filled (c : Nat) (chunks : List Chunk) (p : Nat) (b : Sbuf) (heap : Heap) : Prop where
  live : heap.sbufs p = some b
  old : p < heap.next
  room : b.cur ≤ b.cap
  lists : b.Lists chunks
  heads : (chunks.length ≤ c ∧ b.cap = c ∧ b.Unholed p) ∨ (c < chunks.length ∧ (b.entry 0).holeList.home.1 < p)

section Lists
variable {env : Env} {b : Sbuf} {e : StackBuf} {chunks : List Chunk} {ch : Chunk} {n : Nat}

theorem Sbuf.Lists.push (h : b.Lists chunks) (hspan : e.span = ch.range) (hsaves : e.Saves ch.mem) :
    (b.push e).Lists (chunks ++ [ch]) := by
  refine ⟨?_, fun i ch' hi => ?_⟩
  · rw [Sbuf.push_cur, h.cur, List.length_append, List.length_singleton]
  · rw [List.getElem?_append] at hi
    split at hi
    · next hlt =>
      rw [Sbuf.push_entry_of_lt (h.cur ▸ hlt)]
      exact h.item i ch' hi
    · next hge =>
      obtain ⟨hlt, heq⟩ := List.getElem?_eq_some_iff.mp hi
      rw [List.length_singleton] at hlt
      obtain rfl : i = b.cur := by rw [h.cur]; omega
      obtain rfl : ch = ch' := by simpa [h.cur] using heq
      rw [Sbuf.push_entry_cur]
      exact ⟨hspan, hsaves⟩

theorem Sbuf.Lists.doubled (h : b.Lists chunks) : (b.doubled env n).Lists chunks := by
  refine ⟨h.cur, fun i ch hi => ?_⟩
  have hlt : i < b.cur := by
    rw [h.cur]
    exact (List.getElem?_eq_some_iff.mp hi).1
  rw [Sbuf.doubled_entry hlt]
  exact h.item i ch hi

theorem Sbuf.Lists.spans (h : b.Lists chunks) : b.segs.map StackBuf.span = chunks.map Chunk.range := by
  refine List.ext_getElem (by simp [h.cur]) fun j _ hj => ?_
  rw [List.length_map] at hj
  obtain ⟨hspan, -⟩ := h.item j chunks[j] (List.getElem?_eq_getElem hj)
  simpa [Sbuf.segs] using hspan

end Lists

/-! ### The calls -/

section Calls
variable {env : Env} {c : Nat} {chunks : List Chunk} {p p₀ : Nat} {b : Sbuf} {heap heap₀ : Heap}

/-- One call. The new element is set up in the array that has it at the end. -/
theorem Filled.copy (h : Filled c chunks p b heap) (halloc : env.AllocOk) (hc : 1 ≤ c) (ch : Chunk) :
    ∃ p' b' heap', copyStackBuf env heap ch.mem (some p) ch.range.start ch.range.len = .ok (0, some p', heap') ∧
      Filled c (chunks ++ [ch]) p' b' heap' := by
  have hold := h.old
  have hlen : (chunks ++ [ch]).length = b.cur + 1 := by rw [List.length_append, List.length_singleton, h.lists.cur]
  have hcur := h.lists.cur
  by_cases hfull : b.cur = b.cap
  · have hcopy := copy_full ch.mem ch.range.start ch.range.len halloc h.live hfull
    have hcap : c ≤ b.cap := by
      rcases h.heads with ⟨-, hcap, -⟩ | ⟨hlt, -⟩
      · exact hcap.ge
      · omega
    refine ⟨heap.next, _, _, hcopy, Heap.set_sbufs_self, ?_, ?_, ?_, Or.inr ⟨by omega, ?_⟩⟩
    · simp only [Heap.set_next]
      omega
    · simp only [Sbuf.push_cur, Sbuf.push_cap, Sbuf.doubled_cur, Sbuf.doubled_cap]
      omega
    · exact h.lists.doubled.push rfl fun _ _ => rfl
    · -- The first element was there before the growth, and kept its list head.
      have hpos : 0 < b.cur := by omega
      rw [Sbuf.push_entry_of_lt (b := b.doubled env heap.next) hpos, Sbuf.doubled_entry hpos]
      rcases h.heads with ⟨-, -, hun⟩ | ⟨-, hhome⟩
      · rw [hun 0 hpos]
        exact hold
      · exact hhome.trans hold
  · have hcopy := copy_room ch.mem ch.range.start ch.range.len halloc h.live hfull
    have hroom := h.room
    refine ⟨p, _, _, hcopy, Heap.set_sbufs_self, ?_, ?_, ?_, ?_⟩
    · simp only [Heap.set_next]
      omega
    · simp only [Sbuf.push_cur, Sbuf.push_cap]
      omega
    · exact h.lists.push rfl fun _ _ => rfl
    · rcases h.heads with ⟨-, hcap, hun⟩ | ⟨hlt, hhome⟩
      · refine Or.inl ⟨by omega, hcap, fun i hi => ?_⟩
        rw [Sbuf.push_cur] at hi
        by_cases hlt : i < b.cur
        · rw [Sbuf.push_entry_of_lt hlt]
          exact hun i hlt
        · obtain rfl : i = b.cur := by omega
          rw [Sbuf.push_entry_cur]
          rfl
      · refine Or.inr ⟨by omega, ?_⟩
        rw [Sbuf.push_entry_of_lt (by omega)]
        exact hhome

theorem Filled.init (hinit : initStackBuf env c heap₀ = (some p₀, heap)) :
    Filled c [] p₀ { cur := 0, cap := c, entry := fun _ => default } heap := by
  unfold initStackBuf at hinit
  dsimp only at hinit
  split at hinit
  · cases hinit
  · cases hinit
    refine ⟨Heap.set_sbufs_self, Nat.lt_succ_self _, Nat.zero_le _, ⟨rfl, fun i ch hi => ?_⟩,
      Or.inl ⟨Nat.zero_le _, rfl, fun i hi => ?_⟩⟩
    · cases hi
    · exact absurd hi (Nat.not_lt_zero i)

/-! ### Restoring what was copied -/

theorem Filled.unholed_iff (h : Filled c chunks p b heap) : b.Unholed p ↔ chunks.length ≤ c := by
  constructor
  · intro hun
    by_contra hlt
    rcases h.heads with ⟨hle, -⟩ | ⟨-, hhome⟩
    · exact hlt hle
    · have hpos : 0 < b.cur := by
        rw [h.lists.cur]
        omega
      rw [hun 0 hpos] at hhome
      exact Nat.lt_irrefl p hhome
  · intro hle
    rcases h.heads with ⟨-, -, hun⟩ | ⟨hlt, -⟩
    · exact hun
    · omega

/-- The walk of a list needs its head: a first element whose head has moved faults. -/
theorem home_of_restore {mem mem' : Mem} {heap' : Heap} (hlive : heap.sbufs p = some b) (hpos : 0 < b.cur)
    (hres : restoreStackBuf env heap mem (some p) = .ok (heap', mem')) : (b.entry 0).holeList.home = (p, 0) := by
  obtain ⟨k, hk⟩ := Nat.exists_eq_succ_of_ne_zero hpos.ne'
  rw [restoreStackBuf, Heap.deref_some hlive] at hres
  obtain ⟨x, hloop, -⟩ := bind_eq_ok.mp hres
  have hmin : min b.cur (2 ^ 31) = min k (2 ^ 31 - 1) + 1 := by omega
  rw [hmin, List.range_succ_eq_map] at hloop
  obtain ⟨mem₁, hfirst, -⟩ := bind_eq_ok.mp hloop
  by_contra hhome
  rw [restoreSegment, if_neg hhome] at hfirst
  cases hfirst

/-- An array that never grew is restored as a whole. -/
theorem Filled.writesBack (h : Filled c chunks p b heap) (hsort : env.SortOk)
    (hap : (chunks.map Chunk.range).Pairwise Range.Apart) (hle : chunks.length ≤ c)
    (hlim : chunks.length ≤ 2 ^ 31) : WritesBack env p heap chunks := by
  intro mem
  have hun := h.unholed_iff.mpr hle
  have hcur : b.cur ≤ 2 ^ 31 := h.lists.cur ▸ hlim
  obtain ⟨b', hres, hzero, -⟩ := restoreStackBuf_ok mem h.live hcur fun i hi =>
    restorable_of_no_holes (hsort.nil cmp) (hun i hi)
  refine ⟨b', _, hres, hzero, fun ch hch x hx => ?_⟩
  obtain ⟨i, hi⟩ := List.mem_iff_getElem?.mp hch
  obtain ⟨hspan, hsaves⟩ := h.lists.item i ch hi
  have hlt : i < b.cur := by
    rw [h.lists.cur]
    exact (List.getElem?_eq_some_iff.mp hi).1
  have hapart : b.segs.Pairwise fun e f => e.span.Apart f.span := by
    rw [← h.lists.spans] at hap
    exact List.pairwise_map.mp hap
  rw [← hspan] at hx
  rw [giveBackAll_of_mem hapart (Sbuf.mem_segs.mpr ⟨i, hlt, rfl⟩) ⟨hx, ?_⟩, hsaves.at hx]
  rw [hun i hlt]
  exact covers_nil

theorem WritesBack.cur_le (h : WritesBack env p heap chunks)
    (hlive : heap.sbufs p = some b) : b.cur ≤ 2 ^ 31 := by
  obtain ⟨b', mem', hres, hzero, -⟩ := h fun _ => 0
  obtain ⟨q, d, d', hq, hd, hheap, hleft, -⟩ := restoreStackBuf_inv hres
  cases hq
  rw [hlive] at hd
  cases hd
  have hsame : some b' = some d' := by
    rw [← Heap.set_sbufs_self (h := heap) (p := p) (b := some b'), hheap, Heap.set_sbufs_self]
  cases hsame
  omega

end Calls

end StackVault
