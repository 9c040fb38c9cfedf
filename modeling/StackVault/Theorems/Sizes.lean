import StackVault.BufWords
import StackVault.Theorems.Doubling

/-! Save buffers of any size, in machine words. While the bytes of the arrays do not wrap round and the copy loop
    comes to every element, the calls are those of `StackBuf`. A buffer can be restored after its chunks if and
    only if it has never grown, has bytes for all of them, and the loop of the restore comes to them. -/

namespace StackVault
open Memory

namespace Word

/-- The calls, with the pointer that each leaves in the caller's variable. -/
def copyAll (env : Env) : List Chunk → Option SbufPtr → Arrays → Except Fault (Option SbufPtr × Arrays)
  | [], sbuf, a => .ok (sbuf, a)
  | ch :: rest, sbuf, a => do
    let (_, sbuf, a) ← copyStackBuf env a ch.mem sbuf ch.range.start ch.range.len
    copyAll env rest sbuf a

/-- An array made for `c` elements takes the chunks, and what the caller's pointer names in the end lists them in
    order with their bytes, within its capacity and with empty hole lists, and can be restored. -/
def Keeps (env : Env) (c : Addr) (chunks : List Chunk) (a₀ : Arrays) : Prop :=
  ∃ p₀ a p a' b, initStackBuf env c a₀ = .ok (some p₀, a) ∧ copyAll env chunks (some p₀) a = .ok (some p, a') ∧
    a'.heap.sbufs p = some b ∧ b.Lists chunks ∧ b.cur ≤ b.cap ∧ b.Unholed p ∧ WritesBack env p a'.heap chunks

section Calls
variable {env : Env} {a a' : Arrays} {mem : Mem} {p : Nat} {b : Sbuf} {buf len c old new : Addr} {n : Nat}
  {is : List Nat}

@[simp] theorem size_self : a.size p c p = c := if_pos rfl

theorem growLoop_eq : ∀ {is : List Nat}, (∀ i ∈ is, HasItem old i ∧ HasItem new i) →
    growLoop env n old new is = if is.any fun i => env.kmalloc (n + i) = 0 then .error .nullDeref else .ok ()
  | [], _ => rfl
  | i :: is, h => by
    obtain ⟨hi, his⟩ := List.forall_mem_cons.mp h
    rw [growLoop, if_neg (not_not.mpr hi), growLoop_eq his, List.any_cons]
    by_cases h0 : env.kmalloc (n + i) = 0
    · rw [if_pos h0, decide_eq_true h0, Bool.true_or, if_pos rfl]
    · rw [if_neg h0, decide_eq_false h0, Bool.false_or]

theorem doubled_eq (hcur : b.cur ≤ 2 ^ 31) (hcap : 112 * b.cap < 2 ^ 64) : doubled b env n = b.doubled env n := by
  have hmin : min b.cur (2 ^ 31) = b.cur := Nat.min_eq_left hcur
  have hdouble : (2 * BitVec.ofNat 64 b.cap : Addr).toNat = 2 * b.cap := by
    rw [BitVec.toNat_mul, BitVec.toNat_ofNat, Nat.mod_eq_of_lt (a := b.cap) (by omega)]
    exact Nat.mod_eq_of_lt (by show 2 * b.cap < _; omega)
  rw [doubled, Sbuf.doubled, hmin, hdouble]

theorem bytes_eq (hcap : 112 * b.cap < 2 ^ 64) :
    (2 * BitVec.ofNat 64 b.cap * sbufSize : Addr).toNat = 56 * (2 * b.cap) := by
  have hsize : sbufSize.toNat = 56 := rfl
  rw [BitVec.toNat_mul, BitVec.toNat_mul, BitVec.toNat_ofNat, Nat.mod_eq_of_lt (a := b.cap) (by omega), hsize,
    Nat.mod_eq_of_lt (a := BitVec.toNat 2 * b.cap) (by show 2 * b.cap < _; omega)]
  show 2 * b.cap * 56 % _ = _
  rw [Nat.mod_eq_of_lt (by omega)]
  omega

theorem growStackBuf_eq (hcur : b.cur ≤ 2 ^ 31) (hroom : b.cur ≤ b.cap) (hpos : 0 < b.cap) (hcap : 112 * b.cap < 2 ^ 64)
    (hbytes : (a.bytes p).toNat = 56 * b.cap) :
    growStackBuf env a p b = (StackVault.growStackBuf env a.heap p b).map fun heap =>
      { heap, bytes := a.size a.heap.next (2 * BitVec.ofNat 64 b.cap * sbufSize) } := by
  have hnew := bytes_eq (b := b) hcap
  have hitems : ∀ i ∈ List.range b.cur, HasItem (a.bytes p) i ∧ HasItem (2 * BitVec.ofNat 64 b.cap * sbufSize) i := by
    intro i hi
    have hlt := List.mem_range.mp hi
    unfold HasItem
    omega
  have hcount : HasCounters (2 * BitVec.ofNat 64 b.cap * sbufSize) := by
    unfold HasCounters
    omega
  simp only [growStackBuf, StackVault.growStackBuf, if_pos hcount, Nat.min_eq_left hcur, growLoop_eq hitems,
    doubled_eq hcur hcap]
  by_cases hany : (List.range b.cur).any fun i => env.kmalloc (a.heap.next + 1 + i) = 0
  · simp only [if_pos hany]
    rfl
  · simp only [if_neg hany]
    rfl

theorem insert_eq (hitem : HasItem (a.bytes p) b.cur) : insertStackBuf env a mem p b buf len =
    (StackVault.insertStackBuf env a.heap mem p b buf len).map fun heap => { a with heap } := if_pos hitem

variable (env mem buf len) in
/-- A call on an array with the bytes of its capacity, as long as the copy loop comes to all elements. -/
theorem copyStackBuf_eq (hb : a.heap.sbufs p = some b) (hroom : b.cur ≤ b.cap) (hpos : 0 < b.cap)
    (hcur : b.cur ≤ 2 ^ 31) (hbytes : (a.bytes p).toNat = 56 * b.cap) : copyStackBuf env a mem (some p) buf len =
      (StackVault.copyStackBuf env a.heap mem (some p) buf len).map fun x => (x.1, x.2.1,
        { heap := x.2.2, bytes := if b.cur = b.cap ∧ env.kmalloc a.heap.next ≠ 0
            then a.size a.heap.next (2 * BitVec.ofNat 64 b.cap * sbufSize) else a.bytes }) := by
  unfold copyStackBuf StackVault.copyStackBuf
  rw [Heap.deref_some hb]
  simp only [bind, Except.bind]
  by_cases hfull : b.cur = b.cap
  · have hcap : 112 * b.cap < 2 ^ 64 := by omega
    rw [if_pos hfull, if_pos hfull]
    by_cases h0 : env.kmalloc a.heap.next = 0
    · rw [if_pos h0, if_pos h0, if_neg fun h => h.2 h0]
      rfl
    · rw [if_neg h0, if_neg h0, if_pos ⟨hfull, h0⟩, growStackBuf_eq hcur hroom hpos hcap hbytes, doubled_eq hcur hcap]
      cases StackVault.growStackBuf env a.heap p b with
      | error f => rfl
      | ok heap =>
        have hitem : HasItem (2 * BitVec.ofNat 64 b.cap * sbufSize) (b.doubled env a.heap.next).cur := by
          have hnew := bytes_eq (b := b) hcap
          have hsame : (b.doubled env a.heap.next).cur = b.cur := rfl
          unfold HasItem
          omega
        simp only [Except.map]
        rw [insert_eq (by dsimp only; rwa [size_self])]
        dsimp only
        cases StackVault.insertStackBuf env heap mem a.heap.next (b.doubled env a.heap.next) buf len <;> rfl
  · rw [if_neg hfull, if_neg hfull, if_neg fun h => hfull h.1, insert_eq (by unfold HasItem; omega)]
    cases StackVault.insertStackBuf env a.heap mem p b buf len <;> rfl

variable (env mem buf len) in
theorem copy_room (hb : a.heap.sbufs p = some b) (hroom : b.cur ≠ b.cap) (hitem : HasItem (a.bytes p) b.cur) :
    copyStackBuf env a mem (some p) buf len =
      (StackVault.copyStackBuf env a.heap mem (some p) buf len).map fun x =>
      (x.1, x.2.1, { a with heap := x.2.2 }) := by
  unfold copyStackBuf StackVault.copyStackBuf
  rw [Heap.deref_some hb]
  simp only [bind, Except.bind, if_neg hroom]
  rw [insert_eq hitem]
  cases StackVault.insertStackBuf env a.heap mem p b buf len <;> rfl

theorem insert_ok (h : insertStackBuf env a mem p b buf len = .ok a') : HasItem (a.bytes p) b.cur ∧ a'.bytes = a.bytes ∧
    a'.heap = { a.heap with next := a.heap.next + 1 }.set p
    (some (b.push (newItem env a.heap.next mem p b.cur buf len))) := by
  unfold insertStackBuf at h
  split at h
  · next hitem =>
    obtain ⟨heap, hins, rfl⟩ := map_eq_ok.mp h
    exact ⟨hitem, rfl, StackVault.insert_ok hins⟩
  · cases h

theorem grow_ok (h : growStackBuf env a p b = .ok a') : a'.heap.next = a.heap.next + 1 + min b.cur (2 ^ 31) := by
  unfold growStackBuf at h
  dsimp only at h
  split at h
  · obtain ⟨_, -, hret⟩ := bind_eq_ok.mp h
    cases hret
    rfl
  · cases h

/-- A call that returns has put the item behind the elements of the array, or of a larger one. -/
theorem copy_cases {ret : Int} {ptr : Option SbufPtr} (halloc : env.AllocOk) (hb : a.heap.sbufs p = some b)
    (h : copyStackBuf env a mem (some p) buf len = .ok (ret, ptr, a')) :
    (b.cur = b.cap ∧ ptr = some a.heap.next ∧ a.heap.next < a'.heap.next ∧ ∃ n, a'.heap.sbufs a.heap.next =
        some ((doubled b env a.heap.next).push (newItem env n mem a.heap.next b.cur buf len))) ∨
      (b.cur ≠ b.cap ∧ ptr = some p ∧ a.heap.next < a'.heap.next ∧ a'.bytes = a.bytes ∧ HasItem (a.bytes p) b.cur ∧
        ∃ n, a'.heap.sbufs p = some (b.push (newItem env n mem p b.cur buf len))) := by
  unfold copyStackBuf at h
  rw [Heap.deref_some hb] at h
  simp only [bind, Except.bind] at h
  by_cases hfull : b.cur = b.cap
  · rw [if_pos hfull, if_neg (halloc _)] at h
    cases hgrow : growStackBuf env a p b with
    | error f =>
      rw [hgrow] at h
      cases h
    | ok a₁ =>
      rw [hgrow] at h
      dsimp only at h
      cases hins : insertStackBuf env a₁ mem a.heap.next (doubled b env a.heap.next) buf len with
      | error f =>
        rw [hins] at h
        cases h
      | ok a₂ =>
        rw [hins] at h
        cases h
        have hnext := grow_ok hgrow
        obtain ⟨-, -, hheap⟩ := insert_ok hins
        refine Or.inl ⟨hfull, rfl, ?_, a₁.heap.next, ?_⟩
        · rw [hheap]
          show a.heap.next < a₁.heap.next + 1
          omega
        · rw [hheap]
          exact Heap.set_sbufs_self
  · rw [if_neg hfull] at h
    cases hins : insertStackBuf env a mem p b buf len with
    | error f =>
      rw [hins] at h
      cases h
    | ok a₁ =>
      rw [hins] at h
      cases h
      obtain ⟨hitem, hbytes, hheap⟩ := insert_ok hins
      refine Or.inr ⟨hfull, rfl, ?_, hbytes, hitem, a.heap.next, ?_⟩
      · rw [hheap]
        exact Nat.lt_succ_self _
      · rw [hheap]
        exact Heap.set_sbufs_self

end Calls

/-! ### Calls that have room -/

section Runs
variable {env : Env} {a₀ a a' : Arrays} {p p₀ : Nat} {b : Sbuf} {c : Addr} {chunks : List Chunk}

variable (c a₀) in
theorem init_eq (halloc : env.AllocOk) : initStackBuf env c a₀ = if HasCounters (c * sbufSize) then
    .ok (some a₀.heap.next,
      { heap := (StackVault.initStackBuf env c.toNat a₀.heap).2, bytes := a₀.size a₀.heap.next (c * sbufSize) })
    else .error .outOfBounds := by
  unfold initStackBuf StackVault.initStackBuf
  simp only [if_neg (halloc _)]

theorem Filled.copyAll_room (halloc : env.AllocOk) (hc : 1 ≤ c.toNat) :
    ∀ (rest : List Chunk) {done : List Chunk} {b : Sbuf} {a : Arrays},
    Filled c.toNat done p b a.heap → done.length + rest.length ≤ c.toNat →
    56 * (done.length + rest.length) ≤ (a.bytes p).toNat + 16 →
    ∃ b' a', copyAll env rest (some p) a = .ok (some p, a') ∧ Filled c.toNat (done ++ rest) p b' a'.heap
  | [], _, b, a, h, _, _ => ⟨b, a, rfl, by rwa [List.append_nil]⟩
  | ch :: rest, done, b, a, h, hlen, hbytes => by
    rw [List.length_cons] at hlen hbytes
    have hcur := h.lists.cur
    have hfull : b.cur ≠ b.cap := by
      rcases h.heads with ⟨-, hcap, -⟩ | ⟨hlt, -⟩ <;> omega
    have hcopy := copy_room env ch.mem ch.range.start ch.range.len h.live hfull
      (by unfold HasItem; omega)
    obtain ⟨p', b', heap', hstep, h'⟩ := h.copy halloc hc ch
    have hsame := (StackVault.copy_room ch.mem ch.range.start ch.range.len halloc h.live hfull).symm.trans hstep
    obtain rfl : p = p' := by
      cases hsame
      rfl
    rw [hstep] at hcopy
    have hlen' : (done ++ [ch]).length = done.length + 1 := List.length_append
    obtain ⟨b'', a'', hall, hend⟩ :=
      Filled.copyAll_room (a := { a with heap := heap' }) halloc hc rest h' (by omega) (by
        dsimp only
        omega)
    refine ⟨b'', a'', ?_, by simpa using hend⟩
    rw [copyAll, hcopy]
    exact hall

/-- While no size wraps, calls that double the array go on as well. -/
theorem Filled.copyAll_sized (halloc : env.AllocOk) (hc : 1 ≤ c.toNat) :
    ∀ (rest : List Chunk) {done : List Chunk} {p : Nat}
    {b : Sbuf} {a : Arrays}, Filled c.toNat done p b a.heap → (a.bytes p).toNat = 56 * b.cap → 0 < b.cap →
    done.length + rest.length ≤ 2 ^ 31 →
    ∃ p' b' a', copyAll env rest (some p) a = .ok (some p', a') ∧ Filled c.toNat (done ++ rest) p' b' a'.heap
  | [], _, p, b, a, h, _, _, _ => ⟨p, b, a, rfl, by rwa [List.append_nil]⟩
  | ch :: rest, done, p, b, a, h, hbytes, hpos, hlen => by
    rw [List.length_cons] at hlen
    have hcur := h.lists.cur
    have hold := h.old
    have hcopy := copyStackBuf_eq env ch.mem ch.range.start ch.range.len h.live h.room hpos
      (by omega) hbytes
    obtain ⟨p', b', heap', hstep, h'⟩ := h.copy halloc hc ch
    rw [hstep] at hcopy
    have hlen' : (done ++ [ch]).length = done.length + 1 := List.length_append
    have hlive := h'.live
    by_cases hfull : b.cur = b.cap
    · have hsame := (copy_full ch.mem ch.range.start ch.range.len halloc h.live hfull).symm.trans hstep
      cases hsame
      rw [Heap.set_sbufs_self] at hlive
      cases hlive
      rw [if_pos ⟨hfull, halloc _⟩] at hcopy
      obtain ⟨p'', b'', a'', hall, hend⟩ := Filled.copyAll_sized halloc hc rest
        (a := ⟨_, a.size a.heap.next (2 * BitVec.ofNat 64 b.cap * sbufSize)⟩) h'
        (by
          dsimp only
          rw [size_self, bytes_eq (by omega)]
          rfl)
        (by
          show 0 < 2 * b.cap
          omega)
        (by omega)
      refine ⟨p'', b'', a'', ?_, by simpa using hend⟩
      rw [copyAll, hcopy]
      exact hall
    · have hsame := (StackVault.copy_room ch.mem ch.range.start ch.range.len halloc h.live hfull).symm.trans hstep
      cases hsame
      rw [Heap.set_sbufs_self] at hlive
      cases hlive
      rw [if_neg fun hb => hfull hb.1] at hcopy
      obtain ⟨p'', b'', a'', hall, hend⟩ :=
        Filled.copyAll_sized halloc hc rest (a := ⟨_, a.bytes⟩) h' hbytes hpos (by omega)
      refine ⟨p'', b'', a'', ?_, by simpa using hend⟩
      rw [copyAll, hcopy]
      exact hall

/-! ### Calls of every kind -/

/-- After `n` chunks the array is still the first one, which has bytes for them, or the first element has moved. -/
structure Counted (c : Addr) (n p : Nat) (b : Sbuf) (a : Arrays) : Prop where
  live : a.heap.sbufs p = some b
  old : p < a.heap.next
  cur : b.cur = n
  heads : (b.cap = c.toNat ∧ n ≤ c.toNat ∧ a.bytes p = c * sbufSize ∧ 56 * n ≤ (c * sbufSize).toNat + 16 ∧
    (0 < n → (b.entry 0).holeList.home = (p, 0))) ∨ (0 < n ∧ (b.entry 0).holeList.home.1 < p)

theorem Counted.copy {n : Nat} {mem : Mem} {buf len : Addr} {ret : Int} {ptr : Option SbufPtr} (h : Counted c n p b a)
    (halloc : env.AllocOk) (hc : 1 ≤ c.toNat) (hcopy : copyStackBuf env a mem (some p) buf len = .ok (ret, ptr, a')) :
    ∃ p' b', ptr = some p' ∧ Counted c (n + 1) p' b' a' := by
  have hold := h.old
  have hcur := h.cur
  rcases copy_cases halloc h.live hcopy with ⟨hfull, rfl, hnext, k, hlive⟩ |
    ⟨hroom, rfl, hnext, hbytes, hitem, k, hlive⟩
  · have hpos : 0 < b.cur := by
      rcases h.heads with ⟨hcap, -⟩ | ⟨hpos, -⟩ <;> omega
    refine ⟨_, _, rfl, hlive, hnext, congrArg (· + 1) hcur, Or.inr ⟨Nat.succ_pos _, ?_⟩⟩
    -- The first element was copied with its list head.
    have hfirst : 0 < min b.cur (2 ^ 31) := by omega
    rw [Sbuf.push_entry_of_lt (b := doubled b env a.heap.next) hpos]
    show ((if 0 < min b.cur (2 ^ 31) then { b.entry 0 with buf := _ } else default : StackBuf)).holeList.home.1 < _
    rw [if_pos hfirst]
    dsimp only
    rcases h.heads with ⟨-, -, -, -, hhome⟩ | ⟨-, hhome⟩
    · rw [hhome (hcur ▸ hpos)]
      exact hold
    · exact hhome.trans hold
  · refine ⟨_, _, rfl, hlive, hold.trans hnext, congrArg (· + 1) hcur, ?_⟩
    rcases h.heads with ⟨hcap, hle, hb, hlen, hhome⟩ | ⟨hpos, hhome⟩
    · refine Or.inl ⟨hcap, by omega, hbytes ▸ hb, ?_, fun _ => ?_⟩
      · rw [hb] at hitem
        unfold HasItem at hitem
        omega
      · by_cases hpos : 0 < b.cur
        · rw [Sbuf.push_entry_of_lt hpos]
          exact hhome (hcur ▸ hpos)
        · have hzero : b.cur = 0 := by omega
          have hfirst := Sbuf.push_entry_cur (b := b) (e := newItem env k mem p b.cur buf len)
          rw [hzero] at hfirst ⊢
          rw [hfirst]
          rfl
    · refine Or.inr ⟨Nat.succ_pos _, ?_⟩
      rw [Sbuf.push_entry_of_lt (hcur ▸ hpos)]
      exact hhome

theorem Counted.copyAll (halloc : env.AllocOk) (hc : 1 ≤ c.toNat) :
    ∀ (rest : List Chunk) {n p q : Nat} {b : Sbuf} {a : Arrays},
    Counted c n p b a → copyAll env rest (some p) a = .ok (some q, a') → ∃ b', Counted c (n + rest.length) q b' a'
  | [], _, _, _, b, _, h, hall => by
    cases hall
    exact ⟨b, h⟩
  | ch :: rest, n, _, _, _, _, h, hall => by
    obtain ⟨⟨ret, ptr, a₁⟩, hcopy, hall⟩ := bind_eq_ok.mp hall
    obtain ⟨p', b', rfl, h'⟩ := h.copy halloc hc hcopy
    obtain ⟨b'', hend⟩ := Counted.copyAll halloc hc rest h' hall
    refine ⟨b'', ?_⟩
    rwa [List.length_cons, Nat.add_comm rest.length, ← Nat.add_assoc]

/-- Save buffers of any size. A buffer made for `c` elements takes the chunks and can be restored if and only if there
    are no more of them than `c`, so that it is never doubled, nor than the `int` index of the restore comes to, and
    the array, whose size in bytes is cut to a word, has bytes for its counters and for every chunk. While no size
    wraps, doubled arrays still list the chunks in order, with their bytes and within their capacity. -/
theorem doubling_keeps_iff (halloc : env.AllocOk) (hsort : env.SortOk) (hc : 1 ≤ c.toNat)
    (hap : (chunks.map Chunk.range).Pairwise Range.Apart) (a₀ : Arrays) :
    (Keeps env c chunks a₀ ↔ chunks.length ≤ c.toNat ∧ chunks.length ≤ 2 ^ 31 ∧
      56 ≤ (c * sbufSize).toNat ∧ 56 * chunks.length ≤ (c * sbufSize).toNat + 16) ∧
    (56 * c.toNat < 2 ^ 64 → chunks.length ≤ 2 ^ 31 → ∃ p₀ a p a' b, initStackBuf env c a₀ = .ok (some p₀, a) ∧
      copyAll env chunks (some p₀) a = .ok (some p, a') ∧ a'.heap.sbufs p = some b ∧ b.Lists chunks ∧
      b.cur ≤ b.cap) := by
  have hbase : StackVault.initStackBuf env c.toNat a₀.heap =
      (some a₀.heap.next, (StackVault.initStackBuf env c.toNat a₀.heap).2) := by
    simp only [StackVault.initStackBuf, if_neg (halloc _)]
  have hstart := Filled.init hbase
  have hinit := init_eq a₀ c halloc
  refine ⟨⟨?_, ?_⟩, fun hsmall hlim => ?_⟩
  · rintro ⟨p₀, a, p, a', b, hinit', hall, hlive, hlists, -, hun, hback⟩
    rw [hinit] at hinit'
    split at hinit'
    · next hcount =>
      cases hinit'
      have hzero : Counted c 0 a₀.heap.next { cur := 0, cap := c.toNat, entry := fun _ => default }
          { heap := (StackVault.initStackBuf env c.toNat a₀.heap).2, bytes := a₀.size a₀.heap.next (c * sbufSize) } :=
        ⟨hstart.live, hstart.old, rfl,
          Or.inl ⟨rfl, Nat.zero_le _, size_self, by omega, fun h => absurd h (lt_irrefl 0)⟩⟩
      obtain ⟨b', hend⟩ := Counted.copyAll halloc hc chunks hzero hall
      rw [Nat.zero_add] at hend
      obtain rfl : b = b' := Option.some.inj (hlive.symm.trans hend.live)
      have hcur : b.cur ≤ 2 ^ 31 := hback.cur_le hlive
      refine ⟨?_, hlists.cur ▸ hcur, hcount, ?_⟩
      all_goals
        rcases hend.heads with ⟨-, hle, -, hbytes, -⟩ | ⟨hpos, hhome⟩
        · assumption
        · rw [hun 0 (hend.cur ▸ hpos)] at hhome
          exact absurd hhome (Nat.lt_irrefl p)
    · cases hinit'
  · rintro ⟨hle, hlim, hcount, hbytes⟩
    rw [if_pos (show HasCounters (c * sbufSize) from hcount)] at hinit
    obtain ⟨b, a', hall, h⟩ :=
      Filled.copyAll_room (a := ⟨_, a₀.size a₀.heap.next (c * sbufSize)⟩) halloc hc chunks hstart
        (by simpa using hle) (by
          dsimp only
          rw [size_self, List.length_nil, Nat.zero_add]
          exact hbytes)
    rw [List.nil_append] at h
    exact ⟨_, _, _, a', b, hinit, hall, h.live, h.lists, h.room, h.unholed_iff.mpr hle, h.writesBack hsort hap hle hlim⟩
  · have hsize : (c * sbufSize).toNat = 56 * c.toNat := by
      rw [BitVec.toNat_mul, Nat.mul_comm]
      exact Nat.mod_eq_of_lt hsmall
    have hcount : HasCounters (c * sbufSize) := by
      unfold HasCounters
      omega
    rw [if_pos hcount] at hinit
    obtain ⟨p, b, a', hall, h⟩ :=
      Filled.copyAll_sized (a := ⟨_, a₀.size a₀.heap.next (c * sbufSize)⟩) halloc hc chunks hstart
        (by
          dsimp only
          rwa [size_self]) hc (by simpa using hlim)
    rw [List.nil_append] at h
    exact ⟨_, _, p, a', b, hinit, hall, h.live, h.lists, h.room⟩

end Runs

/-! ### Two chunks -/

def twoChunks : List Chunk := [⟨⟨0x1000, 4⟩, fun _ => 0x41⟩, ⟨⟨0x2000, 4⟩, fun _ => 0x42⟩]

/-- The heap of the module just loaded. -/
def Arrays.none : Arrays := ⟨loaded.heap, fun _ => 0⟩

theorem twoChunks_apart : (twoChunks.map Chunk.range).Pairwise Range.Apart :=
  List.pairwise_pair.mpr (Range.apart_of_le (by decide) (by decide) (by decide))

theorem doubling_keeps_two : Keeps Env.sample 2 twoChunks .none :=
  (doubling_keeps_iff Env.sample_allocOk Env.sample_sortOk (by decide) twoChunks_apart .none).1.mpr (by decide)

/-- In an array made for one, the second chunk moves the first: its hole list is not empty, and its restore
    follows the freed array. An array made for `2 ^ 61 + 1` elements is given the bytes of one, and the second
    chunk is written behind them. -/
theorem second_chunk_moves_first :
    (∃ a p a' b crash, initStackBuf Env.sample 1 .none = .ok (some 0, a) ∧
      copyAll Env.sample twoChunks (some 0) a = .ok (some p, a') ∧
      a'.heap.sbufs p = some b ∧ ¬b.Unholed p ∧
      restoreStackBuf Env.sample a'.heap (fun _ => 0) (some p) = .error crash ∧
      crash.fault = .useAfterFree) ∧ ¬Keeps Env.sample 1 twoChunks .none ∧
    (∃ a, initStackBuf Env.sample 0x2000000000000001 .none = .ok (some 0, a) ∧
      copyAll Env.sample twoChunks (some 0) a = .error .outOfBounds) ∧
      ¬Keeps Env.sample 0x2000000000000001 twoChunks .none := by
  have hgrow : ∃ a p a' b crash, initStackBuf Env.sample 1 .none = .ok (some 0, a) ∧
      copyAll Env.sample twoChunks (some 0) a = .ok (some p, a') ∧ a'.heap.sbufs p = some b ∧ b.cur = 2 ∧
      (b.entry 0).holeList.home.1 < p ∧ restoreStackBuf Env.sample a'.heap (fun _ => 0) (some p) = .error crash ∧
      crash.fault = .useAfterFree := ⟨_, _, _, _, _, rfl, rfl, rfl, rfl, by decide, rfl, rfl⟩
  obtain ⟨a, p, a', b, crash, hinit, hall, hlive, hcur, hhome, hres, hfault⟩ := hgrow
  have hwrap : ∃ a, initStackBuf Env.sample 0x2000000000000001 .none = .ok (some 0, a) ∧
      copyAll Env.sample twoChunks (some 0) a = .error .outOfBounds := ⟨_, rfl, rfl⟩
  refine ⟨⟨a, p, a', b, crash, hinit, hall, hlive, fun hun => ?_, hres, hfault⟩, ?_, hwrap, ?_⟩
  · rw [hun 0 (by omega)] at hhome
    exact absurd hhome (Nat.lt_irrefl p)
  · rintro ⟨p₀, a₁, q, a₂, d, hinit', hall', hlive', -, -, -, hback⟩
    cases hinit.symm.trans hinit'
    cases hall.symm.trans hall'
    obtain ⟨b', mem', hok, -⟩ := hback fun _ => 0
    cases hok.symm.trans hres
  · rintro ⟨p₀, a₁, q, a₂, d, hinit', hall', -⟩
    obtain ⟨a₃, hinit₃, hall₃⟩ := hwrap
    cases hinit₃.symm.trans hinit'
    cases hall₃.symm.trans hall'

end Word

end StackVault
