import StackVault.Lib.Trail
import StackVault.Theorems.Frame
import Mathlib.Tactic.Abel

/-! The pointer chase told by the ranges that it writes back. A look-up depends on the segments as they
    were saved, and on nothing that the chase itself changes; so the chase is a trail over the saved
    segments, and memory, heap and the holes at any moment can be read off the ranges written so far.
    `restore_pointers` computes what its trail tells, faults included, while `kmalloc` gives a hole for
    each range. -/

namespace StackVault
open Memory

/-! ### What a look-up reads -/

/-- The bytes that the look-up of a range gives. -/
def lookUp (segs : List StackBuf) (r : Span) : Except Fault (Addr → Byte) :=
  kread segs (findInStackBuf r.start r.len segs) r.len

/-- The bytes of a look-up that succeeds. -/
def bytesOf (segs : List StackBuf) (r : Span) : Addr → Byte :=
  match lookUp segs r with
  | .error _ => fun _ => 0
  | .ok src => src

/-- The segment without its holes. -/
def StackBuf.unholed (e : StackBuf) : StackBuf := { e with holeList := default }

section LookUp
variable {segs segs' : List StackBuf} {x p len : Addr} {r : Span} {src : Addr → Byte}

theorem bytesOf_ok (h : lookUp segs r = .ok src) : bytesOf segs r = src := by
  simp only [bytesOf, h]

theorem mem_of_reached {e : StackBuf} (he : e ∈ reached segs) : e ∈ segs := List.mem_of_mem_take he

/-- An index into at most `2 ^ 31` segments comes to them all. -/
theorem reached_eq (h : segs.length ≤ 2 ^ 31) : reached segs = segs := List.take_of_length_le h

theorem find_map {g : StackBuf → StackBuf}
    (hg : ∀ e, (g e).buf = e.buf ∧ (g e).start = e.start ∧ (g e).len = e.len) :
    findInStackBuf x len (segs.map g) = findInStackBuf x len segs := by
  have hall : ∀ l : List StackBuf, findInSegs x len (l.map g) = findInSegs x len l := fun l => by
    induction l with
    | nil => rfl
    | cons e l ih =>
      obtain ⟨hbuf, hstart, hlen⟩ := hg e
      simp only [List.map_cons, findInSegs, hbuf, hstart, hlen, ih]
  rw [findInStackBuf, findInStackBuf, reached, ← List.map_take, hall]
  rfl

/-- The segment that holds the address is found by the places of the copies alone. -/
theorem kread_map {g : StackBuf → StackBuf} (hg : ∀ e, (g e).buf = e.buf ∧ (g e).start = e.start ∧ (g e).len = e.len) :
    kread (segs.map g) p len =
      if p = 0 then .error .nullDeref
      else match segs.find? fun e => e.Holds p len with
        | none => .error .outOfBounds
        | some e => .ok ((g e).read p) := by
  have hholds : ((fun e : StackBuf => decide (e.Holds p len)) ∘ g) = fun e => decide (e.Holds p len) := by
    funext e
    obtain ⟨hbuf, -, hlen⟩ := hg e
    refine decide_eq_decide.mpr ?_
    rw [StackBuf.Holds, StackBuf.Holds, hbuf, hlen]
  unfold kread
  rw [List.find?_map, hholds]
  cases segs.find? fun e => decide (e.Holds p len) <;> rfl

theorem Sbuf.SameBytes.unholed {b b' : Sbuf} (h : b.SameBytes b') :
    b'.segs.map StackBuf.unholed = b.segs.map StackBuf.unholed := by
  simp only [Sbuf.segs, h.cur, List.map_map]
  refine List.map_congr_left fun i _ => ?_
  obtain ⟨l, hl⟩ := h.entry i
  simp only [Function.comp_apply, hl, StackBuf.unholed]

theorem Sbuf.SameBytes.find {b b' : Sbuf} (h : b.SameBytes b') (x len : Addr) :
    findInStackBuf x len b'.segs = findInStackBuf x len b.segs := by
  have hunholed : ∀ segs, findInStackBuf x len (segs.map StackBuf.unholed) = findInStackBuf x len segs := fun _ =>
    find_map fun _ => ⟨rfl, rfl, rfl⟩
  rw [← hunholed, h.unholed, hunholed]

theorem Sbuf.SameBytes.kread {b b' : Sbuf} (h : b.SameBytes b') (p len : Addr) :
    kread b'.segs p len = kread b.segs p len := by
  have hunholed : ∀ segs, StackVault.kread (segs.map StackBuf.unholed) p len = StackVault.kread segs p len := fun _ =>
    kread_map fun _ => ⟨rfl, rfl, rfl⟩
  rw [← hunholed, h.unholed, hunholed]

theorem findInSegs_inv (h : findInSegs x len segs ≠ 0) :
    ∃ e ∈ segs, e.start ≤ x ∧ x + len ≤ e.start + e.len ∧ findInSegs x len segs = e.buf + (x - e.start) := by
  induction segs with
  | nil => exact absurd rfl h
  | cons e segs ih =>
    unfold findInSegs at h ⊢
    by_cases he : e.start ≤ x ∧ x + len ≤ e.start + e.len
    · rw [if_pos he]
      exact ⟨e, List.mem_cons_self, he.1, he.2, rfl⟩
    · rw [if_neg he] at h ⊢
      obtain ⟨f, hf, h1, h2, h3⟩ := ih h
      exact ⟨f, List.mem_cons_of_mem _ hf, h1, h2, h3⟩

theorem find_inv (h : findInStackBuf x len segs ≠ 0) :
    ∃ e ∈ segs, e.start ≤ x ∧ x + len ≤ e.start + e.len ∧
      findInStackBuf x len segs = e.buf + (x - e.start) := by
  obtain ⟨e, he, hrest⟩ := findInSegs_inv h
  exact ⟨e, mem_of_reached he, hrest⟩

theorem kread_inv (h : kread segs p len = .ok src) : p ≠ 0 ∧ ∃ e ∈ segs, e.Holds p len ∧ src = e.read p := by
  unfold kread at h
  split at h
  · cases h
  · next h0 =>
    split at h
    · cases h
    · next e he =>
      cases h
      have hholds := List.find?_some he
      exact ⟨h0, e, List.mem_of_find?_eq_some he, of_decide_eq_true hholds, rfl⟩

end LookUp

/-! ### What a look-up finds -/

/-- The place of the segment's copy. -/
def StackBuf.copy (e : StackBuf) : Span := ⟨e.buf, e.len⟩

/-- Every segment has an allocation of its own. -/
structure Separate (segs : List StackBuf) : Prop where
  fits : ∀ e ∈ segs, e.buf.toNat + e.len.toNat < 2 ^ 64
  apart : segs.Pairwise fun e f => e.copy.Apart f.copy

section Separate
variable {segs : List StackBuf} {m : Mem} {e f : StackBuf} {x len : Addr} {r : Span} {src : Addr → Byte}

/-- An address in the copies of two segments shows that they are one. -/
theorem Separate.eq_of_mem (h : Separate segs) (he : e ∈ segs) (hf : f ∈ segs) (hxe : x ∈ e.copy) (hxf : x ∈ f.copy) :
    e = f := by
  by_contra hne
  have hsymm : Std.Symm fun e f : StackBuf => e.copy.Apart f.copy := ⟨fun _ _ h => h.symm⟩
  exact h.apart.forall he hf hne x hxe hxf

theorem Separate.mem_copy (h : Separate segs) (he : e ∈ segs) :
    x ∈ e.copy ↔ e.buf.toNat ≤ x.toNat ∧ x.toNat < e.buf.toNat + e.len.toNat :=
  Range.mem_iff (le_of_lt (h.fits e he))

theorem Separate.place (h : Separate segs) (he : e ∈ segs) (hlo : e.start ≤ x)
    (hup : x.toNat + len.toNat ≤ e.start.toNat + e.len.toNat) :
    (e.buf + (x - e.start)).toNat = e.buf.toNat + (x.toNat - e.start.toNat) ∧ e.Holds (e.buf + (x - e.start)) len := by
  have hfit := h.fits e he
  have hsub : (x - e.start).toNat = x.toNat - e.start.toNat := BitVec.toNat_sub_of_le hlo
  rw [BitVec.le_def] at hlo
  have hadd : (e.buf + (x - e.start)).toNat = e.buf.toNat + (x.toNat - e.start.toNat) := by
    rw [BitVec.toNat_add, hsub, Nat.mod_eq_of_lt (by omega)]
  refine ⟨hadd, ?_⟩
  unfold StackBuf.Holds
  omega

/-- A look-up of a range that does not wrap gives the saved bytes of the range itself. -/
theorem Separate.lookUp_saved (h : Separate segs) (hspan : ∀ e ∈ segs, e.start.toNat + e.len.toNat < 2 ^ 64)
    (hdata : ∀ e ∈ segs, e.Saves m) (hr : r.start.toNat + r.len.toNat < 2 ^ 64) (hl : lookUp segs r = .ok src) :
    ∀ k, k < r.len → src k = m (r.start + k) := by
  intro k hk
  obtain ⟨h0, e, he, hholds, rfl⟩ := kread_inv hl
  obtain ⟨f, hf, hlo, hup, hfind⟩ := find_inv h0
  have hrsum : (r.start + r.len).toNat = r.start.toNat + r.len.toNat := by rw [BitVec.toNat_add, Nat.mod_eq_of_lt hr]
  have hfsum : (f.start + f.len).toNat =
    f.start.toNat + f.len.toNat := by rw [BitVec.toNat_add, Nat.mod_eq_of_lt (hspan f hf)]
  rw [BitVec.le_def, hrsum, hfsum] at hup
  obtain ⟨hplace, -⟩ := h.place hf hlo hup
  rw [hfind] at hholds ⊢
  rw [BitVec.lt_def] at hk
  have hfe : f = e := by
    refine h.eq_of_mem hf he (x := f.buf + (r.start - f.start)) ?_ ?_
    · rw [h.mem_copy hf, hplace]
      rw [BitVec.le_def] at hlo
      omega
    · rw [h.mem_copy he]
      unfold StackBuf.Holds at hholds
      omega
  subst hfe
  have hsub : (r.start - f.start).toNat = r.start.toNat - f.start.toNat := BitVec.toNat_sub_of_le hlo
  have hoff : f.buf + (r.start - f.start) - f.buf + k = r.start - f.start + k := by abel
  have haddr : f.start + (r.start - f.start + k) = r.start + k := by abel
  rw [StackBuf.read, hoff, hdata f hf, haddr]
  rw [BitVec.le_def] at hlo
  rw [BitVec.lt_def, BitVec.toNat_add, hsub, Nat.mod_eq_of_lt (by omega)]
  omega

end Separate

/-! ### The trails -/

section Trails
variable (segs : List StackBuf) (home : Prop) [Decidable home]

/-- A range is written back; where the hole list closes in another array, recording the hole faults. -/
def writeBackTrail (r : Span) : Trail Span Fault (Addr → Byte) :=
  match lookUp segs r with
  | .error f => ⟨[], .error f⟩
  | .ok src => ⟨[r], if home then .ok src else .error .useAfterFree⟩

/-- A pointer cell, and the address that it holds. -/
def cellTrail (x : Addr) : Trail Span Fault Addr := do
  let src ← writeBackTrail segs home ⟨x, 8⟩
  return load64 src 0

def chaseTrail : Nat → Addr → Trail Span Fault Addr
  | 0, x => pure x
  | n + 1, x => do
    let y ← cellTrail segs home x
    chaseTrail n y

def targetTrail (x size : Addr) : Trail Span Fault Unit :=
  if findInStackBuf x size segs = 0 then pure ()
  else do
    let _ ← writeBackTrail segs home ⟨x, size⟩
    return ()

/-- One entry with `pointer ≠ 0`, and whether its first cell is found. -/
def pointerTrail (tmp : Para) : Trail Span Fault Bool :=
  if findInStackBuf tmp.addr 8 segs = 0 then pure false
  else do
    let y ← cellTrail segs home tmp.addr
    let z ← chaseTrail segs home (tmp.pointer - 1).toNat y
    targetTrail segs home z tmp.size
    return true

theorem pointerTrail_found {tmp : Para} (hp : tmp.pointer ≠ 0) (h : findInStackBuf tmp.addr 8 segs ≠ 0) :
    pointerTrail segs home tmp = chaseTrail segs home tmp.pointer.toNat tmp.addr >>= fun z =>
      targetTrail segs home z tmp.size >>= fun _ => pure true := by
  have hpred : (tmp.pointer - 1).toNat + 1 = tmp.pointer.toNat := by bv_omega
  rw [← hpred, chaseTrail, Trail.bind_assoc, pointerTrail, if_neg h]

def pointersTrail : List Para → Trail Span Fault (Int × List Para)
  | [] => pure (0, [])
  | tmp :: rest =>
    if tmp.pointer = 0 then do
      let x ← pointersTrail rest
      return (x.1, tmp :: x.2)
    else do
      let found ← pointerTrail segs home tmp
      if found then do
        let x ← pointersTrail rest
        return (x.1, { tmp with pointer := 0 } :: x.2)
      else return (-1, { tmp with pointer := tmp.pointer - 1 } :: rest)

end Trails

section Logged
variable {segs : List StackBuf} {home : Prop} [Decidable home] {r : Span} {src : Addr → Byte}

theorem writeBackTrail_ok (h : (writeBackTrail segs home r).result = .ok src) : lookUp segs r = .ok src := by
  unfold writeBackTrail at h
  cases hl : lookUp segs r with
  | error f =>
    rw [hl] at h
    cases h
  | ok src' =>
    rw [hl] at h
    dsimp only at h
    split at h <;> cases h
    rfl

/-- A range whose look-up succeeds is logged. -/
theorem mem_writeBackTrail (h : lookUp segs r = .ok src) : r ∈ (writeBackTrail segs home r).log := by
  unfold writeBackTrail
  rw [h]
  exact List.mem_cons_self

end Logged

/-! ### The state that a log leaves -/

/-- The array with more holes in its first element. -/
def Sbuf.withHoles (b : Sbuf) (hs : List Hole) : Sbuf :=
  { b with entry := fun i =>
      if i = 0 then
        { b.entry 0 with holeList := { (b.entry 0).holeList with holes := (b.entry 0).holeList.holes ++ hs } }
      else b.entry i }

/-- The hole that a range leaves. -/
def holeOf (segs : List StackBuf) (r : Span) : Hole := ⟨findInStackBuf r.start r.len segs, r.len⟩

/-- Memory once the ranges are written back. -/
def replay (segs : List StackBuf) (ws : List Span) (mem : Mem) : Mem :=
  ws.foldl (fun m r => blit m r (bytesOf segs r)) mem

/-- The chase that started at `c`, over the array `b` at `p`, when it has written the ranges `ws`. -/
def Chase.after (p : SbufPtr) (b : Sbuf) (c : Chase) (ws : List Span) : Chase where
  mem := replay b.segs ws c.mem
  heap := { c.heap with next := c.heap.next + ws.length }.set p (some (b.withHoles (ws.map (holeOf b.segs))))
  written := c.written ++ ws

/-- From `kmalloc` call `n` on, the call with the number `k` succeeds. -/
def Env.Gives (env : Env) (n k : Nat) : Prop := env.kmalloc (n + k) ≠ 0

instance (env : Env) (n : Nat) : DecidablePred (env.Gives n) := fun _ => inferInstanceAs (Decidable (_ ≠ _))

/-- A fault of the chase. -/
def Chase.crash (f : Fault) (c : Chase) : Crash := ⟨f, c.mem, c.written⟩

/-- What a trail comes to for a chase that started at `c`, over the array `b` at `p`, when it has written the
    ranges `ws`. Each range takes one `kmalloc` call, and a hole that is not allocated is followed. -/
def Chase.tells {α : Type} (env : Env) (p : SbufPtr) (b : Sbuf) (c : Chase) (ws : List Span) (t : Trail Span Fault α) :
    Except Crash (α × Chase) :=
  t.tellWhile (env.Gives c.heap.next) (Chase.after p b c) Chase.crash .nullDeref ws

section After
variable {segs : List StackBuf} {m mem : Mem} {b : Sbuf} {hs : List Hole} {h : Hole} {p : SbufPtr} {c : Chase}
  {ws : List Span} {r : Span} {x : Addr}

theorem replay_saved (h : ∀ r ∈ ws, ∀ k, k < r.len → bytesOf segs r k = m (r.start + k)) :
    replay segs ws mem x = if Covers ws x then m x else mem x := by
  induction ws generalizing mem with
  | nil => exact (if_neg covers_nil).symm
  | cons r ws ih =>
    show replay segs ws (blit mem r (bytesOf segs r)) x = _
    rw [ih fun s hs => h s (List.mem_cons_of_mem _ hs), blit_apply (h r List.mem_cons_self)]
    by_cases hx : Covers ws x
    · rw [if_pos hx, if_pos (covers_cons.mpr (Or.inr hx))]
    · rw [if_neg hx]
      exact if_congr (by simp [hx]) rfl rfl

theorem Sbuf.withHoles_nil : b.withHoles [] = b := by
  cases b with
  | mk cur cap entry =>
    refine congrArg (Sbuf.mk cur cap) (funext fun i => ?_)
    by_cases hi : i = 0
    · rw [if_pos hi, List.append_nil, hi]
    · exact if_neg hi

theorem Sbuf.addHole_withHoles : (b.withHoles hs).addHole h = b.withHoles (hs ++ [h]) := by
  refine congrArg (Sbuf.mk b.cur b.cap) (funext fun i => ?_)
  by_cases hi : i = 0
  · simp [hi, Sbuf.withHoles]
  · simp [hi, Sbuf.withHoles]

theorem Sbuf.sameBytes_withHoles (b : Sbuf) (hs : List Hole) : b.SameBytes (b.withHoles hs) := by
  refine ⟨rfl, rfl, fun i => ?_⟩
  by_cases hi : i = 0
  · rw [hi]
    exact ⟨_, rfl⟩
  · exact ⟨(b.entry i).holeList, if_neg hi⟩

theorem Heap.set_set {h : Heap} {x y : Option Sbuf} {n : Nat} :
    Heap.set { h.set p x with next := n } p y = Heap.set { h with next := n } p y := by
  refine congrArg (Heap.mk n) (funext fun q => ?_)
  by_cases hq : q = p
  · rw [if_pos hq, if_pos hq]
  · rw [if_neg hq, if_neg hq]
    exact if_neg hq

theorem Chase.after_nil (hb : c.heap.sbufs p = some b) : Chase.after p b c [] = c := by
  have hheap : Heap.set { c.heap with next := c.heap.next + 0 } p (some (b.withHoles [])) = c.heap := by
    rw [Sbuf.withHoles_nil]
    refine congrArg (Heap.mk c.heap.next) (funext fun q => ?_)
    by_cases hq : q = p
    · rw [if_pos hq, hq, hb]
    · exact if_neg hq
  simp only [Chase.after, List.map_nil, List.length_nil, hheap, List.append_nil]
  rfl

theorem Chase.after_deref :
    (Chase.after p b c ws).heap.deref (some p) = .ok (p, b.withHoles (ws.map (holeOf b.segs))) :=
  Heap.deref_some Heap.set_sbufs_self

theorem Chase.after_snoc (p : SbufPtr) (b : Sbuf) (c : Chase) (ws : List Span) (r : Span) :
    Chase.after p b c (ws ++ [r]) =
    { mem := blit (Chase.after p b c ws).mem r (bytesOf b.segs r)
      heap := Heap.set { (Chase.after p b c ws).heap with next := (Chase.after p b c ws).heap.next + 1 } p
        (some ((b.withHoles (ws.map (holeOf b.segs))).addHole (holeOf b.segs r)))
      written := (Chase.after p b c ws).written ++ [r] } := by
  have hmem : replay b.segs (ws ++ [r]) c.mem = blit (replay b.segs ws c.mem) r (bytesOf b.segs r) :=
    List.foldl_append.trans rfl
  simp only [Chase.after, hmem, Heap.set_next, Heap.set_set, Sbuf.addHole_withHoles, List.map_append, List.map_cons,
    List.map_nil, List.length_append, List.length_cons, List.length_nil, List.append_assoc]
  rfl

end After

/-! ### The chase computes what its trail tells -/

section Tell
variable {env : Env} {p : SbufPtr} {b : Sbuf} {c : Chase} {ws : List Span} {x size : Addr} {r : Span} {α β : Type}

theorem Chase.tells_pure {a : α} : c.tells env p b ws (pure a) = .ok (a, Chase.after p b c ws) := Trail.tellWhile_pure

theorem Chase.tells_bind {t : Trail Span Fault α} {f : α → Trail Span Fault β} {x : Except Crash (α × Chase)}
    {y : α → Chase → Except Crash (β × Chase)} (hx : x = c.tells env p b ws t)
    (hy : ∀ a, y a (Chase.after p b c (ws ++ t.log)) = c.tells env p b (ws ++ t.log) (f a)) :
    (x >>= fun s => y s.1 s.2) = c.tells env p b ws (t >>= f) := Trail.tellWhile_bind hx hy

theorem Chase.tells_map {t : Trail Span Fault α} {g : α → β} :
    c.tells env p b ws (t >>= fun a => pure (g a)) = (c.tells env p b ws t).map fun s => (g s.1, s.2) :=
    Trail.tellWhile_map

theorem Chase.tells_of_allocOk (halloc : env.AllocOk) {t : Trail Span Fault α} :
    c.tells env p b ws t = t.tell (Chase.after p b c) Chase.crash ws := Trail.tellWhile_of_ok fun _ _ => halloc _

theorem writeBack_tell (env : Env) (p : SbufPtr) (b : Sbuf) (c : Chase) (ws : List Span) (r : Span) :
    (writeBack env p (b.withHoles (ws.map (holeOf b.segs))) r.start (findInStackBuf r.start r.len b.segs) r.len
        (Chase.after p b c ws)).map (fun c' => (bytesOf b.segs r, c')) =
      c.tells env p b ws (writeBackTrail b.segs ((b.entry 0).holeList.home = (p, 0)) r) := by
  have hk := (b.sameBytes_withHoles (ws.map (holeOf b.segs))).kread (findInStackBuf r.start r.len b.segs) r.len
  unfold writeBack writeBackTrail lookUp
  rw [hk]
  cases hl : kread b.segs (findInStackBuf r.start r.len b.segs) r.len with
  | error f => simp [Chase.tells, Trail.tellWhile, Trail.stopped, Trail.tell, Chase.crash, Except.map]
  | ok src =>
    have hsrc : bytesOf b.segs r = src := bytesOf_ok hl
    have hsnoc := Chase.after_snoc p b c ws r
    have hhome : ((b.withHoles (ws.map (holeOf b.segs))).entry 0).holeList.home = (b.entry 0).holeList.home := rfl
    rw [hsrc] at hsnoc
    have hnext : (Chase.after p b c ws).heap.next = c.heap.next + ws.length := rfl
    dsimp only
    rw [hhome, hsrc, hnext]
    by_cases h0 : env.kmalloc (c.heap.next + ws.length) = 0
    · have hstop : ∀ res, Trail.stopped (env.Gives c.heap.next) ws.length
          (⟨[r], res⟩ : Trail Span Fault (Addr → Byte)).log = some [r] := fun _ => if_neg (not_not.mpr h0)
      rw [if_pos h0, Chase.tells, Trail.tellWhile_of_stopped (hstop _), hsnoc]
      rfl
    · have hgive : ∀ k < [r].length, env.Gives c.heap.next (ws.length + k) := fun k hk => by
        rw [Nat.lt_one_iff.mp hk]
        exact h0
      rw [if_neg h0, Chase.tells, Trail.tellWhile_of_ok hgive]
      by_cases hh : (b.entry 0).holeList.home = (p, 0)
      · simp [Trail.tell, hh, Except.map, hsnoc, holeOf, hnext]
      · simp [Trail.tell, hh, Except.map, hsnoc, Chase.crash]

theorem load64_shift {mem : Mem} {src : Addr → Byte} (h : ∀ k, k < 8 → src k = mem (x + k)) :
    load64 src 0 = load64 mem x := by
  have h0 : src 0 = mem x := by simpa using h 0 (by decide)
  simp only [load64, zero_add, h0, h 7 (by decide), h 6 (by decide), h 5 (by decide), h 4 (by decide), h 3 (by decide),
    h 2 (by decide), h 1 (by decide)]

theorem load64_blit {mem : Mem} {src : Addr → Byte} : load64 (blit mem ⟨x, 8⟩ src) x = load64 src 0 := by
  refine (load64_shift fun k hk => ?_).symm
  rw [blit_of_mem (Range.offset_mem (r := ⟨x, 8⟩).mpr hk)]
  exact congrArg src (add_sub_cancel_left x k).symm

theorem restoreCell_tell :
    (restoreCell env (some p) x (Chase.after p b c ws)).map (fun c' => (load64 c'.mem x, c')) =
      c.tells env p b ws (cellTrail b.segs ((b.entry 0).holeList.home = (p, 0)) x) := by
  have hf := (b.sameBytes_withHoles (ws.map (holeOf b.segs))).find x 8
  unfold restoreCell cellTrail
  rw [Chase.after_deref]
  dsimp only
  rw [hf, Chase.tells_map, ← writeBack_tell env p b c ws ⟨x, 8⟩]
  dsimp only
  cases hW :
    writeBack env p (b.withHoles (ws.map (holeOf b.segs))) x (findInStackBuf x 8 b.segs) 8 (Chase.after p b c ws) with
  | error e => rfl
  | ok c' =>
    obtain ⟨src, hk, -, rfl⟩ := writeBack_inv hW
    rw [(b.sameBytes_withHoles _).kread] at hk
    have hsrc : bytesOf b.segs ⟨x, 8⟩ = src := bytesOf_ok hk
    simp only [Except.map, hsrc, load64_blit]

theorem chase_tell : ∀ {n : Nat} {x : Addr} {ws : List Span},
    chase env (some p) n x (Chase.after p b c ws) =
      c.tells env p b ws (chaseTrail b.segs ((b.entry 0).holeList.home = (p, 0)) n x)
  | 0, _, _ => Chase.tells_pure.symm
  | n + 1, x, ws => by
    unfold chaseTrail
    rw [← Chase.tells_bind (y := chase env (some p) n) restoreCell_tell fun y => chase_tell, map_bind]
    rfl

theorem restoreTarget_tell :
    (restoreTarget env (some p) x size (Chase.after p b c ws)).map (fun c' => ((), c')) =
      c.tells env p b ws (targetTrail b.segs ((b.entry 0).holeList.home = (p, 0)) x size) := by
  have hf := (b.sameBytes_withHoles (ws.map (holeOf b.segs))).find x size
  unfold restoreTarget targetTrail
  rw [Chase.after_deref]
  dsimp only
  rw [hf]
  by_cases h0 : findInStackBuf x size b.segs = 0
  · rw [if_neg (not_not.mpr h0), if_pos h0]
    exact Chase.tells_pure.symm
  · rw [if_pos h0, if_neg h0, Chase.tells_map, ← writeBack_tell env p b c ws ⟨x, size⟩]
    cases writeBack env p (b.withHoles (ws.map (holeOf b.segs))) x (findInStackBuf x size b.segs) size
      (Chase.after p b c ws) <;> rfl

theorem restorePointer_tell {tmp : Para} :
    restorePointer env (some p) tmp (Chase.after p b c ws) =
      (c.tells env p b ws (pointerTrail b.segs ((b.entry 0).holeList.home = (p, 0)) tmp)).map
        fun s => if s.1 then some s.2 else none := by
  have hf := (b.sameBytes_withHoles (ws.map (holeOf b.segs))).find tmp.addr 8
  unfold restorePointer pointerTrail
  rw [Chase.after_deref]
  dsimp only
  rw [hf]
  by_cases h0 : findInStackBuf tmp.addr 8 b.segs = 0
  · rw [if_pos h0, if_pos h0, Chase.tells_pure]
    rfl
  · rw [if_neg h0, if_neg h0, ← Chase.tells_bind
      (y := fun y c₁ => chase env (some p) (tmp.pointer - 1).toNat y c₁ >>= fun s =>
        (restoreTarget env (some p) s.1 tmp.size s.2).map (fun c' => ((), c')) >>= fun s => .ok (true, s.2))
      restoreCell_tell fun y => Chase.tells_bind
        (y := fun z c₂ => (restoreTarget env (some p) z tmp.size c₂).map (fun c' => ((), c')) >>= fun s =>
          .ok (true, s.2))
        chase_tell fun z =>
          Chase.tells_bind (y := fun _ c' => .ok (true, c')) restoreTarget_tell fun _ => Chase.tells_pure.symm]
    simp only [map_bind]
    cases restoreCell env (some p) tmp.addr (Chase.after p b c ws) with
    | error e => rfl
    | ok c₁ =>
      simp only [bind, Except.bind]
      cases chase env (some p) (tmp.pointer - 1).toNat (load64 c₁.mem tmp.addr) c₁ with
      | error e => rfl
      | ok s =>
        dsimp only
        cases restoreTarget env (some p) s.1 tmp.size s.2 <;> rfl

/-- Nothing is written for an entry whose first cell is not found. -/
theorem pointerTrail_false {segs : List StackBuf} {home : Prop} [Decidable home] {tmp : Para}
    (h : (pointerTrail segs home tmp).result = .ok false) : (pointerTrail segs home tmp).log = [] := by
  unfold pointerTrail at h ⊢
  by_cases h0 : findInStackBuf tmp.addr 8 segs = 0
  · rw [if_pos h0]
    rfl
  · rw [if_neg h0] at h
    obtain ⟨y, -, h⟩ := Trail.bind_result_eq_ok h
    obtain ⟨z, -, h⟩ := Trail.bind_result_eq_ok h
    obtain ⟨u, -, h⟩ := Trail.bind_result_eq_ok h
    cases h

theorem restorePointers_tell : ∀ {plt : List Para} {ws : List Span},
    restorePointers env (some p) plt (Chase.after p b c ws) =
      (c.tells env p b ws (pointersTrail b.segs ((b.entry 0).holeList.home = (p, 0)) plt)).map
        fun s => (s.1.1, s.1.2, s.2)
  | [], ws => by
    unfold restorePointers pointersTrail
    rw [Chase.tells_pure]
    rfl
  | tmp :: rest, ws => by
    unfold restorePointers pointersTrail
    by_cases h0 : tmp.pointer = 0
    · rw [if_pos h0, if_pos h0, Chase.tells_map, restorePointers_tell]
      cases c.tells env p b ws (pointersTrail b.segs ((b.entry 0).holeList.home = (p, 0)) rest) <;> rfl
    · rw [if_neg h0, if_neg h0, restorePointer_tell, map_bind, ← Chase.tells_bind
        (y := fun found c₁ =>
          if found then (restorePointers env (some p) rest c₁).map fun x =>
            ((x.1, { tmp with pointer := 0 } :: x.2.1), x.2.2)
          else .ok ((-1, { tmp with pointer := tmp.pointer - 1 } :: rest), c₁)) rfl fun found => ?_]
      · cases ht : c.tells env p b ws (pointerTrail b.segs ((b.entry 0).holeList.home = (p, 0)) tmp) with
        | error e => rfl
        | ok s =>
          obtain ⟨found, c₁⟩ := s
          cases found with
          | false =>
            -- Nothing was written for an entry whose first cell is not found.
            obtain ⟨hr, hc₁, -⟩ := Trail.tellWhile_eq_ok ht
            rw [pointerTrail_false hr, List.append_nil] at hc₁
            dsimp only at hc₁
            rw [hc₁]
            rfl
          | true =>
            simp only [if_true, bind, Except.bind]
            cases restorePointers env (some p) rest c₁ <;> rfl
      · cases found with
        | false => exact Chase.tells_pure.symm
        | true =>
          simp only [if_true]
          rw [Chase.tells_map, restorePointers_tell]
          cases c.tells env p b (ws ++ (pointerTrail b.segs ((b.entry 0).holeList.home = (p, 0)) tmp).log)
            (pointersTrail b.segs ((b.entry 0).holeList.home = (p, 0)) rest) <;> rfl

/-- A chase that returns has written what its trail logs, and got a hole for each range. -/
theorem restorePointers_returns {plt plt' : List Para} {ret : Int} {c' : Chase} (hb : c.heap.sbufs p = some b)
    (h : restorePointers env (some p) plt c = .ok (ret, plt', c')) :
    (pointersTrail b.segs ((b.entry 0).holeList.home = (p, 0)) plt).result = .ok (ret, plt') ∧
      c' = Chase.after p b c (pointersTrail b.segs ((b.entry 0).holeList.home = (p, 0)) plt).log ∧
      ∀ k < (pointersTrail b.segs ((b.entry 0).holeList.home = (p, 0)) plt).log.length, env.Gives c.heap.next k := by
  rw [← Chase.after_nil hb, restorePointers_tell] at h
  obtain ⟨⟨x, c₁⟩, htell, hx⟩ := map_eq_ok.mp h
  cases hx
  obtain ⟨hr, hc, hgive⟩ := Trail.tellWhile_eq_ok htell
  exact ⟨hr, hc, fun k hk => by simpa using hgive k hk⟩

end Tell

/-! ### A whole call -/

section Call
variable {env : Env} {fuel fuel₀ : Nat} {userRsp userRbp : Addr} {plt : List Para} {name : String} {g : Globals}
  {mem : Mem} {p : SbufPtr} {b : Sbuf} {v : Saved} {r : Except Crash Encrypted}

/-- The trail of a call, whose scan has left the array `b` at `p`. -/
def callTrail (p : SbufPtr) (b : Sbuf) (plt : List Para) : Trail Span Fault (Int × List Para) :=
  pointersTrail b.segs ((b.entry 0).holeList.home = (p, 0)) plt

/-- The state after the trail. -/
def Saved.after (v : Saved) (p : SbufPtr) (b : Sbuf) (plt : List Para) : Chase :=
  Chase.after p b { mem := v.mem, heap := v.heap, written := [] } (callTrail p b plt).log

/-- What a call comes to, once its scan has ended. -/
def Saved.outcome (v : Saved) (p : SbufPtr) (b : Sbuf) (plt : List Para) (cs : List CsItem) (g : Globals) :
    Except Crash Encrypted :=
  match (callTrail p b plt).result with
  | .error f => .error ((v.after p b plt).crash f)
  | .ok x => .ok { ret := 0, restored := some x.1, paraList := x.2, written := (v.after p b plt).written,
                   state := { g with callStack := cs, sbufStackTop := g.sbufStackTop + 1,
                                     heap := (v.after p b plt).heap, mem := (v.after p b plt).mem } }

theorem encryptFrame_tell (name : String) (halloc : env.AllocOk) (hcs : g.callStackTop < 64) (ht : g.sbufStackTop < 16)
    (hscan : scan env plt userRbp fuel (.start userRsp (g.scanFrom ht mem)) = some (.ok v))
    (hptr : v.stackBuf = some p) (hb : v.heap.sbufs p = some b) :
    encryptFrame env fuel userRsp userRbp plt name g mem =
      some (v.outcome p b plt (⟨userRsp, userRbp, name⟩ :: g.callStack) g) := by
  have hstart : ({ mem := v.mem, heap := v.heap, written := [] } : Chase) =
      Chase.after p b { mem := v.mem, heap := v.heap, written := [] } [] := (Chase.after_nil hb).symm
  rw [encryptFrame_of_scan name halloc hcs ht hscan, hptr, hstart, restorePointers_tell, Chase.tells_of_allocOk halloc]
  unfold Saved.outcome Saved.after callTrail Trail.tell
  cases (pointersTrail b.segs ((b.entry 0).holeList.home = (p, 0)) plt).result <;> rfl

/-- The same, for any number of iterations that was enough. -/
theorem encryptFrame_outcome (halloc : env.AllocOk) (hcs : g.callStackTop < 64) (ht : g.sbufStackTop < 16)
    (hscan : scan env plt userRbp fuel₀ (.start userRsp (g.scanFrom ht mem)) = some (.ok v))
    (hptr : v.stackBuf = some p) (hb : v.heap.sbufs p = some b)
    (h : encryptFrame env fuel userRsp userRbp plt name g mem = some r) :
    r = v.outcome p b plt (⟨userRsp, userRbp, name⟩ :: g.callStack) g := by
  cases hfuel : scan env plt userRbp fuel (.start userRsp (g.scanFrom ht mem)) with
  | none =>
    unfold encryptFrame at h
    rw [if_neg (not_or.mpr ⟨halloc _, halloc _⟩), if_neg (Nat.not_le_of_lt hcs), dif_pos ht] at h
    obtain ⟨x, hx, -⟩ := Option.map_eq_some_iff.mp h
    cases hfuel.symm.trans hx
  | some x =>
    rw [scan_unique hfuel hscan] at hfuel
    rw [encryptFrame_tell name halloc hcs ht hfuel hptr hb] at h
    exact (Option.some.inj h).symm

end Call

end StackVault