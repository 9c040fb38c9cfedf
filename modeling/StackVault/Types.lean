import StackVault.Lib.Range
import Mathlib.Data.List.Sort

/-! The data of the memClear module, from its headers: the parameter list of `memclear_para.h`, the
    symbol table of `mapper.h`, the save buffers of `stack_buf.h` and the call stack of `jprobe.c`.

    User memory is a byte for every 64-bit address. Kernel objects are kept apart from it: an array of
    `sbuf_t` is an object of the heap, named by the `kmalloc` call that made it, and the copy of a
    segment sits at the address `kmalloc` gave it. The parameter list is user memory too, and `UserList`
    reads it there; a function that takes it as a value is about a list that it writes nothing over, and
    the theorems about `UserList` say when that is the call with the list in memory. -/

namespace StackVault
open Memory

abbrev Byte := BitVec 8

/-- An `unsigned long`, or a pointer to user memory or to the copy of a segment. -/
abbrev Addr := BitVec 64

abbrev Mem := Addr → Byte

abbrev Span := Range 64

/-- The accesses that a call does not survive. -/
inductive Fault where
  /-- A null pointer is followed, or given to `strcmp`. -/
  | nullDeref
  /-- A freed object is followed, or a list head that was left in one. -/
  | useAfterFree
  /-- Bytes outside a kernel object are read or written. -/
  | outOfBounds
  /-- `call_stack` is indexed outside its 64 elements. -/
  | callStackBounds
  /-- `sbuf_stack` is indexed outside its 16 elements. -/
  | sbufStackBounds
  deriving DecidableEq, Repr

/-- A call that did not return: the fault, user memory at that point, and the user ranges that
    `restore_pointers` had written. -/
structure Crash where
  fault : Fault
  mem : Mem
  written : List Span

/-- `para_t`: `pointer` says how many levels of pointers lead to the parameter. -/
structure Para where
  addr : Addr
  size : Addr
  pointer : BitVec 32
  deriving DecidableEq, Repr

/-- The bytes of a parameter passed by value. -/
def Para.span (p : Para) : Span := ⟨p.addr, p.size⟩

/-- `item_t`: a symbol of the probed executable. -/
structure Item where
  funcName : String
  ip : Addr
  size : Addr
  deriving DecidableEq, Repr

/-- `hole_t`, without its list links: a range of a segment's copy. -/
structure Hole where
  start : Addr
  len : Addr
  deriving DecidableEq, Repr

/-- A pointer to an array of `sbuf_t`: the number of the `kmalloc` call that made it. -/
abbrev SbufPtr := Nat

/-- `hole_list`. A kernel list is circular through its head: `home` is the head (array and index) that
    the list closes at. It differs from the place of the `sbuf_t` once that was copied elsewhere. -/
structure HoleList where
  home : SbufPtr × Nat
  holes : List Hole
  deriving DecidableEq, Repr, Inhabited

/-- An element of an `sbuf_t` array: the segment `[start, start + len)` of user memory, saved at `buf`.
    Offset `k < len` of the copy holds `data k`. -/
structure StackBuf where
  buf : Addr
  data : Addr → Byte
  start : Addr
  len : Addr
  holeList : HoleList
  deriving Inhabited

/-- The user range of a saved segment. -/
def StackBuf.span (e : StackBuf) : Span := ⟨e.start, e.len⟩

/-- An array of `sbuf_t` with `cap` elements, of which `cur` are in use. -/
structure Sbuf where
  cur : Nat
  cap : Nat
  entry : Nat → StackBuf

/-- The elements in use, in order. -/
def Sbuf.segs (b : Sbuf) : List StackBuf := (List.range b.cur).map b.entry

/-- The kernel heap: the number of `kmalloc` calls made so far, and the live arrays of `sbuf_t`. -/
structure Heap where
  next : Nat
  sbufs : SbufPtr → Option Sbuf

def Heap.set (h : Heap) (p : SbufPtr) (b : Option Sbuf) : Heap :=
  { h with sbufs := fun q => if q = p then b else h.sbufs q }

/-- No array is named by a `kmalloc` call still to come. -/
def Heap.Fresh (h : Heap) : Prop := ∀ q, h.next ≤ q → h.sbufs q = none

/-- Follow a pointer to an array of `sbuf_t`. -/
def Heap.deref (h : Heap) : Option SbufPtr → Except Fault (SbufPtr × Sbuf)
  | none => .error .nullDeref
  | some p => match h.sbufs p with
    | none => .error .useAfterFree
    | some b => .ok (p, b)

/-- `cs_item_t`. -/
structure CsItem where
  userRsp : Addr
  userRbp : Addr
  funcName : String
  deriving DecidableEq, Repr

/-- What the module takes from outside: the answer of each `kmalloc` call (0 is a null pointer), the
    kernel's `list_sort`, and the symbols that `parse` finds in the executable. -/
structure Env where
  kmalloc : Nat → Addr
  listSort : (Hole → Hole → Int) → List Hole → List Hole
  exe : List Item

/-- Allocations succeed. -/
def Env.AllocOk (env : Env) : Prop := ∀ n, env.kmalloc n ≠ 0

/-- `list_sort` rearranges a list, and puts it in order when the comparator is consistent on it. -/
structure Env.SortOk (env : Env) : Prop where
  perm : ∀ c hs, (env.listSort c hs).Perm hs
  sorted : ∀ (c : Hole → Hole → Int) hs, (∀ a ∈ hs, ∀ b ∈ hs, c a b ≤ 0 ∨ c b a ≤ 0) →
    (∀ a ∈ hs, ∀ b ∈ hs, ∀ d ∈ hs, c a b ≤ 0 → c b d ≤ 0 → c a d ≤ 0) →
    (env.listSort c hs).Pairwise fun a b => c a b ≤ 0

/-- An environment to run the module in: a page for every `kmalloc`, a stable sort, and an executable of
    two functions. -/
def Env.sample : Env where
  kmalloc n := BitVec.ofNat 64 (0x800000000000 + n % 0x100000 * 0x1000)
  listSort cmp hs := hs.insertionSort fun a b => cmp a b ≤ 0
  exe := [⟨"f1", 0x1000, 0x100⟩, ⟨"f2", 0x2000, 0x100⟩]

/-! ### Small facts -/

theorem bind_eq_ok {ε α β : Type} {x : Except ε α} {f : α → Except ε β} {b : β} :
    (x >>= f) = .ok b ↔ ∃ a, x = .ok a ∧ f a = .ok b := by
  cases x <;> simp [bind, Except.bind]

theorem map_eq_ok {ε α β : Type} {x : Except ε α} {f : α → β} {b : β} :
    x.map f = .ok b ↔ ∃ a, x = .ok a ∧ f a = b := by
  cases x <;> simp [Except.map]

theorem map_bind {ε α β γ : Type} {x : Except ε α} {f : α → β} {g : β → Except ε γ} :
    x.map f >>= g = x >>= fun a => g (f a) := by
  cases x <;> rfl

theorem toOption_eq_some {ε α : Type} {x : Except ε α} {a : α} : x.toOption = some a ↔ x = .ok a := by
  cases x <;> simp [Except.toOption]

theorem Env.sample_allocOk : Env.sample.AllocOk := fun n h => by
  have hlt : n % 0x100000 < 0x100000 := Nat.mod_lt _ (by decide)
  have hn : (0x800000000000 + n % 0x100000 * 0x1000) % 2 ^ 64 = 0 := congrArg BitVec.toNat h
  omega

section Sorting
variable {r : Hole → Hole → Prop} [DecidableRel r] {a : Hole} {hs : List Hole}

theorem pairwise_orderedInsert (htot : ∀ b ∈ hs, r a b ∨ r b a) (htrans : ∀ b ∈ hs, ∀ d ∈ hs, r a b → r b d → r a d)
    (h : hs.Pairwise r) : (hs.orderedInsert r a).Pairwise r := by
  induction hs with
  | nil => exact List.pairwise_singleton _ _
  | cons b hs ih =>
    obtain ⟨hb, hrest⟩ := List.pairwise_cons.mp h
    rw [List.orderedInsert_cons]
    split
    · next hab =>
      refine List.pairwise_cons.mpr ⟨fun d hd => ?_, h⟩
      rcases List.mem_cons.mp hd with rfl | hd
      · exact hab
      · exact htrans b List.mem_cons_self d (List.mem_cons_of_mem _ hd) hab (hb d hd)
    · next hab =>
      refine List.pairwise_cons.mpr ⟨fun d hd => ?_, ih (fun d hd => htot d (List.mem_cons_of_mem _ hd))
        (fun d hd f hf => htrans d (List.mem_cons_of_mem _ hd) f (List.mem_cons_of_mem _ hf)) hrest⟩
      rcases (List.mem_orderedInsert r).mp hd with rfl | hd
      · exact (htot b List.mem_cons_self).resolve_left hab
      · exact hb d hd

theorem pairwise_insertionSort_of (htot : ∀ a ∈ hs, ∀ b ∈ hs, r a b ∨ r b a)
    (htrans : ∀ a ∈ hs, ∀ b ∈ hs, ∀ d ∈ hs, r a b → r b d → r a d) : (hs.insertionSort r).Pairwise r := by
  induction hs with
  | nil => exact List.Pairwise.nil
  | cons a hs ih =>
    have hmem : ∀ b ∈ hs.insertionSort r, b ∈ a :: hs := fun b hb =>
      List.mem_cons_of_mem _ ((List.perm_insertionSort r hs).mem_iff.mp hb)
    rw [List.insertionSort_cons]
    refine pairwise_orderedInsert (fun b hb => htot a List.mem_cons_self b (hmem b hb))
      (fun b hb d hd => htrans a List.mem_cons_self b (hmem b hb) d (hmem d hd)) (ih (fun b hb d hd => ?_) ?_)
    · exact htot b (List.mem_cons_of_mem _ hb) d (List.mem_cons_of_mem _ hd)
    · intro b hb d hd f hf
      exact htrans b (List.mem_cons_of_mem _ hb) d (List.mem_cons_of_mem _ hd) f (List.mem_cons_of_mem _ hf)

end Sorting

theorem Env.sample_sortOk : Env.sample.SortOk where
  perm _ hs := List.perm_insertionSort _ hs
  sorted _ _ htot htrans := pairwise_insertionSort_of htot htrans

theorem Env.SortOk.nil {env : Env} (h : env.SortOk) (c : Hole → Hole → Int) : env.listSort c [] = [] :=
  (h.perm c []).eq_nil

namespace Heap
variable {h : Heap} {p q : SbufPtr} {b : Option Sbuf}

theorem Fresh.lt (hf : h.Fresh) {b : Sbuf} (hb : h.sbufs p = some b) : (p : Nat) < h.next := by
  by_contra hle
  rw [hf p (Nat.le_of_not_lt hle)] at hb
  cases hb

@[simp] theorem set_next : (h.set p b).next = h.next := rfl

@[simp] theorem set_sbufs_self : (h.set p b).sbufs p = b := if_pos rfl

theorem set_sbufs_ne (hne : q ≠ p) : (h.set p b).sbufs q = h.sbufs q := if_neg hne

theorem deref_eq_ok {ptr : Option SbufPtr} {x : SbufPtr × Sbuf} :
    h.deref ptr = .ok x ↔ ptr = some x.1 ∧ h.sbufs x.1 = some x.2 := by
  cases ptr with
  | none => simp [deref]
  | some p =>
    simp only [deref]
    cases hp : h.sbufs p with
    | none => simpa using fun he : p = x.1 => by rw [← he, hp]; simp
    | some b =>
      simp only [Except.ok.injEq, Option.some.injEq]
      constructor
      · rintro rfl
        exact ⟨rfl, hp⟩
      · rintro ⟨rfl, hb⟩
        rw [hp] at hb
        cases hb
        rfl

theorem deref_some {b : Sbuf} (hb : h.sbufs p = some b) : h.deref (some p) = .ok (p, b) := deref_eq_ok.mpr ⟨rfl, hb⟩

end Heap

namespace Sbuf
variable {b : Sbuf}

@[simp] theorem length_segs : b.segs.length = b.cur := by simp [segs]

theorem mem_segs {e : StackBuf} : e ∈ b.segs ↔ ∃ i < b.cur, b.entry i = e := by simp [segs]

theorem segs_eq_nil : b.segs = [] ↔ b.cur = 0 := by rw [← List.length_eq_zero_iff, length_segs]

end Sbuf

end StackVault
