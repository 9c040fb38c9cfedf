import Mathlib.Data.List.Nodup
import Mathlib.Data.List.Perm.Subperm

/-! Singly linked lists in a heap whose nodes are numbered. A link is NULL or the number of a node, and `next` reads the
    link of a node. A segment is determined by where it starts, so a list that ends in NULL passes through no node
    twice, and a change of nodes that it does not pass through leaves it as it is. -/

namespace Links

variable {ε : Type*} (next : ε → Option Nat)

/-- The links lead from `p` through the nodes `ids` to `q`. -/
def Segment (heap : List ε) : Option Nat → List Nat → Option Nat → Prop
  | p, [], q => p = q
  | p, i :: ids, q => p = some i ∧ ∃ e, heap[i]? = some e ∧ Segment heap (next e) ids q

/-- The first `n` nodes from a link on. -/
def follow (heap : List ε) : Nat → Option Nat → List ε
  | n + 1, some i => match heap[i]? with
    | none => []
    | some e => e :: follow heap n (next e)
  | _, _ => []

variable {next} {heap heap' : List ε} {p q r : Option Nat} {ids ids' : List Nat} {i : Nat}

theorem segment_append :
    Segment next heap p (ids ++ ids') r ↔ ∃ q, Segment next heap p ids q ∧ Segment next heap q ids' r := by
  induction ids generalizing p with
  | nil => simp [Segment]
  | cons i ids ih =>
    simp only [List.cons_append, Segment, ih]
    constructor
    · rintro ⟨hp, e, he, q, hq, hr⟩
      exact ⟨q, ⟨hp, e, he, hq⟩, hr⟩
    · rintro ⟨q, ⟨hp, e, he, hq⟩, hr⟩
      exact ⟨hp, e, he, q, hq, hr⟩

theorem segment_singleton : Segment next heap p [i] q ↔ p = some i ∧ (heap[i]?).map next = some q := by
  simp only [Segment, Option.map_eq_some_iff]

/-- Only the links of its own nodes matter to a segment. -/
theorem Segment.congr (h : Segment next heap p ids q) (hsame : ∀ i ∈ ids, (heap'[i]?).map next = (heap[i]?).map next) :
    Segment next heap' p ids q := by
  induction ids generalizing p with
  | nil => exact h
  | cons i ids ih =>
    obtain ⟨hp, e, he, hrest⟩ := h
    have hi := hsame i List.mem_cons_self
    rw [he] at hi
    obtain ⟨e', he', hnext⟩ := Option.map_eq_some_iff.mp hi
    refine ⟨hp, e', he', ?_⟩
    rw [hnext]
    exact ih hrest fun j hj => hsame j (List.mem_cons_of_mem i hj)

theorem Segment.exists_node (h : Segment next heap p ids q) (hi : i ∈ ids) : ∃ e, heap[i]? = some e := by
  induction ids generalizing p with
  | nil => cases hi
  | cons j ids ih =>
    obtain ⟨-, e, he, hrest⟩ := h
    rcases List.mem_cons.mp hi with rfl | hi
    · exact ⟨e, he⟩
    · exact ih hrest hi

theorem Segment.lt_length (h : Segment next heap p ids q) (hi : i ∈ ids) : i < heap.length := by
  obtain ⟨e, he⟩ := h.exists_node hi
  exact (List.getElem?_eq_some_iff.mp he).1

theorem Segment.head_eq (h : Segment next heap p ids none) : p = ids.head? := by
  cases ids with
  | nil => exact h
  | cons i ids => exact h.1

theorem Segment.unique (h : Segment next heap p ids none) (h' : Segment next heap p ids' none) : ids = ids' := by
  induction ids generalizing p ids' with
  | nil =>
    cases ids' with
    | nil => rfl
    | cons j ids' =>
      obtain rfl : p = none := h
      cases h'.1
  | cons i ids ih =>
    obtain ⟨rfl, e, he, hrest⟩ := h
    cases ids' with
    | nil => cases h'
    | cons j ids' =>
      obtain ⟨hj, e', he', hrest'⟩ := h'
      obtain rfl := Option.some.inj hj
      obtain rfl := Option.some.inj (he.symm.trans he')
      rw [ih hrest hrest']

/-- From each of its nodes on, a list that ends in NULL is the list from there. -/
theorem Segment.suffix (h : Segment next heap p (ids ++ i :: ids') none) :
    Segment next heap (some i) (i :: ids') none := by
  obtain ⟨q, -, hq⟩ := segment_append.mp h
  obtain rfl := hq.1
  exact hq

theorem Segment.nodup (h : Segment next heap p ids none) : ids.Nodup := by
  induction ids generalizing p with
  | nil => exact List.nodup_nil
  | cons i ids ih =>
    obtain ⟨hp, e, he, hrest⟩ := h
    refine List.nodup_cons.mpr ⟨fun hi => ?_, ih hrest⟩
    -- The list from the second `i` on would be shorter than itself.
    obtain ⟨a, b, rfl⟩ := List.append_of_mem hi
    have hwhole : Segment next heap (some i) (i :: (a ++ i :: b)) none := ⟨rfl, e, he, hrest⟩
    have hlen := congrArg List.length (hwhole.unique hrest.suffix)
    simp only [List.length_cons, List.length_append] at hlen
    omega

theorem Segment.length_le (h : Segment next heap p ids none) : ids.length ≤ heap.length := by
  have hsub : ids ⊆ List.range heap.length := fun i hi => List.mem_range.mpr (h.lt_length hi)
  have hle := (h.nodup.subperm hsub).length_le
  rwa [List.length_range] at hle

theorem Segment.follow_eq (h : Segment next heap p ids none) {n : Nat} (hn : ids.length ≤ n) :
    follow next heap n p = ids.filterMap fun i => heap[i]? := by
  induction ids generalizing p n with
  | nil =>
    obtain rfl : p = none := h
    cases n <;> rfl
  | cons i ids ih =>
    obtain ⟨rfl, e, he, hrest⟩ := h
    obtain ⟨n, rfl⟩ := Nat.exists_eq_succ_of_ne_zero (Nat.ne_of_gt (Nat.lt_of_lt_of_le (Nat.succ_pos _) hn))
    rw [List.filterMap_cons_some he, follow, he]
    exact congrArg (e :: ·) (ih hrest (Nat.le_of_succ_le_succ hn))

end Links
