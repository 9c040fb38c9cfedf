import Mathlib.Order.Lattice

/-! Chains of entries, kept in ascending order of their keys. `put` walks past the smaller keys and then
    replaces the entry it finds or inserts a new one; `find` walks the same way. Both stop at the first
    key that is not smaller, so they agree on every chain, whatever its order. -/

namespace Chain

variable {α ε : Type*} [LinearOrder α] (key : ε → α)

/-- The entries that both walks go past. -/
def below (k : α) (d : ε) : Bool := key d < k

def put (e : ε) : List ε → List ε
  | [] => [e]
  | d :: l => if key d < key e then d :: put e l else if key d = key e then e :: l else e :: d :: l

def find (k : α) : List ε → Option ε
  | [] => none
  | d :: l => if key d < k then find k l else if key d = k then some d else none

variable {key} {e : ε} {k : α}

theorem find_put_self : ∀ l : List ε, find key (key e) (put key e l) = some e
  | [] => by simp [put, find]
  | d :: l => by
    simp only [put]
    split
    · next hlt => simp only [find, if_pos hlt, find_put_self l]
    · split <;> simp [find]

theorem find_put_ne (hne : k ≠ key e) : ∀ l : List ε, find key k (put key e l) = find key k l
  | [] => by simp [put, find, hne.symm]
  | d :: l => by
    simp only [put]
    split
    · simp only [find, find_put_ne hne l]
    · split
      · next heq => simp only [find, heq, hne.symm, if_false]
      · next hge hd =>
        rcases lt_or_gt_of_ne hne with hk | hk
        · -- Neither walk gets past its first entry.
          have hkd : k < key d := lt_of_lt_of_le hk (not_lt.mp hge)
          simp [find, not_lt.mpr hk.le, hne.symm, not_lt.mpr hkd.le, hkd.ne']
        · simp [find, hk]

theorem mem_put {x : ε} {l : List ε} (h : x ∈ put key e l) : x = e ∨ x ∈ l := by
  induction l with
  | nil => exact Or.inl (List.mem_singleton.mp h)
  | cons d l ih =>
    simp only [put] at h
    split_ifs at h
    · rcases List.mem_cons.mp h with rfl | h
      · exact Or.inr List.mem_cons_self
      · exact (ih h).imp_right (List.mem_cons_of_mem d)
    · exact (List.mem_cons.mp h).imp_right (List.mem_cons_of_mem d)
    · exact List.mem_cons.mp h

theorem find?_put {p : ε → Bool} (hp : ∀ d, key d = key e → ¬p d) (l : List ε) : (put key e l).find? p = l.find? p := by
  induction l with
  | nil => simp [put, hp e rfl]
  | cons d l ih =>
    simp only [put]
    split_ifs with hlt heq
    · rw [List.find?_cons, List.find?_cons, ih]
    · rw [List.find?_cons_of_neg (hp e rfl), List.find?_cons_of_neg (hp d heq)]
    · rw [List.find?_cons_of_neg (hp e rfl)]

/-- A chain in strictly ascending order stays so. -/
theorem pairwise_put {l : List ε} (h : l.Pairwise fun c d => key c < key d) :
    (put key e l).Pairwise fun c d => key c < key d := by
  induction l with
  | nil => exact List.pairwise_singleton _ _
  | cons d l ih =>
    obtain ⟨hd, hl⟩ := List.pairwise_cons.mp h
    simp only [put]
    split_ifs with hlt heq
    · refine List.pairwise_cons.mpr ⟨fun x hx => ?_, ih hl⟩
      rcases mem_put hx with rfl | hx
      · exact hlt
      · exact hd x hx
    · exact List.pairwise_cons.mpr ⟨fun x hx => heq ▸ hd x hx, hl⟩
    · have hed : key e < key d := lt_of_le_of_ne (not_lt.mp hlt) (Ne.symm heq)
      refine List.pairwise_cons.mpr ⟨fun x hx => ?_, h⟩
      rcases List.mem_cons.mp hx with rfl | hx
      · exact hed
      · exact hed.trans (hd x hx)

/-- The walk past the smaller keys as a split of the chain. -/
theorem put_eq (l : List ε) : put key e l = l.takeWhile (below key (key e)) ++
    (match l.dropWhile (below key (key e)) with
      | [] => [e]
      | d :: rest => if key d = key e then e :: rest else e :: d :: rest) := by
  induction l with
  | nil => rfl
  | cons d l ih =>
    simp only [put]
    split
    · next hlt => simp [below, hlt, ih]
    · next hlt => simp [below, hlt]

theorem find_eq (l : List ε) : find key k l =
    match l.dropWhile (below key k) with
      | [] => none
      | d :: _ => if key d = k then some d else none := by
  induction l with
  | nil => rfl
  | cons d l ih =>
    simp only [find]
    split
    · next hlt => simp [below, hlt, ih]
    · next hlt => simp [below, hlt]

end Chain
