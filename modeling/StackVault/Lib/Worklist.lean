import Mathlib.Logic.Relation
import Mathlib.Data.Finset.Card

/-! Worklists that grow while they are walked. Each element is visited once, in order, and what it yields is
    appended unless it is there already. A walk ends when everything that is ever yielded comes from a
    finite stock, and the list it ends with is the closure of the one it started from. A sweep makes one
    walk after another, each by a rule of its own; it ends with what is reached by the rules in their
    order, which can be less than what the rules reach together. -/

namespace Worklist

variable {α ι : Type*} [DecidableEq α]

/-- Append an element that is not there yet. -/
def note (l : List α) (x : α) : List α := if x ∈ l then l else l ++ [x]

/-- The walk from position `i` on, for at most `fuel` looks at the list. -/
def walk (f : α → List α) : Nat → Nat → List α → Option (List α)
  | 0, _, _ => none
  | fuel + 1, i, l => match l[i]? with
    | none => some l
    | some x => walk f fuel (i + 1) ((f x).foldl note l)

/-- A walk by each rule, every walk with the same fuel. -/
def sweep (f : ι → α → List α) (fuel : Nat) : List ι → List α → Option (List α)
  | [], l => some l
  | s :: ss, l => (walk (f s) fuel 0 l).bind (sweep f fuel ss)

section Note
variable {l xs : List α} {x y : α}

theorem mem_note : y ∈ note l x ↔ y ∈ l ∨ y = x := by
  unfold note
  split
  · next hx => exact ⟨Or.inl, fun h => h.elim id fun h => h ▸ hx⟩
  · simp

theorem mem_notes : ∀ {xs l : List α}, y ∈ xs.foldl note l ↔ y ∈ l ∨ y ∈ xs
  | [], l => by simp
  | x :: xs, l => by
    rw [List.foldl_cons, mem_notes, mem_note, List.mem_cons, or_assoc]

theorem prefix_note : l <+: note l x := by
  unfold note
  split
  · exact List.prefix_rfl
  · exact List.prefix_append _ _

theorem prefix_notes : ∀ (xs l : List α), l <+: xs.foldl note l
  | [], _ => List.prefix_rfl
  | _ :: xs, _ => prefix_note.trans (prefix_notes xs _)

/-- How long the list can get when all that is appended comes from `stock`. -/
def room (stock : Finset α) (l : List α) : Nat := l.length + (stock \ l.toFinset).card

theorem room_note {stock : Finset α} (hx : x ∈ stock) : room stock (note l x) = room stock l := by
  unfold note room
  split
  · rfl
  · next hl =>
    have hmem : x ∈ stock \ l.toFinset := by simp [hx, hl]
    have hset : stock \ (l ++ [x]).toFinset = (stock \ l.toFinset).erase x := by
      ext y
      simp only [List.toFinset_append, List.toFinset_cons, List.toFinset_nil, Finset.mem_sdiff, Finset.mem_union,
        Finset.mem_erase,
        Finset.mem_insert, Finset.notMem_empty, or_false, not_or]
      tauto
    rw [hset, List.length_append, List.length_singleton, ← Finset.card_erase_add_one hmem]
    omega

theorem room_notes {stock : Finset α} :
    ∀ {xs l : List α}, (∀ x ∈ xs, x ∈ stock) → room stock (xs.foldl note l) = room stock l
  | [], l, _ => rfl
  | x :: xs, l, h => by
    rw [List.foldl_cons, room_notes fun y hy => h y (List.mem_cons_of_mem _ hy), room_note (h x List.mem_cons_self)]

end Note

section Walk
variable {f : α → List α} {stock : Finset α}

/-- `x` yields `y`. -/
def Yields (f : α → List α) (x y : α) : Prop := y ∈ f x

theorem walk_spec : ∀ {fuel i : Nat} {l l' : List α}, (∀ x ∈ l.take i, ∀ y ∈ f x, y ∈ l) → walk f fuel i l = some l' →
    (∀ x ∈ l, x ∈ l') ∧ (∀ x ∈ l', ∀ y ∈ f x, y ∈ l') ∧ ∀ y ∈ l', ∃ x ∈ l, Relation.ReflTransGen (Yields f) x y
  | fuel + 1, i, l, l', hdone, h => by
    unfold walk at h
    split at h
    · next hi =>
      cases h
      rw [List.take_of_length_le (List.getElem?_eq_none_iff.mp hi)] at hdone
      exact ⟨fun _ hx => hx, hdone, fun y hy => ⟨y, hy, .refl⟩⟩
    · next x hi =>
      have hx : x ∈ l := List.mem_of_getElem? hi
      -- What the elements before `i` yield is there already, and what `x` yields is appended now.
      have hdone' : ∀ y ∈ ((f x).foldl note l).take (i + 1), ∀ z ∈ f y, z ∈ (f x).foldl note l := by
        obtain ⟨m, hm⟩ := prefix_notes (f x) l
        have hlt : i < l.length := (List.getElem?_eq_some_iff.mp hi).1
        have htake : ((f x).foldl note l).take (i + 1) = l.take i ++ [x] := by
          rw [← hm, List.take_append_of_le_length hlt, List.take_add_one, hi]
          rfl
        rw [htake]
        intro y hy z hz
        rcases List.mem_append.mp hy with hy | hy
        · exact mem_notes.mpr (Or.inl (hdone y hy z hz))
        · rw [List.mem_singleton.mp hy] at hz
          exact mem_notes.mpr (Or.inr hz)
      obtain ⟨hkept, hclosed, hreach⟩ := walk_spec hdone' h
      refine ⟨fun y hy => hkept y (mem_notes.mpr (Or.inl hy)), hclosed, fun z hz => ?_⟩
      obtain ⟨y, hy, hyz⟩ := hreach z hz
      rcases mem_notes.mp hy with hy | hy
      · exact ⟨y, hy, hyz⟩
      · exact ⟨x, hx, .head hy hyz⟩

/-- The walk of a whole list ends with its closure. -/
theorem mem_walk {fuel : Nat} {l l' : List α} {y : α} (h : walk f fuel 0 l = some l') :
    y ∈ l' ↔ ∃ x ∈ l, Relation.ReflTransGen (Yields f) x y := by
  obtain ⟨hkept, hclosed, hreach⟩ := walk_spec (by simp) h
  refine ⟨hreach y, ?_⟩
  rintro ⟨x, hx, hxy⟩
  induction hxy with
  | refl => exact hkept x hx
  | tail _ hyz ih => exact hclosed _ ih _ hyz

theorem walk_returns (hstock : ∀ x, ∀ y ∈ f x, y ∈ stock) : ∀ {fuel i : Nat} {l : List α}, room stock l - i < fuel →
    ∃ l', walk f fuel i l = some l' ∧ room stock l' = room stock l
  | fuel + 1, i, l, hfuel => by
    unfold walk
    split
    · exact ⟨l, rfl, rfl⟩
    · next x hi =>
      have hlt : i < l.length := (List.getElem?_eq_some_iff.mp hi).1
      have hroom : l.length ≤ room stock l := Nat.le_add_right _ _
      have hsame : room stock ((f x).foldl note l) = room stock l := room_notes (hstock x)
      rw [← hsame]
      exact walk_returns hstock (by omega)

end Walk

/-! ### Sweeps -/

/-- `y` is reached from `x` by the rules `ss`, each any number of times, in their order. -/
inductive InOrder (R : ι → α → α → Prop) : List ι → α → α → Prop
  | done {ss : List ι} {x : α} : InOrder R ss x x
  | step {s : ι} {ss : List ι} {x y z : α} : R s x y → InOrder R (s :: ss) y z → InOrder R (s :: ss) x z
  | skip {s : ι} {ss : List ι} {x y : α} : InOrder R ss x y → InOrder R (s :: ss) x y

section Sweep
variable {R : ι → α → α → Prop} {f : ι → α → List α} {stock : Finset α} {s : ι} {ss : List ι} {x y : α}

omit [DecidableEq α] in
theorem InOrder.of_mem : ∀ {ss : List ι}, s ∈ ss → R s x y → InOrder R ss x y
  | _ :: _, hs, h => by
    rcases List.mem_cons.mp hs with rfl | hs
    · exact .step h .done
    · exact .skip (.of_mem hs h)

omit [DecidableEq α] in
theorem inOrder_cons : InOrder R (s :: ss) x y ↔ ∃ z, Relation.ReflTransGen (R s) x z ∧ InOrder R ss z y := by
  constructor
  · intro h
    generalize hts : s :: ss = ts at h
    induction h with
    | done => exact ⟨_, .refl, .done⟩
    | step hxy _ ih =>
      cases hts
      obtain ⟨w, hw, hwz⟩ := ih rfl
      exact ⟨w, .head hxy hw, hwz⟩
    | skip h =>
      cases hts
      exact ⟨_, .refl, h⟩
  · rintro ⟨z, hxz, hzy⟩
    induction hxz using Relation.ReflTransGen.head_induction_on with
    | refl => exact .skip hzy
    | head hxw _ ih => exact .step hxw ih

omit [DecidableEq α] in
theorem inOrder_singleton : InOrder R [s] x y ↔ Relation.ReflTransGen (R s) x y := by
  rw [inOrder_cons]
  constructor
  · rintro ⟨z, hxz, hzy⟩
    cases hzy
    exact hxz
  · exact fun h => ⟨y, h, .done⟩

/-- A sweep ends with what the rules reach in their order. -/
theorem mem_sweep {fuel : Nat} : ∀ {ss : List ι} {l l' : List α}, sweep f fuel ss l = some l' →
    (y ∈ l' ↔ ∃ x ∈ l, InOrder (fun s => Yields (f s)) ss x y)
  | [], l, l', h => by
    cases h
    refine ⟨fun hy => ⟨y, hy, .done⟩, ?_⟩
    rintro ⟨x, hx, hxy⟩
    cases hxy
    exact hx
  | s :: ss, l, l', h => by
    obtain ⟨l₁, h₁, h⟩ := Option.bind_eq_some_iff.mp h
    rw [mem_sweep h]
    constructor
    · rintro ⟨z, hz, hzy⟩
      obtain ⟨x, hx, hxz⟩ := (mem_walk h₁).mp hz
      exact ⟨x, hx, inOrder_cons.mpr ⟨z, hxz, hzy⟩⟩
    · rintro ⟨x, hx, hxy⟩
      obtain ⟨z, hxz, hzy⟩ := inOrder_cons.mp hxy
      exact ⟨z, (mem_walk h₁).mpr ⟨x, hx, hxz⟩, hzy⟩

theorem sweep_returns (hstock : ∀ s x, ∀ y ∈ f s x, y ∈ stock) {fuel : Nat} :
    ∀ {ss : List ι} {l : List α}, room stock l < fuel →
    ∃ l', sweep f fuel ss l = some l'
  | [], l, _ => ⟨l, rfl⟩
  | s :: ss, l, hfuel => by
    obtain ⟨l₁, h₁, hroom⟩ := walk_returns (i := 0) (hstock s) hfuel
    obtain ⟨l', h'⟩ : ∃ l', sweep f fuel ss l₁ = some l' := sweep_returns hstock (hroom ▸ hfuel)
    exact ⟨l', Option.bind_eq_some_iff.mpr ⟨l₁, h₁, h'⟩⟩

end Sweep

end Worklist
