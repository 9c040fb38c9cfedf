import StackVault.Theorems.Append

/-! What the table has of the kernel heap. A run of inserts leaves in the heap what was there before the table was made,
    the array of the table and the names of its items, and nothing else: growing frees all that it replaces.
    `destroy_mapper` frees the names of as many elements as the array has, not as many as there are items. What is
    behind the items was never written. -/

namespace StackVault.Mapper
open Transition

/-- The names that are live are those of `σ₀` and those of the first `n` items, made since. -/
structure Owns (σ₀ σ : Store) (item : Nat → Slot) (n : Nat) : Prop where
  later : σ₀.next ≤ σ.next
  fresh : ∀ i < n, σ₀.next ≤ (item i).funcName
  others : ∀ q, (∀ i < n, (item i).funcName ≠ q) → σ.names q = σ₀.names q

/-- The table is the array at `p` with `n` items. Beside it and their names the heap is what it was in `σ₀`. -/
structure Ledger (σ₀ σ : Store) (n p : Nat) (a : ItemArray) : Prop where
  fresh : σ₀.next ≤ p
  arrays : ∀ q, q ≠ p → σ.arrays q = σ₀.arrays q
  names : Owns σ₀ σ a.item n

/-! ### Names -/

section Names
variable {kmalloc : Kmalloc} {σ₀ σ σ' : Store} {item item' : Nat → Slot} {t1 t2 t2' a : ItemArray} {name : CString}
  {ip size : Addr} {i k n p q : Nat} {r : Int} {m : Option Nat}

theorem Owns.of_eq (h : Owns σ₀ σ item n) (hnext : σ.next ≤ σ'.next) (hnames : σ'.names = σ.names)
    (hitem : ∀ i < n, item' i = item i) :
    Owns σ₀ σ' item' n where
  later := h.later.trans hnext
  fresh i hi := by
    rw [hitem i hi]
    exact h.fresh i hi
  others q hq := by
    rw [hnames]
    refine h.others q fun i hi => ?_
    rw [← hitem i hi]
    exact hq i hi

/-- The name of a new item. -/
theorem Owns.push (h : Owns σ₀ σ item n) (name : CString) (ip size : Addr) :
    Owns σ₀ (σ.newName name) (Function.update item n ⟨σ.next, ip, size⟩) (n + 1) where
  later := h.later.trans (Nat.le_succ _)
  fresh i hi := by
    rcases Nat.lt_succ_iff_lt_or_eq.mp hi with hlt | rfl
    · rw [Function.update_of_ne hlt.ne]
      exact h.fresh i hlt
    · rw [Function.update_self]
      exact h.later
  others q hq := by
    have hnew : σ.next ≠ q := by
      have hlast := hq n (Nat.lt_succ_self n)
      rwa [Function.update_self] at hlast
    rw [Store.newName_of_ne hnew.symm]
    refine h.others q fun i hi => ?_
    have hold := hq i (Nat.lt_succ_of_lt hi)
    rwa [Function.update_of_ne hi.ne] at hold

/-- A name that is moved. Its old buffer is freed, as it was in `σ₀`. -/
theorem Owns.move (h : Owns σ₀ σ item n) (name : CString) (hi : i < n) :
    Owns σ₀ ((σ.newName name).freeName (item i).funcName)
    (Function.update item i { item i with funcName := σ.next }) n where
  later := h.later.trans (Nat.le_succ _)
  fresh j hj := by
    by_cases hji : j = i
    · rw [hji, Function.update_self]
      exact h.later
    · rw [Function.update_of_ne hji]
      exact h.fresh j hj
  others q hq := by
    have hnew : σ.next ≠ q := by
      have hmoved := hq i hi
      rwa [Function.update_self] at hmoved
    by_cases hold : q = (item i).funcName
    · rw [hold]
      exact (if_pos rfl).trans (σ₀.unused _ (h.fresh i hi)).2.symm
    · rw [Store.freeName_of_ne hold, Store.newName_of_ne hnew.symm]
      refine h.others q fun j hj => ?_
      by_cases hji : j = i
      · rw [hji]
        exact Ne.symm hold
      · have hkept := hq j hj
        rwa [Function.update_of_ne hji] at hkept

theorem copyName_inv (h : copyName kmalloc σ name = .ok (q, σ')) : q = σ.next ∧ ∃ name', σ' = σ.newName name' := by
  unfold copyName at h
  dsimp only at h
  split_ifs at h
  cases h
  exact ⟨rfl, _, rfl⟩

theorem Owns.moveItems (h : Owns σ₀ σ (mixed t1 t2 i) n) (hk : i + k = n)
    (hmove : moveItems kmalloc t1 (List.range' i k) t2 σ = .ok (t2', σ')) :
    Owns σ₀ σ' t2'.item n ∧ σ'.arrays = σ.arrays ∧ t2'.cur = t2.cur := by
  induction k generalizing i t2 σ with
  | zero =>
    cases hmove
    exact ⟨h.of_eq (Nat.le_refl _) rfl fun j hj => (if_pos (by omega)).symm, rfl, rfl⟩
  | succ k ih =>
    rw [List.range'_succ, Mapper.moveItems] at hmove
    obtain ⟨tmp, hread, hmove⟩ := bind_eq_ok.mp hmove
    obtain ⟨name, -, hmove⟩ := bind_eq_ok.mp hmove
    obtain ⟨⟨q, τ⟩, hcopy, hmove⟩ := bind_eq_ok.mp hmove
    obtain ⟨t, hwrite, hmove⟩ := bind_eq_ok.mp hmove
    obtain ⟨rfl, name', rfl⟩ := copyName_inv hcopy
    unfold ItemArray.read at hread
    unfold ItemArray.write at hwrite
    split_ifs at hread hwrite
    cases hread
    cases hwrite
    have hcur : mixed t1 t2 i i = t1.item i := if_neg (Nat.lt_irrefl i)
    have hnext := h.move name' (show i < n by omega)
    rw [hcur, ← mixed_succ] at hnext
    obtain ⟨howns, harrays, hcur'⟩ := ih hnext (by omega) hmove
    exact ⟨howns, harrays, hcur'⟩

theorem putItem_inv (h : putItem kmalloc σ p a name ip size = .ok (r, m, σ')) : r = 0 ∧ m = some p ∧ ∃ name',
    σ' = (σ.newName name').setArray p
      { a with cur := a.cur + 1, item := Function.update a.item a.cur.toNat ⟨σ.next, ip, size⟩ } := by
  obtain ⟨⟨q, τ⟩, hcopy, h⟩ := bind_eq_ok.mp h
  obtain ⟨b, hwrite, h⟩ := bind_eq_ok.mp h
  obtain ⟨rfl, name', rfl⟩ := copyName_inv hcopy
  unfold ItemArray.write at hwrite
  split_ifs at hwrite
  cases hwrite
  cases h
  exact ⟨rfl, rfl, name', rfl⟩

end Names

/-! ### Inserts -/

section Insert
variable {kmalloc : Kmalloc} {σ₀ : Store} {s t : Client} {e : Entry} {ret : Int} {n p : Nat} {a : ItemArray}
  {tr : List (Client × Entry × Int)}

theorem Ledger.skip {σ : Store} (h : Ledger σ₀ σ n p a) : Ledger σ₀ σ.skip n p a :=
  ⟨h.fresh, h.arrays, h.names.of_eq (Nat.le_succ _) rfl fun _ _ => rfl⟩

/-- The end of an insert. -/
theorem Ledger.putItem {σ σ' : Store} {m : Option Nat} (h : Ledger σ₀ σ n p a) (hlive : σ.arrays p = some a)
    (hcur : a.cur.toNat = n) (hput : putItem kmalloc σ p a e.name e.ip e.size = .ok (ret, m, σ')) :
    ret = 0 ∧ m = some p ∧ ∃ a', σ'.arrays p = some a' ∧ Ledger σ₀ σ' (n + 1) p a' := by
  obtain ⟨rfl, rfl, name, rfl⟩ := putItem_inv hput
  refine ⟨rfl, rfl, _, Store.setArray_self hlive, h.fresh, fun q hq => ?_, ?_⟩
  · exact (if_neg hq).trans (h.arrays q hq)
  · have hpush := h.names.push name e.ip e.size
    rw [← hcur] at hpush ⊢
    exact hpush.of_eq (Nat.le_refl _) rfl fun _ _ => rfl

/-- One insert that returned: a refused one has done nothing, another has added one item. -/
theorem Ledger.insert (h : Ledger σ₀ s.store n p a) (hhere : s.mapper = some p) (hlive : s.store.arrays p = some a)
    (hcur : a.cur.toNat = n) (hn : n ≤ 2 ^ 31) (hins : Insert kmalloc s (e, ret) t) :
    (ret = -1 ∧ t.mapper = some p ∧ t.store.arrays p = some a ∧ Ledger σ₀ t.store n p a) ∨
      (ret = 0 ∧ ∃ p' a', t.mapper = some p' ∧ t.store.arrays p' = some a' ∧ Ledger σ₀ t.store (n + 1) p' a') := by
  obtain ⟨mapper, store⟩ := t
  replace hins : insertMapper kmalloc s.store s.mapper e.name e.ip e.size = .ok (ret, mapper, store) := hins
  rw [insertMapper, hhere, Store.deref_ok hlive] at hins
  simp only [bind, Except.bind] at hins
  split_ifs at hins with hfull hgrow
  · right
    obtain ⟨t2, hmake, hins⟩ := bind_eq_ok.mp hins
    obtain ⟨⟨t3, σ'⟩, hmove, hput⟩ := bind_eq_ok.mp hins
    unfold ItemArray.make at hmake
    split_ifs at hmake
    cases hmake
    -- The items that are not moved yet are in the old array.
    have hstart : Owns σ₀ (s.store.newArray (a.grown fun _ => default)) (mixed a (a.grown fun _ => default) 0) n :=
      h.names.of_eq (Nat.le_succ _) rfl fun j _ => if_neg (Nat.not_lt_zero j)
    rw [indices_eq hcur hn] at hmove
    obtain ⟨howns, harrays, hcur'⟩ := hstart.moveItems (Nat.zero_add _) hmove
    have hne : s.store.next ≠ p := fun heq => by
      rw [(s.store.unused p heq.le).1] at hlive
      cases hlive
    have hnew : (σ'.freeArray p).arrays s.store.next = some (a.grown fun _ => default) := by
      rw [Store.freeArray_of_ne hne, harrays]
      exact Store.newArray_self
    have hmoved : Ledger σ₀ ((σ'.freeArray p).setArray s.store.next t3) n s.store.next t3 := by
      refine ⟨h.names.later, fun q hq => ?_, howns.of_eq (Nat.le_refl _) rfl fun _ _ => rfl⟩
      refine (if_neg hq).trans ?_
      by_cases hqp : q = p
      · rw [hqp]
        exact (if_pos rfl).trans (σ₀.unused p h.fresh).1.symm
      · rw [Store.freeArray_of_ne hqp, harrays]
        exact (Function.update_of_ne hq _ _).trans (h.arrays q hqp)
    obtain ⟨rfl, rfl, a', hlive', h'⟩ := hmoved.putItem (Store.setArray_self hnew) (hcur' ▸ hcur) hput
    exact ⟨rfl, _, a', rfl, hlive', h'⟩
  · cases hins
    exact Or.inl ⟨rfl, rfl, hlive, h.skip⟩
  · obtain ⟨rfl, rfl, a', hlive', h'⟩ := h.putItem hlive hcur hins
    exact Or.inr ⟨rfl, p, a', rfl, hlive', h'⟩

/-- The table just made. -/
theorem Ledger.init {σ : Store} {size : Addr} (h : initMapper kmalloc σ₀ size = .ok (some p, σ)) :
    ∃ a, σ.arrays p = some a ∧ Ledger σ₀ σ 0 p a := by
  unfold initMapper at h
  split_ifs at h
  · obtain ⟨b, -, h⟩ := bind_eq_ok.mp h
    cases h
    refine ⟨b, Store.newArray_self, Nat.le_refl _, fun q hq => Function.update_of_ne hq _ _, Nat.le_succ _, fun i hi =>
      ?_, fun _ _ => rfl⟩
    exact absurd hi (Nat.not_lt_zero i)
  · cases h

/-- In a run from a table just made. -/
theorem Mapped.ledger (h : Mapped s [] p a) (h₀ : Ledger σ₀ s.store 0 p a)
    (hk : ∀ k bytes, kmalloc k (.name bytes) = true) (hrun : Run (Insert kmalloc) s tr t)
    (hrange : Meets (fun s l => InRange s l.1) tr) :
    ∃ p a, Mapped t (inserted tr) p a ∧ Ledger σ₀ t.store (inserted tr).length p a ∧ (inserted tr).length ≤ 2 ^ 31 := by
  refine hrun.history (I := fun tr s => ∃ p a, Mapped s (inserted tr) p a ∧ Ledger σ₀ s.store (inserted tr).length p a ∧
    (inserted tr).length ≤ 2 ^ 31) ⟨p, a, h, h₀, Nat.zero_le _⟩ ?_ hrange
  rintro tr s ⟨e, ret⟩ t - ⟨p, a, h, h₀, hlen⟩ he hstep
  obtain ⟨⟨p', a', h'⟩, hlen'⟩ := h.step hk he hstep
  refine ⟨p', a', h', ?_, hlen'⟩
  rw [inserted_snoc]
  rcases h₀.insert h.here h.live h.cur hlen hstep with ⟨rfl, hhere, hlive, hkept⟩ | ⟨rfl, q, b, hhere, hlive, hadded⟩
  · obtain ⟨rfl, rfl⟩ := h'.unique hhere hlive
    rwa [if_neg (by decide), List.append_nil]
  · obtain ⟨rfl, rfl⟩ := h'.unique hhere hlive
    rwa [if_pos rfl, List.length_append, List.length_singleton]

end Insert

/-! ### Destroying -/

section Destroy
variable {σ σ' : Store} {a : ItemArray} {i j k n p q : Nat} {is js : List Nat}

theorem freeNames_append : freeNames a (is ++ js) σ = (freeNames a is σ >>= freeNames a js) := by
  induction is generalizing σ with
  | nil => rfl
  | cons i is ih =>
    simp only [List.cons_append, freeNames, bind_assoc]
    refine bind_congr fun tmp => bind_congr fun τ => ?_
    exact ih

theorem kfree_ok {name : CString} (h : σ.names q = some name) : σ.kfree q = .ok (σ.freeName q) := by
  unfold Store.kfree
  rw [h]

/-- Names that are live and apart are freed, and no other name or array is. -/
theorem freeNames_ok (hbytes : 40 * (i + k) ≤ a.bytes.toNat)
    (hlive : ∀ j, i ≤ j → j < i + k → ∃ name, σ.names (a.item j).funcName = some name)
    (hapart : ∀ j l, j < i + k → l < i + k → (a.item j).funcName = (a.item l).funcName → j = l) :
    ∃ σ', freeNames a (List.range' i k) σ = .ok σ' ∧ σ'.arrays = σ.arrays ∧
      (∀ j, i ≤ j → j < i + k → σ'.names (a.item j).funcName = none) ∧
      ∀ q, (∀ j, i ≤ j → j < i + k → (a.item j).funcName ≠ q) → σ'.names q = σ.names q := by
  induction k generalizing i σ with
  | zero => exact ⟨σ, rfl, rfl, fun j h1 h2 => absurd h2 (by omega), fun _ _ => rfl⟩
  | succ k ih =>
    obtain ⟨name, hname⟩ := hlive i (Nat.le_refl i) (by omega)
    have hlive' : ∀ j, i + 1 ≤ j → j < i + 1 + k →
        ∃ name, (σ.freeName (a.item i).funcName).names (a.item j).funcName = some name := by
      intro j h1 h2
      have hne : (a.item j).funcName ≠ (a.item i).funcName :=
        fun heq => absurd (hapart j i (by omega) (by omega) heq) (by omega)
      rw [Store.freeName_of_ne hne]
      exact hlive j (by omega) (by omega)
    obtain ⟨σ', hrest, harrays, hfreed, hothers⟩ :=
      ih (by omega) hlive' fun j l hj hl => hapart j l (by omega) (by omega)
    refine ⟨σ', ?_, harrays, fun j h1 h2 => ?_, fun q hq => ?_⟩
    · rw [List.range'_succ, freeNames, ItemArray.read_ok (by omega)]
      simp only [bind, Except.bind, kfree_ok hname]
      exact hrest
    · rcases Nat.lt_or_eq_of_le h1 with hlt | rfl
      · exact hfreed j hlt (by omega)
      · -- No later item has the name.
        rw [hothers _ fun j h1 h2 heq => absurd (hapart j i (by omega) (by omega) heq) (by omega)]
        exact if_pos rfl
    · rw [hothers q fun j h1 h2 => hq j (by omega) (by omega),
        Store.freeName_of_ne (Ne.symm (hq i (Nat.le_refl i) (by omega)))]

end Destroy

section Destroyed
variable {σ₀ : Store} {s : Client} {table : List Entry} {p : Nat} {a : ItemArray} {item : Nat → Slot}

/-- The elements behind the items may have anything in them. -/
theorem Mapped.scribble (h : Mapped s table p a) (hitem : ∀ i < table.length, item i = a.item i) :
    Mapped ⟨s.mapper, s.store.setArray p { a with item }⟩ table p { a with item } :=
  { h with live := Store.setArray_self h.live, names := h.names.of_eq rfl hitem }

theorem Ledger.scribble {σ : Store} {n : Nat} (h : Ledger σ₀ σ n p a) (hitem : ∀ i < n, item i = a.item i) :
    Ledger σ₀ (σ.setArray p { a with item }) n p { a with item } where
  fresh := h.fresh
  arrays q hq := (if_neg hq).trans (h.arrays q hq)
  names := h.names.of_eq (Nat.le_refl _) rfl hitem

/-- The names of the items are freed first. -/
theorem Mapped.freeNames (h : Mapped s table p a) (k : Nat) (hk : table.length + k = min a.cap.toNat (2 ^ 31)) :
    ∃ σ', Mapper.freeNames a (indices a.cap) s.store = Mapper.freeNames a (List.range' table.length k) σ' ∧
      σ'.arrays = s.store.arrays ∧
      (∀ j < table.length, σ'.names (a.item j).funcName = none) ∧
      ∀ q, (∀ j < table.length, (a.item j).funcName ≠ q) → σ'.names q = s.store.names q := by
  have hbytes := h.bytes
  have hlive : ∀ j, 0 ≤ j → j < 0 + table.length → ∃ name, s.store.names (a.item j).funcName = some name :=
    fun j _ hj => by
      rw [Nat.zero_add] at hj
      exact ⟨_, (h.names.entry j _ (List.getElem?_eq_getElem hj)).2.2⟩
  have hapart : ∀ j l, j < 0 + table.length → l < 0 + table.length → (a.item j).funcName = (a.item l).funcName →
      j = l := fun j l hj hl =>
    h.names.apart j l (by omega) (by omega)
  obtain ⟨σ', hfree, harrays, hfreed, hothers⟩ := freeNames_ok (by omega) hlive hapart
  refine ⟨σ', ?_, harrays, fun j hj => hfreed j (Nat.zero_le j) (by omega), fun q hq => hothers q fun j _ hj =>
    hq j (by omega)⟩
  rw [indices, List.range_eq_range', ← hk, ← List.range'_append_1, freeNames_append, hfree, Nat.zero_add]
  rfl

/-- A table that is full is destroyed, and the heap is as it was before the table. -/
theorem Mapped.destroyed (h : Mapped s table p a) (h₀ : Ledger σ₀ s.store table.length p a)
    (hfull : table.length = min a.cap.toNat (2 ^ 31)) :
    ∃ σ', destroyMapper s.store s.mapper = .ok (0, σ') ∧ σ'.arrays = σ₀.arrays ∧ σ'.names = σ₀.names := by
  obtain ⟨σ', hfree, harrays, hfreed, hothers⟩ := h.freeNames 0 hfull
  refine ⟨σ'.freeArray p, ?_, funext fun q => ?_, funext fun q => ?_⟩
  · rw [destroyMapper, h.here, Store.deref_ok h.live]
    simp only [bind, Except.bind, hfree]
    rfl
  · by_cases hq : q = p
    · rw [hq]
      exact (if_pos rfl).trans (σ₀.unused p h₀.fresh).1.symm
    · rw [Store.freeArray_of_ne hq, harrays, h₀.arrays q hq]
  · show σ'.names q = σ₀.names q
    by_cases hq : ∀ j < table.length, (a.item j).funcName ≠ q
    · rw [hothers q hq, h₀.names.others q hq]
    · simp only [not_forall, not_not] at hq
      obtain ⟨j, hj, rfl⟩ := hq
      rw [hfreed j hj, (σ₀.unused _ (h₀.names.fresh j hj)).2]

/-- With room left, what is in the first element behind the items is taken for the address of a name. -/
theorem Mapped.destroy_wild (h : Mapped s table p a) (hroom : table.length < min a.cap.toNat (2 ^ 31))
    (hwild : s.store.names (a.item table.length).funcName = none) :
    destroyMapper s.store s.mapper = .error .useAfterFree := by
  have hbytes := h.bytes
  obtain ⟨k, hk⟩ : ∃ k, table.length + (k + 1) = min a.cap.toNat (2 ^ 31) :=
    ⟨min a.cap.toNat (2 ^ 31) - table.length - 1, by omega⟩
  obtain ⟨σ', hfree, harrays, hfreed, hothers⟩ := h.freeNames (k + 1) hk
  have hnone : σ'.names (a.item table.length).funcName = none := by
    by_cases hq : ∀ j < table.length, (a.item j).funcName ≠ (a.item table.length).funcName
    · rw [hothers _ hq, hwild]
    · simp only [not_forall, not_not] at hq
      obtain ⟨j, hj, heq⟩ := hq
      rw [← heq, hfreed j hj]
  have hkfree : σ'.kfree (a.item table.length).funcName = .error .useAfterFree := by
    unfold Store.kfree
    rw [hnone]
  rw [destroyMapper, h.here, Store.deref_ok h.live]
  simp only [bind, Except.bind, hfree, List.range'_succ, Mapper.freeNames,
    ItemArray.read_ok (show 40 * table.length + 24 ≤ a.bytes.toNat by omega),
    hkfree]

end Destroyed

/-- In every state of a run of inserts the table owns its array and the names of its items, and the rest of the heap
    is what it was before the table was made. Destroying the table is safe, whatever is behind the items, if and only if
    there is no element behind them that the loop comes to; and then it gives back all that the table owned. -/
theorem mapper_ledger {kmalloc : Kmalloc} {n : Addr} (σ₀ : Store) (hn : 1 ≤ n.toNat) (hfit : 40 * n.toNat < 2 ^ 64)
    (hk : ∀ k bytes, kmalloc k (.name bytes) = true) : ∃ m σ, initMapper kmalloc σ₀ n = .ok (m, σ) ∧
      ∀ tr s, m ≠ none → Run (Insert kmalloc) ⟨m, σ⟩ tr s → Meets (fun s l => InRange s l.1) tr →
        ∃ p a, Lists s (inserted tr) p a ∧ Ledger σ₀ s.store (inserted tr).length p a ∧
          ((∀ item, (∀ i < (inserted tr).length, item i = a.item i) →
              ∃ σ', destroyMapper (s.store.setArray p { a with item }) s.mapper = .ok (0, σ')) ↔
            (inserted tr).length = min a.cap.toNat (2 ^ 31)) ∧
          ((inserted tr).length = min a.cap.toNat (2 ^ 31) →
            ∃ σ', destroyMapper s.store s.mapper = .ok (0, σ') ∧ σ'.arrays = σ₀.arrays ∧ σ'.names = σ₀.names) := by
  obtain ⟨m, σ, hinit, hmapped⟩ := initMapper_ok kmalloc σ₀ hn hfit
  refine ⟨m, σ, hinit, fun tr s hm hrun hrange => ?_⟩
  obtain ⟨p₀, rfl⟩ := Option.ne_none_iff_exists'.mp hm
  obtain ⟨a₀, ha₀⟩ := hmapped p₀ rfl
  obtain ⟨b, hb, hnew⟩ := Ledger.init hinit
  obtain ⟨-, rfl⟩ := ha₀.unique rfl hb
  obtain ⟨p, a, h, h₀, hlen⟩ := ha₀.ledger hnew hk hrun hrange
  refine ⟨p, a, h.toLists, h₀, ⟨fun hsafe => ?_, fun hfull item hitem => ?_⟩, h.destroyed h₀⟩
  · by_contra hroom
    have hlt : (inserted tr).length < min a.cap.toNat (2 ^ 31) := by
      have hcur := h.cur
      have hcap := h.room
      omega
    -- The first element behind the items points to a name that there is not.
    let item : Nat → Slot := fun i => if i < (inserted tr).length then a.item i else ⟨s.store.next, 0, 0⟩
    have hitem : ∀ i < (inserted tr).length, item i = a.item i := fun i hi => if_pos hi
    have hwild : s.store.names (item (inserted tr).length).funcName = none := by
      rw [show item (inserted tr).length = ⟨s.store.next, 0, 0⟩ from if_neg (Nat.lt_irrefl _)]
      exact (s.store.unused _ (Nat.le_refl _)).2
    obtain ⟨σ', hok⟩ := hsafe item hitem
    have hfault := (h.scribble hitem).destroy_wild hlt hwild
    rw [show destroyMapper (s.store.setArray p { a with item }) s.mapper = _ from hfault] at hok
    cases hok
  · obtain ⟨σ', hok, -⟩ := (h.scribble hitem).destroyed (h₀.scribble hitem) hfull
    exact ⟨σ', hok⟩

/-- Two symbols in a table made for one. It has grown, at the second try, and is full. -/
theorem mapper_ledger_two : ∃ m σ tr s σ', initMapper refusesThird Store.empty 1 = .ok (m, σ) ∧
    Run (Insert refusesThird) ⟨m, σ⟩ tr s ∧ tr.map Prod.snd = [(symbolA, 0), (symbolB, -1), (symbolB, 0)] ∧
    destroyMapper s.store s.mapper = .ok (0, σ') ∧ σ'.arrays = Store.empty.arrays ∧ σ'.names = Store.empty.names := by
  obtain ⟨m, σ, hinit, hall⟩ := mapper_ledger (n := 1) Store.empty (by decide) (by decide) refusesThird_name
  obtain ⟨m', σ', hinit', hmapped⟩ := initMapper_ok (n := 1) refusesThird Store.empty (by decide) (by decide)
  obtain ⟨rfl, rfl⟩ := Prod.mk.inj (Except.ok.inj (hinit.symm.trans hinit'))
  obtain ⟨rfl, rfl⟩ :=
    Prod.mk.inj (Except.ok.inj (hinit.symm.trans (rfl : initMapper refusesThird Store.empty 1 = .ok (some 0, _))))
  obtain ⟨s, hs, p', a', hhere, hlive, hcap⟩ :
      ∃ s, exec (Client.insert refusesThird) [(symbolA, 0), (symbolB, -1), (symbolB, 0)]
      ⟨some 0, Store.empty.newArray { bytes := 40, cur := 0, cap := 1, item := fun _ => default }⟩ = some s ∧
      ∃ p a, s.mapper = some p ∧ s.store.arrays p = some a ∧ a.cap = 2 := ⟨_, rfl, _, _, rfl, rfl, rfl⟩
  obtain ⟨tr, hrun, hlabels⟩ := Client.run_of_exec hs
  obtain ⟨b, hb⟩ := hmapped 0 rfl
  have hlen : tr.length = 3 := by simpa using congrArg List.length hlabels
  have hrange := hb.inRange refusesThird_name hrun (by rw [hlabels]; decide) (by omega)
  obtain ⟨p, a, hlists, -, -, hdestroy⟩ := hall tr s (by simp) hrun hrange
  obtain ⟨rfl, rfl⟩ := hlists.unique hhere hlive
  obtain ⟨τ, hdestroyed⟩ := hdestroy (by rw [inserted, hlabels, hcap]; decide)
  exact ⟨_, _, tr, s, τ, hinit, hrun, hlabels, hdestroyed⟩

end StackVault.Mapper
