import StackVault.ItemTable
import StackVault.Mapper
import StackVault.Lib.Run
import Mathlib.Data.List.Find

/-! The symbol table as a list that only grows at its end. An insert into a full array moves every item to an
    array of twice the size, each name to a new buffer; the list is the same before and after. The
    counters of the table have 64 bits, the index of its loops and the length of a name have 32, and the size of
    an array is computed with wrapping arithmetic: a run keeps to the list as long as these are large enough. -/

namespace StackVault.Mapper
open Transition

/-- What `insert_mapper` is given. -/
structure Entry where
  name : CString
  ip : Addr
  size : Addr
  deriving DecidableEq, Repr

/-- The address is in the range of the entry. -/
def Entry.Has (e : Entry) (x : Addr) : Prop := e.ip.toNat ≤ x.toNat ∧ x.toNat < e.ip.toNat + e.size.toNat

instance (e : Entry) (x : Addr) : Decidable (e.Has x) := inferInstanceAs (Decidable (_ ∧ _))

/-- The test of `get_func_name`. -/
def Entry.Hit (e : Entry) (x : Addr) : Prop := e.ip ≤ x ∧ x < e.ip + e.size

instance (e : Entry) (x : Addr) : Decidable (e.Hit x) := inferInstanceAs (Decidable (_ ∧ _))

/-- The entry as an item of the table that is a list. -/
def Entry.toItem (text : CString → String) (e : Entry) : Item := ⟨text e.name, e.ip, e.size⟩

/-- The variable of a caller, and the heap. -/
structure Client where
  mapper : Option Nat
  store : Store

/-- One call, with its result. -/
def Insert (kmalloc : Kmalloc) (s : Client) (l : Entry × Int) (t : Client) : Prop :=
  insertMapper kmalloc s.store s.mapper l.1.name l.1.ip l.1.size = .ok (l.2, t.mapper, t.store)

/-- The entries of the calls that returned 0, in order. -/
def inserted (tr : List (Client × Entry × Int)) : List Entry :=
  (tr.map Prod.snd).filterMap fun l => if l.2 = 0 then some l.1 else none

/-- The items point to the names of the entries, each to a buffer of its own. -/
structure Names (σ : Store) (item : Nat → Slot) (table : List Entry) : Prop where
  entry : ∀ i e, table[i]? = some e → (item i).ip = e.ip ∧ (item i).size = e.size ∧
    σ.names (item i).funcName = some e.name
  apart : ∀ i j, i < table.length → j < table.length → (item i).funcName = (item j).funcName → i = j

/-- The table: an array at `p` with the entries of a list. -/
structure Lists (s : Client) (table : List Entry) (p : Nat) (a : ItemArray) : Prop where
  here : s.mapper = some p
  live : s.store.arrays p = some a
  cur : a.cur.toNat = table.length
  room : a.cur.toNat ≤ a.cap.toNat
  names : Names s.store a.item table

/-- What a call needs and keeps. -/
structure Mapped (s : Client) (table : List Entry) (p : Nat) (a : ItemArray) : Prop extends Lists s table p a where
  bytes : a.bytes.toNat = 40 * a.cap.toNat
  pos : 1 ≤ a.cap.toNat
  short : ∀ e ∈ table, e.name.strlen < 2 ^ 31

/-- The array is full, and `kmalloc` refuses one of twice its size. -/
def GrowthFails (kmalloc : Kmalloc) (s : Client) (a : ItemArray) : Prop :=
  a.cur = a.cap ∧ kmalloc s.store.next (.items (2 * a.cap * 40)) = false

/-- The length of the name fits in an `int`, and so does the index of the entry. -/
structure InRange (s : Client) (e : Entry) : Prop where
  name : e.name.strlen < 2 ^ 31
  index : ∀ p a, s.mapper = some p → s.store.arrays p = some a → a.cur.toNat < 2 ^ 31

/-- The state after a run: the table is the list of the entries that were inserted, a call adds to it unless it
    cannot grow the array, and a lookup finds the first entry that has the address. -/
structure Appends (kmalloc : Kmalloc) (tr : List (Client × Entry × Int)) (s : Client) : Prop where
  table : ∃ p a, Lists s (inserted tr) p a
  refused : ∀ p a e, Lists s (inserted tr) p a → GrowthFails kmalloc s a →
    ∃ t, Insert kmalloc s (e, -1) t ∧ t.mapper = s.mapper ∧ t.store.arrays = s.store.arrays ∧
    t.store.names = s.store.names
  accepted : ∀ p a e, Lists s (inserted tr) p a → ¬GrowthFails kmalloc s a → InRange s e →
    ∃ t, Insert kmalloc s (e, 0) t
  lookup : ∀ x, ∃ q, getFuncName s.store s.mapper x = .ok q ∧
    q.map s.store.names = ((inserted tr).find? fun e => e.Has x).map fun e => some e.name

/-! ### Names -/

section Names
variable {kmalloc : Kmalloc} {σ σ' : Store} {item item' : Nat → Slot} {table : List Entry} {e : Entry} {name : CString}
  {i : Nat}

theorem CString.take_strlen (s : CString) : s.take s.strlen = s := by
  cases s
  simp [CString.take, CString.strlen]

theorem copyName_ok (hk : ∀ k bytes, kmalloc k (.name bytes) = true) (hname : name.strlen < 2 ^ 31) :
    copyName kmalloc σ name = .ok (σ.next, σ.newName name) := by
  have hlen : (BitVec.ofNat 32 name.strlen).toNat = name.strlen := by
    rw [BitVec.toNat_ofNat]
    omega
  have hmsb : (BitVec.ofNat 32 name.strlen).msb = false := by
    rw [BitVec.msb_eq_false_iff_two_mul_lt, hlen]
    omega
  simp only [copyName, hk, hmsb, hlen, CString.take_strlen]
  rfl

theorem Names.of_eq (h : Names σ item table) (hnames : σ'.names = σ.names)
    (hitem : ∀ i < table.length, item' i = item i) :
    Names σ' item' table := by
  refine ⟨fun i e hi => ?_, fun i j hi hj heq => ?_⟩
  · rw [hnames, hitem i (List.getElem?_eq_some_iff.mp hi).1]
    exact h.entry i e hi
  · rw [hitem i hi, hitem j hj] at heq
    exact h.apart i j hi hj heq

/-- The name of an item is not in a buffer that is still to come. -/
theorem Names.lt_next (h : Names σ item table) (hi : i < table.length) : (item i).funcName < σ.next := by
  obtain ⟨-, -, hname⟩ := h.entry i table[i] (List.getElem?_eq_getElem hi)
  by_contra hle
  rw [(σ.unused _ (Nat.le_of_not_lt hle)).2] at hname
  cases hname

theorem Names.push (h : Names σ item table) :
    Names (σ.newName e.name) (Function.update item table.length ⟨σ.next, e.ip, e.size⟩) (table ++ [e]) := by
  have hold : ∀ i, i < table.length → Function.update item table.length ⟨σ.next, e.ip, e.size⟩ i = item i := fun i hi =>
    Function.update_of_ne hi.ne _ _
  have hlen : (table ++ [e]).length = table.length + 1 := by simp
  refine ⟨fun i f hi => ?_, fun i j hi hj heq => ?_⟩
  · have hlt := (List.getElem?_eq_some_iff.mp hi).1
    by_cases heq : i = table.length
    · subst heq
      obtain rfl : e = f := by simpa using hi
      rw [Function.update_self]
      exact ⟨rfl, rfl, Store.newName_self⟩
    · have hi' : i < table.length := by omega
      rw [List.getElem?_append_left hi'] at hi
      obtain ⟨hip, hsize, hname⟩ := h.entry i f hi
      rw [hold i hi']
      refine ⟨hip, hsize, ?_⟩
      rw [Store.newName_of_ne (h.lt_next hi').ne]
      exact hname
  · -- Only the new item points to the new buffer.
    rw [hlen] at hi hj
    rcases Nat.lt_succ_iff_lt_or_eq.mp hi with hi | rfl <;> rcases Nat.lt_succ_iff_lt_or_eq.mp hj with hj | rfl
    · rw [hold i hi, hold j hj] at heq
      exact h.apart i j hi hj heq
    · rw [hold i hi, Function.update_self] at heq
      exact absurd heq (h.lt_next hi).ne
    · rw [hold j hj, Function.update_self] at heq
      exact absurd heq.symm (h.lt_next hj).ne
    · rfl

/-- One round of the loop that moves the items: the name goes to a new buffer, and its old one is freed. No other
    item points there. -/
theorem Names.move (h : Names σ item table) (hi : table[i]? = some e) :
    Names ((σ.newName e.name).freeName (item i).funcName) (Function.update item i { item i with funcName := σ.next })
    table := by
  have hlt := (List.getElem?_eq_some_iff.mp hi).1
  refine ⟨fun j f hj => ?_, fun j k hj hk heq => ?_⟩
  · have hjlt := (List.getElem?_eq_some_iff.mp hj).1
    by_cases hji : j = i
    · subst hji
      obtain rfl : e = f := Option.some.inj (hi.symm.trans hj)
      obtain ⟨hip, hsize, -⟩ := h.entry j e hi
      rw [Function.update_self]
      refine ⟨hip, hsize, ?_⟩
      rw [Store.freeName_of_ne (h.lt_next hlt).ne']
      exact Store.newName_self
    · obtain ⟨hip, hsize, hname⟩ := h.entry j f hj
      rw [Function.update_of_ne hji]
      refine ⟨hip, hsize, ?_⟩
      have hne : (item j).funcName ≠ (item i).funcName := fun heq => hji (h.apart j i hjlt hlt heq)
      rw [Store.freeName_of_ne hne, Store.newName_of_ne (h.lt_next hjlt).ne]
      exact hname
  · by_cases hji : j = i <;> by_cases hki : k = i
    · rw [hji, hki]
    · rw [hji, Function.update_self, Function.update_of_ne hki] at heq
      exact absurd heq.symm (h.lt_next hk).ne
    · rw [hki, Function.update_self, Function.update_of_ne hji] at heq
      exact absurd heq (h.lt_next hj).ne
    · rw [Function.update_of_ne hji, Function.update_of_ne hki] at heq
      exact h.apart j k hj hk heq

end Names

/-! ### Growth -/

section Growth
variable {kmalloc : Kmalloc} {σ : Store} {t1 t2 a : ItemArray} {table : List Entry} {e : Entry} {i p : Nat}

theorem ItemArray.read_ok (h : 40 * i + 24 ≤ a.bytes.toNat) : a.read i = .ok (a.item i) := if_pos h

theorem ItemArray.write_ok (h : 40 * i + 24 ≤ a.bytes.toNat) (tmp : Slot) :
    a.write i tmp = .ok { a with item := Function.update a.item i tmp } := if_pos h

theorem Store.string_ok {σ : Store} {name : CString} (h : σ.names i = some name) :
    σ.string i = .ok name := by simp [Store.string, h]

theorem Store.deref_ok {σ : Store} (h : σ.arrays p = some a) : σ.deref (some p) = .ok (p, a) := by simp [Store.deref, h]

/-- The items below `i` are in the new array, the others in the old one. -/
def mixed (t1 t2 : ItemArray) (i j : Nat) : Slot := if j < i then t2.item j else t1.item j

theorem mixed_succ (tmp : Slot) :
    mixed t1 { t2 with item := Function.update t2.item i tmp } (i + 1) = Function.update (mixed t1 t2 i) i tmp := by
  funext j
  rcases Nat.lt_trichotomy j i with hj | rfl | hj
  · simp [mixed, Function.update_of_ne hj.ne, hj, Nat.lt_succ_of_lt hj]
  · simp [mixed]
  · simp [mixed, Function.update_of_ne hj.ne', Nat.not_lt_of_gt hj, Nat.not_lt.mpr (Nat.succ_le_of_lt hj)]

theorem moveItems_ok (hk : ∀ k bytes, kmalloc k (.name bytes) = true) (hshort : ∀ e ∈ table, e.name.strlen < 2 ^ 31)
    (h1 : 40 * table.length ≤ t1.bytes.toNat) :
    ∀ (k : Nat) {i : Nat} {t2 : ItemArray} {σ : Store}, i + k = table.length →
    40 * table.length ≤ t2.bytes.toNat → Names σ (mixed t1 t2 i) table →
    ∃ item σ', moveItems kmalloc t1 (List.range' i k) t2 σ = .ok ({ t2 with item }, σ') ∧ Names σ' item table ∧
      σ'.arrays = σ.arrays
  | 0, i, t2, σ, hi, _, hnames => by
    refine ⟨t2.item, σ, rfl, hnames.of_eq rfl fun j hj => ?_, rfl⟩
    exact (if_pos (by omega)).symm
  | k + 1, i, t2, σ, hi, h2, hnames => by
    have hlt : i < table.length := by omega
    have he := List.getElem?_eq_getElem hlt
    have hcur : mixed t1 t2 i i = t1.item i := if_neg (Nat.lt_irrefl i)
    obtain ⟨-, -, hname⟩ := hnames.entry i _ he
    have hmove := hnames.move he
    rw [hcur] at hname hmove
    rw [← mixed_succ] at hmove
    have h2' : 40 * table.length ≤ ({ t2 with
        item := Function.update t2.item i { t1.item i with funcName := σ.next } } : ItemArray).bytes.toNat := h2
    obtain ⟨item, σ', hrest, hnames', harrays⟩ :=
      moveItems_ok hk hshort h1 k (show i + 1 + k = table.length by omega) h2' hmove
    refine ⟨item, σ', ?_, hnames', harrays⟩
    rw [List.range'_succ, moveItems, ItemArray.read_ok (by omega)]
    simp only [bind, Except.bind, Store.string_ok hname, copyName_ok hk (hshort _ (List.getElem_mem hlt)),
      ItemArray.write_ok (show 40 * i + 24 ≤ t2.bytes.toNat by omega)]
    exact hrest

/-- The array that an insert moves the items of a full one to. -/
def ItemArray.grown (a : ItemArray) (item : Nat → Slot) : ItemArray :=
  { bytes := 2 * a.cap * 40, cur := a.cur, cap := 2 * a.cap, item }

theorem ItemArray.grown_cap (a : ItemArray) (item : Nat → Slot) {n : Nat} (hcap : a.cap.toNat = n) (hn : n < 2 ^ 31) :
    (a.grown item).cap.toNat = 2 * n := by
  show (2 * a.cap).toNat = 2 * n
  rw [BitVec.toNat_mul, hcap]
  show 2 * n % 2 ^ 64 = 2 * n
  omega

theorem ItemArray.grown_bytes (a : ItemArray) (item : Nat → Slot) {n : Nat} (hcap : a.cap.toNat = n) (hn : n < 2 ^ 31) :
    (a.grown item).bytes.toNat = 40 * (2 * n) := by
  show ((a.grown item).cap * 40).toNat = 40 * (2 * n)
  rw [BitVec.toNat_mul, a.grown_cap item hcap hn]
  show 2 * n * 40 % 2 ^ 64 = 40 * (2 * n)
  omega

theorem indices_eq {cur : Addr} {n : Nat} (hcur : cur.toNat = n) (hn : n ≤ 2 ^ 31) : indices cur = List.range' 0 n := by
  rw [indices, hcur, Nat.min_eq_left hn, List.range_eq_range']

/-- The end of an insert, into an array with room. -/
theorem putItem_ok (hk : ∀ k bytes, kmalloc k (.name bytes) = true) (hlive : σ.arrays p = some a)
    (hcur : a.cur.toNat = table.length) (hindex : a.cur.toNat < 2 ^ 31) (hroom : a.cur.toNat < a.cap.toNat)
    (hbytes : a.bytes.toNat = 40 * a.cap.toNat) (hnames : Names σ a.item table)
    (hshort : ∀ f ∈ table, f.name.strlen < 2 ^ 31) (he : e.name.strlen < 2 ^ 31) :
    ∃ σ' a', putItem kmalloc σ p a e.name e.ip e.size = .ok (0, some p, σ') ∧
    Mapped ⟨some p, σ'⟩ (table ++ [e]) p a' := by
  have hnext : (a.cur + 1).toNat = table.length + 1 := by
    rw [BitVec.toNat_add, hcur]
    show (table.length + 1) % 2 ^ 64 = table.length + 1
    omega
  have hwrite := ItemArray.write_ok (a := a) (i := a.cur.toNat) (by omega) ⟨σ.next, e.ip, e.size⟩
  let a' : ItemArray := { a with cur := a.cur + 1, item := Function.update a.item a.cur.toNat ⟨σ.next, e.ip, e.size⟩ }
  refine ⟨(σ.newName e.name).setArray p a', a', ?_, ?_⟩
  · simp only [putItem, bind, Except.bind, copyName_ok hk he, hwrite]
    rfl
  · refine { here := rfl, live := Store.setArray_self hlive, cur := ?_, room := ?_, names := ?_, bytes := hbytes,
             pos := ?_, short := ?_ }
    · rw [List.length_append, List.length_singleton]
      exact hnext
    · show (a.cur + 1).toNat ≤ a.cap.toNat
      omega
    · have hpush := hnames.push (e := e)
      rw [← hcur] at hpush
      exact hpush.of_eq rfl fun _ _ => rfl
    · show 1 ≤ a.cap.toNat
      omega
    · intro f hf
      rcases List.mem_append.mp hf with hf | hf
      · exact hshort f hf
      · rwa [List.mem_singleton.mp hf]

end Growth

/-! ### Inserts -/

section Insert
variable {kmalloc : Kmalloc} {s : Client} {table : List Entry} {e : Entry} {p : Nat} {a : ItemArray}

theorem Mapped.skip (h : Mapped s table p a) : Mapped ⟨s.mapper, s.store.skip⟩ table p a :=
  { h with live := h.live, names := h.names.of_eq rfl fun _ _ => rfl }

/-- The variable points to one array. -/
theorem Lists.unique {q : Nat} {b : ItemArray} (h : Lists s table p a) (hq : s.mapper = some q)
    (hb : s.store.arrays q = some b) :
    q = p ∧ b = a := by
  obtain rfl := Option.some.inj (hq.symm.trans h.here)
  exact ⟨rfl, Option.some.inj (hb.symm.trans h.live)⟩

/-- A call that cannot grow the array returns -1, and has done nothing. -/
theorem Lists.insert_refused (h : Lists s table p a) (hfail : GrowthFails kmalloc s a) :
    insertMapper kmalloc s.store s.mapper e.name e.ip e.size = .ok (-1, s.mapper, s.store.skip) := by
  obtain ⟨hfull, hrefuse⟩ := hfail
  rw [insertMapper, h.here, Store.deref_ok h.live]
  simp only [bind, Except.bind, hfull, hrefuse]
  rfl

/-- Every other call returns 0, and the table has the entry at its end. -/
theorem Mapped.insert (h : Mapped s table p a) (hk : ∀ k bytes, kmalloc k (.name bytes) = true)
    (he : e.name.strlen < 2 ^ 31) (hindex : a.cur.toNat < 2 ^ 31) (hfail : ¬GrowthFails kmalloc s a) :
    ∃ p' a' σ', insertMapper kmalloc s.store s.mapper e.name e.ip e.size = .ok (0, some p', σ') ∧
      Mapped ⟨some p', σ'⟩ (table ++ [e]) p' a' := by
  have hcur := h.cur
  have hbytes := h.bytes
  have hpos := h.pos
  rw [insertMapper, h.here, Store.deref_ok h.live]
  simp only [bind, Except.bind]
  by_cases hfull : a.cur = a.cap
  · have hgrow : kmalloc s.store.next (.items (2 * a.cap * 40)) = true := by
      by_contra hrefuse
      exact hfail ⟨hfull, Bool.eq_false_iff.mpr hrefuse⟩
    have hcap : a.cap.toNat = table.length := by rw [← hfull, hcur]
    have hsmall : table.length < 2 ^ 31 := hcur ▸ hindex
    have hdouble := fun item => a.grown_cap item hcap hsmall
    have hsize := fun item => a.grown_bytes item hcap hsmall
    have hmake : ItemArray.make (2 * a.cap * 40) a.cur (2 * a.cap) = .ok (a.grown fun _ => default) := by
      refine if_pos ?_
      have := hsize fun _ => default
      show 40 ≤ (a.grown fun _ => default).bytes.toNat
      omega
    have hnames : Names (s.store.newArray (a.grown fun _ => default)) (mixed a (a.grown fun _ => default) 0) table :=
      h.names.of_eq rfl fun j _ => if_neg (Nat.not_lt_zero j)
    have hnew := hsize fun _ => default
    obtain ⟨item, σ', hmove, hnames', harrays⟩ :=
      moveItems_ok hk h.short (by omega) table.length (Nat.zero_add _) (by omega) hnames
    have hne : s.store.next ≠ p := fun heq => by
      have hlive := h.live
      rw [(s.store.unused p heq.le).1] at hlive
      cases hlive
    have hlive : (σ'.freeArray p).arrays s.store.next = some (a.grown fun _ => default) := by
      rw [Store.freeArray_of_ne hne, harrays]
      exact Store.newArray_self
    have hdouble' := hdouble item
    have hsize' := hsize item
    have hcur' : (a.grown item).cur.toNat = table.length := hcur
    obtain ⟨σ'', a'', hput, hmapped⟩ := putItem_ok (a := a.grown item) hk (Store.setArray_self hlive) hcur' hindex
      (by omega) (by omega) (hnames'.of_eq rfl fun _ _ => rfl) h.short he
    refine ⟨_, a'', σ'', ?_, hmapped⟩
    rw [if_pos hfull]
    simp only [hgrow, hmake, indices_eq hcur hsmall.le, hmove, if_true]
    exact hput
  · have hlt : a.cur.toNat < a.cap.toNat := lt_of_le_of_ne h.room fun heq => hfull (BitVec.eq_of_toNat_eq heq)
    obtain ⟨σ', a', hput, hmapped⟩ := putItem_ok hk h.live hcur hindex hlt hbytes h.names h.short he
    exact ⟨p, a', σ', by rw [if_neg hfull]; exact hput, hmapped⟩

end Insert

/-! ### Lookups -/

section Lookup
variable {s : Client} {table : List Entry} {e : Entry} {p : Nat} {a : ItemArray} {σ : Store}

theorem Entry.hit_iff {x : Addr} (h : e.ip.toNat + e.size.toNat < 2 ^ 64) : e.Hit x ↔ e.Has x := by
  rw [Entry.Hit, Entry.Has, BitVec.le_def, BitVec.lt_def, BitVec.toNat_add, Nat.mod_eq_of_lt h]

theorem findItem_ok (h : Names σ a.item table) (hbytes : 40 * table.length ≤ a.bytes.toNat) (x : Addr) :
    ∀ (k : Nat) {i : Nat},
    i + k = table.length → ∃ q, findItem a x (List.range' i k) = .ok q ∧
      q.map σ.names = ((table.drop i).find? fun e => e.Hit x).map fun e => some e.name
  | 0, i, hi => by
    refine ⟨none, rfl, ?_⟩
    rw [List.drop_eq_nil_of_le (by omega)]
    rfl
  | k + 1, i, hi => by
    have hlt : i < table.length := by omega
    obtain ⟨hip, hsize, hname⟩ := h.entry i _ (List.getElem?_eq_getElem hlt)
    have hdrop : table.drop i = table[i] :: table.drop (i + 1) := List.drop_eq_getElem_cons hlt
    rw [List.range'_succ, findItem, ItemArray.read_ok (by omega), hdrop]
    simp only [bind, Except.bind, hip, hsize]
    by_cases hhit : table[i].Hit x
    · rw [List.find?_cons_of_pos (by simpa using hhit)]
      exact ⟨some _, if_pos hhit, congrArg some hname⟩
    · rw [List.find?_cons_of_neg (by simpa using hhit)]
      obtain ⟨q, hq, hfound⟩ := findItem_ok h hbytes x k (show i + 1 + k = table.length by omega)
      exact ⟨q, (if_neg hhit).trans hq, hfound⟩

theorem Mapped.lookup (h : Mapped s table p a) (hlen : table.length ≤ 2 ^ 31) (x : Addr) :
    ∃ q, getFuncName s.store s.mapper x = .ok q ∧
      q.map s.store.names = (table.find? fun e => e.Hit x).map fun e => some e.name := by
  have hroom := h.room
  have hcur := h.cur
  have hbytes := h.bytes
  obtain ⟨q, hq, hname⟩ := findItem_ok h.names (by omega) x table.length (Nat.zero_add _)
  refine ⟨q, ?_, hname⟩
  rw [getFuncName, h.here, Store.deref_ok h.live]
  simp only [bind, Except.bind, indices_eq hcur hlen]
  exact hq

theorem getFuncName_map (text : CString → String) (x : Addr) : ∀ table : List Entry,
    StackVault.getFuncName (table.map (Entry.toItem text)) x = (table.find? fun e => e.Hit x).map fun e => text e.name
  | [] => rfl
  | e :: table => by
    rw [List.map_cons, StackVault.getFuncName, getFuncName_map text x table]
    by_cases hhit : e.Hit x
    · rw [List.find?_cons_of_pos (by simpa using hhit)]
      exact if_pos hhit
    · rw [List.find?_cons_of_neg (by simpa using hhit)]
      exact if_neg hhit

end Lookup

/-! ### Runs -/

section Runs
variable {kmalloc : Kmalloc} {σ₀ : Store} {n : Addr} {s t : Client} {tr : List (Client × Entry × Int)} {e : Entry}
  {ret : Int} {p : Nat} {a : ItemArray}

theorem inserted_snoc : inserted (tr ++ [(s, e, ret)]) = inserted tr ++ if ret = 0 then [e] else [] := by
  by_cases hret : ret = 0 <;> simp [inserted, hret]

variable (kmalloc σ₀) in
theorem initMapper_ok (hn : 1 ≤ n.toNat) (hfit : 40 * n.toNat < 2 ^ 64) : ∃ m σ, initMapper kmalloc σ₀ n = .ok (m, σ) ∧
    ∀ p, m = some p → ∃ a, Mapped ⟨m, σ⟩ [] p a := by
  have hbytes : (n * 40).toNat = 40 * n.toNat := by
    rw [BitVec.toNat_mul]
    show n.toNat * 40 % 2 ^ 64 = 40 * n.toNat
    omega
  unfold initMapper
  split
  · have hmake : ItemArray.make (n * 40) 0 n = .ok { bytes := n * 40, cur := 0, cap := n, item := fun _ => default } :=
      if_pos (by omega)
    refine ⟨some σ₀.next, σ₀.newArray { bytes := n * 40, cur := 0, cap := n, item := fun _ => default }, ?_, ?_⟩
    · rw [hmake]
      rfl
    · rintro p hp
      obtain rfl := Option.some.inj hp
      refine ⟨_, { here := rfl, live := Store.newArray_self, cur := rfl, room := Nat.zero_le _, bytes := hbytes,
                   pos := hn, names := ?_, short := ?_ }⟩
      · refine ⟨fun i e hi => ?_, fun i j hi => absurd hi (Nat.not_lt_zero i)⟩
        cases hi
      · intro e he
        cases he
  · exact ⟨none, _, rfl, fun p hp => by cases hp⟩

theorem Insert.eq {m : Option Nat} {σ : Store} {r : Int} (h : Insert kmalloc s (e, ret) t)
    (hins : insertMapper kmalloc s.store s.mapper e.name e.ip e.size = .ok (r, m, σ)) : ret = r ∧ t = ⟨m, σ⟩ := by
  obtain ⟨mapper, store⟩ := t
  obtain ⟨rfl, hrest⟩ := Prod.mk.inj (Except.ok.inj (h.symm.trans hins))
  obtain ⟨rfl, rfl⟩ := Prod.mk.inj hrest
  exact ⟨rfl, rfl⟩

/-- One call of a run. -/
theorem Mapped.step (h : Mapped s (inserted tr) p a) (hk : ∀ k bytes, kmalloc k (.name bytes) = true) (he : InRange s e)
    (hstep : Insert kmalloc s (e, ret) t) : (∃ p' a', Mapped t (inserted (tr ++ [(s, e, ret)])) p' a') ∧
      (inserted (tr ++ [(s, e, ret)])).length ≤ 2 ^ 31 := by
  have hindex := he.index p a h.here h.live
  have hcur := h.cur
  rw [inserted_snoc]
  by_cases hfail : GrowthFails kmalloc s a
  · obtain ⟨rfl, rfl⟩ := hstep.eq (h.insert_refused hfail)
    rw [if_neg (by decide), List.append_nil]
    refine ⟨⟨p, a, h.skip⟩, ?_⟩
    omega
  · obtain ⟨p', a', σ', hins, hmapped⟩ := h.insert hk he.name hindex hfail
    obtain ⟨rfl, rfl⟩ := hstep.eq hins
    rw [if_pos rfl]
    refine ⟨⟨p', a', hmapped⟩, ?_⟩
    rw [List.length_append, List.length_singleton]
    omega

theorem Mapped.appends (h : Mapped s (inserted tr) p a) (hlen : (inserted tr).length ≤ 2 ^ 31)
    (hk : ∀ k bytes, kmalloc k (.name bytes) = true) (hwrap : ∀ e ∈ inserted tr, e.ip.toNat + e.size.toNat < 2 ^ 64) :
    Appends kmalloc tr s where
  table := ⟨p, a, h.toLists⟩
  refused p a e hlists hfail := ⟨⟨s.mapper, s.store.skip⟩, hlists.insert_refused hfail, rfl, rfl, rfl⟩
  accepted p' a' e hlists hfail he := by
    obtain ⟨rfl, rfl⟩ := h.unique hlists.here hlists.live
    obtain ⟨q, b, σ, hins, -⟩ := h.insert hk he.name (he.index _ _ h.here h.live) hfail
    exact ⟨⟨some q, σ⟩, hins⟩
  lookup x := by
    obtain ⟨q, hq, hname⟩ := h.lookup hlen x
    refine ⟨q, hq, ?_⟩
    have hfind : ((inserted tr).find? fun e => e.Hit x) = (inserted tr).find? fun e => e.Has x := by
      refine List.find?_congr fun e he => ?_
      exact decide_eq_decide.mpr (Entry.hit_iff (hwrap e he))
    rw [hname, hfind]

theorem Mapped.run (h : Mapped s [] p a) (hk : ∀ k bytes, kmalloc k (.name bytes) = true)
    (hrun : Run (Insert kmalloc) s tr t) (hrange : Meets (fun s l => InRange s l.1) tr) :
    (∃ p a, Mapped t (inserted tr) p a) ∧ (inserted tr).length ≤ 2 ^ 31 := by
  refine hrun.history (I := fun tr s => (∃ p a, Mapped s (inserted tr) p a) ∧ (inserted tr).length ≤ 2 ^ 31)
    ⟨⟨p, a, h⟩, Nat.zero_le _⟩ (fun tr s l t _ hI he hstep => ?_) hrange
  obtain ⟨⟨p, a, h⟩, -⟩ := hI
  exact h.step hk he hstep

/-- Calls are in range as long as there are at most 2^31 of them. -/
theorem Mapped.inRange (h : Mapped s [] p a) (hk : ∀ k bytes, kmalloc k (.name bytes) = true)
    (hrun : Run (Insert kmalloc) s tr t) (hshort : ∀ l ∈ tr.map Prod.snd, l.1.name.strlen < 2 ^ 31)
    (hlen : tr.length ≤ 2 ^ 31) : Meets (fun s l => InRange s l.1) tr := by
  induction hrun with
  | nil => exact meets_nil
  | @snoc tr s' u l hrun hstep ih =>
    rw [List.length_append, List.length_singleton] at hlen
    have htr := ih (fun l hl => hshort l (by simp [hl])) (by omega)
    refine meets_snoc.mpr ⟨htr, hshort l (by simp), fun q b hq hb => ?_⟩
    obtain ⟨⟨q', b', h'⟩, -⟩ := h.run hk hrun htr
    obtain ⟨rfl, rfl⟩ := h'.unique hq hb
    have hle : (inserted tr).length ≤ tr.length := by
      simpa [inserted] using List.length_filterMap_le (fun l : Entry × Int => if l.2 = 0 then some l.1 else none)
        (tr.map Prod.snd)
    have hcur := h'.cur
    omega

/-- The table as an append-only list, from any capacity whose array has a size that does not wrap. Whichever
    arrays `kmalloc` gives, in every state of a run whose calls are in range the table is the list of the entries that
    the calls inserted. -/
theorem mapper_appends (σ₀ : Store) (hn : 1 ≤ n.toNat) (hfit : 40 * n.toNat < 2 ^ 64)
    (hk : ∀ k bytes, kmalloc k (.name bytes) = true) :
    ∃ m σ, initMapper kmalloc σ₀ n = .ok (m, σ) ∧ ∀ tr s, m ≠ none → Run (Insert kmalloc) ⟨m, σ⟩ tr s →
      Meets (fun s l => InRange s l.1) tr → (∀ e ∈ inserted tr, e.ip.toNat + e.size.toNat < 2 ^ 64) →
      Appends kmalloc tr s := by
  obtain ⟨m, σ, hinit, hmapped⟩ := initMapper_ok kmalloc σ₀ hn hfit
  refine ⟨m, σ, hinit, fun tr s hm hrun hrange hwrap => ?_⟩
  obtain ⟨p, hp⟩ := Option.ne_none_iff_exists'.mp hm
  obtain ⟨a, ha⟩ := hmapped p hp
  obtain ⟨⟨p, a, h⟩, hlen⟩ := ha.run hk hrun hrange
  exact h.appends hlen hk hwrap

/-- A call that is in range returns. -/
theorem Appends.returns (h : Appends kmalloc tr s) (he : InRange s e) : ∃ l t, Insert kmalloc s (e, l) t := by
  obtain ⟨p, a, hlists⟩ := h.table
  by_cases hfail : GrowthFails kmalloc s a
  · obtain ⟨t, ht, -⟩ := h.refused p a e hlists hfail
    exact ⟨-1, t, ht⟩
  · obtain ⟨t, ht⟩ := h.accepted p a e hlists hfail he
    exact ⟨0, t, ht⟩

end Runs

/-! ### Two symbols -/

def symbolA : Entry := ⟨⟨[0x61], by decide⟩, 0x1000, 0x100⟩

def symbolB : Entry := ⟨⟨[0x62], by decide⟩, 0x2000, 0x100⟩

/-- `kmalloc` refuses the third call. -/
def refusesThird : Kmalloc
  | 2, .items _ => false
  | _, _ => true

/-- One call, when it returns what the label says. -/
def Client.insert (kmalloc : Kmalloc) (s : Client) (l : Entry × Int) : Option Client :=
  match insertMapper kmalloc s.store s.mapper l.1.name l.1.ip l.1.size with
  | .ok (ret, mapper, store) => if ret = l.2 then some ⟨mapper, store⟩ else none
  | .error _ => none

theorem Client.insert_of {kmalloc : Kmalloc} (s : Client) (l : Entry × Int) (t : Client)
    (h : s.insert kmalloc l = some t) :
    Mapper.Insert kmalloc s l t := by
  unfold Client.insert at h
  split at h
  · next ret mapper store hins =>
    split at h
    · next hret =>
      cases h
      rw [Mapper.Insert, hins, hret]
    · cases h
  · cases h

theorem Client.run_of_exec {kmalloc : Kmalloc} {s t : Client} {ls : List (Entry × Int)}
    (h : Transition.exec (Client.insert kmalloc) ls s = some t) :
    ∃ tr, Run (Mapper.Insert kmalloc) s tr t ∧ tr.map Prod.snd = ls := by
  obtain ⟨tr, hr, hl⟩ := exec_run Client.insert_of (Run.nil : Run (Mapper.Insert kmalloc) s [] _) h
  exact ⟨tr, by simpa using hr, hl⟩

theorem refusesThird_name (k : Nat) (bytes : Addr) : refusesThird k (.name bytes) = true := by
  unfold refusesThird
  split
  · next heq => cases heq
  · rfl

/-- A table made for one. The second insert finds it full and is refused an array of two; the third gets one. -/
theorem mapper_appends_two : ∃ m σ tr s, initMapper refusesThird Store.empty 1 = .ok (m, σ) ∧
    Run (Insert refusesThird) ⟨m, σ⟩ tr s ∧ tr.map Prod.snd = [(symbolA, 0), (symbolB, -1), (symbolB, 0)] ∧
    Appends refusesThird tr s := by
  obtain ⟨m, σ, hinit, hall⟩ := mapper_appends (n := 1) Store.empty (by decide) (by decide) refusesThird_name
  obtain ⟨m', σ', hinit', hmapped⟩ := initMapper_ok (n := 1) refusesThird Store.empty (by decide) (by decide)
  obtain ⟨rfl, rfl⟩ := Prod.mk.inj (Except.ok.inj (hinit.symm.trans hinit'))
  obtain ⟨rfl, rfl⟩ :=
    Prod.mk.inj (Except.ok.inj (hinit.symm.trans (rfl : initMapper refusesThird Store.empty 1 = .ok (some 0, _))))
  obtain ⟨s, hs⟩ : ∃ s, exec (Client.insert refusesThird) [(symbolA, 0), (symbolB, -1), (symbolB, 0)]
      ⟨some 0, Store.empty.newArray { bytes := 40, cur := 0, cap := 1, item := fun _ => default }⟩ = some s := ⟨_, rfl⟩
  obtain ⟨tr, hrun, hlabels⟩ := Client.run_of_exec hs
  obtain ⟨a, ha⟩ := hmapped 0 rfl
  have hlen : tr.length = 3 := by simpa using congrArg List.length hlabels
  have hrange := ha.inRange refusesThird_name hrun (by rw [hlabels]; decide) (by omega)
  exact ⟨_, _, tr, s, hinit, hrun, hlabels, hall tr s (by simp) hrun hrange (by rw [inserted, hlabels]; decide)⟩

/-- The size of an array of 461168601842738792 items wraps to 64 bytes. The third insert is outside them. -/
theorem small_array_overrun : ∃ m σ tr s, initMapper (fun _ _ => true) Store.empty 461168601842738792 = .ok (m, σ) ∧
    Run (Insert fun _ _ => true) ⟨m, σ⟩ tr s ∧ tr.map Prod.snd = [(symbolA, 0), (symbolB, 0)] ∧
    insertMapper (fun _ _ => true) s.store s.mapper symbolA.name symbolA.ip symbolA.size = .error .outOfBounds ∧
    ¬Appends (fun _ _ => true) tr s := by
  obtain ⟨s, hs, hfault⟩ : ∃ s, exec (Client.insert fun _ _ => true) [(symbolA, 0), (symbolB, 0)]
      ⟨some 0, Store.empty.newArray { bytes := 64, cur := 0, cap := 461168601842738792, item := fun _ => default }⟩ =
      some s ∧
      insertMapper (fun _ _ => true) s.store s.mapper symbolA.name symbolA.ip symbolA.size = .error .outOfBounds :=
      ⟨_, rfl, rfl⟩
  obtain ⟨tr, hrun, hlabels⟩ := Client.run_of_exec hs
  refine ⟨_, _, tr, s, rfl, hrun, hlabels, hfault, fun h => ?_⟩
  have hrange : InRange s symbolA := by
    refine ⟨by decide, fun p a hp ha => ?_⟩
    obtain ⟨p', a', hlists⟩ := h.table
    obtain ⟨rfl, rfl⟩ := hlists.unique hp ha
    rw [hlists.cur, inserted, hlabels]
    decide
  obtain ⟨l, t, ht⟩ := h.returns hrange
  rw [Mapper.Insert, hfault] at ht
  cases ht

end StackVault.Mapper
