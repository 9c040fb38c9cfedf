import StackVault.LinkedHash
import StackVault.Theorems.Table

/-! The chains of the hash table. Each bin heads a list of entries of its own that ends in NULL, and `htSet`, whatever
    pointers it compares, does to that list what it does to the list of `Hash`. So the bins stay sorted, and each has
    for a key what was last stored under it there; what an `htSet` sets is not stored when its pair was not allocated
    and belongs at the end of a chain. -/

namespace StackVault.Linked
open Links Transition

/-- The entries `ids` are the chain of the bin. -/
def Table.Chain (t : Table) (bin : Nat) (ids : List Nat) : Prop :=
  ∃ head, t.table[bin]? = some head ∧ Segment Entry.next t.entries head ids none

/-- Every bin has a chain, and no two share an entry. -/
structure Wf (t : Table) : Prop where
  pos : 0 < t.size
  heads : t.table.length = t.size
  chain : ∀ bin < t.size, ∃ ids, t.Chain bin ids
  apart : ∀ {bin bin' ids ids'}, t.Chain bin ids → t.Chain bin' ids' → bin ≠ bin' → ids.Disjoint ids'

section View
variable {t t' : Table} {bin : Nat} {ids ids' : List Nat} {key : CString}

theorem Table.Chain.unique (h : t.Chain bin ids) (h' : t.Chain bin ids') : ids = ids' := by
  obtain ⟨head, hhead, hseg⟩ := h
  obtain ⟨head', hhead', hseg'⟩ := h'
  obtain rfl := Option.some.inj (hhead.symm.trans hhead')
  exact hseg.unique hseg'

theorem Table.Chain.lt_size (hw : Wf t) (h : t.Chain bin ids) : bin < t.size := by
  obtain ⟨head, hhead, -⟩ := h
  rw [← hw.heads]
  exact (List.getElem?_eq_some_iff.mp hhead).1

theorem Table.Chain.lt_length {i : Nat} (h : t.Chain bin ids) (hi : i ∈ ids) : i < t.entries.length := by
  obtain ⟨head, -, hseg⟩ := h
  exact hseg.lt_length hi

theorem Table.Chain.nodup (h : t.Chain bin ids) : ids.Nodup := by
  obtain ⟨head, -, hseg⟩ := h
  exact hseg.nodup

theorem view_chain (h : t.Chain bin ids) : t.view.table bin = t.pairs ids := by
  obtain ⟨head, hhead, hseg⟩ := h
  have hfollow := hseg.follow_eq hseg.length_le
  simp only [Table.view, hhead, Option.join_some, hfollow, Table.pairs, List.map_filterMap]

theorem view_outside (hbin : t.table.length ≤ bin) : t.view.table bin = [] := by
  have hnone : t.table[bin]? = none := List.getElem?_eq_none hbin
  simp only [Table.view, hnone, Option.join_none]
  cases t.entries.length <;> rfl

@[simp] theorem pairs_append : t.pairs (ids ++ ids') = t.pairs ids ++ t.pairs ids' := List.filterMap_append

theorem pairs_cons {i : Nat} {e : Entry} (h : t.entries[i]? = some e) : t.pairs (i :: ids) = e.pair :: t.pairs ids := by
  rw [Table.pairs, List.filterMap_cons_some]
  · rfl
  · rw [h]
    rfl

theorem pairs_congr (h : ∀ i ∈ ids, (t'.entries[i]?).map Entry.pair = (t.entries[i]?).map Entry.pair) :
    t'.pairs ids = t.pairs ids :=
  List.filterMap_congr h

/-- A change of the chain of one bin, which may take in the entry that was allocated last. -/
theorem Wf.replace (hw : Wf t) (hc : t.Chain bin ids) (hc' : t'.Chain bin ids') (hsize : t'.size = t.size)
    (hlen : t'.table.length = t.table.length) (hheads : ∀ b ≠ bin, t'.table[b]? = t.table[b]?)
    (hsame : ∀ i < t.entries.length, i ∉ ids → t'.entries[i]? = t.entries[i]?)
    (hids : ∀ i ∈ ids', i ∈ ids ∨ i = t.entries.length) :
    Wf t' ∧ t'.view = t.view.put bin (t'.pairs ids') := by
  have hlt := hc.lt_size hw
  have hentry : ∀ {b js}, b ≠ bin → t.Chain b js → ∀ i ∈ js, t'.entries[i]? = t.entries[i]? := by
    intro b js hb hj i hi
    exact hsame i (hj.lt_length hi) fun hi' => (hw.apart hj hc hb) hi hi'
  have hmove : ∀ {b js}, b ≠ bin → t.Chain b js → t'.Chain b js := by
    rintro b js hb hj
    obtain ⟨head, hhead, hseg⟩ := id hj
    exact ⟨head, (hheads b hb).trans hhead, hseg.congr fun i hi => by rw [hentry hb hj i hi]⟩
  have hback : ∀ {b js}, b ≠ bin → t'.Chain b js → t.Chain b js := by
    rintro b js hb hj
    obtain ⟨head, hhead, -⟩ := id hj
    have hlt : b < t.size := by
      rw [← hw.heads, ← hlen]
      exact (List.getElem?_eq_some_iff.mp hhead).1
    obtain ⟨ks, hk⟩ := hw.chain b hlt
    obtain rfl := hj.unique (hmove hb hk)
    exact hk
  have hapart : ∀ {b js}, b ≠ bin → t'.Chain b js → js.Disjoint ids' := by
    intro b js hb hj i hi hi'
    rcases hids i hi' with hi' | rfl
    · exact hw.apart (hback hb hj) hc hb hi hi'
    · exact absurd ((hback hb hj).lt_length hi) (Nat.lt_irrefl _)
  refine ⟨⟨hsize ▸ hw.pos, by rw [hlen, hw.heads, hsize], fun b hb => ?_, ?_⟩, ?_⟩
  · by_cases hbin : b = bin
    · exact ⟨ids', hbin ▸ hc'⟩
    · obtain ⟨js, hj⟩ := hw.chain b (hsize ▸ hb)
      exact ⟨js, hmove hbin hj⟩
  · intro b b' js js' hj hj' hne
    by_cases hb : b = bin
    · obtain rfl := (hb ▸ hj).unique hc'
      exact (hapart (fun h => hne (hb.trans h.symm)) hj').symm
    · by_cases hb' : b' = bin
      · obtain rfl := (hb' ▸ hj').unique hc'
        exact hapart hb hj
      · exact hw.apart (hback hb hj) (hback hb' hj') hne
  · have htable : t'.view.table = (t.view.put bin (t'.pairs ids')).table := by
      funext b
      simp only [Hashtable.put]
      split_ifs with hb
      · rw [hb]
        exact view_chain hc'
      · by_cases hlt : b < t.size
        · obtain ⟨js, hj⟩ := hw.chain b hlt
          rw [view_chain hj, view_chain (hmove hb hj)]
          exact pairs_congr fun i hi => by rw [hentry hb hj i hi]
        · rw [view_outside, view_outside]
          · rw [hw.heads]
            exact Nat.not_lt.mp hlt
          · rw [hlen, hw.heads]
            exact Nat.not_lt.mp hlt
    exact congrArg₂ Hashtable.mk hsize htable

end View

/-! ### The walk -/

/-- The entry is one that the walk goes past. -/
def Table.past (t : Table) (key : CString) (i : Nat) : Bool := (t.entries[i]?).any fun e => StackVault.past key e.pair

section Walk
variable {t : Table} {bin fuel : Nat} {ids : List Nat} {key : CString} {p last : Option Nat}

theorem walk_eq (h : Segment Entry.next t.entries p ids none) : t.walk key fuel last p =
    if (ids.takeWhile (t.past key)).length < fuel then
      some (.ok ((ids.takeWhile (t.past key)).getLast?.or last, (ids.dropWhile (t.past key)).head?))
    else none := by
  induction ids generalizing p fuel last with
  | nil =>
    obtain rfl : p = none := h
    cases fuel with
    | zero => rfl
    | succ fuel => simp [Table.walk]
  | cons i ids ih =>
    obtain ⟨rfl, e, he, hrest⟩ := h
    have hpast : t.past key i = decide (0 < strcmp key e.key) := by
      rw [Table.past, he]
      rfl
    cases fuel with
    | zero => simp [Table.walk]
    | succ fuel =>
      have hderef : t.deref (some i) = .ok e := by
        simp only [Table.deref, he]
      simp only [Table.walk, hderef]
      by_cases hlt : 0 < strcmp key e.key
      · rw [if_pos hlt, ih hrest, List.takeWhile_cons_of_pos (by simpa [hpast] using hlt),
          List.dropWhile_cons_of_pos (by simpa [hpast] using hlt)]
        simp only [List.length_cons, Nat.add_lt_add_iff_right, List.getLast?_cons]
        cases (ids.takeWhile (t.past key)).getLast? <;> rfl
      · rw [if_neg hlt, List.takeWhile_cons_of_neg (by simpa [hpast] using hlt),
          List.dropWhile_cons_of_neg (by simpa [hpast] using hlt)]
        simp

theorem pairs_walk (key : CString) (h : Segment Entry.next t.entries p ids none) :
    t.pairs (ids.takeWhile (t.past key)) = (t.pairs ids).takeWhile (StackVault.past key) ∧
      t.pairs (ids.dropWhile (t.past key)) = (t.pairs ids).dropWhile (StackVault.past key) := by
  induction ids generalizing p with
  | nil => exact ⟨rfl, rfl⟩
  | cons i ids ih =>
    obtain ⟨rfl, e, he, hrest⟩ := h
    have hpast : t.past key i = StackVault.past key e.pair := by
      rw [Table.past, he]
      rfl
    obtain ⟨htake, hdrop⟩ := ih hrest
    rw [pairs_cons he]
    by_cases hlt : StackVault.past key e.pair
    · rw [List.takeWhile_cons_of_pos hlt, List.dropWhile_cons_of_pos hlt, List.takeWhile_cons_of_pos (hpast.trans hlt),
        List.dropWhile_cons_of_pos (hpast.trans hlt), pairs_cons he]
      exact ⟨congrArg (e.pair :: ·) htake, hdrop⟩
    · rw [List.takeWhile_cons_of_neg hlt, List.dropWhile_cons_of_neg hlt, List.takeWhile_cons_of_neg (hpast ▸ hlt),
        List.dropWhile_cons_of_neg (hpast ▸ hlt), pairs_cons he]
      exact ⟨rfl, rfl⟩

/-- The walk splits the chain where `Hash` does. -/
theorem Table.Chain.split (h : t.Chain bin ids) (key : CString) :
    ∃ head pre post, t.table[bin]? = some head ∧ ids = pre ++ post ∧
    t.pairs pre = (t.view.table bin).takeWhile (StackVault.past key) ∧
    t.pairs post = (t.view.table bin).dropWhile (StackVault.past key) ∧
    ∀ fuel, t.walk key fuel none head = if pre.length < fuel then some (.ok (pre.getLast?, post.head?)) else none := by
  obtain ⟨head, hhead, hseg⟩ := id h
  obtain ⟨htake, hdrop⟩ := pairs_walk key hseg
  rw [view_chain h]
  refine ⟨head, _, _, hhead, List.takeWhile_append_dropWhile.symm, htake, hdrop, fun fuel => ?_⟩
  rw [walk_eq hseg, Option.or_none]

end Walk

/-! ### Linking in a pair -/

/-- The pair is linked in, as a new entry, between the two parts of the chain. -/
structure Grown (t t' : Table) (bin : Nat) (pre post : List Nat) (pair : HtEntry) : Prop where
  size_eq : t'.size = t.size
  length_eq : t'.table.length = t.table.length
  heads_eq : ∀ b ≠ bin, t'.table[b]? = t.table[b]?
  head_eq : t'.table[bin]? = some (pre ++ [t.entries.length]).head?
  new : t'.entries[t.entries.length]? = some { key := pair.key, value := pair.value, next := post.head? }
  old : ∀ i < t.entries.length, pre.getLast? ≠ some i → t'.entries[i]? = t.entries[i]?
  last : ∀ i, pre.getLast? = some i →
    t'.entries[i]? = (t.entries[i]?).map fun e => { e with next := some t.entries.length }

section Grow
variable {t t' : Table} {bin : Nat} {pre post : List Nat} {pair : HtEntry}

theorem Grown.chain (hc : t.Chain bin (pre ++ post)) (h : Grown t t' bin pre post pair) :
    t'.Chain bin (pre ++ t.entries.length :: post) := by
  obtain ⟨head, -, hseg⟩ := id hc
  obtain ⟨-, -, hdisj⟩ := List.nodup_append'.mp hc.nodup
  obtain ⟨q, hpre, hpost⟩ := segment_append.mp hseg
  have hpost' : Segment Entry.next t'.entries post.head? post none := by
    rw [← hpost.head_eq]
    refine hpost.congr fun i hi => ?_
    rw [h.old i (hpost.lt_length hi) fun hlast => hdisj (List.mem_of_getLast? hlast) hi]
  refine ⟨_, h.head_eq, ?_⟩
  rcases List.eq_nil_or_concat pre with rfl | ⟨pre, l, rfl⟩
  · exact ⟨rfl, _, h.new, hpost'⟩
  · -- The last entry before the new one gets its link; those before it keep theirs.
    have hlast : (pre ++ [l]).getLast? = some l := by simp
    rw [List.concat_eq_append] at *
    obtain ⟨r, hfront, hl⟩ := segment_append.mp hpre
    obtain ⟨rfl, hnext⟩ := segment_singleton.mp hl
    have hnodup : (pre ++ [l]).Nodup := (List.nodup_append'.mp hc.nodup).1
    have hl' : Segment Entry.next t'.entries (some l) [l] (some t.entries.length) := by
      obtain ⟨e, he, -⟩ := Option.map_eq_some_iff.mp hnext
      refine segment_singleton.mpr ⟨rfl, ?_⟩
      rw [h.last l hlast, he]
      rfl
    have hfront' : Segment Entry.next t'.entries head pre (some l) := hfront.congr fun i hi => by
      have hne : (pre ++ [l]).getLast? ≠ some i := by
        rw [hlast]
        rintro hli
        obtain rfl := Option.some.inj hli
        exact (List.nodup_append'.mp hnodup).2.2 hi List.mem_cons_self
      rw [h.old i (hfront.lt_length hi) hne]
    have hhead : (pre ++ [l] ++ [t.entries.length]).head? = head := by
      rw [hseg.head_eq]
      cases pre <;> rfl
    rw [hhead]
    exact segment_append.mpr ⟨_, segment_append.mpr ⟨_, hfront', hl'⟩, rfl, _, h.new, hpost'⟩

theorem Grown.pairs (hc : t.Chain bin (pre ++ post)) (h : Grown t t' bin pre post pair) :
    t'.pairs (pre ++ t.entries.length :: post) = t.pairs pre ++ pair :: t.pairs post := by
  obtain ⟨-, -, hdisj⟩ := List.nodup_append'.mp hc.nodup
  rw [pairs_append, pairs_cons h.new]
  have hpre : t'.pairs pre = t.pairs pre := pairs_congr fun i hi => by
    by_cases hlast : pre.getLast? = some i
    · rw [h.last i hlast]
      cases t.entries[i]? <;> rfl
    · rw [h.old i (hc.lt_length (List.mem_append_left post hi)) hlast]
  have hpost : t'.pairs post = t.pairs post := pairs_congr fun i hi => by
    rw [h.old i (hc.lt_length (List.mem_append_right pre hi)) fun hlast => hdisj (List.mem_of_getLast? hlast) hi]
  rw [hpre, hpost]
  rfl

theorem Grown.view (hw : Wf t) (hc : t.Chain bin (pre ++ post)) (h : Grown t t' bin pre post pair) :
    Wf t' ∧ t'.view = t.view.put bin (t.pairs pre ++ pair :: t.pairs post) := by
  rw [← h.pairs hc]
  refine hw.replace hc (h.chain hc) h.size_eq h.length_eq h.heads_eq (fun i hi hout => ?_) fun i hi => ?_
  · exact h.old i hi fun hlast => hout (List.mem_append_left post (List.mem_of_getLast? hlast))
  · simp only [List.mem_append, List.mem_cons] at hi ⊢
    rcases hi with hi | rfl | hi
    · exact Or.inl (Or.inl hi)
    · exact Or.inr rfl
    · exact Or.inl (Or.inr hi)

variable {malloc : Nat → Bool} {key : CString} {value : List Byte} {head : Option Nat}

theorem update_eq_ok {p : Option Nat} {f : Entry → Entry} : t.update p f = .ok t' ↔
    ∃ i e, p = some i ∧ t.entries[i]? = some e ∧ t' = { t with entries := t.entries.set i (f e) } := by
  cases p with
  | none => simp [Table.update]
  | some i => cases he : t.entries[i]? <;> simp [Table.update, he, eq_comm]

theorem hasKey_some {i : Nat} {e : Entry} (key : CString) (h : t.entries[i]? = some e) :
    t.hasKey key (some i) = .ok (decide (strcmp key e.key = 0)) := by
  simp only [Table.hasKey, Table.deref, h]
  rfl

/-- The entry at which the walk ended has the key: it gets the value. -/
theorem replaced_view {i : Nat} {e : Entry} (hw : Wf t) (hc : t.Chain bin (pre ++ i :: post))
    (he : t.entries[i]? = some e) :
    Wf { t with entries := t.entries.set i { e with value } } ∧
      Table.view { t with entries := t.entries.set i { e with value } } =
      t.view.put bin (t.pairs pre ++ ({ e.pair with value } : HtEntry) :: t.pairs post) := by
  have hi : i < t.entries.length := (List.getElem?_eq_some_iff.mp he).1
  have hother : ∀ j ≠ i, (t.entries.set i { e with value })[j]? = t.entries[j]? :=
    fun j hj => List.getElem?_set_ne (Ne.symm hj)
  have hself : (t.entries.set i { e with value })[i]? = some { e with value } := List.getElem?_set_self hi
  have hc' : Table.Chain { t with entries := t.entries.set i { e with value } } bin (pre ++ i :: post) := by
    obtain ⟨head, hhead, hseg⟩ := hc
    refine ⟨head, hhead, hseg.congr fun j _ => ?_⟩
    by_cases hj : j = i
    · rw [hj, hself, he]
      rfl
    · rw [hother j hj]
  obtain ⟨hpre, hnodup, hdisj⟩ := List.nodup_append'.mp hc.nodup
  obtain ⟨hpost, -⟩ := List.nodup_cons.mp hnodup
  have hkept : ∀ ids, i ∉ ids → Table.pairs { t with entries := t.entries.set i { e with value } } ids = t.pairs ids :=
    fun ids hids => pairs_congr fun j hj => by rw [hother j fun hji => hids (hji ▸ hj)]
  have hpairs : Table.pairs { t with entries := t.entries.set i { e with value } } (pre ++ i :: post) =
      t.pairs pre ++ ({ e.pair with value } : HtEntry) :: t.pairs post := by
    rw [pairs_append, pairs_cons hself, hkept pre fun hpre => hdisj hpre List.mem_cons_self, hkept post hpost]
    rfl
  rw [← hpairs]
  exact hw.replace hc hc' rfl rfl (fun _ _ => rfl) (fun j _ hj => hother j fun hji => hj (hji ▸ by simp)) fun j hj =>
    Or.inl hj

theorem grown_front (hw : Wf t) (hbin : bin < t.size) : Grown t
    { t with table := t.table.set bin (some t.entries.length),
             entries := t.entries ++ [{ key, value, next := post.head? }] }
    bin [] post { key, value } where
  size_eq := rfl
  length_eq := List.length_set
  heads_eq b hb := List.getElem?_set_ne (Ne.symm hb)
  head_eq := List.getElem?_set_self (hw.heads ▸ hbin)
  new := List.getElem?_concat_length
  old i hi _ := List.getElem?_append_left hi
  last i hi := by cases hi

theorem grown_after {l : Nat} {e : Entry} (hc : t.Chain bin (pre ++ post))
    (hl : pre.getLast? = some l) (he : t.entries[l]? = some e) : Grown t
    { t with
      entries := (t.entries ++ [({ key, value, next := post.head? } : Entry)]).set l
        { e with next := some t.entries.length } }
    bin pre post { key, value } where
  size_eq := rfl
  length_eq := rfl
  heads_eq _ _ := rfl
  head_eq := by
    obtain ⟨head', hhead', hseg⟩ := hc
    rw [hhead', hseg.head_eq]
    cases pre with
    | nil => cases hl
    | cons j pre => rfl
  new := by
    have hlt := (List.getElem?_eq_some_iff.mp he).1
    rw [List.getElem?_set_ne (Nat.ne_of_lt hlt)]
    exact List.getElem?_concat_length
  old i hi hne := by
    rw [List.getElem?_set_ne fun hli => hne (hl.trans (congrArg some hli)), List.getElem?_append_left hi]
  last i hi := by
    obtain rfl := Option.some.inj (hl.symm.trans hi)
    have hlt := (List.getElem?_eq_some_iff.mp he).1
    rw [List.getElem?_set_self (by simp; omega), he]
    rfl

theorem update_new {x : Entry} {f : Entry → Entry} :
    Table.update { t with entries := t.entries ++ [x] } (some t.entries.length) f =
    .ok { t with entries := t.entries ++ [f x] } := by
  refine update_eq_ok.mpr ⟨_, x, rfl, List.getElem?_concat_length, ?_⟩
  simp

/-- Writing NULL to the link of the last entry changes nothing. -/
theorem update_end (hc : t.Chain bin pre) (h : t.update pre.getLast? (fun e => { e with next := none }) = .ok t') :
    t' = t := by
  obtain ⟨l, e, hl, he, rfl⟩ := update_eq_ok.mp h
  obtain ⟨head, -, hseg⟩ := hc
  obtain ⟨pre, rfl⟩ := List.getLast?_eq_some_iff.mp hl
  obtain ⟨q, -, hlast⟩ := segment_append.mp hseg
  obtain ⟨-, hnext⟩ := segment_singleton.mp hlast
  rw [he] at hnext
  have hnone : e.next = none := Option.some.inj hnext
  have hself : t.entries.set l { e with next := none } = t.entries := by
    obtain ⟨hlt, heq⟩ := List.getElem?_eq_some_iff.mp he
    rw [← hnone]
    show t.entries.set l e = t.entries
    rw [← heq, List.set_getElem_self]
  rw [hself]

/-- The pointers agree exactly when the walk has not moved. -/
theorem Table.Chain.front_iff (hc : t.Chain bin (pre ++ post)) (hhead : t.table[bin]? = some head) :
    post.head? = head ↔ pre = [] := by
  obtain ⟨head', hhead', hseg⟩ := id hc
  obtain rfl := Option.some.inj (hhead.symm.trans hhead')
  rw [hseg.head_eq]
  cases pre with
  | nil => simp
  | cons j pre =>
    have hj := (List.nodup_cons.mp hc.nodup).1
    exact iff_of_false (fun hjp => hj (List.mem_append_right pre (List.mem_of_head? hjp))) (List.cons_ne_nil j pre)

/-- No entry has the key: the pair is linked in, or it is lost. -/
theorem grow_inv (hw : Wf t) (hhead : t.table[bin]? = some head) (hc : t.Chain bin (pre ++ post))
    (hkey : t.hasKey key post.head? = .ok false)
    (h : t.grow malloc key value bin head pre.getLast? post.head? = .ok t') :
    match StackVault.htNewpair malloc key value with
    | none => pre ≠ [] ∧ post = [] ∧ t' = t
    | some pair => Grown t t' bin pre post pair := by
  have hfront := hc.front_iff hhead
  simp only [Table.grow, hkey, bind, Except.bind, Bool.false_eq_true, if_false, hfront] at h
  by_cases hmalloc : malloc 0 ∧ malloc 1 ∧ malloc 2
  · simp only [StackVault.htNewpair, if_pos hmalloc]
    simp only [htNewpair, if_pos hmalloc, update_new] at h
    by_cases hpre : pre = []
    · rw [if_pos hpre] at h
      obtain rfl := Except.ok.inj h
      subst hpre
      exact grown_front hw (hc.lt_size hw)
    · rw [if_neg hpre] at h
      have hlast :
          Table.update { t with entries := t.entries ++ [({ key, value, next := post.head? } : Entry)] } pre.getLast?
          (fun e => { e with next := some t.entries.length }) = .ok t' := by
        split_ifs at h with hpost
        · rwa [hpost]
        · exact h
      obtain ⟨l, e, hl, he, rfl⟩ := update_eq_ok.mp hlast
      have hlt := hc.lt_length (List.mem_append_left post (List.mem_of_getLast? hl))
      rw [List.getElem?_append_left hlt] at he
      exact grown_after hc hl he
  · simp only [StackVault.htNewpair, if_neg hmalloc]
    simp only [htNewpair, if_neg hmalloc] at h
    split_ifs at h with hpre hpost
    · cases h
    · obtain rfl := List.head?_eq_none_iff.mp hpost
      rw [List.append_nil] at hc
      exact ⟨hpre, rfl, update_end hc h⟩
    · cases h

/-- `htSet` does to the chain what it does to the list of `Hash`. -/
theorem grow_view (hw : Wf t) (hhead : t.table[bin]? = some head) (hc : t.Chain bin (pre ++ post))
    (h : t.grow malloc key value bin head pre.getLast? post.head? = .ok t') :
    ∃ chain, htSetChain malloc key value (t.pairs pre) (t.pairs post) = .ok chain ∧ Wf t' ∧
    t'.view = t.view.put bin chain := by
  cases post with
  | nil =>
    have hinv := grow_inv hw hhead hc rfl h
    cases hpair : StackVault.htNewpair malloc key value with
    | none =>
      rw [hpair] at hinv
      obtain ⟨hpre, -, rfl⟩ := hinv
      have hview := view_chain hc
      rw [List.append_nil] at hview hc
      have hne : ¬(t'.pairs pre).isEmpty := by
        obtain ⟨i, pre, rfl⟩ := List.exists_cons_of_ne_nil hpre
        obtain ⟨head, -, hseg⟩ := hc
        obtain ⟨e, he⟩ := hseg.exists_node List.mem_cons_self
        rw [pairs_cons he]
        simp
      refine ⟨t'.pairs pre, ?_, hw, ?_⟩
      · simp only [Table.pairs, List.filterMap_nil, htSetChain, hpair]
        exact if_neg hne
      · rw [← hview]
        exact (t'.view.put_self bin).symm
    | some pair =>
      rw [hpair] at hinv
      exact ⟨_, by simp only [Table.pairs, List.filterMap_nil, htSetChain, hpair], Grown.view hw hc hinv⟩
  | cons i rest =>
    obtain ⟨e, he⟩ : ∃ e, t.entries[i]? = some e := by
      obtain ⟨head, -, hseg⟩ := hc
      exact hseg.exists_node (List.mem_append_right pre List.mem_cons_self)
    have hkey := hasKey_some key he
    rw [pairs_cons he]
    by_cases hfound : strcmp key e.key = 0
    · simp only [Table.grow, List.head?_cons, hkey, hfound, decide_true, bind, Except.bind, if_true] at h
      split_ifs at h with hmalloc
      obtain ⟨j, e', hj, he', rfl⟩ := update_eq_ok.mp h
      obtain rfl := Option.some.inj hj
      obtain rfl := Option.some.inj (he.symm.trans he')
      refine ⟨_, ?_, replaced_view hw hc he⟩
      simp only [htSetChain, Entry.pair, if_pos hfound, if_pos hmalloc]
    · rw [decide_eq_false hfound] at hkey
      have hinv := grow_inv hw hhead hc hkey h
      cases hpair : StackVault.htNewpair malloc key value with
      | none =>
        rw [hpair] at hinv
        cases hinv.2.1
      | some pair =>
        rw [hpair] at hinv
        refine ⟨t.pairs pre ++ pair :: t.pairs (i :: rest), ?_, Grown.view hw hc hinv⟩
        rw [pairs_cons he, htSetChain]
        simp only [Entry.pair, if_neg hfound, hpair]

end Grow

/-! ### The calls -/

section Calls
variable {t t' : Table} {n : Int} {malloc : Nat → Bool} {env : HashEnv} {fuel bin : Nat} {key : CString}
  {value : List Byte} {hashval : BitVec 64}

theorem htCreate_view (h : htCreate malloc n = some t) : StackVault.htCreate malloc n = some t.view ∧ Wf t := by
  unfold htCreate at h
  split_ifs at h with hn hmalloc
  obtain rfl := Option.some.inj h
  have hempty : ∀ {bin ids},
      Table.Chain { size := n.toNat, table := List.replicate n.toNat none, entries := [] } bin ids → ids = [] := by
    rintro bin ids ⟨head, hhead, hseg⟩
    obtain rfl : head = none := List.eq_of_mem_replicate (List.mem_of_getElem? hhead)
    exact hseg.unique rfl
  refine ⟨?_, by show 0 < n.toNat; omega, List.length_replicate, fun bin hbin => ?_, fun h _ _ => ?_⟩
  · rw [StackVault.htCreate, if_neg hn, if_pos hmalloc]
    rfl
  · exact ⟨[], none, List.getElem?_replicate_of_lt hbin, rfl⟩
  · rw [hempty h]
    exact List.disjoint_nil_left _

theorem htHash_lt (hsize : 0 < t.size) (h : htHash fuel hashval key t.size = some bin) : bin < t.size := by
  obtain ⟨r, -, rfl⟩ := Option.map_eq_some_iff.mp h
  exact Nat.mod_lt _ hsize

/-- A call of `htSet` is one of `Hash`. -/
theorem htSet_view (hw : Wf t) (h : htSet env fuel key value t = some (.ok t')) :
    StackVault.htSet env fuel key value t.view = some (.ok t'.view) ∧ Wf t' := by
  obtain ⟨bin, hbin, h⟩ := Option.bind_eq_some_iff.mp h
  obtain ⟨ids, hc⟩ := hw.chain bin (htHash_lt hw.pos hbin)
  obtain ⟨head, pre, post, hhead, rfl, hpre, hpost, hwalk⟩ := hc.split key
  simp only [hhead] at h
  obtain ⟨walked, hwalked, h⟩ := Option.map_eq_some_iff.mp h
  rw [hwalk] at hwalked
  split_ifs at hwalked
  obtain rfl := Option.some.inj hwalked
  obtain ⟨chain, hchain, hw', hview⟩ := grow_view hw hhead hc h
  refine ⟨?_, hw'⟩
  have hhash : htHash fuel env.hashval key t.view.size = some bin := hbin
  rw [hpre, hpost] at hchain
  rw [StackVault.htSet, hhash, Option.map_some, hchain, hview]
  rfl

/-- What `htGet` returns for the part of the chain that its loop has not gone past. -/
def found (key : CString) : List HtEntry → Option (List Byte)
  | [] => none
  | pair :: _ => if strcmp key pair.key ≠ 0 then none else some pair.value

theorem found_eq {ids : List Nat} (hids : ∀ i ∈ ids, ∃ e, t.entries[i]? = some e) :
    (do if ← t.hasKey key ids.head? then return some (← t.deref ids.head?).value else return none :
      Except Fault (Option (List Byte))) =
      .ok (found key (t.pairs ids)) := by
  cases ids with
  | nil => rfl
  | cons i ids =>
    obtain ⟨e, he⟩ := hids i List.mem_cons_self
    have hderef : t.deref (some i) = .ok e := by
      simp only [Table.deref, he]
    rw [List.head?_cons, hasKey_some key he, hderef, pairs_cons he]
    by_cases hkey : strcmp key e.key = 0
    · simp [hkey, found, Entry.pair, bind, Except.bind, pure, Except.pure]
    · simp [hkey, found, Entry.pair, bind, Except.bind, pure, Except.pure]

/-- And so is one of `htGet`, which comes to an end where that of `Hash` does. -/
theorem htGet_view (hw : Wf t) {r : Option (List Byte)} : (∃ fuel, htGet hashval fuel key t = some (.ok r)) ↔
    ∃ fuel, StackVault.htGet hashval fuel key t.view = some r := by
  -- Both sides hash the key; the rest depends on the bin only.
  have hget : ∀ {bin}, bin < t.size → ∃ k r', ∀ fuel, htHash fuel hashval key t.size = some bin →
      StackVault.htGet hashval fuel key t.view = some r' ∧
      htGet hashval fuel key t = if k < fuel then some (.ok r') else none := by
    intro bin hlt
    obtain ⟨ids, hc⟩ := hw.chain bin hlt
    obtain ⟨head, pre, post, hhead, rfl, -, hpost, hwalk⟩ := hc.split key
    have hids : ∀ i ∈ post, ∃ e, t.entries[i]? = some e := by
      obtain ⟨head, -, hseg⟩ := hc
      exact fun i hi => hseg.exists_node (List.mem_append_right pre hi)
    refine ⟨pre.length, found key (t.pairs post), fun fuel hbin => ⟨?_, ?_⟩⟩
    · have hhash : htHash fuel hashval key t.view.size = some bin := hbin
      rw [StackVault.htGet, hhash, Option.map_some, ← hpost]
      rfl
    · rw [htGet, hbin, Option.bind_some, hhead]
      simp only [hwalk]
      split_ifs
      · exact congrArg some (found_eq hids)
      · rfl
  constructor
  · rintro ⟨fuel, h⟩
    obtain ⟨bin, hbin, -⟩ := Option.bind_eq_some_iff.mp h
    obtain ⟨k, r', hr⟩ := hget (htHash_lt hw.pos hbin)
    obtain ⟨hview, hlinked⟩ := hr fuel hbin
    rw [hlinked] at h
    split_ifs at h
    obtain rfl := Except.ok.inj (Option.some.inj h)
    exact ⟨fuel, hview⟩
  · rintro ⟨fuel, h⟩
    obtain ⟨bin, hbin, -⟩ := Option.map_eq_some_iff.mp h
    obtain ⟨k, r', hr⟩ := hget (htHash_lt hw.pos hbin)
    obtain rfl := Option.some.inj ((hr fuel hbin).1.symm.trans h)
    refine ⟨max fuel (k + 1), ?_⟩
    rw [(hr _ (htHash_mono (Nat.le_max_left fuel (k + 1)) hbin)).2,
      if_pos (Nat.lt_of_succ_le (Nat.le_max_right fuel (k + 1)))]

end Calls

/-! ### Keys whose hash ends -/

/-- The key is shorter than `2 ^ 32` bytes, or the hash is `ULONG_MAX` at its start or after one byte. The index `i` of
    the loop wraps around before it gets to the end of a longer key. -/
def HashEnds (hashval : BitVec 64) (key : CString) : Prop :=
  key.strlen < 2 ^ 32 ∨ hashval = BitVec.allOnes 64 ∨ (key.bytes.head? = some 0xff ∧ hashval <<< 8 = 0)

section Ends
variable {hashval : BitVec 64} {key : CString} {size fuel : Nat}

theorem toNat_shift (hashval : BitVec 64) (b : Byte) : ((hashval <<< 8) + b.signExtend 64).toNat % 256 = b.toNat ∧
    (((hashval <<< 8) + b.signExtend 64) = BitVec.allOnes 64 ↔ b = 0xff ∧ hashval <<< 8 = 0) := by
  have hshift : (hashval <<< 8).toNat = hashval.toNat * 2 ^ 8 % 2 ^ 64 := by
    rw [BitVec.toNat_shiftLeft, Nat.shiftLeft_eq]
  have hsign : (b.signExtend 64).toNat = b.toNat + if 128 ≤ b.toNat then 2 ^ 64 - 2 ^ 8 else 0 := by
    rw [BitVec.toNat_signExtend, BitVec.msb_eq_decide, BitVec.toNat_setWidth]
    have hb := b.isLt
    simp only [decide_eq_true_eq]
    rw [Nat.mod_eq_of_lt (by omega)]
  have hb := b.isLt
  rw [← BitVec.toNat_inj, ← BitVec.toNat_inj, ← BitVec.toNat_inj, BitVec.toNat_add, hshift, hsign, BitVec.toNat_allOnes]
  have h255 : (0xff : Byte).toNat = 255 := rfl
  have h0 : (0 : BitVec 64).toNat = 0 := rfl
  rw [h255, h0]
  split_ifs <;> omega

theorem byte_ne_zero (key : CString) (i : Fin key.bytes.length) : (key.bytes.get i).toNat ≠ 0 := fun h0 => by
  have hzero : key.bytes.get i = 0 := BitVec.eq_of_toNat_eq h0
  exact key.no_nul (hzero ▸ List.get_mem _ _)

/-- A hash that does not end in a NUL byte does not come to `ULONG_MAX` any more. -/
theorem htHashLoop_forever (hlong : 2 ^ 32 ≤ key.strlen) (hlow : hashval.toNat % 256 ≠ 0)
    (hne : hashval ≠ BitVec.allOnes 64) (i : BitVec 32) :
    htHashLoop key fuel hashval i = none := by
  induction fuel generalizing hashval i with
  | zero => rfl
  | succ fuel ih =>
    have hi : i.toNat < key.strlen := Nat.lt_of_lt_of_le i.isLt hlong
    have hlt : hashval < BitVec.allOnes 64 := BitVec.lt_allOnes_iff.mpr hne
    obtain ⟨hmod, hones⟩ := toNat_shift hashval (key.bytes.get ⟨i.toNat, hi⟩)
    rw [htHashLoop, dif_pos ⟨hlt, hi⟩]
    refine ih ?_ ?_ _
    · rw [hmod]
      exact byte_ne_zero key _
    · intro hall
      have hzero := congrArg BitVec.toNat (hones.mp hall).2
      rw [BitVec.toNat_shiftLeft, Nat.shiftLeft_eq, show (0 : BitVec 64).toNat = 0 from rfl] at hzero
      omega

theorem picks_iff : (∃ bin, Picks size hashval key bin) ↔ HashEnds hashval key := by
  constructor
  · rintro ⟨bin, fuel, h⟩
    obtain ⟨r, hr, -⟩ := Option.map_eq_some_iff.mp h
    by_cases hlong : key.strlen < 2 ^ 32
    · exact Or.inl hlong
    · have hpos : (0 : BitVec 32).toNat < key.strlen := Nat.lt_of_lt_of_le (by decide) (Nat.not_lt.mp hlong)
      by_cases hones : hashval = BitVec.allOnes 64
      · exact Or.inr (Or.inl hones)
      · cases fuel with
        | zero => cases hr
        | succ fuel =>
          rw [htHashLoop, dif_pos ⟨BitVec.lt_allOnes_iff.mpr hones, hpos⟩] at hr
          obtain ⟨hmod, hall⟩ := toNat_shift hashval (key.bytes.get ⟨0, hpos⟩)
          by_cases hone : (hashval <<< 8) + (key.bytes.get ⟨0, hpos⟩).signExtend 64 = BitVec.allOnes 64
          · obtain ⟨hff, hzero⟩ := hall.mp hone
            refine Or.inr (Or.inr ⟨?_, hzero⟩)
            rw [← hff, List.head?_eq_getElem?]
            exact List.getElem?_eq_getElem hpos
          · have hlow := byte_ne_zero key ⟨0, hpos⟩
            rw [← hmod] at hlow
            cases (htHashLoop_forever (Nat.not_lt.mp hlong) hlow hone (0 + 1)).symm.trans hr
  · rintro (hshort | rfl | ⟨hff, hzero⟩)
    · exact exists_picks hshort size hashval
    · exact ⟨_, 1, rfl⟩
    · have hpos : 0 < key.bytes.length := by
        cases hbytes : key.bytes with
        | nil => simp [hbytes] at hff
        | cons b rest => exact Nat.succ_pos _
      have hget : key.bytes.get ⟨0, hpos⟩ = 0xff := by
        rw [List.head?_eq_getElem?, List.getElem?_eq_getElem hpos] at hff
        exact Option.some.inj hff
      have hloop : htHashLoop key 2 hashval 0 = some (BitVec.allOnes 64) := by
        by_cases hones : hashval = BitVec.allOnes 64
        · rw [hones]
          rfl
        · have hall := (toNat_shift hashval (key.bytes.get ⟨0, hpos⟩)).2.mpr ⟨hget, hzero⟩
          rw [htHashLoop, dif_pos ⟨BitVec.lt_allOnes_iff.mpr hones, hpos⟩]
          exact (congrArg (fun h => htHashLoop key 1 h (0 + 1)) hall).trans rfl
      exact ⟨_, 2, Option.map_eq_some_iff.mpr ⟨_, hloop, rfl⟩⟩

end Ends
/-! ### Runs of `htSet` -/

def SetStep (t : Table) (c : SetCall) (t' : Table) : Prop :=
  ∃ fuel, htSet c.toHashEnv fuel c.key c.value t = some (.ok t')

/-- The value that the bin has for the key. -/
def Table.binding (t : Table) (bin : Nat) (key : CString) : Option (List Byte) :=
  ((t.view.table bin).find? fun e => e.key = key).map HtEntry.value

/-- After the calls `cs`: every chain ends, in ascending order; a further `htSet` changes one bin, and there the binding
    of its key; and an `htGet` selects a bin and returns what was last set into it under the key, or NULL. -/
structure BinLaw (n : Nat) (cs : List SetCall) (t : Table) (hashval : BitVec 64) (key : CString) : Prop where
  chains : ∀ bin < n, ∃ ids, t.Chain bin ids ∧ (t.pairs ids).Pairwise fun d e => strcmp d.key e.key < 0
  confined : ∀ c t', SetStep t c t' → ∃ bin < n, Picks n c.hashval c.key bin ∧
    (∀ b ≠ bin, t'.view.table b = t.view.table b) ∧ ∀ k ≠ c.key, t'.binding bin k = t.binding bin k
  held : ∃ bin < n, Picks n hashval key bin ∧ ∃ fuel r, htGet hashval fuel key t = some (.ok r) ∧
    ∀ v, r = some v ↔ ∃ c, LastOf (SetCall.SetsIn n key bin) cs c ∧ c.value = v

/-- In the bin that the hash selects, the last value set under the key was stored there. -/
def Kept (n : Nat) (tr : List (Table × SetCall)) (hashval : BitVec 64) (key : CString) : Prop :=
  ∀ bin, Picks n hashval key bin → ∀ c, LastOf (SetCall.SetsIn n key bin) (tr.map Prod.snd) c →
    ∃ e, LastOf (StoresIn n key bin) (tr.map (Prod.map Table.view id)) e ∧ e.2.value = c.value

section Runs
variable {t₀ t t' : Table} {n : Int} {size : Nat} {malloc : Nat → Bool} {tr : List (Table × SetCall)} {c : SetCall}
  {hashval : BitVec 64} {key : CString} {ht : Hashtable}

theorem run_view (hw : Wf t₀) (hr : Run SetStep t₀ tr t) :
    Wf t ∧ Run StackVault.SetStep t₀.view (tr.map (Prod.map Table.view id)) t.view := by
  induction hr with
  | nil => exact ⟨hw, .nil⟩
  | snoc hr hs ih =>
    obtain ⟨hw, hview⟩ := ih
    obtain ⟨fuel, hs⟩ := hs
    obtain ⟨hset, hw'⟩ := htSet_view hw hs
    rw [List.map_append]
    exact ⟨hw', .snoc hview ⟨fuel, hset⟩⟩

/-- The chains are in ascending order. -/
def Sorted (ht : Hashtable) : Prop := ∀ bin, (ht.table bin).Pairwise fun d e => HtEntry.order d < HtEntry.order e

theorem Sorted.step {ht' : Hashtable} (h : Sorted ht) (hs : StackVault.SetStep ht c ht') : Sorted ht' := by
  obtain ⟨fuel, hs⟩ := hs
  obtain ⟨bin, -, ⟨-, rfl⟩ | ⟨-, rfl⟩⟩ := htSet_inv hs
  · exact h
  · intro b
    simp only [Hashtable.put]
    split_ifs with hb
    · exact Chain.pairwise_put (h bin)
    · exact h b

theorem sorted_of_run {ht₀ : Hashtable} {tr : List (Hashtable × SetCall)} (hc : StackVault.htCreate malloc n = some ht₀)
    (hr : Run StackVault.SetStep ht₀ tr ht) : Sorted ht := by
  refine hr.invariant (P := fun _ _ => True) ?_ (fun _ _ _ h _ hs => h.step hs) fun _ _ => trivial
  unfold StackVault.htCreate at hc
  split_ifs at hc
  obtain rfl := Option.some.inj hc
  exact fun bin => List.Pairwise.nil

theorem chains_sorted (hw : Wf t) (hs : Sorted t.view) {bin : Nat} (hbin : bin < t.size) :
    ∃ ids, t.Chain bin ids ∧ (t.pairs ids).Pairwise fun d e => strcmp d.key e.key < 0 := by
  obtain ⟨ids, hc⟩ := hw.chain bin hbin
  have hsorted := hs bin
  rw [view_chain hc] at hsorted
  exact ⟨ids, hc, hsorted.imp fun h => strcmp_neg.mpr h⟩

theorem step_confined (hw : Wf t) (hs : SetStep t c t') : ∃ bin < t.size, Picks t.size c.hashval c.key bin ∧
    (∀ b ≠ bin, t'.view.table b = t.view.table b) ∧ ∀ k ≠ c.key, t'.binding bin k = t.binding bin k := by
  obtain ⟨fuel, hs⟩ := hs
  obtain ⟨hset, -⟩ := htSet_view hw hs
  obtain ⟨bin, hpick, hview⟩ := htSet_inv hset
  obtain ⟨k, hbin⟩ := id hpick
  refine ⟨bin, htHash_lt hw.pos hbin, hpick, ?_⟩
  rcases hview with ⟨-, hview⟩ | ⟨-, hview⟩
  · simp only [Table.binding, hview]
    exact ⟨fun _ _ => trivial, fun _ _ => trivial⟩
  · simp only [Table.binding, hview, Hashtable.put, if_true]
    refine ⟨fun b hb => if_neg hb, fun k hk => ?_⟩
    rw [Chain.find?_put]
    intro d hd
    have hkey : d.key = c.key := CString.order_inj.mp hd
    simpa [hkey] using hk.symm

/-- After every run of `htSet` calls on a new table, the bins obey their law for an `htGet` if and only if its hash ends
    and the last value set there was stored. The chains obey it in any case. -/
theorem bin_law_iff (hc : htCreate malloc n = some t₀) (hr : Run SetStep t₀ tr t) (hashval : BitVec 64)
    (key : CString) :
    BinLaw n.toNat (tr.map Prod.snd) t hashval key ↔ HashEnds hashval key ∧ Kept n.toNat tr hashval key := by
  obtain ⟨hview, hw₀⟩ := htCreate_view hc
  obtain ⟨hw, hrun⟩ := run_view hw₀ hr
  have hbins := Bins.of_run hview hrun
  have hsize : t.size = n.toNat := hbins.size_eq
  have hlabels : (tr.map (Prod.map Table.view id)).map Prod.snd = tr.map Prod.snd := by simp [Function.comp_def]
  have hstored : ∀ bin, _ ↔ _ := fun bin =>
    stored_iff_set (tr.map (Prod.map Table.view id)) (P := SetCall.SetsIn n.toNat key bin)
      (Q := StoresIn n.toNat key bin) fun e he => he.1
  rw [hlabels] at hstored
  constructor
  · rintro ⟨-, -, bin, -, hpick, fuel, r, hget, hr⟩
    refine ⟨picks_iff.mp ⟨bin, hpick⟩, fun bin' hpick' => ?_⟩
    obtain rfl := hpick.unique hpick'
    obtain ⟨fuel', hget'⟩ := (htGet_view hw).mp ⟨fuel, hget⟩
    rw [htGet_eq, hbins.size_eq] at hget'
    obtain ⟨b, hb, rfl⟩ := Option.map_eq_some_iff.mp hget'
    obtain rfl := hpick.unique ⟨fuel', hb⟩
    exact (hstored bin).mp fun v => (hbins.held bin key v).symm.trans (hr v)
  · rintro ⟨hends, hkept⟩
    obtain ⟨bin, fuel, hbin⟩ : ∃ bin, Picks n.toNat hashval key bin := picks_iff.mpr hends
    have hlt : bin < n.toNat := by
      rw [← hsize] at hbin ⊢
      exact htHash_lt hw.pos hbin
    have hfind : StackVault.htGet hashval fuel key t.view =
        some ((Chain.find HtEntry.order key.order (t.view.table bin)).map HtEntry.value) := by
      rw [htGet_eq, hbins.size_eq, hbin]
      rfl
    obtain ⟨fuel', hget⟩ := (htGet_view hw).mpr ⟨fuel, hfind⟩
    refine ⟨fun bin hlt => chains_sorted hw (sorted_of_run hview hrun) (hsize ▸ hlt), fun c t' hs =>
      hsize ▸ step_confined hw hs,
      bin, hlt, ⟨fuel, hbin⟩, fuel', _, hget, fun v => (hbins.held bin key v).trans ?_⟩
    exact (hstored bin).mpr (hkept bin ⟨fuel, hbin⟩) v

end Runs

/-- An `htSet` of `f2`, which belongs after `f1`, when no memory is left. -/
def f2Set : SetCall := { hashval := 0, malloc := fun _ => false, key := ⟨[0x66, 0x32], by decide⟩, value := [0x64] }

theorem f2_sets : ∃ t₀ t₁ t₂, htCreate (fun _ => true) 1 = some t₀ ∧ Run SetStep t₀ [(t₀, f1Set), (t₁, f2Set)] t₂ ∧
    htGet 0 4 f2Set.key t₂ = some (.ok none) :=
  ⟨_, _, _, rfl, .snoc (.snoc .nil ⟨4, rfl⟩) ⟨4, rfl⟩, rfl⟩

theorem bin_law_sample : ∃ t₀ t₁ t₂, Run SetStep t₀ [(t₀, f1Set), (t₁, f2Set)] t₂ ∧
    (BinLaw 1 [f1Set, f2Set] t₂ 0 f1 ↔ HashEnds 0 f1 ∧ Kept 1 [(t₀, f1Set), (t₁, f2Set)] 0 f1) := by
  obtain ⟨t₀, t₁, t₂, hc, hr, -⟩ := f2_sets
  exact ⟨t₀, t₁, t₂, hr, bin_law_iff hc hr 0 f1⟩

/-- The second `htSet` returns, but its pair is lost. -/
theorem pair_lost : ∃ t₀ t₁ t₂, htCreate (fun _ => true) 1 = some t₀ ∧ Run SetStep t₀ [(t₀, f1Set), (t₁, f2Set)] t₂ ∧
    htGet 0 4 f2Set.key t₂ = some (.ok none) ∧ ¬BinLaw 1 [f1Set, f2Set] t₂ 0 f2Set.key := by
  obtain ⟨t₀, t₁, t₂, hc, hr, hget⟩ := f2_sets
  refine ⟨t₀, t₁, t₂, hc, hr, hget, fun hlaw => ?_⟩
  obtain ⟨bin, -, hpick, fuel, r, hget', hr'⟩ := hlaw.held
  have hw := (run_view (htCreate_view hc).2 hr).1
  obtain ⟨k, hview⟩ := (htGet_view hw).mp ⟨fuel, hget'⟩
  obtain ⟨k', hview'⟩ := (htGet_view hw).mp ⟨4, hget⟩
  obtain rfl := htGet_unique hview hview'
  have hset : LastOf (SetCall.SetsIn 1 f2Set.key bin) [f1Set, f2Set] f2Set := ⟨[f1Set], [], rfl, ⟨rfl, hpick⟩, by simp⟩
  cases (hr' _).mpr ⟨f2Set, hset, rfl⟩

end StackVault.Linked
