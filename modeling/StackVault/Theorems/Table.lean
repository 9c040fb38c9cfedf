import StackVault.Hash
import StackVault.Lib.Chain
import StackVault.Lib.Run
import Mathlib.Data.List.Lex
import Mathlib.Data.List.TakeWhile

/-! The hash table as a map. Each call hashes its key again, from whatever its local variable holds, so a
    table keeps one map for each bin, and `htGet` reads the map of the bin that it picks itself. It
    answers as one map for the whole table would exactly when the last `htSet` of the key in that bin set
    what the last `htSet` of the key set. -/

namespace StackVault
open Transition

/-! ### The order of the keys -/

def CString.order (s : CString) : List Nat := s.bytes.map BitVec.toNat

theorem CString.order_inj {s t : CString} : s.order = t.order ↔ s = t := by
  constructor
  · intro h
    have hbytes : s.bytes = t.bytes := List.map_injective_iff.mpr (fun _ _ => BitVec.eq_of_toNat_eq) h
    cases s
    cases t
    cases hbytes
    rfl
  · rintro rfl
    rfl

theorem strcmpBytes_eq_zero : ∀ {s t : List Byte}, 0 ∉ s → 0 ∉ t → (strcmpBytes s t = 0 ↔ s = t)
  | [], [], _, _ => by simp [strcmpBytes]
  | [], b :: t, _, ht => by
    have hb : b ≠ 0 := fun h => ht (h ▸ List.mem_cons_self)
    simp [strcmpBytes, BitVec.toNat_eq] at hb ⊢
    omega
  | a :: s, [], hs, _ => by
    have ha : a ≠ 0 := fun h => hs (h ▸ List.mem_cons_self)
    simp [strcmpBytes, BitVec.toNat_eq] at ha ⊢
    omega
  | a :: s, b :: t, hs, ht => by
    simp only [strcmpBytes]
    split
    · next hab => simp [hab, strcmpBytes_eq_zero (List.not_mem_of_not_mem_cons hs) (List.not_mem_of_not_mem_cons ht)]
    · next hab =>
      have hne : a.toNat ≠ b.toNat := fun h => hab (BitVec.eq_of_toNat_eq h)
      simp only [List.cons.injEq, hab, false_and, iff_false]
      omega

theorem strcmpBytes_pos : ∀ {s t : List Byte}, 0 ∉ s → 0 ∉ t →
    (0 < strcmpBytes s t ↔ t.map BitVec.toNat < s.map BitVec.toNat)
  | [], [], _, _ => by simp [strcmpBytes]
  | [], b :: t, _, _ => by simp [strcmpBytes]
  | a :: s, [], hs, _ => by
    have ha : a ≠ 0 := fun h => hs (h ▸ List.mem_cons_self)
    simp [strcmpBytes, BitVec.toNat_eq] at ha ⊢
    omega
  | a :: s, b :: t, hs, ht => by
    simp only [strcmpBytes, List.map_cons, List.cons_lt_cons_iff]
    split
    · next hab => simp [hab, strcmpBytes_pos (List.not_mem_of_not_mem_cons hs) (List.not_mem_of_not_mem_cons ht)]
    · next hab =>
      have hne : b.toNat ≠ a.toNat := fun h => hab (BitVec.eq_of_toNat_eq h.symm)
      simp only [hne, false_and, or_false]
      omega

theorem strcmp_eq_zero {s t : CString} : strcmp s t = 0 ↔ s.order = t.order := by
  rw [strcmp, strcmpBytes_eq_zero s.no_nul t.no_nul, CString.order_inj]
  constructor
  · intro h
    exact CString.order_inj.mp (congrArg (List.map BitVec.toNat) h)
  · rintro rfl
    rfl

theorem strcmp_pos {s t : CString} : 0 < strcmp s t ↔ t.order < s.order := strcmpBytes_pos s.no_nul t.no_nul

theorem strcmp_neg {s t : CString} : strcmp s t < 0 ↔ s.order < t.order := by
  have hpos := strcmp_pos (s := s) (t := t)
  have hzero := strcmp_eq_zero (s := s) (t := t)
  rcases lt_trichotomy s.order t.order with h | h | h
  · have hp := mt hpos.mp (lt_asymm h)
    have hz := mt hzero.mp h.ne
    exact iff_of_true (by omega) h
  · have hz := hzero.mpr h
    exact iff_of_false (by omega) (h ▸ lt_irrefl _)
  · have hp := hpos.mpr h
    exact iff_of_false (by omega) (lt_asymm h)

/-! ### The calls -/

def HtEntry.order (e : HtEntry) : List Nat := e.key.order

theorem past_eq (key : CString) : past key = Chain.below HtEntry.order key.order := by
  funext e
  exact decide_eq_decide.mpr strcmp_pos

/-- The hash of the key, started from `hashval`, ends and selects `bin`. -/
def Picks (size : Nat) (hashval : BitVec 64) (key : CString) (bin : Nat) : Prop :=
  ∃ fuel, htHash fuel hashval key size = some bin

section Hash
variable {key : CString} {hashval : BitVec 64} {size : Nat}

theorem htHashLoop_mono : ∀ {fuel fuel' : Nat} {hashval r : BitVec 64} {i : BitVec 32}, fuel ≤ fuel' →
    htHashLoop key fuel hashval i = some r → htHashLoop key fuel' hashval i = some r
  | fuel + 1, fuel' + 1, hashval, r, i, hle, h => by
    unfold htHashLoop at h ⊢
    split at h
    · next hc =>
      rw [dif_pos hc]
      exact htHashLoop_mono (Nat.le_of_succ_le_succ hle) h
    · next hc =>
      rw [dif_neg hc]
      exact h

theorem htHash_mono {fuel fuel' bin : Nat} (hle : fuel ≤ fuel') (h : htHash fuel hashval key size = some bin) :
    htHash fuel' hashval key size = some bin := by
  obtain ⟨r, hr, rfl⟩ := Option.map_eq_some_iff.mp h
  exact Option.map_eq_some_iff.mpr ⟨r, htHashLoop_mono hle hr, rfl⟩

/-- The loop over a key of less than `2 ^ 32` bytes ends. -/
theorem htHashLoop_ends (hkey : key.strlen < 2 ^ 32) {fuel : Nat} {i : BitVec 32} (hi : i.toNat ≤ key.strlen)
    (hfuel : key.strlen < i.toNat + fuel) : ∃ r, htHashLoop key fuel hashval i = some r := by
  induction fuel generalizing hashval i with
  | zero => exact absurd hfuel (Nat.not_lt.mpr hi)
  | succ fuel ih =>
    unfold htHashLoop
    split
    · next hc =>
      have hnext : (i + 1).toNat = i.toNat + 1 := by
        rw [BitVec.toNat_add]
        exact Nat.mod_eq_of_lt (Nat.lt_of_le_of_lt hc.2 hkey)
      exact ih (by omega) (by omega)
    · exact ⟨hashval, rfl⟩

theorem exists_picks (hkey : key.strlen < 2 ^ 32) (size : Nat) (hashval : BitVec 64) :
    ∃ bin, Picks size hashval key bin := by
  obtain ⟨r, hr⟩ : ∃ r, htHashLoop key (key.strlen + 1) hashval 0 = some r :=
    htHashLoop_ends hkey (Nat.zero_le _) (by simp)
  exact ⟨r.toNat % size, key.strlen + 1, by rw [htHash, hr]; rfl⟩

theorem Picks.unique {bin bin' : Nat} (h : Picks size hashval key bin) (h' : Picks size hashval key bin') :
    bin = bin' := by
  obtain ⟨fuel, h⟩ := h
  obtain ⟨fuel', h'⟩ := h'
  exact Option.some.inj
    ((htHash_mono (Nat.le_max_left fuel fuel') h).symm.trans (htHash_mono (Nat.le_max_right fuel fuel') h'))

end Hash

/-- A call of `htSet`. -/
structure SetCall extends HashEnv where
  key : CString
  value : List Byte

section Calls
variable {env : HashEnv} {fuel : Nat} {key : CString} {value : List Byte} {ht ht' : Hashtable}

theorem htNewpair_eq {malloc : Nat → Bool} {e : HtEntry} (h : htNewpair malloc key value = some e) :
    e = ⟨key, value⟩ := by
  unfold htNewpair at h
  split at h
  · exact (Option.some.inj h).symm
  · cases h

/-- The pair was not allocated, and the link at the end of the chain is set to NULL instead. -/
def SetCall.Loses (c : SetCall) (chain : List HtEntry) : Prop :=
  (∀ e ∈ chain, past c.key e) ∧ htNewpair c.malloc c.key c.value = none

theorem htSetChain_eq {c : SetCall} {chain chain' : List HtEntry}
    (h : htSetChain c.malloc c.key c.value (chain.takeWhile (past c.key)) (chain.dropWhile (past c.key)) = .ok chain') :
    (c.Loses chain ∧ chain' = chain) ∨ (¬c.Loses chain ∧ chain' = Chain.put HtEntry.order ⟨c.key, c.value⟩ chain) := by
  have hk : HtEntry.order ⟨c.key, c.value⟩ = c.key.order := rfl
  rw [Chain.put_eq, hk, ← past_eq]
  cases hd : chain.dropWhile (past c.key) with
  | nil =>
    have hall := List.dropWhile_eq_nil_iff.mp hd
    have htake : chain.takeWhile (past c.key) = chain := List.takeWhile_eq_self_iff.mpr hall
    rw [hd, htake] at h
    simp only [htSetChain] at h
    split at h
    · next hnone =>
      split_ifs at h
      cases h
      exact Or.inl ⟨⟨hall, hnone⟩, rfl⟩
    · next e he =>
      cases h
      refine Or.inr ⟨fun hl => ?_, ?_⟩
      · rw [hl.2] at he
        cases he
      · rw [htNewpair_eq he, htake]
  | cons next rest =>
    have hloses : ¬c.Loses chain := fun hl => by
      rw [List.dropWhile_eq_nil_iff.mpr hl.1] at hd
      cases hd
    refine Or.inr ⟨hloses, ?_⟩
    rw [hd] at h
    simp only [htSetChain, strcmp_eq_zero] at h
    have horder : next.order = next.key.order := rfl
    split at h
    · next heq =>
      split at h
      · cases h
        have hkey : next.key = c.key := CString.order_inj.mp heq.symm
        simp only [horder, hkey, if_true]
      · cases h
    · next hne =>
      split at h
      · cases h
      · next e he =>
        cases h
        rw [htNewpair_eq he]
        simp only [horder, if_neg (Ne.symm hne)]

theorem Hashtable.put_self (ht : Hashtable) (bin : Nat) : ht.put bin (ht.table bin) = ht := by
  have htable : (fun b => if b = bin then ht.table bin else ht.table b) = ht.table := by
    funext b
    split_ifs with hb
    · rw [hb]
    · rfl
  rw [Hashtable.put, htable]

theorem htSet_inv {c : SetCall} (h : htSet c.toHashEnv fuel c.key c.value ht = some (.ok ht')) :
    ∃ bin, Picks ht.size c.hashval c.key bin ∧ ((c.Loses (ht.table bin) ∧ ht' = ht) ∨
      (¬c.Loses (ht.table bin) ∧ ht' = ht.put bin (Chain.put HtEntry.order ⟨c.key, c.value⟩ (ht.table bin)))) := by
  obtain ⟨bin, hbin, h⟩ := Option.map_eq_some_iff.mp h
  obtain ⟨chain, hchain, rfl⟩ := map_eq_ok.mp h
  refine ⟨bin, ⟨fuel, hbin⟩, ?_⟩
  rcases htSetChain_eq hchain with ⟨hloses, rfl⟩ | ⟨hloses, rfl⟩
  · exact Or.inl ⟨hloses, ht.put_self bin⟩
  · exact Or.inr ⟨hloses, rfl⟩

theorem htGet_eq (hashval : BitVec 64) (fuel : Nat) (key : CString) (ht : Hashtable) : htGet hashval fuel key ht =
    (htHash fuel hashval key ht.size).map fun bin =>
    (Chain.find HtEntry.order key.order (ht.table bin)).map HtEntry.value := by
  unfold htGet
  congr 1
  funext bin
  rw [Chain.find_eq, past_eq]
  cases (ht.table bin).dropWhile (Chain.below HtEntry.order key.order) with
  | nil => rfl
  | cons pair rest =>
    simp only [ne_eq, strcmp_eq_zero, ite_not]
    by_cases hk : key.order = pair.key.order
    · have hk' : pair.order = key.order := hk.symm
      simp [hk, hk']
    · have hk' : pair.order ≠ key.order := Ne.symm hk
      simp [hk, hk']

theorem htGet_unique {hashval : BitVec 64} {fuel' : Nat} {r r' : Option (List Byte)}
    (h : htGet hashval fuel key ht = some r) (h' : htGet hashval fuel' key ht = some r') : r = r' := by
  rw [htGet_eq] at h h'
  obtain ⟨bin, hbin, rfl⟩ := Option.map_eq_some_iff.mp h
  obtain ⟨bin', hbin', rfl⟩ := Option.map_eq_some_iff.mp h'
  rw [Picks.unique ⟨fuel, hbin⟩ ⟨fuel', hbin'⟩]

theorem htSet_mono {fuel' : Nat} {r : Except Fault Hashtable} (hle : fuel ≤ fuel')
    (h : htSet env fuel key value ht = some r) :
    htSet env fuel' key value ht = some r := by
  obtain ⟨bin, hbin, rfl⟩ := Option.map_eq_some_iff.mp h
  exact Option.map_eq_some_iff.mpr ⟨bin, htHash_mono hle hbin, rfl⟩

theorem htGet_mono {hashval : BitVec 64} {fuel' : Nat} {r : Option (List Byte)} (hle : fuel ≤ fuel')
    (h : htGet hashval fuel key ht = some r) :
    htGet hashval fuel' key ht = some r := by
  obtain ⟨bin, hbin, rfl⟩ := Option.map_eq_some_iff.mp h
  exact Option.map_eq_some_iff.mpr ⟨bin, htHash_mono hle hbin, rfl⟩

end Calls

/-! ### Runs of `htSet` -/

def SetStep (ht : Hashtable) (c : SetCall) (ht' : Hashtable) : Prop :=
  ∃ fuel, htSet c.toHashEnv fuel c.key c.value ht = some (.ok ht')

/-- The call sets `key`, in the bin `bin`. -/
def SetCall.SetsIn (size : Nat) (key : CString) (bin : Nat) (c : SetCall) : Prop :=
  c.key = key ∧ Picks size c.hashval key bin

/-- A step that sets the key in the bin, and does not lose the pair. -/
def StoresIn (size : Nat) (key : CString) (bin : Nat) (e : Hashtable × SetCall) : Prop :=
  e.2.SetsIn size key bin ∧ ¬e.2.Loses (e.1.table bin)

/-- Each bin maps a key to what was last stored under it there. -/
structure Bins (size : Nat) (tr : List (Hashtable × SetCall)) (ht : Hashtable) : Prop where
  size_eq : ht.size = size
  held : ∀ bin key v, (Chain.find HtEntry.order key.order (ht.table bin)).map HtEntry.value = some v ↔
    ∃ e, LastOf (StoresIn size key bin) tr e ∧ e.2.value = v

section Runs
variable {n : Int} {malloc : Nat → Bool} {ht₀ ht ht' : Hashtable} {c : SetCall} {size : Nat}
  {tr : List (Hashtable × SetCall)}

theorem Bins.create (h : htCreate malloc n = some ht₀) : 0 < ht₀.size ∧ ht₀.size = n.toNat ∧ Bins n.toNat [] ht₀ := by
  unfold htCreate at h
  split at h
  · cases h
  · next hn =>
    split at h
    · cases h
      exact ⟨by show 0 < n.toNat; omega, rfl, rfl, by simp [Chain.find]⟩
    · cases h

/-- A step changes what the bin it picks has for its key, and nothing else. -/
theorem Bins.step (h : Bins size tr ht) (hs : SetStep ht c ht') : Bins size (tr ++ [(ht, c)]) ht' := by
  obtain ⟨fuel, hs⟩ := hs
  obtain ⟨bin, hbin, hput⟩ := htSet_inv hs
  rw [h.size_eq] at hbin
  have hstores : ∀ {key bin'}, StoresIn size key bin' (ht, c) → key = c.key ∧ bin' = bin ∧ ¬c.Loses (ht.table bin) := by
    rintro key bin' ⟨⟨rfl, hpick⟩, hkept⟩
    obtain rfl := hpick.unique hbin
    exact ⟨rfl, rfl, hkept⟩
  rcases hput with ⟨hloses, rfl⟩ | ⟨hkept, rfl⟩
  · refine ⟨h.size_eq, fun bin' key v => ?_⟩
    have hnot : ¬StoresIn size key bin' (ht', c) := fun hset => (hstores hset).2.2 hloses
    simp only [lastOf_snoc, or_and_right, exists_or]
    rw [h.held]
    simp [hnot]
  · refine ⟨h.size_eq, fun bin' key v => ?_⟩
    simp only [lastOf_snoc, or_and_right, exists_or]
    by_cases hset : StoresIn size key bin' (ht, c)
    · obtain ⟨rfl, rfl, -⟩ := hstores hset
      have hfind : Chain.find HtEntry.order c.key.order (Chain.put HtEntry.order ⟨c.key, c.value⟩ (ht.table bin')) =
          some ⟨c.key, c.value⟩ := Chain.find_put_self (e := (⟨c.key, c.value⟩ : HtEntry)) _
      simp [Hashtable.put, hfind, hset]
    · -- Another bin, or another key in the same one.
      have hsame : Chain.find HtEntry.order key.order
          ((ht.put bin (Chain.put HtEntry.order ⟨c.key, c.value⟩ (ht.table bin))).table bin') =
          Chain.find HtEntry.order key.order (ht.table bin') := by
        by_cases hb : bin' = bin
        · have hk : key.order ≠ HtEntry.order ⟨c.key, c.value⟩ := fun hk => by
            obtain rfl := CString.order_inj.mp hk
            exact hset ⟨⟨rfl, hb ▸ hbin⟩, hb ▸ hkept⟩
          simp only [Hashtable.put, hb, if_true, Chain.find_put_ne hk]
        · simp only [Hashtable.put, if_neg hb]
      rw [hsame, h.held]
      simp [hset]

theorem Bins.of_run (hc : htCreate malloc n = some ht₀) (hr : Run SetStep ht₀ tr ht) : Bins n.toNat tr ht :=
  hr.history (P := fun _ _ => True) (I := fun tr ht => Bins n.toNat tr ht) (Bins.create hc).2.2
    (fun _ _ _ _ _ h _ hs => h.step hs) fun _ _ => trivial

end Runs

/-- The `htGet` returns what the last `htSet` of its key has set, and NULL if there was none. -/
def MapLaw (cs : List SetCall) (hashval : BitVec 64) (key : CString) (ht : Hashtable) : Prop :=
  ∃ fuel r, htGet hashval fuel key ht = some r ∧ ∀ v, r = some v ↔ ∃ c, LastOf (fun c => c.key = key) cs c ∧ c.value = v

/-- The `htGet` picks a bin, and if its key was set then the last `htSet` that stored it in that bin set the same
    value as the last `htSet` of it in any. -/
def FreshBin (size : Nat) (tr : List (Hashtable × SetCall)) (hashval : BitVec 64) (key : CString) : Prop :=
  ∃ bin, Picks size hashval key bin ∧ ∀ c, LastOf (fun c => c.key = key) (tr.map Prod.snd) c →
    ∃ e, LastOf (StoresIn size key bin) tr e ∧ e.2.value = c.value

section Law
variable {n : Int} {malloc : Nat → Bool} {ht₀ ht : Hashtable} {tr : List (Hashtable × SetCall)} {hashval : BitVec 64}
  {key : CString} {size : Nat}

/-- What was last stored is what was last set if and only if the last value set was stored. -/
theorem stored_iff_set (tr : List (Hashtable × SetCall)) {P : SetCall → Prop} {Q : Hashtable × SetCall → Prop}
    (hQ : ∀ e, Q e → P e.2) :
    (∀ v, (∃ e, LastOf Q tr e ∧ e.2.value = v) ↔ ∃ c, LastOf P (tr.map Prod.snd) c ∧ c.value = v) ↔
      ∀ c, LastOf P (tr.map Prod.snd) c → ∃ e, LastOf Q tr e ∧ e.2.value = c.value := by
  refine ⟨fun h c hc => (h c.value).mpr ⟨c, hc, rfl⟩, fun h v => ⟨?_, ?_⟩⟩
  · -- What was stored was set, so some call was the last to set it.
    rintro ⟨e, he, rfl⟩
    obtain ⟨pre, post, rfl, hset, -⟩ := id he
    have hmem : e.2 ∈ (pre ++ e :: post).map Prod.snd :=
      List.mem_map_of_mem (List.mem_append_right pre List.mem_cons_self)
    obtain ⟨c, hc⟩ := exists_lastOf hmem (hQ e hset)
    obtain ⟨e', he', hval⟩ := h c hc
    exact ⟨c, hc, by rw [← hval, he.unique he']⟩
  · rintro ⟨c, hc, rfl⟩
    exact h c hc

theorem Bins.mapLaw_iff (h : Bins size tr ht) :
    MapLaw (tr.map Prod.snd) hashval key ht ↔ FreshBin size tr hashval key := by
  have hstored : ∀ bin, _ ↔ _ := fun bin =>
    stored_iff_set tr (P := fun c => c.key = key) (Q := StoresIn size key bin) fun e he => he.1.1
  constructor
  · rintro ⟨fuel, r, hget, hr⟩
    rw [htGet_eq, h.size_eq] at hget
    obtain ⟨bin, hbin, rfl⟩ := Option.map_eq_some_iff.mp hget
    exact ⟨bin, ⟨fuel, hbin⟩, (hstored bin).mp fun v => (h.held bin key v).symm.trans (hr v)⟩
  · rintro ⟨bin, ⟨fuel, hbin⟩, hfresh⟩
    exact ⟨fuel,
      _, by rw [htGet_eq, h.size_eq, hbin]; rfl, fun v => (h.held bin key v).trans ((hstored bin).mpr hfresh v)⟩

/-- After any run of `htSet` calls on a new table, an `htGet` obeys the map law if and only if the bin it
    picks is up to date on its key. -/
theorem map_law_iff (hc : htCreate malloc n = some ht₀) (hr : Run SetStep ht₀ tr ht) (hashval : BitVec 64)
    (key : CString) :
    MapLaw (tr.map Prod.snd) hashval key ht ↔ FreshBin n.toNat tr hashval key := (Bins.of_run hc hr).mapLaw_iff

end Law

/-- The name that the client sends. -/
def f1 : CString := ⟨[0x66, 0x31], by decide⟩

/-- An `htSet` of `f1` whose hash starts from 0. -/
def f1Set : SetCall := { hashval := 0, malloc := fun _ => true, key := f1, value := [0x65] }

theorem f1_sets : ∃ ht₀ ht, htCreate (fun _ => true) 10 = some ht₀ ∧ Run SetStep ht₀ [(ht₀, f1Set)] ht ∧
    htGet 0 3 f1 ht = some (some [0x65]) ∧ htGet 1 3 f1 ht = some none := by
  refine ⟨_, _, rfl, .snoc .nil ⟨3, rfl⟩, ?_, ?_⟩
  · decide
  · decide

theorem map_law_sample : ∃ ht₀ ht, Run SetStep ht₀ [(ht₀, f1Set)] ht ∧
    (MapLaw [f1Set] 0 f1 ht ↔ FreshBin 10 [(ht₀, f1Set)] 0 f1) := by
  obtain ⟨ht₀, ht, hc, hr, -⟩ := f1_sets
  exact ⟨ht₀, ht, hr, map_law_iff hc hr 0 f1⟩

/-- An `htGet` whose hash starts from 1 looks into another bin of ten. -/
theorem residue_loses : ∃ ht₀ ht, htCreate (fun _ => true) 10 = some ht₀ ∧ Run SetStep ht₀ [(ht₀, f1Set)] ht ∧
    htGet 1 3 f1 ht = some none ∧ ¬MapLaw [f1Set] 1 f1 ht := by
  obtain ⟨ht₀, ht, hc, hr, -, hget⟩ := f1_sets
  refine ⟨ht₀, ht, hc, hr, hget, fun ⟨fuel, r, hget', hr⟩ => ?_⟩
  obtain rfl := htGet_unique hget hget'
  have hset : LastOf (fun c : SetCall => c.key = f1) [f1Set] f1Set := ⟨[], [], rfl, rfl, by simp⟩
  cases (hr _).mpr ⟨f1Set, hset, rfl⟩

end StackVault
