import StackVault.Parser
import Mathlib.Data.List.Infix
import Mathlib.Tactic.SplitIfs

/-! What the scan of the disassembly prints. The scan goes by blocks: from a line on, it finds functions at
    every third line, each after the one before it in the list, and it starts the next block one line after
    the place where none of the rest is found. So a header is missed that stands less than three lines
    after another one, or three lines after it with its function earlier in the list. -/

namespace StackVault.Objdump

/-- Line `i` is the header of a function of the list. -/
def Header (content names : List String) (i : Nat) (f : String) : Prop := f ∈ names ∧ Hits content i f

/-- A header whose third line after it is in the text. -/
def Inside (content names : List String) (i : Nat) (f : String) : Prop :=
  Header content names i f ∧ i + 3 < content.length

/-- The scan ends without an index past the last line, and it has printed every header that is inside,
    with the third line after it. -/
def PrintsAll (content names : List String) : Prop :=
  ∃ out, scanObjdump content names (content.length + 1) 0 = some (.ok out) ∧
    ∀ i f, Inside content names i f → ∃ line, content[i + 3]? = some line ∧ ⟨f, i + 3, line⟩ ∈ out

/-- Headers at every third line from `i` on. -/
def Chain (content names : List String) (i : Nat) (fs : List String) : Prop :=
  ∀ r f, fs[r]? = some f → Inside content names (i + 3 * r) f

/-- The headers keep out of each other's way: two of them are at least three lines apart, the functions of
    headers three lines apart come in the order of the list, and a header in the last three lines stands
    one or two lines after another one, or three lines after a function that it is not in order with. -/
structure WellSpaced (content names : List String) : Prop where
  apart : ∀ i f j g, Inside content names i f → Inside content names j g → (i = j → f = g) ∧ (i < j → i + 3 ≤ j)
  ordered : ∀ i fs, Chain content names i fs → fs.Sublist names
  covered : ∀ j g, Header content names j g → content.length ≤ j + 3 →
    (∃ i f, Inside content names i f ∧ (j = i + 1 ∨ j = i + 2)) ∨
    ∃ i fs, fs ≠ [] ∧ Chain content names i fs ∧ j = i + 3 * fs.length ∧ ¬(fs ++ [g]).Sublist names

section Listing
variable {content names : List String} {i j idx : Nat} {f g : String}

theorem lt_of_hits (h : Hits content i f) : i < content.length := by
  obtain ⟨line, hline, -⟩ := h
  exact (List.getElem?_eq_some_iff.mp (Option.mem_def.mp hline)).1

/-! ### A block -/

/-- The functions that a block finds, from line `i` on. -/
def picks (content : List String) : List String → Nat → List String
  | [], _ => []
  | f :: fs, i => if Hits content i f then f :: picks content fs (i + 3) else picks content fs i

theorem picks_sublist {fs : List String} : (picks content fs i).Sublist fs := by
  induction fs generalizing i with
  | nil => exact List.Sublist.refl _
  | cons f fs ih =>
    rw [picks]
    split_ifs
    · exact (ih (i := i + 3)).cons_cons f
    · exact (ih (i := i)).cons f

theorem picks_hits {fs : List String} {r : Nat} (h : (picks content fs i)[r]? = some f) :
    Hits content (i + 3 * r) f := by
  induction fs generalizing i r with
  | nil => simp [picks] at h
  | cons g fs ih =>
    rw [picks] at h
    split_ifs at h with hg
    · cases r with
      | zero =>
        simp only [List.getElem?_cons_zero, Option.some.injEq] at h
        exact h ▸ hg
      | succ r =>
        rw [List.getElem?_cons_succ] at h
        have hr := ih h
        rwa [Nat.add_assoc, show 3 + 3 * r = 3 * (r + 1) by omega] at hr
    · exact ih h

/-- Functions in the order of the list, each the only one at its line, are all found, and so is one more
    that comes after them. -/
theorem picks_more {fs hs : List String} (hsub : (hs ++ [g]).Sublist fs) (hlast : Hits content (i + 3 * hs.length) g)
    (honly : ∀ r h, hs[r]? = some h → Hits content (i + 3 * r) h ∧ ∀ f ∈ fs, Hits content (i + 3 * r) f → f = h) :
    hs.length < (picks content fs i).length := by
  induction fs generalizing hs i with
  | nil => simp at hsub
  | cons f fs ih =>
    rw [picks]
    cases hs with
    | nil =>
      split_ifs with hf
      · exact Nat.zero_lt_succ _
      · refine ih ?_ hlast (fun r h hr => by simp at hr)
        refine List.Sublist.of_cons_of_ne (fun hgf => hf ?_) hsub
        simpa [hgf] using hlast
    | cons h hs =>
      obtain ⟨hh, hu⟩ := honly 0 h rfl
      split_ifs with hf
      · rcases hu f List.mem_cons_self hf with rfl
        have hlast' : Hits content (i + 3 + 3 * hs.length) g := by
          rwa [List.length_cons, show i + 3 * (hs.length + 1) = i + 3 + 3 * hs.length by omega] at hlast
        refine Nat.succ_lt_succ (ih (List.Sublist.of_cons_cons hsub) hlast' fun r k hr => ?_)
        obtain ⟨hk, hu'⟩ := honly (r + 1) k hr
        rw [show i + 3 * (r + 1) = i + 3 + 3 * r by omega] at hk hu'
        exact ⟨hk, fun f' hf' => hu' f' (List.mem_cons_of_mem _ hf')⟩
      · refine ih (List.Sublist.of_cons_of_ne (fun hhf => hf (by rw [← hhf]; exact hh)) hsub) hlast fun r k hr => ?_
        obtain ⟨hk, hu'⟩ := honly r k hr
        exact ⟨hk, fun f' hf' => hu' f' (List.mem_cons_of_mem _ hf')⟩

/-- Where nothing is found, no function of the list has its header. -/
theorem not_hits_of_picks {fs : List String} (h : picks content fs i = []) (hf : f ∈ fs) : ¬Hits content i f := by
  induction fs with
  | nil => simp at hf
  | cons g fs ih =>
    rw [picks] at h
    split_ifs at h with hg
    rcases List.mem_cons.mp hf with rfl | hf
    · exact hg
    · exact ih h hf

variable (content names) in
/-- The last line that a block looks at. -/
def blockEnd (i : Nat) : Nat := i + 3 * (picks content names i).length

theorem mem_scanFuncs {fs : List String} (h : i < content.length)
    (hend : i + 3 * (picks content fs i).length < content.length) :
    ∃ out, scanFuncs content fs i = .ok (out, i + 3 * (picks content fs i).length) ∧
      ∀ x, x ∈ out ↔ ∃ r, (picks content fs i)[r]? = some x.sensitiveFunc ∧ x.idx = i + 3 * r + 3 ∧
      content[x.idx]? = some x.line := by
  induction fs generalizing i with
  | nil => exact ⟨[], rfl, by simp [picks]⟩
  | cons f fs ih =>
    rw [scanFuncs, if_neg (Nat.not_le.mpr h)]
    rw [picks] at hend ⊢
    split_ifs at hend ⊢ with hf
    · rw [List.length_cons] at hend ⊢
      have h3 : i + 3 < content.length := by omega
      obtain ⟨out, hout, hmem⟩ := ih h3 (by omega)
      refine ⟨⟨f, i + 3, content[i + 3]⟩ :: out, ?_, fun x => ?_⟩
      · rw [List.getElem?_eq_getElem h3]
        simp only [hout, Except.map]
        congr 2
        omega
      · rw [List.mem_cons, hmem]
        constructor
        · rintro (rfl | ⟨r, h1, h2, h4⟩)
          · exact ⟨0, rfl, rfl, List.getElem?_eq_getElem h3⟩
          · exact ⟨r + 1, by simpa using h1, by omega, h4⟩
        · rintro ⟨r, h1, h2, h4⟩
          cases r with
          | zero =>
            refine Or.inl ?_
            simp only [List.getElem?_cons_zero, Option.some.injEq] at h1
            rw [h2, List.getElem?_eq_getElem h3, Option.some.injEq] at h4
            cases x
            simp_all
          | succ r => exact Or.inr ⟨r, by simpa using h1, by omega, h4⟩
    · exact ih h hend

theorem scanFuncs_ok {fs : List String} {p : List Printed × Nat} (h : i < content.length)
    (hp : scanFuncs content fs i = .ok p) :
    i + 3 * (picks content fs i).length < content.length := by
  induction fs generalizing i p with
  | nil => simpa [picks] using h
  | cons f fs ih =>
    rw [scanFuncs, if_neg (Nat.not_le.mpr h)] at hp
    rw [picks]
    split_ifs at hp ⊢ with hf
    · cases h3 : content[i + 3]? with
      | none => simp [h3] at hp
      | some line =>
        simp only [h3] at hp
        cases hq : scanFuncs content fs (i + 3) with
        | error e => simp [hq, Except.map] at hp
        | ok q =>
          have hlt := ih (List.getElem?_eq_some_iff.mp h3).1 hq
          rw [List.length_cons]
          omega
    · exact ih h hp

/-! ### The blocks -/

/-- A line at which a block starts. -/
inductive Start (content names : List String) : Nat → Prop where
  | zero : Start content names 0
  | next {i : Nat} (h : Start content names i) : Start content names (blockEnd content names i + 1)

theorem le_blockEnd : i ≤ blockEnd content names i := Nat.le_add_right _ _

/-- Blocks do not overlap. -/
theorem Start.apart (hi : Start content names i) (hj : Start content names j) :
    i = j ∨ blockEnd content names i < j ∨ blockEnd content names j < i := by
  induction hi generalizing j with
  | zero =>
    induction hj with
    | zero => exact Or.inl rfl
    | @next t ht ih =>
      have hle : t ≤ blockEnd content names t := le_blockEnd
      rcases ih with rfl | h | h
      · exact Or.inr (Or.inl (Nat.lt_succ_self _))
      · exact Or.inr (Or.inl (by omega))
      · exact absurd h (Nat.not_lt_zero _)
  | @next s hs ihs =>
    have hles : s ≤ blockEnd content names s := le_blockEnd
    induction hj with
    | zero =>
      rcases ihs Start.zero with rfl | h | h
      · exact Or.inr (Or.inr (Nat.lt_succ_self _))
      · exact absurd h (Nat.not_lt_zero _)
      · exact Or.inr (Or.inr (by omega))
    | @next t ht iht =>
      have hlet : t ≤ blockEnd content names t := le_blockEnd
      rcases ihs ht.next with hst | hst | hst
      · have hend : blockEnd content names s = blockEnd content names (blockEnd content names t + 1) := congrArg _ hst
        exact Or.inr (Or.inr (by omega))
      · rcases iht with hts | hts | hts
        · have hend : blockEnd content names (blockEnd content names s + 1) = blockEnd content names t := congrArg _ hts
          exact Or.inr (Or.inl (by omega))
        · exact Or.inr (Or.inl (by omega))
        · exact Or.inl (by omega)
      · exact Or.inr (Or.inr (by omega))

variable (content names) in
/-- Every line belongs to a block. -/
theorem exists_start (j : Nat) : ∃ i, Start content names i ∧ i ≤ j ∧ j ≤ blockEnd content names i := by
  induction j with
  | zero => exact ⟨0, Start.zero, Nat.le_refl _, Nat.zero_le _⟩
  | succ j ih =>
    obtain ⟨i, hi, hij, hj⟩ := ih
    rcases Nat.lt_or_ge j (blockEnd content names i) with hlt | hge
    · exact ⟨i, hi, Nat.le_succ_of_le hij, hlt⟩
    · rw [Nat.le_antisymm hj hge]
      exact ⟨_, hi.next, Nat.le_refl _, le_blockEnd⟩

variable (content names) in
/-- Every block that starts in the text ends in it. -/
def BlocksEnd : Prop := ∀ i, Start content names i → i < content.length → blockEnd content names i < content.length

variable (content names) in
/-- A block finds the function at line `i`. -/
def Found (i : Nat) (f : String) : Prop :=
  ∃ s r, Start content names s ∧ s < content.length ∧ (picks content names s)[r]? = some f ∧ i = s + 3 * r

theorem blocksEnd_of_scan {fuel : Nat} {out : List Printed} (hidx : Start content names idx)
    (h : scanObjdump content names fuel idx = some (.ok out)) (hi : Start content names i) (hle : idx ≤ i)
    (hlt : i < content.length) :
    blockEnd content names i < content.length := by
  induction fuel generalizing idx out with
  | zero => simp [scanObjdump] at h
  | succ fuel ih =>
    rw [scanObjdump, if_pos (Nat.lt_of_le_of_lt hle hlt)] at h
    cases hs : scanFuncs content names idx with
    | error e => simp [hs] at h
    | ok p =>
      have hend := scanFuncs_ok (Nat.lt_of_le_of_lt hle hlt) hs
      rcases hidx.apart hi with rfl | hap | hap
      · exact hend
      · obtain ⟨out', hout', -⟩ := mem_scanFuncs (Nat.lt_of_le_of_lt hle hlt) hend
        rw [hs, Except.ok.injEq] at hout'
        simp only [hs, hout', Option.map_eq_some_iff] at h
        obtain ⟨r, hr, hmap⟩ := h
        cases r with
        | error e => simp [Except.map] at hmap
        | ok rest => exact ih hidx.next hr hap
      · have hle' : i ≤ blockEnd content names i := le_blockEnd
        omega

theorem scan_of_blocksEnd (fuel : Nat) (hend : BlocksEnd content names) (hidx : Start content names idx)
    (hle : idx ≤ content.length) (hfuel : content.length < idx + fuel) :
    ∃ out, scanObjdump content names fuel idx = some (.ok out) ∧
      ∀ x, x ∈ out ↔ ∃ s r, Start content names s ∧ idx ≤ s ∧ s < content.length ∧
        (picks content names s)[r]? = some x.sensitiveFunc ∧ x.idx = s + 3 * r + 3 ∧ content[x.idx]? = some x.line := by
  induction fuel generalizing idx with
  | zero => exact absurd hfuel (Nat.not_lt.mpr hle)
  | succ fuel ih =>
    rw [scanObjdump]
    split_ifs with hlt
    · obtain ⟨out, hout, hmem⟩ := mem_scanFuncs hlt (hend idx hidx hlt)
      have hidx' := hend idx hidx hlt
      have hle' : idx ≤ blockEnd content names idx := le_blockEnd
      obtain ⟨rest, hrest, hmem'⟩ := ih hidx.next hidx' (by omega)
      rw [blockEnd] at hrest
      refine ⟨out ++ rest, by simp [hout, hrest, Except.map], fun x => ?_⟩
      rw [List.mem_append, hmem, hmem']
      constructor
      · rintro (⟨r, h1, h2, h3⟩ | ⟨s, r, hs, hles, hlts, h1, h2, h3⟩)
        · exact ⟨idx, r, hidx, Nat.le_refl _, hlt, h1, h2, h3⟩
        · exact ⟨s, r, hs, by omega, hlts, h1, h2, h3⟩
      · rintro ⟨s, r, hs, hles, hlts, h1, h2, h3⟩
        have hles' : s ≤ blockEnd content names s := le_blockEnd
        rcases hidx.apart hs with rfl | hap | hap
        · exact Or.inl ⟨r, h1, h2, h3⟩
        · exact Or.inr ⟨s, r, hs, hap, hlts, h1, h2, h3⟩
        · omega
    · refine ⟨[], rfl, fun x => iff_of_false (by simp) ?_⟩
      rintro ⟨s, -, -, hles, hlts, -⟩
      omega

/-- What is printed is what the blocks find, as long as every block ends in the text. -/
theorem printsAll_iff : PrintsAll content names ↔
    BlocksEnd content names ∧ ∀ i f, Inside content names i f → Found content names i f := by
  constructor
  · rintro ⟨out, hout, hall⟩
    have hend : BlocksEnd content names := fun i hi hlt => blocksEnd_of_scan Start.zero hout hi (Nat.zero_le _) hlt
    refine ⟨hend, fun i f hin => ?_⟩
    obtain ⟨out', hout', hmem⟩ := scan_of_blocksEnd (content.length + 1) hend Start.zero (Nat.zero_le _) (by omega)
    rw [hout, Option.some.injEq, Except.ok.injEq] at hout'
    obtain ⟨line, -, hx⟩ := hall i f hin
    rw [hout', hmem] at hx
    obtain ⟨s, r, hs, -, hlts, hr, hidx, -⟩ := hx
    exact ⟨s, r, hs, hlts, hr, by simpa using hidx⟩
  · rintro ⟨hend, hfound⟩
    obtain ⟨out, hout, hmem⟩ := scan_of_blocksEnd (content.length + 1) hend Start.zero (Nat.zero_le _) (by omega)
    refine ⟨out, hout, fun i f hin => ?_⟩
    have h3 : i + 3 < content.length := hin.2
    refine ⟨content[i + 3], List.getElem?_eq_getElem h3, (hmem _).mpr ?_⟩
    obtain ⟨s, r, hs, hlts, hr, rfl⟩ := hfound i f hin
    exact ⟨s, r, hs, Nat.zero_le _, hlts, hr, rfl, List.getElem?_eq_getElem h3⟩

/-! ### From what is found to the spacing -/

theorem lt_of_picks {s r : Nat} (h : (picks content names s)[r]? = some f) :
    s + 3 * r + 3 ≤ blockEnd content names s := by
  have hr := (List.getElem?_eq_some_iff.mp h).1
  unfold blockEnd
  omega

theorem inside_of_picks {s r : Nat} (h : (picks content names s)[r]? = some f) (hlt : s + 3 * r + 3 < content.length) :
    Inside content names (s + 3 * r) f :=
  ⟨⟨picks_sublist.subset (List.mem_of_getElem? h), picks_hits h⟩, hlt⟩

theorem Found.apart (hi : Found content names i f) (hj : Found content names j g) :
    (i = j → f = g) ∧ (i < j → i + 3 ≤ j) := by
  obtain ⟨s, r, hs, -, hr, rfl⟩ := hi
  obtain ⟨t, q, ht, -, hq, rfl⟩ := hj
  have hsr := lt_of_picks hr
  have htq := lt_of_picks hq
  rcases hs.apart ht with rfl | hst | hst
  · refine ⟨fun h => ?_, fun h => by omega⟩
    rcases (show r = q by omega) with rfl
    rw [hr, Option.some.injEq] at hq
    exact hq
  · exact ⟨fun h => by omega, fun h => by omega⟩
  · exact ⟨fun h => by omega, fun h => by omega⟩

/-- What is found three lines on is found by the same block. -/
theorem Found.next {s r : Nat} (hs : Start content names s) (hr : (picks content names s)[r]? = some f)
    (hg : Found content names (s + 3 * r + 3) g) : (picks content names s)[r + 1]? = some g := by
  obtain ⟨t, q, ht, -, hq, heq⟩ := hg
  have hsr := lt_of_picks hr
  have htq := lt_of_picks hq
  have hle : t ≤ blockEnd content names t := le_blockEnd
  rcases hs.apart ht with rfl | hst | hst
  · rcases (show q = r + 1 by omega) with rfl
    exact hq
  · omega
  · omega

theorem ordered_of_found (hall : ∀ i f, Inside content names i f → Found content names i f) {fs : List String}
    (h : Chain content names i fs) : fs.Sublist names := by
  cases fs with
  | nil => exact List.nil_sublist _
  | cons f fs =>
    obtain ⟨s, q, hs, -, hq, hi⟩ := hall _ _ (h 0 f rfl)
    have hblock : ∀ r g, (f :: fs)[r]? = some g → (picks content names s)[q + r]? = some g := by
      intro r
      induction r with
      | zero =>
        intro g hg
        rw [List.getElem?_cons_zero] at hg
        rw [← hg]
        exact hq
      | succ r ih =>
        intro g hg
        have hlt := (List.getElem?_eq_some_iff.mp hg).1
        have hr := ih (f :: fs)[r] (List.getElem?_eq_getElem (by omega))
        have hfound := hall _ _ (h (r + 1) g hg)
        rw [show i + 3 * (r + 1) = s + 3 * (q + r) + 3 by omega] at hfound
        exact hfound.next hs hr
    have hprefix : f :: fs <+: (picks content names s).drop q := by
      rw [List.prefix_iff_getElem?]
      intro r hr
      rw [List.getElem?_drop]
      exact hblock r _ (List.getElem?_eq_getElem hr)
    exact hprefix.sublist.trans ((List.drop_sublist _ _).trans picks_sublist)

theorem wellSpaced_of_found (hend : BlocksEnd content names)
    (hall : ∀ i f, Inside content names i f → Found content names i f) :
    WellSpaced content names := by
  have hapart : ∀ i f j g, Inside content names i f → Inside content names j g → (i = j → f = g) ∧
      (i < j → i + 3 ≤ j) :=
    fun i f j g hi hj => (hall i f hi).apart (hall j g hj)
  refine ⟨hapart, fun i fs h => ordered_of_found hall h, fun j g hg hout => ?_⟩
  obtain ⟨s, hs, hsj, hj⟩ := exists_start content names j
  have hlt := lt_of_hits hg.2
  have hes := hend s hs (Nat.lt_of_le_of_lt hsj hlt)
  have hr : 3 * ((j - s) / 3) ≤ j - s := Nat.mul_div_le _ _
  have hr' : j - s < 3 * ((j - s) / 3) + 3 := by omega
  rcases Nat.lt_or_ge ((j - s) / 3) (picks content names s).length with hlen | hlen
  · -- The block finds a function at most two lines before.
    have hp := List.getElem?_eq_getElem hlen
    have hin := lt_of_picks hp
    refine Or.inl ⟨_, _, inside_of_picks hp (by omega), ?_⟩
    omega
  · -- The block ends here: the function is not among those left over.
    unfold blockEnd at hj hes
    have hjs : j = s + 3 * (picks content names s).length := by omega
    refine Or.inr ⟨s, picks content names s, fun hnil => ?_, fun r f hr => ?_, hjs, fun hsub => ?_⟩
    · rw [hnil] at hjs
      exact not_hits_of_picks hnil hg.1 (hjs ▸ hg.2 : Hits content (s + 3 * [].length) g)
    · have hle := lt_of_picks hr
      unfold blockEnd at hle
      exact inside_of_picks hr (by omega)
    · refine absurd (picks_more hsub (hjs ▸ hg.2) fun r h hr => ⟨picks_hits hr, fun f hf hhit => ?_⟩) (Nat.lt_irrefl _)
      have hle := lt_of_picks hr
      unfold blockEnd at hle
      have hin := inside_of_picks hr (by omega)
      exact (hapart _ _ _ _ ⟨⟨hf, hhit⟩, hin.2⟩ hin).1 rfl

/-! ### From the spacing to what is found -/

variable (content names) in
/-- No header stands in the three lines before `s`. -/
def Clear (s : Nat) : Prop := ∀ i f, Inside content names i f → i < s → i + 3 < s

namespace WellSpaced
variable (W : WellSpaced content names) {s : Nat}

include W

/-- A chain that ends where another one does is the end of it, when no header stands before that one. -/
theorem chain_eq_drop (hclear : Clear content names s) {hs fs : List String} (hchain : Chain content names s hs)
    (hfs : Chain content names i fs) (heq : i + 3 * fs.length = s + 3 * hs.length) : ∃ k, fs = hs.drop k := by
  rcases Nat.lt_or_ge hs.length fs.length with hlt | hge
  · -- The longer chain would have a header three lines before `s`.
    have hr : fs.length - hs.length - 1 < fs.length := by omega
    have hin := hfs _ _ (List.getElem?_eq_getElem hr)
    have := hclear _ _ hin (by omega)
    omega
  · refine ⟨hs.length - fs.length, List.ext_getElem (by rw [List.length_drop]; omega) fun r h1 h2 => ?_⟩
    rw [List.length_drop] at h2
    rw [List.getElem_drop]
    have hfr := hfs r _ (List.getElem?_eq_getElem h1)
    have hhr := hchain (hs.length - fs.length + r) _ (List.getElem?_eq_getElem (by omega))
    exact (W.apart _ _ _ _ hfr hhr).1 (by omega)

theorem blockEnd_lt (hclear : Clear content names s) (hlt : s < content.length) :
    blockEnd content names s < content.length := by
  by_contra hge
  rcases List.eq_nil_or_concat (picks content names s) with hnil | ⟨hs, g, hpicks⟩
  · rw [blockEnd, hnil] at hge
    exact hge hlt
  · -- The last function found would be the one that the index error is about.
    have hg : (picks content names s)[hs.length]? = some g := by simp [hpicks]
    have hlast := picks_hits hg
    have hjlt := lt_of_hits hlast
    have hend : blockEnd content names s = s + 3 * hs.length + 3 := by
      rw [blockEnd, hpicks, List.concat_eq_append, List.length_append, List.length_singleton]
      omega
    have hchain : Chain content names s hs := fun r f hr => by
      have hrlt := (List.getElem?_eq_some_iff.mp hr).1
      refine inside_of_picks ?_ (by omega)
      rw [hpicks, List.concat_eq_append, List.getElem?_append_left hrlt]
      exact hr
    rcases W.covered _ g ⟨picks_sublist.subset (List.mem_of_getElem? hg), hlast⟩ (by omega) with
      ⟨i, f, hin, hi⟩ | ⟨i, fs, -, hfs, heq, hsub⟩
    · cases hs.eq_nil_or_concat with
      | inl hnil =>
        subst hnil
        have := hclear i f hin (by simp only [List.length_nil] at hi; omega)
        simp only [List.length_nil] at hi
        omega
      | inr h =>
        obtain ⟨hs', f', rfl⟩ := h
        have hin' := hchain hs'.length f' (by simp)
        have hlen : (hs'.concat f').length = hs'.length + 1 := by simp
        have := (W.apart _ _ _ _ hin' hin).2 (by omega)
        omega
    · obtain ⟨k, rfl⟩ := W.chain_eq_drop hclear hchain hfs heq.symm
      refine hsub (List.Sublist.trans ?_ (picks_sublist : (picks content names s).Sublist names))
      rw [hpicks, List.concat_eq_append]
      exact (List.drop_sublist k hs).append (List.Sublist.refl _)

theorem found_of_block (hclear : Clear content names s) (hlt : s < content.length) (hin : Inside content names i f)
    (hsi : s ≤ i) (hi : i ≤ blockEnd content names s) : ∃ r, (picks content names s)[r]? = some f ∧ i = s + 3 * r := by
  have hend := W.blockEnd_lt hclear hlt
  have hpicks : ∀ r g, (picks content names s)[r]? = some g → Inside content names (s + 3 * r) g := fun r g hr => by
    have hle := lt_of_picks hr
    exact inside_of_picks hr (by omega)
  have hr : 3 * ((i - s) / 3) ≤ i - s := Nat.mul_div_le _ _
  rcases Nat.lt_or_ge ((i - s) / 3) (picks content names s).length with hlen | hlen
  · have hp := List.getElem?_eq_getElem hlen
    have hap := W.apart _ _ _ _ (hpicks _ _ hp) hin
    rcases (show i = s + 3 * ((i - s) / 3) ∨ s + 3 * ((i - s) / 3) < i by omega) with heq | hgt
    · exact ⟨_, (hap.1 heq.symm) ▸ hp, heq⟩
    · have := hap.2 hgt
      omega
  · -- In the last line of the block: it would be in order, so the block would find it.
    unfold blockEnd at hi
    have his : i = s + 3 * (picks content names s).length := by omega
    have hchain : Chain content names s (picks content names s ++ [f]) := fun r g hg => by
      rcases Nat.lt_or_ge r (picks content names s).length with hlt' | hge'
      · rw [List.getElem?_append_left hlt'] at hg
        exact hpicks r g hg
      · rw [List.getElem?_append_right hge', List.getElem?_singleton] at hg
        split_ifs at hg with h0
        rw [Option.some.injEq] at hg
        rw [← hg, show r = (picks content names s).length by omega, ← his]
        exact hin
    refine absurd (picks_more (W.ordered s _ hchain) (his ▸ hin.1.2) fun r h hr =>
      ⟨picks_hits hr, fun f' hf' hhit => ?_⟩) (Nat.lt_irrefl _)
    have hin' := hpicks r h hr
    exact (W.apart _ _ _ _ ⟨⟨hf', hhit⟩, hin'.2⟩ hin').1 rfl

theorem clear (h : Start content names s) : Clear content names s := by
  induction h with
  | zero => exact fun i f _ h0 => absurd h0 (Nat.not_lt_zero _)
  | @next s _ ih =>
    intro i f hin hi
    have hle : s ≤ blockEnd content names s := le_blockEnd
    have h3 := hin.2
    rcases Nat.lt_or_ge s content.length with hlt | hge
    · rcases Nat.lt_or_ge i s with his | hsi
      · have := ih i f hin his
        omega
      · obtain ⟨r, hr, rfl⟩ := W.found_of_block ih hlt hin hsi (Nat.le_of_lt_succ hi)
        have := lt_of_picks hr
        omega
    · omega

theorem blocksEnd : BlocksEnd content names := fun _ hs hlt => W.blockEnd_lt (W.clear hs) hlt

theorem found (hin : Inside content names i f) : Found content names i f := by
  obtain ⟨s, hs, hsi, hi⟩ := exists_start content names i
  have hlt : s < content.length := Nat.lt_of_le_of_lt hsi (lt_of_hits hin.1.2)
  obtain ⟨r, hr, heq⟩ := W.found_of_block (W.clear hs) hlt hin hsi hi
  exact ⟨s, r, hs, hlt, hr, heq⟩

end WellSpaced
end Listing

/-- The scan prints every header with the line it belongs to, and stays in the text, exactly when the headers
    keep out of each other's way. -/
theorem printsAll_iff_wellSpaced (content names : List String) : PrintsAll content names ↔
    WellSpaced content names := by
  rw [printsAll_iff]
  constructor
  · rintro ⟨hend, hall⟩
    exact wellSpaced_of_found hend hall
  · intro W
    exact ⟨W.blocksEnd, fun _ _ hin => W.found hin⟩

/-- Two functions with three lines from header to header: the one that is later in the text is earlier in
    the list, so its header is not looked for when the scan comes to it. -/
theorem printsAll_misses :
    ¬PrintsAll ["0000 <f>:", " push", " ret", "0008 <g>:", " push", " mov", " ret"] ["g", "f"] := by
  rintro ⟨out, hout, hall⟩
  have hscan : scanObjdump ["0000 <f>:", " push", " ret", "0008 <g>:", " push", " mov", " ret"] ["g", "f"] 8 0 =
    some (.ok [⟨"f", 3, "0008 <g>:"⟩]) := by decide
  obtain ⟨line, -, hmem⟩ := hall 3 "g" ⟨⟨by decide, by decide⟩, by decide⟩
  have heq := hscan.symm.trans hout
  simp only [Option.some.injEq, Except.ok.injEq] at heq
  rw [← heq] at hmem
  simp at hmem

end StackVault.Objdump
