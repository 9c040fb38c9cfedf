import StackVault.StackAreas
import Mathlib.Data.List.OfFn
import Mathlib.Tactic.SplitIfs

/-! The areas that `get_stack_areas` notes for a range with `top < bottom`. The walk cuts the range where the frame
    changes, so the areas follow one another from the top to the bottom, whatever the page map is. They are
    too many for the array when the frame changes ten times; and an area leaves its page when two neighbouring
    pages of the range have the same frame. -/

namespace StackVault.Pages

/-- The frame of the page of an address. -/
def frame (pm : Pagemap) (x : Nat) : BitVec 64 := (pm (x / 4096)).setWidth 64 &&& 0x7fffffffffffff

/-- Areas one after another from `lo` to `hi`: each begins where its frame does, all its bytes have that frame, and
    the next one begins with a change. -/
def Tiles (pm : Pagemap) (hi : Nat) : Nat → List Sarea → Prop
  | lo, [] => lo = hi
  | lo, a :: as => 0 < a.len.toNat ∧ a.pageFrame = frame pm lo ∧ a.offset.toNat = lo % 4096 ∧
    (∀ x, lo ≤ x → x < lo + a.len.toNat → frame pm x = frame pm lo) ∧
    (as ≠ [] → frame pm (lo + a.len.toNat) ≠ frame pm (lo + a.len.toNat - 1)) ∧ Tiles pm hi (lo + a.len.toNat) as

@[simp] theorem tiles_nil {pm : Pagemap} {lo hi : Nat} : Tiles pm hi lo [] ↔ lo = hi := Iff.rfl

/-- The array with areas written to it from index `i` on. -/
def fill (ret : Fin 10 → Sarea) (i : Nat) (as : List Sarea) : Fin 10 → Sarea := fun k =>
  if i ≤ k then (as[k.val - i]?).getD (ret k) else ret k

section Walk
variable {pm : Pagemap} {n t : Nat} {tmpAddr : Addr} {w : AreaWalk}

theorem get_page_frame_number_eq {addr : Addr} (h : addr.toNat = t) :
    getPageFrameNumberOfAddress (some pm) addr = .ok (frame pm t) := by
  rw [← h]
  rfl

theorem fill_cons {ret : Fin 10 → Sarea} {i : Nat} (h : i < 10) (a : Sarea) (as : List Sarea) :
    fill (Function.update ret ⟨i, h⟩ a) (i + 1) as = fill ret i (a :: as) := by
  funext k
  unfold fill
  rcases Nat.lt_trichotomy k.val i with hk | hk | hk
  · have hne : k ≠ ⟨i, h⟩ := fun he => by rw [he] at hk; exact Nat.lt_irrefl _ hk
    rw [if_neg (by omega), if_neg (by omega), Function.update_of_ne hne]
  · have heq : k = ⟨i, h⟩ := Fin.ext hk
    rw [if_neg (by omega), if_pos (by omega), heq, Function.update_self]
    simp
  · have hne : k ≠ ⟨i, h⟩ := fun he => by rw [he] at hk; exact Nat.lt_irrefl _ hk
    rw [if_pos (by omega), if_pos (by omega), Function.update_of_ne hne, show k.val - i = k.val - (i + 1) + 1 by omega]
    rfl

theorem fill_nil {ret : Fin 10 → Sarea} {i : Nat} : fill ret i [] = ret := by
  funext k
  simp [fill]

theorem toNat_succ {addr : Addr} (h : addr.toNat = t) (ht : t + 1 < 2 ^ 64) : (addr + 1).toNat = t + 1 := by
  rw [BitVec.toNat_add, h]
  exact Nat.mod_eq_of_lt ht

theorem toNat_len {topAddr : Addr} (htmp : tmpAddr.toNat = t + 1) (htop : topAddr.toNat ≤ t) :
    (tmpAddr - topAddr).toNat = t + 1 - topAddr.toNat := by
  rw [BitVec.toNat_sub_of_le (BitVec.le_def.mpr (by omega)), htmp]

/-- What an area that ends in front of `tmp_addr` adds to the areas behind it. -/
theorem Tiles.cons {hi : Nat} {a : Sarea} {as : List Sarea} {lo : Nat} (hlen : a.len.toNat = t + 1 - lo) (hlo : lo ≤ t)
    (hframe : a.pageFrame = frame pm lo) (hoff : a.offset.toNat = lo % 4096)
    (hsame : ∀ x, lo ≤ x → x ≤ t → frame pm x = frame pm lo) (hnext : as ≠ [] → frame pm (t + 1) ≠ frame pm t)
    (h : Tiles pm hi (t + 1) as) : Tiles pm hi lo (a :: as) := by
  have hend : lo + a.len.toNat = t + 1 := by omega
  refine ⟨by omega, hframe, hoff, fun x h1 h2 => hsame x h1 (by omega), ?_, ?_⟩
  · rw [hend, Nat.add_sub_cancel]
    exact hnext
  · rw [hend]
    exact h

/-- The walk from the byte behind `t` on, with the area open that begins at `top_addr`: what it still writes
    tiles the rest of the range. -/
theorem walkRange_tiles (n : Nat) (topAddr : Addr) (prePageNum offset : BitVec 64) (htmp : tmpAddr.toNat = t + 1)
    (hfit : t + 1 + n < 2 ^ 64) (htop : topAddr.toNat ≤ t) (hpre : prePageNum = frame pm topAddr.toNat)
    (hoff : offset.toNat = topAddr.toNat % 4096)
    (hsame : ∀ x, topAddr.toNat ≤ x → x ≤ t → frame pm x = frame pm topAddr.toNat) :
    ∃ as, as ≠ [] ∧ Tiles pm (t + 1 + n) topAddr.toNat as ∧ ∀ ret i,
      (walkRange (some pm) n tmpAddr { ret, i, topAddr, prePageNum, offset } >>= fun p => p.2.append p.1) =
        if i + as.length ≤ 10 then .ok (fill ret i as) else .error .outOfBounds := by
  induction n generalizing t tmpAddr topAddr prePageNum offset with
  | zero =>
    refine ⟨[⟨prePageNum, offset, tmpAddr - topAddr⟩], List.cons_ne_nil _ _, ?_, fun ret i => ?_⟩
    · exact Tiles.cons (toNat_len htmp htop) htop hpre hoff hsame (fun h => absurd rfl h) rfl
    · simp only [walkRange, bind, Except.bind, AreaWalk.append, List.length_singleton]
      split_ifs with h1 h2 h2
      · rw [← fill_cons h1, fill_nil]
      · omega
      · omega
      · rfl
  | succ n ih =>
    have htmp' := toNat_succ htmp (by omega)
    simp only [walkRange, get_page_frame_number_eq htmp, bind, Except.bind]
    by_cases hpage : frame pm (t + 1) = prePageNum
    · -- The frame goes on: the same area stays open.
      rw [show t + 1 + (n + 1) = t + 1 + 1 + n by omega]
      simp only [if_neg (not_not.mpr hpage)]
      refine ih topAddr prePageNum offset htmp' (by omega) (by omega) hpre hoff fun x h1 h2 => ?_
      rcases Nat.lt_or_ge t x with hx | hx
      · rw [show x = t + 1 by omega, hpage, hpre]
      · exact hsame x h1 hx
    · -- The frame changes: the open area ends here, and the next one begins.
      obtain ⟨as, hne, htiles, hrun⟩ := ih tmpAddr (frame pm (t + 1)) (tmpAddr % 4096) htmp' (by omega) (by omega)
        (by rw [htmp]) (by simp) (fun x h1 h2 => by rw [htmp] at h1 ⊢; rw [Nat.le_antisymm h2 h1])
      refine ⟨⟨prePageNum, offset, tmpAddr - topAddr⟩ :: as, List.cons_ne_nil _ _, ?_, fun ret i => ?_⟩
      · refine Tiles.cons (toNat_len htmp htop) htop hpre hoff hsame (fun _ => ?_) ?_
        · rw [hsame t htop (Nat.le_refl _), ← hpre]
          exact hpage
        · rw [htmp, show t + 1 + 1 + n = t + 1 + (n + 1) by omega] at htiles
          exact htiles
      · simp only [ne_eq, hpage, not_false_eq_true, if_true, AreaWalk.append, List.length_cons]
        by_cases hi : i < 10
        · have hrun' := hrun (Function.update ret ⟨i, hi⟩ ⟨prePageNum, offset, tmpAddr - topAddr⟩) (i + 1)
          rw [fill_cons hi, show i + 1 + as.length = i + (as.length + 1) by omega] at hrun'
          simp only [dif_pos hi]
          exact hrun'
        · rw [dif_neg hi, if_neg (by omega)]

/-- For a range with `top < bottom` the walk either fills the array with areas that tile the range, or there are more
    than ten of them. -/
theorem getStackAreas_tiles (old : Fin 10 → Sarea) (pm : Pagemap) {topAddr bottomAddr : Addr}
    (h : topAddr < bottomAddr) :
    ∃ as, as ≠ [] ∧ Tiles pm bottomAddr.toNat topAddr.toNat as ∧
      getStackAreas (some old) (some pm) topAddr bottomAddr =
        if as.length ≤ 10 then .ok (fill (fun k => { old k with len := -1 }) 0 as) else .error .outOfBounds := by
  rw [BitVec.lt_def] at h
  have hbot := bottomAddr.isLt
  have htmp := toNat_succ (rfl : topAddr.toNat = topAddr.toNat) (by omega)
  obtain ⟨as, hne, htiles, hrun⟩ := walkRange_tiles (bottomAddr.toNat - (topAddr + 1).toNat)
    topAddr (frame pm topAddr.toNat) (topAddr % 4096) htmp (by omega) (Nat.le_refl _) rfl (by simp)
    (fun x h1 h2 => by rw [Nat.le_antisymm h2 h1])
  rw [show topAddr.toNat + 1 + (bottomAddr.toNat - (topAddr + 1).toNat) = bottomAddr.toNat by omega] at htiles
  have hrun' := hrun (fun k => { old k with len := -1 }) 0
  rw [Nat.zero_add] at hrun'
  exact ⟨as, hne, htiles, hrun'⟩

end Walk

/-! ### What tiles a range -/

/-- Neighbouring pages that the range `[lo, hi)` touches have different frames. -/
def NeighboursDiffer (pm : Pagemap) (lo hi : Nat) : Prop :=
  ∀ q, lo / 4096 ≤ q → q + 1 ≤ (hi - 1) / 4096 → frame pm (4096 * q) ≠ frame pm (4096 * (q + 1))

/-- Where an area begins: behind the areas before it. -/
def areaStart (lo : Nat) (as : List Sarea) (k : Nat) : Nat := lo + ((as.take k).map fun a => a.len.toNat).sum

/-- The area stays in its page. -/
def Sarea.InPage (a : Sarea) : Prop := a.offset.toNat + a.len.toNat ≤ 4096

theorem frame_congr {pm : Pagemap} {x y : Nat} (h : x / 4096 = y / 4096) : frame pm x = frame pm y := by
  rw [frame, frame, h]

theorem areaStart_cons {lo k : Nat} {a : Sarea} {as : List Sarea} :
    areaStart lo (a :: as) (k + 1) = areaStart (lo + a.len.toNat) as k := by
  simp [areaStart, Nat.add_assoc]

theorem areaStart_add {lo k n : Nat} {as : List Sarea} :
    areaStart lo as (k + n) = areaStart lo as k + (((as.drop k).take n).map fun a => a.len.toNat).sum := by
  rw [areaStart, areaStart, List.take_add, List.map_append, List.sum_append, Nat.add_assoc]

theorem areaStart_succ {lo k : Nat} {a : Sarea} {as : List Sarea} (hk : as[k]? = some a) :
    areaStart lo as (k + 1) = areaStart lo as k + a.len.toNat := by
  obtain ⟨hlt, rfl⟩ := List.getElem?_eq_some_iff.mp hk
  have htake : (as.drop k).take 1 = [as[k]] := by
    rw [List.drop_eq_getElem_cons hlt]
    rfl
  rw [areaStart_add, htake]
  rfl

theorem areaStart_mono {lo k l : Nat} {as : List Sarea} (h : k ≤ l) : areaStart lo as k ≤ areaStart lo as l := by
  obtain ⟨n, rfl⟩ := Nat.exists_eq_add_of_le h
  rw [areaStart_add]
  exact Nat.le_add_right _ _

namespace Tiles
variable {pm : Pagemap} {lo hi : Nat} {as : List Sarea}

theorem areaStart_length (h : Tiles pm hi lo as) : areaStart lo as as.length = hi := by
  induction as generalizing lo with
  | nil => simpa [areaStart] using h
  | cons a as ih =>
    obtain ⟨-, -, -, -, -, h⟩ := h
    rw [List.length_cons, areaStart_cons, ih h]

theorem le (h : Tiles pm hi lo as) : lo ≤ hi := by
  rw [← h.areaStart_length]
  exact Nat.le_add_right _ _

/-- The bytes of an area are the bytes of the range at its place, in its frame. -/
theorem bytes (h : Tiles pm hi lo as) {k : Nat} {a : Sarea} (hk : as[k]? = some a) :
    a.offset.toNat = areaStart lo as k % 4096 ∧ ∀ j < a.len.toNat, frame pm (areaStart lo as k + j) = a.pageFrame := by
  induction as generalizing lo k with
  | nil => simp at hk
  | cons b as ih =>
    obtain ⟨-, hframe, hoff, hsame, -, h⟩ := h
    cases k with
    | zero =>
      simp only [List.getElem?_cons_zero, Option.some.injEq] at hk
      subst hk
      refine ⟨by simpa [areaStart] using hoff, fun j hj => ?_⟩
      simp only [areaStart, List.take_zero, List.map_nil, List.sum_nil, Nat.add_zero]
      rw [hsame (lo + j) (Nat.le_add_right _ _) (by omega), hframe]
    | succ k =>
      rw [areaStart_cons]
      exact ih h hk

/-- Every byte of the range belongs to one area, at one place in it. -/
theorem once (h : Tiles pm hi lo as) {x : Nat} (hlo : lo ≤ x) (hx : x < hi) :
    ∃! p : Nat × Nat, ∃ a, as[p.1]? = some a ∧ p.2 < a.len.toNat ∧ x = areaStart lo as p.1 + p.2 := by
  induction as generalizing lo with
  | nil =>
    simp only [Tiles] at h
    omega
  | cons b as ih =>
    obtain ⟨-, -, -, -, -, h⟩ := h
    have h0 : areaStart lo (b :: as) 0 = lo := by simp [areaStart]
    have hge : ∀ k, lo + b.len.toNat ≤ areaStart lo (b :: as) (k + 1) := fun k => by
      rw [areaStart_cons]
      exact Nat.le_add_right _ _
    rcases Nat.lt_or_ge x (lo + b.len.toNat) with hlt | hle
    · refine ⟨(0, x - lo), ⟨b, rfl, by dsimp only; omega, by dsimp only; omega⟩, ?_⟩
      rintro ⟨k, j⟩ ⟨a, hk, hj, heq⟩
      cases k with
      | zero =>
        dsimp only at heq
        rw [h0] at heq
        exact Prod.ext rfl (by dsimp only; omega)
      | succ k =>
        have := hge k
        dsimp only at heq
        omega
    · obtain ⟨⟨k, j⟩, ⟨a, hk, hj, heq⟩, huniq⟩ := ih h hle
      refine ⟨(k + 1, j), ⟨a, hk, hj, by rw [areaStart_cons]; exact heq⟩, ?_⟩
      rintro ⟨k', j'⟩ ⟨a', hk', hj', heq'⟩
      cases k' with
      | zero =>
        simp only [List.getElem?_cons_zero, Option.some.injEq] at hk'
        dsimp only at hj' heq'
        rw [h0] at heq'
        rw [← hk'] at hj'
        omega
      | succ k' =>
        dsimp only at heq'
        rw [areaStart_cons] at heq'
        have hp := huniq (k', j') ⟨a', hk', hj', heq'⟩
        rw [Prod.mk.injEq] at hp
        rw [hp.1, hp.2]

/-- A change of the frame is at the start of a page. -/
theorem change (hpos : 0 < hi) (h : frame pm hi ≠ frame pm (hi - 1)) : hi % 4096 = 0 := by
  by_contra hne
  exact h (frame_congr (by omega))

/-- Where neighbouring pages differ, no area leaves its page. -/
theorem inPage (h : Tiles pm hi lo as) (hdiff : NeighboursDiffer pm lo hi) : ∀ a ∈ as, a.InPage := by
  induction as generalizing lo with
  | nil => simp
  | cons b as ih =>
    obtain ⟨hpos, -, hoff, hsame, -, h⟩ := h
    have hle := h.le
    intro a ha
    rcases List.mem_cons.mp ha with rfl | ha
    · unfold Sarea.InPage
      by_contra hout
      have hnext := hdiff (lo / 4096) (Nat.le_refl _) (by omega)
      have hsame' := hsame (4096 * (lo / 4096 + 1)) (by omega) (by omega)
      exact hnext ((frame_congr (by omega)).trans hsame'.symm)
    · refine ih h (fun q hq hq' => hdiff q ?_ hq') a ha
      exact Nat.le_trans (Nat.div_le_div_right (Nat.le_add_right _ _)) hq

/-- There are at most as many areas as pages. -/
theorem length_le (h : Tiles pm hi lo as) (hne : as ≠ []) : as.length ≤ (hi - 1) / 4096 - lo / 4096 + 1 := by
  induction as generalizing lo with
  | nil => exact absurd rfl hne
  | cons b as ih =>
    obtain ⟨hpos, -, -, -, hnext, h⟩ := h
    have hle := h.le
    cases as with
    | nil => simp
    | cons c as =>
      have hchange := change (by omega) (hnext (List.cons_ne_nil _ _))
      have hlen := ih h (List.cons_ne_nil _ _)
      have hlt : lo + b.len.toNat < hi := by
        obtain ⟨hc, -, -, -, -, h⟩ := h
        have := h.le
        omega
      rw [List.length_cons]
      omega

/-- Areas that stay in their pages are at least as many as the pages, -/
theorem length_ge (h : Tiles pm hi lo as) (hlt : lo < hi) (hin : ∀ a ∈ as, a.InPage) :
    (hi - 1) / 4096 - lo / 4096 + 1 ≤ as.length := by
  induction as generalizing lo with
  | nil =>
    simp only [Tiles] at h
    omega
  | cons b as ih =>
    obtain ⟨hpos, -, hoff, -, -, h⟩ := h
    have hb := hin b List.mem_cons_self
    unfold Sarea.InPage at hb
    rw [List.length_cons]
    rcases Nat.lt_or_ge (lo + b.len.toNat) hi with hlt' | hge
    · have := ih h hlt' fun a ha => hin a (List.mem_cons_of_mem _ ha)
      omega
    · omega

/-- and the frame changes from each page of the range to the next. -/
theorem neighboursDiffer (h : Tiles pm hi lo as) (hin : ∀ a ∈ as, a.InPage) : NeighboursDiffer pm lo hi := by
  induction as generalizing lo with
  | nil =>
    intro q hq hq'
    simp only [Tiles] at h
    omega
  | cons b as ih =>
    obtain ⟨hpos, -, hoff, -, hnext, h⟩ := h
    have hb := hin b List.mem_cons_self
    unfold Sarea.InPage at hb
    have hle := h.le
    intro q hq hq'
    rcases Nat.lt_or_ge (4096 * (q + 1)) (lo + b.len.toNat) with hlt | hge
    · omega
    · rcases Nat.lt_or_ge (lo + b.len.toNat) (4096 * (q + 1)) with hlt' | hge'
      · refine ih h (fun a ha => hin a (List.mem_cons_of_mem _ ha)) q ?_ hq'
        omega
      · have heq : lo + b.len.toNat = 4096 * (q + 1) := by omega
        have hne : as ≠ [] := by
          rintro rfl
          simp only [Tiles] at h
          omega
        have hchange := hnext hne
        rw [heq] at hchange
        intro hsame
        exact hchange (hsame.symm.trans (frame_congr (by omega)))

end Tiles

/-! ### The partition -/

/-- The first `m` areas of the array partition the range: they follow one another from `top_addr` to `bottom_addr`,
    each in its page; byte `j` of an area is at its frame and at `offset + j`; every byte of the range is a byte
    of one area, once; and the rest of the array is unused. -/
structure Partitions (pm : Pagemap) (topAddr bottomAddr : Addr) (ret : Fin 10 → Sarea) (m : Nat) : Prop where
  used : m ≤ 10
  unused : ∀ k : Fin 10, m ≤ k → (ret k).len = -1
  consecutive : areaStart topAddr.toNat (List.ofFn ret) m = bottomAddr.toNat
  inPage : ∀ k : Fin 10, k < m → (ret k).offset.toNat + (ret k).len.toNat ≤ 4096
  bytes : ∀ k : Fin 10, k < m → ∀ j < (ret k).len.toNat,
    (ret k).pageFrame = frame pm (areaStart topAddr.toNat (List.ofFn ret) k + j) ∧
    (ret k).offset.toNat + j = (areaStart topAddr.toNat (List.ofFn ret) k + j) % 4096
  once : ∀ x, topAddr.toNat ≤ x → x < bottomAddr.toNat → ∃! p : Fin 10 × Nat, p.1 < m ∧ p.2 < (ret p.1).len.toNat ∧
    x = areaStart topAddr.toNat (List.ofFn ret) p.1 + p.2

section Fill
variable {ret : Fin 10 → Sarea} {as : List Sarea}

theorem fill_of_lt {k : Fin 10} (hk : k < as.length) : fill ret 0 as k = as[k] := by
  simp [fill, List.getElem?_eq_getElem hk]

theorem fill_of_le {k : Fin 10} (hk : as.length ≤ k) : fill ret 0 as k = ret k := by
  simp [fill, List.getElem?_eq_none hk]

theorem take_ofFn_fill (h : as.length ≤ 10) {k : Nat} (hk : k ≤ as.length) :
    (List.ofFn (fill ret 0 as)).take k = as.take k := by
  refine List.ext_getElem (by simp; omega) fun i h1 h2 => ?_
  rw [List.length_take] at h2
  have hi : i < as.length := by omega
  rw [List.getElem_take, List.getElem_take, List.getElem_ofFn]
  exact fill_of_lt (k := ⟨i, by omega⟩) hi

theorem areaStart_fill {lo : Nat} (h : as.length ≤ 10) {k : Nat} (hk : k ≤ as.length) :
    areaStart lo (List.ofFn (fill ret 0 as)) k = areaStart lo as k := by
  rw [areaStart, areaStart, take_ofFn_fill h hk]

theorem partitions_fill {pm : Pagemap} {topAddr bottomAddr : Addr} (htiles : Tiles pm bottomAddr.toNat topAddr.toNat as)
    (h : as.length ≤ 10) (hin : ∀ a ∈ as, a.InPage) (hret : ∀ k, (ret k).len = -1) :
    Partitions pm topAddr bottomAddr (fill ret 0 as) as.length where
  used := h
  unused k hk := by rw [fill_of_le hk, hret]
  consecutive := by rw [areaStart_fill h (Nat.le_refl _), htiles.areaStart_length]
  inPage k hk := by
    rw [fill_of_lt hk]
    exact hin _ (List.getElem_mem hk)
  bytes k hk j hj := by
    rw [fill_of_lt hk] at hj ⊢
    rw [areaStart_fill h (Nat.le_of_lt hk)]
    obtain ⟨hoff, hbytes⟩ := htiles.bytes (List.getElem?_eq_getElem hk)
    have hpage : (as[k]).offset.toNat + (as[k]).len.toNat ≤ 4096 := hin _ (List.getElem_mem hk)
    have hoff' : (as[k]).offset.toNat = areaStart topAddr.toNat as k % 4096 := hoff
    exact ⟨(hbytes j hj).symm, by omega⟩
  once x hlo hx := by
    obtain ⟨⟨k, j⟩, ⟨a, hk, hj, heq⟩, huniq⟩ := htiles.once hlo hx
    obtain ⟨hlt, rfl⟩ := List.getElem?_eq_some_iff.mp hk
    dsimp only at hlt hj heq
    refine ⟨(⟨k, by omega⟩, j), ⟨hlt, ?_, ?_⟩, ?_⟩
    · rw [fill_of_lt (k := ⟨k, by omega⟩) hlt]
      exact hj
    · rw [areaStart_fill h (Nat.le_of_lt hlt)]
      exact heq
    · rintro ⟨k', j'⟩ ⟨hlt', hj', heq'⟩
      dsimp only at hlt' hj' heq'
      rw [fill_of_lt hlt'] at hj'
      rw [areaStart_fill h (Nat.le_of_lt hlt')] at heq'
      have hp := huniq (k'.val, j') ⟨as[k'], List.getElem?_eq_getElem hlt', hj', heq'⟩
      rw [Prod.mk.injEq] at hp
      exact Prod.ext (Fin.ext hp.1) hp.2

end Fill

/-- A range of at most ten pages, neighbouring ones in different frames, is partitioned. -/
theorem areas_partition (old : Fin 10 → Sarea) (pm : Pagemap) {topAddr bottomAddr : Addr} (h : topAddr < bottomAddr)
    (hpages : (bottomAddr.toNat - 1) / 4096 - topAddr.toNat / 4096 < 10)
    (hdiff : NeighboursDiffer pm topAddr.toNat bottomAddr.toNat) :
    ∃ ret m, getStackAreas (some old) (some pm) topAddr bottomAddr = .ok ret ∧
    Partitions pm topAddr bottomAddr ret m := by
  obtain ⟨as, hne, htiles, hrun⟩ := getStackAreas_tiles old pm h
  have hlen : as.length ≤ 10 := by
    have := htiles.length_le hne
    omega
  rw [if_pos hlen] at hrun
  exact ⟨_, _, hrun, partitions_fill htiles hlen (htiles.inPage hdiff) fun _ => rfl⟩

/-- A frame that begins and ends in the middle of a page. -/
theorem areas_partition_frame :
    ∃ ret m, getStackAreas (some fun _ => ⟨7, 7, 7⟩) (some fun q => BitVec.ofNat 56 q) 0x1800 0x3010 = .ok ret ∧
    Partitions (fun q => BitVec.ofNat 56 q) 0x1800 0x3010 ret m :=
  areas_partition _ _ (by decide) (by decide) fun q hq hq' hsame => by
    have h1 : q = 1 ∨ q = 2 := by
      simp at hq hq'
      omega
    rcases h1 with rfl | rfl <;> exact absurd hsame (by decide)

/-! ### The two frames of 4096 bytes -/

section Frames
variable {pm : Pagemap} {preOffset : BitVec 64} {tmpAddr : Addr} {t n m hi lo : Nat} {a : Sarea} {as : List Sarea}

/-- Bytes of the frame are passed over. -/
theorem otherFrame_same (htmp : tmpAddr.toNat = t) (hfit : t + m < 2 ^ 64)
    (hsame : ∀ x, t ≤ x → x < t + m → frame pm x = preOffset) :
    otherFrame (some pm) preOffset (m + n) tmpAddr = otherFrame (some pm) preOffset n (BitVec.ofNat 64 (t + m)) := by
  induction m generalizing t tmpAddr with
  | zero => rw [Nat.zero_add, Nat.add_zero, ← htmp, BitVec.ofNat_toNat, BitVec.setWidth_eq]
  | succ m ih =>
    rw [Nat.add_right_comm, otherFrame, get_page_frame_number_eq htmp]
    simp only [bind, Except.bind, hsame t (Nat.le_refl t) (by omega), ne_eq, not_true_eq_false, if_false]
    rw [ih (toNat_succ htmp (by omega)) (by omega) fun x h1 h2 => hsame x (by omega) (by omega), Nat.add_right_comm,
      Nat.add_assoc t m 1]

/-- Behind the first byte of a range the frame found is that of its second area. -/
theorem Tiles.otherFrame (h : Tiles pm hi lo (a :: as)) (htmp : tmpAddr.toNat = lo + 1) (hfit : hi < 2 ^ 64) :
    Pages.otherFrame (some pm) a.pageFrame (hi - (lo + 1)) tmpAddr = .ok (as.head?.map Sarea.pageFrame) := by
  obtain ⟨hpos, hframe, -, hsame, hnext, h⟩ := h
  have hle := h.le
  have hrest : hi - (lo + 1) = a.len.toNat - 1 + (hi - (lo + a.len.toNat)) := by omega
  have hend : lo + 1 + (a.len.toNat - 1) = lo + a.len.toNat := by omega
  rw [hrest, otherFrame_same htmp (by omega) fun x h1 h2 => (hsame x (by omega) (by omega)).trans hframe.symm, hend]
  cases as with
  | nil =>
    rw [show hi - (lo + a.len.toNat) = 0 by rw [tiles_nil.mp h, Nat.sub_self]]
    rfl
  | cons b bs =>
    obtain ⟨hbpos, hbframe, -, -, -, h⟩ := h
    have hble := h.le
    obtain ⟨n, hn⟩ : ∃ n, hi - (lo + a.len.toNat) = n + 1 := ⟨hi - (lo + a.len.toNat) - 1, by omega⟩
    have hchange : b.pageFrame ≠ a.pageFrame := by
      rw [hbframe, hframe, ← hsame (lo + a.len.toNat - 1) (by omega) (by omega)]
      exact hnext (List.cons_ne_nil _ _)
    rw [hn, Pages.otherFrame, get_page_frame_number_eq (by rw [BitVec.toNat_ofNat, Nat.mod_eq_of_lt (by omega)])]
    simp only [bind, Except.bind, ne_eq, hchange, not_false_eq_true, if_true, ← hbframe]
    rfl

theorem Tiles.len_ne (h : Tiles pm hi lo as) (hfit : hi - lo < 2 ^ 64 - 1) : ∀ a ∈ as, a.len ≠ -1 := by
  induction as generalizing lo with
  | nil => exact fun a ha => absurd ha List.not_mem_nil
  | cons b as ih =>
    obtain ⟨hpos, -, -, -, -, h⟩ := h
    have hle := h.le
    intro a ha
    rcases List.mem_cons.mp ha with rfl | ha
    · intro heq
      rw [heq] at hle
      have hmax : (-1 : BitVec 64).toNat = 2 ^ 64 - 1 := rfl
      omega
    · exact ih h (by omega) a ha

/-- The two functions that look through the page map agree: for 4096 bytes from any address that are not cut off by the
    end of the address space, `get_page_frames` has the frames of the areas that `get_stack_areas` finds, a 0 for the
    second when there is one area only, and there are never more than two. -/
theorem page_frames_agree (old : Fin 10 → Sarea) (pm : Pagemap) (addr : Addr) (h : addr.toNat + 4096 < 2 ^ 64) :
    ∃ ret, getStackAreas (some old) (some pm) addr (addr + 4096) = .ok ret ∧ (ret 0).len ≠ -1 ∧
      getPageFrames true (some pm) addr = .ok ((ret 0).pageFrame, if (ret 1).len = -1 then 0 else (ret 1).pageFrame) ∧
      ∀ k, 2 ≤ k → (ret k).len = -1 := by
  have hend : (addr + 4096).toNat = addr.toNat + 4096 := by
    rw [BitVec.toNat_add]
    exact Nat.mod_eq_of_lt h
  have hlt : addr < addr + 4096 := BitVec.lt_def.mpr (by omega)
  obtain ⟨as, hne, htiles, hrun⟩ := getStackAreas_tiles old pm hlt
  have hlen := htiles.length_le hne
  have hused := htiles.len_ne (by omega)
  have hnext := toNat_succ (rfl : addr.toNat = addr.toNat) (by omega)
  rw [if_pos (by omega)] at hrun
  refine ⟨_, hrun, ?_, ?_, fun k hk => ?_⟩
  · obtain ⟨a, as, rfl⟩ := List.exists_cons_of_ne_nil hne
    exact hused a List.mem_cons_self
  · obtain ⟨a, as, rfl⟩ := List.exists_cons_of_ne_nil hne
    have hother := htiles.otherFrame hnext (by omega)
    obtain ⟨-, hframe, -⟩ := htiles
    rw [← hnext] at hother
    simp only [getPageFrames, get_page_frame_number_eq rfl, bind, Except.bind, if_true, ← hframe, hother]
    cases as with
    | nil => rfl
    | cons b bs =>
      have hb := hused b (List.mem_cons_of_mem _ List.mem_cons_self)
      have hsecond : fill (fun k => { old k with len := -1 }) 0 (a :: b :: bs) 1 = b := rfl
      rw [hsecond, if_neg hb]
      rfl
  · rw [fill_of_le (Nat.le_trans (by omega) (Fin.le_def.mp hk))]

/-- The 4096 bytes from the middle of a page. -/
theorem page_frames_agree_sample :
    ∃ ret, getStackAreas (some fun _ => ⟨7, 7, 7⟩) (some fun q => BitVec.ofNat 56 q) 0x1800 0x2800 = .ok ret ∧
    (ret 0).len ≠ -1 ∧ getPageFrames true (some fun q => BitVec.ofNat 56 q) 0x1800 =
      .ok ((ret 0).pageFrame, if (ret 1).len = -1 then 0 else (ret 1).pageFrame) ∧ ∀ k, 2 ≤ k → (ret k).len = -1 :=
  page_frames_agree (fun _ => ⟨7, 7, 7⟩) (fun q => BitVec.ofNat 56 q) 0x1800 (by decide)

end Frames

end StackVault.Pages
