import StackVault.Theorems.Saving

/-! What the pointer chase changes. It moves bytes and adds holes by `writeBack` alone, so a relation
    that holds between the two sides of a write-back, and of none, holds between the two sides of
    `restore_pointers`. The heap keeps everything but the holes of the save buffer; a list without
    pointers changes nothing. -/

namespace StackVault
open Memory

section Inversion
variable {env : Env} {sbuf : Option SbufPtr} {p : SbufPtr} {b : Sbuf} {addrInStack addrInBuf size len a : Addr}
  {c c' : Chase} {tmp : Para} {n : Nat}

theorem writeBack_inv (h : writeBack env p b addrInStack addrInBuf len c = .ok c') :
    ∃ src, kread b.segs addrInBuf len = .ok src ∧ (b.entry 0).holeList.home = (p, 0) ∧
      c' = { mem := blit c.mem ⟨addrInStack, len⟩ src
             heap := { c.heap with next := c.heap.next + 1 }.set p (some (b.addHole ⟨addrInBuf, len⟩))
             written := c.written ++ [⟨addrInStack, len⟩] } := by
  unfold writeBack at h
  split at h
  · cases h
  · next src hk =>
    dsimp only at h
    split at h
    · cases h
    · split at h
      · cases h
      · next hhome =>
        cases h
        exact ⟨src, hk, not_not.mp hhome, rfl⟩

theorem restoreCell_inv (h : restoreCell env sbuf addrInStack c = .ok c') :
    ∃ p b, c.heap.deref sbuf = .ok (p, b) ∧
      writeBack env p b addrInStack (findInStackBuf addrInStack 8 b.segs) 8 c = .ok c' := by
  unfold restoreCell at h
  split at h
  · cases h
  · next p b hd => exact ⟨p, b, hd, h⟩

theorem restoreTarget_inv (h : restoreTarget env sbuf addrInStack size c = .ok c') :
    c' = c ∨ ∃ p b, c.heap.deref sbuf = .ok (p, b) ∧
      writeBack env p b addrInStack (findInStackBuf addrInStack size b.segs) size c = .ok c' := by
  unfold restoreTarget at h
  split at h
  · cases h
  · next p b hd =>
    dsimp only at h
    split at h
    · exact Or.inr ⟨p, b, hd, h⟩
    · cases h
      exact Or.inl rfl

theorem restorePointer_inv (h : restorePointer env sbuf tmp c = .ok (some c')) :
    ∃ c₁ a c₂, restoreCell env sbuf tmp.addr c = .ok c₁ ∧
      chase env sbuf (tmp.pointer - 1).toNat (load64 c₁.mem tmp.addr) c₁ = .ok (a, c₂) ∧
      restoreTarget env sbuf a tmp.size c₂ = .ok c' := by
  unfold restorePointer at h
  split at h
  · cases h
  · split at h
    · cases h
    · simp only [bind_eq_ok] at h
      obtain ⟨c₁, h1, ⟨a, c₂⟩, h2, c₃, h3, h⟩ := h
      cases h
      exact ⟨c₁, a, c₂, h1, h2, h3⟩

end Inversion

/-! ### Relations kept by a write-back -/

section Rule
variable {env : Env} {sbuf : Option SbufPtr} {R : Chase → Chase → Prop}

/-- A reflexive and transitive relation that every write-back keeps. -/
structure KeptByWrites (env : Env) (sbuf : Option SbufPtr) (R : Chase → Chase → Prop) : Prop where
  refl : ∀ c, R c c
  trans : ∀ {a b c}, R a b → R b c → R a c
  write : ∀ {p b x k len c c'}, c.heap.deref sbuf = .ok (p, b) → writeBack env p b x k len c = .ok c' → R c c'

namespace KeptByWrites

theorem cell (hR : KeptByWrites env sbuf R) {x : Addr} {c c' : Chase} (h : restoreCell env sbuf x c = .ok c') :
    R c c' := by
  obtain ⟨p, b, hd, hw⟩ := restoreCell_inv h
  exact hR.write hd hw

theorem chase (hR : KeptByWrites env sbuf R) : ∀ {n : Nat} {x a : Addr} {c c' : Chase},
    StackVault.chase env sbuf n x c = .ok (a, c') → R c c'
  | 0, _, _, _, _, h => by cases h; exact hR.refl _
  | n + 1, _, _, _, _, h => by
    obtain ⟨c₁, h1, h2⟩ := bind_eq_ok.mp h
    exact hR.trans (hR.cell h1) (hR.chase h2)

theorem pointer (hR : KeptByWrites env sbuf R) {tmp : Para} {c c' : Chase}
    (h : restorePointer env sbuf tmp c = .ok (some c')) : R c c' := by
  obtain ⟨c₁, a, c₂, h1, h2, h3⟩ := restorePointer_inv h
  refine hR.trans (hR.cell h1) (hR.trans (hR.chase h2) ?_)
  rcases restoreTarget_inv h3 with rfl | ⟨p, b, hd, hw⟩
  · exact hR.refl _
  · exact hR.write hd hw

theorem pointers (hR : KeptByWrites env sbuf R) : ∀ {plt plt' : List Para} {ret : Int} {c c' : Chase},
    restorePointers env sbuf plt c = .ok (ret, plt', c') → R c c'
  | [], _, _, _, _, h => by cases h; exact hR.refl _
  | tmp :: rest, plt', ret, c, c', h => by
    unfold restorePointers at h
    split at h
    · obtain ⟨⟨ret', rest', c₁⟩, h1, h⟩ := bind_eq_ok.mp h
      cases h
      exact hR.pointers h1
    · obtain ⟨x, h1, h⟩ := bind_eq_ok.mp h
      cases x with
      | none => cases h; exact hR.refl _
      | some c₁ =>
        obtain ⟨⟨ret', rest', c₂⟩, h2, h⟩ := bind_eq_ok.mp h
        cases h
        exact hR.trans (hR.pointer h1) (hR.pointers h2)

end KeptByWrites
end Rule

/-! ### The heap -/

section AddHole
variable {b : Sbuf} {h : Hole} {i : Nat}

theorem Sbuf.addHole_zero : (b.addHole h).entry 0 =
    { b.entry 0 with holeList := { (b.entry 0).holeList with holes := (b.entry 0).holeList.holes ++ [h] } } := rfl

theorem Sbuf.addHole_ne (hi : i ≠ 0) : (b.addHole h).entry i = b.entry i := if_neg hi

end AddHole

/-- Two arrays that differ in their holes only. -/
structure Sbuf.SameBytes (b b' : Sbuf) : Prop where
  cur : b'.cur = b.cur
  cap : b'.cap = b.cap
  entry : ∀ i, ∃ l, b'.entry i = { b.entry i with holeList := l }

namespace Sbuf.SameBytes
variable {a b c : Sbuf} {m : Mem}

theorem refl (b : Sbuf) : SameBytes b b := ⟨rfl, rfl, fun i => ⟨(b.entry i).holeList, rfl⟩⟩

theorem trans (h : SameBytes a b) (h' : SameBytes b c) : SameBytes a c := by
  refine ⟨h'.cur.trans h.cur, h'.cap.trans h.cap, fun i => ?_⟩
  obtain ⟨l, hl⟩ := h.entry i
  obtain ⟨l', hl'⟩ := h'.entry i
  exact ⟨l', by rw [hl', hl]⟩

theorem addHole (b : Sbuf) (h : Hole) : SameBytes b (b.addHole h) := by
  refine ⟨rfl, rfl, fun i => ?_⟩
  by_cases hi : i = 0
  · rw [hi]
    exact ⟨_, addHole_zero⟩
  · exact ⟨(b.entry i).holeList, addHole_ne hi⟩

theorem spans (h : SameBytes a b) : b.segs.map StackBuf.span = a.segs.map StackBuf.span := by
  simp only [segs, h.cur, List.map_map]
  refine List.map_congr_left fun i _ => ?_
  obtain ⟨l, hl⟩ := h.entry i
  simp only [Function.comp_apply, hl, StackBuf.span]

theorem saves (h : SameBytes a b) (ha : ∀ e ∈ a.segs, e.Saves m) : ∀ e ∈ b.segs, e.Saves m := by
  intro e he
  obtain ⟨i, hi, rfl⟩ := mem_segs.mp he
  obtain ⟨l, hl⟩ := h.entry i
  rw [hl]
  exact ha (a.entry i) (mem_segs.mpr ⟨i, h.cur ▸ hi, rfl⟩)

end Sbuf.SameBytes

/-- Nothing but the holes of the array `p` changes. -/
structure Holed (p : Nat) (h h' : Heap) : Prop where
  next : h.next ≤ h'.next
  others : ∀ q, q ≠ p → h'.sbufs q = h.sbufs q
  here : ∀ b, h.sbufs p = some b → ∃ b', h'.sbufs p = some b' ∧ b.SameBytes b'

theorem holed_write {env : Env} {p : Nat} : KeptByWrites env (some p) fun c c' => Holed p c.heap c'.heap where
  refl c := ⟨Nat.le_refl _, fun _ _ => rfl, fun b hb => ⟨b, hb, .refl b⟩⟩
  trans h h' := by
    refine ⟨h.next.trans h'.next, fun q hq => (h'.others q hq).trans (h.others q hq), fun b hb => ?_⟩
    obtain ⟨b', hb', hs⟩ := h.here b hb
    obtain ⟨b'', hb'', hs'⟩ := h'.here b' hb'
    exact ⟨b'', hb'', hs.trans hs'⟩
  write hd hw := by
    obtain ⟨hp, hb⟩ := Heap.deref_eq_ok.mp hd
    cases hp
    obtain ⟨src, -, -, rfl⟩ := writeBack_inv hw
    refine ⟨Nat.le_succ _, fun q hq => Heap.set_sbufs_ne hq, fun b' hb' => ?_⟩
    rw [hb] at hb'
    cases hb'
    exact ⟨_, Heap.set_sbufs_self, .addHole _ _⟩

theorem restorePointers_byValue {env : Env} {sbuf : Option SbufPtr} : ∀ {plt : List Para} {c : Chase}, AllByValue plt →
    restorePointers env sbuf plt c = .ok (0, plt, c)
  | [], _, _ => rfl
  | tmp :: rest, c, h => by
    unfold restorePointers
    rw [if_pos (h tmp List.mem_cons_self), restorePointers_byValue fun p hp => h p (List.mem_cons_of_mem _ hp)]
    rfl

theorem restorePointers_unchanged {env : Env} {sbuf : Option SbufPtr} {plt plt' : List Para} {ret : Int} {c c' : Chase}
    (hv : AllByValue plt) (h : restorePointers env sbuf plt c = .ok (ret, plt', c')) : c' = c := by
  rw [restorePointers_byValue hv] at h
  cases h
  rfl

end StackVault
