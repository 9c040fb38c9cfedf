import StackVault.Theorems.Calls

/-! Where a call can fault. The scan and the pointer chase fault at null pointers, freed arrays and the
    bytes of a copy; only `encryptFrame` indexes the two stacks. -/

namespace StackVault
open Memory

/-- An access outside `call_stack` or `sbuf_stack`. -/
def Fault.Stacks (f : Fault) : Prop := f = .callStackBounds ∨ f = .sbufStackBounds

/-- The computation has no such access. -/
def Indexed {α : Type} (x : Except Crash α) : Prop := ∀ c, x = .error c → ¬c.fault.Stacks

theorem Indexed.ok {α : Type} {a : α} : Indexed (.ok a) := fun _ h => by cases h

theorem Indexed.error {α : Type} {c : Crash} (h : ¬c.fault.Stacks) : Indexed (.error c : Except Crash α) :=
  fun _ he => by
    cases he
    exact h

theorem Indexed.bind {α β : Type} {x : Except Crash α} {f : α → Except Crash β} (hx : Indexed x)
    (hf : ∀ a, Indexed (f a)) : Indexed (x >>= f) := by
  cases x with
  | ok a => exact hf a
  | error c => exact fun _ he => by cases he; exact hx c rfl

theorem Indexed.map {α β : Type} {x : Except Crash α} {f : α → β} (hx : Indexed x) : Indexed (x.map f) := by
  cases x with
  | ok a => exact Indexed.ok
  | error c => exact fun _ he => by cases he; exact hx c rfl

theorem not_stacks {f : Fault} (h : f = .nullDeref ∨ f = .useAfterFree ∨ f = .outOfBounds) : ¬f.Stacks := by
  rcases h with rfl | rfl | rfl <;> simp [Fault.Stacks]

section Heap
variable {env : Env} {heap : Heap} {mem : Mem} {p : SbufPtr} {b : Sbuf} {ptr : Option SbufPtr} {buf len : Addr}
  {f : Fault}

theorem deref_fault (h : heap.deref ptr = .error f) : ¬f.Stacks := by
  unfold Heap.deref at h
  split at h
  · cases h
    exact not_stacks (Or.inl rfl)
  · split at h
    · cases h
      exact not_stacks (Or.inr (Or.inl rfl))
    · cases h

theorem insert_fault (h : insertStackBuf env heap mem p b buf len = .error f) : ¬f.Stacks := by
  unfold insertStackBuf at h
  split at h
  · cases h
    exact not_stacks (Or.inl rfl)
  · cases h

theorem grow_fault (h : growStackBuf env heap p b = .error f) : ¬f.Stacks := by
  unfold growStackBuf at h
  split at h
  · cases h
    exact not_stacks (Or.inl rfl)
  · cases h

theorem copy_fault (h : copyStackBuf env heap mem ptr buf len = .error f) : ¬f.Stacks := by
  unfold copyStackBuf at h
  cases hd : heap.deref ptr with
  | error g =>
    rw [hd] at h
    cases h
    exact deref_fault hd
  | ok x =>
    obtain ⟨p, b⟩ := x
    rw [hd] at h
    simp only [bind, Except.bind] at h
    split at h
    · split at h
      · cases h
      · split at h
        · next hg =>
          cases h
          exact grow_fault hg
        · split at h
          · next hi =>
            cases h
            exact insert_fault hi
          · cases h
    · split at h
      · next hi =>
        cases h
        exact insert_fault hi
      · cases h

theorem kread_fault {segs : List StackBuf} {a len : Addr} (h : kread segs a len = .error f) : ¬f.Stacks := by
  unfold kread at h
  split at h
  · cases h
    exact not_stacks (Or.inl rfl)
  · split at h
    · cases h
      exact not_stacks (Or.inr (Or.inr rfl))
    · cases h

end Heap

section Scan
variable {env : Env} {read : Mem → List Para} {userRbp : Addr}

theorem save_indexed {r : Span} {v : Saved} : Indexed (save env r v) := by
  unfold save
  split
  · next hc => exact Indexed.error (copy_fault hc)
  · exact Indexed.ok

theorem flush_indexed {l : Scan} : Indexed (flush env l) := by
  unfold flush
  split
  · exact save_indexed.map
  · exact Indexed.ok

theorem scan_indexed : ∀ {fuel : Nat} {l : Scan} {r : Except Crash Saved},
    scanWith env read userRbp fuel l = some r → Indexed r
  | 0, _, _, h => by cases h
  | fuel + 1, l, r, h => by
    unfold scanWith at h
    split at h
    · dsimp only at h
      split at h
      · split at h
        · next hf =>
          cases h
          exact Indexed.error (flush_indexed _ hf)
        · exact scan_indexed h
      · split at h
        · split at h
          · next hf =>
            cases h
            exact Indexed.error (flush_indexed _ hf)
          · exact scan_indexed h
        · exact scan_indexed h
    · cases h
      exact Indexed.ok

end Scan

section Chase
variable {env : Env} {sbuf : Option SbufPtr}

theorem writeBack_indexed {p : SbufPtr} {b : Sbuf} {addrInStack addrInBuf len : Addr} {c : Chase} :
    Indexed (writeBack env p b addrInStack addrInBuf len c) := by
  unfold writeBack
  split
  · next hk => exact Indexed.error (kread_fault hk)
  · dsimp only
    split
    · exact Indexed.error (not_stacks (Or.inl rfl))
    · split
      · exact Indexed.error (not_stacks (Or.inr (Or.inl rfl)))
      · exact Indexed.ok

theorem restoreCell_indexed {addrInStack : Addr} {c : Chase} : Indexed (restoreCell env sbuf addrInStack c) := by
  unfold restoreCell
  split
  · next hd => exact Indexed.error (deref_fault hd)
  · exact writeBack_indexed

theorem chase_indexed : ∀ {n : Nat} {addrInStack : Addr} {c : Chase}, Indexed (chase env sbuf n addrInStack c)
  | 0, _, _ => Indexed.ok
  | _ + 1, _, _ => restoreCell_indexed.bind fun _ => chase_indexed

theorem restoreTarget_indexed {addrInStack size : Addr} {c : Chase} :
    Indexed (restoreTarget env sbuf addrInStack size c) := by
  unfold restoreTarget
  split
  · next hd => exact Indexed.error (deref_fault hd)
  · dsimp only
    split
    · exact writeBack_indexed
    · exact Indexed.ok

theorem restorePointer_indexed {tmp : Para} {c : Chase} : Indexed (restorePointer env sbuf tmp c) := by
  unfold restorePointer
  split
  · next hd => exact Indexed.error (deref_fault hd)
  · split
    · exact Indexed.ok
    · exact restoreCell_indexed.bind fun _ => chase_indexed.bind fun _ => restoreTarget_indexed.bind fun _ => Indexed.ok

theorem restorePointers_indexed : ∀ {plt : List Para} {c : Chase}, Indexed (restorePointers env sbuf plt c)
  | [], _ => Indexed.ok
  | tmp :: rest, c => by
    unfold restorePointers
    split
    · exact restorePointers_indexed.bind fun _ => Indexed.ok
    · refine restorePointer_indexed.bind fun x => ?_
      cases x with
      | none => exact Indexed.ok
      | some c₁ => exact restorePointers_indexed.bind fun _ => Indexed.ok

end Chase

section Frame
variable {env : Env} {fuel : Nat} {userRsp userRbp : Addr} {plt : List Para} {name : String} {g : Globals} {mem : Mem}
  {r : Except Crash Encrypted}

/-- With room on both stacks, `encryptFrame` indexes neither outside its bounds. -/
theorem encryptFrame_indexed (hcs : g.callStackTop < 64) (ht : g.sbufStackTop < 16)
    (h : encryptFrame env fuel userRsp userRbp plt name g mem = some r) : Indexed r := by
  unfold encryptFrame at h
  split at h
  · cases h
    exact Indexed.error (not_stacks (Or.inl rfl))
  · rw [if_neg (Nat.not_le_of_lt hcs)] at h
    obtain ⟨x, hscan, rfl⟩ := Option.map_eq_some_iff.mp h
    exact (scan_indexed hscan).bind fun _ => restorePointers_indexed.bind fun _ => Indexed.ok

end Frame

section Encrypt
variable {env : Env} {fuel : Nat} {regs : Regs} {plt : List Para} {s : State} {r : Except Crash Encrypted}

theorem encrypt_indexed (hm : s.Mapped env) (hroom : Accepts env regs → s.callStackTop < 64 ∧ s.sbufStackTop < 16)
    (h : jsysEncryptStack env fuel regs plt s = some r) : Indexed r := by
  unfold jsysEncryptStack at h
  cases hs : setup env s.toGlobals with
  | error f =>
    rw [hs] at h
    cases h
    refine Indexed.error (not_stacks (Or.inl ?_))
    unfold setup at hs
    split at hs
    · cases hs
    · split at hs
      · cases hs
        rfl
      · cases hs
  | ok g =>
    obtain ⟨-, hcs, htop, -, -⟩ := setup_inv hs
    rw [hs] at h
    simp only [setup_mapper hs hm] at h
    cases hn : getFuncName env.exe regs.ip with
    | none =>
      rw [hn] at h
      cases h
      exact Indexed.ok
    | some name =>
      rw [hn] at h
      dsimp only at h
      split at h
      · cases h
        exact Indexed.ok
      · next hlt =>
        obtain ⟨h1, h2⟩ := hroom ⟨by rw [nameOf, hn]; rfl, BitVec.not_lt.mp hlt⟩
        refine encryptFrame_indexed ?_ (htop ▸ h2) h
        rw [Globals.callStackTop, hcs]
        exact h1

/-- An accepted call that finds `sbuf_stack` full reads past its end. -/
theorem encrypt_full (fuel : Nat) (plt : List Para) (halloc : env.AllocOk) (hm : s.Mapped env) (hinit : s.init = true)
    (hacc : Accepts env regs) (hcs : s.callStackTop < 64) (ht : 16 ≤ s.sbufStackTop) :
    jsysEncryptStack env fuel regs plt s = some (.error ⟨.sbufStackBounds, s.mem, []⟩) := by
  obtain ⟨name, hn⟩ := Option.isSome_iff_exists.mp hacc.1
  rw [encrypt_accepted hm (setup_done hinit) hn hacc, encryptFrame, if_neg (not_or.mpr ⟨halloc _, halloc _⟩),
    if_neg (Nat.not_le_of_lt hcs), dif_neg (Nat.not_lt_of_le ht)]

end Encrypt

end StackVault
