import StackVault.Hello
import Mathlib.Tactic.SplitIfs

/-! What the pass makes of a module. A call of `multi` gets its two instructions as long as the function `invoke`
    was already come to; the pass does not look for it beforehand, so a call in a function before it in the
    module is answered by a null pointer. -/

namespace StackVault.Hello

/-- A body with every direct call of `multi` instrumented, and only those. -/
structure Instrumented (body : List Instruction) (out : List Placed) : Prop where
  /-- A direct call of `multi` is followed by the system call and by a call of `invoke`. -/
  followed : ∀ k I, out[k]? = some I → I.inst.CallsMulti →
    out[k + 1]? = some syscall ∧ ∃ args, out[k + 2]? = some ⟨.call (.function "invoke") args, true⟩
  /-- An inserted instruction belongs to a call of `multi` that was there before. -/
  once : ∀ k J, out[k]? = some J → J.inserted = true →
    ∃ i I, out[i]? = some I ∧ I.inserted = false ∧ I.inst.CallsMulti ∧ (k = i + 1 ∨ k = i + 2)
  /-- Without the inserted instructions it is the body as it was. -/
  removed : (out.filter fun I => !I.inserted).map Placed.inst = body

/-- The pass ends on the module and instruments every function. -/
def InstrumentsAll (M : List Function) : Prop :=
  ∃ fuel outs, runOnModule fuel none M = some (.ok outs) ∧ List.Forall₂ Instrumented (M.map Function.body) outs

/-- The function calls `multi` directly. -/
def Function.CallsMulti (F : Function) : Prop := ∃ I ∈ F.body, I.CallsMulti

instance (F : Function) : Decidable F.CallsMulti := inferInstanceAs (Decidable (∃ I ∈ F.body, I.CallsMulti))

section Loop
variable {f : String} {body : List Instruction} {fuel : Nat}

/-- What an instruction becomes. -/
def instrument (f : String) (inst : Instruction) : List Placed :=
  if inst.CallsMulti then [⟨inst, false⟩, syscall, callInsertFunc f] else [⟨inst, false⟩]

@[simp] theorem not_callsMulti_syscall : ¬syscall.inst.CallsMulti := by decide

theorem not_callsMulti_insert (hf : f ≠ "multi") : ¬(callInsertFunc f).inst.CallsMulti := by
  simpa [callInsertFunc, Instruction.CallsMulti, Called.function?] using hf

/-- With a callee to insert the loop ends, and has walked over the inserted instructions too. -/
theorem visit_some (hf : f ≠ "multi") (hfuel : 3 * body.length < fuel) :
    visit (some f) fuel (body.map fun inst => ⟨inst, false⟩) = some (.ok (body.flatMap (instrument f))) := by
  induction body generalizing fuel with
  | nil =>
    obtain ⟨fuel, rfl⟩ := Nat.exists_eq_succ_of_ne_zero (Nat.ne_of_gt hfuel)
    rfl
  | cons inst body ih =>
    rw [List.length_cons] at hfuel
    obtain ⟨fuel, rfl⟩ := Nat.exists_eq_add_of_le (show 3 ≤ fuel by omega)
    rw [List.map_cons, List.flatMap_cons, instrument, Nat.add_comm 3 fuel, visit]
    by_cases hm : inst.CallsMulti
    · rw [if_pos hm, if_pos hm, visit, if_neg not_callsMulti_syscall, visit, if_neg (not_callsMulti_insert hf),
        ih (by omega)]
      rfl
    · rw [if_neg hm, if_neg hm, ih (by omega)]
      rfl

theorem visit_none (hbody : ∀ I ∈ body, ¬I.CallsMulti) (hfuel : body.length < fuel) :
    visit none fuel (body.map fun inst => ⟨inst, false⟩) = some (.ok (body.flatMap (instrument f))) := by
  induction body generalizing fuel with
  | nil =>
    obtain ⟨fuel, rfl⟩ := Nat.exists_eq_succ_of_ne_zero (Nat.ne_of_gt hfuel)
    rfl
  | cons inst body ih =>
    rw [List.length_cons] at hfuel
    obtain ⟨fuel, rfl⟩ := Nat.exists_eq_succ_of_ne_zero (show fuel ≠ 0 by omega)
    have hm := hbody inst List.mem_cons_self
    rw [List.map_cons, List.flatMap_cons, instrument, visit, if_neg hm, if_neg hm,
      ih (fun I hI => hbody I (List.mem_cons_of_mem _ hI)) (by omega)]
    rfl

/-- Without one, the first call of `multi` follows a null pointer. -/
theorem visit_ne_ok (hbody : ∃ I ∈ body, I.CallsMulti) (out : List Placed) :
    visit none fuel (body.map fun inst => ⟨inst, false⟩) ≠ some (.ok out) := by
  induction body generalizing fuel out with
  | nil => simp at hbody
  | cons inst body ih =>
    cases fuel with
    | zero => simp [visit]
    | succ fuel =>
      rw [List.map_cons, visit]
      split_ifs with hm
      · simp
      · intro h
        rw [List.exists_mem_cons_iff] at hbody
        obtain ⟨r, hr, hmap⟩ := Option.map_eq_some_iff.mp h
        obtain ⟨rest, rfl, -⟩ := map_eq_ok.mp hmap
        exact ih (hbody.resolve_left hm) rest hr

/-! ### The instrumented body -/

/-- What stands in front of a body moves everything in it by its length. -/
theorem Instrumented.cons {inst : Instruction} {out : List Placed} (h : Instrumented body out) (hm : ¬inst.CallsMulti) :
    Instrumented (inst :: body) (⟨inst, false⟩ :: out) where
  followed k I hk hI := by
    cases k with
    | zero =>
      rw [List.getElem?_cons_zero, Option.some.injEq] at hk
      rw [← hk] at hI
      exact absurd hI hm
    | succ k => exact h.followed k I hk hI
  once k J hk hJ := by
    cases k with
    | zero =>
      rw [List.getElem?_cons_zero, Option.some.injEq] at hk
      rw [← hk] at hJ
      cases hJ
    | succ k =>
      obtain ⟨i, I, hi, hins, hI, hki⟩ := h.once k J hk hJ
      exact ⟨i + 1, I, hi, hins, hI, by omega⟩
  removed := congrArg (inst :: ·) h.removed

theorem Instrumented.cons_multi {inst : Instruction} {out : List Placed} (h : Instrumented body out)
    (hm : inst.CallsMulti) :
    Instrumented (inst :: body) (⟨inst, false⟩ :: syscall :: callInsertFunc "invoke" :: out) where
  followed k I hk hI := by
    match k with
    | 0 => exact ⟨rfl, [.constString "hahaha"], rfl⟩
    | 1 =>
      rcases Option.some.inj hk with rfl
      exact absurd hI not_callsMulti_syscall
    | 2 =>
      rcases Option.some.inj hk with rfl
      exact absurd hI (not_callsMulti_insert (by decide))
    | k + 3 => exact h.followed k I hk hI
  once k J hk hJ := by
    match k with
    | 0 =>
      rcases Option.some.inj hk with rfl
      cases hJ
    | 1 => exact ⟨0, _, rfl, rfl, hm, Or.inl rfl⟩
    | 2 => exact ⟨0, _, rfl, rfl, hm, Or.inr rfl⟩
    | k + 3 =>
      obtain ⟨i, I, hi, hins, hI, hki⟩ := h.once k J hk hJ
      exact ⟨i + 3, I, hi, hins, hI, by omega⟩
  removed := congrArg (inst :: ·) h.removed

theorem instrumented_flatMap : Instrumented body (body.flatMap (instrument "invoke")) := by
  induction body with
  | nil => exact ⟨fun k I hk => by simp at hk, fun k J hk => by simp at hk, rfl⟩
  | cons inst body ih =>
    rw [List.flatMap_cons, instrument]
    split_ifs with hm
    · exact ih.cons_multi hm
    · exact ih.cons hm

end Loop

/-! ### The module -/

section Module
variable {M : List Function} {fuel : Nat}

variable {F : Function}

theorem runOnFunction_some (hfuel : 3 * F.body.length < fuel) :
    runOnFunction fuel (some "invoke") F = some (.ok (some "invoke", F.body.flatMap (instrument "invoke"))) := by
  have hv := visit_some (f := "invoke") (by decide) hfuel
  simp [runOnFunction, hv, Except.map]

theorem runOnFunction_invoke (hname : F.name = "invoke") (hfuel : 3 * F.body.length < fuel) :
    runOnFunction fuel none F = some (.ok (some "invoke", F.body.flatMap (instrument "invoke"))) := by
  have hv := visit_some (f := "invoke") (by decide) hfuel
  simp [runOnFunction, hname, hv, Except.map]

theorem runOnFunction_none (hname : F.name ≠ "invoke") (hF : ¬F.CallsMulti) (hfuel : 3 * F.body.length < fuel) :
    runOnFunction fuel none F = some (.ok (none, F.body.flatMap (instrument "invoke"))) := by
  have hv := visit_none (f := "invoke") (fun I hI hm => hF ⟨I, hI, hm⟩) (show F.body.length < fuel by omega)
  simp [runOnFunction, hname, hv, Except.map]

theorem runOnFunction_ne_ok (hname : F.name ≠ "invoke") (hF : F.CallsMulti) (p : Option String × List Placed) :
    runOnFunction fuel none F ≠ some (.ok p) := by
  simp only [runOnFunction, hname, and_false, if_false]
  intro h
  obtain ⟨r, hr, hmap⟩ := Option.map_eq_some_iff.mp h
  obtain ⟨out, rfl, -⟩ := map_eq_ok.mp hmap
  exact visit_ne_ok hF out hr

/-- The field stays unset as long as `invoke` was not come to. -/
theorem runOnFunction_unset (hname : F.name ≠ "invoke") {p : Option String × List Placed}
    (h : runOnFunction fuel none F = some (.ok p)) : p.1 = none := by
  simp only [runOnFunction, hname, and_false, if_false] at h
  obtain ⟨r, -, hmap⟩ := Option.map_eq_some_iff.mp h
  obtain ⟨out, -, rfl⟩ := map_eq_ok.mp hmap
  rfl

/-- Once `invoke` was come to, every function is instrumented. -/
theorem runOnModule_some (hfuel : ∀ F ∈ M, 3 * F.body.length < fuel) :
    runOnModule fuel (some "invoke") M = some (.ok (M.map fun F => F.body.flatMap (instrument "invoke"))) := by
  induction M with
  | nil => rfl
  | cons F M ih =>
    have hrest := ih fun F hF => hfuel F (List.mem_cons_of_mem _ hF)
    rw [runOnModule, runOnFunction_some (hfuel F List.mem_cons_self)]
    simp [hrest, Except.map]

/-- Before that, a function without a call of `multi` is left as it is. -/
theorem runOnModule_none (hM : ∀ F ∈ M.takeWhile (fun F => F.name ≠ "invoke"), ¬F.CallsMulti)
    (hfuel : ∀ F ∈ M, 3 * F.body.length < fuel) :
    runOnModule fuel none M = some (.ok (M.map fun F => F.body.flatMap (instrument "invoke"))) := by
  induction M with
  | nil => rfl
  | cons F M ih =>
    have hF := hfuel F List.mem_cons_self
    have hrest : ∀ F ∈ M, 3 * F.body.length < fuel := fun F hF => hfuel F (List.mem_cons_of_mem _ hF)
    rw [runOnModule]
    by_cases hname : F.name = "invoke"
    · rw [runOnFunction_invoke hname hF]
      simp [runOnModule_some hrest, Except.map]
    · rw [List.takeWhile_cons_of_pos (by simpa using hname)] at hM
      rw [runOnFunction_none hname (hM F List.mem_cons_self) hF]
      simp [ih (fun F hF => hM F (List.mem_cons_of_mem _ hF)) hrest, Except.map]

/-- A call of `multi` before it ends the pass. -/
theorem runOnModule_ne_ok (hM : ∃ F ∈ M.takeWhile (fun F => F.name ≠ "invoke"), F.CallsMulti)
    (outs : List (List Placed)) :
    runOnModule fuel none M ≠ some (.ok outs) := by
  induction M generalizing outs with
  | nil => simp at hM
  | cons F M ih =>
    obtain ⟨G, hG, hcalls⟩ := hM
    by_cases hname : F.name = "invoke"
    · rw [List.takeWhile_cons_of_neg (by simpa using hname)] at hG
      simp at hG
    · rw [List.takeWhile_cons_of_pos (by simpa using hname)] at hG
      intro h
      rw [runOnModule] at h
      cases hF : runOnFunction fuel none F with
      | none => simp [hF] at h
      | some r =>
        cases r with
        | error e => simp [hF] at h
        | ok p =>
          rcases List.mem_cons.mp hG with rfl | hG
          · exact runOnFunction_ne_ok hname hcalls p hF
          · simp only [hF, runOnFunction_unset hname hF, Option.map_eq_some_iff] at h
            obtain ⟨r, hr, hmap⟩ := h
            obtain ⟨rest, rfl, -⟩ := map_eq_ok.mp hmap
            exact ih ⟨G, hG, hcalls⟩ rest hr

theorem exists_fuel (M : List Function) : ∃ fuel, ∀ F ∈ M, 3 * F.body.length < fuel := by
  induction M with
  | nil => exact ⟨0, fun F hF => by simp at hF⟩
  | cons G M ih =>
    obtain ⟨fuel, hfuel⟩ := ih
    refine ⟨fuel + 3 * G.body.length + 1, fun F hF => ?_⟩
    rcases List.mem_cons.mp hF with rfl | hF
    · omega
    · have := hfuel F hF
      omega

end Module

/-- The pass instruments every function of a module exactly when no function before the first `invoke` calls
    `multi` directly. -/
theorem instruments_all_iff (M : List Function) :
    InstrumentsAll M ↔ ∀ F ∈ M.takeWhile (fun F => F.name ≠ "invoke"), ¬F.CallsMulti := by
  constructor
  · rintro ⟨fuel, outs, hrun, -⟩ F hF hcalls
    exact runOnModule_ne_ok ⟨F, hF, hcalls⟩ outs hrun
  · intro hM
    obtain ⟨fuel, hfuel⟩ := exists_fuel M
    refine ⟨fuel, _, runOnModule_none hM hfuel, ?_⟩
    rw [List.forall₂_map_left_iff, List.forall₂_map_right_iff, List.forall₂_same]
    exact fun F _ => instrumented_flatMap

/-- `main` calls `multi` and stands before `invoke`. -/
theorem instruments_all_late :
    ¬InstrumentsAll [⟨"main", [.call (.function "multi") [], .other "ret" []]⟩, ⟨"invoke", [.other "ret" []]⟩] := by
  rintro ⟨fuel, outs, hrun, -⟩
  cases fuel with
  | zero => cases hrun
  | succ fuel => cases hrun

end StackVault.Hello
