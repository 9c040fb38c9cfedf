import Mathlib.Data.List.Basic

/-! Computations that log what they disclose. A trail ends with a result or an error, and leaves a list
    of entries behind either way. Two questions are asked of one: which computation on states it tells
    (`tell`, or `tellWhile` where each entry costs something that can run out), and whether what it does
    depends on its input through its own entries only (`ReadsLogged`): then nobody who knows the log
    learns more from the rest. -/

/-- A computation with entries in `ω` that ends with an `α` or an error in `ε`. -/
structure Trail (ω ε α : Type) where
  log : List ω
  result : Except ε α

namespace Trail
variable {ω ε α β : Type}

instance : Monad (Trail ω ε) where
  pure a := ⟨[], .ok a⟩
  bind t f := match t.result with
    | .error e => ⟨t.log, .error e⟩
    | .ok a => ⟨t.log ++ (f a).log, (f a).result⟩

section Bind
variable {t : Trail ω ε α} {f : α → Trail ω ε β} {a : α} {e : ε}

@[simp] theorem pure_log : (pure a : Trail ω ε α).log = [] := rfl

@[simp] theorem pure_result : (pure a : Trail ω ε α).result = .ok a := rfl

theorem bind_mk_ok {ws : List ω} : (⟨ws, .ok a⟩ : Trail ω ε α) >>= f = ⟨ws ++ (f a).log, (f a).result⟩ := rfl

theorem bind_of_ok (h : t.result = .ok a) : t >>= f = ⟨t.log ++ (f a).log, (f a).result⟩ := by
  simp only [Bind.bind, h]

theorem bind_of_error (h : t.result = .error e) : t >>= f = ⟨t.log, .error e⟩ := by
  simp only [Bind.bind, h]

theorem bind_pure_map {g : α → β} : (t >>= fun a => pure (g a)) = ⟨t.log, t.result.map g⟩ := by
  cases hr : t.result with
  | error e => rw [bind_of_error hr, Except.map]
  | ok a => rw [bind_of_ok hr, pure_log, List.append_nil, pure_result, Except.map]

theorem bind_assoc {γ : Type} {g : β → Trail ω ε γ} : t >>= f >>= g = t >>= fun a => f a >>= g := by
  cases hr : t.result with
  | error e =>
    rw [bind_of_error hr, bind_of_error hr]
    rfl
  | ok a =>
    rw [bind_of_ok hr, bind_of_ok hr]
    cases hf : (f a).result with
    | error e =>
      rw [bind_of_error hf]
      rfl
    | ok b =>
      rw [bind_of_ok hf, bind_mk_ok, List.append_assoc]

theorem bind_result_eq_ok {b : β} (h : (t >>= f).result = .ok b) : ∃ a, t.result = .ok a ∧ (f a).result = .ok b := by
  cases hr : t.result with
  | error e => rw [bind_of_error hr] at h; cases h
  | ok a => rw [bind_of_ok hr] at h; exact ⟨a, rfl, h⟩

theorem mem_log_bind {r : ω} (h : r ∈ (t >>= f).log) : r ∈ t.log ∨ ∃ a, t.result = .ok a ∧ r ∈ (f a).log := by
  cases hr : t.result with
  | error e =>
    rw [bind_of_error hr] at h
    exact Or.inl h
  | ok a =>
    rw [bind_of_ok hr] at h
    exact (List.mem_append.mp h).imp_right fun h => ⟨a, rfl, h⟩

theorem mem_log_bind_left {r : ω} (h : r ∈ t.log) : r ∈ (t >>= f).log := by
  cases hr : t.result with
  | error e => rwa [bind_of_error hr]
  | ok a =>
    rw [bind_of_ok hr]
    exact List.mem_append_left _ h

end Bind

/-! ### What is logged -/

section Logs
variable {P Q : ω → Prop} {t : Trail ω ε α} {f : α → Trail ω ε β}

/-- Every entry has the property. -/
def Logs (P : ω → Prop) (t : Trail ω ε α) : Prop := ∀ r ∈ t.log, P r

theorem Logs.pure {a : α} : Logs P (pure a : Trail ω ε α) := fun _ h => (List.not_mem_nil h).elim

theorem Logs.bind (ht : Logs P t) (hf : ∀ a, t.result = .ok a → Logs P (f a)) : Logs P (t >>= f) := by
  intro r hr
  rcases mem_log_bind hr with hr | ⟨a, ha, hr⟩
  · exact ht r hr
  · exact hf a ha r hr

theorem Logs.of_bind (h : Logs P (t >>= f)) : Logs P t ∧ ∀ a, t.result = .ok a → Logs P (f a) := by
  refine ⟨fun r hr => h r (mem_log_bind_left hr), fun a ha r hr => h r ?_⟩
  rw [bind_of_ok ha]
  exact List.mem_append_right _ hr

theorem Logs.mono (h : Logs P t) (hPQ : ∀ r, P r → Q r) : Logs Q t := fun r hr => hPQ r (h r hr)

end Logs

/-! ### The computation that a trail tells -/

section Tell
variable {σ χ : Type} {after : List ω → σ} {fail : ε → σ → χ}

/-- The outcome on states, where `after ws` is the state once the entries `ws` are there. -/
def tell (after : List ω → σ) (fail : ε → σ → χ) (ws : List ω) (t : Trail ω ε α) : Except χ (α × σ) :=
  match t.result with
  | .error e => .error (fail e (after (ws ++ t.log)))
  | .ok a => .ok (a, after (ws ++ t.log))

theorem tell_pure {ws : List ω} {a : α} : tell after fail ws (pure a) = .ok (a, after ws) := by
  simp [tell]

theorem tell_map {ws : List ω} {t : Trail ω ε α} {g : α → β} :
    (t >>= fun a => pure (g a)).tell after fail ws = (t.tell after fail ws).map fun s => (g s.1, s.2) := by
  rw [bind_pure_map]
  cases hr : t.result with
  | error e => simp only [tell, hr, Except.map]
  | ok a => simp only [tell, hr, Except.map]

end Tell

/-! ### Entries that cannot all be made -/

section Stopped
variable {ok : Nat → Prop} [DecidablePred ok] {n : Nat} {l s : List ω}

/-- The entries up to the first one that cannot be made, with that one, when there is one. Entry `k` of the
    list has the number `n + k`. -/
def stopped (ok : Nat → Prop) [DecidablePred ok] : Nat → List ω → Option (List ω)
  | _, [] => none
  | n, r :: rs => if ok n then (stopped ok (n + 1) rs).map (r :: ·) else some [r]

theorem stopped_append : ∀ {n : Nat} {l l' : List ω}, stopped ok n (l ++ l') =
    match stopped ok n l with
    | some s => some s
    | none => (stopped ok (n + l.length) l').map (l ++ ·)
  | n, [], l' => by simp [stopped]
  | n, r :: l, l' => by
    simp only [List.cons_append, stopped]
    by_cases hn : ok n
    · rw [if_pos hn, if_pos hn, stopped_append, List.length_cons, Nat.add_right_comm, Nat.add_assoc]
      cases stopped ok (n + 1) l with
      | some s => rfl
      | none => simp only [Option.map_map, Option.map_none]; rfl
    · rw [if_neg hn, if_neg hn]

theorem stopped_eq_none : ∀ {n : Nat} {l : List ω}, stopped ok n l = none ↔ ∀ k < l.length, ok (n + k)
  | n, [] => by simp [stopped]
  | n, r :: l => by
    unfold stopped
    constructor
    · intro h k hk
      split at h
      · next hn =>
        cases k with
        | zero => exact hn
        | succ k =>
          rw [← Nat.add_assoc, Nat.add_right_comm]
          exact stopped_eq_none.mp (Option.map_eq_none_iff.mp h) k (Nat.lt_of_succ_lt_succ hk)
      · cases h
    · intro h
      have hn : ok n := h 0 (Nat.succ_pos _)
      rw [if_pos hn, Option.map_eq_none_iff]
      refine stopped_eq_none.mpr fun k hk => ?_
      rw [Nat.add_assoc, Nat.add_comm 1 k]
      exact h (k + 1) (Nat.succ_lt_succ hk)

end Stopped

section TellWhile
variable {σ χ : Type} {after : List ω → σ} {fail : ε → σ → χ} {ok : Nat → Prop} [DecidablePred ok] {e : ε} {ws : List ω}

/-- The outcome on states when the entries are made while `ok` lasts: the first one for which it does not is
    still made, and the computation fails with `e`. -/
def tellWhile (ok : Nat → Prop) [DecidablePred ok] (after : List ω → σ) (fail : ε → σ → χ) (e : ε) (ws : List ω)
    (t : Trail ω ε α) :
    Except χ (α × σ) :=
  match stopped ok ws.length t.log with
  | some s => .error (fail e (after (ws ++ s)))
  | none => t.tell after fail ws

theorem tellWhile_of_ok {t : Trail ω ε α} (h : ∀ k < t.log.length, ok (ws.length + k)) :
    t.tellWhile ok after fail e ws = t.tell after fail ws := by
  rw [tellWhile, stopped_eq_none.mpr h]

theorem tellWhile_of_stopped {t : Trail ω ε α} {s : List ω} (h : stopped ok ws.length t.log = some s) :
    t.tellWhile ok after fail e ws = .error (fail e (after (ws ++ s))) := by
  rw [tellWhile, h]

/-- A result has cost all its entries. -/
theorem tellWhile_eq_ok {t : Trail ω ε α} {x : α × σ} (h : t.tellWhile ok after fail e ws = .ok x) :
    t.result = .ok x.1 ∧ x.2 = after (ws ++ t.log) ∧ ∀ k < t.log.length, ok (ws.length + k) := by
  unfold tellWhile at h
  split at h
  · cases h
  · next hs =>
    unfold tell at h
    split at h
    · cases h
    · next a hr =>
      cases h
      exact ⟨hr, rfl, stopped_eq_none.mp hs⟩

theorem tellWhile_pure {a : α} : tellWhile ok after fail e ws (pure a) = .ok (a, after ws) :=
  (tellWhile_of_ok fun _ hk => absurd hk (Nat.not_lt_zero _)).trans tell_pure

theorem tellWhile_bind {t : Trail ω ε α} {f : α → Trail ω ε β} {x : Except χ (α × σ)} {y : α → σ → Except χ (β × σ)}
    (hx : x = tellWhile ok after fail e ws t)
    (hy : ∀ a, y a (after (ws ++ t.log)) = tellWhile ok after fail e (ws ++ t.log) (f a)) :
    (x >>= fun s => y s.1 s.2) = tellWhile ok after fail e ws (t >>= f) := by
  rw [hx]
  cases hs : stopped ok ws.length t.log with
  | some s =>
    have hlog : stopped ok ws.length (t >>= f).log = some s := by
      cases hr : t.result with
      | error e' => rw [bind_of_error hr, hs]
      | ok a => rw [bind_of_ok hr, stopped_append, hs]
    rw [tellWhile_of_stopped hs, tellWhile_of_stopped hlog]
    rfl
  | none =>
    rw [tellWhile_of_ok (stopped_eq_none.mp hs)]
    cases hr : t.result with
    | error e' =>
      simp only [bind_of_error hr, tellWhile, hs, tell, hr]
      rfl
    | ok a =>
      have hleft : (tell after fail ws t >>= fun s => y s.1 s.2) = y a (after (ws ++ t.log)) := by
        simp only [tell, hr]
        rfl
      rw [hleft, hy a, bind_of_ok hr]
      simp only [tellWhile, stopped_append, hs, List.length_append]
      cases stopped ok (ws.length + t.log.length) (f a).log with
      | some s => simp only [Option.map_some, List.append_assoc]
      | none => simp only [Option.map_none, tell, List.append_assoc]

theorem tellWhile_map {t : Trail ω ε α} {g : α → β} :
    (t >>= fun a => pure (g a)).tellWhile ok after fail e ws = (t.tellWhile ok after fail e ws).map fun s =>
    (g s.1, s.2) := by
  have hlog : (t >>= fun a => pure (g a)).log = t.log := by rw [bind_pure_map]
  unfold tellWhile
  rw [hlog]
  cases stopped ok ws.length t.log with
  | some s => rfl
  | none => exact tell_map

end TellWhile

/-! ### Dependence on the input -/

section Own
variable {κ : Type} {T : κ → κ → Prop} {Same : ω → κ → κ → Prop}

/-- Inputs related by `T` that look the same to every entry of the first trail give one trail. -/
def ReadsLogged (T : κ → κ → Prop) (Same : ω → κ → κ → Prop) (t : κ → Trail ω ε α) : Prop :=
  ∀ j k, T j k → (∀ r ∈ (t j).log, Same r j k) → t j = t k

namespace ReadsLogged

theorem const {t : Trail ω ε α} : ReadsLogged T Same fun _ => t := fun _ _ _ _ => rfl

theorem bind {t : κ → Trail ω ε α} {f : κ → α → Trail ω ε β} (ht : ReadsLogged T Same t)
    (hf : ∀ a, ReadsLogged T Same fun k => f k a) : ReadsLogged T Same fun k => t k >>= f k := by
  intro j k hT h
  dsimp only at h ⊢
  have htjk : t j = t k := ht j k hT fun r hr => h r (mem_log_bind_left hr)
  cases hr : (t j).result with
  | error e => rw [bind_of_error hr, bind_of_error (htjk ▸ hr), htjk]
  | ok a =>
    have hfjk : f j a = f k a := hf a j k hT fun r hrf => h r (by
      rw [bind_of_ok hr]
      exact List.mem_append_right _ hrf)
    rw [bind_of_ok hr, bind_of_ok (htjk ▸ hr), htjk, hfjk]

theorem ite {c : κ → Prop} [∀ k, Decidable (c k)] {t u : κ → Trail ω ε α} (hc : ∀ j k, T j k → (c j ↔ c k))
    (ht : ReadsLogged T Same t) (hu : ReadsLogged T Same u) : ReadsLogged T Same fun k => if c k then t k else u k := by
  intro j k hT h
  dsimp only at h ⊢
  by_cases hj : c j
  · rw [if_pos hj] at h
    rw [if_pos hj, if_pos ((hc j k hT).mp hj)]
    exact ht j k hT h
  · rw [if_neg hj] at h
    rw [if_neg hj, if_neg (mt (hc j k hT).mpr hj)]
    exact hu j k hT h

end ReadsLogged
end Own

end Trail
