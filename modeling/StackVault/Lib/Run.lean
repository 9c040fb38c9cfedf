import Mathlib.Data.List.Induction

/-! Runs of a labelled transition system. A run keeps, for every step, the state it left and its label,
    so that a statement about a run can speak about each of its steps. An invariant is proved once for
    a step and once for the start; a step may be required to meet a condition. -/

namespace Transition

variable {σ ι : Type*}

/-- `Run step init tr s`: from `init` the steps recorded in `tr`, oldest first, lead to `s`. -/
inductive Run (step : σ → ι → σ → Prop) (init : σ) : List (σ × ι) → σ → Prop
  | nil : Run step init [] init
  | snoc {tr : List (σ × ι)} {s t : σ} {l : ι} : Run step init tr s → step s l t → Run step init (tr ++ [(s, l)]) t

/-- Every step of the trace meets the condition. -/
def Meets (P : σ → ι → Prop) (tr : List (σ × ι)) : Prop := ∀ e ∈ tr, P e.1 e.2

section Meets
variable {P Q : σ → ι → Prop} {tr : List (σ × ι)} {s : σ} {l : ι}

@[simp] theorem meets_nil : Meets P ([] : List (σ × ι)) := fun _ h => by cases h

theorem meets_snoc : Meets P (tr ++ [(s, l)]) ↔ Meets P tr ∧ P s l := by
  simp [Meets, or_imp, forall_and]

theorem meets_append {tr' : List (σ × ι)} : Meets P (tr ++ tr') ↔ Meets P tr ∧ Meets P tr' := by
  simp [Meets, or_imp, forall_and]

theorem meets_of_labels (h : ∀ l ∈ tr.map Prod.snd, ∀ s, P s l) : Meets P tr := fun e he =>
  h e.2 (List.mem_map_of_mem he) e.1

theorem Meets.imp (h : Meets P tr) (hpq : ∀ s l, P s l → Q s l) : Meets Q tr := fun e he => hpq e.1 e.2 (h e he)

end Meets

namespace Run
variable {step : σ → ι → σ → Prop} {init : σ} {P : σ → ι → Prop} {tr : List (σ × ι)} {s : σ}

/-- An invariant of the trace and the state, kept by every step that meets the condition. -/
theorem history {I : List (σ × ι) → σ → Prop} (h₀ : I [] init)
    (hstep : ∀ tr s l t, Run step init tr s → I tr s → P s l → step s l t → I (tr ++ [(s, l)]) t)
    (h : Run step init tr s) (hP : Meets P tr) : I tr s := by
  induction h with
  | nil => exact h₀
  | snoc hr hs ih =>
    obtain ⟨htr, hl⟩ := meets_snoc.mp hP
    exact hstep _ _ _ _ hr (ih htr) hl hs

theorem invariant {I : σ → Prop} (h₀ : I init) (hstep : ∀ s l t, I s → P s l → step s l t → I t)
    (h : Run step init tr s) (hP : Meets P tr) : I s :=
  history (I := fun _ s => I s) h₀ (fun _ s l t _ hi hp hs => hstep s l t hi hp hs) h hP

theorem append {tr' : List (σ × ι)} {t : σ} (h : Run step init tr s) (h' : Run step s tr' t) :
    Run step init (tr ++ tr') t := by
  induction h' with
  | nil => rwa [List.append_nil]
  | @snoc tr' u v l _ hs ih =>
    rw [← List.append_assoc]
    exact ih.snoc hs

/-- A system whose steps, one by one, are runs of another one has runs of that one only. An invariant of the states may
    be used for each step. -/
theorem refine {ι' : Type*} {step' : σ → ι' → σ → Prop} {P' : σ → ι' → Prop} {I : σ → Prop} (h₀ : I init)
    (hstep : ∀ s l t, I s → P s l → step s l t → I t ∧ ∃ tr', Run step' s tr' t ∧ Meets P' tr')
    (h : Run step init tr s) (hP : Meets P tr) : I s ∧ ∃ tr', Run step' init tr' s ∧ Meets P' tr' := by
  induction h with
  | nil => exact ⟨h₀, [], .nil, meets_nil⟩
  | snoc _ hs ih =>
    obtain ⟨htr, hl⟩ := meets_snoc.mp hP
    obtain ⟨hi, tr₁, hr₁, hm₁⟩ := ih htr
    obtain ⟨ht, tr₂, hr₂, hm₂⟩ := hstep _ _ _ hi hl hs
    exact ⟨ht, tr₁ ++ tr₂, hr₁.append hr₂, meets_append.mpr ⟨hm₁, hm₂⟩⟩

/-- A run passes through the states that its trace records: a shorter run reaches each of them, and
    from there the recorded step is taken. -/
theorem of_mem (h : Run step init tr s) : ∀ e ∈ tr, ∃ pre t, pre <+: tr ∧ Run step init pre e.1 ∧ step e.1 e.2 t := by
  induction h with
  | nil => intro e he; cases he
  | @snoc tr s t l hr hs ih =>
    intro e he
    rcases List.mem_append.mp he with he | he
    · obtain ⟨pre, u, hpre, hrun, hstep⟩ := ih e he
      exact ⟨pre, u, hpre.trans (List.prefix_append _ _), hrun, hstep⟩
    · obtain rfl := List.mem_singleton.mp he
      exact ⟨tr, t, List.prefix_append _ _, hr, hs⟩

/-- The steps of a deterministic system are given by their labels. -/
theorem unique (hdet : ∀ s l t t', step s l t → step s l t' → t = t') {tr' : List (σ × ι)} {s' : σ}
    (h : Run step init tr s) (h' : Run step init tr' s') (hl : tr.map Prod.snd = tr'.map Prod.snd) :
    tr = tr' ∧ s = s' := by
  induction h generalizing tr' s' with
  | nil =>
    cases h' with
    | nil => exact ⟨rfl, rfl⟩
    | snoc hr' hs' => simp at hl
  | snoc hr hs ih =>
    cases h' with
    | nil => simp at hl
    | snoc hr' hs' =>
      simp only [List.map_append, List.map_cons, List.map_nil] at hl
      obtain ⟨hl, hll⟩ := List.append_inj' hl rfl
      obtain ⟨rfl, rfl⟩ := ih hr' hl
      obtain rfl := List.singleton_inj.mp hll
      exact ⟨rfl, hdet _ _ _ _ hs hs'⟩

/-- A deterministic system takes a list of labels if and only if it is stuck nowhere on the way. -/
theorem exists_iff (hdet : ∀ s l t t', step s l t → step s l t' → t = t') {ls : List ι} :
    (∃ tr s, Run step init tr s ∧ tr.map Prod.snd = ls) ↔
      ∀ pre l post tr s, ls = pre ++ l :: post → Run step init tr s → tr.map Prod.snd = pre → ∃ t, step s l t := by
  induction ls using List.reverseRecOn with
  | nil => exact iff_of_true ⟨[], init, .nil, rfl⟩ fun pre l post tr s h => by simp at h
  | append_singleton ls k ih =>
    constructor
    · rintro ⟨tr, s, hr, hl⟩ pre l post tr' s' hls hr' hl'
      cases hr with
      | nil => simp at hl
      | @snoc tr u _ m hr hs =>
        simp only [List.map_append, List.map_cons, List.map_nil] at hl
        obtain ⟨htr, hm⟩ := List.append_inj' hl rfl
        obtain rfl := List.singleton_inj.mp hm
        rcases List.eq_nil_or_concat post with rfl | ⟨post, j, rfl⟩
        · obtain ⟨rfl, hj⟩ := List.append_inj' hls rfl
          obtain rfl := List.singleton_inj.mp hj
          obtain ⟨rfl, rfl⟩ := hr.unique hdet hr' (htr.trans hl'.symm)
          exact ⟨s, hs⟩
        · have hls' : ls ++ [m] = (pre ++ l :: post) ++ [j] := by simpa using hls
          exact ih.mp ⟨tr, u, hr, htr⟩ pre l post tr' s' (List.append_inj' hls' rfl).1 hr' hl'
    · intro h
      obtain ⟨tr, s, hr, hl⟩ := ih.mpr fun pre l post tr s hls => h pre l (post ++ [k]) tr s (by simp [hls])
      obtain ⟨t, hs⟩ := h ls k [] tr s rfl hr hl
      exact ⟨tr ++ [(s, k)], t, .snoc hr hs, by simp [hl]⟩

end Run

/-! ### Executing a list of labels -/

section Exec
variable {step : σ → ι → σ → Prop} {f : σ → ι → Option σ}

/-- A partial function of the state and the label, run along a list of labels. -/
def exec (f : σ → ι → Option σ) : List ι → σ → Option σ
  | [], s => some s
  | l :: ls, s => (f s l).bind (exec f ls)

theorem exec_run (hf : ∀ s l t, f s l = some t → step s l t) {init : σ} :
    ∀ {ls : List ι} {s t : σ} {tr : List (σ × ι)}, Run step init tr s → exec f ls s = some t →
      ∃ tr', Run step init (tr ++ tr') t ∧ tr'.map Prod.snd = ls
  | [], s, t, tr, hr, h => by
    cases h
    exact ⟨[], by rw [List.append_nil]; exact hr, rfl⟩
  | l :: ls, s, t, tr, hr, h => by
    obtain ⟨u, hu, h⟩ := Option.bind_eq_some_iff.mp h
    obtain ⟨tr', hr', hl⟩ := exec_run hf (hr.snoc (hf s l u hu)) h
    exact ⟨(s, l) :: tr', by simpa using hr', by simp [hl]⟩

end Exec

/-! ### The last label of a kind -/

/-- `l` is the last of the labels that meets `P`. -/
def LastOf (P : ι → Prop) (ls : List ι) (l : ι) : Prop := ∃ pre post, ls = pre ++ l :: post ∧ P l ∧ ∀ k ∈ post, ¬P k

section LastOf
variable {P : ι → Prop} {ls : List ι} {k l : ι}

theorem lastOf_snoc : LastOf P (ls ++ [k]) l ↔ (P k ∧ l = k) ∨ (¬P k ∧ LastOf P ls l) := by
  constructor
  · rintro ⟨pre, post, heq, hl, hpost⟩
    rcases List.eq_nil_or_concat post with rfl | ⟨post, j, rfl⟩
    · obtain ⟨-, hkl⟩ := List.append_inj' heq rfl
      obtain rfl := List.singleton_inj.mp hkl
      exact Or.inl ⟨hl, rfl⟩
    · have heq' : ls ++ [k] = (pre ++ l :: post) ++ [j] := by simpa using heq
      obtain ⟨hls, hkj⟩ := List.append_inj' heq' rfl
      obtain rfl := List.singleton_inj.mp hkj
      exact Or.inr ⟨hpost k (by simp), pre, post, hls, hl, fun j hj => hpost j (by simp [hj])⟩
  · rintro (⟨hk, rfl⟩ | ⟨hk, pre, post, rfl, hl, hpost⟩)
    · exact ⟨ls, [], rfl, hk, by simp⟩
    · refine ⟨pre, post ++ [k], by simp, hl, fun j hj => ?_⟩
      rcases List.mem_append.mp hj with hj | hj
      · exact hpost j hj
      · rwa [List.mem_singleton.mp hj]

@[simp] theorem not_lastOf_nil : ¬LastOf P [] l := by
  rintro ⟨pre, post, heq, -⟩
  simp at heq

theorem LastOf.unique {l' : ι} (h : LastOf P ls l) (h' : LastOf P ls l') : l = l' := by
  induction ls using List.reverseRecOn with
  | nil => exact absurd h not_lastOf_nil
  | append_singleton ls k ih =>
    rcases lastOf_snoc.mp h with ⟨hk, rfl⟩ | ⟨hk, h⟩ <;> rcases lastOf_snoc.mp h' with ⟨hk', rfl⟩ | ⟨hk', h'⟩
    · rfl
    · exact absurd hk hk'
    · exact absurd hk' hk
    · exact ih h h'

theorem exists_lastOf (hl : l ∈ ls) (hP : P l) : ∃ k, LastOf P ls k := by
  induction ls using List.reverseRecOn with
  | nil => cases hl
  | append_singleton ls k ih =>
    by_cases hk : P k
    · exact ⟨k, lastOf_snoc.mpr (Or.inl ⟨hk, rfl⟩)⟩
    · rcases List.mem_append.mp hl with hl | hl
      · obtain ⟨j, hj⟩ := ih hl
        exact ⟨j, lastOf_snoc.mpr (Or.inr ⟨hk, hj⟩)⟩
      · rw [List.mem_singleton.mp hl] at hP
        exact absurd hP hk

end LastOf

/-- Two systems in lockstep: when related states take the same label and stay related, what is observed of a run
    of the one is observed of a run of the other. -/
theorem Run.lockstep {σ' ω : Type*} {step : σ → ι → σ → Prop} {step' : σ' → ι → σ' → Prop} {init : σ} {init' : σ'}
    {P : σ → ι → Prop} {P' : σ' → ι → Prop} {tr : List (σ × ι)} {s : σ} {R : σ → σ' → Prop} (obs : σ → ω)
    (obs' : σ' → ω) (h₀ : R init init') (hobs : ∀ s s', R s s' → obs' s' = obs s)
    (hstep : ∀ s l t s', R s s' → P s l → step s l t → P' s' l ∧ ∃ t', step' s' l t' ∧ R t t')
    (h : Run step init tr s) (hP : Meets P tr) :
    ∃ tr' s', Run step' init' tr' s' ∧ Meets P' tr' ∧
      tr'.map (fun e => (obs' e.1, e.2)) = tr.map (fun e => (obs e.1, e.2)) ∧
      R s s' := by
  induction h with
  | nil => exact ⟨[], init', .nil, meets_nil, rfl, h₀⟩
  | @snoc tr s t l hr hs ih =>
    obtain ⟨htr, hl⟩ := meets_snoc.mp hP
    obtain ⟨tr', s', hrun, hmeets, hsame, hrel⟩ := ih htr
    obtain ⟨hl', t', hs', hrel'⟩ := hstep s l t s' hrel hl hs
    exact ⟨tr' ++ [(s', l)], t', .snoc hrun hs', meets_snoc.mpr ⟨hmeets, hl'⟩, by simp [hsame, hobs s s' hrel], hrel'⟩

end Transition
