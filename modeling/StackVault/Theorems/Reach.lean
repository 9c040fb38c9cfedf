import StackVault.Parser
import StackVault.Lib.Worklist
import Mathlib.Data.List.Chain

/-! What the call-graph analysis finds. The list of untrusted functions grows while it is walked, so one
    round finds all that its sensitive function exposes, but no round is repeated: what comes out is what
    chains of exposures reach that use the sensitive functions in the order of their list. In a graph
    without cycles one exposure is always enough; with recursion the order can matter. -/

namespace StackVault
open Worklist

variable {ν : Type}

/-- `p` is a path from `s` to `t` that visits no node twice. -/
structure SimplePath (edges : List (ν × ν)) (s t : ν) (p : List ν) : Prop where
  head : p.head? = some s
  last : p.getLast? = some t
  chain : p.IsChain fun a b => (a, b) ∈ edges
  nodup : p.Nodup

/-- The paths are exactly the simple ones. From a node to itself the path of one node may be left out. -/
structure YieldsSimplePaths (edges : List (ν × ν)) (paths : ν → ν → List (List ν)) : Prop where
  sound : ∀ s t, ∀ p ∈ paths s t, SimplePath edges s t p
  complete : ∀ s t p, s ≠ t → SimplePath edges s t p → p ∈ paths s t

/-- Some simple path from `s` to `t` passes from a sensitive function directly to `v`. -/
def Exposes (edges : List (ν × ν)) (sensitive : List ν) (s t v : ν) : Prop :=
  ∃ p, SimplePath edges s t p ∧ ∃ x ∈ sensitive, [x, v] <:+: p

/-- The least set that contains the untrusted functions and what sensitive functions expose to it. -/
inductive Untrusted (edges : List (ν × ν)) (sensitive untrusted : List ν) : ν → Prop
  | named {u : ν} : u ∈ untrusted → Untrusted edges sensitive untrusted u
  | exposed {s t v : ν} : s ∈ sensitive → Untrusted edges sensitive untrusted t → Exposes edges sensitive s t v →
      Untrusted edges sensitive untrusted v

section Paths
variable {edges : List (ν × ν)} {sensitive : List ν} {s t v x : ν} {p : List ν}

theorem SimplePath.eq_singleton (h : SimplePath edges s s p) : p = [s] := by
  rcases p with _ | ⟨a, _ | ⟨b, p⟩⟩
  · cases h.head
  · rw [Option.some.inj h.head]
  · obtain rfl : a = s := Option.some.inj h.head
    have hlast : a ∈ b :: p := List.mem_of_getLast? (by simpa using h.last)
    exact absurd hlast (List.nodup_cons.mp h.nodup).1

theorem SimplePath.mem_edges (h : SimplePath edges s t p) (hv : [x, v] <:+: p) : (x, v) ∈ edges := by
  simpa using h.chain.infix hv

end Paths

/-! ### The loops as a sweep -/

section Loops
variable [DecidableEq ν] {sensitive : List ν} {paths : ν → ν → List (List ν)} {p : List ν} {v : ν}

/-- The nodes that follow a sensitive one. -/
def passes (sensitive : List ν) : List ν → List ν
  | a :: b :: path => if a ∈ sensitive then b :: passes sensitive (b :: path) else passes sensitive (b :: path)
  | _ => []

theorem mem_passes : ∀ {p : List ν}, v ∈ passes sensitive p ↔ ∃ x ∈ sensitive, [x, v] <:+: p
  | [] => by simp [passes]
  | [a] => by simp [passes, List.infix_cons_iff]
  | a :: b :: p => by
    have hinfix : ∀ x, [x, v] <:+: a :: b :: p ↔ (x = a ∧ v = b) ∨ [x, v] <:+: b :: p := fun x => by
      rw [List.infix_cons_iff, List.cons_prefix_cons, List.cons_prefix_cons]
      simp
    simp only [passes, hinfix, and_or_left, exists_or, ← mem_passes]
    by_cases ha : a ∈ sensitive <;> simp [ha]

theorem scanPath_eq : ∀ {p untrusted : List ν},
    scanPath sensitive p untrusted = (passes sensitive p).foldl note untrusted
  | [], _ => rfl
  | [_], _ => rfl
  | a :: b :: p, untrusted => by
    simp only [scanPath, passes, scanPath_eq]
    by_cases ha : a ∈ sensitive
    · by_cases hb : b ∈ untrusted <;> simp [ha, hb, note]
    · simp [ha]

/-- What a sensitive function adds on account of an untrusted one. -/
def found (sensitive : List ν) (paths : ν → ν → List (List ν)) (s t : ν) : List ν :=
  (paths s t).flatMap (passes sensitive)

theorem scanUntrusted_eq {s : ν} : ∀ {fuel i : Nat} {untrusted : List ν},
    scanUntrusted paths sensitive s fuel i untrusted = walk (found sensitive paths s) fuel i untrusted
  | 0, _, _ => rfl
  | fuel + 1, i, untrusted => by
    have hfold : ∀ (ps : List (List ν)) (l : List ν), ps.foldl (fun l p => scanPath sensitive p l) l =
        (ps.flatMap (passes sensitive)).foldl note l := by
      intro ps
      induction ps with
      | nil => intro l; rfl
      | cons p ps ih =>
        intro l
        rw [List.foldl_cons, ih, scanPath_eq, List.flatMap_cons, List.foldl_append]
    cases hi : untrusted[i]? with
    | none => simp only [scanUntrusted, walk, hi]
    | some t => simp only [scanUntrusted, walk, hi, hfold, scanUntrusted_eq, found]

theorem scanSensitive_eq {fuel : Nat} : ∀ {ss untrusted : List ν},
    scanSensitive paths sensitive fuel ss untrusted = sweep (found sensitive paths) fuel ss untrusted
  | [], _ => rfl
  | s :: ss, untrusted => by
    unfold scanSensitive sweep
    rw [scanUntrusted_eq]
    congr 1
    funext l
    exact scanSensitive_eq

end Loops

/-! ### The closure -/

section Closure
variable {edges : List (ν × ν)} {paths : ν → ν → List (List ν)} {ss sensitive untrusted : List ν} {s t u v : ν}

theorem Untrusted.inOrder (hss : ∀ s ∈ ss, s ∈ sensitive) (hu : Untrusted edges sensitive untrusted u)
    (h : InOrder (Exposes edges sensitive) ss u v) : Untrusted edges sensitive untrusted v := by
  induction h with
  | done => exact hu
  | step hexp _ ih => exact ih hss (.exposed (hss _ List.mem_cons_self) hu hexp)
  | skip _ ih => exact ih (fun s hs => hss s (List.mem_cons_of_mem _ hs)) hu

variable [DecidableEq ν]

theorem mem_found (hpaths : YieldsSimplePaths edges paths) :
    v ∈ found sensitive paths s t ↔ Exposes edges sensitive s t v := by
  simp only [found, List.mem_flatMap, mem_passes, Exposes]
  constructor
  · rintro ⟨p, hp, hv⟩
    exact ⟨p, hpaths.sound s t p hp, hv⟩
  · rintro ⟨p, hp, x, hx, hv⟩
    rcases eq_or_ne s t with rfl | hne
    · -- The path of one node exposes nothing.
      rw [hp.eq_singleton] at hv
      simp [List.infix_cons_iff] at hv
    · exact ⟨p, hpaths.complete s t p hne hp, x, hx, hv⟩

/-- The analysis ends, and its list has the members of the closure. -/
def FindsClosure (edges : List (ν × ν)) (paths : ν → ν → List (List ν)) (labels : List (ν × String))
    (sensitiveFuncList untrustedFuncList : List String) : Prop :=
  (∃ fuel l, analyse paths labels sensitiveFuncList untrustedFuncList fuel = some l) ∧
    ∀ fuel l, analyse paths labels sensitiveFuncList untrustedFuncList fuel = some l →
      ∀ v, v ∈ l ↔ Untrusted edges (funcIdList labels sensitiveFuncList) (funcIdList labels untrustedFuncList) v

theorem analyse_returns (hpaths : YieldsSimplePaths edges paths) (labels : List (ν × String)) (sens unt : List String) :
    ∃ fuel l, analyse paths labels sens unt fuel = some l := by
  have hstock : ∀ s t, ∀ v ∈ found (funcIdList labels sens) paths s t, v ∈ (edges.map Prod.snd).toFinset := by
    intro s t v hv
    obtain ⟨p, hp, x, -, hxv⟩ := (mem_found hpaths).mp hv
    exact List.mem_toFinset.mpr (List.mem_map.mpr ⟨(x, v), hp.mem_edges hxv, rfl⟩)
  obtain ⟨l, hl⟩ := sweep_returns hstock (Nat.lt_succ_self (room _ (funcIdList labels unt)))
  exact ⟨_, l, scanSensitive_eq.trans hl⟩

/-- What the analysis finds: chains of exposures in the order of the list. -/
theorem mem_analyse (hpaths : YieldsSimplePaths edges paths) {labels : List (ν × String)} {sens unt : List String}
    {fuel : Nat} {l : List ν} (h : analyse paths labels sens unt fuel = some l) : v ∈ l ↔ ∃ u ∈ funcIdList labels unt,
      InOrder (Exposes edges (funcIdList labels sens)) (funcIdList labels sens) u v := by
  have hrel : (fun s => Yields (found (funcIdList labels sens) paths s)) = Exposes edges (funcIdList labels sens) := by
    funext s t v
    exact propext (mem_found hpaths)
  rw [mem_sweep (scanSensitive_eq.symm.trans h), hrel]

theorem findsClosure_of_inOrder (hpaths : YieldsSimplePaths edges paths) {labels : List (ν × String)}
    {sens unt : List String} (horder : ∀ v, Untrusted edges (funcIdList labels sens) (funcIdList labels unt) v →
      ∃ u ∈ funcIdList labels unt,
      InOrder (Exposes edges (funcIdList labels sens)) (funcIdList labels sens) u v) :
    FindsClosure edges paths labels sens unt := by
  refine ⟨analyse_returns hpaths labels sens unt, fun fuel l hl v => ?_⟩
  rw [mem_analyse hpaths hl]
  refine ⟨?_, horder v⟩
  rintro ⟨u, hu, huv⟩
  exact Untrusted.inOrder (fun _ h => h) (.named hu) huv

/-- In every finite call graph the analysis finds the closure if and only if each function that chains of
    exposures reach is also reached by a chain that uses the sensitive functions in the order of the
    list. -/
theorem finds_closure_iff (hpaths : YieldsSimplePaths edges paths) (labels : List (ν × String))
    (sens unt : List String) :
    FindsClosure edges paths labels sens unt ↔
      ∀ v, Untrusted edges (funcIdList labels sens) (funcIdList labels unt) v → ∃ u ∈ funcIdList labels unt,
        InOrder (Exposes edges (funcIdList labels sens)) (funcIdList labels sens) u v := by
  refine ⟨?_, findsClosure_of_inOrder hpaths⟩
  rintro ⟨⟨fuel, l, hl⟩, hall⟩ v hv
  exact (mem_analyse hpaths hl).mp ((hall fuel l hl v).mpr hv)

end Closure

/-- With one sensitive function there is one order. -/
theorem Untrusted.inOrder_single {edges : List (ν × ν)} {untrusted : List ν} {s v : ν}
    (h : Untrusted edges [s] untrusted v) :
    ∃ u ∈ untrusted, InOrder (Exposes edges [s]) [s] u v := by
  induction h with
  | named hu => exact ⟨_, hu, .done⟩
  | exposed hs _ hexp ih =>
    obtain ⟨u, hu, hut⟩ := ih
    rw [List.mem_singleton.mp hs] at hexp
    exact ⟨u, hu, inOrder_singleton.mpr ((inOrder_singleton.mp hut).tail hexp)⟩

/-! ### Graphs without cycles -/

section Acyclic
variable {edges : List (ν × ν)} {sensitive untrusted : List ν} {s t u v : ν}

/-- No node is reached from itself. -/
def Acyclic (edges : List (ν × ν)) : Prop := ∀ a, ¬Relation.TransGen (fun a b => (a, b) ∈ edges) a a

theorem Acyclic.nodup (hac : Acyclic edges) {p : List ν} (hp : p.IsChain fun a b => (a, b) ∈ edges) : p.Nodup := by
  have htrans : p.IsChain (Relation.TransGen fun a b => (a, b) ∈ edges) := hp.imp fun _ _ h => .single h
  refine (List.isChain_iff_pairwise.mp htrans).imp fun {a b} hab heq => ?_
  subst heq
  exact hac a hab

/-- Without cycles, paths compose: what is exposed to an exposed function is exposed to the first one. -/
theorem Exposes.trans (hac : Acyclic edges) {s' : ν} (h : Exposes edges sensitive s t v)
    (h' : Exposes edges sensitive s' u t) :
    Exposes edges sensitive s u v := by
  obtain ⟨p, hp, x, hx, hxv⟩ := h
  obtain ⟨q, hq, x', -, pre, post, rfl⟩ := h'
  have hrest : (t :: post).IsChain fun a b => (a, b) ∈ edges := by
    refine hq.chain.infix ⟨pre ++ [x'], [], ?_⟩
    simp
  have hlast : (t :: post).getLast? = some u := by
    rw [← hq.last, show pre ++ [x', t] ++ post = (pre ++ [x']) ++ t :: post by simp]
    exact (List.getLast?_append_of_ne_nil _ (List.cons_ne_nil t post)).symm
  have hchain : (p ++ post).IsChain fun a b => (a, b) ∈ edges := by
    refine List.isChain_append.mpr ⟨hp.chain, (List.isChain_cons.mp hrest).2, fun a ha b hb => ?_⟩
    rw [hp.last] at ha
    cases ha
    exact (List.isChain_cons.mp hrest).1 b hb
  -- The end of `q` continues `p`, and the whole is simple because no walk comes back.
  refine ⟨p ++ post, ⟨?_, ?_, hchain, hac.nodup hchain⟩, x, hx, hxv.trans (List.prefix_append p post).isInfix⟩
  · rw [List.head?_append, hp.head]
    rfl
  · rw [List.getLast?_cons] at hlast
    rw [List.getLast?_append, hp.last]
    cases hpost : post.getLast? <;> simpa [hpost] using hlast

theorem Untrusted.one_step (hac : Acyclic edges) (h : Untrusted edges sensitive untrusted v) :
    v ∈ untrusted ∨ ∃ u ∈ untrusted, ∃ s ∈ sensitive, Exposes edges sensitive s u v := by
  induction h with
  | named hu => exact Or.inl hu
  | @exposed s t v hs _ hexp ih =>
    rcases ih with ht | ⟨u, hu, s', -, hexp'⟩
    · exact Or.inr ⟨t, ht, s, hs, hexp⟩
    · exact Or.inr ⟨u, hu, s, hs, hexp.trans hac hexp'⟩

/-- In a call graph without cycles the analysis finds the closure, in whatever order the functions are named. -/
theorem acyclic_finds_closure [DecidableEq ν] {paths : ν → ν → List (List ν)} (hac : Acyclic edges)
    (hpaths : YieldsSimplePaths edges paths) (labels : List (ν × String)) (sens unt : List String) :
    FindsClosure edges paths labels sens unt := by
  refine findsClosure_of_inOrder hpaths fun v hv => ?_
  rcases hv.one_step hac with hv | ⟨u, hu, s, hs, hexp⟩
  · exact ⟨v, hv, .done⟩
  · exact ⟨u, hu, .of_mem hs hexp⟩

end Acyclic

/-! ### A depth-first search -/

section Search
variable [DecidableEq ν] {edges : List (ν × ν)} {s t v : ν} {p : List ν}

/-- The paths from `s` to `t` of at most `n` nodes that visit no node twice and none of `visited`. -/
def search (edges : List (ν × ν)) (t : ν) : Nat → List ν → ν → List (List ν)
  | 0, _, _ => []
  | n + 1, visited, s =>
    if s = t then [[s]]
    else (edges.filter fun e => e.1 = s ∧ e.2 ∉ s :: visited).flatMap fun e =>
      (search edges t n (s :: visited) e.2).map (s :: ·)

def simplePaths (edges : List (ν × ν)) (s t : ν) : List (List ν) := search edges t (edges.length + 1) [] s

omit [DecidableEq ν] in
theorem simplePath_self : SimplePath edges t t [t] := ⟨rfl, rfl, by simp, by simp⟩

omit [DecidableEq ν] in
theorem simplePath_cons (hne : s ≠ t) : SimplePath edges s t p ↔
    ∃ v q, p = s :: q ∧ (s, v) ∈ edges ∧ s ∉ q ∧ SimplePath edges v t q := by
  constructor
  · intro h
    rcases p with _ | ⟨a, _ | ⟨b, q⟩⟩
    · cases h.head
    · obtain rfl : a = s := Option.some.inj h.head
      exact absurd (Option.some.inj h.last) hne
    · obtain rfl : a = s := Option.some.inj h.head
      obtain ⟨hab, hq⟩ := List.isChain_cons_cons.mp h.chain
      obtain ⟨ha, hnodup⟩ := List.nodup_cons.mp h.nodup
      exact ⟨b, b :: q, rfl, hab, ha, rfl, by simpa using h.last, hq, hnodup⟩
  · rintro ⟨v, q, rfl, hv, hs, h⟩
    obtain ⟨b, q, rfl⟩ : ∃ b r, q = b :: r := by
      cases q with
      | nil => cases h.head
      | cons b r => exact ⟨b, r, rfl⟩
    obtain rfl : b = v := Option.some.inj h.head
    exact ⟨rfl, by simpa using h.last, List.isChain_cons_cons.mpr ⟨hv, h.chain⟩, List.nodup_cons.mpr ⟨hs, h.nodup⟩⟩

theorem mem_search : ∀ {n : Nat} {visited : List ν} {s : ν} {p : List ν}, s ∉ visited →
    (p ∈ search edges t n visited s ↔ SimplePath edges s t p ∧ p.length ≤ n ∧ ∀ x ∈ p, x ∉ visited)
  | 0, visited, s, p, _ => by
    refine ⟨fun h => absurd h List.not_mem_nil, ?_⟩
    rintro ⟨h, hlen, -⟩
    rw [List.eq_nil_of_length_eq_zero (Nat.le_zero.mp hlen)] at h
    cases h.head
  | n + 1, visited, s, p, hs => by
    unfold search
    split
    · next heq =>
      subst heq
      rw [List.mem_singleton]
      constructor
      · rintro rfl
        exact ⟨simplePath_self, by simp, by simpa using hs⟩
      · rintro ⟨h, -, -⟩
        exact h.eq_singleton
    · next hne =>
      simp only [List.mem_flatMap, List.mem_filter, List.mem_map, decide_eq_true_eq, simplePath_cons hne]
      constructor
      · rintro ⟨⟨a, v⟩, ⟨he, rfl, hv⟩, q, hq, rfl⟩
        obtain ⟨hpath, hlen, hfresh⟩ := (mem_search hv).mp hq
        refine ⟨⟨v, q, rfl, he, fun hmem => hfresh _ hmem List.mem_cons_self, hpath⟩, Nat.succ_le_succ hlen,
          fun x hx => ?_⟩
        rcases List.mem_cons.mp hx with rfl | hx
        · exact hs
        · exact fun hmem => hfresh x hx (List.mem_cons_of_mem _ hmem)
      · rintro ⟨⟨v, q, rfl, he, hsq, hpath⟩, hlen, hfresh⟩
        have hfresh' : ∀ x ∈ q, x ∉ s :: visited := fun x hx hmem => by
          rcases List.mem_cons.mp hmem with rfl | hmem
          · exact hsq hx
          · exact hfresh x (List.mem_cons_of_mem _ hx) hmem
        have hv : v ∉ s :: visited := hfresh' v (List.mem_of_head? hpath.head)
        exact ⟨(s, v), ⟨he, rfl, hv⟩, q, (mem_search hv).mpr ⟨hpath, Nat.le_of_succ_le_succ hlen, hfresh'⟩, rfl⟩

omit [DecidableEq ν] in
theorem mem_tail_edges : ∀ {p : List ν}, (p.IsChain fun a b => (a, b) ∈ edges) → ∀ v ∈ p.tail, v ∈ edges.map Prod.snd
  | [], _, _, h => by cases h
  | [_], _, _, h => by cases h
  | a :: b :: p, hp, v, hv => by
    obtain ⟨hab, hp⟩ := List.isChain_cons_cons.mp hp
    rcases List.mem_cons.mp hv with rfl | hv
    · exact List.mem_map.mpr ⟨(a, v), hab, rfl⟩
    · exact mem_tail_edges hp v hv

omit [DecidableEq ν] in
theorem SimplePath.length_le (h : SimplePath edges s t p) : p.length ≤ edges.length + 1 := by
  have hsub : p.tail ⊆ edges.map Prod.snd := mem_tail_edges h.chain
  have hlen := (h.nodup.tail.subperm hsub).length_le
  rw [List.length_tail, List.length_map] at hlen
  omega

theorem simplePaths_yields (edges : List (ν × ν)) : YieldsSimplePaths edges (simplePaths edges) where
  sound _ _ _ hp := ((mem_search List.not_mem_nil).mp hp).1
  complete _ _ _ _ hp := (mem_search List.not_mem_nil).mpr ⟨hp, hp.length_le, fun _ _ => List.not_mem_nil⟩

end Search

/-! ### Recursion -/

/-- `s2` calls `a`, `a` calls `s1`, `s1` calls `u` and `b`, and `b` calls `a` again. -/
def recursive : List (Nat × Nat) := [(2, 3), (3, 1), (1, 4), (1, 5), (5, 3)]

def recursiveLabels : List (Nat × String) :=
  [(1, funcStr "s1"), (2, funcStr "s2"), (3, funcStr "a"), (4, funcStr "u"), (5, funcStr "b")]

theorem finds_closure_sample :
    FindsClosure recursive (simplePaths recursive) recursiveLabels ["s1"] ["u"] :=
  (finds_closure_iff (simplePaths_yields recursive) recursiveLabels ["s1"] ["u"]).mpr fun _ hv => hv.inOrder_single

/-- With `s1` first, `a` becomes untrusted too late for `s1` to expose `b` to it. With `s2` first, `b` is found. -/
theorem order_matters :
    analyse (simplePaths recursive) recursiveLabels ["s1", "s2"] ["u"] 10 = some [4, 3] ∧
    analyse (simplePaths recursive) recursiveLabels ["s2", "s1"] ["u"] 10 = some [4, 3, 5] ∧
    Untrusted recursive [1, 2] [4] 5 ∧
    ¬FindsClosure recursive (simplePaths recursive) recursiveLabels ["s1", "s2"] ["u"] := by
  have hrun : analyse (simplePaths recursive) recursiveLabels ["s1", "s2"] ["u"] 10 = some [4, 3] := by decide
  have hmissed : Untrusted recursive [1, 2] [4] 5 := by
    have ha : Untrusted recursive [1, 2] [4] 3 := .exposed (s := 2) (by simp) (.named (by simp))
      ⟨[2, 3, 1, 4], ⟨rfl, rfl, by decide, by decide⟩, 2, by simp, ⟨[], [1, 4], rfl⟩⟩
    exact .exposed (s := 1) (by simp) ha ⟨[1, 5, 3], ⟨rfl, rfl, by decide, by decide⟩, 1, by simp, ⟨[], [3], rfl⟩⟩
  refine ⟨hrun, by decide, hmissed, ?_⟩
  rintro ⟨-, hall⟩
  have hmem := (hall 10 _ hrun 5).mpr hmissed
  exact absurd hmem (by decide)

end StackVault
