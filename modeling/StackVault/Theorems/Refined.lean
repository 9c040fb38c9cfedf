import StackVault.Theorems.Chains

/-! The linked table and the table of lists have the same runs. A call that returns on the one returns on the other: the
    walk ends, its pointers lead to entries of the chain, and the pointer comparisons tell apart the cases that the list
    has. A lookup finds the same in both. -/

namespace StackVault.Linked
open Links Transition

section Grow
variable {t : Table} {malloc : Nat → Bool} {key : CString} {value : List Byte} {bin : Nat} {head : Option Nat}
  {pre post : List Nat} {chain : List HtEntry}

theorem update_ok {p : Option Nat} {i : Nat} {e : Entry} (hp : p = some i) (he : t.entries[i]? = some e)
    (f : Entry → Entry) :
    ∃ t', t.update p f = .ok t' :=
  ⟨_, update_eq_ok.mpr ⟨i, e, hp, he, rfl⟩⟩

/-- The last entry that the walk has gone past can be written, also with new entries behind the others. -/
theorem update_last (hc : t.Chain bin (pre ++ post)) (hpre : pre ≠ []) (es : List Entry) (f : Entry → Entry) :
    ∃ t', Table.update { t with entries := t.entries ++ es } pre.getLast? f = .ok t' := by
  have hlt := hc.lt_length (List.mem_append_left post (List.getLast_mem hpre))
  have he : (t.entries ++ es)[pre.getLast hpre]? = some t.entries[pre.getLast hpre] := by
    rw [List.getElem?_append_left hlt]
    exact List.getElem?_eq_getElem hlt
  exact update_ok (List.getLast?_eq_some_getLast hpre) he f

/-- Without the key, what can be done to the list can be done to the chain. -/
theorem link_returns (hhead : t.table[bin]? = some head) (hc : t.Chain bin (pre ++ post))
    (hkey : t.hasKey key post.head? = .ok false)
    (hpair : StackVault.htNewpair malloc key value = none → pre ≠ [] ∧ post = []) :
    ∃ t', t.grow malloc key value bin head pre.getLast? post.head? = .ok t' := by
  have hfront := hc.front_iff hhead
  simp only [Table.grow, hkey, bind, Except.bind, Bool.false_eq_true, if_false, hfront]
  by_cases hmalloc : malloc 0 ∧ malloc 1 ∧ malloc 2
  · simp only [htNewpair, if_pos hmalloc, update_new]
    split_ifs with hpre hpost
    · exact ⟨_, rfl⟩
    · exact update_last hc hpre _ _
    · exact update_last hc hpre _ _
  · obtain ⟨hpre, rfl⟩ := hpair (if_neg hmalloc)
    simp only [htNewpair, if_neg hmalloc, if_neg hpre, List.head?_nil, if_true]
    have hlast := update_last hc hpre [] fun e => { e with next := none }
    rwa [List.append_nil] at hlast

/-- What can be done to the list can be done to the chain. -/
theorem grow_returns (hhead : t.table[bin]? = some head) (hc : t.Chain bin (pre ++ post))
    (h : htSetChain malloc key value (t.pairs pre) (t.pairs post) = .ok chain) :
    ∃ t', t.grow malloc key value bin head pre.getLast? post.head? = .ok t' := by
  cases post with
  | nil =>
    refine link_returns hhead hc rfl fun hpair => ⟨?_, rfl⟩
    rintro rfl
    simp only [Table.pairs, List.filterMap_nil, htSetChain, hpair, List.isEmpty_nil, if_true] at h
    cases h
  | cons i rest =>
    obtain ⟨e, he⟩ : ∃ e, t.entries[i]? = some e := by
      obtain ⟨head, -, hseg⟩ := hc
      exact hseg.exists_node (List.mem_append_right pre List.mem_cons_self)
    have hkey := hasKey_some key he
    rw [pairs_cons he, htSetChain] at h
    by_cases hfound : strcmp key e.key = 0
    · simp only [Entry.pair, hfound, if_true] at h
      split_ifs at h with hmalloc
      simp only [Table.grow, List.head?_cons, hkey, hfound, decide_true, bind, Except.bind, if_true, if_pos hmalloc]
      exact update_ok rfl he _
    · rw [decide_eq_false hfound] at hkey
      refine link_returns hhead hc hkey fun hpair => ?_
      simp only [Entry.pair, if_neg hfound, hpair] at h
      cases h

end Grow

section Runs
variable {t t₀ : Table} {ht ht' : Hashtable} {c : SetCall} {n : Int} {malloc : Nat → Bool}

/-- A call that returns on the lists returns on the chains. -/
theorem htSet_returns (hw : Wf t) (hs : StackVault.SetStep t.view c ht') :
    ∃ t', SetStep t c t' ∧ Wf t' ∧ t'.view = ht' := by
  obtain ⟨fuel, h⟩ := hs
  obtain ⟨bin, hbin, hset⟩ := Option.map_eq_some_iff.mp h
  have hbin' : htHash fuel c.hashval c.key t.size = some bin := hbin
  obtain ⟨ids, hc⟩ := hw.chain bin (htHash_lt hw.pos hbin')
  obtain ⟨head, pre, post, hhead, rfl, hpre, hpost, hwalk⟩ := hc.split c.key
  obtain ⟨chain, hchain, -⟩ := map_eq_ok.mp hset
  rw [← hpre, ← hpost] at hchain
  obtain ⟨t', hgrow⟩ := grow_returns hhead hc hchain
  have hfuel : pre.length < max fuel (pre.length + 1) := Nat.lt_of_succ_le (Nat.le_max_right fuel (pre.length + 1))
  have hlinked : htSet c.toHashEnv (max fuel (pre.length + 1)) c.key c.value t = some (.ok t') := by
    rw [htSet, htHash_mono (Nat.le_max_left fuel (pre.length + 1)) hbin', Option.bind_some, hhead]
    simp only [hwalk, if_pos hfuel, Option.map_some]
    exact congrArg some hgrow
  obtain ⟨hview, hw'⟩ := htSet_view hw hlinked
  refine ⟨t', ⟨_, hlinked⟩, hw', ?_⟩
  have hmono := htSet_mono (Nat.le_max_left fuel (pre.length + 1)) h
  exact Except.ok.inj (Option.some.inj (hview.symm.trans hmono))

/-- A run on the lists is one on the chains. -/
theorem run_returns {steps : List (Hashtable × SetCall)} (hw : Wf t₀) (hr : Run StackVault.SetStep t₀.view steps ht) :
    ∃ tr t, Run SetStep t₀ tr t ∧ tr.map (Prod.map Table.view id) = steps ∧ t.view = ht := by
  have hstep : ∀ ht c ht' (t : Table), Wf t ∧ t.view = ht → True → StackVault.SetStep ht c ht' →
      True ∧ ∃ t', SetStep t c t' ∧ Wf t' ∧ t'.view = ht' := by
    rintro _ c ht' t ⟨hw, rfl⟩ - hs
    exact ⟨trivial, htSet_returns hw hs⟩
  obtain ⟨tr, t, hrun, -, hsame, -, hview⟩ :=
    hr.lockstep (P := fun _ _ => True) (R := fun ht t => Wf t ∧ t.view = ht) id Table.view
      ⟨hw, rfl⟩ (fun _ _ h => h.2) hstep fun _ _ => trivial
  exact ⟨tr, t, hrun, hsame.trans (List.map_id _), hview⟩

/-- The chains of pointers implement the lists. From a new table the two have the same runs of `htSet`, each table of
    the one the view of the other's, and after each run an `htGet` ends alike on both, with the same value. -/
theorem linked_runs_iff (hc : htCreate malloc n = some t₀) (steps : List (Hashtable × SetCall)) (ht : Hashtable) :
    StackVault.htCreate malloc n = some t₀.view ∧
      ((∃ tr t, Run SetStep t₀ tr t ∧ tr.map (Prod.map Table.view id) = steps ∧ t.view = ht) ↔
        Run StackVault.SetStep t₀.view steps ht) ∧
      ∀ tr t, Run SetStep t₀ tr t → ∀ hashval key r, (∃ fuel, htGet hashval fuel key t = some (.ok r)) ↔
        ∃ fuel, StackVault.htGet hashval fuel key t.view = some r := by
  obtain ⟨hcreate, hw⟩ := htCreate_view hc
  refine ⟨hcreate, ⟨?_, run_returns hw⟩, fun tr t hr hashval key r => htGet_view (run_view hw hr).1⟩
  rintro ⟨tr, t, hr, rfl, rfl⟩
  exact (run_view hw hr).2

end Runs

/-- Two calls on a table of one bin. -/
theorem linked_runs_iff_sample :
    ∃ t₀ steps ht, htCreate (fun _ => true) 1 = some t₀ ∧ steps.map Prod.snd = [f1Set, f2Set] ∧
    Run StackVault.SetStep t₀.view steps ht := by
  obtain ⟨t₀, t₁, t₂, hc, hr, -⟩ := f2_sets
  obtain ⟨-, hiff, -⟩ := linked_runs_iff hc ([(t₀, f1Set), (t₁, f2Set)].map (Prod.map Table.view id)) t₂.view
  exact ⟨t₀, _, t₂.view, hc, rfl, hiff.mp ⟨_, t₂, hr, rfl, rfl⟩⟩

end StackVault.Linked
