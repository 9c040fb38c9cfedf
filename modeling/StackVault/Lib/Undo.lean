import Mathlib.Data.Set.Piecewise

/-! Memories with one stack of snapshots. An owner clears a region of its memory, the vault keeping the
    memory from before; an undo gives the region of the newest snapshot back, whoever took it, to the
    owner that asks. One owner sees nothing of the others as long as every undo comes from the owner of
    the newest snapshot: its part of the vault then behaves as a vault of its own. -/

namespace Undo
open Classical

variable {π α β : Type*} [DecidableEq π]

/-- The memory of each owner, and the snapshots, newest first: the owner, the region that was cleared,
    and the memory before. -/
structure Vault (π α β : Type*) where
  mems : π → α → β
  saved : List (π × Set α × (α → β))

inductive Act (α β : Type*) where
  | clear (region : Set α) (blank : β)
  | undo
  | write (addr : α) (value : β)

namespace Vault

/-- The vault after owner `p` acts. -/
noncomputable def act [DecidableEq α] (v : Vault π α β) (p : π) : Act α β → Vault π α β
  | .clear region blank =>
    { mems := Function.update v.mems p (region.piecewise (fun _ => blank) (v.mems p))
      saved := (p, region, v.mems p) :: v.saved }
  | .undo =>
    match v.saved with
    | [] => v
    | (_, region, before) :: rest =>
      { mems := Function.update v.mems p (region.piecewise before (v.mems p)), saved := rest }
  | .write addr value => { v with mems := Function.update v.mems p (Function.update (v.mems p) addr value) }

/-- The part of owner `p`, as a vault with one owner. -/
noncomputable def own (v : Vault π α β) (p : π) : Vault Unit α β where
  mems _ := v.mems p
  saved := (v.saved.filter fun x => x.1 = p).map fun x => ((), x.2)

/-- An undo of owner `p` meets a snapshot of its own. -/
def OwnTurn (v : Vault π α β) (p : π) (a : Act α β) : Prop := a = .undo → ∃ x rest, v.saved = (p, x) :: rest

variable {v : Vault π α β} {p q : π} {a : Act α β}

theorem own_saved_length_le : (v.own p).saved.length ≤ v.saved.length := by
  rw [own, List.length_map]
  exact List.length_filter_le _ _

theorem update_unit {γ : Type*} (f : Unit → γ) (c : γ) : Function.update f () c = fun _ => c :=
  funext fun _ => Function.update_self () c f

variable [DecidableEq α]

/-- What an owner does, it does to its own part. -/
theorem own_act_self (h : v.OwnTurn p a) : (v.act p a).own p = (v.own p).act () a := by
  cases a with
  | clear region blank => simp [act, own, update_unit]
  | undo =>
    obtain ⟨⟨region, before⟩, rest, hsaved⟩ := h rfl
    simp [act, own, hsaved, update_unit]
  | write addr value => simp [act, own, update_unit]

/-- What the others do is not seen. -/
theorem own_act_other (h : v.OwnTurn q a) (hne : q ≠ p) : (v.act q a).own p = v.own p := by
  cases a with
  | clear region blank => simp [act, own, hne, hne.symm]
  | undo =>
    obtain ⟨⟨region, before⟩, rest, hsaved⟩ := h rfl
    simp [act, own, hsaved, hne, hne.symm]
  | write addr value => simp [act, own, hne.symm]

end Vault
end Undo
