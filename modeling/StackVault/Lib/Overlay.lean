import Mathlib.Algebra.Group.Nat.Even
import Mathlib.Data.List.Induction
import Mathlib.Data.List.Perm.Basic
import Mathlib.Logic.Function.Basic

/-! Memories under masks. A mask puts something on every value, and put on once more takes it away; a write replaces a
    value together with all that was put on it. A value is then what was written last, under the masks since, and masks
    put on an even number of times, in any order, are gone. -/

namespace Overlay

variable {α β κ : Type*}

/-- What lies on a value twice is not there. -/
structure Cancels (op : β → β → β) (e : β) : Prop where
  assoc : ∀ a b c, op (op a b) c = op a (op b c)
  comm : ∀ a b, op a b = op b a
  unit : ∀ a, op a e = a
  self : ∀ a, op a a = e

inductive Event (α β κ : Type*) where
  | mask (k : κ)
  | write (addr : α) (value : β)

section Events
variable [DecidableEq α]

def Event.play (op : β → β → β) (m : κ → α → β) : Event α β κ → (α → β) → α → β
  | mask k, f => fun a => op (f a) (m k a)
  | write addr value, f => Function.update f addr value

/-- The event without its mask. -/
def Event.plain : Event α β κ → (α → β) → α → β
  | mask _, f => f
  | write addr value, f => Function.update f addr value

/-- The masks that lie on the value at `a` after the event. -/
def Event.since (a : α) : Event α β κ → List κ → List κ
  | mask k, ks => k :: ks
  | write addr _, ks => if a = addr then [] else ks

def play (op : β → β → β) (m : κ → α → β) (es : List (Event α β κ)) (f : α → β) : α → β :=
  es.foldl (fun f ev => ev.play op m f) f

/-- The memory that the writes alone leave. -/
def plain (es : List (Event α β κ)) (f : α → β) : α → β := es.foldl (fun f ev => ev.plain f) f

/-- The masks since the last write at `a`, newest first. -/
def since (a : α) (es : List (Event α β κ)) : List κ := es.foldl (fun ks ev => ev.since a ks) []

/-- All that masks put on a value. -/
def total (op : β → β → β) (e : β) (bs : List β) : β := bs.foldr op e

variable {op : β → β → β} {e : β} {m : κ → α → β} {es : List (Event α β κ)} {ev : Event α β κ} {f : α → β} {a : α}
  {ks : List κ}

@[simp] theorem play_snoc : play op m (es ++ [ev]) f = ev.play op m (play op m es f) := by simp [play]

@[simp] theorem plain_snoc : plain (es ++ [ev]) f = ev.plain (plain es f) := by simp [plain]

@[simp] theorem since_snoc : since a (es ++ [ev]) = ev.since a (since a es) := by simp [since]

/-- A value is what was written last, under the masks since. -/
theorem play_apply (h : Cancels op e) (es : List (Event α β κ)) (f : α → β) (a : α) :
    play op m es f a = op (plain es f a) (total op e ((since a es).map fun k => m k a)) := by
  induction es using List.reverseRecOn with
  | nil => exact (h.unit _).symm
  | append_singleton es ev ih =>
    rw [play_snoc, plain_snoc, since_snoc]
    cases ev with
    | mask k =>
      have hmask : op (play op m es f a) (m k a) =
          op (plain es f a) (op (m k a) (total op e ((since a es).map fun k => m k a))) := by
        rw [ih, h.assoc, h.comm _ (m k a)]
      exact hmask
    | write addr value =>
      simp only [Event.play, Event.plain, Event.since]
      by_cases ha : a = addr
      · rw [ha, Function.update_self, Function.update_self, if_pos rfl]
        exact (h.unit _).symm
      · rw [Function.update_of_ne ha, Function.update_of_ne ha, if_neg ha]
        exact ih

end Events

section Parity
variable {op : β → β → β} {e : β} {ks ks' : List κ} {g : κ → β}

theorem Cancels.total_perm (h : Cancels op e) (hp : ks.Perm ks') : total op e (ks.map g) = total op e (ks'.map g) := by
  have hleft : LeftCommutative op := ⟨fun a b c => by rw [← h.assoc, h.comm a b, h.assoc]⟩
  exact (hp.map g).foldr_eq e

/-- The first of the elements, each of them there an even number of times, is there once more behind. -/
theorem even_erase [DecidableEq κ] {k : κ} (heven : ∀ i, Even ((k :: ks).count i)) :
    k ∈ ks ∧ ∀ i, Even ((ks.erase k).count i) := by
  have hmem : k ∈ ks := by
    by_contra hnot
    have hone := heven k
    rw [List.count_cons_self, List.count_eq_zero_of_not_mem hnot] at hone
    exact absurd hone (by decide)
  refine ⟨hmem, fun i => ?_⟩
  have hi := heven i
  rw [((List.perm_cons_erase hmem).cons k).count_eq] at hi
  by_cases hik : i = k
  · rw [hik, List.count_cons_self, List.count_cons_self, Nat.add_assoc] at hi
    rw [hik]
    exact (Nat.even_add.mp hi).mpr (by decide)
  · rwa [List.count_cons_of_ne (Ne.symm hik), List.count_cons_of_ne (Ne.symm hik)] at hi

/-- Masks that are there an even number of times each leave nothing. -/
theorem Cancels.total_even [DecidableEq κ] (h : Cancels op e) (heven : ∀ k, Even (ks.count k)) :
    total op e (ks.map g) = e := by
  induction hn : ks.length using Nat.strong_induction_on generalizing ks with
  | _ n ih =>
    cases ks with
    | nil => rfl
    | cons k ks =>
      obtain ⟨hmem, hrest⟩ := even_erase heven
      have hlt : (ks.erase k).length < n := by
        rw [← hn, List.length_erase_of_mem hmem, List.length_cons]
        omega
      calc total op e ((k :: ks).map g) = op (g k) (op (g k) (total op e ((ks.erase k).map g))) :=
            h.total_perm ((List.perm_cons_erase hmem).cons k)
        _ = total op e ((ks.erase k).map g) := by rw [← h.assoc, h.self, h.comm, h.unit]
        _ = e := ih _ hlt hrest rfl

end Parity

end Overlay
