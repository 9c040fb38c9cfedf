import StackVault.Theorems.Involution
import StackVault.Lib.Overlay

/-! The XOR of frames over whole runs. A call puts the bytes of its key on its words, but for its parameters, whatever
    memory holds, and an encrypt and a decrypt put on the same. What a run leaves is what was written, under the bytes
    of the calls since. -/

namespace StackVault
open Memory Transition Overlay

/-- The frame ends eight bytes before the last address, and the sizes of the parameters do not wrap. -/
def XorCall.Fits (c : XorCall) : Prop :=
  c.userRsp ≤ c.userRbp ∧ c.userRbp.toNat + 8 < 2 ^ 64 ∧ paraBytes c.plt < 2 ^ 64

instance (c : XorCall) : Decidable c.Fits := inferInstanceAs (Decidable (_ ∧ _))

def XorOp.Fits : XorOp → Prop
  | encrypt c => c.Fits
  | decrypt c => c.Fits
  | write _ _ => True

/-- What a call puts on each byte. -/
def XorCall.mask (c : XorCall) (x : Addr) : Byte :=
  if ParaByte c.plt x then 0 else if InWords c.userRsp c.userRbp x then wordByte c.key c.userRsp x else 0

/-- Which of the two functions is called makes no difference. -/
def XorOp.event : XorOp → Event Addr Byte XorCall
  | encrypt c => .mask c
  | decrypt c => .mask c
  | write addr byte => .write addr byte

/-- The memory that the writes alone leave. -/
def XorOp.plain (ops : List XorOp) (mem : Mem) : Mem := Overlay.plain (ops.map event) mem

/-- The calls since the last write at `x`. -/
def XorOp.since (x : Addr) (ops : List XorOp) : List XorCall := Overlay.since x (ops.map event)

theorem xor_cancels : Cancels (fun a b : Byte => a ^^^ b) 0 where
  assoc := BitVec.xor_assoc
  comm := BitVec.xor_comm
  unit _ := BitVec.xor_zero
  self _ := BitVec.xor_self

section Steps
variable {env : Env} {s s₀ t : XorState} {op : XorOp} {ops : List XorOp} {c : XorCall} {tr : List (XorState × XorOp)}

theorem passed_mask (c : XorCall) (mem : Mem) :
    passed c.key c.userRsp c.userRbp c.plt mem = fun x => mem x ^^^ c.mask x := by
  funext x
  unfold passed XorCall.mask
  split_ifs <;> simp

/-- A pass that returns has put its mask on memory. -/
theorem xorStack_mask {fuel : Nat} {ret : Int} {heap heap' : Heap} {mem mem' : Mem} (hfit : c.Fits)
    (h : xorStack env fuel c.userRsp c.userRbp c.plt c.key heap mem = some (.ok (ret, heap', mem'))) :
    mem' = fun x => mem x ^^^ c.mask x := by
  obtain ⟨hle, hend, htotal⟩ := hfit
  have halloc : env.kmalloc heap.next ≠ 0 ∨ paraBytes c.plt = 0 := by
    by_contra hnot
    rw [not_or, not_not] at hnot
    obtain ⟨crash, hnull⟩ := xorStack_null fuel c.userRsp c.userRbp c.key mem hnot.1 hnot.2
    cases hnull.symm.trans h
  have hpass := xorStack_unique h (xorStack_ok mem hle hend htotal halloc (Nat.le_refl _))
  rw [passed_mask] at hpass
  cases hpass
  rfl

theorem XorStep.play (hs : XorStep env s op t) (hfit : op.Fits) :
    t.mem = op.event.play (fun a b => a ^^^ b) XorCall.mask s.mem := by
  cases op with
  | encrypt c =>
    obtain ⟨fuel, ret, h⟩ := hs
    exact xorStack_mask hfit h
  | decrypt c =>
    obtain ⟨fuel, ret, h⟩ := hs
    exact xorStack_mask hfit h
  | write addr byte =>
    obtain rfl := hs
    rfl

/-- With memory for its buffer, every operation returns. -/
theorem XorStep.total (halloc : env.AllocOk) (hfit : op.Fits) (s : XorState) : ∃ t, XorStep env s op t := by
  cases op with
  | encrypt c =>
    obtain ⟨hle, hend, htotal⟩ := hfit
    exact ⟨⟨_, _⟩, _, _, xorStack_ok s.mem hle hend htotal (Or.inl (halloc _)) (Nat.le_refl _)⟩
  | decrypt c =>
    obtain ⟨hle, hend, htotal⟩ := hfit
    exact ⟨⟨_, _⟩, _, _, xorStack_ok s.mem hle hend htotal (Or.inl (halloc _)) (Nat.le_refl _)⟩
  | write addr byte => exact ⟨_, rfl⟩

theorem xor_run_play (hr : Run (XorStep env) s₀ tr s) (hfit : ∀ op ∈ tr.map Prod.snd, op.Fits) :
    s.mem = play (fun a b => a ^^^ b) XorCall.mask ((tr.map Prod.snd).map XorOp.event) s₀.mem := by
  refine hr.history (I := fun tr s =>
    s.mem = play (fun a b => a ^^^ b) XorCall.mask ((tr.map Prod.snd).map XorOp.event) s₀.mem)
    (P := fun _ op => op.Fits) rfl (fun tr s op t _ ih hfit hs => ?_) (meets_of_labels fun op hop _ => hfit op hop)
  rw [hs.play hfit, ih, List.map_append, List.map_append, List.map_singleton, List.map_singleton, play_snoc]

/-- The XOR of frames, over every run of encrypts and decrypts, with any keys, frames that do not reach the end of
    memory and parameters whose sizes do not add up to more than a word, and of writes. With memory for the buffers
    each sequence has a run. It leaves each byte as it was written last, XORed with the bytes of the calls since: as
    written, when each of these calls has been made an even number of times, as an encrypt or as a decrypt, and in
    whatever order. -/
theorem xor_runs_overlay (hfit : ∀ op ∈ ops, op.Fits) (s₀ : XorState) :
    (env.AllocOk → ∃ tr s, Run (XorStep env) s₀ tr s ∧ tr.map Prod.snd = ops) ∧
      ∀ tr s, Run (XorStep env) s₀ tr s → tr.map Prod.snd = ops → ∀ x,
        s.mem x = XorOp.plain ops s₀.mem x ^^^ ((XorOp.since x ops).map fun c => c.mask x).foldr (· ^^^ ·) 0 ∧
          ((∀ c, Even ((XorOp.since x ops).count c)) → s.mem x = XorOp.plain ops s₀.mem x) := by
  refine ⟨fun halloc => ?_, ?_⟩
  · induction ops using List.reverseRecOn with
    | nil => exact ⟨[], s₀, .nil, rfl⟩
    | append_singleton ops op ih =>
      obtain ⟨tr, s, hr, hl⟩ := ih fun op hop => hfit op (List.mem_append_left _ hop)
      obtain ⟨t, hs⟩ := XorStep.total halloc (hfit op (List.mem_append_right _ (List.mem_singleton_self op))) s
      exact ⟨_, t, hr.snoc hs, by rw [List.map_append, hl, List.map_singleton]⟩
  · rintro tr s hr rfl x
    have hplay := congrFun (xor_run_play hr hfit) x
    rw [play_apply xor_cancels] at hplay
    refine ⟨hplay, fun heven => hplay.trans ?_⟩
    have hnone : total (fun a b : Byte => a ^^^ b) 0 ((XorOp.since x (tr.map Prod.snd)).map fun c => c.mask x) = 0 :=
      xor_cancels.total_even heven
    unfold XorOp.since at hnone
    rw [hnone]
    exact BitVec.xor_zero

end Steps

/-! ### Two frames that cross -/

def crossedLow : XorCall := ⟨0x1000, 0x1010, [⟨0x1004, 4, 0⟩], 0x1122334455667788⟩

def crossedHigh : XorCall := ⟨0x1008, 0x1020, [], 0x99aabbccddeeff00⟩

/-- Two frames that share two words, and are not undone in the reverse order. -/
theorem xor_runs_overlay_crossed : ∃ tr s, Run (XorStep Env.sample) ⟨.unused, fun _ => 0x41⟩ tr s ∧
    tr.map Prod.snd = [.encrypt crossedLow, .encrypt crossedHigh, .decrypt crossedLow, .decrypt crossedHigh] ∧
    s.mem = fun _ => 0x41 := by
  have hlow : crossedLow.Fits := by decide
  have hhigh : crossedHigh.Fits := by decide
  have hfit : ∀ op ∈ [XorOp.encrypt crossedLow, .encrypt crossedHigh, .decrypt crossedLow, .decrypt crossedHigh],
      op.Fits := by
    intro op hop
    simp only [List.mem_cons, List.not_mem_nil, or_false] at hop
    rcases hop with rfl | rfl | rfl | rfl
    exacts [hlow, hhigh, hlow, hhigh]
  obtain ⟨hruns, hall⟩ := @xor_runs_overlay Env.sample _ hfit ⟨.unused, fun _ => 0x41⟩
  obtain ⟨tr, s, hr, hl⟩ := hruns Env.sample_allocOk
  refine ⟨tr, s, hr, hl, funext fun x => (hall tr s hr hl x).2 fun c => ?_⟩
  have hsince : XorOp.since x [.encrypt crossedLow, .encrypt crossedHigh, .decrypt crossedLow, .decrypt crossedHigh] =
      [crossedHigh, crossedLow, crossedHigh, crossedLow] := rfl
  rw [hsince]
  by_cases hlow : c = crossedLow
  · subst hlow
    decide
  · by_cases hhigh : c = crossedHigh
    · subst hhigh
      decide
    · rw [List.count_eq_zero_of_not_mem (by simp [hlow, hhigh])]
      decide

end StackVault
