import StackVault.StackEncrypt
import Mathlib.Tactic.Abel

/-! What the XOR of a frame does to each byte. The words that the loop takes begin at `user_rsp` and go on
    until one has begun after `user_rbp`, so the last of them ends behind the frame; the parameters get their
    bytes back from the buffer. A second pass undoes the first wherever no parameter is. -/

namespace StackVault
open Memory

/-- How many bytes the parameters have together. -/
def paraBytes (plt : List Para) : Nat := (plt.map fun p => p.size.toNat).sum

/-- Some parameter has the address. -/
def ParaByte (plt : List Para) (x : Addr) : Prop := Covers (plt.map Para.span) x

instance (plt : List Para) (x : Addr) : Decidable (ParaByte plt x) := inferInstanceAs (Decidable (Covers _ x))

/-- The address of the last word of the pass. -/
def lastWord (userRsp userRbp : Addr) : Nat := userRsp.toNat + 8 * ((userRbp.toNat - userRsp.toNat) / 8)

/-- The words of the pass have the address. -/
def InWords (userRsp userRbp x : Addr) : Prop := userRsp.toNat ≤ x.toNat ∧ x.toNat < lastWord userRsp userRbp + 8

instance (userRsp userRbp x : Addr) : Decidable (InWords userRsp userRbp x) := inferInstanceAs (Decidable (_ ∧ _))

/-- The byte of the key that the word at or before `x` has there. -/
def wordByte (key userRsp x : Addr) : Byte := byteAt key ((x.toNat - userRsp.toNat) % 8)

/-- Memory after a pass. -/
def passed (key userRsp userRbp : Addr) (plt : List Para) (mem : Mem) : Mem := fun x =>
  if ParaByte plt x then mem x else if InWords userRsp userRbp x then mem x ^^^ wordByte key userRsp x else mem x

/-! ### The buffer -/

section Buffer
variable {mem mem₀ : Mem} {plt : List Para} {offset : Addr} {buf : ParaBuf}

/-- From `offset` on, the buffer has the bytes of the parameters, one after another. -/
def ParaBuf.Carries (mem : Mem) : List Para → Addr → ParaBuf → Prop
  | [], _, _ => True
  | tmp :: rest, offset, buf =>
    (∀ k, k < tmp.size → buf.data (offset + k) = mem (tmp.addr + k)) ∧ Carries mem rest (offset + tmp.size) buf

theorem paraBytes_cons {tmp : Para} : paraBytes (tmp :: plt) = tmp.size.toNat + paraBytes plt := by
  simp [paraBytes]

theorem totalParaSize_toNat (h : paraBytes plt < 2 ^ 64) : (totalParaSize plt).toNat = paraBytes plt := by
  have key : ∀ (plt : List Para) (total : Addr), total.toNat + paraBytes plt < 2 ^ 64 →
      (plt.foldl (fun total tmp => total + tmp.size) total).toNat = total.toNat + paraBytes plt := by
    intro plt
    induction plt with
    | nil => intro total _; simp [paraBytes]
    | cons tmp rest ih =>
      intro total hlt
      rw [paraBytes_cons] at hlt ⊢
      have hsum : (total + tmp.size).toNat = total.toNat + tmp.size.toNat := by
        rw [BitVec.toNat_add, Nat.mod_eq_of_lt (by omega)]
      rw [List.foldl_cons, ih _ (by omega), hsum, Nat.add_assoc]
  have htotal := key plt 0 (by simpa using h)
  exact htotal.trans (Nat.zero_add _)

theorem ParaBuf.fault_eq_none {len : Addr} (hlive : buf.addr ≠ 0 ∨ len = 0) (hin : buf.Within offset len) :
    buf.fault offset len = none := by
  unfold fault
  by_cases h0 : len = 0
  · rw [if_pos h0]
  · rw [if_neg h0, if_neg (hlive.resolve_right h0), if_pos hin]

theorem add_size {tmp : Para} (hin : offset.toNat + paraBytes (tmp :: plt) ≤ buf.size.toNat) :
    (offset + tmp.size).toNat = offset.toNat + tmp.size.toNat ∧ buf.Within offset tmp.size ∧
      offset.toNat + tmp.size.toNat + paraBytes plt ≤ buf.size.toNat := by
  rw [paraBytes_cons] at hin
  have hsize := buf.size.isLt
  refine ⟨by rw [BitVec.toNat_add, Nat.mod_eq_of_lt (by omega)], ?_, by omega⟩
  unfold ParaBuf.Within
  omega

theorem live_cons {tmp : Para} {P : Prop} (h : P ∨ paraBytes (tmp :: plt) = 0) :
    (P ∨ tmp.size = 0) ∧ (P ∨ paraBytes plt = 0) := by
  rw [paraBytes_cons, Nat.add_eq_zero_iff] at h
  exact ⟨h.imp_right fun h0 => BitVec.eq_of_toNat_eq h0.1, h.imp_right And.right⟩

/-- A buffer that was allocated takes all parameters, and keeps what is before them. -/
theorem saveParas_ok (mem : Mem) :
    ∀ (plt : List Para) (offset : Addr) (buf : ParaBuf), (buf.addr ≠ 0 ∨ paraBytes plt = 0) →
    offset.toNat + paraBytes plt ≤ buf.size.toNat → ∃ buf', saveParas mem plt offset buf = .ok buf' ∧
      buf'.addr = buf.addr ∧
      buf'.size = buf.size ∧ buf'.Carries mem plt offset ∧ ∀ o, o.toNat < offset.toNat → buf'.data o = buf.data o
  | [], _, buf, _, _ => ⟨buf, rfl, rfl, rfl, trivial, fun _ _ => rfl⟩
  | tmp :: rest, offset, buf, hlive, hin => by
    obtain ⟨hnext, hhas, hrest⟩ := add_size hin
    obtain ⟨hhead, hlater⟩ := live_cons hlive
    have hfit : (⟨offset, tmp.size⟩ : Span).Fits := by
      have hsize := buf.size.isLt
      unfold ParaBuf.Within at hhas
      unfold Range.Fits
      dsimp only
      omega
    obtain ⟨buf', hsave, haddr, hsize, hcarries, hkept⟩ := saveParas_ok mem rest (offset + tmp.size)
      { buf with data := blit buf.data ⟨offset, tmp.size⟩ fun k => mem (tmp.addr + k) } hlater
      (by rw [hnext]; exact hrest)
    refine ⟨buf', ?_, haddr, hsize, ⟨fun k hk => ?_, hcarries⟩, fun o ho => ?_⟩
    · rw [saveParas, ParaBuf.fault_eq_none hhead hhas]
      exact hsave
    · have hmem : offset + k ∈ (⟨offset, tmp.size⟩ : Span) := Range.offset_mem.mpr hk
      have hlt := ((Range.mem_iff hfit).mp hmem).2
      rw [hkept _ (by rw [hnext]; exact hlt)]
      show blit buf.data ⟨offset, tmp.size⟩ (fun k => mem (tmp.addr + k)) (offset + k) = mem (tmp.addr + k)
      rw [blit_of_mem hmem, add_sub_cancel_left]
    · have hout : o ∉ (⟨offset, tmp.size⟩ : Span) := fun hmem => by
        have := ((Range.mem_iff hfit).mp hmem).1
        dsimp only at this
        omega
      rw [hkept o (by omega)]
      show blit buf.data ⟨offset, tmp.size⟩ (fun k => mem (tmp.addr + k)) o = buf.data o
      exact blit_of_not_mem hout

/-- Without a buffer, a parameter with bytes is copied to a null pointer. -/
theorem saveParas_null (mem : Mem) :
    ∀ (plt : List Para) (offset : Addr) (buf : ParaBuf), buf.addr = 0 → paraBytes plt ≠ 0 →
    ∃ f, saveParas mem plt offset buf = .error f
  | [], _, _, _, h => absurd rfl h
  | tmp :: rest, offset, buf, hnull, h => by
    rw [saveParas, ParaBuf.fault]
    by_cases h0 : tmp.size = 0
    · rw [if_pos h0]
      rw [paraBytes_cons, h0] at h
      exact saveParas_null mem rest _ _ hnull (by simpa using h)
    · rw [if_neg h0, if_pos hnull]
      exact ⟨_, rfl⟩

/-- The parameters get their bytes back, and no other byte changes. -/
theorem restoreParas_ok : ∀ {plt : List Para} {offset : Addr} (mem : Mem), (buf.addr ≠ 0 ∨ paraBytes plt = 0) →
    offset.toNat + paraBytes plt ≤ buf.size.toNat → buf.Carries mem₀ plt offset →
    restoreParas buf plt offset mem = .ok fun x => if ParaByte plt x then mem₀ x else mem x
  | [], _, _, _, _, _ => congrArg Except.ok (funext fun _ => (if_neg covers_nil).symm)
  | tmp :: rest, offset, mem, hlive, hin, hcarries => by
    obtain ⟨hnext, hhas, hrest⟩ := add_size hin
    obtain ⟨hhead, hlater⟩ := live_cons hlive
    rw [restoreParas, ParaBuf.fault_eq_none hhead hhas]
    dsimp only
    rw [restoreParas_ok _ hlater (by rw [hnext]; exact hrest) hcarries.2]
    congr 1
    funext x
    have hback : blit mem tmp.span (fun k => buf.data (offset + k)) x = if x ∈ tmp.span then mem₀ x else mem x :=
      blit_apply hcarries.1
    have hiff : ParaByte (tmp :: rest) x ↔ x ∈ tmp.span ∨ ParaByte rest x := covers_cons
    rw [hback]
    by_cases hx : ParaByte rest x
    · rw [if_pos hx, if_pos (hiff.mpr (Or.inr hx))]
    · rw [if_neg hx]
      exact if_congr (by simp [hiff, hx]) rfl rfl

end Buffer

/-! ### The words -/

section Words
variable {key userRsp userRbp p x : Addr} {mem : Mem} {fuel fuel' n : Nat}

/-- One word: the bytes of the word of the key, one on each byte. -/
theorem store64_xor (hp : p.toNat + 8 ≤ 2 ^ 64) : store64 mem p (load64 mem p ^^^ key) x =
    if p.toNat ≤ x.toNat ∧ x.toNat < p.toNat + 8 then mem x ^^^ byteAt key (x.toNat - p.toNat) else mem x := by
  have hmem : x ∈ (⟨p, 8⟩ : Range 64) ↔ p.toNat ≤ x.toNat ∧ x.toNat < p.toNat + 8 := Range.mem_iff hp
  unfold store64
  by_cases hx : x ∈ (⟨p, 8⟩ : Range 64)
  · obtain ⟨hlo, hup⟩ := hmem.mp hx
    have hsub : (x - p).toNat = x.toNat - p.toNat := BitVec.toNat_sub_of_le (BitVec.le_def.mpr hlo)
    have haddr : p + BitVec.ofNat 64 (x - p).toNat = x := by
      rw [BitVec.ofNat_toNat, BitVec.setWidth_eq]
      abel
    rw [blit_of_mem hx, if_pos ⟨hlo, hup⟩, byteAt_xor]
    dsimp only
    rw [byteAt_load64 (by omega), haddr, hsub]
  · rw [blit_of_not_mem hx, if_neg (mt hmem.mpr hx)]

variable (key userRbp) in
/-- The loop takes the `n` words that begin up to `user_rbp`. -/
theorem xorWords_ok : ∀ (n fuel : Nat) (p : Addr) (mem : Mem), n < fuel → p.toNat + 8 * n < 2 ^ 64 →
    userRbp.toNat < p.toNat + 8 * n → (0 < n → p.toNat + 8 * n ≤ userRbp.toNat + 8) →
    ∃ p' : Addr, p'.toNat = p.toNat + 8 * n ∧ xorWords key userRbp fuel p mem = some (p', fun x =>
      if p.toNat ≤ x.toNat ∧ x.toNat < p.toNat + 8 * n then mem x ^^^ wordByte key p x else mem x)
  | 0, fuel + 1, p, mem, _, _, hend, _ => by
    refine ⟨p, rfl, ?_⟩
    rw [xorWords, if_neg (by rw [BitVec.le_def]; omega)]
    exact congrArg (fun m => some (p, m)) (funext fun x => (if_neg (by omega)).symm)
  | n + 1, fuel + 1, p, mem, hfuel, hfit, hend, hlast => by
    have hlast := hlast (Nat.succ_pos n)
    have hnext : (p + 8).toNat = p.toNat + 8 := by
      rw [BitVec.toNat_add]
      exact Nat.mod_eq_of_lt (by show p.toNat + 8 < 2 ^ 64; omega)
    obtain ⟨p', hp', hwords⟩ := xorWords_ok n fuel (p + 8) (store64 mem p (load64 mem p ^^^ key)) (by omega)
      (by omega) (by omega) (fun _ => by omega)
    refine ⟨p', by omega, ?_⟩
    rw [xorWords, if_pos (by rw [BitVec.le_def]; omega), hwords]
    refine congrArg (fun m => some (p', m)) (funext fun x => ?_)
    rw [store64_xor (by omega), hnext]
    unfold wordByte
    rw [hnext]
    by_cases hfirst : p.toNat ≤ x.toNat ∧ x.toNat < p.toNat + 8
    · rw [if_neg (by omega), if_pos hfirst, if_pos (by omega), Nat.mod_eq_of_lt (by omega)]
    · rw [if_neg hfirst]
      by_cases hlater : p.toNat + 8 ≤ x.toNat ∧ x.toNat < p.toNat + 8 + 8 * n
      · have hmod : (x.toNat - (p.toNat + 8)) % 8 = (x.toNat - p.toNat) % 8 := by omega
        rw [if_pos hlater, if_pos (by omega), hmod]
      · rw [if_neg hlater, if_neg (by omega)]

theorem xorWords_unique : ∀ {fuel fuel' : Nat} {p : Addr} {mem : Mem} {r r' : Addr × Mem},
    xorWords key userRbp fuel p mem = some r → xorWords key userRbp fuel' p mem = some r' → r = r'
  | 0, _, _, _, _, _, h, _ => by cases h
  | _ + 1, 0, _, _, _, _, _, h => by cases h
  | fuel + 1, fuel' + 1, p, mem, r, r', h, h' => by
    rw [xorWords] at h h'
    by_cases hp : p ≤ userRbp
    · rw [if_pos hp] at h h'
      exact xorWords_unique h h'
    · rw [if_neg hp] at h h'
      exact Option.some.inj (h.symm.trans h')

/-- Behind a frame that ends eight bytes before the last address, the loop stops after the word that begins
    at `user_rbp` or last before it, and there are no bytes left for the second loop. -/
theorem xorWords_frame (mem : Mem) (hle : userRsp ≤ userRbp) (hend : userRbp.toNat + 8 < 2 ^ 64)
    (hfuel : (userRbp.toNat - userRsp.toNat) / 8 + 2 ≤ fuel) :
    ∃ p : Addr, ¬p < userRbp ∧ xorWords key userRbp fuel userRsp mem = some (p, fun x =>
      if InWords userRsp userRbp x then mem x ^^^ wordByte key userRsp x else mem x) := by
  rw [BitVec.le_def] at hle
  obtain ⟨p, hp, hwords⟩ := xorWords_ok key userRbp ((userRbp.toNat - userRsp.toNat) / 8 + 1) fuel
    userRsp mem (by omega) (by omega) (by omega) (fun _ => by omega)
  refine ⟨p, by rw [BitVec.lt_def]; omega, ?_⟩
  rw [hwords]
  refine congrArg (fun m => some (p, m)) (funext fun x => ?_)
  exact if_congr (by unfold InWords lastWord; omega) rfl rfl

end Words

/-! ### A pass -/

section Pass
variable {env : Env} {fuel : Nat} {userRsp userRbp key : Addr} {plt : List Para} {heap : Heap} {mem : Mem}

theorem xorStack_ok (mem : Mem) (hle : userRsp ≤ userRbp) (hend : userRbp.toNat + 8 < 2 ^ 64)
    (htotal : paraBytes plt < 2 ^ 64) (halloc : env.kmalloc heap.next ≠ 0 ∨ paraBytes plt = 0)
    (hfuel : (userRbp.toNat - userRsp.toNat) / 8 + 2 ≤ fuel) :
    xorStack env fuel userRsp userRbp plt key heap mem =
      some (.ok (0, { heap with next := heap.next + 1 }, passed key userRsp userRbp plt mem)) := by
  have hsize : (0 : Addr).toNat + paraBytes plt ≤ (totalParaSize plt).toNat := by
    rw [totalParaSize_toNat htotal]
    exact (Nat.zero_add _).le
  obtain ⟨buf, hsave, haddr, hbuf, hcarries, -⟩ := saveParas_ok mem plt 0
    { addr := env.kmalloc heap.next, size := totalParaSize plt, data := fun _ => 0 } halloc hsize
  obtain ⟨p, hp, hwords⟩ := xorWords_frame mem hle hend hfuel
  have hback : ∀ m, restoreParas buf plt 0 m = _ := fun m =>
    restoreParas_ok m (by rw [haddr]; exact halloc) (by rw [hbuf]; exact hsize) hcarries
  rw [xorStack, hsave, hwords]
  dsimp only [Option.map_some]
  rw [if_neg hp, hback]
  rfl

/-- Without a buffer for parameters that have bytes, a pass faults. -/
theorem xorStack_null (fuel : Nat) (userRsp userRbp key : Addr) (mem : Mem) (hnull : env.kmalloc heap.next = 0)
    (hbytes : paraBytes plt ≠ 0) :
    ∃ c, xorStack env fuel userRsp userRbp plt key heap mem = some (.error c) := by
  obtain ⟨f, hsave⟩ := saveParas_null mem plt 0
    { addr := env.kmalloc heap.next, size := totalParaSize plt, data := fun _ => 0 } hnull hbytes
  rw [xorStack, hsave]
  exact ⟨_, rfl⟩

theorem xorStack_unique {fuel' : Nat} {r r' : Except Crash (Int × Heap × Mem)}
    (h : xorStack env fuel userRsp userRbp plt key heap mem = some r)
    (h' : xorStack env fuel' userRsp userRbp plt key heap mem = some r') : r = r' := by
  unfold xorStack at h h'
  cases hsave : saveParas mem plt 0
      { addr := env.kmalloc heap.next, size := totalParaSize plt, data := fun _ => 0 } with
  | error f =>
    rw [hsave] at h h'
    exact Option.some.inj (h.symm.trans h')
  | ok buf =>
    rw [hsave] at h h'
    obtain ⟨w, hw, hr⟩ := Option.map_eq_some_iff.mp h
    obtain ⟨w', hw', hr'⟩ := Option.map_eq_some_iff.mp h'
    rw [← hr, ← hr', xorWords_unique hw hw']

end Pass

/-! ### Two passes -/

section RoundTrip
variable {env : Env} {fuel fuel' : Nat} {userRsp userRbp key : Addr} {plt : List Para} {heap heap' : Heap}
  {mem mem₂ : Mem}

/-- The round trip. After an encrypt, and writes to parameters and outside its words, a decrypt gives every
    other byte of the words its value before the encrypt, and leaves the rest of memory as it finds it. -/
theorem xor_round_trip (mem : Mem) (hle : userRsp ≤ userRbp) (hend : userRbp.toNat + 8 < 2 ^ 64)
    (htotal : paraBytes plt < 2 ^ 64) (halloc : env.kmalloc heap.next ≠ 0) (halloc' : env.kmalloc heap'.next ≠ 0)
    (hfuel : (userRbp.toNat - userRsp.toNat) / 8 + 2 ≤ fuel)
    (hfuel' : (userRbp.toNat - userRsp.toNat) / 8 + 2 ≤ fuel') :
    ∃ heap₁ mem₁, encryptStack env fuel userRsp userRbp plt key heap mem = some (.ok (0, heap₁, mem₁)) ∧
      ∀ mem₂, (∀ x, mem₂ x ≠ mem₁ x → ParaByte plt x ∨ ¬InWords userRsp userRbp x) →
        ∃ heap₃ mem₃, decryptStack env fuel' userRsp userRbp plt key heap' mem₂ = some (.ok (0, heap₃, mem₃)) ∧
          ∀ x, mem₃ x = if InWords userRsp userRbp x ∧ ¬ParaByte plt x then mem x else mem₂ x := by
  refine ⟨_, _, xorStack_ok mem hle hend htotal (Or.inl halloc) hfuel, fun mem₂ hwrites => ?_⟩
  refine ⟨_, _, xorStack_ok mem₂ hle hend htotal (Or.inl halloc') hfuel', fun x => ?_⟩
  unfold passed at hwrites ⊢
  by_cases hp : ParaByte plt x
  · rw [if_pos hp, if_neg fun h => h.2 hp]
  · by_cases hw : InWords userRsp userRbp x
    · have hsame : mem₂ x = mem x ^^^ wordByte key userRsp x := by
        by_contra hne
        rcases hwrites x (by rwa [if_neg hp, if_pos hw]) with h | h
        · exact hp h
        · exact h hw
      rw [if_neg hp, if_pos hw, if_pos ⟨hw, hp⟩, hsame, BitVec.xor_assoc, BitVec.xor_self, BitVec.xor_zero]
    · rw [if_neg hp, if_neg hw, if_neg fun h => hw h.1]

end RoundTrip

/-! ### The frame -/

section Frame
variable {env : Env} {userRsp userRbp key x : Addr} {plt : List Para} {heap : Heap} {mem : Mem} {material : Addr → Byte}

/-- Every byte of `[user_rsp, user_rbp)` that no parameter has is XORed with the given byte, and no byte outside is
    changed. -/
def XorsFrame (env : Env) (userRsp userRbp : Addr) (plt : List Para) (key : Addr) (heap : Heap) (mem : Mem)
    (material : Addr → Byte) : Prop :=
  ∃ fuel heap' mem', encryptStack env fuel userRsp userRbp plt key heap mem = some (.ok (0, heap', mem')) ∧
    (∀ x, userRsp ≤ x ∧ x < userRbp → ¬ParaByte plt x → mem' x = mem x ^^^ material x) ∧
    ∀ x, ¬(userRsp ≤ x ∧ x < userRbp) → mem' x = mem x

/-- The whole words of the frame are for the words of the key, what remains is for its low byte. -/
def wordsThenBytes (key userRsp userRbp x : Addr) : Byte :=
  if x.toNat < lastWord userRsp userRbp then wordByte key userRsp x else byteAt key 0

/-- The byte of the key on `x` is zero, or a parameter has `x`, for every `x` of the last word behind the frame. -/
def QuietBehind (key userRsp userRbp : Addr) (plt : List Para) : Prop :=
  ∀ x : Addr, userRbp.toNat ≤ x.toNat → x.toNat < lastWord userRsp userRbp + 8 → ParaByte plt x ∨
    wordByte key userRsp x = 0

theorem inWords_of_frame (hx : userRsp ≤ x ∧ x < userRbp) : InWords userRsp userRbp x := by
  rw [BitVec.le_def, BitVec.lt_def] at hx
  unfold InWords lastWord
  omega

theorem xorsFrame_iff (hle : userRsp ≤ userRbp) (hend : userRbp.toNat + 8 < 2 ^ 64) (htotal : paraBytes plt < 2 ^ 64) :
    XorsFrame env userRsp userRbp plt key heap mem material ↔
      (env.kmalloc heap.next ≠ 0 ∨ paraBytes plt = 0) ∧
        (∀ x, userRsp ≤ x ∧ x < userRbp → ¬ParaByte plt x → wordByte key userRsp x = material x) ∧
        QuietBehind key userRsp userRbp plt := by
  constructor
  · rintro ⟨fuel, heap', mem', hcall, hframe, hrest⟩
    have halloc : env.kmalloc heap.next ≠ 0 ∨ paraBytes plt = 0 := by
      by_contra hnot
      rw [not_or, not_not] at hnot
      obtain ⟨c, hnull⟩ := xorStack_null fuel userRsp userRbp key mem hnot.1 hnot.2
      cases hnull.symm.trans hcall
    have hpass : mem' = passed key userRsp userRbp plt mem := by
      have hsame := xorStack_unique hcall (xorStack_ok mem hle hend htotal halloc (Nat.le_refl _))
      cases hsame
      rfl
    refine ⟨halloc, fun x hx hp => ?_, fun x hlo hup => ?_⟩
    · have hsame := hframe x hx hp
      rw [hpass, passed, if_neg hp, if_pos (inWords_of_frame hx)] at hsame
      exact (BitVec.xor_right_inj _).mp hsame
    · refine or_iff_not_imp_left.mpr fun hp => ?_
      have hout : ¬(userRsp ≤ x ∧ x < userRbp) := fun hx => by
        have := BitVec.lt_def.mp hx.2
        omega
      have hin : InWords userRsp userRbp x := ⟨(BitVec.le_def.mp hle).trans hlo, hup⟩
      have hsame := hrest x hout
      rw [hpass, passed, if_neg hp, if_pos hin] at hsame
      have hzero : mem x ^^^ wordByte key userRsp x = mem x ^^^ 0 := hsame.trans BitVec.xor_zero.symm
      exact (BitVec.xor_right_inj _).mp hzero
  · rintro ⟨halloc, hmaterial, hquiet⟩
    refine ⟨_, _, _, xorStack_ok mem hle hend htotal halloc (Nat.le_refl _), fun x hx hp => ?_, fun x hx => ?_⟩
    · rw [passed, if_neg hp, if_pos (inWords_of_frame hx), hmaterial x hx hp]
    · unfold passed
      by_cases hp : ParaByte plt x
      · rw [if_pos hp]
      · rw [if_neg hp]
        split
        · next hin =>
          have hlo : userRbp.toNat ≤ x.toNat := by
            by_contra hlt
            exact hx ⟨BitVec.le_def.mpr hin.1, BitVec.lt_def.mpr (Nat.lt_of_not_le hlt)⟩
          rw [(hquiet x hlo hin.2).resolve_left hp]
          exact BitVec.xor_zero
        · rfl

/-- The XOR of a frame. It keeps to the frame, and takes what does not fill a word byte by byte, if and only if
    the buffer is there, each such byte meets the low byte of the key in its word already, and no byte from
    `user_rbp` to the end of the last word is changed, being a parameter's or meeting a zero byte of the key. -/
theorem xor_stays_iff (hle : userRsp ≤ userRbp) (hend : userRbp.toNat + 8 < 2 ^ 64) (htotal : paraBytes plt < 2 ^ 64) :
    (XorsFrame env userRsp userRbp plt key heap mem (wordsThenBytes key userRsp userRbp) ↔
      (env.kmalloc heap.next ≠ 0 ∨ paraBytes plt = 0) ∧
        (∀ x : Addr, lastWord userRsp userRbp ≤ x.toNat → x < userRbp → ¬ParaByte plt x →
          wordByte key userRsp x = byteAt key 0) ∧
        QuietBehind key userRsp userRbp plt) ∧
    (XorsFrame env userRsp userRbp plt key heap mem (wordByte key userRsp) ↔
      (env.kmalloc heap.next ≠ 0 ∨ paraBytes plt = 0) ∧ QuietBehind key userRsp userRbp plt) := by
  refine ⟨(xorsFrame_iff hle hend htotal).trans
    (and_congr_right fun _ => and_congr_left fun _ => ⟨fun h x hlo hx hp => ?_,
    fun h x hx hp => ?_⟩), (xorsFrame_iff hle hend htotal).trans
    (and_congr_right fun _ => and_iff_right fun _ _ _ => rfl)⟩
  · have hframe : userRsp ≤ x := by
      rw [BitVec.le_def]
      unfold lastWord at hlo
      omega
    have hbyte := h x ⟨hframe, hx⟩ hp
    rwa [wordsThenBytes, if_neg (Nat.not_lt_of_le hlo)] at hbyte
  · unfold wordsThenBytes
    split
    · rfl
    · next hlast => exact h x (Nat.le_of_not_lt hlast) hx.2 hp

end Frame

/-! ### Frames of one word -/

/-- Two parameters that overlap, the second of which ends behind the frame `[0x1000, 0x1008)`. -/
def overlapping : List Para := [⟨0x1004, 4, 0⟩, ⟨0x1006, 10, 0⟩]

/-- A heap whose next `kmalloc` call is the first. -/
def Heap.unused : Heap := { next := 0, sbufs := fun _ => none }

theorem xor_round_trip_overlapping : ∃ heap₁ mem₁,
    encryptStack Env.sample 3 0x1000 0x1008 overlapping 0x1122334455667788 .unused (fun _ => 0x41) =
    some (.ok (0, heap₁, mem₁)) ∧
    ∃ heap₃ mem₃, decryptStack Env.sample 3 0x1000 0x1008 overlapping 0x1122334455667788 .unused
      (Function.update mem₁ 0x1005 0x42) = some (.ok (0, heap₃, mem₃)) ∧ mem₃ 0x1000 = 0x41 ∧ mem₃ 0x1005 = 0x42 := by
  obtain ⟨heap₁, mem₁, henc, hdec⟩ :=
    @xor_round_trip Env.sample 3 3 0x1000 0x1008 0x1122334455667788 overlapping .unused .unused
      (fun _ => 0x41) (by decide) (by decide) (by decide) (Env.sample_allocOk 0) (Env.sample_allocOk 0) (by decide)
      (by decide)
  have hwrites : ∀ x, Function.update mem₁ 0x1005 0x42 x ≠ mem₁ x → ParaByte overlapping x ∨
      ¬InWords 0x1000 0x1008 x := by
    intro x hx
    by_cases h : x = 0x1005
    · rw [h]
      exact Or.inl (by decide)
    · exact absurd (Function.update_of_ne h _ _) hx
  obtain ⟨heap₃, mem₃, hcall, hmem⟩ := hdec _ hwrites
  refine ⟨heap₁, mem₁, henc, heap₃, mem₃, hcall, ?_, ?_⟩
  · rw [hmem, if_pos (by decide)]
  · rw [hmem, if_neg (by decide)]
    exact Function.update_self _ _ _

theorem xor_stays_covered :
    XorsFrame Env.sample 0x1000 0x1008 [⟨0x1008, 8, 0⟩] 0x1122334455667788 .unused (fun _ => 0x41)
    (wordsThenBytes 0x1122334455667788 0x1000 0x1008) := by
  refine (xor_stays_iff (by decide) (by decide) (by decide)).1.mpr ⟨Or.inl (Env.sample_allocOk 0), fun x hlo hx _ => ?_,
    fun x hlo hup => Or.inl ?_⟩
  · have hlast : lastWord 0x1000 0x1008 = 0x1008 := by decide
    rw [hlast] at hlo
    exact absurd (BitVec.lt_def.mp hx) (Nat.not_lt_of_le hlo)
  · have hlast : lastWord 0x1000 0x1008 = 0x1008 := by decide
    rw [hlast] at hup
    exact ⟨⟨0x1008, 8⟩, List.mem_cons_self, (Range.mem_iff (by decide)).mpr ⟨hlo, hup⟩⟩

/-- The word at `user_rbp`, where the saved frame pointer is, is gone over as well. -/
theorem xor_overruns : ¬XorsFrame Env.sample 0x1000 0x1008 [] 1 .unused (fun _ => 0) (wordsThenBytes 1 0x1000 0x1008) ∧
    ¬XorsFrame Env.sample 0x1000 0x1008 [] 1 .unused (fun _ => 0) (wordByte 1 0x1000) ∧
    ∃ heap mem, encryptStack Env.sample 3 0x1000 0x1008 [] 1 .unused (fun _ => 0) = some (.ok (0, heap, mem)) ∧
    mem 0x1008 = 1 := by
  have hnot : ∀ material, ¬XorsFrame Env.sample 0x1000 0x1008 [] 1 .unused (fun _ => 0) material := by
    rintro material ⟨fuel, heap, mem, hcall, -, hrest⟩
    have hsame :=
      xorStack_unique hcall (xorStack_ok (fun _ => 0) (by decide) (by decide) (by decide) (Or.inr rfl) (Nat.le_refl _))
    cases hsame
    exact absurd (hrest 0x1008 (by decide)) (by decide)
  exact ⟨hnot _, hnot _, _, _, rfl, by decide⟩

end StackVault
